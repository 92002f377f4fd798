import LoxLang.Tree.Statement
/-! The grammar of the language, as rules over kinds of tokens, and what derives from it. -/
namespace LoxLang

inductive Nonterminal where
  | program | declaration | classDecl | funDecl | varDecl | function | parameters
  | statement | exprStmt | forStmt | ifStmt | printStmt | returnStmt | whileStmt | block
  | expression | assignment | conditional | logicOr | logicAnd | equality | comparison
  | term | factor | unary | call | arguments | primary
deriving DecidableEq

/-- The right-hand side of a production. -/
inductive Rule where
  | token (kind : Kind)
  | ref (n : Nonterminal)
  | sequence (parts : List Rule)
  | choice (alternatives : List Rule)
  | optional (part : Rule)
  | many (part : Rule)
  /-- Parts separated by commas, at least one. -/
  | entries (part : Rule)

namespace Rule

/-- Operands of a level with operators between them. -/
def operands (operators : List Kind) (operand : Nonterminal) : Rule :=
  .sequence [.ref operand, .many (.sequence [.choice (operators.map .token), .ref operand])]

end Rule

section
open Rule

/-- The productions. -/
def Nonterminal.rule : Nonterminal → Rule
  | program => many (ref declaration)
  | declaration => choice [ref classDecl, ref funDecl, ref varDecl, ref statement]
  | classDecl => sequence [token .classWord, token .identifier,
      optional (sequence [token .less, token .identifier]),
      token .leftBrace, many (ref function), token .rightBrace]
  | funDecl => sequence [token .funWord, ref function]
  | varDecl => sequence [token .varWord, token .identifier,
      optional (sequence [token .equal, ref expression]), token .semicolon]
  | function => sequence [token .identifier, token .leftParen, optional (ref parameters),
      token .rightParen, ref block]
  | parameters => entries (token .identifier)
  | statement => choice [ref exprStmt, ref forStmt, ref ifStmt, ref printStmt, ref returnStmt,
      ref whileStmt, ref block]
  | exprStmt => sequence [ref expression, token .semicolon]
  | forStmt => sequence [token .forWord, token .leftParen,
      choice [ref varDecl, ref exprStmt, token .semicolon],
      optional (ref expression), token .semicolon, optional (ref expression), token .rightParen,
      ref statement]
  | ifStmt => sequence [token .ifWord, token .leftParen, ref expression, token .rightParen,
      ref statement, optional (sequence [token .elseWord, ref statement])]
  | printStmt => sequence [token .printWord, ref expression, token .semicolon]
  | returnStmt => sequence [token .returnWord, optional (ref expression), token .semicolon]
  | whileStmt => sequence [token .whileWord, token .leftParen, ref expression, token .rightParen,
      ref statement]
  | block => sequence [token .leftBrace, many (ref declaration), token .rightBrace]
  | expression => operands [.comma] assignment
  | assignment => choice [sequence [optional (sequence [ref call, token .dot]), token .identifier,
      token .equal, ref assignment], ref conditional]
  | conditional => sequence [ref logicOr, optional (sequence [token .question, ref assignment,
      token .colon, ref conditional])]
  | logicOr => operands [.orWord] logicAnd
  | logicAnd => operands [.andWord] equality
  | equality => operands [.bangEqual, .equalEqual] comparison
  | comparison => operands [.greater, .greaterEqual, .less, .lessEqual] term
  | term => operands [.minus, .plus] factor
  | factor => operands [.slash, .star] unary
  | unary => choice [sequence [choice [token .bang, token .minus], ref unary], ref call]
  | call => sequence [ref primary, many (choice [
      sequence [token .leftParen, optional (ref arguments), token .rightParen],
      sequence [token .dot, token .identifier]])]
  | arguments => entries (ref assignment)
  | primary => choice [token .trueWord, token .falseWord, token .nilWord, token .thisWord,
      token .number, token .text, token .identifier,
      sequence [token .leftParen, ref expression, token .rightParen],
      sequence [token .superWord, token .dot, token .identifier]]

end

/-- The kinds derive from the rule, with an allowed number of entries in every list. -/
inductive Derives (allowed : Nat → Prop) : Rule → List Kind → Prop
  | token (kind : Kind) : Derives allowed (.token kind) [kind]
  | ref {n : Nonterminal} {ks : List Kind} :
    Derives allowed n.rule ks → Derives allowed (.ref n) ks
  | empty : Derives allowed (.sequence []) []
  | sequence {part : Rule} {parts : List Rule} {ks ls : List Kind} :
    Derives allowed part ks → Derives allowed (.sequence parts) ls →
    Derives allowed (.sequence (part :: parts)) (ks ++ ls)
  | choice {p : Rule} {alternatives : List Rule} {ks : List Kind} :
    p ∈ alternatives → Derives allowed p ks → Derives allowed (.choice alternatives) ks
  | absent {part : Rule} : Derives allowed (.optional part) []
  | present {part : Rule} {ks : List Kind} :
    Derives allowed part ks → Derives allowed (.optional part) ks
  | none {part : Rule} : Derives allowed (.many part) []
  | more {part : Rule} {ks ls : List Kind} :
    Derives allowed part ks → Derives allowed (.many part) ls →
    Derives allowed (.many part) (ks ++ ls)
  | entries {part : Rule} {list : List (List Kind)} :
    list ≠ [] → allowed list.length → (∀ ks ∈ list, Derives allowed part ks) →
    Derives allowed (.entries part) ([Kind.comma].intercalate list)

namespace Derives
variable {allowed : Nat → Prop} {part : Rule} {parts : List Rule} {ks : List Kind}

theorem token_iff {kind : Kind} : Derives allowed (.token kind) ks ↔ ks = [kind] := by
  constructor
  · intro derives
    cases derives
    rfl
  · rintro rfl
    exact .token kind

theorem ref_iff {n : Nonterminal} : Derives allowed (.ref n) ks ↔ Derives allowed n.rule ks := by
  constructor
  · intro derives
    cases derives
    assumption
  · exact .ref

theorem empty_iff : Derives allowed (.sequence []) ks ↔ ks = [] := by
  constructor
  · intro derives
    cases derives
    rfl
  · rintro rfl
    exact .empty

theorem sequence_iff : Derives allowed (.sequence (part :: parts)) ks ↔
    ∃ first second, ks = first ++ second ∧ Derives allowed part first ∧
      Derives allowed (.sequence parts) second := by
  constructor
  · intro derives
    cases derives with
    | sequence head tail => exact ⟨_, _, rfl, head, tail⟩
  · rintro ⟨first, second, rfl, head, tail⟩
    exact .sequence head tail

theorem choice_iff : Derives allowed (.choice parts) ks ↔
    ∃ part ∈ parts, Derives allowed part ks := by
  constructor
  · intro derives
    cases derives with
    | choice member inner => exact ⟨_, member, inner⟩
  · rintro ⟨part, member, inner⟩
    exact .choice member inner

theorem optional_iff : Derives allowed (.optional part) ks ↔
    ks = [] ∨ Derives allowed part ks := by
  constructor
  · intro derives
    cases derives with
    | absent => exact .inl rfl
    | present inner => exact .inr inner
  · rintro (rfl | inner)
    · exact .absent
    · exact .present inner

theorem cast {rule : Rule} {ls : List Kind} (derives : Derives allowed rule ks) (same : ls = ks) :
    Derives allowed rule ls := same ▸ derives

end Derives

namespace Rule

mutual

/-- No phrase of the rule is without tokens. -/
def solid : Rule → Bool
  | token _ => true
  | ref n => n ≠ .program
  | sequence parts => anySolid parts
  | choice alternatives => allSolid alternatives
  | optional _ | many _ => false
  | entries part => part.solid

def anySolid : List Rule → Bool
  | [] => false
  | part :: rest => part.solid || anySolid rest

def allSolid : List Rule → Bool
  | [] => true
  | part :: rest => part.solid && allSolid rest

end

theorem solid_of_mem {part : Rule} {parts : List Rule} (all : allSolid parts = true)
    (member : part ∈ parts) : part.solid = true := by
  induction parts with
  | nil => cases member
  | cons first rest ih =>
      obtain ⟨head, tail⟩ := Bool.and_eq_true_iff.mp all
      rcases List.mem_cons.mp member with rfl | later
      · exact head
      · exact ih tail later

end Rule

theorem Nonterminal.solid_rule {n : Nonterminal} (other : n ≠ .program) : n.rule.solid = true := by
  cases n <;> first | exact absurd rfl other | decide

/-- Every phrase but an empty program has a token. -/
theorem Derives.ne_nil {allowed : Nat → Prop} {rule : Rule} {ks : List Kind}
    (derives : Derives allowed rule ks) (solid : rule.solid = true) : ks ≠ [] := by
  induction derives with
  | token kind => simp
  | ref _ ih => exact ih (Nonterminal.solid_rule (of_decide_eq_true solid))
  | empty => cases solid
  | sequence _ _ head tail =>
      rcases Bool.or_eq_true_iff.mp solid with first | others
      · exact fun none => head first (List.append_eq_nil_iff.mp none).1
      · exact fun none => tail others (List.append_eq_nil_iff.mp none).2
  | choice member _ ih => exact ih (Rule.solid_of_mem solid member)
  | absent => cases solid
  | present _ _ => cases solid
  | none => cases solid
  | more _ _ _ _ => cases solid
  | @entries part list some _ _ ih =>
      cases list with
      | nil => exact absurd rfl some
      | cons first rest =>
          have head := ih first List.mem_cons_self solid
          cases rest with
          | nil => simpa using head
          | cons second rest => simp

end LoxLang
