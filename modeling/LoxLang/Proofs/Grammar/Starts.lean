import LoxLang.Proofs.Grammar
/-! The tokens that phrases can start with. -/
namespace LoxLang

/-- What a primary expression can start with. -/
def primaryStarts : List Kind :=
  [.trueWord, .falseWord, .nilWord, .thisWord, .number, .text, .identifier, .leftParen, .superWord]

def expressionStarts : List Kind := .bang :: .minus :: primaryStarts

def statementStarts : List Kind :=
  [.forWord, .ifWord, .printWord, .returnWord, .whileWord, .leftBrace] ++ expressionStarts

def declarationStarts : List Kind := [.classWord, .funWord, .varWord] ++ statementStarts

def Nonterminal.starts : Nonterminal → List Kind
  | program | declaration => declarationStarts
  | classDecl => [.classWord]
  | funDecl => [.funWord]
  | varDecl => [.varWord]
  | function | parameters => [.identifier]
  | statement => statementStarts
  | forStmt => [.forWord]
  | ifStmt => [.ifWord]
  | printStmt => [.printWord]
  | returnStmt => [.returnWord]
  | whileStmt => [.whileWord]
  | block => [.leftBrace]
  | exprStmt | expression | assignment | conditional | logicOr | logicAnd | equality | comparison
  | term | factor | unary | arguments => expressionStarts
  | call | primary => primaryStarts

namespace Rule

mutual

/-- What a phrase of the rule can start with. -/
def starts : Rule → List Kind
  | token kind => [kind]
  | ref n => n.starts
  | sequence parts => startsInTurn parts
  | choice alternatives => startsOfAny alternatives
  | optional part | many part => part.starts
  | entries part => part.starts ++ if part.solid then [] else [.comma]

def startsInTurn : List Rule → List Kind
  | [] => []
  | part :: rest => part.starts ++ if part.solid then [] else startsInTurn rest

def startsOfAny : List Rule → List Kind
  | [] => []
  | part :: rest => part.starts ++ startsOfAny rest

end

theorem mem_startsOfAny {part : Rule} {parts : List Rule} (member : part ∈ parts) {k : Kind}
    (start : k ∈ part.starts) : k ∈ startsOfAny parts := by
  induction parts with
  | nil => cases member
  | cons first rest ih =>
      rcases List.mem_cons.mp member with rfl | later
      · exact List.mem_append_left _ start
      · exact List.mem_append_right _ (ih later)

end Rule

theorem Nonterminal.starts_rule (n : Nonterminal) : ∀ k ∈ n.rule.starts, k ∈ n.starts := by
  cases n <;> decide

/-- A phrase starts with one of the tokens that its rule can start with. -/
theorem Derives.starts {allowed : Nat → Prop} {rule : Rule} {ks : List Kind}
    (derives : Derives allowed rule ks) : ∀ k, ks.head? = some k → k ∈ rule.starts := by
  induction derives with
  | token kind => simp [Rule.starts]
  | @ref n ks _ ih => exact fun k head => n.starts_rule k (ih k head)
  | empty => simp
  | @sequence part parts ks ls first _ head tail =>
      intro k same
      cases ks with
      | nil =>
          have thin : part.solid = false := by
            cases solid : part.solid with
            | false => rfl
            | true => exact absurd rfl (first.ne_nil solid)
          simp only [Rule.starts, Rule.startsInTurn, thin]
          exact List.mem_append_right _ (tail k same)
      | cons k' ks => exact List.mem_append_left _ (head k same)
  | choice member _ ih => exact fun k head => Rule.mem_startsOfAny member (ih k head)
  | absent => simp
  | present _ ih => exact ih
  | none => simp
  | @more part ks ls _ _ head tail =>
      intro k same
      cases ks with
      | nil => exact tail k same
      | cons k' ks => exact head k same
  | @entries part list some _ all ih =>
      intro k same
      cases list with
      | nil => exact absurd rfl some
      | cons first rest =>
          cases first with
          | cons k' ks =>
              refine List.mem_append_left _ (ih _ List.mem_cons_self k ?_)
              cases rest <;> simpa using same
          | nil =>
              have thin : part.solid = false := by
                cases solid : part.solid with
                | false => rfl
                | true => exact absurd rfl ((all [] List.mem_cons_self).ne_nil solid)
              cases rest with
              | nil => simp at same
              | cons second rest =>
                  have comma : Kind.comma = k := by simpa using same
                  simp [Rule.starts, thin, ← comma]

end LoxLang
