import LoxLang.Proofs.Printing.Outlines
import LoxLang.Proofs.Printing.Trees
/-! Outlines read back as statements, the name of a routine with its parameters among the words. -/
namespace LoxLang

namespace Outline

/-- The name that a word spells. -/
def name? : Outline → Option Name
  | word cs => some ⟨String.ofList cs, .start⟩
  | list _ => none

/-- The names between spaces. -/
def names (cs : List Char) : List Name :=
  if cs = [] then [] else (cs.splitOn ' ').map fun word => ⟨String.ofList word, .start⟩

/-- A name with the parameters that stand behind it in parentheses. -/
def signature? : Outline → Option (Name × List Name)
  | word cs => some (⟨String.ofList (cs.takeWhile (· ≠ '(')), .start⟩,
      names ((cs.dropWhile (· ≠ '(')).drop 1).dropLast)
  | list _ => none

/-- All of them, if none is missing. -/
def gather {α : Type} : List (Option α) → Option (List α)
  | [] => some []
  | found :: rest => found.bind fun a => (gather rest).map (a :: ·)

def routine? : RawStmt → Option (Routine Unit)
  | .function declaration => some declaration
  | _ => none

/-- A statement made of one expression. -/
def simple? (head : List Char) (value : RawExpr) : Option RawStmt :=
  if head = ";".toList then some (.expression value)
  else if head = "print".toList then some (.print Pos.start.line value)
  else if head = "return".toList then some (.ret .start (some value))
  else none

def function? (parts : List Outline) (stmts : List (Option RawStmt)) : Option RawStmt :=
  match parts, stmts with
  | head :: _, _ :: body =>
    (signature? head).bind fun named => (gather body).map fun body =>
      .function (.mk named.1 named.2 body)
  | _, _ => none

def methods? (stmts : List (Option RawStmt)) : Option (List (Routine Unit)) :=
  gather (stmts.map fun found => found.bind routine?)

/-- A class: a word behind its name is the sign before the superclass. -/
def class? (parts : List Outline) (stmts : List (Option RawStmt)) : Option RawStmt :=
  match parts with
  | name :: word _ :: parent :: _ =>
    (name? name).bind fun name => (name? parent).bind fun parent =>
      (methods? (stmts.drop 3)).map (.classDecl name (some ⟨parent, ()⟩))
  | name :: _ => (name? name).bind fun name => (methods? (stmts.drop 1)).map (.classDecl name none)
  | [] => none

/-- The statement with a head, given its parts and what these are as statements. -/
def statement? (head : List Char) (parts : List Outline) (stmts : List (Option RawStmt)) :
    Option RawStmt :=
  if head = "block".toList then (gather stmts).map (.block Pos.start.line)
  else if head = "fun".toList then function? parts stmts
  else if head = "class".toList then class? parts stmts
  else match parts, stmts with
  | [], _ => if head = "return".toList then some (.ret .start none) else none
  | [part], _ =>
    if head = "var".toList then (name? part).map fun name => .var name none
    else part.expr?.bind (simple? head)
  | [condition, _], [_, some body] => condition.expr?.bind fun condition =>
    if head = "if".toList then some (.ifThen Pos.start.line condition body)
    else if head = "while".toList then some (.loop Pos.start.line condition body)
    else none
  | [first, _, third], [_, second, last] =>
    if head = "var".toList then (name? first).bind fun name => third.expr?.map fun value =>
      .var name (some value)
    else if head = "if-else".toList then first.expr?.bind fun condition =>
      second.bind fun thenBranch => last.map fun elseBranch =>
        .ifElse Pos.start.line condition thenBranch elseBranch
    else none
  | _, _ => none

mutual

def stmt? : Outline → Option RawStmt
  | list (word head :: parts) => statement? head parts (stmts parts)
  | list _ | word _ => none

def stmts : List Outline → List (Option RawStmt)
  | [] => []
  | part :: rest => part.stmt? :: stmts rest

end

theorem stmt?_list (head : String) (parts : List Outline) :
    (list (ofText head :: parts)).stmt? = statement? head.toList parts (stmts parts) := rfl

theorem statement?_define (name sign value : Outline) (a b c : Option RawStmt) :
    statement? "var".toList [name, sign, value] [a, b, c] =
      (name? name).bind fun name => value.expr?.map fun value => .var name (some value) := rfl

theorem statement?_function (head : Outline) (parts : List Outline) (a : Option RawStmt)
    (body : List (Option RawStmt)) : statement? "fun".toList (head :: parts) (a :: body) =
      (signature? head).bind fun named => (gather body).map fun body =>
        .function (.mk named.1 named.2 body) := rfl

theorem statement?_subclass (name parent : Outline) (sign : List Char) (parts : List Outline)
    (a b c : Option RawStmt) (methods : List (Option RawStmt)) :
    statement? "class".toList (name :: word sign :: parent :: parts) (a :: b :: c :: methods) =
      (name? name).bind fun name => (name? parent).bind fun parent =>
        (methods? methods).map (.classDecl name (some ⟨parent, ()⟩)) := rfl

theorem name?_ofText (n : Name) : name? (ofText n.text) = some n.unplaced := by
  simp [name?, ofText, Name.unplaced]

/-! ### Signatures -/

theorem identifier_solid {cs : List Char} (identifier : Lexeme .identifier cs) : Solid cs := by
  have letters : ∀ c ∈ [' ', '(', ')', '\n'], ¬Letter c ∧ ¬Digit c := by simp [Letter, Digit]
  cases identifier with
  | symbol entry => exact absurd entry (symbols_identifier cs)
  | keyword entry => exact absurd entry (keywords_identifier _)
  | @identifier c cs letter parts _ =>
    refine ⟨List.cons_ne_nil _ _,
      List.forall_mem_cons.mpr ⟨fun other => (letters c other).1 letter, ?_⟩⟩
    intro d member other
    exact (parts d member).elim (letters d other).1 (letters d other).2

theorem partsChars_words (words : List (List Char)) :
    partsChars (words.map word) = [' '].intercalate words := by
  induction words with
  | nil => rfl
  | cons w ws ih =>
    cases ws with
    | nil => simp [partsChars, chars, List.intercalate]
    | cons v ws =>
      rw [List.map_cons, List.map_cons, partsChars, ← List.map_cons, ih, List.intercalate_cons_cons]
      · simp [chars]
      · simp

theorem map_word (params : List Name) :
    params.map (fun p => ofText p.text) = (params.map fun p => p.text.toList).map word := by
  rw [List.map_map]
  rfl

theorem names_words {params : List Name} (identifiers : ∀ p ∈ params, p.Identifier) :
    names (partsChars (params.map fun p => ofText p.text)) = params.map Name.unplaced := by
  rw [map_word, partsChars_words]
  cases params with
  | nil => rfl
  | cons p ps =>
    have apart : ∀ w ∈ (p :: ps).map fun p => p.text.toList, ' ' ∉ w := by
      intro w member
      obtain ⟨q, inside, rfl⟩ := List.mem_map.mp member
      exact fun space => (identifier_solid (identifiers q inside)).2 ' ' space (by decide)
    have some : [' '].intercalate ((p :: ps).map fun p => p.text.toList) ≠ [] := by
      obtain ⟨c, tail, whole⟩ :=
        List.exists_cons_of_ne_nil (identifier_solid (identifiers p (by simp))).1
      cases ps with
      | nil => simp [List.intercalate, whole]
      | cons q qs => simp [List.intercalate_cons_cons, whole]
    rw [names, if_neg some, List.splitOn_intercalate ' ' apart (by simp), List.map_map]
    simp [Name.unplaced]

theorem signature?_signature {name : Name} {params : List Name} (identifier : name.Identifier)
    (identifiers : ∀ p ∈ params, p.Identifier) :
    signature? (signature name params) = some (name.unplaced, params.map Name.unplaced) := by
  have solid := identifier_solid identifier
  have before : ∀ c ∈ name.text.toList, decide (c ≠ '(') = true := by
    intro c member
    have := solid.2 c member
    simp_all
  rw [signature, signature?, List.takeWhile_append_of_pos before, List.dropWhile_append_of_pos before]
  simp [names_words identifiers, Name.unplaced]

end Outline

open Outline

/-! ### Statements -/

theorem printable_params {params : List Name}
    (printable : Printable (params.map fun p => .token p.token)) :
    ∀ p ∈ params, p.Identifier :=
  fun p member => printable (.token p.token) (List.mem_map_of_mem member) rfl

mutual

/-- The outline of a statement is read back as the statement but for its places. -/
theorem Stmt.stmt?_outline : ∀ s : RawStmt, Printable s.parts → s.outline.stmt? = some s.unplaced
  | .expression value, printable => by
      show value.outline.expr?.bind _ = _
      rw [value.expr?_outline printable]
      rfl
  | .print _ value, printable => by
      show value.outline.expr?.bind _ = _
      rw [value.expr?_outline printable]
      rfl
  | .var name none, _ => congrArg (Option.map fun name => Stmt.var name none) (name?_ofText name)
  | .var name (some value), printable => by
      simp only [Stmt.outline, stmt?_list, stmts, statement?_define, name?_ofText,
        value.expr?_outline (printable_name.mp printable).2]
      rfl
  | .block _ body, printable => by
      show (gather (stmts (outlineBody body))).map _ = _
      rw [gather_outlineBody body printable]
      rfl
  | .ifThen _ condition thenBranch, printable => by
      obtain ⟨first, second⟩ := printable_append.mp printable
      simp only [Stmt.outline, stmt?_list, stmts, thenBranch.stmt?_outline second]
      show condition.outline.expr?.bind _ = _
      rw [condition.expr?_outline first]
      rfl
  | .ifElse _ condition thenBranch elseBranch, printable => by
      obtain ⟨first, branches⟩ := printable_append.mp printable
      obtain ⟨second, third⟩ := printable_append.mp branches
      simp only [Stmt.outline, stmt?_list, stmts, thenBranch.stmt?_outline second,
        elseBranch.stmt?_outline third]
      show condition.outline.expr?.bind _ = _
      rw [condition.expr?_outline first]
      rfl
  | .loop _ condition body, printable => by
      obtain ⟨first, second⟩ := printable_append.mp printable
      simp only [Stmt.outline, stmt?_list, stmts, body.stmt?_outline second]
      show condition.outline.expr?.bind _ = _
      rw [condition.expr?_outline first]
      rfl
  | .function declaration, printable => declaration.stmt?_outline printable
  | .classDecl name none methods, printable => by
      have inner := methods?_outline methods (printable_name.mp printable).2
      have shape : class? (ofText name.text :: outlineMethods methods)
          (none :: stmts (outlineMethods methods))
          = (name? (ofText name.text)).bind fun name =>
              (methods? (stmts (outlineMethods methods))).map (.classDecl name none) := by
        cases methods with
        | nil => rfl
        | cons r rest =>
          cases r
          rfl
      show class? (ofText name.text :: outlineMethods methods) (none :: stmts (outlineMethods methods)) = _
      rw [shape, name?_ofText, inner]
      rfl
  | .classDecl name (some parent) methods, printable => by
      have inner := methods?_outline methods (printable_name.mp (printable_name.mp printable).2).2
      have sign : ofText "<" = word "<".toList := rfl
      simp only [Stmt.outline, stmt?_list, stmts, sign, statement?_subclass, name?_ofText, inner]
      rfl
  | .ret _ none, _ => rfl
  | .ret _ (some value), printable => by
      show value.outline.expr?.bind _ = _
      rw [value.expr?_outline (printable_token.mp printable).2]
      rfl

theorem Routine.stmt?_outline : ∀ r : Routine Unit, Printable r.parts →
    r.outline.stmt? = some (.function r.unplaced)
  | .mk name params body, printable => by
      obtain ⟨identifier, rest⟩ := printable_name.mp printable
      obtain ⟨named, inner⟩ := printable_append.mp rest
      simp only [Routine.outline, stmt?_list, stmts, statement?_function,
        signature?_signature identifier (printable_params named), gather_outlineBody body inner]
      rfl

theorem gather_outlineBody : ∀ ss : List RawStmt, Printable (partsOfBody ss) →
    gather (stmts (outlineBody ss)) = some (unplacedBody ss)
  | [], _ => rfl
  | s :: rest, printable => by
      obtain ⟨first, later⟩ := printable_append.mp printable
      simp only [outlineBody, stmts, gather, s.stmt?_outline first, gather_outlineBody rest later]
      rfl

theorem methods?_outline : ∀ rs : List (Routine Unit), Printable (partsOfMethods rs) →
    methods? (stmts (outlineMethods rs)) = some (unplacedMethods rs)
  | [], _ => rfl
  | r :: rest, printable => by
      obtain ⟨first, later⟩ := printable_append.mp printable
      have behind := methods?_outline rest later
      unfold methods? at behind ⊢
      simp only [outlineMethods, stmts, List.map_cons, gather, r.stmt?_outline first, behind]
      rfl

end
end LoxLang
