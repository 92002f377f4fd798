import LoxLang.Tree.Statement
/-! The names that are written down in a tree, and the identifiers among tokens. -/
namespace LoxLang

section
variable {δ : Type}

mutual

/-- Every name that stands in an expression, variables and properties alike. -/
@[simp]
def Expr.names : Expr δ → List Name
  | .literal _ _ | .receiver _ _ => []
  | .grouping _ inner => inner.names
  | .var name _ => [name]
  | .assign name value _ => name :: value.names
  | .unary _ _ operand => operand.names
  | .binary left _ _ right | .logical left _ _ right => left.names ++ right.names
  | .conditional condition thenBranch elseBranch =>
    condition.names ++ (thenBranch.names ++ elseBranch.names)
  | .call callee _ arguments => callee.names ++ namesOfAll arguments
  | .member object name => object.names ++ [name]
  | .assignMember object name value => object.names ++ (name :: value.names)
  | .inherited _ method _ => [method]

@[simp]
def namesOfAll : List (Expr δ) → List Name
  | [] => []
  | e :: rest => e.names ++ namesOfAll rest

end

@[simp]
def optionalNames : Option (Expr δ) → List Name
  | none => []
  | some e => e.names

@[simp]
def superclassNames : Option (Superclass δ) → List Name
  | none => []
  | some parent => [parent.name]

mutual

/-- Every name that stands in a statement. -/
@[simp]
def Stmt.names : Stmt δ → List Name
  | .expression value | .print _ value => value.names
  | .var name initializer => name :: optionalNames initializer
  | .block _ body => namesOfBody body
  | .ifThen _ condition thenBranch => condition.names ++ thenBranch.names
  | .ifElse _ condition thenBranch elseBranch =>
    condition.names ++ (thenBranch.names ++ elseBranch.names)
  | .loop _ condition body => condition.names ++ body.names
  | .function declaration => declaration.names
  | .classDecl name parent methods => name :: (superclassNames parent ++ namesOfMethods methods)
  | .ret _ value => optionalNames value

@[simp]
def namesOfBody : List (Stmt δ) → List Name
  | [] => []
  | s :: rest => s.names ++ namesOfBody rest

@[simp]
def Routine.names : Routine δ → List Name
  | .mk name params body => name :: (params ++ namesOfBody body)

@[simp]
def namesOfMethods : List (Routine δ) → List Name
  | [] => []
  | r :: rest => r.names ++ namesOfMethods rest

end

end

/-- The name that an identifier spells. -/
def Token.name? (t : Token) : Option Name :=
  if t.kind = .identifier then some ⟨t.lexeme, t.pos⟩ else none

def identifiers (ts : List Token) : List Name := ts.filterMap Token.name?

theorem identifiers_append (ts us : List Token) :
    identifiers (ts ++ us) = identifiers ts ++ identifiers us := List.filterMap_append

/-- The names are among the identifiers, none of them more often than there. -/
def Drawn (ns : List Name) (used : List Token) : Prop :=
  ∀ n, ns.count n ≤ (identifiers used).count n

namespace Drawn
variable {ns ms : List Name} {used more : List Token}

theorem nil (used : List Token) : Drawn [] used := fun _ => Nat.zero_le _

theorem name {t : Token} (same : t.kind = .identifier) : Drawn [⟨t.lexeme, t.pos⟩] [t] := by
  intro n
  simp [identifiers, Token.name?, same]

theorem append (first : Drawn ns used) (second : Drawn ms more) :
    Drawn (ns ++ ms) (used ++ more) := by
  intro n
  rw [identifiers_append, List.count_append, List.count_append]
  exact Nat.add_le_add (first n) (second n)

theorem append_right (drawn : Drawn ns more) (used : List Token) : Drawn ns (used ++ more) :=
  (Drawn.nil used).append drawn

theorem append_left (drawn : Drawn ns used) (more : List Token) : Drawn ns (used ++ more) := by
  simpa only [List.append_nil] using drawn.append (.nil more)

theorem cons (drawn : Drawn ns used) (t : Token) : Drawn ns (t :: used) :=
  drawn.append_right [t]

/-- The order of the names, and names that are dropped, do not matter. -/
theorem fewer (drawn : Drawn ns used) (less : ∀ n, ms.count n ≤ ns.count n) : Drawn ms used :=
  fun n => Nat.le_trans (less n) (drawn n)

end Drawn
end LoxLang
