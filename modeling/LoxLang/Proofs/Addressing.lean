import LoxLang.Scoping
/-! Sites: the nodes of a tree with the local scopes around each of them. A site is lawful if
what stands there agrees with these scopes; the lawful trees are those that can be run. -/
namespace LoxLang

/-- Local scopes, innermost first, with the names declared in each and whether their
declaration is finished. -/
abbrev Scopes : Type := List (Table Bool)

namespace Scopes

/-- The nearest scope that holds a name. -/
def locate (Γ : Scopes) (x : String) : Address := Γ.findIdx? (·.contains x)

/-- Enters a name into the innermost scope; without one nothing is recorded. -/
def enter (Γ : Scopes) (x : String) (finished : Bool) : Scopes :=
  match Γ with
  | [] => []
  | g :: Δ => g.put x finished :: Δ

/-- The scopes behind a complete declaration of `x`. -/
def declare (Γ : Scopes) (x : String) : Scopes := (Γ.enter x false).enter x true

/-- The scope at a distance holds a name whose declaration is finished. -/
def Holds (Γ : Scopes) (d : Nat) (x : String) : Prop :=
  ∃ g, Γ[d]? = some g ∧ g.find? x = some true

/-- The address is that of the nearest scope with the name, whose declaration is finished there. -/
def Finds (Γ : Scopes) (x : String) (address : Address) : Prop :=
  address = Γ.locate x ∧ ∀ d, address = some d → Γ.Holds d x

/-- The scopes of a routine's body: one for its parameters around which `Γ` stands. -/
def parameters (Γ : Scopes) (params : List Name) : Scopes :=
  params.foldl (fun Δ p => Δ.declare p.text) (Table.empty :: Γ)

end Scopes

/-- The name that a declaration declares in the scope it stands in. -/
def Stmt.binds {δ : Type} : Stmt δ → Option Name
  | .var name _ | .classDecl name _ _ => some name
  | .function declaration => some declaration.name
  | _ => none

/-- The scopes behind a statement. -/
def Scopes.extend {δ : Type} (Γ : Scopes) (s : Stmt δ) : Scopes :=
  match s.binds with
  | none => Γ
  | some name => Γ.declare name.text

/-- A name that a program can declare. -/
def Name.Ordinary (n : Name) : Prop := n.text ≠ "this" ∧ n.text ≠ "super"

section
variable {δ : Type}

mutual

/-- Every assigned name is ordinary. -/
def Expr.Plain : Expr δ → Prop
  | .literal _ _ | .var _ _ | .receiver _ _ | .inherited _ _ _ => True
  | .grouping _ inner => inner.Plain
  | .assign name value _ => name.Ordinary ∧ value.Plain
  | .unary _ _ operand => operand.Plain
  | .binary left _ _ right | .logical left _ _ right => left.Plain ∧ right.Plain
  | .conditional condition thenBranch elseBranch =>
    condition.Plain ∧ thenBranch.Plain ∧ elseBranch.Plain
  | .call callee _ arguments => callee.Plain ∧ plainAll arguments
  | .member object _ => object.Plain
  | .assignMember object _ value => object.Plain ∧ value.Plain

def plainAll : List (Expr δ) → Prop
  | [] => True
  | e :: rest => e.Plain ∧ plainAll rest

end

mutual

/-- Every declared or assigned name is ordinary, and what a condition or loop governs is no
declaration. -/
def Stmt.Plain : Stmt δ → Prop
  | .expression value | .print _ value => value.Plain
  | .var name none => name.Ordinary
  | .var name (some value) => name.Ordinary ∧ value.Plain
  | .block _ body => plainBody body
  | .ifThen _ condition thenBranch =>
    condition.Plain ∧ thenBranch.binds = none ∧ thenBranch.Plain
  | .ifElse _ condition thenBranch elseBranch =>
    condition.Plain ∧ (thenBranch.binds = none ∧ thenBranch.Plain) ∧
      elseBranch.binds = none ∧ elseBranch.Plain
  | .loop _ condition body => condition.Plain ∧ body.binds = none ∧ body.Plain
  | .function declaration => declaration.name.Ordinary ∧ declaration.Plain
  | .classDecl name _ methods => name.Ordinary ∧ plainMethods methods
  | .ret _ none => True
  | .ret _ (some value) => value.Plain

def plainBody : List (Stmt δ) → Prop
  | [] => True
  | s :: rest => s.Plain ∧ plainBody rest

def Routine.Plain : Routine δ → Prop
  | .mk _ params body => (∀ p ∈ params, p.Ordinary) ∧ plainBody body

def plainMethods : List (Routine δ) → Prop
  | [] => True
  | r :: rest => r.Plain ∧ plainMethods rest

end

end

/-- What a walk over a tree or a run of it can be at. A `store` is the moment at which the
value of an assignment is known and its target is not yet changed. -/
inductive Node where
  | expr (e : Expr Address)
  | stmt (s : Stmt Address)
  | superclass (className : Name) (parent : Superclass Address)
  | store (name : Name) (address : Address)

/-- A node, the scopes around it, whether a routine is around it, and the variable in whose
initializer it stands. -/
structure Site where
  scopes : Scopes
  inRoutine : Bool
  initializing : Option Name
  node : Node

mutual

/-- The nodes of an expression, all of which stand in the same scopes. -/
def Expr.nodes : Expr Address → List Node
  | .literal line value => [.expr (.literal line value)]
  | .grouping line inner => .expr (.grouping line inner) :: inner.nodes
  | .var name address => [.expr (.var name address)]
  | .assign name value address =>
    .expr (.assign name value address) :: (value.nodes ++ [.store name address])
  | .unary op pos operand => .expr (.unary op pos operand) :: operand.nodes
  | .binary left op pos right =>
    .expr (.binary left op pos right) :: (left.nodes ++ right.nodes)
  | .logical left op pos right =>
    .expr (.logical left op pos right) :: (left.nodes ++ right.nodes)
  | .conditional condition thenBranch elseBranch =>
    .expr (.conditional condition thenBranch elseBranch)
      :: (condition.nodes ++ (thenBranch.nodes ++ elseBranch.nodes))
  | .call callee close arguments =>
    .expr (.call callee close arguments) :: (callee.nodes ++ nodesOfAll arguments)
  | .member object name => .expr (.member object name) :: object.nodes
  | .assignMember object name value =>
    .expr (.assignMember object name value) :: (value.nodes ++ object.nodes)
  | .receiver pos address => [.expr (.receiver pos address)]
  | .inherited pos method address => [.expr (.inherited pos method address)]

def nodesOfAll : List (Expr Address) → List Node
  | [] => []
  | e :: rest => e.nodes ++ nodesOfAll rest

end

/-- The sites of an expression. -/
def Expr.sites (Γ : Scopes) (inRoutine : Bool) (initializing : Option Name) (e : Expr Address) :
    List Site :=
  e.nodes.map (Site.mk Γ inRoutine initializing)

mutual

/-- The sites of a statement that stands in the scopes `Γ`. -/
def Stmt.sites : Scopes → Bool → Stmt Address → List Site
  | Γ, b, .expression value =>
    ⟨Γ, b, none, .stmt (.expression value)⟩ :: value.sites Γ b none
  | Γ, b, .print line value => ⟨Γ, b, none, .stmt (.print line value)⟩ :: value.sites Γ b none
  | Γ, b, .var name none => [⟨Γ, b, none, .stmt (.var name none)⟩]
  | Γ, b, .var name (some value) =>
    ⟨Γ, b, none, .stmt (.var name (some value))⟩
      :: value.sites (Γ.enter name.text false) b (some name)
  | Γ, b, .block line body =>
    ⟨Γ, b, none, .stmt (.block line body)⟩ :: sitesOfAll (Table.empty :: Γ) b body
  | Γ, b, .ifThen line condition thenBranch =>
    ⟨Γ, b, none, .stmt (.ifThen line condition thenBranch)⟩
      :: (condition.sites Γ b none ++ thenBranch.sites Γ b)
  | Γ, b, .ifElse line condition thenBranch elseBranch =>
    ⟨Γ, b, none, .stmt (.ifElse line condition thenBranch elseBranch)⟩
      :: (condition.sites Γ b none ++ (thenBranch.sites Γ b ++ elseBranch.sites Γ b))
  | Γ, b, .loop line condition body =>
    ⟨Γ, b, none, .stmt (.loop line condition body)⟩
      :: (condition.sites Γ b none ++ body.sites Γ b)
  | Γ, b, .function declaration =>
    ⟨Γ, b, none, .stmt (.function declaration)⟩
      :: declaration.sites (Γ.declare declaration.name.text)
  | Γ, b, .classDecl name none methods =>
    ⟨Γ, b, none, .stmt (.classDecl name none methods)⟩
      :: sitesOfMethods (Walk.receiverScope :: Γ.declare name.text) methods
  | Γ, b, .classDecl name (some parent) methods =>
    ⟨Γ, b, none, .stmt (.classDecl name (some parent) methods)⟩
      :: ⟨Γ.declare name.text, b, none, .superclass name parent⟩
      :: sitesOfMethods (Walk.receiverScope :: Walk.inheritedScope :: Γ.declare name.text) methods
  | Γ, b, .ret pos none => [⟨Γ, b, none, .stmt (.ret pos none)⟩]
  | Γ, b, .ret pos (some value) =>
    ⟨Γ, b, none, .stmt (.ret pos (some value))⟩ :: value.sites Γ b none

def sitesOfAll : Scopes → Bool → List (Stmt Address) → List Site
  | _, _, [] => []
  | Γ, b, s :: rest => s.sites Γ b ++ sitesOfAll (Γ.extend s) b rest

def Routine.sites : Scopes → Routine Address → List Site
  | Γ, .mk _ params body => sitesOfAll (Γ.parameters params) true body

def sitesOfMethods : Scopes → List (Routine Address) → List Site
  | _, [] => []
  | Γ, r :: rest => r.sites Γ ++ sitesOfMethods Γ rest

end

/-- A store to `x` inside the initializer of a local `var x`, which is not yet bound there
unless the scope declared it before. -/
def Site.SelfAssigns (σ : Site) (x : String) : Prop :=
  σ.scopes ≠ [] ∧ (∃ n, σ.initializing = some n ∧ n.text = x) ∧
    ∃ name, σ.node = .store name (some 0) ∧ name.text = x

/-- What stands at a site agrees with the scopes around it. A reference has the address of the
nearest scope with its name. That scope's declaration of the name is finished, or else the
reference is a store inside the initializer of that very name. -/
def Site.Lawful (σ : Site) : Prop :=
  match σ.node with
  | .expr (.var name address) => σ.scopes.Finds name.text address
  | .expr (.receiver _ address) => ∃ d, address = some d ∧ σ.scopes.Finds "this" (some d)
  | .expr (.inherited _ _ address) =>
    ∃ d, address = some (d + 1) ∧ σ.scopes.Finds "super" (some (d + 1)) ∧
      σ.scopes.Finds "this" (some d)
  | .store name address =>
    name.Ordinary ∧ address = σ.scopes.locate name.text ∧
      ∀ d, address = some d → σ.scopes.Holds d name.text ∨ σ.SelfAssigns name.text
  | .superclass className parent =>
    parent.name.text ≠ className.text ∧ σ.scopes.Finds parent.name.text parent.address
  | .stmt (.var name _) => name.Ordinary
  | .stmt (.function declaration) =>
    declaration.name.Ordinary ∧ ∀ p ∈ declaration.params, p.Ordinary
  | .stmt (.classDecl name _ methods) =>
    name.Ordinary ∧ ∀ r ∈ methods, ∀ p ∈ r.params, p.Ordinary
  | .stmt (.ifThen _ _ thenBranch) => thenBranch.binds = none
  | .stmt (.ifElse _ _ thenBranch elseBranch) =>
    thenBranch.binds = none ∧ elseBranch.binds = none
  | .stmt (.loop _ _ body) => body.binds = none
  | .stmt (.ret _ _) => σ.inRoutine = true
  | _ => True

end LoxLang
