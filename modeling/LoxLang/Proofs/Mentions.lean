import LoxLang.Scoping.Occurrence
/-! Names in the text of a program: where they are declared, and where they are mentioned with
what scopes around. Nothing here knows of the walk that finds addresses. -/
namespace LoxLang

/-- What opens a local scope: a block, the parameters and the body of a routine, the methods of a
class, or a class that inherits, around its methods. -/
inductive ScopeKind where
  | block
  | routine
  | receiver (inherits : Bool)
  | inherited
deriving DecidableEq

/-- The word that a scope holds from the start. -/
def ScopeKind.held : ScopeKind → Option String
  | receiver _ => some "this"
  | inherited => some "super"
  | block | routine => none

/-- Whether the class inherits whose methods stand in the scope. -/
def ScopeKind.class? : ScopeKind → Option Bool
  | receiver inherits => some inherits
  | block | routine | inherited => none

/-- What a program has to say about its names, in the order in which the tree has it. -/
inductive Mention (δ : Type) where
  | declaration (name : Name)
  /-- A reference, perhaps in the initializer of a variable. -/
  | reference (role : Occurrence.Role) (token : Token) (address : δ) (initializing : Option Name)
  | inheritance (className parent : Name)
  | exit (pos : Pos)
  | scope (kind : ScopeKind) (items : List (Mention δ))

section
variable {δ : Type}

mutual

def Expr.mentions (initializing : Option Name) : Expr δ → List (Mention δ)
  | .literal _ _ => []
  | .grouping _ inner => inner.mentions initializing
  | .var name address => [.reference .access name.token address initializing]
  | .assign name value address =>
    value.mentions initializing ++ [.reference .assignment name.token address initializing]
  | .unary _ _ operand => operand.mentions initializing
  | .binary left _ _ right | .logical left _ _ right =>
    left.mentions initializing ++ right.mentions initializing
  | .conditional condition thenBranch elseBranch =>
    condition.mentions initializing ++
      (thenBranch.mentions initializing ++ elseBranch.mentions initializing)
  | .call callee _ arguments => callee.mentions initializing ++ mentionsOfAll initializing arguments
  | .member object _ => object.mentions initializing
  | .assignMember object _ value => value.mentions initializing ++ object.mentions initializing
  | .receiver pos address => [.reference .receiver (receiverToken pos) address initializing]
  | .inherited pos _ address => [.reference .inherited (inheritedToken pos) address initializing]

def mentionsOfAll (initializing : Option Name) : List (Expr δ) → List (Mention δ)
  | [] => []
  | e :: rest => e.mentions initializing ++ mentionsOfAll initializing rest

end

/-- The superclass is mentioned outside of both scopes of its class. -/
def Superclass.mentions (className : Name) (parent : Superclass δ) : List (Mention δ) :=
  [.inheritance className parent.name, .reference .access parent.name.token parent.address none]

mutual

/-- A variable is declared before its initializer, a function or class before all the rest of its
declaration. -/
def Stmt.mentions : Stmt δ → List (Mention δ)
  | .expression value | .print _ value => value.mentions none
  | .var name none => [.declaration name]
  | .var name (some value) => .declaration name :: value.mentions (some name)
  | .block _ body => [.scope .block (mentionsOfBody body)]
  | .ifThen _ condition thenBranch => condition.mentions none ++ thenBranch.mentions
  | .ifElse _ condition thenBranch elseBranch =>
    condition.mentions none ++ (thenBranch.mentions ++ elseBranch.mentions)
  | .loop _ condition body => condition.mentions none ++ body.mentions
  | .function declaration => .declaration declaration.name :: declaration.mentions
  | .classDecl name none methods =>
    [.declaration name, .scope (.receiver false) (mentionsOfMethods methods)]
  | .classDecl name (some parent) methods =>
    .declaration name :: (parent.mentions name ++
      [.scope .inherited [.scope (.receiver true) (mentionsOfMethods methods)]])
  | .ret pos none => [.exit pos]
  | .ret pos (some value) => .exit pos :: value.mentions none

def mentionsOfBody : List (Stmt δ) → List (Mention δ)
  | [] => []
  | s :: rest => s.mentions ++ mentionsOfBody rest

def Routine.mentions : Routine δ → List (Mention δ)
  | .mk _ params body => [.scope .routine (params.map .declaration ++ mentionsOfBody body)]

def mentionsOfMethods : List (Routine δ) → List (Mention δ)
  | [] => []
  | r :: rest => r.mentions ++ mentionsOfMethods rest

end

end

/-- A scope around a place, with all that stands in it before the place. -/
structure Enclosure (δ : Type) where
  kind : ScopeKind
  before : List (Mention δ)

variable {δ : Type}

def Mention.declares (x : String) : Mention δ → Bool
  | declaration name => name.text = x
  | _ => false

/-- The scope holds the word from the start or has a declaration of it before the place. -/
def Enclosure.declares (f : Enclosure δ) (x : String) : Bool :=
  f.kind.held = some x || f.before.any (·.declares x)

/-- Whether a routine is among the scopes around a place. -/
def inRoutine (around : List (Enclosure δ)) : Bool := around.any (·.kind = .routine)

/-- Whether the innermost class around a place, if there is one, inherits. -/
def innermostClass (around : List (Enclosure δ)) : Option Bool := around.findSome? (·.kind.class?)

/-- A mention in its place, with the local scopes around it, innermost first. -/
structure Spot (δ : Type) where
  around : List (Enclosure δ)
  item : Mention δ

/-- The scopes around a place behind further mentions. The global scope is none of them. -/
def past (items : List (Mention δ)) : List (Enclosure δ) → List (Enclosure δ)
  | [] => []
  | f :: outer => { f with before := f.before ++ items } :: outer

mutual

def Mention.spots (around : List (Enclosure δ)) : Mention δ → List (Spot δ)
  | .scope kind items => spotsOf (⟨kind, []⟩ :: around) items
  | item => [⟨around, item⟩]

/-- All that is mentioned, scopes within scopes included, each in its place. -/
def spotsOf (around : List (Enclosure δ)) : List (Mention δ) → List (Spot δ)
  | [] => []
  | item :: rest => item.spots around ++ spotsOf (past [item] around) rest

end

/-- The mentions of a program in their places. -/
def spots (program : List (Stmt δ)) : List (Spot δ) := spotsOf [] (mentionsOfBody program)

namespace Spot

/-- Of the scopes around a place, the first that declares the name is so many scopes outward. -/
def Nearest (p : Spot δ) (x : String) (k : Nat) : Prop :=
  ∃ f, p.around[k]? = some f ∧ f.declares x = true ∧
    ∀ j < k, ∀ g, p.around[j]? = some g → g.declares x = false

/-- What is wrong at a place, if anything is. -/
def offence? (p : Spot δ) : Option ScopeIssue :=
  match p.item with
  | .exit pos => if inRoutine p.around then none else some ⟨returnToken pos, .returnOutside⟩
  | .reference .receiver token _ _ =>
    match innermostClass p.around with
    | none => some ⟨token, .receiverOutside⟩
    | some _ => none
  | .reference .inherited token _ _ =>
    match innermostClass p.around with
    | none => some ⟨token, .inheritedOutside⟩
    | some false => some ⟨token, .inheritedWithoutSuperclass⟩
    | some true => none
  | .inheritance className parent =>
    if parent.text = className.text then some ⟨parent.token, .inheritsItself⟩ else none
  | .reference .access token _ (some name) =>
    if name.text = token.lexeme ∧ p.around ≠ [] then some ⟨token, .ownInitializer⟩ else none
  | _ => none

/-- A `this` or `super` that is reported to be out of place. -/
def misplaced (p : Spot δ) : Bool :=
  match p.item with
  | .reference .receiver _ _ _ | .reference .inherited _ _ _ => p.offence?.isSome
  | _ => false

/-- The reference at a place. -/
def occurrence? (p : Spot Address) : Option Occurrence :=
  match p.item with
  | .reference role token address _ => some ⟨role, token, address⟩
  | _ => none

end Spot
end LoxLang
