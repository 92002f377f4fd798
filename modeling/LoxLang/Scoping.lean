import LoxLang.Table
import LoxLang.Diagnostic
import LoxLang.Tree
/-! Lexical addresses. One walk over a program gives every reference the number of scopes
between it and the scope that declares its name, and reports what is misplaced. The global
scope is never counted: a name that no local scope declares is global. -/
namespace LoxLang

/-- How many scopes outward a name is declared; `none` for a global name. -/
abbrev Address := Option Nat

inductive ScopeError where
  | ownInitializer
  | returnOutside
  | receiverOutside
  | inheritedOutside
  | inheritedWithoutSuperclass
  | inheritsItself
deriving DecidableEq

def ScopeError.message : ScopeError → String
  | ownInitializer => "Can't read local variable in its own initializer."
  | returnOutside => "Can't return from top-level code."
  | receiverOutside => "Can't use 'this' outside of a class."
  | inheritedOutside => "Can't use 'super' outside of a class."
  | inheritedWithoutSuperclass => "Can't use 'super' in a class with no superclass."
  | inheritsItself => "A class can't inherit from itself."

structure ScopeIssue where
  token : Token
  cause : ScopeError
deriving DecidableEq

def ScopeIssue.diagnostic (i : ScopeIssue) : Diagnostic := Diagnostic.atToken i.token i.cause.message

/-- What the innermost class around a place is. -/
inductive Surrounding where
  | noClass
  | plainClass
  | subclass
deriving DecidableEq

/-- Where a walk is: the local scopes, innermost first, with the names declared in each and
whether their declaration is finished; the kind of the innermost routine around, if there is
one; the class around; and how many references have been found local so far. -/
structure Walk.Context where
  scopes : List (Table Bool)
  enclosing : Option RoutineKind
  surrounding : Surrounding
  resolved : Nat

/-- Whether a routine is around. -/
def Walk.Context.inRoutine (c : Walk.Context) : Bool := c.enclosing.isSome

/-- What a walk comes to, unless it is overdrawn: then it closed a scope where none was open, and
breaks off there. What an overdrawn walk yields besides does not count. -/
structure Walk.Outcome (α : Type) where
  value : α
  context : Walk.Context
  issues : List ScopeIssue
  overdrawn : Bool

/-- A walk over a piece of a tree. Issues are output only. -/
def Walk (α : Type) : Type := Walk.Context → Walk.Outcome α

namespace Walk

instance : Monad Walk where
  pure a := fun c => ⟨a, c, [], false⟩
  bind x f := fun c =>
    let first := x c
    let second := f first.value first.context
    ⟨second.value, second.context, first.issues ++ second.issues,
      first.overdrawn || second.overdrawn⟩

def start : Context := ⟨[], none, .noClass, 0⟩

def report (t : Token) (cause : ScopeError) : Walk Unit := fun c => ⟨(), c, [⟨t, cause⟩], false⟩

def context : Walk Context := fun c => ⟨c, c, [], false⟩

def setEnclosing (k : Option RoutineKind) : Walk Unit :=
  fun c => ⟨(), { c with enclosing := k }, [], false⟩

def setSurrounding (s : Surrounding) : Walk Unit :=
  fun c => ⟨(), { c with surrounding := s }, [], false⟩

def openScope (scope : Table Bool) : Walk Unit :=
  fun c => ⟨(), { c with scopes := scope :: c.scopes }, [], false⟩

/-- Closes the innermost scope; there has to be one. -/
def closeScope : Walk Unit := fun c =>
  match c.scopes with
  | [] => ⟨(), c, [], true⟩
  | _ :: outer => ⟨(), { c with scopes := outer }, [], false⟩

/-- Enters a name into the innermost scope; the global scope is not recorded. -/
def enter (name : Name) (finished : Bool) : Walk Unit := fun c =>
  match c.scopes with
  | [] => ⟨(), c, [], false⟩
  | scope :: outer => ⟨(), { c with scopes := scope.put name.text finished :: outer }, [], false⟩

def declare (name : Name) : Walk Unit := enter name false

def define (name : Name) : Walk Unit := enter name true

/-- The address of a name: the nearest scope that holds it. -/
def locate (name : String) : Walk Address := fun c =>
  match c.scopes.findIdx? (·.contains name) with
  | some depth => ⟨some depth, { c with resolved := c.resolved + 1 }, [], false⟩
  | none => ⟨none, c, [], false⟩

/-- Reports a read of a name whose declaration in the innermost scope is not finished. -/
def checkInitializer (name : Name) : Walk Unit := fun c =>
  match c.scopes with
  | [] => ⟨(), c, [], false⟩
  | scope :: _ =>
    if scope.find? name.text = some false then report name.token .ownInitializer c
    else ⟨(), c, [], false⟩

def locateReceiver (pos : Pos) : Walk Address := do
  match (← context).surrounding with
  | .noClass =>
    report (receiverToken pos) .receiverOutside
    pure none
  | _ => locate "this"

def locateInherited (pos : Pos) : Walk Address := do
  match (← context).surrounding with
  | .noClass =>
    report (inheritedToken pos) .inheritedOutside
    pure none
  | .plainClass =>
    report (inheritedToken pos) .inheritedWithoutSuperclass
    pure none
  | .subclass => locate "super"

mutual

/-- The value of an assignment comes before its target, also for a property. -/
def expr : Expr Unit → Walk (Expr Address)
  | .literal line value => pure (.literal line value)
  | .grouping line inner => do
    let inner ← expr inner
    pure (.grouping line inner)
  | .var name _ => do
    checkInitializer name
    let address ← locate name.text
    pure (.var name address)
  | .assign name value _ => do
    let value ← expr value
    let address ← locate name.text
    pure (.assign name value address)
  | .unary op pos operand => do
    let operand ← expr operand
    pure (.unary op pos operand)
  | .binary left op pos right => do
    let left ← expr left
    let right ← expr right
    pure (.binary left op pos right)
  | .logical left op pos right => do
    let left ← expr left
    let right ← expr right
    pure (.logical left op pos right)
  | .conditional condition thenBranch elseBranch => do
    let condition ← expr condition
    let thenBranch ← expr thenBranch
    let elseBranch ← expr elseBranch
    pure (.conditional condition thenBranch elseBranch)
  | .call callee close arguments => do
    let callee ← expr callee
    let arguments ← exprs arguments
    pure (.call callee close arguments)
  | .member object name => do
    let object ← expr object
    pure (.member object name)
  | .assignMember object name value => do
    let value ← expr value
    let object ← expr object
    pure (.assignMember object name value)
  | .receiver pos _ => do
    let address ← locateReceiver pos
    pure (.receiver pos address)
  | .inherited pos method _ => do
    let address ← locateInherited pos
    pure (.inherited pos method address)

def exprs : List (Expr Unit) → Walk (List (Expr Address))
  | [] => pure []
  | e :: rest => do
    let e ← expr e
    let rest ← exprs rest
    pure (e :: rest)

end

def optionalExpr : Option (Expr Unit) → Walk (Option (Expr Address))
  | none => pure none
  | some e => do
    let e ← expr e
    pure (some e)

def defineAll : List Name → Walk Unit
  | [] => pure ()
  | name :: rest => do
    declare name
    define name
    defineAll rest

/-- The superclass of a class, looked up among the scopes around the class. -/
def superclass (className : Name) (parent : Superclass Unit) : Walk (Superclass Address) := do
  if parent.name.text = className.text then report parent.name.token .inheritsItself
  setSurrounding .subclass
  checkInitializer parent.name
  let address ← locate parent.name.text
  pure ⟨parent.name, address⟩

def receiverScope : Table Bool := Table.empty.put "this" true

def inheritedScope : Table Bool := Table.empty.put "super" true

mutual

def stmt : Stmt Unit → Walk (Stmt Address)
  | .expression value => do
    let value ← expr value
    pure (.expression value)
  | .print line value => do
    let value ← expr value
    pure (.print line value)
  | .var name initializer => do
    declare name
    let initializer ← optionalExpr initializer
    define name
    pure (.var name initializer)
  | .block line body => do
    openScope Table.empty
    let body ← stmts body
    closeScope
    pure (.block line body)
  | .ifThen line condition thenBranch => do
    let condition ← expr condition
    let thenBranch ← stmt thenBranch
    pure (.ifThen line condition thenBranch)
  | .ifElse line condition thenBranch elseBranch => do
    let condition ← expr condition
    let thenBranch ← stmt thenBranch
    let elseBranch ← stmt elseBranch
    pure (.ifElse line condition thenBranch elseBranch)
  | .loop line condition body => do
    let condition ← expr condition
    let body ← stmt body
    pure (.loop line condition body)
  | .function declaration => do
    declare declaration.name
    define declaration.name
    let declaration ← routine .function declaration
    pure (.function declaration)
  | .classDecl name none methods => do
    let outer := (← context).surrounding
    setSurrounding .plainClass
    declare name
    define name
    openScope receiverScope
    let methods ← routines methods
    closeScope
    setSurrounding outer
    pure (.classDecl name none methods)
  | .classDecl name (some parent) methods => do
    let outer := (← context).surrounding
    setSurrounding .plainClass
    declare name
    define name
    let parent ← superclass name parent
    openScope inheritedScope
    openScope receiverScope
    let methods ← routines methods
    closeScope
    closeScope
    setSurrounding outer
    pure (.classDecl name (some parent) methods)
  | .ret pos value => do
    if !(← context).inRoutine then report (returnToken pos) .returnOutside
    let value ← optionalExpr value
    pure (.ret pos value)

def stmts : List (Stmt Unit) → Walk (List (Stmt Address))
  | [] => pure []
  | s :: rest => do
    let s ← stmt s
    let rest ← stmts rest
    pure (s :: rest)

/-- Parameters and body share one scope. -/
def routine (kind : RoutineKind) : Routine Unit → Walk (Routine Address)
  | .mk name params body => do
    let outer := (← context).enclosing
    setEnclosing (some kind)
    openScope Table.empty
    defineAll params
    let body ← stmts body
    closeScope
    setEnclosing outer
    pure (.mk name params body)

/-- The methods of a class. -/
def routines : List (Routine Unit) → Walk (List (Routine Address))
  | [] => pure []
  | r :: rest => do
    let r ← routine .method r
    let rest ← routines rest
    pure (r :: rest)

end

end Walk

/-- A program with its addresses, what was reported, how many references are local, how many
scopes are open at the end, and whether one was closed where none was open. -/
structure Resolution where
  program : List (Stmt Address)
  issues : List ScopeIssue
  resolved : Nat
  openScopes : Nat
  overdrawn : Bool

def resolve (program : List (Stmt Unit)) : Resolution :=
  let walked := Walk.stmts program Walk.start
  ⟨walked.value, walked.issues, walked.context.resolved, walked.context.scopes.length,
    walked.overdrawn⟩

end LoxLang
