import LoxLang.Proofs.Attribution
import LoxLang.Proofs.Running.Execution
/-! Chronicled runs. A chronicled computation does what the computation does and keeps a register
of what it makes: of each function and class by which declaration it was made, and where that was
executed, and of each execution of a body or a block the scope that it opened. Besides it keeps the
moments at which it comes to a node or a call. -/
namespace LoxLang

/-- Where a statement is executed: in which activation of a routine, in which region innermost,
and in which local scopes. Activations and regions have numbers; at the top there is none. -/
structure Setting where
  activation : Option Nat
  region : Option Nat
  scopes : Scopes

namespace Setting

def top : Setting := ⟨none, none, []⟩

/-- The setting behind a statement. -/
def behind (st : Setting) (s : Stmt Address) : Setting := { st with scopes := st.scopes.extend s }

end Setting

/-- How a function came to be: by its declaration, or from a method that was found in a class and
bound to an instance. -/
inductive Birth where
  | declared (setting : Setting)
  | bound (method : Closure) (declarer : ClassId) (receiver : InstanceId)

/-- How a function came to be, and the local scopes around its code. -/
structure Origin where
  birth : Birth
  scopes : Scopes

/-- The declaration that made a class, where it was executed, and the class found above. -/
structure ClassOrigin where
  setting : Setting
  name : Name
  parent : Option (Superclass Address)
  methods : List (Routine Address)
  above : Option ClassId

/-- The local scopes around the methods of a class. -/
def ClassOrigin.inner (o : ClassOrigin) : Scopes :=
  Walk.receiverScope :: (o.setting.scopes.declare o.name.text).above o.above

/-- Where the declaration of a class stands. -/
def ClassOrigin.site (o : ClassOrigin) : Site where
  scopes := o.setting.scopes
  inRoutine := o.setting.activation.isSome
  initializing := none
  node := .stmt (.classDecl o.name o.parent o.methods)

/-- What a region is an execution of: the body of a routine, called as a function value unless it
is an initializer of a new instance, or the block at a site. -/
inductive Execution where
  | body (callee : Option FunctionId) (closure : Closure) (birth : Birth)
  | block (site : Site)

/-- One execution of a body or a block: the activation in which it stands, itself if it is one, the
scope that was active before, or that of the closure, and the scope that it opened. -/
structure Region where
  execution : Execution
  activation : Option Nat
  around : ScopeId
  scope : ScopeId

/-- What has been made, each in the order in which it was made. -/
structure Register where
  functions : Array Origin
  classes : Array ClassOrigin
  regions : Array Region

def Register.empty : Register := ⟨#[], #[], #[]⟩

/-- The state at which a run came to a node or a call. -/
structure Moment where
  machine : Machine
  register : Register

/-- A machine with its register and its moments, the latest first. -/
structure Scene where
  machine : Machine
  register : Register
  moments : List Moment

/-- A computation on the machine with its register. -/
abbrev Chronicled (α : Type) : Type := EStateM Exit Scene α

namespace Chronicled
variable {α β : Type}

/-- A computation of which the register takes no note. -/
def silent (x : Run α) : Chronicled α := fun ⟨m, l, moments⟩ =>
  match x m with
  | .ok v m' => .ok v ⟨m', l, moments⟩
  | .error e m' => .error e ⟨m', l, moments⟩

/-- Notes the moment. -/
def mark : Chronicled Unit := fun ⟨m, l, moments⟩ => .ok () ⟨m, l, ⟨m, l⟩ :: moments⟩

/-- How a function came to be. -/
def origin (f : FunctionId) : Chronicled Origin := fun a =>
  .ok ((a.register.functions[f.index]?).getD ⟨.declared .top, []⟩) a

/-- The local scopes around the methods of a class. -/
def inner (c : ClassId) : Chronicled Scopes := fun a =>
  .ok (((a.register.classes[c.index]?).map ClassOrigin.inner).getD []) a

/-- The number that the next region has. -/
def next : Chronicled Nat := fun a => .ok a.register.regions.size a

def newFunction (o : Origin) (k : Closure) : Chronicled FunctionId := fun ⟨m, l, moments⟩ =>
  let (f, h) := m.heap.newFunction k
  .ok f ⟨{ m with heap := h }, { l with functions := l.functions.push o }, moments⟩

def newClass (o : ClassOrigin) (methods : Table Closure) : Chronicled ClassId :=
  fun ⟨m, l, moments⟩ =>
    let (c, h) := m.heap.newClass o.name.text o.above methods
    .ok c ⟨{ m with heap := h }, { l with classes := l.classes.push o }, moments⟩

/-- Opens the scope of a region. -/
def openRegion (execution : Execution) (activation : Option Nat) (around : ScopeId) :
    Chronicled ScopeId := fun ⟨m, l, moments⟩ =>
  let (s, h) := m.heap.newScope (some around)
  .ok s ⟨{ m with heap := h },
    { l with regions := l.regions.push ⟨execution, activation, around, s⟩ }, moments⟩

def within (s : ScopeId) (x : Chronicled α) : Chronicled α := fun ⟨m, l, moments⟩ =>
  match x ⟨{ m with active := s }, l, moments⟩ with
  | .ok v ⟨m', l', moments'⟩ => .ok v ⟨{ m' with active := m.active }, l', moments'⟩
  | .error e ⟨m', l', moments'⟩ => .error e ⟨{ m' with active := m.active }, l', moments'⟩

def bodyValue (body : Chronicled Unit) : Chronicled Value := fun a =>
  match body a with
  | .ok _ a' => .ok .nil a'
  | .error (.returned v) a' => .ok v a'
  | .error e a' => .error e a'

def repeatWhile (round : Chronicled Bool) : Nat → Chronicled Unit
  | 0 => silent (throw .endless)
  | n + 1 => do
    if ← round then repeatWhile round n

def bound (method : Closure) (declarer : ClassId) (i : InstanceId) : Chronicled Value := do
  let scopes ← inner declarer
  let k ← silent (Run.change (·.bindReceiver method i))
  let f ← newFunction ⟨.bound method declarer i, scopes⟩ k
  pure (.callable (.function f))

/-- The method found from a class upwards, bound to an instance. -/
def methodFrom (h : Heap) (c : ClassId) (name : Name) (i : InstanceId) : Chronicled Value :=
  match h.findDeclared c name.text with
  | some (d, method) => bound method d i
  | none => silent (Run.fault (.undefinedProperty name.text) (some name.token))

def property (i : InstanceId) (name : Name) : Chronicled Value := do
  let h ← silent Run.heap
  let o ← silent (Run.follow (h.instance? i))
  match o.fields.find? name.text with
  | some v => pure v
  | none => methodFrom h o.ofClass name i

def inheritedMethod (pos : Pos) (method : Name) (address : Address) : Chronicled Value := do
  let h ← silent Run.heap
  let depth ← silent (Run.follow address)
  let parent ← silent (Run.lookUp (inheritedToken pos) address)
  let s ← silent Run.active
  match parent, h.getAt s (depth - 1) "this" with
  | .callable (.ofClass c), .ok (.object i) => methodFrom h c method i
  | _, .error (.unbound u) => silent (throw (.unbound u))
  | _, _ => silent (throw .illFormed)

/-- A chronicled call. -/
abbrev Calls : Type := Callable → List Value → Chronicled Value

def callValue (call : Calls) (close : Pos) (callee : Value) (arguments : List Value) :
    Chronicled Value := do
  let paren : Token := ⟨.rightParen, ")", close⟩
  match callee with
  | .callable c =>
    let h ← silent Run.heap
    let expected ← silent (Run.follow (h.arity? c))
    if arguments.length = expected then call c arguments
    else silent (Run.fault (.arity expected arguments.length) (some paren))
  | _ => silent (Run.fault .notCallable (some paren))

def shortCircuit (op : LogicalOp) (left : Value) (right : Chronicled Value) : Chronicled Value :=
  match op with
  | .or => if left.isTruthy then pure left else right
  | .and => if left.isTruthy then right else pure left

mutual

def evaluate (call : Calls) : Expr Address → Chronicled Value
  | .literal _ value => do
    mark
    pure value.toValue
  | .grouping _ inner => do
    mark
    evaluate call inner
  | .var name address => do
    mark
    silent (Run.lookUp name.token address)
  | .assign name value address => do
    mark
    let v ← evaluate call value
    silent (Run.assign name address v)
    pure v
  | .unary op pos operand => do
    mark
    let v ← evaluate call operand
    silent (Run.lift (op.token pos) (op.apply v))
  | .binary left op pos right => do
    mark
    let a ← evaluate call left
    let b ← evaluate call right
    silent (Run.lift (op.token pos) (op.apply a b))
  | .logical left op _ right => do
    mark
    let a ← evaluate call left
    shortCircuit op a (evaluate call right)
  | .conditional condition thenBranch elseBranch => do
    mark
    let c ← evaluate call condition
    if c.isTruthy then evaluate call thenBranch else evaluate call elseBranch
  | .call callee close arguments => do
    mark
    let f ← evaluate call callee
    let args ← evaluateAll call arguments
    callValue call close f args
  | .member object name => do
    mark
    match ← evaluate call object with
    | .object i => property i name
    | _ => silent (Run.fault .noProperties (some name.token))
  | .assignMember object name value => do
    mark
    match ← evaluate call object with
    | .object i =>
      let v ← evaluate call value
      silent (Run.update (·.setField i name.text v))
      pure v
    | _ => silent (Run.fault .noFields (some name.token))
  | .receiver pos address => do
    mark
    silent (Run.lookUp (receiverToken pos) address)
  | .inherited pos method address => do
    mark
    inheritedMethod pos method address

def evaluateAll (call : Calls) : List (Expr Address) → Chronicled (List Value)
  | [] => pure []
  | e :: rest => do
    let v ← evaluate call e
    let vs ← evaluateAll call rest
    pure (v :: vs)

end

/-- Declares a class once the class above it is known. -/
def bindClass (o : ClassOrigin) : Chronicled Unit := do
  silent (Run.define o.name.text none)
  let around ← silent Run.active
  let scope ← silent (Recorded.methodScope around o.above)
  let k ← newClass o (Run.methodTable scope o.methods)
  silent (Run.assignFrom around o.name (.callable (.ofClass k)))

mutual

def execute (rounds : Nat) (call : Calls) (st : Setting) : Stmt Address → Chronicled Unit
  | .expression value => do
    mark
    let _ ← evaluate call value
    pure ()
  | .print _ value => do
    mark
    let v ← evaluate call value
    silent (do Run.print ((← Run.heap).display v))
  | .var name none => do
    mark
    silent (Run.define name.text none)
  | .var name (some value) => do
    mark
    let v ← evaluate call value
    silent (Run.define name.text (some v))
  | .block line body => do
    mark
    let around ← silent Run.active
    let n ← next
    let site : Site := ⟨st.scopes, st.activation.isSome, none, .stmt (.block line body)⟩
    let s ← openRegion (.block site) st.activation around
    within s (executeAll rounds call ⟨st.activation, some n, Table.empty :: st.scopes⟩ body)
  | .ifThen _ condition thenBranch => do
    mark
    let c ← evaluate call condition
    if c.isTruthy then execute rounds call st thenBranch
  | .ifElse _ condition thenBranch elseBranch => do
    mark
    let c ← evaluate call condition
    if c.isTruthy then execute rounds call st thenBranch else execute rounds call st elseBranch
  | .loop _ condition body => do
    mark
    repeatWhile (do
      let c ← evaluate call condition
      if c.isTruthy then
        execute rounds call st body
        pure true
      else pure false) rounds
  | .function declaration => do
    mark
    let around ← silent Run.active
    let o : Origin := ⟨.declared st, st.scopes.declare declaration.name.text⟩
    let f ← newFunction o ⟨declaration, around, false⟩
    silent (Run.define declaration.name.text (some (.callable (.function f))))
  | .classDecl name none methods => do
    mark
    bindClass ⟨st, name, none, methods, none⟩
  | .classDecl name (some parent) methods => do
    mark
    let c ← silent (Run.superclass parent)
    bindClass ⟨st, name, some parent, methods, some c⟩
  | .ret _ none => do
    mark
    silent (throw (.returned .nil))
  | .ret _ (some value) => do
    mark
    let v ← evaluate call value
    silent (throw (.returned v))

def executeAll (rounds : Nat) (call : Calls) (st : Setting) :
    List (Stmt Address) → Chronicled Unit
  | [] => pure ()
  | s :: rest => do
    execute rounds call st s
    executeAll rounds call (st.behind s) rest

end

/-- An activation is a region of its own. -/
def activate (rounds : Nat) (call : Calls) (callee : Option FunctionId) (o : Origin) (k : Closure)
    (arguments : List Value) : Chronicled Value := do
  let n ← next
  let s ← openRegion (.body callee k o.birth) (some n) k.scope
  silent (Run.update (Run.bindParameters s k.declaration.params arguments))
  let st : Setting := ⟨some n, some n, o.scopes.parameters k.declaration.params⟩
  let v ← bodyValue (within s (executeAll rounds call st k.declaration.body))
  silent (Run.yielded k v)

def instantiate (rounds : Nat) (call : Calls) (c : ClassId) (arguments : List Value) :
    Chronicled Value := do
  let i ← silent (Run.change (·.newInstance c))
  let h ← silent Run.heap
  match h.findDeclared c "init" with
  | none => pure ()
  | some (d, initializer) =>
    let scopes ← inner d
    let k ← silent (Run.change (·.bindReceiver initializer i))
    let _ ← activate rounds call none ⟨.bound initializer d i, scopes⟩ k arguments
  pure (.object i)

def host (call : Calls) : Host → Chronicled Value
  | .done v => pure v
  | .raise message => silent (Run.fault (.raised message) none)
  | .call callee arguments next => do
    let v ← call callee arguments
    host call (next v)
  | .arity callee next => do
    let h ← silent Run.heap
    let n ← silent (Run.follow (h.arity? callee))
    host call (next n)
  | .display v next => do
    let h ← silent Run.heap
    host call (next (h.display v))
  | .time next => do
    let now ← silent Run.time
    host call (next now)

def invoke (rounds : Nat) : Nat → Calls
  | 0 => fun _ _ => silent (throw .overflow)
  | depth + 1 => fun callee arguments => do
    let call := invoke rounds depth
    mark
    match callee with
    | .function f =>
      let o ← origin f
      let h ← silent Run.heap
      let k ← silent (Run.follow (h.function? f))
      activate rounds call (some f) o k arguments
    | .ofClass c => instantiate rounds call c arguments
    | .native n =>
      let h ← silent Run.heap
      let routine ← silent (Run.follow (h.native? n))
      host call (routine.body arguments)

def topStatement (limits : Limits) (st : Setting) : Stmt Address → Chronicled (Option Value)
  | .expression value => some <$> evaluate (invoke limits.rounds limits.depth) value
  | s => do
    execute limits.rounds (invoke limits.rounds limits.depth) st s
    pure none

def topLevel (limits : Limits) :
    Setting → Option Value → List (Stmt Address) → Chronicled (Option Value)
  | _, last, [] => pure last
  | st, _, s :: rest => do
    let last ← topStatement limits st s
    topLevel limits (st.behind s) last rest

def program (limits : Limits) (statements : List (Stmt Address)) : Chronicled (Option Value) :=
  topLevel limits .top none statements

end Chronicled
end LoxLang
