import LoxLang.Proofs.Recording
/-! Journaled runs. A journaled computation does what the computation does and keeps a journal of
what befalls instances: that they are made, that a property of theirs is stored, and how each access
to a property goes. Besides it holds the nodes that are being evaluated or executed, also those in
which a call stands. -/
namespace LoxLang

/-- What befalls an instance. -/
inductive Deed where
  | made (i : InstanceId)
  | stored (i : InstanceId) (property : String) (v : Value)

/-- An access to a property of an instance: the machine before it, what had befallen instances by
then, the latest first, and how it ended. -/
structure Access where
  object : InstanceId
  name : Name
  before : Machine
  deeds : List Deed
  result : EStateM.Result Exit Machine Value

/-- What has befallen instances, and all accesses to properties, each the latest first. -/
structure Journal where
  deeds : List Deed
  accesses : List Access

def Journal.empty : Journal := ⟨[], []⟩

/-- A machine with its journal and the nodes that are being evaluated, the innermost first. -/
structure Situation where
  machine : Machine
  journal : Journal
  pending : List Node

/-- A computation on the machine with its journal. -/
abbrev Journaled (α : Type) : Type := EStateM Exit Situation α

namespace Journaled
variable {α β : Type}

/-- A computation that nothing is noted of. -/
def silent (x : Run α) : Journaled α := fun ⟨m, j, pending⟩ =>
  match x m with
  | .ok v m' => .ok v ⟨m', j, pending⟩
  | .error e m' => .error e ⟨m', j, pending⟩

/-- A computation that belongs to a node. Where it breaks off, the node is left pending. -/
def under (n : Node) (x : Journaled α) : Journaled α := fun a =>
  match x { a with pending := n :: a.pending } with
  | .ok v b => .ok v { b with pending := a.pending }
  | .error e b => .error e b

/-- Notes what has befallen an instance. -/
def note (d : Deed) : Journaled Unit := fun ⟨m, j, pending⟩ =>
  .ok () ⟨m, { j with deeds := d :: j.deeds }, pending⟩

/-- An access to a property, with its end. -/
def property (i : InstanceId) (name : Name) : Journaled Value := fun ⟨m, j, pending⟩ =>
  let j' : Journal :=
    { j with accesses := ⟨i, name, m, j.deeds, Run.property i name m⟩ :: j.accesses }
  match Run.property i name m with
  | .ok v m' => .ok v ⟨m', j', pending⟩
  | .error e m' => .error e ⟨m', j', pending⟩

def within (s : ScopeId) (x : Journaled α) : Journaled α := fun ⟨m, j, pending⟩ =>
  match x ⟨{ m with active := s }, j, pending⟩ with
  | .ok v b => .ok v { b with machine := { b.machine with active := m.active } }
  | .error e b => .error e { b with machine := { b.machine with active := m.active } }

/-- With the body of a call the nodes in it are done, also where a `return` ends it. -/
def bodyValue (body : Journaled Unit) : Journaled Value := fun a =>
  match body a with
  | .ok _ b => .ok .nil b
  | .error (.returned v) b => .ok v { b with pending := a.pending }
  | .error e b => .error e b

def repeatWhile (round : Journaled Bool) : Nat → Journaled Unit
  | 0 => silent (throw .endless)
  | n + 1 => do
    if ← round then repeatWhile round n

/-- A journaled call. -/
abbrev Calls : Type := Callable → List Value → Journaled Value

def callValue (call : Calls) (close : Pos) (callee : Value) (arguments : List Value) :
    Journaled Value := do
  let paren : Token := ⟨.rightParen, ")", close⟩
  match callee with
  | .callable c =>
    let h ← silent Run.heap
    let expected ← silent (Run.follow (h.arity? c))
    if arguments.length = expected then call c arguments
    else silent (Run.fault (.arity expected arguments.length) (some paren))
  | _ => silent (Run.fault .notCallable (some paren))

def shortCircuit (op : LogicalOp) (left : Value) (right : Journaled Value) : Journaled Value :=
  match op with
  | .or => if left.isTruthy then pure left else right
  | .and => if left.isTruthy then right else pure left

mutual

def evaluate (call : Calls) : Expr Address → Journaled Value
  | .literal line value => under (.expr (.literal line value)) (pure value.toValue)
  | .grouping line inner => under (.expr (.grouping line inner)) (evaluate call inner)
  | .var name address => under (.expr (.var name address)) (silent (Run.lookUp name.token address))
  | .assign name value address => under (.expr (.assign name value address)) do
    let v ← evaluate call value
    silent (Run.assign name address v)
    pure v
  | .unary op pos operand => under (.expr (.unary op pos operand)) do
    let v ← evaluate call operand
    silent (Run.lift (op.token pos) (op.apply v))
  | .binary left op pos right => under (.expr (.binary left op pos right)) do
    let a ← evaluate call left
    let b ← evaluate call right
    silent (Run.lift (op.token pos) (op.apply a b))
  | .logical left op pos right => under (.expr (.logical left op pos right)) do
    let a ← evaluate call left
    shortCircuit op a (evaluate call right)
  | .conditional condition thenBranch elseBranch =>
    under (.expr (.conditional condition thenBranch elseBranch)) do
      let c ← evaluate call condition
      if c.isTruthy then evaluate call thenBranch else evaluate call elseBranch
  | .call callee close arguments => under (.expr (.call callee close arguments)) do
    let f ← evaluate call callee
    let args ← evaluateAll call arguments
    callValue call close f args
  | .member object name => under (.expr (.member object name)) do
    match ← evaluate call object with
    | .object i => property i name
    | _ => silent (Run.fault .noProperties (some name.token))
  | .assignMember object name value => under (.expr (.assignMember object name value)) do
    match ← evaluate call object with
    | .object i =>
      let v ← evaluate call value
      silent (Run.update (·.setField i name.text v))
      note (.stored i name.text v)
      pure v
    | _ => silent (Run.fault .noFields (some name.token))
  | .receiver pos address =>
    under (.expr (.receiver pos address)) (silent (Run.lookUp (receiverToken pos) address))
  | .inherited pos method address =>
    under (.expr (.inherited pos method address)) (silent (Run.inheritedMethod pos method address))

def evaluateAll (call : Calls) : List (Expr Address) → Journaled (List Value)
  | [] => pure []
  | e :: rest => do
    let v ← evaluate call e
    let vs ← evaluateAll call rest
    pure (v :: vs)

end

mutual

def execute (rounds : Nat) (call : Calls) : Stmt Address → Journaled Unit
  | .expression value => under (.stmt (.expression value)) do
    let _ ← evaluate call value
    pure ()
  | .print line value => under (.stmt (.print line value)) do
    let v ← evaluate call value
    silent (do Run.print ((← Run.heap).display v))
  | .var name none => under (.stmt (.var name none)) (silent (Run.define name.text none))
  | .var name (some value) => under (.stmt (.var name (some value))) do
    let v ← evaluate call value
    silent (Run.define name.text (some v))
  | .block line body => under (.stmt (.block line body)) do
    let around ← silent Run.active
    let s ← silent (Run.change (·.newScope (some around)))
    within s (executeAll rounds call body)
  | .ifThen line condition thenBranch => under (.stmt (.ifThen line condition thenBranch)) do
    let c ← evaluate call condition
    if c.isTruthy then execute rounds call thenBranch
  | .ifElse line condition thenBranch elseBranch =>
    under (.stmt (.ifElse line condition thenBranch elseBranch)) do
      let c ← evaluate call condition
      if c.isTruthy then execute rounds call thenBranch else execute rounds call elseBranch
  | .loop line condition body => under (.stmt (.loop line condition body)) do
    repeatWhile (do
      let c ← evaluate call condition
      if c.isTruthy then
        execute rounds call body
        pure true
      else pure false) rounds
  | .function declaration => under (.stmt (.function declaration)) do
    let around ← silent Run.active
    let f ← silent (Run.change (·.newFunction ⟨declaration, around, false⟩))
    silent (Run.define declaration.name.text (some (.callable (.function f))))
  | .classDecl name none methods => under (.stmt (.classDecl name none methods)) do
    silent (Recorded.bindClass name none methods)
  | .classDecl name (some parent) methods =>
    under (.stmt (.classDecl name (some parent) methods)) do
      let c ← under (.superclass name parent) (silent (Run.superclass parent))
      silent (Recorded.bindClass name (some c) methods)
  | .ret pos none => under (.stmt (.ret pos none)) (silent (throw (.returned .nil)))
  | .ret pos (some value) => under (.stmt (.ret pos (some value))) do
    let v ← evaluate call value
    silent (throw (.returned v))

def executeAll (rounds : Nat) (call : Calls) : List (Stmt Address) → Journaled Unit
  | [] => pure ()
  | s :: rest => do
    execute rounds call s
    executeAll rounds call rest

end

def activate (rounds : Nat) (call : Calls) (k : Closure) (arguments : List Value) :
    Journaled Value := do
  let s ← silent (Run.change (·.newScope (some k.scope)))
  silent (Run.update (Run.bindParameters s k.declaration.params arguments))
  let v ← bodyValue (within s (executeAll rounds call k.declaration.body))
  silent (Run.yielded k v)

def instantiate (rounds : Nat) (call : Calls) (c : ClassId) (arguments : List Value) :
    Journaled Value := do
  let i ← silent (Run.change (·.newInstance c))
  note (.made i)
  let h ← silent Run.heap
  match h.findMethod c "init" with
  | none => pure ()
  | some initializer =>
    let k ← silent (Run.change (·.bindReceiver initializer i))
    let _ ← activate rounds call k arguments
  pure (.object i)

def host (call : Calls) : Host → Journaled Value
  | .done v => pure v
  | .raise message => silent (Run.fault (.raised message) none)
  | .call callee arguments next => do
    let v ← call callee arguments
    host call (next v)
  | .arity callee next => do
    let h ← silent Run.heap
    let n ← silent (Run.follow (h.arity? callee))
    host call (next n)
  | .display v next => do
    let h ← silent Run.heap
    host call (next (h.display v))
  | .time next => do
    let now ← silent Run.time
    host call (next now)

def invoke (rounds : Nat) : Nat → Calls
  | 0 => fun _ _ => silent (throw .overflow)
  | depth + 1 => fun callee arguments => do
    let call := invoke rounds depth
    let h ← silent Run.heap
    match callee with
    | .function f =>
      let k ← silent (Run.follow (h.function? f))
      activate rounds call k arguments
    | .ofClass c => instantiate rounds call c arguments
    | .native n =>
      let routine ← silent (Run.follow (h.native? n))
      host call (routine.body arguments)

def topStatement (limits : Limits) : Stmt Address → Journaled (Option Value)
  | .expression value => under (.stmt (.expression value)) do
    let v ← evaluate (invoke limits.rounds limits.depth) value
    pure (some v)
  | s => do
    execute limits.rounds (invoke limits.rounds limits.depth) s
    pure none

def topLevel (limits : Limits) : Option Value → List (Stmt Address) → Journaled (Option Value)
  | last, [] => pure last
  | _, s :: rest => do
    let last ← topStatement limits s
    topLevel limits last rest

def program (limits : Limits) (statements : List (Stmt Address)) : Journaled (Option Value) :=
  topLevel limits none statements

end Journaled
end LoxLang
