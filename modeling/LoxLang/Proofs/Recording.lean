import LoxLang.Proofs.Addressing
import LoxLang.Execution
/-! Recorded runs. A recorded computation does what the computation does and notes, at each
node, the machine as it is when that node is about to be evaluated or executed. -/
namespace LoxLang

/-- A node and the machine at the moment at which a run comes to it. -/
structure Visit where
  node : Node
  machine : Machine

/-- How a recorded computation ends, and where it came by until then. -/
structure Recorded.Outcome (α : Type) where
  result : EStateM.Result Exit Machine α
  visits : List Visit

/-- A computation on the machine with its visits. -/
def Recorded (α : Type) : Type := Machine → Recorded.Outcome α

namespace Recorded
variable {α β : Type}

/-- The computation without its visits. -/
def forget (x : Recorded α) : Run α := fun m => (x m).result

instance : Monad Recorded where
  pure a := fun m => ⟨.ok a m, []⟩
  bind x f := fun m =>
    match x m with
    | ⟨.ok a m', visits⟩ => ⟨(f a m').result, visits ++ (f a m').visits⟩
    | ⟨.error e m', visits⟩ => ⟨.error e m', visits⟩

/-- A computation that comes by no node. -/
def silent (x : Run α) : Recorded α := fun m => ⟨x m, []⟩

/-- Notes a node. -/
def visit (n : Node) : Recorded Unit := fun m => ⟨.ok () m, [⟨n, m⟩]⟩

def within (s : ScopeId) (x : Recorded α) : Recorded α := fun m =>
  ⟨Run.within s x.forget m, (x { m with active := s }).visits⟩

def bodyValue (body : Recorded Unit) : Recorded Value := fun m =>
  ⟨Run.bodyValue body.forget m, (body m).visits⟩

def repeatWhile (round : Recorded Bool) : Nat → Recorded Unit
  | 0 => silent (throw .endless)
  | n + 1 => do
    if ← round then repeatWhile round n

/-- A recorded call. -/
abbrev Calls : Type := Callable → List Value → Recorded Value

def callValue (call : Calls) (close : Pos) (callee : Value) (arguments : List Value) :
    Recorded Value := do
  let paren : Token := ⟨.rightParen, ")", close⟩
  match callee with
  | .callable c =>
    let expected ← silent (do Run.follow ((← Run.heap).arity? c))
    if arguments.length = expected then call c arguments
    else silent (Run.fault (.arity expected arguments.length) (some paren))
  | _ => silent (Run.fault .notCallable (some paren))

def shortCircuit (op : LogicalOp) (left : Value) (right : Recorded Value) : Recorded Value :=
  match op with
  | .or => if left.isTruthy then pure left else right
  | .and => if left.isTruthy then right else pure left

mutual

def evaluate (call : Calls) : Expr Address → Recorded Value
  | .literal line value => do
    visit (.expr (.literal line value))
    pure value.toValue
  | .grouping line inner => do
    visit (.expr (.grouping line inner))
    evaluate call inner
  | .var name address => do
    visit (.expr (.var name address))
    silent (Run.lookUp name.token address)
  | .assign name value address => do
    visit (.expr (.assign name value address))
    let v ← evaluate call value
    visit (.store name address)
    silent (Run.assign name address v)
    pure v
  | .unary op pos operand => do
    visit (.expr (.unary op pos operand))
    let v ← evaluate call operand
    silent (Run.lift (op.token pos) (op.apply v))
  | .binary left op pos right => do
    visit (.expr (.binary left op pos right))
    let a ← evaluate call left
    let b ← evaluate call right
    silent (Run.lift (op.token pos) (op.apply a b))
  | .logical left op pos right => do
    visit (.expr (.logical left op pos right))
    let a ← evaluate call left
    shortCircuit op a (evaluate call right)
  | .conditional condition thenBranch elseBranch => do
    visit (.expr (.conditional condition thenBranch elseBranch))
    let c ← evaluate call condition
    if c.isTruthy then evaluate call thenBranch else evaluate call elseBranch
  | .call callee close arguments => do
    visit (.expr (.call callee close arguments))
    let f ← evaluate call callee
    let args ← evaluateAll call arguments
    callValue call close f args
  | .member object name => do
    visit (.expr (.member object name))
    match ← evaluate call object with
    | .object i => silent (Run.property i name)
    | _ => silent (Run.fault .noProperties (some name.token))
  | .assignMember object name value => do
    visit (.expr (.assignMember object name value))
    match ← evaluate call object with
    | .object i =>
      let v ← evaluate call value
      silent (Run.update (·.setField i name.text v))
      pure v
    | _ => silent (Run.fault .noFields (some name.token))
  | .receiver pos address => do
    visit (.expr (.receiver pos address))
    silent (Run.lookUp (receiverToken pos) address)
  | .inherited pos method address => do
    visit (.expr (.inherited pos method address))
    silent (Run.inheritedMethod pos method address)

def evaluateAll (call : Calls) : List (Expr Address) → Recorded (List Value)
  | [] => pure []
  | e :: rest => do
    let v ← evaluate call e
    let vs ← evaluateAll call rest
    pure (v :: vs)

end

/-- The scope of the methods of a class, which holds `super` if there is a class above. -/
def methodScope (around : ScopeId) (above : Option ClassId) : Run ScopeId :=
  match above with
  | none => pure around
  | some c => do
    let s ← Run.change (·.newScope (some around))
    Run.update (·.define s "super" (some (.callable (.ofClass c))))
    pure s

/-- Makes a class and assigns it to its name. -/
def makeClass (name : Name) (above : Option ClassId) (methods : List (Routine Address))
    (around scope : ScopeId) : Run Unit := do
  let k ← Run.change (·.newClass name.text above (Run.methodTable scope methods))
  Run.assignFrom around name (.callable (.ofClass k))

/-- What a class declaration does once its superclass is known. -/
def bindClass (name : Name) (above : Option ClassId) (methods : List (Routine Address)) :
    Run Unit := do
  Run.define name.text none
  let around ← Run.active
  let scope ← methodScope around above
  makeClass name above methods around scope

theorem declareClass_none (name : Name) (methods : List (Routine Address)) :
    Run.declareClass name none methods = bindClass name none methods := by
  simp [Run.declareClass, bindClass, methodScope, makeClass]

/-- A class is bound once its superclass is known. -/
theorem declareClass_some (name : Name) (parent : Superclass Address)
    (methods : List (Routine Address)) : Run.declareClass name (some parent) methods =
      Run.superclass parent >>= fun c => bindClass name (some c) methods := by
  simp [Run.declareClass, bindClass, methodScope, makeClass]

mutual

def execute (rounds : Nat) (call : Calls) : Stmt Address → Recorded Unit
  | .expression value => do
    visit (.stmt (.expression value))
    let _ ← evaluate call value
    pure ()
  | .print line value => do
    visit (.stmt (.print line value))
    let v ← evaluate call value
    silent (do Run.print ((← Run.heap).display v))
  | .var name none => do
    visit (.stmt (.var name none))
    silent (Run.define name.text none)
  | .var name (some value) => do
    visit (.stmt (.var name (some value)))
    let v ← evaluate call value
    silent (Run.define name.text (some v))
  | .block line body => do
    visit (.stmt (.block line body))
    let s ← silent (do Run.change (·.newScope (some (← Run.active))))
    within s (executeAll rounds call body)
  | .ifThen line condition thenBranch => do
    visit (.stmt (.ifThen line condition thenBranch))
    let c ← evaluate call condition
    if c.isTruthy then execute rounds call thenBranch
  | .ifElse line condition thenBranch elseBranch => do
    visit (.stmt (.ifElse line condition thenBranch elseBranch))
    let c ← evaluate call condition
    if c.isTruthy then execute rounds call thenBranch else execute rounds call elseBranch
  | .loop line condition body => do
    visit (.stmt (.loop line condition body))
    repeatWhile (do
      let c ← evaluate call condition
      if c.isTruthy then
        execute rounds call body
        pure true
      else pure false) rounds
  | .function declaration => do
    visit (.stmt (.function declaration))
    silent (do
      let f ← Run.change (·.newFunction ⟨declaration, (← Run.active), false⟩)
      Run.define declaration.name.text (some (.callable (.function f))))
  | .classDecl name none methods => do
    visit (.stmt (.classDecl name none methods))
    silent (bindClass name none methods)
  | .classDecl name (some parent) methods => do
    visit (.stmt (.classDecl name (some parent) methods))
    visit (.superclass name parent)
    let c ← silent (Run.superclass parent)
    silent (bindClass name (some c) methods)
  | .ret pos none => do
    visit (.stmt (.ret pos none))
    silent (throw (.returned .nil))
  | .ret pos (some value) => do
    visit (.stmt (.ret pos (some value)))
    let v ← evaluate call value
    silent (throw (.returned v))

def executeAll (rounds : Nat) (call : Calls) : List (Stmt Address) → Recorded Unit
  | [] => pure ()
  | s :: rest => do
    execute rounds call s
    executeAll rounds call rest

end

/-- The scope of an activation, with the parameters bound. -/
def openActivation (k : Closure) (arguments : List Value) : Run ScopeId := do
  let s ← Run.change (·.newScope (some k.scope))
  Run.update (Run.bindParameters s k.declaration.params arguments)
  pure s

def activate (rounds : Nat) (call : Calls) (k : Closure) (arguments : List Value) :
    Recorded Value := do
  let s ← silent (openActivation k arguments)
  let v ← bodyValue (within s (executeAll rounds call k.declaration.body))
  silent (Run.yielded k v)

def instantiate (rounds : Nat) (call : Calls) (c : ClassId) (arguments : List Value) :
    Recorded Value := do
  let i ← silent (Run.change (·.newInstance c))
  match (← silent Run.heap).findMethod c "init" with
  | none => pure ()
  | some initializer =>
    let k ← silent (Run.change (·.bindReceiver initializer i))
    let _ ← activate rounds call k arguments
  pure (.object i)

def host (call : Calls) : Host → Recorded Value
  | .done v => pure v
  | .raise message => silent (Run.fault (.raised message) none)
  | .call callee arguments next => do
    let v ← call callee arguments
    host call (next v)
  | .arity callee next => do
    let n ← silent (do Run.follow ((← Run.heap).arity? callee))
    host call (next n)
  | .display v next => do
    let s ← silent (do pure ((← Run.heap).display v))
    host call (next s)
  | .time next => do
    let now ← silent Run.time
    host call (next now)

def invoke (rounds : Nat) : Nat → Calls
  | 0 => fun _ _ => silent (throw .overflow)
  | depth + 1 => fun callee arguments =>
    let call := invoke rounds depth
    match callee with
    | .function f => do
      let k ← silent (do Run.follow ((← Run.heap).function? f))
      activate rounds call k arguments
    | .ofClass c => instantiate rounds call c arguments
    | .native n => do
      let routine ← silent (do Run.follow ((← Run.heap).native? n))
      host call (routine.body arguments)

/-- A statement at the top level with its value, noted also where only the value matters. -/
def topStatement (limits : Limits) : Stmt Address → Recorded (Option Value)
  | .expression value => do
    visit (.stmt (.expression value))
    let v ← evaluate (invoke limits.rounds limits.depth) value
    pure (some v)
  | s => do
    execute limits.rounds (invoke limits.rounds limits.depth) s
    pure none

def topLevel (limits : Limits) : Option Value → List (Stmt Address) → Recorded (Option Value)
  | last, [] => pure last
  | _, s :: rest => do
    let last ← topStatement limits s
    topLevel limits last rest

def program (limits : Limits) (statements : List (Stmt Address)) : Recorded (Option Value) :=
  topLevel limits none statements

/-! Without its visits a recorded computation is the computation. -/

@[simp] theorem forget_pure (a : α) : (pure a : Recorded α).forget = pure a := rfl

@[simp] theorem forget_silent (x : Run α) : (silent x).forget = x := rfl

@[simp] theorem forget_bind (x : Recorded α) (f : α → Recorded β) :
    (x >>= f).forget = x.forget >>= fun a => (f a).forget := by
  funext m
  simp only [forget, bind, EStateM.bind]
  split <;> rename_i h <;> simp only [h]

@[simp] theorem forget_visit (n : Node) : (visit n).forget = pure () := rfl

@[simp] theorem forget_within (s : ScopeId) (x : Recorded α) :
    (within s x).forget = Run.within s x.forget := rfl

@[simp] theorem forget_bodyValue (x : Recorded Unit) :
    (bodyValue x).forget = Run.bodyValue x.forget := rfl

@[simp] theorem forget_ite {p : Prop} [Decidable p] (x y : Recorded α) :
    (if p then x else y).forget = if p then x.forget else y.forget := by
  split <;> rfl

theorem forget_repeatWhile (round : Recorded Bool) (n : Nat) :
    (repeatWhile round n).forget = Run.repeatWhile round.forget n := by
  induction n with
  | zero => rfl
  | succ n ih => simp [repeatWhile, Run.repeatWhile, ih]

/-- The calls without their visits. -/
def Calls.forget (call : Calls) : Caller := fun callee arguments => (call callee arguments).forget

theorem forget_callValue (call : Calls) (close : Pos) (callee : Value) (arguments : List Value) :
    (callValue call close callee arguments).forget =
      Run.callValue call.forget close callee arguments := by
  cases callee with
  | callable c => simp [callValue, Run.callValue, Calls.forget]
  | _ => rfl

theorem forget_shortCircuit (op : LogicalOp) (left : Value) (right : Recorded Value) :
    (shortCircuit op left right).forget = Run.shortCircuit op left right.forget := by
  cases op <;> simp [shortCircuit, Run.shortCircuit]

mutual

theorem forget_evaluate (call : Calls) : ∀ e : Expr Address,
    (evaluate call e).forget = Run.evaluate call.forget e
  | .literal _ _ => rfl
  | .grouping _ inner => by simp [evaluate, Run.evaluate, forget_evaluate call inner]
  | .var _ _ => rfl
  | .assign _ value _ => by simp [evaluate, Run.evaluate, forget_evaluate call value]
  | .unary _ _ operand => by simp [evaluate, Run.evaluate, forget_evaluate call operand]
  | .binary left _ _ right => by
      simp [evaluate, Run.evaluate, forget_evaluate call left, forget_evaluate call right]
  | .logical left _ _ right => by
      simp [evaluate, Run.evaluate, forget_shortCircuit, forget_evaluate call left,
        forget_evaluate call right]
  | .conditional condition thenBranch elseBranch => by
      simp [evaluate, Run.evaluate, forget_evaluate call condition,
        forget_evaluate call thenBranch, forget_evaluate call elseBranch]
  | .call callee _ arguments => by
      simp [evaluate, Run.evaluate, forget_callValue, forget_evaluate call callee,
        forget_evaluateAll call arguments]
  | .member object name => by
      simp only [evaluate, Run.evaluate, forget_bind, forget_visit, pure_bind,
        forget_evaluate call object]
      congr 1
      funext v
      cases v <;> rfl
  | .assignMember object name value => by
      simp only [evaluate, Run.evaluate, forget_bind, forget_visit, pure_bind,
        forget_evaluate call object]
      congr 1
      funext v
      cases v <;> simp [forget_evaluate call value]
  | .receiver _ _ => rfl
  | .inherited _ _ _ => rfl

theorem forget_evaluateAll (call : Calls) : ∀ es : List (Expr Address),
    (evaluateAll call es).forget = Run.evaluateAll call.forget es
  | [] => rfl
  | e :: rest => by
      simp [evaluateAll, Run.evaluateAll, forget_evaluate call e, forget_evaluateAll call rest]

end

mutual

theorem forget_execute (rounds : Nat) (call : Calls) : ∀ s : Stmt Address,
    (execute rounds call s).forget = Run.execute rounds call.forget s
  | .expression value => by simp [execute, Run.execute, forget_evaluate]
  | .print _ value => by simp [execute, Run.execute, forget_evaluate]
  | .var _ none => rfl
  | .var _ (some value) => by simp [execute, Run.execute, forget_evaluate]
  | .block _ body => by
      simp [execute, Run.execute, forget_executeAll rounds call body]
  | .ifThen _ condition thenBranch => by
      simp [execute, Run.execute, forget_evaluate, forget_execute rounds call thenBranch]
  | .ifElse _ condition thenBranch elseBranch => by
      simp [execute, Run.execute, forget_evaluate, forget_execute rounds call thenBranch,
        forget_execute rounds call elseBranch]
  | .loop _ condition body => by
      simp [execute, Run.execute, forget_evaluate, forget_repeatWhile,
        forget_execute rounds call body]
  | .function _ => rfl
  | .classDecl name none methods => rfl
  | .classDecl name (some parent) methods => by
      simp [execute, Run.execute, declareClass_some]
  | .ret _ none => rfl
  | .ret _ (some value) => by simp [execute, Run.execute, forget_evaluate]

theorem forget_executeAll (rounds : Nat) (call : Calls) : ∀ ss : List (Stmt Address),
    (executeAll rounds call ss).forget = Run.executeAll rounds call.forget ss
  | [] => rfl
  | s :: rest => by
      simp [executeAll, Run.executeAll, forget_execute rounds call s,
        forget_executeAll rounds call rest]

end

theorem forget_activate (rounds : Nat) (call : Calls) (k : Closure) (arguments : List Value) :
    (activate rounds call k arguments).forget = Run.activate rounds call.forget k arguments := by
  simp [activate, Run.activate, openActivation, forget_executeAll]

theorem forget_instantiate (rounds : Nat) (call : Calls) (c : ClassId) (arguments : List Value) :
    (instantiate rounds call c arguments).forget =
      Run.instantiate rounds call.forget c arguments := by
  simp only [instantiate, Run.instantiate, forget_bind, forget_silent]
  congr 1
  funext i
  congr 1
  funext h
  cases h.findMethod c "init" <;> simp [forget_activate]

theorem forget_host (call : Calls) (p : Host) :
    (host call p).forget = Run.host call.forget p := by
  induction p with
  | done v => rfl
  | raise message => rfl
  | call callee arguments next ih => simp [host, Run.host, ih, Calls.forget]
  | arity callee next ih => simp [host, Run.host, ih]
  | display v next ih => simp [host, Run.host, ih]
  | time next ih => simp [host, Run.host, ih]

theorem forget_invoke (rounds depth : Nat) :
    Calls.forget (invoke rounds depth) = Run.invoke rounds depth := by
  induction depth with
  | zero => rfl
  | succ depth ih =>
      funext callee arguments
      cases callee <;>
        simp [Calls.forget, invoke, Run.invoke, forget_activate, forget_instantiate, forget_host, ih]

theorem forget_topLevel (limits : Limits) (last : Option Value) (ss : List (Stmt Address)) :
    (topLevel limits last ss).forget = Run.topLevel limits last ss := by
  induction ss generalizing last with
  | nil => rfl
  | cons s rest ih =>
      cases s <;>
        simp [topLevel, topStatement, Run.topLevel, ih, forget_evaluate, forget_execute, forget_invoke]

/-- A recorded run is the run of the program. -/
theorem forget_program (limits : Limits) (ss : List (Stmt Address)) :
    (program limits ss).forget = Run.program limits ss :=
  forget_topLevel limits none ss

end Recorded
end LoxLang
