import LoxLang.Proofs.Recording
/-! Attributed runs. An attributed computation does what the computation does and keeps a ledger:
for whom each function runs, below which class each class is declared, and where a run comes to a
`this` or a `super`. For whom a function runs is entered when it is declared or bound. It is not
looked up in the scopes around its body when it is called. -/
namespace LoxLang

/-- For whom the code of a method runs, functions inside of it included: for the receiver, as code
of the class that declares the method. -/
structure Standing where
  receiver : InstanceId
  declarer : ClassId
deriving DecidableEq

/-- A `this` or a `super` that is about to be evaluated, with whom it is evaluated for. -/
structure Sight where
  who : Option Standing
  node : Expr Address
  machine : Machine

/-- For whom each function on the heap runs, below which class each class on the heap was declared,
and what was seen, the latest first. -/
structure Ledger where
  functions : Array (Option Standing)
  above : Array (Option ClassId)
  sights : List Sight

def Ledger.empty : Ledger := ⟨#[], #[], []⟩

structure Account where
  machine : Machine
  ledger : Ledger

/-- The nearest method of a name, searched from a class upwards, with the class that declares it. -/
def Heap.findDeclared (h : Heap) (c : ClassId) (name : String) : Option (ClassId × Closure) :=
  (h.lineage c).findSome? fun d => ((h.class? d).bind fun k => k.methods.find? name).map (d, ·)

theorem Heap.findDeclared_method (h : Heap) (c : ClassId) (name : String) :
    (h.findDeclared c name).map Prod.snd = h.findMethod c name := by
  unfold findDeclared findMethod
  induction h.lineage c with
  | nil => rfl
  | cons d ds ih =>
      rw [List.findSome?_cons, List.findSome?_cons]
      cases (h.class? d).bind fun k => k.methods.find? name with
      | none => exact ih
      | some method => rfl

/-- The method found from a class upwards, bound to an instance. -/
def Run.methodFrom (h : Heap) (c : ClassId) (name : Name) (i : InstanceId) : Run Value :=
  match h.findMethod c name.text with
  | some method => bound method i
  | none => fault (.undefinedProperty name.text) (some name.token)

/-- What is seen is what the words mean. A `this` is the receiver. A `super` leads to the class above
the declarer, and the method found from there upwards is bound to the receiver. -/
def Sight.Right (above : Array (Option ClassId)) (s : Sight) : Prop :=
  match s.node with
  | .receiver pos address => ∃ w, s.who = some w ∧
    ∀ call, Run.evaluate call (.receiver pos address) s.machine = .ok (.object w.receiver) s.machine
  | .inherited pos method address => ∃ w p, s.who = some w ∧
    above[w.declarer.index]? = some (some p) ∧
    ∀ call, Run.evaluate call (.inherited pos method address) s.machine =
      Run.methodFrom s.machine.heap p method w.receiver s.machine
  | _ => True

/-- A computation on the machine with the ledger. -/
abbrev Attributed (α : Type) : Type := EStateM Exit Account α

namespace Attributed
variable {α β : Type}

/-- A computation of which the ledger takes no note. -/
def silent (x : Run α) : Attributed α := fun ⟨m, l⟩ =>
  match x m with
  | .ok v m' => .ok v ⟨m', l⟩
  | .error e m' => .error e ⟨m', l⟩

/-- Notes a `this` or a `super`. -/
def note (who : Option Standing) (node : Expr Address) : Attributed Unit := fun ⟨m, l⟩ =>
  .ok () ⟨m, { l with sights := ⟨who, node, m⟩ :: l.sights }⟩

/-- For whom a function runs. -/
def standing (f : FunctionId) : Attributed (Option Standing) := fun a =>
  .ok a.ledger.functions[f.index]?.join a

/-- A new function, entered with whom it runs for. -/
def newFunction (who : Option Standing) (k : Closure) : Attributed FunctionId := fun ⟨m, l⟩ =>
  let (f, h) := m.heap.newFunction k
  .ok f ⟨{ m with heap := h }, { l with functions := l.functions.push who }⟩

/-- A new class, entered with the class that it is declared below. -/
def newClass (name : String) (above : Option ClassId) (methods : Table Closure) :
    Attributed ClassId := fun ⟨m, l⟩ =>
  let (c, h) := m.heap.newClass name above methods
  .ok c ⟨{ m with heap := h }, { l with above := l.above.push above }⟩

def within (s : ScopeId) (x : Attributed α) : Attributed α := fun ⟨m, l⟩ =>
  match x ⟨{ m with active := s }, l⟩ with
  | .ok v ⟨m', l'⟩ => .ok v ⟨{ m' with active := m.active }, l'⟩
  | .error e ⟨m', l'⟩ => .error e ⟨{ m' with active := m.active }, l'⟩

def bodyValue (body : Attributed Unit) : Attributed Value := fun a =>
  match body a with
  | .ok _ a' => .ok .nil a'
  | .error (.returned v) a' => .ok v a'
  | .error e a' => .error e a'

def repeatWhile (round : Attributed Bool) : Nat → Attributed Unit
  | 0 => silent (throw .endless)
  | n + 1 => do
    if ← round then repeatWhile round n

/-- A method with its receiver bound runs for that receiver. -/
def bound (method : Closure) (who : Standing) : Attributed Value := do
  let k ← silent (Run.change (·.bindReceiver method who.receiver))
  let f ← newFunction (some who) k
  pure (.callable (.function f))

/-- The method found from a class upwards, bound to an instance, runs as code of the class in which
it is found. -/
def methodFrom (h : Heap) (c : ClassId) (name : Name) (i : InstanceId) : Attributed Value :=
  match h.findDeclared c name.text with
  | some (d, method) => bound method ⟨i, d⟩
  | none => silent (Run.fault (.undefinedProperty name.text) (some name.token))

def property (i : InstanceId) (name : Name) : Attributed Value := do
  let h ← silent Run.heap
  let o ← silent (Run.follow (h.instance? i))
  match o.fields.find? name.text with
  | some v => pure v
  | none => methodFrom h o.ofClass name i

def inheritedMethod (pos : Pos) (method : Name) (address : Address) : Attributed Value := do
  let h ← silent Run.heap
  let depth ← silent (Run.follow address)
  let parent ← silent (Run.lookUp (inheritedToken pos) address)
  let s ← silent Run.active
  match parent, h.getAt s (depth - 1) "this" with
  | .callable (.ofClass c), .ok (.object i) => methodFrom h c method i
  | _, .error (.unbound u) => silent (throw (.unbound u))
  | _, _ => silent (throw .illFormed)

/-- An attributed call. It is the callee that knows for whom it runs. -/
abbrev Calls : Type := Callable → List Value → Attributed Value

def callValue (call : Calls) (close : Pos) (callee : Value) (arguments : List Value) :
    Attributed Value := do
  let paren : Token := ⟨.rightParen, ")", close⟩
  match callee with
  | .callable c =>
    let h ← silent Run.heap
    let expected ← silent (Run.follow (h.arity? c))
    if arguments.length = expected then call c arguments
    else silent (Run.fault (.arity expected arguments.length) (some paren))
  | _ => silent (Run.fault .notCallable (some paren))

def shortCircuit (op : LogicalOp) (left : Value) (right : Attributed Value) : Attributed Value :=
  match op with
  | .or => if left.isTruthy then pure left else right
  | .and => if left.isTruthy then right else pure left

mutual

def evaluate (call : Calls) (who : Option Standing) : Expr Address → Attributed Value
  | .literal _ value => pure value.toValue
  | .grouping _ inner => evaluate call who inner
  | .var name address => silent (Run.lookUp name.token address)
  | .assign name value address => do
    let v ← evaluate call who value
    silent (Run.assign name address v)
    pure v
  | .unary op pos operand => do
    let v ← evaluate call who operand
    silent (Run.lift (op.token pos) (op.apply v))
  | .binary left op pos right => do
    let a ← evaluate call who left
    let b ← evaluate call who right
    silent (Run.lift (op.token pos) (op.apply a b))
  | .logical left op _ right => do
    let a ← evaluate call who left
    shortCircuit op a (evaluate call who right)
  | .conditional condition thenBranch elseBranch => do
    let c ← evaluate call who condition
    if c.isTruthy then evaluate call who thenBranch else evaluate call who elseBranch
  | .call callee close arguments => do
    let f ← evaluate call who callee
    let args ← evaluateAll call who arguments
    callValue call close f args
  | .member object name => do
    match ← evaluate call who object with
    | .object i => property i name
    | _ => silent (Run.fault .noProperties (some name.token))
  | .assignMember object name value => do
    match ← evaluate call who object with
    | .object i =>
      let v ← evaluate call who value
      silent (Run.update (·.setField i name.text v))
      pure v
    | _ => silent (Run.fault .noFields (some name.token))
  | .receiver pos address => do
    note who (.receiver pos address)
    silent (Run.lookUp (receiverToken pos) address)
  | .inherited pos method address => do
    note who (.inherited pos method address)
    inheritedMethod pos method address

def evaluateAll (call : Calls) (who : Option Standing) :
    List (Expr Address) → Attributed (List Value)
  | [] => pure []
  | e :: rest => do
    let v ← evaluate call who e
    let vs ← evaluateAll call who rest
    pure (v :: vs)

end

/-- Declares a class below another one, or below none. -/
def bindClass (name : Name) (above : Option ClassId) (methods : List (Routine Address)) :
    Attributed Unit := do
  silent (Run.define name.text none)
  let around ← silent Run.active
  let scope ← silent (Recorded.methodScope around above)
  let k ← newClass name.text above (Run.methodTable scope methods)
  silent (Run.assignFrom around name (.callable (.ofClass k)))

mutual

/-- A function runs for whom its declaration runs. -/
def execute (rounds : Nat) (call : Calls) (who : Option Standing) : Stmt Address → Attributed Unit
  | .expression value => do
    let _ ← evaluate call who value
    pure ()
  | .print _ value => do
    let v ← evaluate call who value
    silent (do Run.print ((← Run.heap).display v))
  | .var name none => silent (Run.define name.text none)
  | .var name (some value) => do
    let v ← evaluate call who value
    silent (Run.define name.text (some v))
  | .block _ body => do
    let around ← silent Run.active
    let s ← silent (Run.change (·.newScope (some around)))
    within s (executeAll rounds call who body)
  | .ifThen _ condition thenBranch => do
    let c ← evaluate call who condition
    if c.isTruthy then execute rounds call who thenBranch
  | .ifElse _ condition thenBranch elseBranch => do
    let c ← evaluate call who condition
    if c.isTruthy then execute rounds call who thenBranch else execute rounds call who elseBranch
  | .loop _ condition body =>
    repeatWhile (do
      let c ← evaluate call who condition
      if c.isTruthy then
        execute rounds call who body
        pure true
      else pure false) rounds
  | .function declaration => do
    let around ← silent Run.active
    let f ← newFunction who ⟨declaration, around, false⟩
    silent (Run.define declaration.name.text (some (.callable (.function f))))
  | .classDecl name none methods => bindClass name none methods
  | .classDecl name (some parent) methods => do
    let c ← silent (Run.superclass parent)
    bindClass name (some c) methods
  | .ret _ none => silent (throw (.returned .nil))
  | .ret _ (some value) => do
    let v ← evaluate call who value
    silent (throw (.returned v))

def executeAll (rounds : Nat) (call : Calls) (who : Option Standing) :
    List (Stmt Address) → Attributed Unit
  | [] => pure ()
  | s :: rest => do
    execute rounds call who s
    executeAll rounds call who rest

end

def activate (rounds : Nat) (call : Calls) (who : Option Standing) (k : Closure)
    (arguments : List Value) : Attributed Value := do
  let s ← silent (Run.change (·.newScope (some k.scope)))
  silent (Run.update (Run.bindParameters s k.declaration.params arguments))
  let v ← bodyValue (within s (executeAll rounds call who k.declaration.body))
  silent (Run.yielded k v)

/-- The initializer of a new instance runs for it. -/
def instantiate (rounds : Nat) (call : Calls) (c : ClassId) (arguments : List Value) :
    Attributed Value := do
  let i ← silent (Run.change (·.newInstance c))
  let h ← silent Run.heap
  match h.findDeclared c "init" with
  | none => pure ()
  | some (d, initializer) =>
    let k ← silent (Run.change (·.bindReceiver initializer i))
    let _ ← activate rounds call (some ⟨i, d⟩) k arguments
  pure (.object i)

def host (call : Calls) : Host → Attributed Value
  | .done v => pure v
  | .raise message => silent (Run.fault (.raised message) none)
  | .call callee arguments next => do
    let v ← call callee arguments
    host call (next v)
  | .arity callee next => do
    let h ← silent Run.heap
    let n ← silent (Run.follow (h.arity? callee))
    host call (next n)
  | .display v next => do
    let h ← silent Run.heap
    host call (next (h.display v))
  | .time next => do
    let now ← silent Run.time
    host call (next now)

/-- A function that is called runs for whom it was entered. -/
def invoke (rounds : Nat) : Nat → Calls
  | 0 => fun _ _ => silent (throw .overflow)
  | depth + 1 => fun callee arguments =>
    let call := invoke rounds depth
    match callee with
    | .function f => do
      let who ← standing f
      let h ← silent Run.heap
      let k ← silent (Run.follow (h.function? f))
      activate rounds call who k arguments
    | .ofClass c => instantiate rounds call c arguments
    | .native n => do
      let h ← silent Run.heap
      let routine ← silent (Run.follow (h.native? n))
      host call (routine.body arguments)

/-- Statements at the top run for nobody. -/
def topStatement (limits : Limits) : Stmt Address → Attributed (Option Value)
  | .expression value => some <$> evaluate (invoke limits.rounds limits.depth) none value
  | s => do
    execute limits.rounds (invoke limits.rounds limits.depth) none s
    pure none

def topLevel (limits : Limits) : Option Value → List (Stmt Address) → Attributed (Option Value)
  | last, [] => pure last
  | _, s :: rest => do
    let last ← topStatement limits s
    topLevel limits last rest

def program (limits : Limits) (statements : List (Stmt Address)) : Attributed (Option Value) :=
  topLevel limits none statements

/-! Without the ledger an attributed computation is the computation. -/

/-- A result without the ledger. -/
def struck : EStateM.Result Exit Account α → EStateM.Result Exit Machine α
  | .ok v a => .ok v a.machine
  | .error e a => .error e a.machine

/-- The attributed computation does what the computation does. -/
def Does (x : Attributed α) (y : Run α) : Prop := ∀ a, y a.machine = struck (x a)

namespace Does
variable {x : Attributed α} {y : Run α}

theorem pure (v : α) : Does (Pure.pure v) (Pure.pure v) := fun _ => rfl

theorem silent (y : Run α) : Does (Attributed.silent y) y := by
  intro a
  unfold Attributed.silent
  cases same : y a.machine <;> simp only [same, struck]

theorem bind {f : α → Attributed β} {g : α → Run β} (first : Does x y)
    (second : ∀ v, Does (f v) (g v)) : Does (x >>= f) (y >>= g) := by
  intro a
  have here := first a
  simp only [Bind.bind, EStateM.bind]
  cases same : x a with
  | ok v b =>
      rw [same] at here
      rw [here]
      exact second v b
  | error e b =>
      rw [same] at here
      rw [here]
      rfl

theorem map (f : α → β) (does : Does x y) : Does (f <$> x) (f <$> y) := by
  rw [map_eq_pure_bind, map_eq_pure_bind]
  exact does.bind fun v => pure (f v)

theorem note {who : Option Standing} {node : Expr Address} {f : Unit → Attributed α}
    (does : Does (f ()) y) : Does (Attributed.note who node >>= f) y := fun ⟨m, l⟩ =>
  does ⟨m, { l with sights := ⟨who, node, m⟩ :: l.sights }⟩

theorem standing {f : FunctionId} {g : Option Standing → Attributed α}
    (does : ∀ who, Does (g who) y) : Does (Attributed.standing f >>= g) y := fun a => does _ a

theorem newFunction (who : Option Standing) (k : Closure) :
    Does (Attributed.newFunction who k) (Run.change (·.newFunction k)) := fun _ => rfl

theorem newClass (name : String) (above : Option ClassId) (methods : Table Closure) :
    Does (Attributed.newClass name above methods) (Run.change (·.newClass name above methods)) :=
  fun _ => rfl

theorem ite {p : Prop} [Decidable p] {x' : Attributed α} {y' : Run α} (whether : Does x y)
    (otherwise : Does x' y') : Does (if p then x else x') (if p then y else y') := by
  split
  · exact whether
  · exact otherwise

theorem within (s : ScopeId) (does : Does x y) : Does (Attributed.within s x) (Run.within s y) := by
  intro a
  have here := does ⟨{ a.machine with active := s }, a.ledger⟩
  simp only [Attributed.within, Run.within, here]
  cases x ⟨{ a.machine with active := s }, a.ledger⟩ <;> rfl

theorem bodyValue {body : Attributed Unit} {body' : Run Unit} (does : Does body body') :
    Does (Attributed.bodyValue body) (Run.bodyValue body') := by
  intro a
  simp only [Attributed.bodyValue, Run.bodyValue, does a]
  cases body a with
  | ok v b => rfl
  | error e b => cases e <;> rfl

theorem repeatWhile {round : Attributed Bool} {round' : Run Bool} (does : Does round round')
    (n : Nat) : Does (Attributed.repeatWhile round n) (Run.repeatWhile round' n) := by
  induction n with
  | zero => exact silent _
  | succ n ih => exact does.bind fun again => ite ih (pure ())

end Does

theorem bound_does (method : Closure) (who : Standing) :
    Does (bound method who) (Run.bound method who.receiver) :=
  (Does.silent _).bind fun _ => (Does.newFunction _ _).bind fun _ => .pure _

theorem methodFrom_does (h : Heap) (c : ClassId) (name : Name) (i : InstanceId) :
    Does (methodFrom h c name i) (Run.methodFrom h c name i) := by
  have same := h.findDeclared_method c name.text
  unfold methodFrom Run.methodFrom
  rw [← same]
  cases h.findDeclared c name.text with
  | none => exact .silent _
  | some found => exact bound_does found.2 ⟨i, found.1⟩

theorem property_does (i : InstanceId) (name : Name) :
    Does (property i name) (Run.property i name) := by
  refine (Does.silent _).bind fun h => (Does.silent _).bind fun o => ?_
  cases o.fields.find? name.text with
  | some v => exact .pure v
  | none => exact methodFrom_does h o.ofClass name i

theorem inheritedMethod_does (pos : Pos) (method : Name) (address : Address) :
    Does (inheritedMethod pos method address) (Run.inheritedMethod pos method address) := by
  refine (Does.silent _).bind fun h => (Does.silent _).bind fun depth =>
    (Does.silent _).bind fun parent => (Does.silent _).bind fun s => ?_
  cases h.getAt s (depth - 1) "this" with
  | error e =>
      cases parent with
      | callable c => cases c <;> cases e <;> exact .silent _
      | _ => cases e <;> exact .silent _
  | ok v =>
      cases parent with
      | callable c =>
          cases c with
          | ofClass c =>
              cases v with
              | object i => exact methodFrom_does h c method i
              | _ => exact .silent _
          | _ => exact .silent _
      | _ => exact .silent _

/-- Attributed calls that do what the calls do. -/
def DoCalls (call : Calls) (call' : Caller) : Prop :=
  ∀ callee arguments, Does (call callee arguments) (call' callee arguments)

section
variable {call : Calls} {call' : Caller}

theorem callValue_does (calls : DoCalls call call') (close : Pos) (callee : Value)
    (arguments : List Value) :
    Does (callValue call close callee arguments) (Run.callValue call' close callee arguments) := by
  cases callee with
  | callable c =>
      exact (Does.silent _).bind fun h => (Does.silent _).bind fun expected =>
        .ite (calls c arguments) (.silent _)
  | _ => exact .silent _

theorem shortCircuit_does (op : LogicalOp) (left : Value) {right : Attributed Value}
    {right' : Run Value} (does : Does right right') :
    Does (shortCircuit op left right) (Run.shortCircuit op left right') := by
  cases op with
  | or => exact .ite (.pure _) does
  | and => exact .ite does (.pure _)

mutual

theorem evaluate_does (calls : DoCalls call call') (who : Option Standing) :
    ∀ e : Expr Address, Does (evaluate call who e) (Run.evaluate call' e)
  | .literal _ value => .pure _
  | .grouping _ inner => evaluate_does calls who inner
  | .var _ _ => .silent _
  | .assign _ value _ => (evaluate_does calls who value).bind fun _ =>
      (Does.silent _).bind fun _ => .pure _
  | .unary _ _ operand => (evaluate_does calls who operand).bind fun _ => .silent _
  | .binary left _ _ right => (evaluate_does calls who left).bind fun _ =>
      (evaluate_does calls who right).bind fun _ => .silent _
  | .logical left _ _ right => (evaluate_does calls who left).bind fun _ =>
      shortCircuit_does _ _ (evaluate_does calls who right)
  | .conditional condition thenBranch elseBranch =>
      (evaluate_does calls who condition).bind fun _ =>
        .ite (evaluate_does calls who thenBranch) (evaluate_does calls who elseBranch)
  | .call callee _ arguments => (evaluate_does calls who callee).bind fun _ =>
      (evaluateAll_does calls who arguments).bind fun _ => callValue_does calls _ _ _
  | .member object name => by
      refine (evaluate_does calls who object).bind fun v => ?_
      cases v with
      | object i => exact property_does i name
      | _ => exact .silent _
  | .assignMember object _ value => by
      refine (evaluate_does calls who object).bind fun v => ?_
      cases v with
      | object i =>
          exact (evaluate_does calls who value).bind fun _ =>
            (Does.silent _).bind fun _ => .pure _
      | _ => exact .silent _
  | .receiver _ _ => .note (.silent _)
  | .inherited _ _ _ => .note (inheritedMethod_does _ _ _)

theorem evaluateAll_does (calls : DoCalls call call') (who : Option Standing) :
    ∀ es : List (Expr Address), Does (evaluateAll call who es) (Run.evaluateAll call' es)
  | [] => .pure _
  | e :: rest => (evaluate_does calls who e).bind fun _ =>
      (evaluateAll_does calls who rest).bind fun _ => .pure _

end

theorem bindClass_does (name : Name) (above : Option ClassId) (methods : List (Routine Address)) :
    Does (bindClass name above methods) (Recorded.bindClass name above methods) :=
  (Does.silent _).bind fun _ => (Does.silent _).bind fun _ => (Does.silent _).bind fun _ =>
    (Does.newClass _ _ _).bind fun _ => .silent _

variable {rounds : Nat}

mutual

theorem execute_does (calls : DoCalls call call') (who : Option Standing) :
    ∀ s : Stmt Address, Does (execute rounds call who s) (Run.execute rounds call' s)
  | .expression value => (evaluate_does calls who value).bind fun _ => .pure _
  | .print _ value => (evaluate_does calls who value).bind fun _ => .silent _
  | .var _ none => .silent _
  | .var _ (some value) => (evaluate_does calls who value).bind fun _ => .silent _
  | .block _ body => (Does.silent _).bind fun _ => (Does.silent _).bind fun s =>
      .within s (executeAll_does calls who body)
  | .ifThen _ condition thenBranch => (evaluate_does calls who condition).bind fun _ =>
      .ite (execute_does calls who thenBranch) (.pure _)
  | .ifElse _ condition thenBranch elseBranch => (evaluate_does calls who condition).bind fun _ =>
      .ite (execute_does calls who thenBranch) (execute_does calls who elseBranch)
  | .loop _ condition body => .repeatWhile
      ((evaluate_does calls who condition).bind fun _ =>
        .ite ((execute_does calls who body).bind fun _ => .pure _) (.pure _)) rounds
  | .function _ => (Does.silent _).bind fun _ => (Does.newFunction _ _).bind fun _ => .silent _
  | .classDecl _ none _ => bindClass_does _ _ _
  | .classDecl name (some parent) methods => by
      rw [execute, Run.execute, Recorded.declareClass_some]
      exact (Does.silent _).bind fun c => bindClass_does name (some c) methods
  | .ret _ none => .silent _
  | .ret _ (some value) => (evaluate_does calls who value).bind fun _ => .silent _

theorem executeAll_does (calls : DoCalls call call') (who : Option Standing) :
    ∀ ss : List (Stmt Address), Does (executeAll rounds call who ss) (Run.executeAll rounds call' ss)
  | [] => .pure _
  | s :: rest => (execute_does calls who s).bind fun _ => executeAll_does calls who rest

end

theorem activate_does (calls : DoCalls call call') (who : Option Standing) (k : Closure)
    (arguments : List Value) :
    Does (activate rounds call who k arguments) (Run.activate rounds call' k arguments) :=
  (Does.silent _).bind fun s => (Does.silent _).bind fun _ =>
    (Does.bodyValue (.within s (executeAll_does calls who _))).bind fun _ => .silent _

theorem instantiate_does (calls : DoCalls call call') (c : ClassId) (arguments : List Value) :
    Does (instantiate rounds call c arguments) (Run.instantiate rounds call' c arguments) := by
  refine (Does.silent _).bind fun i => (Does.silent _).bind fun h => ?_
  rw [← h.findDeclared_method c "init"]
  cases h.findDeclared c "init" with
  | none => exact .pure _
  | some found => exact (Does.silent _).bind fun k =>
      (activate_does calls _ k arguments).bind fun _ => .pure _

theorem host_does (calls : DoCalls call call') (p : Host) : Does (host call p) (Run.host call' p) := by
  induction p with
  | done v => exact .pure v
  | raise message => exact .silent _
  | call callee arguments next ih => exact (calls callee arguments).bind ih
  | arity callee next ih => exact (Does.silent _).bind fun _ => (Does.silent _).bind ih
  | display v next ih => exact (Does.silent _).bind fun h => ih (h.display v)
  | time next ih => exact (Does.silent _).bind ih

end

theorem invoke_does (rounds depth : Nat) :
    DoCalls (invoke rounds depth) (Run.invoke rounds depth) := by
  induction depth with
  | zero => exact fun _ _ => .silent _
  | succ depth ih =>
      intro callee arguments
      cases callee with
      | function f => exact .standing fun who => (Does.silent _).bind fun _ =>
          (Does.silent _).bind fun k => activate_does ih who k arguments
      | ofClass c => exact instantiate_does ih c arguments
      | native n =>
          exact (Does.silent _).bind fun _ => (Does.silent _).bind fun routine =>
            host_does ih (routine.body arguments)

theorem topStatement_does (limits : Limits) (s : Stmt Address) :
    Does (topStatement limits s) (Run.topStatement limits s) := by
  have calls := invoke_does limits.rounds limits.depth
  cases s with
  | expression value => exact (evaluate_does calls none value).map some
  | _ => exact (execute_does calls none _).bind fun _ => .pure _

/-- An attributed run is the run of the program. -/
theorem program_does (limits : Limits) (ss : List (Stmt Address)) :
    Does (program limits ss) (Run.program limits ss) := by
  suffices run : ∀ last, Does (topLevel limits last ss) (Run.topLevel limits last ss) from run none
  induction ss with
  | nil => exact .pure
  | cons s rest ih =>
      intro last
      rw [topLevel, Run.topLevel_cons]
      exact (topStatement_does limits s).bind ih

end Attributed
end LoxLang
