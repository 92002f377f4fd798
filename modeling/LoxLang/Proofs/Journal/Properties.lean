import LoxLang.Proofs.Heap.Steps
import LoxLang.Proofs.Journal
import LoxLang.Proofs.Running.Restoring
/-! Properties of instances. Whatever a journaled computation does and whichever way it ends, the
fields of every instance are what the journal says has been stored on it since it was made, and every
access has been answered accordingly. -/
namespace LoxLang

namespace Deed

/-- The value that is stored under a property of an instance. -/
def value? (i : InstanceId) (x : String) : Deed → Option Value
  | .made _ => none
  | .stored j y v => if j = i ∧ y = x then some v else none

end Deed

/-- The value stored last under a property of an instance. -/
def lastStored (i : InstanceId) (x : String) (deeds : List Deed) : Option Value :=
  deeds.findSome? (Deed.value? i x)

/-- The instance was made once, before what is since. -/
structure MadeBefore (i : InstanceId) (since deeds : List Deed) : Prop where
  split : ∃ earlier, deeds = since ++ .made i :: earlier ∧ .made i ∉ earlier
  once : .made i ∉ since

namespace Access

/-- The access yields a function that was not there: the method, in a new scope inside its own that
binds the instance. No value of before is the same as that function. -/
def Binds (a : Access) (method : Closure) : Prop :=
  ∃ f k m, a.result = .ok (.callable (.function f)) m ∧ m.heap.function? f = some k ∧
    k = { method with scope := k.scope } ∧
    m.heap.chain k.scope = k.scope :: a.before.heap.chain method.scope ∧
    m.heap.binding? k.scope "this" = some (some (.object a.object)) ∧
    ∀ v, a.before.heap.Valid v → v.same (.callable (.function f)) = false

/-- What the access comes to on an instance of the class: the value stored last since the instance
was made, else the method that the class has or inherits, else a failure. -/
def Answered (a : Access) (c : ClassId) (since : List Deed) : Prop :=
  match lastStored a.object a.name.text since, a.before.heap.findMethod c a.name.text with
  | some v, _ => a.result = .ok v a.before
  | none, some method => a.Binds method
  | none, none => a.result =
      .error (.fault ⟨.undefinedProperty a.name.text, some a.name.token⟩) a.before

/-- An access comes to what has befallen the instance. If there is none, the heap is ill-formed. -/
def Right (a : Access) : Prop :=
  match a.before.heap.instance? a.object with
  | some o => ∃ since, MadeBefore a.object since a.deeds ∧ a.Answered o.ofClass since
  | none => a.result = .error .illFormed a.before

end Access

/-- The deeds account for the fields of all instances. -/
structure Accounts (deeds : List Deed) (h : Heap) : Prop where
  made : ∀ i, .made i ∈ deeds → i.index < h.instances.size
  fields : ∀ i o, h.instance? i = some o →
    ∃ since, MadeBefore i since deeds ∧ ∀ x, o.fields.find? x = lastStored i x since

variable {deeds since : List Deed} {h : Heap} {i j : InstanceId} {x y : String} {v : Value}

theorem instanceId_eq_iff : i = j ↔ i.index = j.index := by
  cases i
  cases j
  exact InstanceId.mk.injEq _ _ ▸ Iff.rfl

/-! One more deed. -/

theorem lastStored_stored : lastStored i x (.stored j y v :: since) =
    if j = i ∧ y = x then some v else lastStored i x since := by
  simp only [lastStored, List.findSome?_cons, Deed.value?]
  by_cases same : j = i ∧ y = x
  · rw [if_pos same, if_pos same]
  · rw [if_neg same, if_neg same]

namespace MadeBefore

theorem more (before : MadeBefore i since deeds) {d : Deed} (other : d ≠ .made i) :
    MadeBefore i (d :: since) (d :: deeds) := by
  obtain ⟨⟨earlier, split, absent⟩, once⟩ := before
  exact ⟨⟨earlier, congrArg (d :: ·) split, absent⟩,
    List.not_mem_cons_of_ne_of_not_mem other.symm once⟩

theorem now (absent : .made i ∉ deeds) : MadeBefore i [] (.made i :: deeds) :=
  ⟨⟨deeds, rfl, absent⟩, List.not_mem_nil⟩

end MadeBefore

namespace Accounts

/-- What leaves the instances as they are needs no account. -/
theorem spared {h' : Heap} (accounts : Accounts deeds h) (same : h'.instances = h.instances) :
    Accounts deeds h' := by
  refine ⟨same ▸ accounts.made, fun i o found => accounts.fields i o ?_⟩
  rwa [Heap.instance?, ← same]

theorem newInstance (accounts : Accounts deeds h) (c : ClassId) :
    Accounts (.made (h.newInstance c).1 :: deeds) (h.newInstance c).2 := by
  have size : (h.newInstance c).2.instances.size = h.instances.size + 1 := by
    simp [Heap.newInstance]
  refine ⟨fun i member => ?_, fun i o found => ?_⟩
  · rw [size]
    rcases List.mem_cons.mp member with same | earlier
    · cases same
      exact Nat.lt_succ_self _
    · exact Nat.lt_succ_of_lt (accounts.made i earlier)
  · rw [instance?_newInstance] at found
    by_cases fresh : i.index = h.instances.size
    · rw [if_pos fresh] at found
      cases found
      obtain rfl : i = (h.newInstance c).1 := instanceId_eq_iff.mpr fresh
      refine ⟨[], .now fun member => ?_, fun x => rfl⟩
      exact Nat.lt_irrefl _ (accounts.made _ member)
    · rw [if_neg fresh] at found
      obtain ⟨since, before, fields⟩ := accounts.fields i o found
      refine ⟨_ :: since, before.more fun same => fresh ?_, fields⟩
      cases same
      rfl

theorem setField (accounts : Accounts deeds h) (j : InstanceId) (y : String) (v : Value) :
    Accounts (.stored j y v :: deeds) (h.setField j y v) := by
  have size : (h.setField j y v).instances.size = h.instances.size := by simp [Heap.setField]
  have other (i : InstanceId) : Deed.made i ≠ .stored j y v := by simp
  refine ⟨fun i member => ?_, fun i o found => ?_⟩
  · rw [size]
    exact accounts.made i ((List.mem_cons.mp member).resolve_left (other i))
  · rw [Heap.instance?_setField] at found
    by_cases same : j.index = i.index
    · rw [if_pos same] at found
      obtain ⟨o', found', rfl⟩ := Option.map_eq_some_iff.mp found
      obtain ⟨since, before, fields⟩ := accounts.fields i o' found'
      refine ⟨_ :: since, before.more (other i).symm, fun x => ?_⟩
      obtain rfl := instanceId_eq_iff.mpr same
      rw [Table.find?_put, lastStored_stored, fields x]
      by_cases named : x = y
      · rw [if_pos named, if_pos ⟨rfl, named.symm⟩]
      · rw [if_neg named, if_neg fun both => named both.2.symm]
    · rw [if_neg same] at found
      obtain ⟨since, before, fields⟩ := accounts.fields i o found
      refine ⟨_ :: since, before.more (other i).symm, fun x => ?_⟩
      rw [lastStored_stored, if_neg fun both => same (congrArg InstanceId.index both.1), fields x]

end Accounts

/-! How an access ends. -/

theorem Heap.Valid.not_same_new {k : Closure} (valid : h.Valid v) :
    v.same (.callable (.function (h.newFunction k).1)) = false := by
  cases v with
  | callable c =>
      refine decide_eq_false fun same => ?_
      subst same
      have there : (h.functions[h.functions.size]?).isSome = true := valid
      simp at there
  | _ => rfl

/-- A method is bound to an instance in a function of its own. -/
theorem Access.binds_bound {a : Access} {method : Closure}
    (same : a.result = Run.bound method a.object a.before) : a.Binds method := by
  let h := a.before.heap
  let k := (h.bindReceiver method a.object).1
  let h' := (h.bindReceiver method a.object).2
  have fresh : (h.newScope (some method.scope)).2.Alive k.scope := by
    rw [Heap.alive_iff]
    simp [k, Heap.bindReceiver, Heap.newScope]
  refine ⟨(h'.newFunction k).1, k, { a.before with heap := (h'.newFunction k).2 }, same, ?_, rfl, ?_,
    Heap.binding?_define_self "this" _ fresh, fun v valid => ?_⟩
  · simp [Heap.newFunction, Heap.function?]
  · refine (Heap.chain_define _ _ _ _ _).trans ?_
    exact h.chain_newScope_self method.scope
  · exact valid.not_same_new (k := k)

theorem Access.right_of_property (i : InstanceId) (name : Name) {m : Machine}
    (accounts : Accounts deeds m.heap) :
    (Access.mk i name m deeds (Run.property i name m)).Right := by
  unfold Access.Right
  cases found : m.heap.instance? i with
  | none =>
      simp only [Run.property, Bind.bind, EStateM.bind, Run.heap, Run.follow, found]
      rfl
  | some o =>
  obtain ⟨since, before, fields⟩ := accounts.fields i o found
  refine ⟨since, before, ?_⟩
  unfold Access.Answered
  rw [← fields name.text]
  cases stored : o.fields.find? name.text with
  | some v =>
      simp only [Run.property, Bind.bind, EStateM.bind, Run.heap, Run.follow, found, stored,
        Pure.pure, EStateM.pure]
  | none =>
      cases here : m.heap.findMethod o.ofClass name.text with
      | some method =>
          refine Access.binds_bound (a := ⟨i, name, m, deeds, Run.property i name m⟩) ?_
          simp only [Run.property, Bind.bind, EStateM.bind, Run.heap, Run.follow, found, stored,
            here, Pure.pure, EStateM.pure]
      | none =>
          simp only [Run.property, Bind.bind, EStateM.bind, Run.heap, Run.follow, found, stored,
            here, Pure.pure, EStateM.pure]
          rfl

/-! Computations that leave the instances as they are. -/

namespace Run
variable {α β : Type}

/-- Whatever the computation does, and whichever way it ends, the instances are what they were. -/
def Spares (x : Run α) : Prop := ∀ m, (x.leaves m).heap.instances = m.heap.instances

theorem Still.spares {x : Run α} (still : Still x) : Spares x := fun m =>
  congrArg (fun m' => m'.heap.instances) (still m)

namespace Spares

theorem pure (a : α) : Spares (Pure.pure a : Run α) := fun _ => rfl

theorem throw (e : Exit) : Spares (MonadExcept.throw e : Run α) := fun _ => rfl

theorem bind {x : Run α} {f : α → Run β} (first : Spares x) (second : ∀ a, Spares (f a)) :
    Spares (x >>= f) :=
  leaves_bind (fun m m' => m'.heap.instances = m.heap.instances) (fun one two => two.trans one)
    first second

theorem heap : Spares Run.heap := fun _ => rfl

theorem active : Spares Run.active := fun _ => rfl

theorem time : Spares Run.time := fun _ => rfl

theorem fault (cause : Fault.Cause) (token : Option Token) :
    Spares (Run.fault cause token : Run α) := fun _ => rfl

theorem change {f : Heap → α × Heap} (same : ∀ h, (f h).2.instances = h.instances) :
    Spares (Run.change f) := fun m => same m.heap

theorem update {f : Heap → Heap} (same : ∀ h, (f h).instances = h.instances) :
    Spares (Run.update f) := fun m => same m.heap

theorem follow (o : Option α) : Spares (Run.follow o) := (Still.follow o).spares

end Spares

theorem lift_spares (token : Token) (r : Except Fault.Cause Value) : Spares (lift token r) :=
  (lift_still token r).spares

theorem lookUp_spares (token : Token) (address : Address) : Spares (lookUp token address) :=
  (lookUp_still token address).spares

theorem define_spares (name : String) (v : Option Value) : Spares (define name v) :=
  Spares.active.bind fun _ => .update fun _ => rfl

theorem assignFrom_spares (s : ScopeId) (name : Name) (v : Value) :
    Spares (assignFrom s name v) := fun m => by
  rcases assignFrom_cases s name v m with ⟨t, same⟩ | ⟨e, same, -⟩ <;>
    · rw [leaves, same]
      rfl

theorem assign_spares (name : Name) (address : Address) (v : Value) :
    Spares (assign name address v) := fun m => by
  rcases assign_cases name address v m with ⟨t, same⟩ | ⟨e, same, -⟩ <;>
    · rw [leaves, same]
      rfl

theorem bound_spares (method : Closure) (i : InstanceId) : Spares (bound method i) :=
  (Spares.change fun _ => rfl).bind fun _ => (Spares.change fun _ => rfl).bind fun _ => .pure _

theorem property_spares (i : InstanceId) (name : Name) : Spares (property i name) := by
  refine Spares.heap.bind fun h => (Spares.follow _).bind fun o => ?_
  split
  · exact .pure _
  · split
    · exact bound_spares _ _
    · exact .fault _ _

theorem inheritedMethod_spares (pos : Pos) (method : Name) (address : Address) :
    Spares (inheritedMethod pos method address) := by
  refine Spares.heap.bind fun h => (Spares.follow _).bind fun depth =>
    (lookUp_spares _ _).bind fun parent => Spares.active.bind fun s => ?_
  split
  · split
    · exact bound_spares _ _
    · exact .fault _ _
  · exact .throw _
  · exact .throw _

theorem superclass_spares (parent : Superclass Address) : Spares (superclass parent) :=
  (superclass_still parent).spares

theorem bindClass_spares (name : Name) (above : Option ClassId) (methods : List (Routine Address)) :
    Spares (Recorded.bindClass name above methods) := by
  refine (define_spares _ _).bind fun _ => Spares.active.bind fun s => Spares.bind ?_ fun t =>
    (Spares.change fun _ => rfl).bind fun k => assignFrom_spares _ _ _
  cases above with
  | none => exact .pure _
  | some c =>
      refine (Spares.change fun _ => rfl).bind fun t => Spares.bind (.update fun h => ?_) fun _ =>
        .pure _
      rfl

theorem bindParameters_spares (s : ScopeId) (params : List Name) (arguments : List Value) :
    Spares (update (bindParameters s params arguments)) := by
  refine .update fun h => ?_
  unfold bindParameters
  induction params.zip arguments generalizing h with
  | nil => rfl
  | cons pair rest ih => exact ih _

theorem yielded_spares (k : Closure) (v : Value) : Spares (yielded k v) :=
  (yielded_still k v).spares

end Run

/-! Journaled computations. -/

/-- The journal accounts for the heap, and every access has been answered accordingly. -/
structure Situation.Accounted (a : Situation) : Prop where
  accounts : Accounts a.journal.deeds a.machine.heap
  accesses : ∀ access ∈ a.journal.accesses, access.Right

namespace Journaled
variable {α β : Type}

/-- The situation that a journaled computation leaves. -/
def leaves (x : Journaled α) (a : Situation) : Situation :=
  match x a with
  | .ok _ b | .error _ b => b

/-- From an accounted situation on the computation leaves an accounted one. -/
def Accounting (x : Journaled α) : Prop := ∀ a, a.Accounted → (x.leaves a).Accounted

namespace Accounting
variable {x : Journaled α}

theorem pure (v : α) : Accounting (Pure.pure v : Journaled α) := fun _ accounted => accounted

theorem silent {y : Run α} (spares : y.Spares) : Accounting (Journaled.silent y) := by
  rintro ⟨m, j, pending⟩ accounted
  have same := spares m
  unfold leaves Journaled.silent
  unfold Run.leaves at same
  cases ran : y m <;>
    · rw [ran] at same
      simp only [ran]
      exact ⟨accounted.accounts.spared same, accounted.accesses⟩

theorem bind {f : α → Journaled β} (first : Accounting x) (second : ∀ v, Accounting (f v)) :
    Accounting (x >>= f) := by
  intro a accounted
  have here := first a accounted
  unfold leaves at here ⊢
  simp only [Bind.bind, EStateM.bind]
  cases same : x a with
  | ok v b =>
      rw [same] at here
      exact second v b here
  | error e b =>
      rw [same] at here
      exact here

theorem under (n : Node) (accounting : Accounting x) : Accounting (Journaled.under n x) := by
  intro a accounted
  have here := accounting { a with pending := n :: a.pending }
    ⟨accounted.accounts, accounted.accesses⟩
  unfold leaves at here ⊢
  unfold Journaled.under
  cases same : x { a with pending := n :: a.pending } <;>
    · rw [same] at here
      exact ⟨here.accounts, here.accesses⟩

theorem ite {p : Prop} [Decidable p] {y : Journaled α} (whether : Accounting x)
    (otherwise : Accounting y) : Accounting (if p then x else y) := by
  split
  · exact whether
  · exact otherwise

theorem within (s : ScopeId) (accounting : Accounting x) : Accounting (Journaled.within s x) := by
  intro a accounted
  have here := accounting ⟨{ a.machine with active := s }, a.journal, a.pending⟩
    ⟨accounted.accounts, accounted.accesses⟩
  unfold leaves at here ⊢
  unfold Journaled.within
  cases same : x ⟨{ a.machine with active := s }, a.journal, a.pending⟩ <;>
    · rw [same] at here
      simp only [same]
      exact ⟨here.accounts, here.accesses⟩

theorem bodyValue {body : Journaled Unit} (accounting : Accounting body) :
    Accounting (Journaled.bodyValue body) := by
  intro a accounted
  have here := accounting a accounted
  unfold leaves Journaled.bodyValue at *
  cases same : body a with
  | ok v b =>
      rw [same] at here
      exact here
  | error e b =>
      rw [same] at here
      cases e <;> exact ⟨here.accounts, here.accesses⟩

theorem repeatWhile {round : Journaled Bool} (accounting : Accounting round) (n : Nat) :
    Accounting (Journaled.repeatWhile round n) := by
  induction n with
  | zero => exact silent (.throw _)
  | succ n ih => exact accounting.bind fun _ => ite ih (pure ())

/-- An access is answered as the journal has it by then. -/
theorem property (i : InstanceId) (name : Name) : Accounting (Journaled.property i name) := by
  rintro ⟨m, j, pending⟩ accounted
  have same := Run.property_spares i name m
  have right := Access.right_of_property i name accounted.accounts
  unfold leaves Journaled.property
  unfold Run.leaves at same
  dsimp only at right
  cases ran : Run.property i name m <;>
    · rw [ran] at same right
      simp only [ran]
      exact ⟨accounted.accounts.spared same, List.forall_mem_cons.mpr ⟨right, accounted.accesses⟩⟩

/-- A store is noted with the value that it stores. -/
theorem store (i : InstanceId) (x : String) (v : Value) {f : Unit → Journaled α}
    (rest : Accounting (f ())) : Accounting (do
      Journaled.silent (Run.update (·.setField i x v))
      Journaled.note (.stored i x v)
      f ()) :=
  fun a accounted => rest
    ⟨{ a.machine with heap := a.machine.heap.setField i x v },
      { a.journal with deeds := .stored i x v :: a.journal.deeds }, a.pending⟩
    ⟨accounted.accounts.setField i x v, accounted.accesses⟩

/-- A new instance is noted. -/
theorem newInstance (c : ClassId) {f : InstanceId → Journaled α} (rest : ∀ i, Accounting (f i)) :
    Accounting (do
      let i ← Journaled.silent (Run.change (·.newInstance c))
      Journaled.note (.made i)
      f i) :=
  fun a accounted => rest _
    ⟨{ a.machine with heap := (a.machine.heap.newInstance c).2 },
      { a.journal with deeds := .made (a.machine.heap.newInstance c).1 :: a.journal.deeds },
      a.pending⟩
    ⟨accounted.accounts.newInstance c, accounted.accesses⟩

end Accounting

/-- Calls that are accounted for. -/
def AccountingCalls (call : Calls) : Prop := ∀ callee arguments, Accounting (call callee arguments)

section
variable {call : Calls} {rounds : Nat}

theorem callValue_accounting (calls : AccountingCalls call) (close : Pos) (callee : Value)
    (arguments : List Value) : Accounting (callValue call close callee arguments) := by
  cases callee with
  | callable c =>
      exact (Accounting.silent .heap).bind fun h => (Accounting.silent (.follow _)).bind fun n =>
        .ite (calls c arguments) (.silent (.fault _ _))
  | _ => exact .silent (.fault _ _)

theorem shortCircuit_accounting (op : LogicalOp) (left : Value) {right : Journaled Value}
    (accounting : Accounting right) : Accounting (shortCircuit op left right) := by
  cases op with
  | or => exact .ite (.pure _) accounting
  | and => exact .ite accounting (.pure _)

mutual

theorem evaluate_accounting (calls : AccountingCalls call) :
    ∀ e : Expr Address, Accounting (evaluate call e)
  | .literal _ _ => .under _ (.pure _)
  | .grouping _ inner => .under _ (evaluate_accounting calls inner)
  | .var _ _ => .under _ (.silent (Run.lookUp_spares _ _))
  | .assign _ value _ => .under _ ((evaluate_accounting calls value).bind fun _ =>
      (Accounting.silent (Run.assign_spares _ _ _)).bind fun _ => .pure _)
  | .unary _ _ operand => .under _ ((evaluate_accounting calls operand).bind fun _ =>
      .silent (Run.lift_spares _ _))
  | .binary left _ _ right => .under _ ((evaluate_accounting calls left).bind fun _ =>
      (evaluate_accounting calls right).bind fun _ => .silent (Run.lift_spares _ _))
  | .logical left _ _ right => .under _ ((evaluate_accounting calls left).bind fun _ =>
      shortCircuit_accounting _ _ (evaluate_accounting calls right))
  | .conditional condition thenBranch elseBranch => .under _
      ((evaluate_accounting calls condition).bind fun _ =>
        .ite (evaluate_accounting calls thenBranch) (evaluate_accounting calls elseBranch))
  | .call callee _ arguments => .under _ ((evaluate_accounting calls callee).bind fun _ =>
      (evaluateAll_accounting calls arguments).bind fun _ => callValue_accounting calls _ _ _)
  | .member object name => by
      refine .under _ ((evaluate_accounting calls object).bind fun v => ?_)
      cases v with
      | object i => exact .property i name
      | _ => exact .silent (.fault _ _)
  | .assignMember object name value => by
      refine .under _ ((evaluate_accounting calls object).bind fun v => ?_)
      cases v with
      | object i =>
          exact (evaluate_accounting calls value).bind fun w =>
            .store (f := fun _ => Pure.pure w) i name.text w (.pure w)
      | _ => exact .silent (.fault _ _)
  | .receiver _ _ => .under _ (.silent (Run.lookUp_spares _ _))
  | .inherited _ _ _ => .under _ (.silent (Run.inheritedMethod_spares _ _ _))

theorem evaluateAll_accounting (calls : AccountingCalls call) :
    ∀ es : List (Expr Address), Accounting (evaluateAll call es)
  | [] => .pure _
  | e :: rest => (evaluate_accounting calls e).bind fun _ =>
      (evaluateAll_accounting calls rest).bind fun _ => .pure _

end

mutual

theorem execute_accounting (calls : AccountingCalls call) :
    ∀ s : Stmt Address, Accounting (execute rounds call s)
  | .expression value => .under _ ((evaluate_accounting calls value).bind fun _ => .pure _)
  | .print _ value => .under _ ((evaluate_accounting calls value).bind fun _ =>
      .silent fun _ => rfl)
  | .var _ none => .under _ (.silent (Run.define_spares _ _))
  | .var _ (some value) => .under _ ((evaluate_accounting calls value).bind fun _ =>
      .silent (Run.define_spares _ _))
  | .block _ body => .under _ ((Accounting.silent .active).bind fun _ =>
      (Accounting.silent (.change fun _ => rfl)).bind fun s =>
        .within s (executeAll_accounting calls body))
  | .ifThen _ condition thenBranch => .under _ ((evaluate_accounting calls condition).bind fun _ =>
      .ite (execute_accounting calls thenBranch) (.pure _))
  | .ifElse _ condition thenBranch elseBranch => .under _
      ((evaluate_accounting calls condition).bind fun _ =>
        .ite (execute_accounting calls thenBranch) (execute_accounting calls elseBranch))
  | .loop _ condition body => .under _ (.repeatWhile
      ((evaluate_accounting calls condition).bind fun _ =>
        .ite ((execute_accounting calls body).bind fun _ => .pure _) (.pure _)) rounds)
  | .function _ => .under _ ((Accounting.silent .active).bind fun _ =>
      (Accounting.silent (.change fun _ => rfl)).bind fun _ => .silent (Run.define_spares _ _))
  | .classDecl _ none _ => .under _ (.silent (Run.bindClass_spares _ _ _))
  | .classDecl _ (some _) _ => .under _
      (.bind (.under _ (.silent (Run.superclass_spares _))) fun _ =>
        .silent (Run.bindClass_spares _ _ _))
  | .ret _ none => .under _ (.silent (.throw _))
  | .ret _ (some value) => .under _ ((evaluate_accounting calls value).bind fun _ =>
      .silent (.throw _))

theorem executeAll_accounting (calls : AccountingCalls call) :
    ∀ ss : List (Stmt Address), Accounting (executeAll rounds call ss)
  | [] => .pure _
  | s :: rest => (execute_accounting calls s).bind fun _ => executeAll_accounting calls rest

end

theorem activate_accounting (calls : AccountingCalls call) (k : Closure) (arguments : List Value) :
    Accounting (activate rounds call k arguments) :=
  (Accounting.silent (.change fun _ => rfl)).bind fun s =>
    (Accounting.silent (Run.bindParameters_spares _ _ _)).bind fun _ =>
      (Accounting.bodyValue (.within s (executeAll_accounting calls _))).bind fun _ =>
        .silent (Run.yielded_spares _ _)

theorem instantiate_accounting (calls : AccountingCalls call) (c : ClassId)
    (arguments : List Value) : Accounting (instantiate rounds call c arguments) := by
  refine .newInstance c fun i => (Accounting.silent .heap).bind fun h => ?_
  cases h.findMethod c "init" with
  | none => exact .pure _
  | some initializer =>
      exact (Accounting.silent (.change fun _ => rfl)).bind fun k =>
        (activate_accounting calls k arguments).bind fun _ => .pure _

theorem host_accounting (calls : AccountingCalls call) (p : Host) : Accounting (host call p) := by
  induction p with
  | done v => exact .pure v
  | raise message => exact .silent (.fault _ _)
  | call callee arguments next ih => exact (calls callee arguments).bind ih
  | arity callee next ih =>
      exact (Accounting.silent .heap).bind fun _ => (Accounting.silent (.follow _)).bind ih
  | display v next ih => exact (Accounting.silent .heap).bind fun h => ih (h.display v)
  | time next ih => exact (Accounting.silent .time).bind ih

end

theorem invoke_accounting (rounds depth : Nat) : AccountingCalls (invoke rounds depth) := by
  induction depth with
  | zero => exact fun _ _ => .silent (.throw _)
  | succ depth ih =>
      intro callee arguments
      refine (Accounting.silent .heap).bind fun h => ?_
      cases callee with
      | function f =>
          exact (Accounting.silent (.follow _)).bind fun k => activate_accounting ih k arguments
      | ofClass c => exact instantiate_accounting ih c arguments
      | native n =>
          exact (Accounting.silent (.follow _)).bind fun routine =>
            host_accounting ih (routine.body arguments)

theorem topStatement_accounting (limits : Limits) (s : Stmt Address) :
    Accounting (topStatement limits s) := by
  have calls := invoke_accounting limits.rounds limits.depth
  cases s with
  | expression value => exact .under _ ((evaluate_accounting calls value).bind fun _ => .pure _)
  | _ => exact (execute_accounting calls _).bind fun _ => .pure _

/-- A program is accounted for, whatever it does and whichever way it ends. -/
theorem program_accounting (limits : Limits) (ss : List (Stmt Address)) :
    Accounting (program limits ss) := by
  suffices run : ∀ last, Accounting (topLevel limits last ss) from run none
  induction ss with
  | nil => exact fun last => .pure last
  | cons s rest ih => exact fun _ => (topStatement_accounting limits s).bind ih

end Journaled
end LoxLang
