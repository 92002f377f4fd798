import LoxLang.Proofs.Attribution.Steps
import LoxLang.Proofs.Running.Calls
/-! Attributed runs of accepted code mind the ledger, whatever the routines of the host do. -/
namespace LoxLang

/-- What an accepted statement declares has an ordinary name. -/
theorem Stmt.binds_ordinary {Γ : Scopes} {inside : Bool} {s : Stmt Address}
    (known : ∀ σ ∈ s.sites Γ inside, lawfully.sites σ) : ∀ n, s.binds = some n → n.Ordinary := by
  intro n bound
  cases s with
  | var name initializer =>
      cases bound
      cases initializer <;> exact known _ List.mem_cons_self
  | function declaration =>
      cases bound
      have here : Site.Lawful ⟨Γ, inside, none, .stmt (.function declaration)⟩ :=
        known _ List.mem_cons_self
      exact here.1
  | classDecl name parent methods =>
      cases bound
      have here : Site.Lawful ⟨Γ, inside, none, .stmt (.classDecl n parent methods)⟩ := by
        cases parent <;> exact known _ List.mem_cons_self
      exact here.1
  | _ => cases bound

/-- Behind a statement the words mean what they mean before it. -/
theorem Account.At.extend {a : Account} {Γ : Scopes} {who : Option Standing} (here : a.At Γ who)
    {inside : Bool} {s : Stmt Address} (known : ∀ σ ∈ s.sites Γ inside, lawfully.sites σ) :
    a.At (Γ.extend s) who := by
  have ordinary := Stmt.binds_ordinary known
  unfold Scopes.extend
  cases bound : s.binds with
  | none => exact here
  | some n => exact ⟨here.sound, here.means.declare (ordinary n bound).not_reserved⟩

namespace Attributed
variable {a : Account} {Γ : Scopes} {who : Option Standing}

/-- Calls that mind the ledger. -/
def MindingCalls (call : Calls) : Prop :=
  ∀ callee arguments a, Account.Sound a → Minds (call callee arguments) a

section
variable {call : Calls} {inside : Bool} {i : Option Name}

theorem callValue_minds (calls : MindingCalls call) (sound : a.Sound) (close : Pos)
    (callee : Value) (arguments : List Value) :
    Minds (callValue call close callee arguments) a := by
  cases callee with
  | callable c =>
      exact .heap (.follow sound fun n _ => .ite (calls c arguments a sound) (.fault sound _ _))
  | _ => exact .fault sound _ _

mutual

theorem evaluate_minds (calls : MindingCalls call) : ∀ (e : Expr Address) (a : Account),
    a.At Γ who → (∀ n ∈ e.nodes, lawfully.sites ⟨Γ, inside, i, n⟩) →
    Minds (evaluate call who e) a
  | .literal _ _, a, here, _ => .pure here.sound _
  | .grouping _ inner, a, here, known =>
      evaluate_minds calls inner a here (List.forall_mem_cons.mp known).2
  | .var _ _, a, here, _ =>
      .silent here.sound (Run.lookUp_restores _ _) (Run.lookUp_steady _ _)
  | .assign name value address, a, here, known => by
      obtain ⟨-, inner, last⟩ := known_pair (R := lawfully) known
      have store : Site.Lawful ⟨Γ, inside, i, .store name address⟩ :=
        last _ (List.mem_singleton_self _)
      refine (evaluate_minds calls value a here inner).bind fun v b _ later => ?_
      exact (Minds.silent later.sound (Run.assign_restores _ _ _)
        (Run.assign_steady address v store.1)).bind fun _ c _ later' => .pure later'.sound _
  | .unary _ _ operand, a, here, known => by
      obtain ⟨-, inner⟩ := List.forall_mem_cons.mp known
      exact (evaluate_minds calls operand a here inner).bind fun v b _ later =>
        .silent later.sound (Run.lift_restores _ _) (Run.lift_steady _ _)
  | .binary left _ _ right, a, here, known => by
      obtain ⟨-, first, second⟩ := known_pair (R := lawfully) known
      refine (evaluate_minds calls left a here first).bind fun v b _ later => ?_
      refine (evaluate_minds calls right b (here.later later) second).bind fun w c _ later' => ?_
      exact .silent later'.sound (Run.lift_restores _ _) (Run.lift_steady _ _)
  | .logical left op _ right, a, here, known => by
      obtain ⟨-, first, second⟩ := known_pair (R := lawfully) known
      refine (evaluate_minds calls left a here first).bind fun v b _ later => ?_
      have rest := evaluate_minds calls right b (here.later later) second
      cases op with
      | and => exact .ite rest (.pure later.sound v)
      | or => exact .ite (.pure later.sound v) rest
  | .conditional condition thenBranch elseBranch, a, here, known => by
      obtain ⟨-, first, branches⟩ := known_pair (R := lawfully) known
      obtain ⟨second, third⟩ := List.forall_mem_append.mp branches
      refine (evaluate_minds calls condition a here first).bind fun v b _ later => ?_
      exact .ite (evaluate_minds calls thenBranch b (here.later later) second)
        (evaluate_minds calls elseBranch b (here.later later) third)
  | .call callee close arguments, a, here, known => by
      obtain ⟨-, first, second⟩ := known_pair (R := lawfully) known
      refine (evaluate_minds calls callee a here first).bind fun f b _ later => ?_
      refine (evaluateAll_minds calls arguments b (here.later later) second).bind ?_
      exact fun vs c _ later' => callValue_minds calls later'.sound close f vs
  | .member object name, a, here, known => by
      obtain ⟨-, inner⟩ := List.forall_mem_cons.mp known
      refine (evaluate_minds calls object a here inner).bind fun v b _ later => ?_
      cases v with
      | object j => exact property_minds later.sound j name
      | _ => exact .fault later.sound _ _
  | .assignMember object name value, a, here, known => by
      obtain ⟨-, second, first⟩ := known_pair (R := lawfully) known
      refine (evaluate_minds calls object a here first).bind fun v b _ later => ?_
      cases v with
      | object j =>
          refine (evaluate_minds calls value b (here.later later) second).bind fun w c _ later' => ?_
          have write : Run.Steady (Run.update (·.setField j name.text w)) :=
            .update fun h => h.steady_setField j name.text w
          exact (Minds.silent later'.sound (.update _) write).bind fun _ d _ later'' =>
            .pure later''.sound w
      | _ => exact .fault later.sound _ _
  | .receiver pos address, a, here, known => by
      obtain ⟨d, rfl, found, -⟩ : Site.Lawful ⟨Γ, inside, i, .expr (.receiver pos address)⟩ :=
        known _ List.mem_cons_self
      exact note_minds here (receiver_right here found.symm) fun b here' =>
        .silent here'.sound (Run.lookUp_restores _ _) (Run.lookUp_steady _ _)
  | .inherited pos method address, a, here, known => by
      obtain ⟨d, rfl, ⟨around, -⟩, found, -⟩ :
        Site.Lawful ⟨Γ, inside, i, .expr (.inherited pos method address)⟩ :=
        known _ List.mem_cons_self
      exact note_minds here (inherited_right here found.symm around.symm) fun b here' =>
        inheritedMethod_minds here'.sound pos method _

theorem evaluateAll_minds (calls : MindingCalls call) : ∀ (es : List (Expr Address)) (a : Account),
    a.At Γ who → (∀ n ∈ nodesOfAll es, lawfully.sites ⟨Γ, inside, i, n⟩) →
    Minds (evaluateAll call who es) a
  | [], a, here, _ => .pure here.sound _
  | e :: rest, a, here, known => by
      obtain ⟨first, second⟩ := List.forall_mem_append.mp known
      refine (evaluate_minds calls e a here first).bind fun v b _ later => ?_
      refine (evaluateAll_minds calls rest b (here.later later) second).bind fun vs c _ later' => ?_
      exact .pure later'.sound _

end

end

/-- The scope of the methods of a class is made where the class is declared. -/
theorem methodScope_minds {f : ScopeId → Attributed Unit} (here : a.At Γ who)
    (above : Option ClassId) (rest : ∀ s b, a.Later b →
      Surrounds b.machine.heap b.ledger.above above (b.machine.heap.chain s) Γ → Minds (f s) b) :
    Minds (silent (Recorded.methodScope a.machine.active above) >>= f) a := by
  cases above with
  | none => exact rest a.machine.active a (.refl here.sound) ⟨who, here.means⟩
  | some p =>
      let made := a.machine.heap.newScope (some a.machine.active)
      let v : Value := .callable (.ofClass p)
      let h := made.2.define made.1 "super" (some v)
      have steady := a.machine.heap.steady_newScopeWith (some a.machine.active) "super" (some v)
      have later := Account.Later.on here.sound steady
      refine later.trans (rest made.1 (a.on h) later ?_)
      have chain : h.chain made.1 = made.1 :: a.machine.heap.chain a.machine.active := by
        rw [Heap.chain_define]
        exact a.machine.heap.chain_newScope_self a.machine.active
      rw [show (a.on h).machine.heap = h from rfl, chain]
      exact ⟨made.1, _, who, rfl, Heap.shows_newScopeWith here.sound.globals _ _ v,
        here.means.keep steady.keeps (.refl _)⟩

theorem bindClass_minds {name : Name} {above : Option ClassId} {methods : List (Routine Address)}
    (here : a.At Γ who) (ordinary : name.Ordinary)
    (known : ∀ r ∈ methods,
      r.Known lawfully (Walk.receiverScope :: (Γ.declare name.text).above above)) :
    Minds (bindClass name above methods) a := by
  have declared := Minds.silent here.sound (Run.define_restores name.text none)
    (Run.define_steady none ordinary)
  refine declared.bind fun _ b _ later => .active ?_
  have here' : b.At (Γ.declare name.text) who :=
    ⟨later.sound, (here.later later).means.declare ordinary.not_reserved⟩
  refine methodScope_minds here' above fun s c later' surrounds => ?_
  refine (newClass_minds later'.sound name.text known surrounds).bind fun k d _ later'' => ?_
  exact .silent later''.sound (Run.assignFrom_restores _ _ _) (Run.assignFrom_steady _ _ ordinary)

section
variable {call : Calls} {rounds : Nat}

mutual

theorem execute_minds (calls : MindingCalls call) : ∀ (s : Stmt Address) (Γ : Scopes)
    (inside : Bool) (a : Account), a.At Γ who → (∀ σ ∈ s.sites Γ inside, lawfully.sites σ) →
    Minds (execute rounds call who s) a
  | .expression value, Γ, inside, a, here, known => by
      obtain ⟨-, inner⟩ := List.forall_mem_cons.mp known
      refine (evaluate_minds calls value a here (known_nodes inner)).bind fun _ b _ later => ?_
      exact .pure later.sound ()
  | .print _ value, Γ, inside, a, here, known => by
      obtain ⟨-, inner⟩ := List.forall_mem_cons.mp known
      refine (evaluate_minds calls value a here (known_nodes inner)).bind fun v b _ later => ?_
      exact .silent later.sound (Run.Restores.heap.bind fun _ => .print _)
        (Run.Steady.heap.bind fun _ => .print _)
  | .var name none, Γ, inside, a, here, known =>
      .silent here.sound (Run.define_restores _ _)
        (Run.define_steady none (Stmt.binds_ordinary known name rfl))
  | .var name (some value), Γ, inside, a, here, known => by
      have ordinary := Stmt.binds_ordinary known name rfl
      obtain ⟨-, inner⟩ := List.forall_mem_cons.mp known
      have begun : a.At (Γ.enter name.text false) who :=
        ⟨here.sound, here.means.enter ordinary.not_reserved false⟩
      refine (evaluate_minds calls value a begun (known_nodes inner)).bind fun v b _ later => ?_
      exact .silent later.sound (Run.define_restores _ _) (Run.define_steady _ ordinary)
  | .block _ body, Γ, inside, a, here, known => by
      obtain ⟨-, inner⟩ := List.forall_mem_cons.mp known
      refine .active (.change here.sound (a.machine.heap.steady_newScope _) fun later => .within ?_)
      exact executeAll_minds calls body (Table.empty :: Γ) inside _
        ⟨later.sound, here.means.newScope here.sound.globals⟩ inner
  | .ifThen _ condition thenBranch, Γ, inside, a, here, known => by
      obtain ⟨-, inner⟩ := List.forall_mem_cons.mp known
      obtain ⟨first, second⟩ := List.forall_mem_append.mp inner
      refine (evaluate_minds calls condition a here (known_nodes first)).bind fun v b _ later => ?_
      exact .ite (execute_minds calls thenBranch Γ inside b (here.later later) second)
        (.pure later.sound ())
  | .ifElse _ condition thenBranch elseBranch, Γ, inside, a, here, known => by
      obtain ⟨-, inner⟩ := List.forall_mem_cons.mp known
      obtain ⟨first, branches⟩ := List.forall_mem_append.mp inner
      obtain ⟨second, third⟩ := List.forall_mem_append.mp branches
      refine (evaluate_minds calls condition a here (known_nodes first)).bind fun v b _ later => ?_
      exact .ite (execute_minds calls thenBranch Γ inside b (here.later later) second)
        (execute_minds calls elseBranch Γ inside b (here.later later) third)
  | .loop _ condition body, Γ, inside, a, here, known => by
      obtain ⟨-, inner⟩ := List.forall_mem_cons.mp known
      obtain ⟨first, second⟩ := List.forall_mem_append.mp inner
      refine .repeatWhile (fun b later => ?_) rounds here.sound
      have here' := here.later later
      refine (evaluate_minds calls condition b here' (known_nodes first)).bind fun v c _ later' => ?_
      refine .ite ?_ (.pure later'.sound false)
      exact (execute_minds calls body Γ inside c (here'.later later') second).bind
        fun _ d _ later'' => .pure later''.sound true
  | .function declaration, Γ, inside, a, here, known => by
      have ordinary := Stmt.binds_ordinary known declaration.name rfl
      obtain ⟨site, inner⟩ := List.forall_mem_cons.mp known
      have lawful : Site.Lawful ⟨Γ, inside, none, .stmt (.function declaration)⟩ := site
      refine .active ((newFunction_minds here.sound ⟨Γ.declare declaration.name.text,
        ⟨inner, lawful.2⟩, here.means.declare ordinary.not_reserved⟩).bind fun f b _ later => ?_)
      exact .silent later.sound (Run.define_restores _ _) (Run.define_steady _ ordinary)
  | .classDecl name none methods, Γ, inside, a, here, known => by
      obtain ⟨site, inner⟩ := List.forall_mem_cons.mp known
      have lawful : Site.Lawful ⟨Γ, inside, none, .stmt (.classDecl name none methods)⟩ := site
      exact bindClass_minds here lawful.1 (.of_methods inner lawful.2)
  | .classDecl name (some parent) methods, Γ, inside, a, here, known => by
      obtain ⟨site, others⟩ := List.forall_mem_cons.mp known
      obtain ⟨-, inner⟩ := List.forall_mem_cons.mp others
      have lawful : Site.Lawful ⟨Γ, inside, none, .stmt (.classDecl name (some parent) methods)⟩ :=
        site
      have found := Minds.silent here.sound (Run.superclass_restores parent)
        (Run.superclass_steady parent)
      exact found.bind fun c b _ later =>
        bindClass_minds (here.later later) lawful.1 (.of_methods inner lawful.2)
  | .ret _ none, _, _, a, here, _ => .throw here.sound _
  | .ret _ (some value), Γ, inside, a, here, known => by
      obtain ⟨-, inner⟩ := List.forall_mem_cons.mp known
      refine (evaluate_minds calls value a here (known_nodes inner)).bind fun v b _ later => ?_
      exact .throw later.sound _

theorem executeAll_minds (calls : MindingCalls call) : ∀ (ss : List (Stmt Address)) (Γ : Scopes)
    (inside : Bool) (a : Account), a.At Γ who → (∀ σ ∈ sitesOfAll Γ inside ss, lawfully.sites σ) →
    Minds (executeAll rounds call who ss) a
  | [], _, _, a, here, _ => .pure here.sound ()
  | s :: rest, Γ, inside, a, here, known => by
      obtain ⟨first, others⟩ := List.forall_mem_append.mp known
      refine (execute_minds calls s Γ inside a here first).bind fun _ b _ later => ?_
      exact executeAll_minds calls rest (Γ.extend s) inside b ((here.later later).extend first) others

end

/-- A function that is called minds the ledger if it is called for whom it was entered. -/
theorem activate_minds (calls : MindingCalls call) (sound : a.Sound) {k : Closure}
    (runs : k.RunsFor a.machine.heap a.ledger.above who) (arguments : List Value) :
    Minds (activate rounds call who k arguments) a := by
  obtain ⟨Γ, known, means⟩ := runs
  refine .change sound (a.machine.heap.steady_newScope _) fun later => ?_
  have binds : Run.Steady (Run.update (Run.bindParameters
      (a.machine.heap.newScope (some k.scope)).1 k.declaration.params arguments)) :=
    .update fun h => h.steady_bindParameters _ _ known.params
  refine (Minds.silent later.sound (.update _) binds).bind fun _ c _ later' => ?_
  have body : ∀ σ ∈ sitesOfAll (Γ.parameters k.declaration.params) true k.declaration.body,
      lawfully.sites σ := by
    rw [← Routine.sites_eq]
    exact known.code
  have around := ((means.newScope sound.globals).later later'.keeps
    later'.prolongs).parameters known.params
  have whole : Minds (executeAll rounds call who k.declaration.body) ⟨{ c.machine with
      active := (a.machine.heap.newScope (some k.scope)).1 }, c.ledger⟩ :=
    executeAll_minds calls _ (Γ.parameters k.declaration.params) true _ ⟨later'.sound, around⟩ body
  exact (Minds.bodyValue (.within whole)).bind fun v d _ later'' =>
    .silent later''.sound (Run.yielded_restores _ _) (Run.yielded_steady _ _)

/-- An initializer runs for the new instance. -/
theorem instantiate_minds (calls : MindingCalls call) (sound : a.Sound) (c : ClassId)
    (arguments : List Value) : Minds (instantiate rounds call c arguments) a := by
  refine .change sound (a.machine.heap.steady_newInstance c) fun later => .heap ?_
  cases found : (a.on (a.machine.heap.newInstance c).2).machine.heap.findDeclared c "init" with
  | none => exact .pure later.sound _
  | some declared =>
      obtain ⟨d, method⟩ := declared
      let w : Standing := ⟨(a.machine.heap.newInstance c).1, d⟩
      have runs := (later.sound.findDeclared found).bindReceiver (w := w) later.sound.globals
      refine .change later.sound (Heap.steady_newScopeWith _ _ _ _) fun later' => ?_
      exact (activate_minds calls later'.sound runs arguments).bind fun _ _ _ later'' =>
        .pure later''.sound _

/-- A program of the host minds the ledger, since its calls do. -/
theorem host_minds (calls : MindingCalls call) (p : Host) : ∀ a : Account, a.Sound →
    Minds (host call p) a := by
  induction p with
  | done v => exact fun a sound => .pure sound v
  | raise message => exact fun a sound => .fault sound _ _
  | call callee arguments next ih =>
      exact fun a sound => (calls callee arguments a sound).bind fun v b _ later =>
        ih v b later.sound
  | arity callee next ih => exact fun a sound => .heap (.follow sound fun n _ => ih n a sound)
  | display v next ih => exact fun a sound => .heap (ih _ a sound)
  | time next ih =>
      exact fun a sound => (Minds.silent sound .time .time).bind fun now b _ later =>
        ih now b later.sound

theorem invoke_minds (rounds depth : Nat) : MindingCalls (invoke rounds depth) := by
  induction depth with
  | zero => exact fun _ _ a sound => .throw sound _
  | succ depth ih =>
      intro callee arguments a sound
      cases callee with
      | function f =>
          refine .standing (.heap (.follow sound fun k found => ?_))
          obtain ⟨who, entered⟩ := sound.entered found
          have runs := sound.functions f k who found entered
          rw [entered]
          exact activate_minds ih sound runs arguments
      | ofClass c => exact instantiate_minds ih sound c arguments
      | native n => exact .heap (.follow sound fun r _ => host_minds ih _ a sound)

end

theorem topStatement_minds (limits : Limits) (s : Stmt Address) (here : a.At Γ none)
    (known : ∀ σ ∈ s.sites Γ false, lawfully.sites σ) : Minds (topStatement limits s) a := by
  have calls := invoke_minds limits.rounds limits.depth
  cases s with
  | expression value =>
      obtain ⟨-, inner⟩ := List.forall_mem_cons.mp known
      exact (evaluate_minds calls value a here (known_nodes inner)).map
  | _ => exact (execute_minds calls _ Γ false a here known).bind fun _ _ _ later =>
      .pure later.sound none

theorem topLevel_minds (limits : Limits) (ss : List (Stmt Address)) :
    ∀ (last : Option Value) (Γ : Scopes) (a : Account), a.At Γ none →
      (∀ σ ∈ sitesOfAll Γ false ss, lawfully.sites σ) → Minds (topLevel limits last ss) a := by
  induction ss with
  | nil => exact fun last Γ a here _ => .pure here.sound last
  | cons s rest ih =>
      intro last Γ a here known
      obtain ⟨first, others⟩ := List.forall_mem_append.mp known
      refine (topStatement_minds limits s here first).bind fun last' b _ later => ?_
      exact ih last' (Γ.extend s) b ((here.later later).extend first) others

/-- A program of accepted code minds the ledger on every machine at the global scope. -/
theorem program_minds (limits : Limits) {ss : List (Stmt Address)} (sound : a.Sound)
    (active : a.machine.active = Machine.globals)
    (known : ∀ σ ∈ sitesOfAll [] false ss, lawfully.sites σ) : Minds (program limits ss) a := by
  refine topLevel_minds limits ss none [] a ⟨sound, ?_⟩ known
  rw [active, sound.outermost]
  exact .globals sound.globals

end Attributed
end LoxLang
