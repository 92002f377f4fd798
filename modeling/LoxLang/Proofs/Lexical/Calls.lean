import LoxLang.Proofs.Lexical.Statements
import LoxLang.Proofs.Running.Calls
/-! Calls, and with them whole programs, do the same by addresses and by visible names. -/
namespace LoxLang
open Lexical (Environment Location Store)

variable {R : Regime} {d : Prop} {w : Owners} {m : Machine} {σ : Store} {Γ : Scopes}
  {ρ : Environment}

theorem Lexical.Store.world_bindParameters (σ : Store) (ρ : Environment)
    (bindings : List (Name × Value)) :
    (σ.bindParameters ρ bindings).2.world = σ.world := by
  induction bindings generalizing σ ρ with
  | nil => rfl
  | cons pv rest ih => exact (ih _ _).trans (σ.world_declare ρ pv.1.text (some pv.2))

namespace Parallel

/-- An initializer yields its receiver. -/
theorem yielded {k : Closure} {k' : Lexical.Closure} {v : Value} (beside : Beside R w m σ)
    (like : k.LikeFunction R m.heap w k') :
    Parallel R d Same (Run.yielded k v) (Lexical.yielded k' v) w m σ := by
  obtain ⟨Γ, -, same, receiver⟩ := like
  by_cases initializer : k.isInitializer = true
  · obtain ⟨Δ, rfl⟩ := receiver initializer
    have finds : Scopes.Finds (Walk.receiverScope :: Δ) "this" (some 0) := by
      refine ⟨?_, ?_⟩
      · simp [Scopes.locate_cons, Table.contains, Scopes.receiverScope_find]
      · rintro n ⟨⟩
        exact ⟨Walk.receiverScope, rfl, by simp [Scopes.receiverScope_find]⟩
    obtain ⟨t, b, reached, inner, bound, here⟩ := beside.alike.binding_local same.visible finds
    obtain ⟨i, rfl⟩ := (beside.alike.sound.inScope.reserved t "this" b (absurd · inner) bound).1 rfl
    have got : m.heap.getAt k.scope 0 "this" = .ok (.object i) :=
      Heap.getAt_of_bound rfl reached bound
    refine congr (pure (a := Value.object i) beside rfl) ?_ ?_
    · simp only [Run.yielded, initializer, if_true, Bind.bind, EStateM.bind, Run.heap, got]
    · simp only [Lexical.yielded, same.isInitializer, initializer, if_true, Bind.bind, EStateM.bind,
        Lexical.store, here]
  · refine congr (pure (a := v) beside rfl) ?_ ?_
    · rw [Run.yielded, if_neg initializer]
    · rw [Lexical.yielded, same.isInitializer, if_neg initializer]

theorem map {α β : Type} {x : Run α} {y : Lexical.Run α} (f : α → β)
    (p : Parallel R d Same x y w m σ) : Parallel R d Same (f <$> x) (f <$> y) w m σ := by
  unfold Parallel at p ⊢
  simp only [Functor.map, EStateM.map]
  generalize x m = r, y σ = r' at p
  cases p with
  | ok l beside same => exact .ok l beside (congrArg f same)
  | error l beside => exact .error l beside

end Parallel

section
variable {call : Caller} {call' : Lexical.Caller} {rounds : Nat}

/-- A function is run with its arguments in a scope that is new. -/
theorem activate_parallel (orderly : R.Orderly) (serves : Parallel.Serves R call call')
    {k : Closure} {k' : Lexical.Closure} {arguments : List Value} (beside : Beside R w m σ)
    (like : k.LikeFunction R m.heap w k')
    (count : arguments.length = k.declaration.params.length) :
    Parallel R False Same (Run.activate rounds call k arguments)
      (Lexical.activate rounds call' k' arguments) w m σ := by
  have function := like
  obtain ⟨Γ, known, same, -⟩ := like
  have opened := Stands.newScope same.visible beside.alike.bindings
  obtain ⟨w₁, alike₁, stands₁, grown₁⟩ := (beside.alike.newScope (some k.scope)).bindParameters
    orderly.untyped opened known.params count
  have params : k'.declaration.params = k.declaration.params := by
    rw [same.declaration, Routine.params_erase]
  have body : k'.declaration.body = eraseBody k.declaration.body := by
    rw [same.declaration, Routine.body_erase]
  have sites : ∀ σ ∈ sitesOfAll (Γ.parameters k.declaration.params) true k.declaration.body,
      R.sites σ := by
    rw [← Routine.sites_eq]
    exact known.code
  let made := m.heap.newScope (some k.scope)
  let bound := Run.bindParameters made.1 k.declaration.params arguments made.2
  let entered := σ.bindParameters (Table.empty :: k'.visible) (k.declaration.params.zip arguments)
  have extends₁ : m.heap.Extends bound :=
    (m.heap.extends_newScope _).trans (Heap.extends_bindParameters _ _ _ _)
  have world : entered.2.world = m.world :=
    (σ.world_bindParameters _ _).trans beside.world
  have inner : Parallel R True Effect (Run.executeAll rounds call k.declaration.body)
      (Lexical.executeAll rounds call' entered.1 (eraseBody k.declaration.body)) w₁
      ⟨bound, made.1, m.world⟩ entered.2 :=
    executeAll_parallel orderly serves _ _ _ true _ _ _ ⟨alike₁, world⟩ stands₁ sites
  have fresh : ∀ t, t = made.1 → ¬m.heap.Alive t := by
    rintro t rfl
    exact m.heap.not_alive_new
  have run := Parallel.bodyValue (Parallel.within (d := False) (n := ⟨bound, m.active, m.world⟩)
    extends₁ rfl (grown₁.weaken fresh) m.heap.not_alive_new inner)
  have whole : Parallel R False Same
      (do
        let s ← Run.change (·.newScope (some k.scope))
        Run.update (Run.bindParameters s k.declaration.params arguments)
        Run.bodyValue (Run.within s (Run.executeAll rounds call k.declaration.body)))
      (do
        let ρ ← Lexical.change fun σ =>
          σ.bindParameters (Table.empty :: k'.visible) (k'.declaration.params.zip arguments)
        Lexical.bodyValue (Lexical.executeAll rounds call' ρ k'.declaration.body)) w m σ := by
    rw [params, body]
    exact run
  refine Parallel.congr (whole.bind id ?_) rfl rfl
  rintro _ v w₂ m₂ σ₂ later beside₂ rfl
  exact .yielded beside₂ (function.grow later.grown later.owners.keeps)

/-- The initializer of a class runs on a new instance. -/
theorem instantiate_parallel (orderly : R.Orderly) (serves : Parallel.Serves R call call')
    {c : ClassId} {arguments : List Value} (beside : Beside R w m σ)
    (count : m.heap.arity? (.ofClass c) = some arguments.length) :
    Parallel R False Same (Run.instantiate rounds call c arguments)
      (Lexical.instantiate rounds call' c arguments) w m σ := by
  obtain ⟨_, -, count⟩ := Option.map_eq_some_iff.mp count
  obtain ⟨number, alike₁⟩ := beside.alike.newInstance orderly.untyped c
  have made : Parallel R False (fun _ m' i i' => i' = i ∧
        m'.heap.findMethod c "init" = m.heap.findMethod c "init")
      (Run.change (·.newInstance c)) (Lexical.change (·.newInstance c)) w m σ :=
    .change alike₁ beside.world ⟨m.heap.extends_newInstance c, rfl, .refl w _⟩ ⟨number, rfl⟩
  refine made.bind id ?_
  rintro _ i w₁ m₁ σ₁ - beside₁ ⟨rfl, same⟩
  have like := beside₁.alike.findMethod c "init"
  rw [← same] at count
  generalize found : m₁.heap.findMethod c "init" = k, found' : σ₁.findMethod c "init" = k' at like
  refine .read ?_
  simp only [found, found'] at count ⊢
  cases like with
  | none => exact .pure beside₁ rfl
  | @some k k' like =>
      have taken : arguments.length = k.declaration.params.length := count.symm
      obtain ⟨w₂, alike₂, function, grown⟩ :=
        beside₁.alike.bindReceiver orderly.untyped like i
      have receiver : Parallel R False
          (fun w m k k' => k.LikeFunction R m.heap w k' ∧
            arguments.length = k.declaration.params.length)
          (Run.change (·.bindReceiver k i)) (Lexical.change (·.bindReceiver k' i)) w₁ m₁ σ₁ :=
        .change alike₂ beside₁.world
          ⟨m₁.heap.extends_bindReceiver k i, rfl, grown.weaken fun _ => .inl⟩ ⟨function, taken⟩
      refine receiver.bind id fun k k' w₃ m₃ σ₃ _ beside₃ ⟨function, taken⟩ => ?_
      refine (activate_parallel orderly serves beside₃ function taken).bind id ?_
      intro _ _ w₄ m₄ σ₄ _ beside₄ _
      exact .pure beside₄ rfl

/-- A program of the host does the same on both sides. -/
theorem host_parallel (serves : Parallel.Serves R call call') (orderly : R.Orderly) (p : Host) :
    ∀ (w : Owners) (m : Machine) (σ : Store), Beside R w m σ → p.Proper R.typed m.heap →
      Parallel R False Same (Run.host call p) (Lexical.host call' p) w m σ := by
  induction p with
  | done v => exact fun w m σ beside _ => .pure beside rfl
  | raise message => exact fun w m σ beside _ => .fault beside _ _
  | call callee arguments next ih =>
      intro w m σ beside proper
      obtain ⟨count, -, rest⟩ := proper
      refine (serves callee arguments w m σ beside count).bind id ?_
      rintro _ v w₁ m₁ σ₁ later beside₁ rfl
      exact ih v w₁ m₁ σ₁ beside₁ (rest v m₁.heap later.grown (absurd · orderly.untyped))
  | arity callee next ih =>
      intro w m σ beside proper
      refine .read ((Parallel.follow beside (rel_of_eq (beside.alike.arity?_eq callee))).bind id ?_)
      rintro _ n w₁ m₁ σ₁ - beside₁ ⟨rfl, rfl, taken, rfl⟩
      exact ih n _ _ σ₁ beside₁ (proper.2 n taken)
  | display v next ih =>
      intro w m σ beside proper
      refine .read ?_
      rw [beside.alike.display_eq]
      exact ih _ w m σ beside proper
  | time next ih =>
      intro w m σ beside proper
      refine (Parallel.time beside).bind id ?_
      rintro _ now w₁ m₁ σ₁ - beside₁ ⟨rfl, same⟩
      exact ih now w₁ m₁ σ₁ beside₁ (same ▸ proper now)

/-- Calls do the same on both sides, however deep they may nest. -/
theorem invoke_parallel (orderly : R.Orderly) (rounds depth : Nat) :
    Parallel.Serves R (Run.invoke rounds depth) (Lexical.invoke rounds depth) := by
  induction depth with
  | zero => exact fun c arguments w m σ beside _ => .stop beside
  | succ depth ih =>
      intro c arguments w m σ beside count
      cases c with
      | function f =>
          have like := beside.alike.objects.functions f
          refine .read ((Parallel.follow beside like).bind id ?_)
          rintro k k' w₁ m₁ σ₁ - beside₁ ⟨rfl, rfl, found, like⟩
          have taken : arguments.length = k.declaration.params.length := by
            simpa [Heap.arity?, found] using count.symm
          exact activate_parallel orderly ih beside₁ like taken
      | ofClass c => exact instantiate_parallel orderly ih beside count
      | native n =>
          have natives : σ.native? n = m.heap.native? n := by
            rw [Store.native?, Heap.native?, beside.alike.objects.natives]
          refine .read ((Parallel.follow beside (rel_of_eq natives)).bind id ?_)
          rintro _ r w₁ m₁ σ₁ - beside₁ ⟨rfl, rfl, found, rfl⟩
          have taken : arguments.length = r.arity := by
            simpa [Heap.arity?, found] using count.symm
          exact host_parallel ih orderly _ _ _ _ beside₁
            (beside.alike.sound.inScope.natives n r found m₁.heap arguments taken
              (absurd · orderly.untyped))

end

/-! Programs. -/

/-- At the global scope no local name is visible. -/
theorem Alike.stands_globals (alike : Alike R w m.heap σ) (active : m.active = Machine.globals) :
    Stands w m.heap m.active [] [] := by
  refine ⟨?_, trivial⟩
  rw [active, alike.sound.inScope.outermost]
  exact .globals alike.sound.inScope.globals

theorem topStatement_parallel (orderly : R.Orderly) (limits : Limits) (s : Stmt Address)
    (beside : Beside R w m σ) (active : m.active = Machine.globals)
    (known : ∀ σ ∈ s.sites [] false, R.sites σ) :
    Parallel R True Same (Run.topStatement limits s) (Lexical.topStatement limits s.erase) w m σ := by
  have serves : Parallel.Serves R (Run.invoke limits.rounds limits.depth)
      (Lexical.invoke limits.rounds limits.depth) := invoke_parallel orderly _ _
  have stands := beside.alike.stands_globals active
  have executed : Parallel R True Same
      (do
        Run.execute limits.rounds (Run.invoke limits.rounds limits.depth) s
        pure (none : Option Value))
      (do
        let _ ← Lexical.execute limits.rounds (Lexical.invoke limits.rounds limits.depth) [] s.erase
        pure none) w m σ := by
    refine (execute_parallel orderly serves s [] [] false w m σ beside stands known).bind
      (fun _ => trivial) ?_
    intro _ _ w₁ m₁ σ₁ _ beside₁ _
    exact .pure beside₁ rfl
  cases s with
  | expression value =>
      obtain ⟨-, inner⟩ := List.forall_mem_cons.mp known
      exact ((evaluate_parallel orderly serves value w m σ beside stands.visible
        (known_nodes inner)).map some).loosen False.elim
  | var name value => cases value <;> exact executed
  | classDecl name parent methods => cases parent <;> exact executed
  | ret pos value => cases value <;> exact executed
  | _ => exact executed

theorem topLevel_parallel (orderly : R.Orderly) (limits : Limits) (ss : List (Stmt Address)) :
    ∀ (last : Option Value) (w : Owners) (m : Machine) (σ : Store), Beside R w m σ →
      m.active = Machine.globals → (∀ σ ∈ sitesOfAll [] false ss, R.sites σ) →
      Parallel R True Same (Run.topLevel limits last ss)
        (Lexical.topLevel limits last (eraseBody ss)) w m σ := by
  induction ss with
  | nil => exact fun last w m σ beside _ _ => .pure beside rfl
  | cons s rest ih =>
      intro last w m σ beside active known
      obtain ⟨first, others⟩ := List.forall_mem_append.mp known
      rw [Run.topLevel_cons]
      refine (topStatement_parallel orderly limits s beside active first).bind id ?_
      rintro _ last₁ w₁ m₁ σ₁ later beside₁ rfl
      have same : Scopes.extend [] s = [] := by
        rw [Scopes.extend]
        split <;> rfl
      exact ih last₁ w₁ m₁ σ₁ beside₁ (later.active.trans active) (same ▸ others)

/-- A program of known code does the same on both sides. -/
theorem program_parallel (orderly : R.Orderly) (limits : Limits) {ss : List (Stmt Address)}
    (beside : Beside R w m σ) (active : m.active = Machine.globals)
    (known : ∀ σ ∈ sitesOfAll [] false ss, R.sites σ) :
    Parallel R True Same (Run.program limits ss) (Lexical.program limits (eraseBody ss)) w m σ :=
  topLevel_parallel orderly limits ss none w m σ beside active known

end LoxLang
