import LoxLang.Proofs.Running.Execution
/-! Calls are served in order, however deep they nest, and with them whole programs. -/
namespace LoxLang
variable {R : Regime} {m : Machine} {Γ : Scopes}

theorem Routine.sites_eq (Γ : Scopes) (r : Routine Address) :
    r.sites Γ = sitesOfAll (Γ.parameters r.params) true r.body := by
  cases r
  rfl

namespace Meets

/-- The scope of an activation is like that of the body, if no argument is missing. -/
theorem openActivation {k : Closure} {arguments : List Value} (sound : Sound R m.heap)
    (mirrors : Mirrors m.heap (m.heap.chain k.scope) Γ) (known : k.declaration.Known R Γ)
    (count : arguments.length = k.declaration.params.length)
    (valid : R.typed → ∀ v ∈ arguments, m.heap.Valid v) :
    Meets R false (Recorded.silent (Recorded.openActivation k arguments)) m fun s h =>
      Mirrors h (h.chain s) (Γ.parameters k.declaration.params) := by
  let made := m.heap.newScope (some k.scope)
  have grown := m.heap.extends_newScope (some k.scope)
  have bound := made.2.extends_bindParameters made.1 k.declaration.params arguments
  have opened : Sound R made.2 := sound.newScope (some k.scope)
  have inner := mirrors.newScope
  have around := inner.parameters count
  rw [← Heap.chain, ← bound.chain inner.alive] at around
  exact silent_ok (a := made.1) (n := ⟨Run.bindParameters made.1 k.declaration.params arguments
    made.2, m.active, m.world⟩) rfl ⟨grown.trans bound, rfl,
      opened.bindParameters known.params fun t v member => (valid t v member).grow grown⟩ around

/-- An initializer yields its receiver. -/
theorem yielded {k : Closure} {v : Value} (sound : Sound R m.heap) (known : k.Known R m.heap)
    (valid : Yields R v m.heap) : Meets R false (Recorded.silent (Run.yielded k v)) m (Yields R) := by
  by_cases initializer : k.isInitializer = true
  · obtain ⟨Γ, -, mirrors, receiver⟩ := known
    obtain ⟨Δ, rfl⟩ := receiver initializer
    obtain ⟨t, reached, inner, bound⟩ := mirrors.holds (d := 0) (x := "this")
      ⟨Walk.receiverScope, rfl, by simp [Scopes.receiverScope_find]⟩
    obtain ⟨b, here⟩ := Option.isSome_iff_exists.mp bound
    obtain ⟨i, rfl⟩ := (sound.inScope.reserved t "this" b (absurd · inner) here).1 rfl
    have got : m.heap.getAt k.scope 0 "this" = .ok (.object i) :=
      Heap.getAt_of_bound rfl reached here
    refine silent_ok (a := .object i) (n := m) ?_ (.refl sound) fun t' => ?_
    · simp only [Run.yielded, initializer, if_true, Bind.bind, EStateM.bind, Run.heap, got]
      rfl
    · exact (sound.typed t').bindings t "this" _ here
  · refine silent_congr (y := Pure.pure v) ?_ (pure sound valid)
    rw [Run.yielded, if_neg initializer]

end Meets

section
variable {call : Recorded.Calls} {rounds : Nat}

/-- A function of known code is run in order. -/
theorem activate_meets (serves : Serves R call) {k : Closure} {arguments : List Value}
    (sound : Sound R m.heap) (known : k.Known R m.heap)
    (count : arguments.length = k.declaration.params.length)
    (valid : R.typed → ∀ v ∈ arguments, m.heap.Valid v) :
    Meets R false (Recorded.activate rounds call k arguments) m (Yields R) := by
  obtain ⟨Γ, code, mirrors, initializer⟩ := known
  refine (Meets.openActivation sound mirrors code count valid).bind fun s m' after inner => ?_
  have body : ∀ σ ∈ sitesOfAll (Γ.parameters k.declaration.params) true k.declaration.body,
      R.sites σ := by
    rw [← Routine.sites_eq]
    exact code.code
  have whole : Meets R true (Recorded.executeAll rounds call k.declaration.body)
      { m' with active := s } fun _ _ => True :=
    executeAll_meets serves _ (Γ.parameters k.declaration.params) true _ ⟨after.sound, inner⟩ body
  refine (Meets.bodyValue (.within whole)).bind fun v m'' after' yields => ?_
  exact .yielded after'.sound
    ⟨Γ, code, mirrors.later (after.grown.trans after'.grown), initializer⟩ yields

/-- An instance is made in order; its initializer takes the arguments of the class. -/
theorem instantiate_meets (serves : Serves R call) {c : ClassId} {arguments : List Value}
    (sound : Sound R m.heap) (count : m.heap.arity? (.ofClass c) = some arguments.length)
    (valid : R.typed → ∀ v ∈ arguments, m.heap.Valid v) :
    Meets R false (Recorded.instantiate rounds call c arguments) m (Yields R) := by
  obtain ⟨k, here, count'⟩ := Option.map_eq_some_iff.mp count
  have leads : m.heap.Leads (.ofClass c) := Option.isSome_iff_exists.mpr ⟨k, here⟩
  refine (Meets.change (m.heap.extends_newInstance c) (sound.newInstance fun _ => leads)).bind ?_
  intro i m' after made
  have object : m'.heap.Valid (.object i) := by
    have valid := valid_newInstance m.heap c
    rw [made] at valid
    exact valid
  have same : m'.heap.findMethod c "init" = m.heap.findMethod c "init" := by
    rw [← show (m.heap.newInstance c).2 = m'.heap from congrArg Prod.snd made]
    rfl
  refine (Meets.heap after.sound).bind ?_
  rintro h m'' after' ⟨rfl, here'⟩
  cases found : m'.heap.findMethod c "init" with
  | none => exact .pure after'.sound fun _ => object.grow after'.grown
  | some method =>
      have taken : arguments.length = method.declaration.params.length := by
        rw [same] at found
        simpa only [found, Option.map_some, Option.getD_some] using count'.symm
      have known : method.KnownMethod R m''.heap :=
        (after.sound.inScope.findMethod found).grow after'.grown
      have receiver : R.typed → m''.heap.Valid (.object i) := fun _ => object.grow after'.grown
      obtain ⟨sound', known'⟩ := after'.sound.bindReceiver known receiver
      have grown := m''.heap.extends_bindReceiver method i
      refine (Meets.change grown sound').bind fun k m₃ after₃ made' => ?_
      rw [made'] at known'
      have count₃ : arguments.length = k.declaration.params.length := by
        rw [← show (m''.heap.bindReceiver method i).1 = k by rw [made']]
        exact taken
      have valid₃ : R.typed → ∀ v ∈ arguments, m₃.heap.Valid v := fun t v member =>
        (valid t v member).grow (after.grown.trans (after'.grown.trans after₃.grown))
      refine (activate_meets serves after₃.sound known' count₃ valid₃).bind fun _ m₄ after₄ _ => ?_
      exact .pure after₄.sound fun t => (receiver t).grow (after₃.grown.trans after₄.grown)

/-- A proper program of the host runs in order. -/
theorem host_meets (serves : Serves R call) (p : Host) : ∀ m : Machine, Sound R m.heap →
    p.Proper R.typed m.heap → Meets R false (Recorded.host call p) m (Yields R) := by
  induction p with
  | done v =>
      intro m sound proper
      exact .pure sound proper
  | raise message =>
      intro m sound _
      exact .fail sound _ _
  | call callee arguments next ih =>
      intro m sound proper
      obtain ⟨count, valid, rest⟩ := proper
      refine (serves callee arguments m sound count valid).bind fun v m' after yields => ?_
      exact ih v m' after.sound
        (rest v m'.heap after.grown fun t => ⟨after.sound.typed t, yields t⟩)
  | arity callee next ih =>
      intro m sound proper
      refine (Meets.follow (f := fun h => h.arity? callee) sound fun t =>
        Heap.arity?_of_leads (proper.1 t)).bind ?_
      rintro n m' after ⟨same, taken⟩
      rw [same] at taken
      exact ih n m' after.sound (same ▸ proper.2 n taken)
  | display v next ih =>
      intro m sound proper
      have shown : Meets R false (Recorded.silent (do pure ((← Run.heap).display v))) m
          fun s h => h = m.heap ∧ s = m.heap.display v :=
        .silent_ok (n := m) rfl (.refl sound) ⟨rfl, rfl⟩
      refine shown.bind ?_
      rintro s m' after ⟨same, rfl⟩
      exact ih _ m' after.sound (same ▸ proper)
  | time next ih =>
      intro m sound proper
      refine (Meets.time sound).bind ?_
      rintro now m' after same
      exact ih now m' after.sound (same ▸ proper now)

/-- Calls are served in order, whatever depth they may nest to. -/
theorem invoke_serves (rounds depth : Nat) : Serves R (Recorded.invoke rounds depth) := by
  induction depth with
  | zero =>
      intro c arguments m sound _ _
      exact .silent_error rfl (.refl sound) trivial
  | succ depth ih =>
      intro c arguments m sound count valid
      cases c with
      | function f =>
          refine (Meets.follow (f := fun h => h.function? f) sound fun _ => ?_).bind ?_
          · obtain ⟨k, found, -⟩ := Option.map_eq_some_iff.mp count
            exact Option.isSome_iff_exists.mpr ⟨k, found⟩
          · rintro k m' after ⟨same, found⟩
            have count' : arguments.length = k.declaration.params.length := by
              rw [same] at found
              simpa [Heap.arity?, found] using count.symm
            exact activate_meets ih after.sound (after.sound.inScope.functions f k found) count'
              fun t v member => (valid t v member).grow after.grown
      | ofClass c => exact instantiate_meets ih sound count valid
      | native n =>
          refine (Meets.follow (f := fun h => h.native? n) sound fun _ => ?_).bind ?_
          · obtain ⟨r, found, -⟩ := Option.map_eq_some_iff.mp count
            exact Option.isSome_iff_exists.mpr ⟨r, found⟩
          · rintro r m' after ⟨same, found⟩
            have count' : arguments.length = r.arity := by
              rw [same] at found
              simpa [Heap.arity?, found] using count.symm
            refine host_meets ih _ m' after.sound
              (after.sound.inScope.natives n r found m'.heap arguments count' fun t => ?_)
            exact ⟨after.sound.typed t, fun v member => (valid t v member).grow after.grown⟩

end

/-- What the statements of a program end with. -/
def YieldsLast (R : Regime) (last : Option Value) (h : Heap) : Prop :=
  ∀ v, last = some v → Yields R v h

theorem topStatement_meets (limits : Limits) (s : Stmt Address) (begins : Begins R Γ m)
    (known : ∀ σ ∈ s.sites Γ false, R.sites σ) :
    Meets R false (Recorded.topStatement limits s) m fun last h =>
      Mirrors h (h.chain m.active) (Γ.extend s) ∧ YieldsLast R last h := by
  have serves : Serves R (Recorded.invoke limits.rounds limits.depth) := invoke_serves _ _
  have executed : Meets R false (do
      Recorded.execute limits.rounds (Recorded.invoke limits.rounds limits.depth) s
      pure none) m fun last h => Mirrors h (h.chain m.active) (Γ.extend s) ∧
        YieldsLast R last h := by
    refine (execute_meets serves s Γ false m begins known).bind fun _ m' after mirrors => ?_
    exact .pure after.sound ⟨mirrors, by simp [YieldsLast]⟩
  cases s with
  | expression value =>
      obtain ⟨here, inner⟩ := List.forall_mem_cons.mp known
      refine .visit (begins.inOrder here) ?_
      refine (evaluate_meets serves value m begins (known_nodes inner)).bind ?_
      intro v m' after valid
      refine .pure after.sound ⟨begins.mirrors.later after.grown, ?_⟩
      rintro w ⟨⟩
      exact valid
  | _ => exact executed

theorem topLevel_meets (limits : Limits) (ss : List (Stmt Address)) :
    ∀ (last : Option Value) (Γ : Scopes) (m : Machine), Begins R Γ m →
      (∀ σ ∈ sitesOfAll Γ false ss, R.sites σ) → YieldsLast R last m.heap →
      Meets R false (Recorded.topLevel limits last ss) m (YieldsLast R) := by
  induction ss with
  | nil =>
      intro last Γ m begins _ yields
      exact .pure begins.sound yields
  | cons s rest ih =>
      intro last Γ m begins known yields
      obtain ⟨first, others⟩ := List.forall_mem_append.mp known
      refine (topStatement_meets limits s begins first).bind ?_
      rintro last' m' after ⟨mirrors, yields'⟩
      rw [← after.active] at mirrors
      exact ih last' (Γ.extend s) m' ⟨after.sound, mirrors⟩ others yields'

/-- A program of known code is in order on every machine at the global scope. -/
theorem program_meets (limits : Limits) {ss : List (Stmt Address)} (sound : Sound R m.heap)
    (active : m.active = Machine.globals) (known : ∀ σ ∈ sitesOfAll [] false ss, R.sites σ) :
    Meets R false (Recorded.program limits ss) m (YieldsLast R) := by
  have mirrors : Mirrors m.heap (m.heap.chain m.active) [] := by
    rw [active, sound.inScope.outermost]
    exact .globals sound.inScope.globals
  exact topLevel_meets limits ss none [] m ⟨sound, mirrors⟩ known (by simp [YieldsLast])

end LoxLang
