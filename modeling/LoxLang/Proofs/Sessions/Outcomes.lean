import LoxLang.Proofs.Sessions.Agreement
/-! The ways in which a run of a session ends. Nothing else can come of it, since on every heap
that it comes by all references lead somewhere and reserved names are bound to what they
stand for. -/
namespace LoxLang
namespace Session

/-- Every reference leads somewhere; `this` is bound to objects and `super` to classes, but for
routines of the host with these names among the globals. -/
structure WellFormed (inputs : List Input) (h : Heap) : Prop where
  typed : h.Typed
  reserved : ∀ s x b, (s = Machine.globals → Tidy inputs) → h.binding? s x = some b → Fits x b

/-- What a run may come to, and what it may have told the reporter by then: the failure that
ended it, what is wrong with a source that is not run, and nothing else. -/
def Documented (known : Site → Prop) (visits : List Visit) (before after : Session) :
    Outcome → Prop
  | .rejected => ∃ ds, after.reporter = before.reporter.reportAll ds
  | .completed value => after.reporter = before.reporter ∧
      ∀ v, value = some v → after.machine.heap.Valid v
  | .failed f => after.reporter = before.reporter.fault f
  | .aborted .overflow | .aborted .endless => after.reporter = before.reporter
  | .aborted (.unbound u) => after.reporter = before.reporter ∧
      ∃ v x σ, visits.getLast? = some v ∧ known σ ∧ σ.node = v.node ∧ σ.SelfAssigns x ∧
        u = .notBound x 0
  | .aborted .strayReturn | .aborted .illFormed | .aborted .overdrawn => False

/-- A source text given to a session after other inputs has a documented outcome, and comes by
well-formed heaps only. -/
structure Safe (limits : Limits) (now : Clock) (inputs : List Input) (flags : Flags)
    (source : String) : Prop where
  seen : ∀ v ∈ (feedAll limits (start now) inputs).visits limits source,
    WellFormed inputs v.machine.heap
  left : WellFormed inputs (feedAll limits (start now) (inputs ++ [.source flags source])).machine.heap
  outcome :
    let before := feedAll limits (start now) inputs
    let result := run limits flags before source
    Documented (Holds (inputs ++ [.source flags source])) (before.visits limits source) before
      result.session result.outcome

variable {limits : Limits} {now : Clock} {inputs : List Input} {flags : Flags} {source : String}

/-- A further source text adds no routine of the host. -/
theorem tidy_source (tidy : Tidy inputs) : Tidy (inputs ++ [.source flags source]) := by
  intro n member
  simp only [List.mem_append, List.mem_singleton, reduceCtorEq, or_false] at member
  exact tidy n member

theorem wellFormed_of_sound {h : Heap}
    (sound : Sound (regime True (inputs ++ [.source flags source])) h) : WellFormed inputs h :=
  ⟨sound.typed trivial, fun s x b tidy bound =>
    sound.inScope.reserved s x b (fun global => tidy_source (tidy global)) bound⟩

/-- The outcome of a run in order is a documented one. -/
theorem documented_of_meets {known : Site → Prop} {s : Session} {R : Regime}
    (runs : s.Runs source) (typed : R.typed) (sites : ∀ σ, R.sites σ → known σ)
    (meets : Meets R false (Recorded.program limits (resolve (spelled source)).program) s.machine
      (YieldsLast R)) :
    Documented known (s.visits limits source) s (run limits flags s source).session
      (run limits flags s source).outcome := by
  rw [(run_of_runs runs limits flags).1, (run_of_runs runs limits flags).2,
    (execute_eq limits s _).1, (execute_eq limits s _).2, ← Recorded.forget_program, visits,
    if_pos runs]
  cases ended : (Recorded.program limits (resolve (spelled source)).program s.machine).result with
  | ok value m =>
      obtain ⟨-, yields⟩ := meets.ok value m ended
      simp only [Recorded.forget, ended]
      exact ⟨rfl, fun v same => yields v same typed⟩
  | error e m =>
      obtain ⟨-, allowed⟩ := meets.error e m ended
      simp only [Recorded.forget, ended]
      cases e with
      | returned v => exact absurd allowed.1 (by simp)
      | fault f => exact rfl
      | unbound u =>
          obtain ⟨v, x, last, ⟨⟨σ, here, node, -, itself⟩, -⟩, same⟩ := allowed
          exact ⟨rfl, v, x, σ, last, sites σ here, node, itself, same⟩
      | overflow => exact rfl
      | endless => exact rfl
      | illFormed => exact allowed typed

/-- Every run of every session ends in a documented way. -/
theorem run_safe (limits : Limits) (now : Clock) (hosted : Hosted True inputs) (flags : Flags)
    (source : String) : Safe limits now inputs flags source := by
  refine ⟨fun v member => ?_, ?_, ?_⟩
  · by_cases runs : (feedAll limits (start now) inputs).Runs source
    · rw [visits, if_pos runs] at member
      have meets := meets_of_runs hosted flags runs
      exact wellFormed_of_sound (meets.seen v member).sound
    · rw [visits, if_neg runs] at member
      cases member
  · have proper : Hosted True (inputs ++ [.source flags source]) := fun n member => by
      simp only [List.mem_append, List.mem_singleton, reduceCtorEq, or_false] at member
      exact hosted n member
    have ready := ready_after limits now proper []
    rw [List.append_nil] at ready
    exact wellFormed_of_sound ready.sound
  · by_cases runs : (feedAll limits (start now) inputs).Runs source
    · exact documented_of_meets runs trivial (fun _ => id) (meets_of_runs hosted flags runs)
    · obtain ⟨rejected, ds, same⟩ := run_of_not_runs runs limits flags
      simp only [rejected, same]
      exact ⟨ds, rfl⟩

/-- The exception for routines of the host is needed: one of them may be named `this`. -/
theorem this_of_host : ¬∀ inputs, Hosted True inputs → ∀ s b,
    (feedAll ⟨1, 1⟩ (start 0) inputs).machine.heap.binding? s "this" = some b →
      ∃ i, b = some (.object i) := by
  intro all
  let named : Native := ⟨"this", 0, fun _ => .done .nil⟩
  have hosted : Hosted True [.native named] := fun n member => by
    obtain rfl : n = named := by simpa using member
    exact fun _ _ _ _ _ => trivial
  obtain ⟨i, same⟩ := all [.native named] hosted Machine.globals (some (.callable (.native ⟨1⟩))) rfl
  cases same

/-- A session with a failed run before, and a closure kept from it. -/
theorem run_safe_applying :
    let inputs := [Input.native applying,
      .source ⟨false, false⟩ "fun half(x) { return x / 2; } print nil + 1;"]
    let source := "print apply(half, true);"
    Hosted True inputs ∧ Safe ⟨9, 9⟩ 0 inputs ⟨false, false⟩ source := by
  intro inputs source
  have hosted : Hosted True inputs := fun n member => by
    obtain rfl : n = applying := by simpa [inputs] using member
    exact applying_proper True
  exact ⟨hosted, run_safe ⟨9, 9⟩ 0 hosted ⟨false, false⟩ source⟩

end Session
end LoxLang
