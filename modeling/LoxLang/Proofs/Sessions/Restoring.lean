import LoxLang.Proofs.Running.Restoring
import LoxLang.Proofs.Sessions
/-! Between the runs of a session the global scope is active, however these runs ended and
whatever the routines of the host do. -/
namespace LoxLang
namespace Session

theorem left_eq_leaves (x : Run (Option Value)) (m : Machine) : left (x m) = x.leaves m := by
  unfold left Run.leaves
  cases x m <;> rfl

theorem execute_active (limits : Limits) (s : Session) (program : List (Stmt Address)) :
    (execute limits s program).session.machine.active = s.machine.active := by
  rw [(execute_eq limits s program).2, left_eq_leaves]
  exact Run.program_restores limits program s.machine

theorem run_active (limits : Limits) (flags : Flags) (s : Session) (source : String) :
    (run limits flags s source).session.machine.active = s.machine.active := by
  by_cases runs : s.Runs source
  · rw [(run_of_runs runs limits flags).1]
    exact execute_active limits s _
  · obtain ⟨-, ds, same⟩ := run_of_not_runs runs limits flags
    rw [same]

theorem feed_active (limits : Limits) (s : Session) (input : Input) :
    (feed limits s input).machine.active = s.machine.active := by
  cases input with
  | source flags text => exact run_active limits flags s text
  | native n => rfl
  | reset => rfl

theorem feedAll_active (limits : Limits) (s : Session) (inputs : List Input) :
    (feedAll limits s inputs).machine.active = s.machine.active := by
  induction inputs generalizing s with
  | nil => rfl
  | cons input rest ih => exact (ih _).trans (feed_active limits s input)

/-- The active scope is restored on every exit: by each part of a run, and so by each run. -/
theorem scope_restored (limits : Limits) :
    (∀ rounds depth, Run.Restoring rounds (Run.invoke rounds depth)) ∧
      (∀ program, Run.Restores (Run.program limits program)) ∧
      ∀ now inputs, (feedAll limits (start now) inputs).atGlobals = true :=
  ⟨fun rounds depth => Run.restoring rounds (Run.invoke_restores rounds depth),
    Run.program_restores limits, fun _ inputs => decide_eq_true (feedAll_active limits _ inputs)⟩

end Session
end LoxLang
