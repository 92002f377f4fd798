import LoxLang.Proofs.Journal.Properties
import LoxLang.Proofs.Sessions.Diaries
/-! Properties of instances over sessions. Whatever a session is given, every access to a property
has come to the value that was stored last, else to a method, else to a failure. -/
namespace LoxLang
namespace Session
namespace Diary
variable (limits : Limits) {d : Diary}

/-- The diary accounts for the heap of the session. -/
structure Accounted (d : Diary) : Prop where
  accounts : Accounts d.journal.deeds d.session.machine.heap
  accesses : ∀ access ∈ d.journal.accesses, access.Right

theorem start_accounted (now : Clock) : (start now).Accounted :=
  ⟨⟨fun _ member => (nomatch member), fun _ _ found => (nomatch found)⟩,
    fun _ member => (nomatch member)⟩

namespace Accounted

theorem run (accounted : d.Accounted) (flags : Flags) (text : String) :
    (d.run limits flags text).Accounted := by
  unfold Diary.run
  by_cases runs : d.session.Runs text
  · have accounting := Journaled.program_accounting limits (resolve (spelled text)).program
      ⟨d.session.machine, d.journal, []⟩ ⟨accounted.accounts, accounted.accesses⟩
    rw [if_pos runs]
    unfold Journaled.leaves at accounting
    unfold journaled
    cases ran : Journaled.program limits (resolve (spelled text)).program
        ⟨d.session.machine, d.journal, []⟩ <;>
      · rw [ran] at accounting
        exact ⟨accounting.accounts, accounting.accesses⟩
  · obtain ⟨-, ds, same⟩ := run_of_not_runs runs limits flags
    rw [if_neg runs, same]
    exact ⟨accounted.accounts, accounted.accesses⟩

theorem feed (accounted : d.Accounted) (input : Input) : (d.feed limits input).Accounted := by
  cases input with
  | source flags text => exact accounted.run limits flags text
  | native n => exact ⟨accounted.accounts.spared rfl, accounted.accesses⟩
  | reset => exact ⟨accounted.accounts, accounted.accesses⟩

theorem feedAll (accounted : d.Accounted) (inputs : List Input) :
    (d.feedAll limits inputs).Accounted := by
  induction inputs generalizing d with
  | nil => exact accounted
  | cons input rest ih => exact ih (accounted.feed limits input)

end Accounted
end Diary

/-! Stores that fail. -/

variable {call : Caller} {object value : Expr Address} {name : Name} {m m' m'' : Machine}

/-- Only instances have fields. Of a store to anything else the value is not evaluated. -/
theorem store_refused {v : Value} (evaluated : Run.evaluate call object m = .ok v m')
    (other : ∀ i, v ≠ .object i) : Run.evaluate call (.assignMember object name value) m =
      .error (.fault ⟨.noFields, some name.token⟩) m' := by
  simp only [Run.evaluate, Bind.bind, EStateM.bind, evaluated]
  cases v with
  | object i => exact absurd rfl (other i)
  | _ => rfl

/-- A store whose value fails stores nothing. -/
theorem store_broken {i : InstanceId} {e : Exit}
    (evaluated : Run.evaluate call object m = .ok (.object i) m')
    (fails : Run.evaluate call value m' = .error e m'') :
    Run.evaluate call (.assignMember object name value) m = .error e m'' := by
  simp only [Run.evaluate, Bind.bind, EStateM.bind, evaluated, fails]

/-- Properties are read as they were written. Over all runs of a session an access to a property of
an instance yields the value stored last under that name on that very instance, else a new function
that binds the instance to the method of its class, else it fails. A store refuses what is no
instance before the value is evaluated, and nothing is stored if the value fails. -/
theorem properties_kept (limits : Limits) (now : Clock) (inputs : List Input) :
    let diary := (Diary.start now).feedAll limits inputs
    diary.session = feedAll limits (start now) inputs ∧
      (∀ access ∈ diary.journal.accesses, access.Right) ∧
      ∀ call object name value m m',
        (∀ v, Run.evaluate call object m = .ok v m' → (∀ i, v ≠ .object i) →
          Run.evaluate call (.assignMember object name value) m =
            .error (.fault ⟨.noFields, some name.token⟩) m') ∧
        ∀ i e m'', Run.evaluate call object m = .ok (.object i) m' →
          Run.evaluate call value m' = .error e m'' →
            Run.evaluate call (.assignMember object name value) m = .error e m'' :=
  ⟨(Diary.start now).feedAll_session limits inputs,
    ((Diary.start_accounted now).feedAll limits inputs).accesses,
    fun _ _ _ _ _ _ => ⟨fun _ evaluated other => store_refused evaluated other,
      fun _ _ _ evaluated fails => store_broken evaluated fails⟩⟩

/-- A field shadows the method of its name on the instance on which it is stored, and only there. -/
example : (((Diary.start 0).feedAll ⟨4, 4⟩ [.source ⟨false, false⟩
    "class A { m() {} } var a = A(); a.m = 1; A().m; a.m;"]).journal.accesses.map fun access =>
      access.result matches .ok (.number _) _) = [true, false] := by decide +kernel

end Session
end LoxLang
