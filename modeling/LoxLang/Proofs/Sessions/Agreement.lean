import LoxLang.Proofs.Sessions
/-! The walk and the runs agree on scopes: whenever a run of a session comes by a node, the scopes
around the machine are those that the walk had open at that node. -/
namespace LoxLang

/-- The address of a reference that is about to be read or written. -/
def Node.address : Node → Address
  | .expr (.var _ address) | .expr (.receiver _ address) | .expr (.inherited _ _ address)
  | .store _ address | .superclass _ ⟨_, address⟩ => address
  | _ => none

/-- A local reference leads to a scope inside the global one. -/
def Visit.Reaches (v : Visit) : Prop :=
  ∀ d, v.node.address = some d → ∃ t, (v.machine.heap.chain v.machine.active)[d]? = some t ∧
    t ≠ Machine.globals ∧ v.machine.heap.Alive t

theorem Scopes.bounded_of_locate {Γ : Scopes} {x : String} {d : Nat} (found : Γ.locate x = some d) :
    d < Γ.length := by
  obtain ⟨g, _, here, -⟩ := locate_eq_some found
  exact (List.getElem?_eq_some_iff.mp here).1

/-- The address of a reference counts no more scopes than there are around it. -/
theorem Site.Lawful.bounded {σ : Site} (lawful : σ.Lawful) {d : Nat}
    (same : σ.node.address = some d) : d < σ.scopes.length := by
  obtain ⟨Γ, b, i, n⟩ := σ
  cases n with
  | expr e =>
      cases e with
      | var name address =>
          cases same
          exact Scopes.bounded_of_locate lawful.1.symm
      | receiver pos address =>
          cases same
          obtain ⟨_, ⟨⟩, finds⟩ := lawful
          exact Scopes.bounded_of_locate finds.1.symm
      | inherited pos method address =>
          cases same
          obtain ⟨_, ⟨⟩, finds, -⟩ := lawful
          exact Scopes.bounded_of_locate finds.1.symm
      | _ => cases same
  | stmt s => cases same
  | superclass className parent =>
      have found : some d = Γ.locate parent.name.text := same.symm.trans lawful.2.1
      exact Scopes.bounded_of_locate found.symm
  | store name address =>
      cases same
      exact Scopes.bounded_of_locate lawful.2.1.symm

theorem Site.Around.reaches {σ : Site} {v : Visit} (around : σ.Around v.machine)
    (lawful : σ.Lawful) (same : σ.node = v.node) : v.Reaches := fun d found =>
  around.inner d (lawful.bounded (same ▸ found))

namespace Session

/-- A source text given to a session after other inputs is run in agreement with the walk. -/
structure Agrees (limits : Limits) (now : Clock) (inputs : List Input) (flags : Flags)
    (source : String) : Prop where
  /-- The scopes around every node are those of the walk, and local references lead to them. -/
  scopes : ∀ v ∈ (feedAll limits (start now) inputs).visits limits source,
    (∃ σ, Holds (inputs ++ [.source flags source]) σ ∧ σ.node = v.node ∧ σ.Around v.machine) ∧
      v.Reaches
  /-- Only a store to a variable in its own initializer, in a scope that does not hold the
  variable yet, can miss its binding, and the run ends with it. -/
  misses : ∀ u, (run limits flags (feedAll limits (start now) inputs) source).outcome =
      .aborted (.unbound u) →
    ∃ v x, ((feedAll limits (start now) inputs).visits limits source).getLast? = some v ∧
      (∃ σ, Holds (inputs ++ [.source flags source]) σ ∧ σ.node = v.node ∧ σ.Around v.machine ∧
        σ.SelfAssigns x) ∧
      v.machine.heap.binding? v.machine.active x = none ∧ u = .notBound x 0

variable {limits : Limits} {now : Clock} {typed : Prop} {inputs : List Input} {flags : Flags}
  {source : String}

/-- What is run in a session is in order. -/
theorem meets_of_runs (hosted : Hosted typed inputs) (flags : Flags)
    (runs : (feedAll limits (start now) inputs).Runs source) :
    Meets (regime typed (inputs ++ [.source flags source])) false
      (Recorded.program limits (resolve (spelled source)).program)
      (feedAll limits (start now) inputs).machine
      (YieldsLast (regime typed (inputs ++ [.source flags source]))) :=
  (ready_after limits now hosted [.source flags source]).meets limits runs.2
    fun _ member => ⟨flags, source, by simp, runs.2, member⟩

/-- In every run of every session the walk and the run agree on scopes. -/
theorem scopes_agree (limits : Limits) (now : Clock) (hosted : Hosted typed inputs) (flags : Flags)
    (source : String) : Agrees limits now inputs flags source := by
  by_cases runs : (feedAll limits (start now) inputs).Runs source
  · have meets := meets_of_runs hosted flags runs
    refine ⟨fun v member => ?_, fun u aborted => ?_⟩
    · rw [visits, if_pos runs] at member
      obtain ⟨-, σ, known, same, around⟩ := meets.seen v member
      exact ⟨⟨σ, known, same, around⟩, around.reaches (Regime.lawful _ σ known) same⟩
    · rw [(run_of_runs runs limits flags).2, (execute_eq limits _ _).1,
        ← Recorded.forget_program] at aborted
      rw [visits, if_pos runs]
      cases ended : (Recorded.program limits (resolve (spelled source)).program
          (feedAll limits (start now) inputs).machine).result with
      | ok value m =>
          simp only [Recorded.forget, ended, concluded] at aborted
          cases aborted
      | error e m =>
          simp only [Recorded.forget, ended] at aborted
          obtain ⟨-, allowed⟩ := meets.error e m ended
          cases e with
          | unbound u' =>
              cases aborted
              obtain ⟨v, x, last, ⟨site, missing⟩, same⟩ := allowed
              exact ⟨v, x, last, site, missing, same⟩
          | _ => cases aborted
  · refine ⟨fun v member => ?_, fun u aborted => ?_⟩
    · rw [visits, if_neg runs] at member
      cases member
    · rw [(run_of_not_runs runs limits flags).1] at aborted
      cases aborted

/-- A closure that the host calls after an earlier source was run. -/
theorem scopes_agree_applying :
    let inputs := [Input.native applying, .source ⟨false, false⟩ "class A { init(x) { this.x = x; } }"]
    let source := "{ var a = 1; fun set(x) { a = A(x); } apply(set, 2); }"
    Accepted source ∧ Hosted True inputs ∧ Agrees ⟨9, 9⟩ 0 inputs ⟨false, false⟩ source := by
  intro inputs source
  have hosted : Hosted True inputs := fun n member => by
    obtain rfl : n = applying := by simpa [inputs] using member
    exact applying_proper True
  exact ⟨by decide +kernel, hosted, scopes_agree ⟨9, 9⟩ 0 hosted ⟨false, false⟩ source⟩

def isSuperclass : Node → Bool
  | .superclass _ _ => true
  | _ => false

/-- The exception for superclasses is needed: the walk has the name of a class by then, the
run does not. -/
theorem superclass_without_class : ¬∀ limits now source,
    ∀ v ∈ (start now).visits limits source, ∃ σ ∈ sitesOfSource source, σ.node = v.node ∧
      ∀ d x, σ.scopes.Holds d x → ∃ t, (v.machine.heap.chain v.machine.active)[d]? = some t ∧
        (v.machine.heap.binding? t x).isSome = true := by
  intro all
  have run : ∃ v ∈ (start 0).visits ⟨1, 1⟩ "{ class B {} class A < B {} }",
      isSuperclass v.node = true ∧ v.machine.heap.binding? v.machine.active "A" = none := by
    decide +kernel
  have walk : ∀ σ ∈ sitesOfSource "{ class B {} class A < B {} }", isSuperclass σ.node = true →
      σ.scopes.map (·.find? "A") = [some true] := by
    decide +kernel
  obtain ⟨v, member, here, missing⟩ := run
  obtain ⟨σ, known, same, names⟩ := all ⟨1, 1⟩ 0 _ v member
  have held := walk σ known (same ▸ here)
  obtain ⟨g, scopes, finished⟩ := List.map_eq_singleton_iff.mp held
  obtain ⟨t, reached, bound⟩ := names 0 "A" ⟨g, by rw [scopes]; rfl, finished⟩
  cases reached
  rw [missing] at bound
  cases bound

end Session
end LoxLang
