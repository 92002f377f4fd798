import LoxLang.Proofs.Numbers.Equality
import LoxLang.Proofs.Sessions.Chronicles
/-! Equality throughout a session. Which values are the same depends on no machine, and on every
machine that a session comes to a comparison tells just that, and tells objects apart. -/
namespace LoxLang

namespace Value

/-- The laws of equality. Numbers are the same if they are displayed alike, so that all that are no
numbers are one value and a zero is not its negative. References are the same if they are one. -/
structure Discerns (same : Value → Value → Bool) : Prop where
  equivalence : Equivalence fun a b => same a b = true
  types : ∀ a b, same a b = true → a.typeName = b.typeName
  displayed : ∀ x y, same (number x) (number y) = true ↔ displayNumber x = displayNumber y
  compared : ∀ x y, same (number x) (number y) = true ↔
    x.isNaN = true ∧ y.isNaN = true ∨ (x == y) = true ∧ signBit x = signBit y
  zeros : ((0 : Float) == -0) = true ∧ same (number 0) (number (-0)) = false
  callables : ∀ c d, same (callable c) (callable d) = true ↔ c = d
  objects : ∀ i j, same (object i) (object j) = true ↔ i = j

theorem same_equivalence : Equivalence fun a b : Value => a.same b = true := by
  refine ⟨fun a => ?_, fun {a b} => ?_, fun {a b c} => ?_⟩
  · cases a <;> simp [same]
  · cases a <;> cases b <;> simp +contextual [same]
  · cases a <;> cases b <;> cases c <;> simp +contextual [same]

theorem same_discerns : Discerns same := by
  refine ⟨same_equivalence, fun a b => ?_, fun x y => ?_, fun x y => ?_, ?_, fun c d => ?_,
    fun i j => ?_⟩
  · cases a <;> cases b <;> simp [same, typeName]
  · rw [same, decide_eq_true_eq, Parts.display_eq_iff]
  · rw [same, decide_eq_true_eq, Parts.ofFloat_eq_iff]
  · decide +kernel
  · rw [same, decide_eq_true_eq]
  · rw [same, decide_eq_true_eq]

end Value

namespace Heap
variable {h : Heap} {i j : InstanceId}

/-- Two references lead to one object: whatever is stored through the one is read through the
other. -/
def Alias (h : Heap) (i j : InstanceId) : Prop :=
  ∀ x v, ((h.setField i x v).instance? j).bind (fun o => o.fields.find? x) = some v

theorem alias_iff (present : (h.instance? i).isSome = true) : h.Alias i j ↔ i = j := by
  constructor
  · intro shared
    by_contra apart
    -- What is read at another place is one thing, whatever is stored.
    have spared (v : Value) : (h.setField i "" v).instance? j = h.instance? j := by
      rw [instance?_setField, if_neg fun same => apart ?_]
      cases i
      cases j
      exact congrArg InstanceId.mk same
    have first := shared "" .nil
    have second := shared "" (.bool true)
    rw [spared] at first second
    cases first.symm.trans second
  · rintro rfl x v
    obtain ⟨o, found⟩ := Option.isSome_iff_exists.mp present
    rw [instance?_setField, if_pos rfl, found, Option.map_some, Option.bind_some, Table.find?_put,
      if_pos rfl]

/-- A value that leads somewhere is not the same as one that leads nowhere. -/
theorem Valid.not_same {a b : Value} (valid : h.Valid a) (other : ¬h.Valid b) :
    a.same b = false := by
  rw [← Bool.not_eq_true]
  intro same
  refine other ?_
  cases a <;> cases b <;> simp_all [Value.same, Valid]

end Heap

/-- Comparisons on a machine tell of two operands whether their values are the same, and objects are
the same if they are one. -/
structure Machine.Compares (same : Value → Value → Bool) (m : Machine) : Prop where
  equal : ∀ call left pos right a b m₁ m₂, Run.evaluate call left m = .ok a m₁ →
    Run.evaluate call right m₁ = .ok b m₂ →
    Run.evaluate call (.binary left .equal pos right) m = .ok (.bool (same a b)) m₂
  notEqual : ∀ call left pos right a b m₁ m₂, Run.evaluate call left m = .ok a m₁ →
    Run.evaluate call right m₁ = .ok b m₂ →
    Run.evaluate call (.binary left .notEqual pos right) m = .ok (.bool !(same a b)) m₂
  objects : ∀ i j, m.heap.Valid (.object i) →
    (same (.object i) (.object j) = true ↔ m.heap.Alias i j)

theorem Machine.compares (m : Machine) : m.Compares Value.same := by
  refine ⟨?_, ?_, fun i j present => ?_⟩
  · intro call left pos right a b m₁ m₂ first second
    simp only [Run.evaluate, Bind.bind, EStateM.bind, first, second]
    rfl
  · intro call left pos right a b m₁ m₂ first second
    simp only [Run.evaluate, Bind.bind, EStateM.bind, first, second]
    rfl
  · rw [Heap.alias_iff present]
    exact Value.same_discerns.objects i j

namespace Session
variable (limits : Limits)

/-- One equality serves at all states of a session. What leads somewhere goes on to lead to the same
thing, and is never the same as what was made later. -/
theorem equality_lawful (now : Clock) (inputs : List Input) :
    let chronicle := (Chronicle.start now).feedAll limits inputs
    chronicle.session = feedAll limits (start now) inputs ∧ Value.Discerns Value.same ∧
      (∀ m ∈ chronicle.states, m.machine.Compares Value.same) ∧
      chronicle.states.Pairwise fun later earlier =>
        earlier.machine.heap.Extends later.machine.heap ∧
          ∀ a, earlier.machine.heap.Valid a → later.machine.heap.Valid a ∧
            ∀ b, ¬earlier.machine.heap.Valid b → a.same b = false := by
  intro chronicle
  have sound : Scene.Sound (regime False inputs) _ :=
    (Chronicle.sound limits now fun none => none.elim).noted
  refine ⟨Chronicle.feedAll_session limits _ inputs, Value.same_discerns,
    fun m _ => m.machine.compares, sound.ordered.imp fun {later earlier} before => ?_⟩
  have grown := before.keeps.grown
  exact ⟨grown, fun a valid => ⟨valid.grow grown, fun b other => valid.not_same other⟩⟩

end Session
end LoxLang
