import LoxLang.Proofs.Heap.Growth
/-! Scopes branch off each other. Around each scope stand scopes of the heap, each with its own
scopes around it, so two chains that have parted never meet again. -/
namespace LoxLang
namespace Heap
variable {h h' : Heap}

/-- Every scope around a scope is on the heap, and the scopes around it are the last of those
around the other one. -/
def Branching (h : Heap) : Prop :=
  ∀ s, h.Alive s → ∀ t ∈ h.chain s, h.Alive t ∧ h.chain t <:+ h.chain s

theorem mem_chain_self (h : Heap) (s : ScopeId) : s ∈ h.chain s := List.mem_cons_self

/-- A new scope branches off the scope it is made in. -/
theorem Branching.newScope (branching : h.Branching) {around : ScopeId} (alive : h.Alive around) :
    (h.newScope (some around)).2.Branching := by
  have grown := h.extends_newScope (some around)
  intro s living t member
  rcases alive_newScope_iff.mp living with rfl | old
  · rw [chain_newScope_self] at member ⊢
    rcases List.mem_cons.mp member with rfl | outer
    · exact ⟨living, by simp only [chain_newScope_self, List.suffix_refl]⟩
    · obtain ⟨alive', suffix⟩ := branching around alive t outer
      rw [grown.chain alive']
      exact ⟨grown.alive alive', suffix.trans (List.suffix_cons _ _)⟩
  · rw [grown.chain old] at member ⊢
    obtain ⟨alive', suffix⟩ := branching s old t member
    rw [grown.chain alive']
    exact ⟨grown.alive alive', suffix⟩

/-- Without new scopes there are no new branches. -/
theorem Branching.grow (branching : h.Branching) (grown : h.Extends h')
    (calm : ∀ s, h'.Alive s → h.Alive s) : h'.Branching := by
  intro s living t member
  have old := calm s living
  rw [grown.chain old] at member ⊢
  obtain ⟨alive, suffix⟩ := branching s old t member
  rw [grown.chain alive]
  exact ⟨grown.alive alive, suffix⟩

/-- Two chains that pass through different scopes of one depth have in common what is around both
of these scopes. -/
theorem Branching.fork (branching : h.Branching) {s s' t t' : ScopeId} (alive : h.Alive t)
    (alive' : h.Alive t') (inside : s ∈ h.chain t) (inside' : s' ∈ h.chain t') (apart : s ≠ s')
    (level : (h.chain s).length = (h.chain s').length) (u : ScopeId) :
    (u ∈ h.chain t ∧ u ∈ h.chain t') ↔ (u ∈ (h.chain s).tail ∧ u ∈ (h.chain s').tail) := by
  obtain ⟨-, here⟩ := branching t alive s inside
  obtain ⟨-, here'⟩ := branching t' alive' s' inside'
  constructor
  · rintro ⟨common, common'⟩
    obtain ⟨-, below⟩ := branching t alive u common
    obtain ⟨-, below'⟩ := branching t' alive' u common'
    -- Otherwise both scopes are around the common one, equally far from the outermost.
    have outside : (h.chain u).length < (h.chain s).length := Nat.lt_of_not_le fun inner => by
      have around := List.suffix_of_suffix_length_le here below inner
      have around' := List.suffix_of_suffix_length_le here' below' (level ▸ inner)
      have nested := List.suffix_of_suffix_length_le around around' (Nat.le_of_eq level)
      exact apart (List.cons.inj (nested.eq_of_length level)).1
    have behind {v w : ScopeId} (suffix : h.chain v <:+ h.chain w)
        (less : (h.chain v).length < (h.chain w).length) : v ∈ (h.chain w).tail := by
      rcases List.suffix_cons_iff.mp suffix with same | rest
      · rw [same] at less
        exact absurd less (Nat.lt_irrefl _)
      · exact rest.mem (h.mem_chain_self v)
    exact ⟨behind (List.suffix_of_suffix_length_le below here (Nat.le_of_lt outside)) outside,
      behind (List.suffix_of_suffix_length_le below' here' (level ▸ Nat.le_of_lt outside))
        (level ▸ outside)⟩
  · rintro ⟨outer, outer'⟩
    exact ⟨here.mem (List.mem_of_mem_tail outer), here'.mem (List.mem_of_mem_tail outer')⟩

end Heap
end LoxLang
