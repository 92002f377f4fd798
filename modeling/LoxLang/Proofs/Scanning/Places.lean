import LoxLang.Proofs.Naming
import LoxLang.Proofs.Scanning.Division
/-! The places of spans and tokens. Every span starts behind the ones before it, so no two tokens
stand at one place. -/
namespace LoxLang

/-- A place comes before another one in the text. -/
def Pos.Before (p q : Pos) : Prop := p.line < q.line ∨ p.line = q.line ∧ p.column < q.column

namespace Pos.Before
variable {p q r : Pos}

theorem trans (first : p.Before q) (second : q.Before r) : p.Before r := by
  unfold Before at first second ⊢
  omega

theorem ne (before : p.Before q) : p ≠ q := by
  rintro rfl
  unfold Before at before
  omega

theorem next (p : Pos) (c : Char) : p.Before (p.next c) := by
  by_cases newline : c = '\n'
  · simp [Before, Pos.next, newline]
  · simp [Before, Pos.next, newline]

theorem after {cs : List Char} (some : cs ≠ []) : p.Before (p.after cs) := by
  induction cs generalizing p with
  | nil => exact absurd rfl some
  | cons c cs ih =>
      cases cs with
      | nil => exact next p c
      | cons d ds => exact (next p c).trans (ih (by simp))

end Pos.Before

namespace Scan

/-- No span starts before the first one. -/
theorem places_from {p : Pos} {ss : List Span} : ∀ placed ∈ places p ss, (∀ s ∈ ss, s.text ≠ []) →
    placed.1 = p ∨ p.Before placed.1 := by
  induction ss generalizing p with
  | nil => simp [places]
  | cons s ss ih =>
      intro placed member some
      obtain ⟨here, later⟩ := List.forall_mem_cons.mp some
      rcases List.mem_cons.mp member with rfl | behind
      · exact .inl rfl
      · rcases ih placed behind later with same | before
        · exact .inr (same ▸ .after here)
        · exact .inr (.trans (.after here) before)

theorem places_increase {p : Pos} {ss : List Span} (some : ∀ s ∈ ss, s.text ≠ []) :
    (places p ss).Pairwise fun a b => a.1.Before b.1 := by
  induction ss generalizing p with
  | nil => exact .nil
  | cons s ss ih =>
      obtain ⟨here, later⟩ := List.forall_mem_cons.mp some
      refine List.pairwise_cons.mpr ⟨fun placed behind => ?_, ih later⟩
      rcases places_from placed behind later with same | before
      · exact same ▸ .after here
      · exact .trans (.after here) before

theorem pos_token {placed : Pos × Span} {t : Token} (token : placed.2.token? placed.1 = some t) :
    t.pos = placed.1 := by
  unfold Span.token? at token
  split at token <;> cases token
  rfl

end Scan

/-- Tokens start one behind the other. -/
theorem tokens_increase (source : String) :
    (scan source).tokens.Pairwise fun t u => t.pos.Before u.pos := by
  have division := Scan.spans_division source.toList
  rw [scan_eq_place, Scan.place_tokens]
  refine (Scan.places_increase division.nonempty).filterMap _ fun a b before t token u token' => ?_
  rw [Scan.pos_token token, Scan.pos_token token']
  exact before

theorem pos_name {t : Token} {n : Name} (named : t.name? = some n) : n.pos = t.pos := by
  unfold Token.name? at named
  split at named <;> cases named
  rfl

theorem identifiers_distinct (source : String) :
    ((identifiers (scan source).tokens).map Name.pos).Nodup := by
  rw [List.Nodup, List.pairwise_map]
  refine (tokens_increase source).filterMap _ fun t u before n named m named' => ?_
  rw [pos_name named, pos_name named']
  exact before.ne

end LoxLang
