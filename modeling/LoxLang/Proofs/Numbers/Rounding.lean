import LoxLang.Proofs.Numbers.Fields
/-! Rounding a number to a held magnitude. A truncated mantissa with its accuracy tells enough of
the exact number to round it; rounding any number between the two midpoints of a magnitude gives
that magnitude, at the border of two binades and among the subnormal numbers too. -/
namespace LoxLang

open Float.Model (Format UnpackedFloat totalExponent)
open Float.Model.UnpackedFloat

/-- What an accuracy says of the exact number behind a truncated mantissa. -/
def Truncates (m : Nat) (q : ℚ) : Accuracy → Prop
  | .exact => q = m
  | .inexact .lt => (m : ℚ) < q ∧ q < m + 1 / 2
  | .inexact .eq => q = m + 1 / 2
  | .inexact .gt => (m : ℚ) + 1 / 2 < q ∧ q < m + 1

namespace Truncates

variable {m : Nat} {q : ℚ} {accuracy : Accuracy}

theorem bounds (truncates : Truncates m q accuracy) : (m : ℚ) ≤ q ∧ q < m + 1 := by
  rcases accuracy with _ | _ | _ | _ <;> simp only [Truncates] at truncates
  · constructor <;> linarith
  · constructor <;> linarith [truncates.1, truncates.2]
  · constructor <;> linarith
  · constructor <;> linarith [truncates.1, truncates.2]

/-- Rounding gives the natural number nearest to the exact number, of two equally near ones
the even. -/
theorem round (truncates : Truncates m q accuracy) {s : Nat} (low : (s : ℚ) - 1 / 2 ≤ q)
    (high : q ≤ s + 1 / 2) (tie : q = s - 1 / 2 ∨ q = s + 1 / 2 → s % 2 = 0) :
    accuracy.roundToNearestEven m = s := by
  obtain ⟨least, most⟩ := truncates.bounds
  have near : s = m ∨ s = m + 1 := by
    have above : (m : ℚ) < s + 1 := by linarith
    have below : (s : ℚ) < m + 2 := by linarith
    have : m < s + 1 := by exact_mod_cast above
    have : s < m + 2 := by exact_mod_cast below
    omega
  rcases accuracy with _ | _ | _ | _ <;>
    simp only [Truncates] at truncates <;> simp only [Accuracy.roundToNearestEven]
  · rcases near with rfl | rfl
    · rfl
    · push_cast at low
      linarith
  · rcases near with rfl | rfl
    · rfl
    · push_cast at low
      linarith [truncates.2]
  · rcases near with rfl | rfl
    · have := tie (.inr truncates)
      omega
    · have := tie (.inl (by push_cast; linarith))
      omega
  · rcases near with rfl | rfl
    · linarith [truncates.1]
    · rfl

end Truncates

namespace Mantissa

variable {em : ExtendedMantissa} {q : ℚ}

theorem accuracy_of (m : Nat) (accuracy : Accuracy) :
    (ExtendedMantissa.ofMantissaAndAccuracy m accuracy).mantissa = m ∧
      (ExtendedMantissa.ofMantissaAndAccuracy m accuracy).accuracy = accuracy := by
  rcases accuracy with _ | _ | _ | _ <;> exact ⟨rfl, rfl⟩

/-- One binary place less keeps what is known of the exact number. -/
theorem truncates_shift (truncates : Truncates em.mantissa q em.accuracy) :
    Truncates em.shiftRightOne.mantissa (q / 2) em.shiftRightOne.accuracy := by
  obtain ⟨m, roundBit, stickyBit⟩ := em
  obtain ⟨half, even | odd⟩ : ∃ half, m = 2 * half ∨ m = 2 * half + 1 := ⟨m / 2, by omega⟩
  · have rest : m % 2 = 0 := by omega
    have down : m / 2 = half := by omega
    have cast : (m : ℚ) = 2 * half := by exact_mod_cast even
    cases roundBit <;> cases stickyBit <;>
      simp [ExtendedMantissa.shiftRightOne, ExtendedMantissa.accuracy, Truncates, rest, down, cast]
        at truncates ⊢ <;> grind
  · have rest : m % 2 = 1 := by omega
    have down : m / 2 = half := by omega
    have cast : (m : ℚ) = 2 * half + 1 := by exact_mod_cast odd
    cases roundBit <;> cases stickyBit <;>
      simp [ExtendedMantissa.shiftRightOne, ExtendedMantissa.accuracy, Truncates, rest, down, cast]
        at truncates ⊢ <;> grind

theorem truncates_shifts (truncates : Truncates em.mantissa q em.accuracy) (n : Nat) :
    Truncates (em >>> n).mantissa (q / 2 ^ n) (em >>> n).accuracy := by
  induction n with
  | zero =>
    show Truncates em.mantissa (q / 2 ^ 0) em.accuracy
    simpa using truncates
  | succ n ih =>
    have next := truncates_shift ih
    rw [div_div, ← pow_succ] at next
    exact next

end Mantissa

/-! ### The exponent to round at -/

/-- The exponent at which a number of about this size is rounded. -/
def target (m : Nat) (e : ℤ) : ℤ := max (m.log2 + e - 52) (-1074)

theorem targetExponent_eq (m : Nat) (e : ℤ) :
    Format.binary64.targetExponent (totalExponent m e) = target m e := by
  simp only [Format.targetExponent, totalExponent, Format.mantissaBits, Format.minExponent, target]
  norm_num
  omega

theorem shift_eq (m : Nat) (e : ℤ) (accuracy : Accuracy) :
    shiftToTargetExponent Format.binary64 m e accuracy =
      (ExtendedMantissa.ofMantissaAndAccuracy m accuracy >>> (target m e - e).toNat,
        e + (target m e - e).toNat) := by
  simp only [shiftToTargetExponent, targetExponent_eq, shiftToExponent]

/-- A mantissa has the digits for rounding if it is full or reaches down to the last place. -/
def Enough (m : Nat) (e : ℤ) : Prop := 2 ^ 52 ≤ m ∨ e ≤ -1074

section Shifting

variable {m : Nat} {e : ℤ} {q : ℚ} {accuracy : Accuracy}

theorem Enough.le_target (enough : Enough m e) : e ≤ target m e := by
  unfold target
  rcases enough with full | last
  · have : 52 ≤ m.log2 := (Nat.le_log2 (by omega)).mpr full
    omega
  · omega

theorem shift_truncates (enough : Enough m e) (truncates : Truncates m (q / 2 ^ e) accuracy) :
    ∃ em, shiftToTargetExponent Format.binary64 m e accuracy = (em, target m e) ∧
      Truncates em.mantissa (q / 2 ^ target m e) em.accuracy := by
  have reach := enough.le_target
  have sum : e + ((target m e - e).toNat : ℤ) = target m e := by omega
  refine ⟨_, by rw [shift_eq, sum], ?_⟩
  have start : Truncates (ExtendedMantissa.ofMantissaAndAccuracy m accuracy).mantissa (q / 2 ^ e)
      (ExtendedMantissa.ofMantissaAndAccuracy m accuracy).accuracy := by
    rw [(Mantissa.accuracy_of m accuracy).1, (Mantissa.accuracy_of m accuracy).2]
    exact truncates
  have shifted := Mantissa.truncates_shifts start (target m e - e).toNat
  rwa [div_div, ← zpow_natCast, ← zpow_add₀ (by norm_num), sum] at shifted

/-- The number lies in the binade that is rounded at this exponent. -/
theorem target_binade (enough : Enough m e) (truncates : Truncates m (q / 2 ^ e) accuracy) :
    (2 ^ 52 ≤ q / 2 ^ target m e ∨ target m e = -1074) ∧ q / 2 ^ target m e < 2 ^ 53 := by
  obtain ⟨least, most⟩ := truncates.bounds
  have power (i : ℤ) : (0 : ℚ) < 2 ^ i := by positivity
  rw [le_div_iff₀ (power e)] at least
  rw [div_lt_iff₀ (power e)] at most
  rw [le_div_iff₀ (power _), div_lt_iff₀ (power _)]
  constructor
  · by_cases bottom : target m e = -1074
    · exact .inr bottom
    left
    have place : target m e = m.log2 + e - 52 := by
      unfold target at bottom ⊢
      omega
    have some : m ≠ 0 := by
      rintro rfl
      rcases enough with full | last
      · omega
      · unfold target at bottom
        simp at bottom
        omega
    have size : ((2 ^ m.log2 : Nat) : ℚ) ≤ m := by exact_mod_cast Nat.log2_self_le some
    calc (2 : ℚ) ^ 52 * 2 ^ target m e = ((2 ^ m.log2 : Nat) : ℚ) * 2 ^ e := by
          rw [place, zpow_sub₀ (by norm_num), zpow_add₀ (by norm_num), zpow_natCast]
          push_cast
          field_simp
          norm_num
      _ ≤ m * 2 ^ e := mul_le_mul_of_nonneg_right size (power e).le
      _ ≤ q := least
  · have place : m.log2 + e - 52 ≤ target m e := le_max_left _ _
    have size : (m : ℚ) + 1 ≤ ((2 ^ (m.log2 + 1) : Nat) : ℚ) := by
      exact_mod_cast Nat.lt_log2_self
    calc q < (m + 1) * 2 ^ e := most
      _ ≤ ((2 ^ (m.log2 + 1) : Nat) : ℚ) * 2 ^ e := mul_le_mul_of_nonneg_right size (power e).le
      _ = 2 ^ 53 * 2 ^ (m.log2 + e - 52 : ℤ) := by
          rw [zpow_sub₀ (by norm_num), zpow_add₀ (by norm_num), zpow_natCast]
          push_cast
          field_simp
          ring
      _ ≤ 2 ^ 53 * 2 ^ target m e :=
          mul_le_mul_of_nonneg_left (zpow_le_zpow_right₀ (by norm_num) place) (by norm_num)

end Shifting

/-- A rounded mantissa that fits stays at its exponent. -/
theorem shift_short {m : Nat} {e : ℤ} (short : m < 2 ^ 53) (least : -1074 ≤ e) :
    shiftToTargetExponent Format.binary64 m e .exact = (⟨m, false, false⟩, e) := by
  have size : m.log2 ≤ 52 := by
    by_cases zero : m = 0
    · simp [zero]
    · have := (Nat.log2_lt zero).mpr short
      omega
  have still : (target m e - e).toNat = 0 := by
    unfold target
    omega
  rw [shift_eq, still]
  simp only [Int.natCast_zero, add_zero]
  rfl

/-- A rounded mantissa that outgrew its place moves up by one binary place. -/
theorem shift_full {e : ℤ} (least : -1074 ≤ e) :
    shiftToTargetExponent Format.binary64 (2 ^ 53) e .exact = (⟨2 ^ 52, false, false⟩, e + 1) := by
  have step : (target (2 ^ 53) e - e).toNat = 1 := by
    unfold target
    rw [Nat.log2_two_pow]
    omega
  rw [shift_eq, step]
  rfl

/-- Rounding is two shifts with the choice of the nearest mantissa between them. -/
theorem roundWithAccuracy_eq {m : Nat} {e e' e'' : ℤ} {accuracy : Accuracy}
    {em last : ExtendedMantissa} (s : Sign)
    (first : shiftToTargetExponent Format.binary64 m e accuracy = (em, e'))
    (second : shiftToTargetExponent Format.binary64 em.roundedMantissa e' .exact = (last, e''))
    (some : last.mantissa ≠ 0) :
    roundWithAccuracy Format.binary64 s m e accuracy
      = .finite s last.mantissa e'' (Nat.pos_of_ne_zero some) := by
  simp only [roundWithAccuracy, first, second, some, dite_false]

namespace Binary

variable {x : Binary} {q : ℚ}

theorem Rounds.scaled (rounds : x.Rounds q) :
    (x.significand : ℚ) - (if x.narrowBelow then 1 / 4 else 1 / 2) ≤ q / 2 ^ x.exponent ∧
      q / 2 ^ x.exponent ≤ x.significand + 1 / 2 := by
  have power : (0 : ℚ) < 2 ^ x.exponent := by positivity
  rw [le_div_iff₀ power, div_le_iff₀ power]
  exact rounds.bounds

/-- Halfway between two magnitudes, the even one takes the number. -/
theorem Rounds.tie (rounds : x.Rounds q) (wide : x.narrowBelow = false)
    (half : q / 2 ^ x.exponent = x.significand - 1 / 2 ∨ q / 2 ^ x.exponent = x.significand + 1 / 2) :
    x.significand % 2 = 0 := by
  have power : (0 : ℚ) < 2 ^ x.exponent := by positivity
  unfold Rounds low high at rounds
  rw [← lt_div_iff₀ power, ← div_lt_iff₀ power, wide] at rounds
  split at rounds
  · assumption
  · simp only [Bool.false_eq_true, if_false] at rounds
    rcases half with half | half
    · linarith [rounds.1]
    · linarith [rounds.2]

theorem div_zpow (q : ℚ) (e t : ℤ) : q / 2 ^ t = q / 2 ^ e * 2 ^ (e - t) := by
  rw [zpow_sub₀ (by norm_num)]
  field_simp

/-- Below its exponent a magnitude has a digit too many, unless it is the least of its binade, one
place below. -/
theorem Held.lower (held : x.Held) (rounds : x.Rounds q) {t : ℤ} (least : -1074 ≤ t)
    (lower : t < x.exponent) (small : q / 2 ^ t < 2 ^ 53) :
    x.narrowBelow = true ∧ t = x.exponent - 1 := by
  have below := rounds.scaled.1
  rw [div_zpow q x.exponent t] at small
  set z := q / 2 ^ x.exponent
  have full : 2 ^ 52 ≤ x.significand := held.full.resolve_right (by omega)
  have size : (2 ^ 52 : ℚ) ≤ x.significand := by exact_mod_cast full
  have positive : 0 ≤ z := by
    refine le_trans ?_ below
    split <;> linarith only [size]
  have twice (k : Nat) (fits : k ≤ x.exponent - t) : z * 2 ^ k < 2 ^ 53 := by
    refine lt_of_le_of_lt ?_ small
    rw [← zpow_natCast]
    exact mul_le_mul_of_nonneg_left (zpow_le_zpow_right₀ (by norm_num) fits) positive
  have once := twice 1 (by omega)
  have narrow : x.narrowBelow = true := by
    by_contra wide
    have above : x.significand ≠ 2 ^ 52 := fun least => wide (held.narrow.mpr ⟨least, by omega⟩)
    have : 2 ^ 52 + 1 ≤ x.significand := by omega
    have : (2 ^ 52 + 1 : ℚ) ≤ x.significand := by exact_mod_cast this
    simp only [wide, if_false] at below
    linarith
  refine ⟨narrow, ?_⟩
  by_contra other
  have double := twice 2 (by omega)
  simp only [narrow, if_true] at below
  linarith

/-- Above its exponent a magnitude has a digit too few. -/
theorem Held.higher (held : x.Held) (rounds : x.Rounds q) {t : ℤ} (higher : x.exponent < t) :
    q / 2 ^ t < 2 ^ 52 := by
  have above := rounds.scaled.2
  have bound : (x.significand : ℚ) ≤ 2 ^ 53 - 1 := by
    have : ((x.significand + 1 : Nat) : ℚ) ≤ 2 ^ 53 := by exact_mod_cast held.below
    push_cast at this
    linarith
  have top : (2 : ℚ) ^ (x.exponent - t) ≤ 1 / 2 :=
    (zpow_le_zpow_right₀ (by norm_num) (by omega : x.exponent - t ≤ -1)).trans_eq (by norm_num)
  have power : (0 : ℚ) < 2 ^ (x.exponent - t) := by positivity
  calc q / 2 ^ t = q / 2 ^ x.exponent * 2 ^ (x.exponent - t) := div_zpow q x.exponent t
    _ ≤ (2 ^ 53 - 1 / 2) * 2 ^ (x.exponent - t) :=
        mul_le_mul_of_nonneg_right (by linarith) power.le
    _ ≤ (2 ^ 53 - 1 / 2) * (1 / 2) := mul_le_mul_of_nonneg_left top (by norm_num)
    _ < 2 ^ 52 := by norm_num

/-- Where a number between the midpoints of a magnitude is rounded: at the exponent of the
magnitude, or one place lower when the magnitude is the least of its binade. -/
theorem Held.target_cases (held : x.Held) (rounds : x.Rounds q) {t : ℤ} (least : -1074 ≤ t)
    (large : 2 ^ 52 ≤ q / 2 ^ t ∨ t = -1074) (small : q / 2 ^ t < 2 ^ 53) :
    t = x.exponent ∨ x.narrowBelow = true ∧ t = x.exponent - 1 := by
  rcases lt_trichotomy t x.exponent with lower | same | higher
  · exact .inr (held.lower rounds least lower small)
  · exact .inl same
  · have full := large.resolve_right (by have := held.least; omega)
    exact absurd (held.higher rounds higher) (not_lt.mpr full)

/-- A number that rounds to a magnitude becomes that magnitude in the rounding of a truncated
mantissa. -/
theorem Held.rounding (held : x.Held) (some : x.significand ≠ 0) (rounds : x.Rounds q)
    {m : Nat} {e : ℤ} {accuracy : Accuracy} (enough : Enough m e)
    (truncates : Truncates m (q / 2 ^ e) accuracy) (negative : Bool) :
    roundWithAccuracy Format.binary64 (Parts.sign negative) m e accuracy
      = (Parts.finite negative x).unpacked := by
  obtain ⟨em, first, known⟩ := shift_truncates enough truncates
  obtain ⟨large, small⟩ := target_binade enough truncates
  have least : -1074 ≤ target m e := le_max_right _ _
  obtain ⟨below, above⟩ := rounds.scaled
  rw [Parts.unpacked_some some]
  rcases held.target_cases rounds least large small with same | ⟨narrow, lower⟩
  · rw [same] at first known
    have rounded : em.roundedMantissa = x.significand := by
      refine known.round ?_ above ?_
      · refine le_trans ?_ below
        split <;> linarith
      · intro half
        by_cases narrow : x.narrowBelow = true
        · rw [(held.narrow.mp narrow).1]
          norm_num
        · exact rounds.tie (by simpa using narrow) half
    exact roundWithAccuracy_eq _ first (by rw [rounded, shift_short held.below held.least]) some
  · obtain ⟨size, inner⟩ := held.narrow.mp narrow
    have twice : q / 2 ^ target m e = q / 2 ^ x.exponent * 2 := by
      rw [div_zpow q x.exponent, lower, sub_sub_cancel, zpow_one]
    rw [twice] at known small
    simp only [narrow, if_true, size] at below
    push_cast at below
    have rounded : em.roundedMantissa = 2 ^ 53 := by
      refine known.round ?_ ?_ fun _ => rfl
      · push_cast
        linarith
      · push_cast
        linarith
    have result := roundWithAccuracy_eq (Parts.sign negative) first
      (by rw [rounded, shift_full least]) (by decide)
    simp only [result, lower, size, sub_add_cancel]

end Binary
end LoxLang
