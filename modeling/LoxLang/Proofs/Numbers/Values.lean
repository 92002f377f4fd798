import LoxLang.Number.Layout
import Mathlib.Algebra.Order.Field.Power
import Mathlib.Algebra.Order.Field.Rat
import Mathlib.Tactic.Linarith
import Mathlib.Tactic.Ring
import Mathlib.Tactic.FieldSimp
import Mathlib.Tactic.Positivity
import Mathlib.Tactic.NormNum
/-! What magnitudes and decimals stand for as rational numbers. The comparisons on natural
numbers compare these values; the shortest decimal of a magnitude lies among the numbers
that round to it, and has no trailing zero. -/
namespace LoxLang

/-- The rational number a magnitude stands for. -/
def Binary.value (x : Binary) : ℚ := x.significand * 2 ^ x.exponent

def Decimal.value (d : Decimal) : ℚ := d.digits * 10 ^ d.exponent

/-- A power with an integer exponent, cleared of a negative one. -/
theorem zpow_mul_pow {b : ℚ} (pos : 0 < b) (i : ℤ) : b ^ i * b ^ (-i).toNat = b ^ i.toNat := by
  rw [← zpow_natCast, ← zpow_natCast, ← zpow_add₀ pos.ne']
  congr 1
  omega

namespace Binary

variable {x : Binary} {d : Decimal}

theorem compareScaled_eq (a : Nat) (i : ℤ) (b : Nat) (j : ℤ) :
    compareScaled a i b j = compare ((a : ℚ) * 2 ^ i) ((b : ℚ) * 10 ^ j) := by
  have scale : (0 : ℚ) < 2 ^ (-i).toNat * 10 ^ (-j).toNat := by positivity
  have left : ((a * Nat.pow 2 i.toNat * Nat.pow 10 (-j).toNat : Nat) : ℚ)
      = a * 2 ^ i * (2 ^ (-i).toNat * 10 ^ (-j).toNat) := by
    rw [Nat.pow_eq, Nat.pow_eq]
    push_cast
    rw [← zpow_mul_pow (by norm_num : (0 : ℚ) < 2) i]
    ring
  have right : ((b * Nat.pow 10 j.toNat * Nat.pow 2 (-i).toNat : Nat) : ℚ)
      = b * 10 ^ j * (2 ^ (-i).toNat * 10 ^ (-j).toNat) := by
    rw [Nat.pow_eq, Nat.pow_eq]
    push_cast
    rw [← zpow_mul_pow (by norm_num : (0 : ℚ) < 10) j]
    ring
  unfold compareScaled
  rcases lt_trichotomy ((a : ℚ) * 2 ^ i) ((b : ℚ) * 10 ^ j) with less | equal | more
  · rw [compare_lt_iff_lt.mpr less, compare_lt_iff_lt, ← Nat.cast_lt (α := ℚ), left, right]
    exact mul_lt_mul_of_pos_right less scale
  · rw [compare_eq_iff_eq.mpr equal, compare_eq_iff_eq, ← Nat.cast_inj (R := ℚ), left, right, equal]
  · rw [compare_gt_iff_gt.mpr more, compare_gt_iff_gt, ← Nat.cast_lt (α := ℚ), left, right]
    exact mul_lt_mul_of_pos_right more scale

theorem lt_iff : x.lt d = true ↔ x.value < d.value := by
  simp only [lt, compareScaled_eq, decide_eq_true_eq]
  exact compare_lt_iff_lt

theorem isZero_iff : x.isZero = true ↔ x.significand = 0 := by simp [isZero]

theorem value_eq_zero : x.value = 0 ↔ x.significand = 0 := by simp [value, zpow_ne_zero]

/-- The plain magnitudes are zero and those from a thousandth up to ten million. -/
theorem isPlain_iff :
    x.isPlain = true ↔ x.value = 0 ∨ 1 / 1000 ≤ x.value ∧ x.value < 10000000 := by
  have thousandth : Decimal.value ⟨1, -3⟩ = 1 / 1000 := by norm_num [Decimal.value]
  have tenMillion : Decimal.value ⟨1, 7⟩ = 10000000 := by norm_num [Decimal.value]
  have notBelow : (!x.lt ⟨1, -3⟩) = true ↔ 1 / 1000 ≤ x.value := by
    rw [Bool.not_eq_true', ← Bool.not_eq_true, lt_iff, thousandth, not_lt]
  rw [isPlain, Bool.or_eq_true, Bool.and_eq_true, notBelow, lt_iff, tenMillion, isZero_iff,
    value_eq_zero]

/-! ### The numbers that round to a magnitude -/

/-- The midpoint between a magnitude and the next smaller one. -/
def low (x : Binary) : ℚ := (x.significand - if x.narrowBelow then 1 / 4 else 1 / 2) * 2 ^ x.exponent

/-- The midpoint between a magnitude and the next larger one. -/
def high (x : Binary) : ℚ := (x.significand + 1 / 2) * 2 ^ x.exponent

/-- The number lies between the midpoints, which belong to the magnitude with the even
significand. -/
def Rounds (x : Binary) (q : ℚ) : Prop :=
  if x.significand % 2 = 0 then x.low ≤ q ∧ q ≤ x.high else x.low < q ∧ q < x.high

theorem low_lt_value : x.low < x.value := by
  have power : (0 : ℚ) < 2 ^ x.exponent := by positivity
  refine mul_lt_mul_of_pos_right ?_ power
  split <;> linarith

theorem value_lt_high : x.value < x.high := by
  have power : (0 : ℚ) < 2 ^ x.exponent := by positivity
  exact mul_lt_mul_of_pos_right (by linarith) power

theorem low_pos (some : x.significand ≠ 0) : 0 < x.low := by
  have one : (1 : ℚ) ≤ x.significand := by exact_mod_cast Nat.pos_of_ne_zero some
  have power : (0 : ℚ) < 2 ^ x.exponent := by positivity
  refine mul_pos ?_ power
  split <;> linarith

theorem rounds_value : x.Rounds x.value := by
  unfold Rounds
  split
  · exact ⟨low_lt_value.le, value_lt_high.le⟩
  · exact ⟨low_lt_value, value_lt_high⟩

theorem Rounds.bounds {q : ℚ} (rounds : x.Rounds q) : x.low ≤ q ∧ q ≤ x.high := by
  unfold Rounds at rounds
  split at rounds
  · exact rounds
  · exact ⟨rounds.1.le, rounds.2.le⟩

theorem Rounds.pos {q : ℚ} (rounds : x.Rounds q) (some : x.significand ≠ 0) : 0 < q :=
  (low_pos some).trans_le rounds.bounds.1

theorem readsBack_iff (some : x.significand ≠ 0) : x.readsBack d = true ↔ x.Rounds d.value := by
  have quarter : (2 : ℚ) ^ (x.exponent - 2) = 2 ^ x.exponent / 4 := by
    rw [zpow_sub₀ (by norm_num)]
    norm_num
  have below : (((if x.narrowBelow then 4 * x.significand - 1 else 4 * x.significand - 2 : Nat) : ℚ))
      * 2 ^ (x.exponent - 2) = x.low := by
    rw [quarter, low]
    split
    · rw [Nat.cast_sub (by omega)]
      push_cast
      ring
    · rw [Nat.cast_sub (by omega)]
      push_cast
      ring
  have above : ((4 * x.significand + 2 : Nat) : ℚ) * 2 ^ (x.exponent - 2) = x.high := by
    rw [quarter, high]
    push_cast
    ring
  simp only [readsBack, compareScaled_eq, below, above]
  unfold Rounds
  split
  · simp only [Bool.and_eq_true, bne_iff_ne, ne_eq, compare_gt_iff_gt, compare_lt_iff_lt, not_lt]
    rfl
  · simp only [Bool.and_eq_true, decide_eq_true_eq, compare_gt_iff_gt, compare_lt_iff_lt]
    rfl

/-- Written out in full, a magnitude is that very number. -/
theorem exact_value : x.exact.value = x.value := by
  have two := zpow_mul_pow (by norm_num : (0 : ℚ) < 2) x.exponent
  have tens : (10 : ℚ) ^ (-x.exponent).toNat = 2 ^ (-x.exponent).toNat * 5 ^ (-x.exponent).toNat := by
    rw [← mul_pow]
    norm_num
  simp only [exact, Decimal.value, value, Nat.pow_eq]
  push_cast
  rw [zpow_neg, zpow_natCast, tens, ← two]
  field_simp

end Binary

/-! ### Stripping -/

namespace Decimal

variable {d : Decimal}

theorem strip_value (d : Decimal) : d.strip.value = d.value := by
  induction d using strip.induct with
  | case1 d more ih =>
    rw [strip, dif_pos more, ih]
    have whole : d.digits = 10 * (d.digits / 10) := by omega
    simp only [value]
    rw [zpow_add₀ (by norm_num), zpow_one]
    nth_rewrite 2 [whole]
    push_cast
    ring
  | case2 d done => rw [strip, dif_neg done]

theorem strip_digits (some : d.digits ≠ 0) : d.strip.digits % 10 ≠ 0 := by
  induction d using strip.induct with
  | case1 d more ih =>
    rw [strip, dif_pos more]
    exact ih (by show d.digits / 10 ≠ 0; omega)
  | case2 d done =>
    rw [strip, dif_neg done]
    exact fun trailing => done ⟨some, trailing⟩

theorem digits_of_value_pos (pos : 0 < d.value) : d.digits ≠ 0 := by
  intro zero
  simp [value, zero] at pos

end Decimal

/-! ### The shortest decimal -/

namespace Binary

variable {x : Binary} {d : Decimal}

theorem onGrid?_readsBack {e : ℤ} (found : x.onGrid? e = some d) : x.readsBack d = true := by
  unfold onGrid? at found
  dsimp only at found
  split at found
  · cases found
  · cases found
    assumption
  · cases found
    assumption
  · split at found
    · cases found
      assumption
    · cases found
      assumption
    · split at found <;> cases found <;> assumption

theorem shortest_zero (zero : x.significand = 0) : x.shortest = ⟨0, 0⟩ := by
  simp [shortest, isZero, zero]

/-- The decimal before its trailing zeros are stripped. -/
theorem shortest_strip (some : x.significand ≠ 0) :
    ∃ d : Decimal, x.shortest = d.strip ∧ x.Rounds d.value := by
  simp only [shortest, isZero_iff, some, if_false]
  refine ⟨_, rfl, ?_⟩
  cases search : (List.range 17).findSome? fun (n : Nat) => x.onGrid? (x.scale - n - 1) with
  | none => exact exact_value ▸ rounds_value
  | some d =>
    obtain ⟨n, -, found⟩ := List.exists_of_findSome?_eq_some search
    exact (readsBack_iff some).mp (onGrid?_readsBack found)

theorem shortest_rounds (some : x.significand ≠ 0) : x.Rounds x.shortest.value := by
  obtain ⟨d, same, rounds⟩ := shortest_strip some
  rwa [same, Decimal.strip_value]

theorem shortest_digits (some : x.significand ≠ 0) : x.shortest.digits % 10 ≠ 0 := by
  obtain ⟨d, same, rounds⟩ := shortest_strip some
  rw [same]
  exact Decimal.strip_digits (Decimal.digits_of_value_pos (rounds.pos some))

end Binary
end LoxLang
