import LoxLang.Proofs.Numbers.Rounding
/-! Reading a decimal as a 64-bit number. A decimal among the numbers that round to a magnitude is
read as that magnitude, on the short way through a division of exact numbers and on the long way
alike. -/
namespace LoxLang

open Float.Model (Format UnpackedFloat totalExponent)
open Float.Model.UnpackedFloat

/-! ### Quotients and products -/

theorem truncates_div (n : Nat) {d : Nat} (pos : 0 < d) :
    Truncates (n / d) ((n : ℚ) / d) (accuracyOfFraction (n % d) d) := by
  have cast : (0 : ℚ) < d := by exact_mod_cast pos
  have split : (n : ℚ) = d * (n / d : Nat) + (n % d : Nat) := by
    exact_mod_cast (Nat.div_add_mod n d).symm
  have rest : ((n % d : Nat) : ℚ) < d := by exact_mod_cast Nat.mod_lt n pos
  have quotient : (n : ℚ) / d = (n / d : Nat) + (n % d : Nat) / d := by
    rw [div_eq_iff cast.ne']
    nth_rewrite 1 [split]
    field_simp
  rw [quotient]
  have proper : ((n % d : Nat) : ℚ) / d < 1 := (div_lt_one cast).mpr rest
  unfold accuracyOfFraction
  by_cases none : n % d = 0
  · simp [none, Truncates]
  rw [if_neg none]
  have part : (0 : ℚ) < (n % d : Nat) / d := by
    have : (0 : ℚ) < (n % d : Nat) := by exact_mod_cast Nat.pos_of_ne_zero none
    positivity
  rcases lt_trichotomy (2 * (n % d)) d with less | half | more
  · rw [compare_lt_iff_lt.mpr less]
    have : (2 * (n % d : Nat) : ℚ) < d := by exact_mod_cast less
    have : ((n % d : Nat) : ℚ) / d < 1 / 2 := by
      rw [div_lt_iff₀ cast]
      linarith
    constructor <;> linarith
  · rw [compare_eq_iff_eq.mpr half]
    have : (2 * (n % d : Nat) : ℚ) = d := by exact_mod_cast half
    have : ((n % d : Nat) : ℚ) / d = 1 / 2 := by
      rw [div_eq_iff cast.ne']
      linarith
    rw [this]
    rfl
  · rw [compare_gt_iff_gt.mpr more]
    have : (d : ℚ) < 2 * (n % d : Nat) := by exact_mod_cast more
    have : 1 / 2 < ((n % d : Nat) : ℚ) / d := by
      rw [lt_div_iff₀ cast]
      linarith
    constructor <;> linarith

/-- The exponent of a quotient before it is rounded. -/
def quotientExponent (m : Nat) (e : ℤ) (n : Nat) (f : ℤ) : ℤ :=
  min (e - f) (max (m.log2 + e - (n.log2 + f) - 53) (-1074))

theorem divCore_eq (m : Nat) (e : ℤ) (n : Nat) (f : ℤ) :
    divCore Format.binary64 m e n f =
      (m <<< (e - f - quotientExponent m e n f).toNat / n, quotientExponent m e n f,
        accuracyOfFraction (m <<< (e - f - quotientExponent m e n f).toNat % n) n) := by
  have place : Format.binary64.targetExponent (totalExponent m e - totalExponent n f)
      = max (m.log2 + e - (n.log2 + f) - 53) (-1074) := by
    simp only [Format.targetExponent, totalExponent, Format.mantissaBits, Format.minExponent]
    norm_num
    omega
  simp only [divCore, place, quotientExponent]

section Quotient

variable {m n : Nat} (e f : ℤ)

theorem quotient_enough (someM : m ≠ 0) (someN : n ≠ 0) :
    Enough (m <<< (e - f - quotientExponent m e n f).toNat / n) (quotientExponent m e n f) := by
  by_cases bottom : quotientExponent m e n f ≤ -1074
  · exact .inr bottom
  left
  set k := (e - f - quotientExponent m e n f).toNat with shift
  have room : n.log2 + 1 + 52 ≤ m.log2 + k := by
    unfold quotientExponent at bottom shift
    omega
  rw [Nat.le_div_iff_mul_le (Nat.pos_of_ne_zero someN), Nat.shiftLeft_eq]
  calc 2 ^ 52 * n ≤ 2 ^ 52 * 2 ^ (n.log2 + 1) := Nat.mul_le_mul_left _ Nat.lt_log2_self.le
    _ = 2 ^ (n.log2 + 1 + 52) := by rw [Nat.pow_add 2 (n.log2 + 1) 52, Nat.mul_comm]
    _ ≤ 2 ^ (m.log2 + k) := Nat.pow_le_pow_right (by decide) room
    _ = 2 ^ m.log2 * 2 ^ k := Nat.pow_add ..
    _ ≤ m * 2 ^ k := Nat.mul_le_mul_right _ (Nat.log2_self_le someM)

theorem quotient_value (m n : Nat) :
    ((m <<< (e - f - quotientExponent m e n f).toNat : Nat) : ℚ) / n
      = m * 2 ^ e / (n * 2 ^ f) / 2 ^ quotientExponent m e n f := by
  have reach : ((e - f - quotientExponent m e n f).toNat : ℤ) = e - f - quotientExponent m e n f := by
    unfold quotientExponent
    omega
  rw [Nat.shiftLeft_eq]
  push_cast
  rw [← zpow_natCast, reach, zpow_sub₀ (by norm_num), zpow_sub₀ (by norm_num)]
  field_simp

end Quotient

namespace Binary

variable {x y z : Binary} {a b : Float}

theorem Held.quotient (held : x.Held) (some : x.significand ≠ 0) {m n : Nat} {e f : ℤ} (posM : 0 < m)
    (posN : 0 < n) (rounds : x.Rounds (m * 2 ^ e / (n * 2 ^ f))) :
    div Format.binary64 (.finite .positive m e posM) (.finite .positive n f posN)
      = (Parts.finite false x).unpacked := by
  have known := truncates_div (m <<< (e - f - quotientExponent m e n f).toNat) posN
  rw [quotient_value] at known
  show roundWithAccuracy Format.binary64 .positive (divCore Format.binary64 m e n f).1
    (divCore Format.binary64 m e n f).2.1 (divCore Format.binary64 m e n f).2.2 = _
  rw [divCore_eq]
  exact held.rounding some rounds (quotient_enough e f posM.ne' posN.ne') known false

theorem Held.product (held : x.Held) (some : x.significand ≠ 0) {m n : Nat} {e f : ℤ} (posM : 0 < m)
    (posN : 0 < n) (enough : Enough (m * n) (e + f)) (rounds : x.Rounds (m * 2 ^ e * (n * 2 ^ f))) :
    mul Format.binary64 (.finite .positive m e posM) (.finite .positive n f posN)
      = (Parts.finite false x).unpacked := by
  refine held.rounding some rounds enough ?_ false
  show (m * 2 ^ e * (n * 2 ^ f) : ℚ) / 2 ^ (e + f) = ((m * n : Nat) : ℚ)
  rw [zpow_add₀ (by norm_num)]
  push_cast
  field_simp

section Operands

variable (left : Parts.ofFloat a = .finite false y) (right : Parts.ofFloat b = .finite false z)
  (someY : y.significand ≠ 0) (someZ : z.significand ≠ 0)

include left right someY someZ

theorem float_div : a / b = .ofModel (.pack (div Format.binary64
    (.finite .positive y.significand y.exponent (Nat.pos_of_ne_zero someY))
    (.finite .positive z.significand z.exponent (Nat.pos_of_ne_zero someZ)))) := by
  show Float.ofModel (.pack (div _ a.toModel.unpack b.toModel.unpack)) = _
  rw [Parts.unpack_float, Parts.unpack_float, left, right, Parts.unpacked_some someY,
    Parts.unpacked_some someZ]
  rfl

theorem float_mul : a * b = .ofModel (.pack (mul Format.binary64
    (.finite .positive y.significand y.exponent (Nat.pos_of_ne_zero someY))
    (.finite .positive z.significand z.exponent (Nat.pos_of_ne_zero someZ)))) := by
  show Float.ofModel (.pack (mul _ a.toModel.unpack b.toModel.unpack)) = _
  rw [Parts.unpack_float, Parts.unpack_float, left, right, Parts.unpacked_some someY,
    Parts.unpacked_some someZ]
  rfl

/-- The quotient of two positive numbers is the magnitude that their exact quotient rounds to. -/
theorem Held.ofFloat_div (held : x.Held) (some : x.significand ≠ 0)
    (rounds : x.Rounds (y.value / z.value)) : Parts.ofFloat (a / b) = .finite false x := by
  rw [float_div left right someY someZ, held.quotient some _ _ rounds]
  exact Parts.ofFloat_pack held false

theorem Held.ofFloat_mul (held : x.Held) (some : x.significand ≠ 0)
    (enough : Enough (y.significand * z.significand) (y.exponent + z.exponent))
    (rounds : x.Rounds (y.value * z.value)) : Parts.ofFloat (a * b) = .finite false x := by
  rw [float_mul left right someY someZ, held.product some _ _ enough rounds]
  exact Parts.ofFloat_pack held false

end Operands

end Binary

/-! ### Whole numbers and powers of ten -/

/-- A positive number of at most fifty-three binary places, as a magnitude. -/
def Binary.ofNat (m : Nat) : Binary :=
  ⟨m <<< (52 - m.log2), -((52 - m.log2 : Nat) : ℤ), m <<< (52 - m.log2) = 2 ^ 52⟩

namespace Binary

variable {m : Nat}

theorem ofNat_full (some : m ≠ 0) (short : m < 2 ^ 53) :
    2 ^ 52 ≤ (ofNat m).significand ∧ (ofNat m).significand < 2 ^ 53 := by
  have size : m.log2 < 53 := (Nat.log2_lt some).mpr short
  simp only [ofNat, Nat.shiftLeft_eq]
  constructor
  · calc 2 ^ 52 = 2 ^ m.log2 * 2 ^ (52 - m.log2) := by rw [← Nat.pow_add]; congr 1; omega
      _ ≤ m * 2 ^ (52 - m.log2) := Nat.mul_le_mul_right _ (Nat.log2_self_le some)
  · calc m * 2 ^ (52 - m.log2) < 2 ^ (m.log2 + 1) * 2 ^ (52 - m.log2) :=
          Nat.mul_lt_mul_of_pos_right Nat.lt_log2_self (Nat.two_pow_pos _)
      _ = 2 ^ 53 := by rw [← Nat.pow_add]; congr 1; omega

theorem ofNat_held (some : m ≠ 0) (short : m < 2 ^ 53) : (ofNat m).Held where
  below := (ofNat_full some short).2
  least := by
    simp only [ofNat]
    omega
  most := by
    simp only [ofNat]
    omega
  full := .inl (ofNat_full some short).1
  narrow := by
    simp only [ofNat, decide_eq_true_eq]
    omega

theorem ofNat_value (m : Nat) : (ofNat m).value = m := by
  simp only [ofNat, value, Nat.shiftLeft_eq]
  push_cast
  rw [zpow_neg, zpow_natCast]
  field_simp

theorem ofNat_some (some : m ≠ 0) (short : m < 2 ^ 53) : (ofNat m).significand ≠ 0 := by
  have := (ofNat_full some short).1
  omega

end Binary

/-- A short whole number is held exactly. -/
theorem ofFloat_toFloat {m : Nat} (some : m ≠ 0) (short : m < 2 ^ 53) :
    Parts.ofFloat m.toUInt64.toFloat = .finite false (.ofNat m) := by
  have whole : m.toUInt64.toNat = m := by
    show m % 2 ^ 64 = m
    omega
  have positive : compare (m : ℤ) 0 = .gt := compare_gt_iff_gt.mpr (by omega)
  have place : (0 - target m 0).toNat = 52 - m.log2 := by
    have : m.log2 < 53 := (Nat.log2_lt some).mpr short
    unfold target
    omega
  have held := Binary.ofNat_held some short
  have rounds : (Binary.ofNat m).Rounds m := by
    have := (Binary.ofNat m).rounds_value
    rwa [Binary.ofNat_value] at this
  have result : roundWithAccuracy Format.binary64 .positive (m <<< (52 - m.log2))
      (0 - (52 - m.log2 : Nat)) .exact = (Parts.finite false (.ofNat m)).unpacked := by
    refine held.rounding (Binary.ofNat_some some short) rounds
      (.inl (Binary.ofNat_full some short).1) ?_ false
    show (m : ℚ) / 2 ^ (0 - ((52 - m.log2 : Nat) : ℤ)) = ((m <<< (52 - m.log2) : Nat) : ℚ)
    rw [zero_sub, zpow_neg, zpow_natCast, Nat.shiftLeft_eq]
    push_cast
    field_simp
  have packed := Parts.ofFloat_pack held false
  rw [← result] at packed
  show Parts.ofFloat
    (.ofModel (.pack (UnpackedFloat.normalize Format.binary64 m.toUInt64.toNat 0 .positive))) = _
  simp only [whole, UnpackedFloat.normalize, positive, UnpackedFloat.round, targetExponent_eq,
    decreaseExponent, place, Int.toNat_natCast]
  exact packed

/-- A power of ten as a magnitude: the same power of five, some binary places up. -/
def Binary.tens (n : Nat) : Binary :=
  { ofNat (Nat.pow 5 n) with exponent := (ofNat (Nat.pow 5 n)).exponent + n }

theorem Binary.tens_value (n : Nat) : (tens n).value = 10 ^ n := by
  have fives := ofNat_value (Nat.pow 5 n)
  unfold value at fives
  simp only [tens, value]
  rw [zpow_add₀ (by norm_num), ← mul_assoc, fives, zpow_natCast, Nat.pow_eq]
  push_cast
  rw [← mul_pow]
  norm_num

theorem ofFloat_powers : ∀ n : Fin Float.exactlyRepresentablePowersOfTen.size,
    Parts.ofFloat Float.exactlyRepresentablePowersOfTen[n] = .finite false (.tens n) ∧
      (Binary.tens n).significand ≠ 0 := by
  decide +kernel

/-- The powers of ten that a number holds exactly are held exactly. -/
theorem ofFloat_tens {n : Nat} (short : n < Float.exactlyRepresentablePowersOfTen.size) :
    Parts.ofFloat Float.exactlyRepresentablePowersOfTen[n] = .finite false (.tens n) ∧
      (Binary.tens n).significand ≠ 0 :=
  ofFloat_powers ⟨n, short⟩

theorem powers_size : Float.exactlyRepresentablePowersOfTen.size = 23 := rfl

/-! ### Decimals -/

namespace Binary

variable {x : Binary} {q : ℚ}

/-- What rounds to a held magnitude is neither too large nor too small to be held. -/
theorem Held.range (held : x.Held) (some : x.significand ≠ 0) (rounds : x.Rounds q) :
    (2 : ℚ) ^ (-1075 : ℤ) ≤ q ∧ q ≤ 2 ^ (1024 : ℤ) := by
  obtain ⟨low, high⟩ := rounds.bounds
  have one : (1 : ℚ) ≤ x.significand := by exact_mod_cast Nat.pos_of_ne_zero some
  have full : (x.significand : ℚ) + 1 / 2 ≤ 2 ^ 53 := by
    have : ((x.significand + 1 : Nat) : ℚ) ≤ 2 ^ 53 := by exact_mod_cast held.below
    push_cast at this
    linarith
  have least : (2 : ℚ) ^ (-1074 : ℤ) ≤ 2 ^ x.exponent := zpow_le_zpow_right₀ (by norm_num) held.least
  have most : (2 : ℚ) ^ x.exponent ≤ 2 ^ (971 : ℤ) := zpow_le_zpow_right₀ (by norm_num) held.most
  have power : (0 : ℚ) < 2 ^ x.exponent := by positivity
  constructor
  · calc (2 : ℚ) ^ (-1075 : ℤ) = 1 / 2 * 2 ^ (-1074 : ℤ) := by
          rw [show (-1075 : ℤ) = -1 + -1074 by rfl, zpow_add₀ (by norm_num)]
          norm_num
      _ ≤ 1 / 2 * 2 ^ x.exponent := mul_le_mul_of_nonneg_left least (by norm_num)
      _ ≤ x.low := by
          refine mul_le_mul_of_nonneg_right ?_ power.le
          split <;> linarith
      _ ≤ q := low
  · calc q ≤ x.high := high
      _ ≤ 2 ^ 53 * 2 ^ x.exponent := mul_le_mul_of_nonneg_right full power.le
      _ ≤ 2 ^ 53 * 2 ^ (971 : ℤ) := mul_le_mul_of_nonneg_left most (by norm_num)
      _ = 2 ^ (1024 : ℤ) := by
          rw [show (1024 : ℤ) = (53 : Nat) + 971 by rfl, zpow_add₀ (by norm_num), zpow_natCast]

theorem Held.not_huge (held : x.Held) (some : x.significand ≠ 0) {m : Nat} {e : ℤ} (digits : m ≠ 0)
    (rounds : x.Rounds (m * 10 ^ e)) : e ≤ 2 ^ 11 := by
  by_contra huge
  have one : (1 : ℚ) ≤ m := by exact_mod_cast Nat.pos_of_ne_zero digits
  have above : (2 : ℚ) ^ (1025 : ℤ) ≤ m * 10 ^ e := by
    calc (2 : ℚ) ^ (1025 : ℤ) ≤ 2 ^ e := zpow_le_zpow_right₀ (by norm_num) (by omega)
      _ ≤ 10 ^ e := zpow_le_zpow_left₀ (by omega) (by norm_num) (by norm_num)
      _ ≤ m * 10 ^ e := le_mul_of_one_le_left (by positivity) one
  have apart : (2 : ℚ) ^ (1024 : ℤ) < 2 ^ (1025 : ℤ) :=
    zpow_lt_zpow_right₀ (by norm_num) (by norm_num)
  exact absurd (above.trans (held.range some rounds).2) (not_le.mpr apart)

theorem Held.not_tiny (held : x.Held) (some : x.significand ≠ 0) {m : Nat} {e : ℤ}
    (rounds : x.Rounds (m * 10 ^ e)) : -((2 ^ 11 : ℤ) + m.log2) ≤ e := by
  by_contra tiny
  have size : (m : ℚ) ≤ 2 ^ ((m.log2 + 1 : Nat) : ℤ) := by
    rw [zpow_natCast]
    exact_mod_cast Nat.lt_log2_self.le
  have tens : (10 : ℚ) ^ e ≤ 2 ^ e := by
    have smaller : ((10 : ℚ) ^ (-e))⁻¹ ≤ (2 ^ (-e))⁻¹ :=
      inv_anti₀ (by positivity) (zpow_le_zpow_left₀ (by omega) (by norm_num) (by norm_num))
    rwa [← zpow_neg, ← zpow_neg, neg_neg] at smaller
  have below : (m : ℚ) * 10 ^ e ≤ 2 ^ (-1076 : ℤ) := by
    calc (m : ℚ) * 10 ^ e ≤ 2 ^ ((m.log2 + 1 : Nat) : ℤ) * 2 ^ e :=
          mul_le_mul size tens (by positivity) (by positivity)
      _ = 2 ^ (((m.log2 + 1 : Nat) : ℤ) + e) := (zpow_add₀ (by norm_num) _ _).symm
      _ ≤ 2 ^ (-1076 : ℤ) := zpow_le_zpow_right₀ (by norm_num) (by omega)
  have apart : (2 : ℚ) ^ (-1076 : ℤ) < 2 ^ (-1075 : ℤ) :=
    zpow_lt_zpow_right₀ (by norm_num) (by norm_num)
  exact absurd ((held.range some rounds).1.trans below) (not_le.mpr apart)

/-- The long way: the decimal is scaled by a power of ten and rounded once. -/
theorem Held.scientific (held : x.Held) (some : x.significand ≠ 0) {m : Nat} {e : ℤ}
    (rounds : x.Rounds (m * 10 ^ e)) :
    ofScientific Format.binary64 m e = (Parts.finite false x).unpacked := by
  have digits : m ≠ 0 := by
    rintro rfl
    simpa using rounds.pos some
  unfold ofScientific
  rw [dif_neg digits, if_neg (by simpa using held.not_huge some digits rounds),
    if_neg (by simpa using held.not_tiny some rounds)]
  split
  next up =>
    have power : (10 : ℚ) ^ e = ((10 ^ e.toNat : Nat) : ℚ) := by
      push_cast
      rw [← zpow_natCast]
      congr 1
      omega
    refine held.product some _ _ (.inl ?_) ?_
    · have one : 1 ≤ m * 10 ^ e.toNat := Nat.mul_pos (Nat.pos_of_ne_zero digits) (by positivity)
      rw [Nat.shiftLeft_eq]
      show 2 ^ 52 ≤ m * 2 ^ 53 * 10 ^ e.toNat
      linarith
    · rw [power] at rounds
      have shifted : ((m <<< Format.binary64.mantissaBits : Nat) : ℚ)
          * 2 ^ (-(Format.binary64.mantissaBits : ℤ)) = m := by
        rw [Nat.shiftLeft_eq, zpow_neg, zpow_natCast]
        push_cast
        field_simp
      rw [shifted]
      simpa using rounds
  next down =>
    refine held.quotient some _ _ ?_
    have power : (10 : ℚ) ^ e = ((10 ^ (-e).toNat : Nat) : ℚ)⁻¹ := by
      push_cast
      rw [← zpow_natCast, ← zpow_neg]
      congr 1
      omega
    rw [power] at rounds
    simpa [div_eq_mul_inv] using rounds

/-- Reading a decimal rounds it once, on the short way too. -/
theorem Held.ofScientific (held : x.Held) (some : x.significand ≠ 0) {m n : Nat} {below : Bool}
    (rounds : x.Rounds (m * 10 ^ (if below then -(n : ℤ) else n))) :
    Parts.ofFloat (Float.ofScientific m below n) = .finite false x := by
  have digits : m ≠ 0 := by
    rintro rfl
    simpa using rounds.pos some
  unfold Float.ofScientific
  split
  next short =>
    have whole := ofFloat_toFloat digits short.1
    have full := ofNat_full digits short.1
    obtain ⟨tens, someTens⟩ := ofFloat_tens (by rw [powers_size]; omega : n < _)
    cases below with
    | true =>
      refine held.ofFloat_div whole tens (ofNat_some digits short.1) someTens some ?_
      rw [ofNat_value, tens_value]
      simpa [div_eq_mul_inv] using rounds
    | false =>
      refine held.ofFloat_mul whole tens (ofNat_some digits short.1) someTens some (.inl ?_) ?_
      · exact full.1.trans (Nat.le_mul_of_pos_right _ (Nat.pos_of_ne_zero someTens))
      · rw [ofNat_value, tens_value]
        simpa using rounds
  next long =>
    have exponent :
        (if below then Int.negOfNat n else Int.ofNat n) = if below then -(n : ℤ) else n := by
      cases below
      · rfl
      · exact Int.negOfNat_eq
    have result := Parts.ofFloat_pack held false
    rw [← held.scientific some rounds, ← exponent] at result
    exact result

end Binary

/-! ### Zero and the other outcomes -/

/-- The magnitude zero. -/
def Binary.zero : Binary := Binary.ofFields 0 0

theorem Binary.zero_held : zero.Held := ofFields_held (by decide) (by decide)

theorem ofFloat_zero : Parts.ofFloat (Nat.toUInt64 0).toFloat = .finite false .zero := by
  decide +kernel

section Zero

variable {a b : Float} {z : Binary} (none : Parts.ofFloat a = .finite false .zero)
  (right : Parts.ofFloat b = .finite false z) (some : z.significand ≠ 0)

include none right some

theorem ofFloat_zero_div : Parts.ofFloat (a / b) = .finite false .zero := by
  show Parts.ofFloat (.ofModel (.pack (div _ a.toModel.unpack b.toModel.unpack))) = _
  rw [Parts.unpack_float, Parts.unpack_float, none, right, Parts.unpacked_some some]
  exact Parts.ofFloat_pack Binary.zero_held false

theorem ofFloat_zero_mul : Parts.ofFloat (a * b) = .finite false .zero := by
  show Parts.ofFloat (.ofModel (.pack (mul _ a.toModel.unpack b.toModel.unpack))) = _
  rw [Parts.unpack_float, Parts.unpack_float, none, right, Parts.unpacked_some some]
  exact Parts.ofFloat_pack Binary.zero_held false

end Zero

theorem ofScientific_zero (below : Bool) (n : Nat) :
    Parts.ofFloat (Float.ofScientific 0 below n) = .finite false .zero := by
  unfold Float.ofScientific
  split
  next short =>
    obtain ⟨tens, some⟩ := ofFloat_tens (by rw [powers_size]; omega : n < _)
    cases below with
    | true => exact ofFloat_zero_div ofFloat_zero tens some
    | false => exact ofFloat_zero_mul ofFloat_zero tens some
  next long => exact Parts.ofFloat_pack Binary.zero_held false

/-- A number that is neither negative nor undefined. -/
def Parts.Positive (p : Parts) : Prop := p = .infinite false ∨ ∃ m, p = .finite false m

theorem positive_infinity :
    (Parts.ofFloat (.ofModel (.pack (.infinity .positive)))).Positive :=
  .inl (by decide +kernel)

theorem positive_finite {m : Nat} {e : ℤ} (pos : 0 < m) :
    (Parts.ofFloat (.ofModel (.pack (.finite .positive m e pos)))).Positive := by
  have packed := pack_finite .positive m e pos
  show (Parts.ofBits (UInt64.ofBitVec (Float.Model.UnpackedFloat.pack Format.binary64 _))).Positive
  rw [packed]
  split
  next overflow => exact positive_infinity
  next short =>
    have biased : (BitVec.ofNat 11 (e + 1075).toNat).toNat ≠ 2047 := by
      rw [BitVec.toNat_ofNat]
      omega
    split
    · have fields := ofBits_packComponents false
        (BitVec.ofNat 11 (e + 1075).toNat) (BitVec.ofNat 52 m)
      rw [if_neg biased] at fields
      exact .inr ⟨_, fields⟩
    · exact .inr ⟨_, ofBits_packComponents false 0#11 (BitVec.ofNat 52 m)⟩

theorem positive_round (m : Nat) (e : ℤ) (accuracy : Accuracy) : (Parts.ofFloat (.ofModel (.pack
    (roundWithAccuracy Format.binary64 .positive m e accuracy)))).Positive := by
  unfold roundWithAccuracy
  dsimp only
  split
  · exact .inr ⟨_, Parts.ofFloat_pack Binary.zero_held false⟩
  · exact positive_finite _

theorem positive_scientific {m : Nat} (some : m ≠ 0) (e : ℤ) :
    (Parts.ofFloat (.ofModel (.pack (ofScientific Format.binary64 m e)))).Positive := by
  unfold ofScientific
  rw [dif_neg some]
  split
  next huge => exact positive_infinity
  next fits =>
    split
    next tiny => exact .inr ⟨_, Parts.ofFloat_pack Binary.zero_held false⟩
    next large =>
      split
      · exact positive_round _ _ _
      · exact positive_round _ _ _

/-- What is read from digits is a positive number, zero or infinite. -/
theorem ofScientific_positive (m : Nat) (below : Bool) (n : Nat) :
    (Parts.ofFloat (Float.ofScientific m below n)).Positive := by
  by_cases none : m = 0
  · exact .inr ⟨_, none ▸ ofScientific_zero below n⟩
  unfold Float.ofScientific
  split
  next short =>
    obtain ⟨tens, some⟩ := ofFloat_tens (by rw [powers_size]; omega : n < _)
    have whole := ofFloat_toFloat none short.1
    have someWhole := Binary.ofNat_some none short.1
    cases below with
    | true =>
      simp only [if_true]
      rw [Binary.float_div whole tens someWhole some]
      exact positive_round _ _ _
    | false =>
      simp only [Bool.false_eq_true, if_false]
      rw [Binary.float_mul whole tens someWhole some]
      exact positive_round _ _ _
  next long =>
    exact positive_scientific none _

end LoxLang
