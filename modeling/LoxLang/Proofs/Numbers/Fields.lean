import LoxLang.Proofs.Numbers.Values
import Mathlib
/-! The fields of a 64-bit number: its pattern is a sign, an exponent and a fraction, and these
determine it. Packing a magnitude into a pattern and taking the pattern apart are inverse. -/
namespace LoxLang

open Float.Model (Format UnpackedFloat)
open Float.Model.UnpackedFloat

namespace Binary

/-- A magnitude that a 64-bit number can hold. -/
structure Held (x : Binary) : Prop where
  below : x.significand < 2 ^ 53
  least : -1074 ≤ x.exponent
  most : x.exponent ≤ 971
  full : 2 ^ 52 ≤ x.significand ∨ x.exponent = -1074
  narrow : x.narrowBelow = true ↔ x.significand = 2 ^ 52 ∧ -1074 < x.exponent

theorem ofFields_held {biased fraction : Nat} (finite : biased < 2047) (fits : fraction < 2 ^ 52) :
    (ofFields biased fraction).Held := by
  unfold ofFields
  split
  · exact ⟨by simp only; omega, le_rfl, by simp only; omega, .inr rfl, by simp⟩
  · refine ⟨?_, ?_, ?_, .inl ?_, ?_⟩
    · simp only [Nat.pow_eq]
      omega
    · simp only
      omega
    · simp only
      omega
    · simp only [Nat.pow_eq]
      omega
    · simp only [Nat.pow_eq, decide_eq_true_eq]
      omega

/-- A held magnitude has the fields it is made of. -/
theorem Held.fields {x : Binary} (held : x.Held) : ∃ biased fraction, biased < 2047 ∧
    fraction < 2 ^ 52 ∧ x = ofFields biased fraction := by
  obtain ⟨below, least, most, full, narrow⟩ := held
  by_cases small : x.significand < 2 ^ 52
  · have bottom : x.exponent = -1074 := by omega
    have wide : x.narrowBelow = false := by
      rw [← Bool.not_eq_true, narrow]
      omega
    refine ⟨0, x.significand, by omega, small, ?_⟩
    rw [ofFields, if_pos rfl, ← bottom, ← wide]
  · refine ⟨(x.exponent + 1075).toNat, x.significand - 2 ^ 52, by omega, by omega, ?_⟩
    have shape : x = ⟨x.significand, x.exponent,
        decide (x.significand = 2 ^ 52 ∧ -1074 < x.exponent)⟩ := by
      obtain ⟨significand, exponent, narrowBelow⟩ := x
      simp only [Binary.mk.injEq, true_and]
      rw [Bool.eq_iff_iff, decide_eq_true_eq]
      exact narrow
    rw [shape, ofFields, if_neg (by simp only; omega)]
    simp only [Binary.mk.injEq, Nat.pow_eq, decide_eq_decide]
    omega

/-- Different fields make different magnitudes. -/
theorem ofFields_injective {b f b' f' : Nat} (fits : f < 2 ^ 52) (fits' : f' < 2 ^ 52)
    (same : ofFields b f = ofFields b' f') : b = b' ∧ f = f' := by
  unfold ofFields at same
  split at same <;> split at same <;>
    simp only [Binary.mk.injEq, Nat.pow_eq] at same <;> omega

end Binary

/-! ### Patterns -/

/-- Taking a pattern apart, given the numbers that its fields hold. -/
theorem Parts.ofBits_fields {bits : UInt64} {sign biased fraction : Nat} (one : sign < 2)
    (short : biased < 2 ^ 11) (fits : fraction < 2 ^ 52)
    (pattern : bits.toNat = sign * 2 ^ 63 + biased * 2 ^ 52 + fraction) :
    Parts.ofBits bits =
      if biased = 2047 then if fraction = 0 then .infinite (sign == 1) else .notANumber
      else .finite (sign == 1) (Binary.ofFields biased fraction) := by
  have exponent : bits.toNat / 2 ^ 52 % 2 ^ 11 = biased := by omega
  have rest : bits.toNat % 2 ^ 52 = fraction := by omega
  have negative : decide (2 ^ 63 ≤ bits.toNat) = (sign == 1) := by
    rw [Bool.eq_iff_iff, decide_eq_true_eq, beq_iff_eq]
    omega
  simp only [Parts.ofBits, Nat.pow_eq, exponent, rest, negative]

/-- Every pattern has its three fields. -/
theorem pattern_fields (bits : UInt64) : ∃ sign biased fraction, sign < 2 ∧ biased < 2 ^ 11 ∧
    fraction < 2 ^ 52 ∧ bits.toNat = sign * 2 ^ 63 + biased * 2 ^ 52 + fraction := by
  have bound := bits.toNat_lt
  exact ⟨bits.toNat / 2 ^ 63, bits.toNat / 2 ^ 52 % 2 ^ 11, bits.toNat % 2 ^ 52, by omega, by omega,
    by omega, by omega⟩

namespace Parts

variable {x y : Float} {negative : Bool} {m : Binary}

theorem finite_held (finite : ofFloat x = .finite negative m) : m.Held := by
  obtain ⟨sign, biased, fraction, one, short, fits, pattern⟩ := pattern_fields x.toBits
  rw [ofFloat, ofBits_fields one short fits pattern] at finite
  split at finite
  · split at finite <;> cases finite
  · cases finite
    exact Binary.ofFields_held (by omega) fits

/-- A finite number is determined by its sign and magnitude. -/
theorem ofFloat_injective (left : ofFloat x = .finite negative m)
    (right : ofFloat y = .finite negative m) : x = y := by
  obtain ⟨s, b, f, one, short, fits, pattern⟩ := pattern_fields x.toBits
  obtain ⟨s', b', f', one', short', fits', pattern'⟩ := pattern_fields y.toBits
  rw [ofFloat, ofBits_fields one short fits pattern] at left
  rw [ofFloat, ofBits_fields one' short' fits' pattern'] at right
  split at left
  · split at left <;> cases left
  split at right
  · split at right <;> cases right
  have signs : (s == 1) = (s' == 1) :=
    (Parts.finite.inj left).1.trans (Parts.finite.inj right).1.symm
  have magnitudes := (Parts.finite.inj left).2.trans (Parts.finite.inj right).2.symm
  obtain ⟨rfl, rfl⟩ := Binary.ofFields_injective fits fits' magnitudes
  have sign : s = s' := by
    rw [Bool.eq_iff_iff, beq_iff_eq, beq_iff_eq] at signs
    omega
  exact Float.toBits_inj.mp (UInt64.toNat_inj.mp (by rw [pattern, pattern', sign]))

/-! ### Packing -/

def sign (negative : Bool) : Sign := if negative then .negative else .positive

/-- The number as the float operations see it. -/
def unpacked : Parts → UnpackedFloat
  | .notANumber => .notANumber
  | .infinite negative => .infinity (sign negative)
  | .finite negative x =>
    if some : x.significand = 0 then .zero (sign negative)
    else .finite (sign negative) x.significand x.exponent (Nat.pos_of_ne_zero some)

theorem unpacked_some {x : Binary} (some : x.significand ≠ 0) (negative : Bool) :
    (finite negative x).unpacked
      = .finite (sign negative) x.significand x.exponent (Nat.pos_of_ne_zero some) := by
  simp only [unpacked, some, dite_false]

end Parts

theorem packComponents_toNat (s : Sign) (e : BitVec 11) (m : BitVec 52) :
    (packComponents Format.binary64 s e m).toNat =
      s.toBitVec.toNat * 2 ^ 63 + e.toNat * 2 ^ 52 + m.toNat := by
  have small := m.isLt
  have short := e.isLt
  simp only [packComponents, BitVec.toNat_append]
  rw [← Nat.shiftLeft_add_eq_or_of_lt small, ← Nat.shiftLeft_add_eq_or_of_lt short]
  simp only [Nat.shiftLeft_eq]
  ring

theorem ofBits_packComponents (negative : Bool) (e : BitVec 11) (m : BitVec 52) :
    Parts.ofBits (UInt64.ofBitVec (packComponents Format.binary64 (Parts.sign negative) e m)) =
      if e.toNat = 2047 then if m.toNat = 0 then .infinite negative else .notANumber
      else .finite negative (Binary.ofFields e.toNat m.toNat) := by
  have bit : (Parts.sign negative).toBitVec.toNat < 2 := (Parts.sign negative).toBitVec.isLt
  have same : ((Parts.sign negative).toBitVec.toNat == 1) = negative := by cases negative <;> rfl
  have parts := @Parts.ofBits_fields (UInt64.ofBitVec
    (packComponents Format.binary64 (Parts.sign negative) e m)) _ _ _ bit e.isLt m.isLt
    (packComponents_toNat _ e m)
  rwa [same] at parts

/-- The exponent field of a packed float is the exponent with its bias. -/
theorem pack_finite (s : Sign) (m : Nat) (e : Int) (pos : 0 < m) :
    pack Format.binary64 (.finite s m e pos) =
      if 2047 ≤ (e + 1075).toNat then packedInfinity Format.binary64 s
      else if m.log2 = 52 then
        packComponents Format.binary64 s (BitVec.ofNat 11 (e + 1075).toNat) (BitVec.ofNat 52 m)
      else packComponents Format.binary64 s 0#11 (BitVec.ofNat 52 m) := by
  have biased : e + (Format.binary64.exponentBias : Int)
      + (Format.binary64.mantissaBitsWithoutImplicit : Int) = e + 1075 := by
    simp only [Format.exponentBias]
    norm_num
    ring
  unfold pack
  simp only [biased, Format.mantissaBits]
  have overflow : 2 ^ 11 ≤ (e + 1075).toNat + 1 ↔ 2047 ≤ (e + 1075).toNat := by omega
  have normal : m.log2 + 1 = 1 + 52 ↔ m.log2 = 52 := by omega
  simp only [overflow, normal]

namespace Binary

variable {x : Binary}

/-- Packing a held magnitude and taking the pattern apart gives it back. -/
theorem Held.ofBits_pack (held : x.Held) (negative : Bool) :
    Parts.ofBits (UInt64.ofBitVec (pack Format.binary64 (Parts.finite negative x).unpacked))
      = .finite negative x := by
  obtain ⟨biased, fraction, finite, fits, rfl⟩ := held.fields
  have fraction_eq : (BitVec.ofNat 52 fraction).toNat = fraction := by
    rw [BitVec.toNat_ofNat, Nat.mod_eq_of_lt fits]
  by_cases bottom : biased = 0
  · subst bottom
    by_cases zero : fraction = 0
    · subst zero
      simp only [Parts.unpacked, ofFields, if_true, dif_pos]
      exact ofBits_packComponents negative 0#11 0#52
    · have small : fraction.log2 < 52 := (Nat.log2_lt zero).mpr fits
      simp only [Parts.unpacked, ofFields, if_true, dif_neg zero]
      rw [pack_finite, if_neg (by decide), if_neg (by omega), ofBits_packComponents,
        if_neg (by decide), fraction_eq]
      rfl
  · have normal : (Nat.pow 2 52 + fraction).log2 = 52 := by
      rw [Nat.pow_eq]
      exact (Nat.log2_eq_iff (by omega)).mpr ⟨by omega, by omega⟩
    have exponent : ((biased : Int) - 1075 + 1075).toNat = biased := by omega
    have dropped : (BitVec.ofNat 52 (Nat.pow 2 52 + fraction)).toNat = fraction := by
      rw [BitVec.toNat_ofNat, Nat.pow_eq]
      omega
    have biased_eq : (BitVec.ofNat 11 biased).toNat = biased := by
      rw [BitVec.toNat_ofNat]
      omega
    have some : Nat.pow 2 52 + fraction ≠ 0 := by
      rw [Nat.pow_eq]
      omega
    simp only [Parts.unpacked, ofFields, if_neg bottom, dif_neg some]
    rw [pack_finite, exponent, if_neg (by omega), if_pos normal, ofBits_packComponents, biased_eq,
      dropped, if_neg (by omega), ofFields, if_neg bottom]

end Binary

/-- The fields that the float operations find in a pattern. -/
theorem unpack_fields {bits : UInt64} {s b f : Nat} (one : s < 2) (short : b < 2 ^ 11)
    (fits : f < 2 ^ 52) (pattern : bits.toNat = s * 2 ^ 63 + b * 2 ^ 52 + f) :
    @unpackMantissa Format.binary64 bits.toBitVec = BitVec.ofNat 52 f ∧
      @unpackExponent Format.binary64 bits.toBitVec = BitVec.ofNat 11 b ∧
      Sign.ofBitVec (@unpackSign Format.binary64 bits.toBitVec) = Parts.sign (s == 1) := by
  refine ⟨?_, ?_, ?_⟩
  · apply BitVec.eq_of_toNat_eq
    simp [unpackMantissa]
    omega
  · apply BitVec.eq_of_toNat_eq
    simp [unpackExponent, Nat.shiftRight_eq_div_pow]
    omega
  · have bit : @unpackSign Format.binary64 bits.toBitVec = BitVec.ofNat 1 s := by
      apply BitVec.eq_of_toNat_eq
      simp [unpackSign, Nat.shiftRight_eq_div_pow]
      omega
    rw [bit]
    obtain rfl | rfl : s = 0 ∨ s = 1 := by omega
    · rfl
    · rfl

/-- A number taken apart is the number as the float operations see it. -/
theorem unpack_bits (bits : UInt64) :
    unpack Format.binary64 bits.toBitVec = (Parts.ofBits bits).unpacked := by
  obtain ⟨s, b, f, one, short, fits, pattern⟩ := pattern_fields bits
  rw [Parts.ofBits_fields one short fits pattern]
  obtain ⟨mantissa, exponent, sign⟩ := unpack_fields one short fits pattern
  have top : BitVec.ofNat 11 b = -1#11 ↔ b = 2047 := by
    rw [← BitVec.toNat_inj, BitVec.toNat_ofNat, Nat.mod_eq_of_lt short]
    rfl
  have bottom : BitVec.ofNat 11 b = 0#11 ↔ b = 0 := by
    rw [← BitVec.toNat_inj, BitVec.toNat_ofNat, Nat.mod_eq_of_lt short]
    rfl
  have empty : BitVec.ofNat 52 f = 0#52 ↔ f = 0 := by
    rw [← BitVec.toNat_inj, BitVec.toNat_ofNat, Nat.mod_eq_of_lt fits]
    rfl
  have exponent_eq : (BitVec.ofNat 11 b).toNat = b := by
    rw [BitVec.toNat_ofNat, Nat.mod_eq_of_lt short]
  have mantissa_eq : (BitVec.ofNat 52 f).toNat = f := by
    rw [BitVec.toNat_ofNat, Nat.mod_eq_of_lt fits]
  have implicit : (1#1 ++ BitVec.ofNat 52 f).toNat = 2 ^ 52 + f := by
    rw [BitVec.toNat_append, mantissa_eq, ← Nat.shiftLeft_add_eq_or_of_lt fits]
    rfl
  have bias : (Format.binary64.exponentBias : Int)
      + (Format.binary64.mantissaBitsWithoutImplicit : Int) = 1075 := by
    simp only [Format.exponentBias]
    norm_num
  unfold unpack
  simp only [mantissa, exponent, sign, top, bottom, empty, exponent_eq, mantissa_eq, implicit, bias]
  by_cases full : b = 2047
  · simp only [if_pos full]
    split <;> rfl
  simp only [if_neg full, Parts.unpacked, Binary.ofFields]
  by_cases zero : b = 0
  · subst zero
    simp only [if_true]
    rfl
  · have some : Nat.pow 2 52 + f ≠ 0 := by
      rw [Nat.pow_eq]
      omega
    simp only [if_neg zero, dif_neg some]
    rfl

namespace Parts

theorem unpack_float (x : Float) : x.toModel.unpack = (ofFloat x).unpacked := unpack_bits x.toBits

/-- A number packed from a held magnitude has that magnitude. -/
theorem ofFloat_pack {m : Binary} (held : m.Held) (negative : Bool) :
    ofFloat (.ofModel (.pack (finite negative m).unpacked)) = .finite negative m :=
  held.ofBits_pack negative

/-- Negation changes the sign alone. -/
theorem ofFloat_neg {x : Float} {negative : Bool} {m : Binary}
    (finite : ofFloat x = .finite negative m) : ofFloat (-x) = .finite (!negative) m := by
  have flipped : (Parts.finite negative m).unpacked.neg = (Parts.finite (!negative) m).unpacked := by
    simp only [unpacked]
    split <;> cases negative <;> rfl
  show ofFloat (.ofModel (.pack x.toModel.unpack.neg)) = _
  rw [unpack_float, finite, flipped, ofFloat_pack (finite_held finite)]

end Parts
end LoxLang
