import LoxLang.Proofs.Numbers.Display
import LoxLang.Value
/-! When two numbers are the same: if neither is one, or if they compare equal and have the same
sign. It is so just if they are displayed alike. -/
namespace LoxLang

/-- The sign of a number, also of a zero or an infinity. -/
def signBit (x : Float) : Bool := decide (2 ^ 63 ≤ x.toBits.toNat)

/-- A magnitude is determined by significand and exponent. -/
theorem Binary.Held.eq_of {m n : Binary} (held : m.Held) (held' : n.Held)
    (significand : m.significand = n.significand) (exponent : m.exponent = n.exponent) : m = n := by
  have narrow : m.narrowBelow = n.narrowBelow := by
    rw [Bool.eq_iff_iff, held.narrow, held'.narrow, significand, exponent]
  cases m
  cases n
  simp_all only

namespace Parts
variable {x y : Float} {negative negative' : Bool} {m n : Binary}

/-- The sign of what is a number. -/
def negative? : Parts → Option Bool
  | notANumber => none
  | infinite negative | finite negative _ => some negative

theorem signBit_eq (signed : (ofFloat x).negative? = some negative) : signBit x = negative := by
  rw [ofFloat, ofBits] at signed
  split at signed
  · split at signed
    · exact Option.some.inj signed
    · cases signed
  · exact Option.some.inj signed

theorem isNaN_eq (x : Float) : x.isNaN = decide (ofFloat x = notANumber) := by
  show x.toModel.unpack.isNaN = _
  rw [unpack_float]
  cases ofFloat x with
  | notANumber => rfl
  | infinite negative => rfl
  | finite negative m =>
      rw [unpacked]
      split <;> rfl

theorem beq_eq (x y : Float) : (x == y) = (ofFloat x).unpacked.beq (ofFloat y).unpacked := by
  rw [← unpack_float, ← unpack_float]
  rfl

/-- Infinities compare by their signs. -/
theorem infinite_beq :
    (infinite negative).unpacked.beq (infinite negative').unpacked = (negative == negative') := by
  cases negative <;> cases negative' <;> rfl

theorem infinite_beq_finite :
    (infinite negative).unpacked.beq (finite negative' m).unpacked = false := by
  rw [unpacked, unpacked]
  split <;> cases negative <;> rfl

theorem finite_beq_infinite :
    (finite negative m).unpacked.beq (infinite negative').unpacked = false := by
  rw [unpacked, unpacked]
  split <;> cases negative' <;> rfl

/-- Finite numbers compare by magnitude and sign, and the sign of a zero does not count. -/
theorem finite_beq (held : m.Held) (held' : n.Held) :
    (finite negative m).unpacked.beq (finite negative' n).unpacked =
      decide (m = n ∧ (negative = negative' ∨ m.significand = 0)) := by
  have apart (other : m.significand ≠ n.significand) : m ≠ n := fun same => other (same ▸ rfl)
  by_cases none : m.significand = 0
  · by_cases none' : n.significand = 0
    · have same : m = n := (held.eq_zero none).trans (held'.eq_zero none').symm
      simp only [unpacked, none', same, true_and, or_true, decide_true, dite_true]
      rfl
    · have other : m ≠ n := apart (none ▸ Ne.symm none')
      simp only [unpacked, none, none', other, false_and, decide_false, dite_true, dite_false]
      cases negative' <;> rfl
  · by_cases none' : n.significand = 0
    · have other : m ≠ n := apart (none' ▸ none)
      simp only [unpacked, none, none', other, false_and, decide_false, dite_true, dite_false]
      cases negative <;> rfl
    · have sized : m = n ↔ m.exponent = n.exponent ∧ m.significand = n.significand :=
        ⟨fun same => same ▸ ⟨rfl, rfl⟩, fun both => held.eq_of held' both.2 both.1⟩
      rw [unpacked_some none, unpacked_some none', Bool.eq_iff_iff, decide_eq_true_eq, sized]
      cases negative <;> cases negative' <;>
        simp [none, sign, Float.Model.UnpackedFloat.beq, Float.Model.UnpackedFloat.compare,
          Ordering.then_eq_eq]

/-- What is no number compares equal to nothing. -/
theorem notANumber_beq (p : Parts) : notANumber.unpacked.beq p.unpacked = false := rfl

theorem beq_notANumber (p : Parts) : p.unpacked.beq notANumber.unpacked = false := by
  show p.unpacked.beq .notANumber = false
  cases p.unpacked <;> rfl

/-- Numbers are taken apart alike if neither is one, or if they compare equal and have one sign. -/
theorem ofFloat_eq_iff (x y : Float) : ofFloat x = ofFloat y ↔
    x.isNaN = true ∧ y.isNaN = true ∨ (x == y) = true ∧ signBit x = signBit y := by
  rw [isNaN_eq, isNaN_eq, beq_eq, decide_eq_true_eq, decide_eq_true_eq]
  have sign {z : Float} {p : Parts} {b : Bool} (apart : ofFloat z = p)
      (signed : p.negative? = some b) : signBit z = b := signBit_eq (apart ▸ signed)
  cases left : ofFloat x with
  | notANumber => simp [notANumber_beq, eq_comm]
  | infinite s =>
      cases right : ofFloat y with
      | notANumber => simp [beq_notANumber]
      | infinite t => simp [infinite_beq, sign left rfl, sign right rfl]
      | finite t n => simp [infinite_beq_finite]
  | finite s m =>
      cases right : ofFloat y with
      | notANumber => simp [beq_notANumber]
      | infinite t => simp [finite_beq_infinite]
      | finite t n =>
          rw [finite_beq (finite_held left) (finite_held right), sign left rfl, sign right rfl]
          simp only [finite.injEq, reduceCtorEq, false_and, false_or, decide_eq_true_eq]
          constructor
          · rintro ⟨signs, sizes⟩
            exact ⟨⟨sizes, .inl signs⟩, signs⟩
          · rintro ⟨⟨sizes, -⟩, signs⟩
            exact ⟨signs, sizes⟩

/-- What a display tells of a number: a numeral is read, and a word stands for one of the others. -/
def read? (cs : List Char) : Option Parts :=
  ((Numeral.float? cs).map ofFloat).or
    ([notANumber, infinite false, infinite true].find? fun p => p.display = cs)

theorem read?_display (x : Float) : read? (ofFloat x).display = some (ofFloat x) := by
  cases parts : ofFloat x with
  | notANumber => decide
  | infinite negative => cases negative <;> decide
  | finite negative m =>
      obtain ⟨cs, display, writes, -⟩ := display_text negative m
      rw [read?, display, Numeral.float?_signed parts writes, Option.map_some, Option.some_or, parts]

/-- The display tells apart what is taken apart differently. -/
theorem display_eq_iff (x y : Float) :
    displayNumber x = displayNumber y ↔ ofFloat x = ofFloat y := by
  refine ⟨fun same => ?_, fun same => by rw [displayNumber, same, displayNumber]⟩
  have texts : (ofFloat x).display = (ofFloat y).display := String.ofList_injective same
  have read := congrArg read? texts
  rwa [read?_display, read?_display, Option.some.injEq] at read

end Parts
end LoxLang
