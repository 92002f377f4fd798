import LoxLang.Proofs.Numbers.Values
import LoxLang.Proofs.Scanning.Shapes
/-! Decimal numerals as texts, stated apart from the layouts: how a numeral is read as a decimal
number. Each layout of a decimal is a numeral for the same number. -/
namespace LoxLang

/-! ### Reading a numeral -/

namespace Numeral

/-- The number that a run of digits writes. -/
def natural? (ds : List Char) : Option Nat :=
  if ds ≠ [] ∧ ds.all Char.isDigit then some (Nat.ofDigitChars 10 ds 0) else none

/-- Digits with or without a sign before them. -/
def integer? : List Char → Option ℤ
  | [] => none
  | c :: ds =>
    if c = '-' then (natural? ds).map fun (n : Nat) => -(n : ℤ)
    else if c = '+' then (natural? ds).map fun (n : Nat) => (n : ℤ)
    else (natural? (c :: ds)).map fun (n : Nat) => (n : ℤ)

/-- What may stand behind the digits: nothing, or `e` with an integer. -/
def exponent? : List Char → Option ℤ
  | [] => some 0
  | c :: cs => if c = 'e' ∨ c = 'E' then integer? cs else none

/-- The digits behind a point, if there is a point. -/
def fraction (cs : List Char) : List Char :=
  if cs.head? = some '.' then cs.tail.takeWhile Char.isDigit else []

def behindFraction (cs : List Char) : List Char :=
  if cs.head? = some '.' then cs.tail.dropWhile Char.isDigit else cs

/-- Digits, perhaps a point and more digits, perhaps an exponent. -/
def unsigned? (cs : List Char) : Option Decimal :=
  let whole := cs.takeWhile Char.isDigit
  let rest := cs.dropWhile Char.isDigit
  if whole = [] then none
  else (exponent? (behindFraction rest)).map fun e =>
    ⟨Nat.ofDigitChars 10 (whole ++ fraction rest) 0, e - (fraction rest).length⟩

/-- A numeral with its sign: whether there is a minus, and the number behind it. -/
def read? (cs : List Char) : Option (Bool × Decimal) :=
  if cs.head? = some '-' then (unsigned? cs.tail).map fun d => (true, d)
  else (unsigned? cs).map fun d => (false, d)

/-- No digit goes on. -/
def Ends (cs : List Char) : Prop := ∀ c tail, cs = c :: tail → ¬Digit c

variable {ds es tail : List Char}

theorem span_digits (digits : ∀ d ∈ ds, Digit d) (ends : Ends tail) :
    (ds ++ tail).takeWhile Char.isDigit = ds ∧ (ds ++ tail).dropWhile Char.isDigit = tail := by
  have all : ∀ d ∈ ds, d.isDigit = true := fun d member => (isDigit_iff d).mpr (digits d member)
  rw [List.takeWhile_append_of_pos all, List.dropWhile_append_of_pos all]
  cases tail with
  | nil => simp
  | cons c tail =>
    have stop : c.isDigit = false := by
      rw [← Bool.not_eq_true, isDigit_iff]
      exact ends c tail rfl
    simp [stop]

theorem natural?_digits (some : ds ≠ []) (digits : ∀ d ∈ ds, Digit d) :
    natural? ds = Option.some (Nat.ofDigitChars 10 ds 0) := by
  rw [natural?,
    if_pos ⟨some, List.all_eq_true.mpr fun d member => (isDigit_iff d).mpr (digits d member)⟩]

/-- Digits and an exponent. -/
theorem unsigned?_whole (some : ds ≠ []) (digits : ∀ d ∈ ds, Digit d) (ends : Ends tail)
    (pointless : tail.head? ≠ Option.some '.') :
    unsigned? (ds ++ tail) = (exponent? tail).map fun e => ⟨Nat.ofDigitChars 10 ds 0, e⟩ := by
  obtain ⟨whole, rest⟩ := span_digits digits ends
  simp [unsigned?, whole, rest, some, fraction, behindFraction, pointless]

/-- Digits, a point, digits and an exponent. -/
theorem unsigned?_point (some : ds ≠ []) (digits : ∀ d ∈ ds, Digit d) (places : ∀ d ∈ es, Digit d)
    (ends : Ends tail) :
    unsigned? (ds ++ '.' :: (es ++ tail)) =
      (exponent? tail).map fun e => ⟨Nat.ofDigitChars 10 (ds ++ es) 0, e - es.length⟩ := by
  have point : Ends ('.' :: (es ++ tail)) := by
    rintro c tail' ⟨⟩
    decide
  obtain ⟨whole, rest⟩ := span_digits digits point
  obtain ⟨inner, behind⟩ := span_digits places ends
  simp [unsigned?, whole, rest, some, fraction, behindFraction, inner, behind]

theorem read?_signed {c : Char} {cs : List Char} (digit : Digit c) (negative : Bool) :
    read? (signed negative (c :: cs)) = (unsigned? (c :: cs)).map fun d => (negative, d) := by
  cases negative with
  | true => rfl
  | false =>
    have other : c ≠ '-' := by
      rintro rfl
      exact absurd digit (by decide)
    simp [read?, signed, other]

end Numeral

/-! ### The layouts -/

/-- One digit, a point, at least one digit, `E` and the exponent. -/
def Decimal.scientific (d : Decimal) : List Char :=
  match digitChars d.digits with
  | [] => []
  | c :: rest => c :: '.' :: ((if rest.isEmpty then ['0'] else rest) ++ 'E' :: intChars d.order)

theorem digitChars_digits (n : Nat) : ∀ c ∈ Decimal.digitChars n, Digit c := fun c member =>
  (isDigit_iff c).mp (Nat.isDigit_of_mem_toDigits (by decide) (by decide) member)

theorem digitChars_value (n : Nat) : Nat.ofDigitChars 10 (Decimal.digitChars n) 0 = n :=
  Nat.ofDigitChars_toDigits (by decide) (by decide)

theorem digitChars_ne_nil (n : Nat) : Decimal.digitChars n ≠ [] := Nat.toDigits_ne_nil

theorem zeros_digits (n : Nat) : ∀ c ∈ List.replicate n '0', Digit c := by
  intro c member
  rw [List.eq_of_mem_replicate member]
  decide

/-- Digits with zeros behind them. -/
theorem padded_digits (m n : Nat) : ∀ c ∈ Decimal.digitChars m ++ List.replicate n '0', Digit c :=
  fun c member => (List.mem_append.mp member).elim (digitChars_digits _ c) (zeros_digits _ c)

theorem padded_value (m n : Nat) :
    Nat.ofDigitChars 10 (Decimal.digitChars m ++ List.replicate n '0') 0 = 10 ^ n * m := by
  rw [Nat.ofDigitChars_append, digitChars_value, Nat.ofDigitChars_replicate_zero]

/-- Digits with zeros in front of them. -/
theorem led_digits (m n : Nat) : ∀ c ∈ List.replicate n '0' ++ Decimal.digitChars m, Digit c :=
  fun c member => (List.mem_append.mp member).elim (zeros_digits _ c) (digitChars_digits _ c)

theorem led_value (m n : Nat) :
    Nat.ofDigitChars 10 (List.replicate n '0' ++ Decimal.digitChars m) 0 = m := by
  rw [Nat.ofDigitChars_append, Nat.ofDigitChars_replicate_zero, Nat.mul_zero, digitChars_value]

namespace Numeral

/-- A layout of digits writes the number. -/
def Writes (cs : List Char) (d : Decimal) : Prop := ∃ d', unsigned? cs = some d' ∧ d'.value = d.value

theorem ends_nil : Ends [] := by rintro _ _ ⟨⟩

theorem writes_whole (ds : List Char) {tail : List Char} {e : ℤ} {d : Decimal} (some : ds ≠ [])
    (digits : ∀ c ∈ ds, Digit c) (ends : Ends tail) (pointless : tail.head? ≠ Option.some '.')
    (exponent : exponent? tail = Option.some e)
    (same : (Nat.ofDigitChars 10 ds 0 : ℚ) * 10 ^ e = d.value) : Writes (ds ++ tail) d :=
  ⟨⟨Nat.ofDigitChars 10 ds 0, e⟩,
    by rw [unsigned?_whole some digits ends pointless, exponent, Option.map_some], same⟩

theorem writes_point (ds es : List Char) {tail : List Char} {e : ℤ} {d : Decimal} (some : ds ≠ [])
    (digits : ∀ c ∈ ds, Digit c) (places : ∀ c ∈ es, Digit c) (ends : Ends tail)
    (exponent : exponent? tail = Option.some e)
    (same : (Nat.ofDigitChars 10 (ds ++ es) 0 : ℚ) * 10 ^ (e - es.length) = d.value) :
    Writes (ds ++ '.' :: (es ++ tail)) d :=
  ⟨⟨Nat.ofDigitChars 10 (ds ++ es) 0, e - es.length⟩,
    by rw [unsigned?_point some digits places ends, exponent, Option.map_some], same⟩

theorem integer?_intChars (i : ℤ) : integer? (Decimal.intChars i) = some i := by
  have read := natural?_digits (digitChars_ne_nil i.natAbs) (digitChars_digits i.natAbs)
  rw [digitChars_value] at read
  unfold Decimal.intChars
  split
  · simp only [integer?, if_true, read, Option.map_some, Option.some.injEq]
    omega
  · obtain ⟨c, ds, cons⟩ := List.exists_cons_of_ne_nil (digitChars_ne_nil i.natAbs)
    have digit := digitChars_digits i.natAbs c (by simp [cons])
    have minus : c ≠ '-' := by
      rintro rfl
      exact absurd digit (by decide)
    have plus : c ≠ '+' := by
      rintro rfl
      exact absurd digit (by decide)
    rw [cons] at read ⊢
    simp only [integer?, minus, plus, if_false, read, Option.map_some, Option.some.injEq]
    omega

/-- The sign of an exponent and its digits, with zeros before them or without. -/
theorem integer?_padded (i : ℤ) (n : Nat) : integer? ((if i < 0 then '-' else '+') ::
    (List.replicate n '0' ++ Decimal.digitChars i.natAbs)) = some i := by
  have read : natural? (List.replicate n '0' ++ Decimal.digitChars i.natAbs) = some i.natAbs := by
    rw [natural?_digits (by simp [digitChars_ne_nil]) (led_digits _ n), led_value]
  split
  · simp only [integer?, if_true, read, Option.map_some, Option.some.injEq]
    omega
  · have other : ('+' : Char) ≠ '-' := by decide
    simp only [integer?, other, if_false, if_true, read, Option.map_some, Option.some.injEq]
    omega

end Numeral

namespace Decimal

open Numeral

variable (d : Decimal)

theorem positional_writes : Writes d.positional d := by
  unfold positional
  dsimp only
  split
  next up =>
    have writes := writes_whole (d := d) (e := 0) _ (by simp [digitChars_ne_nil])
      (padded_digits d.digits d.exponent.toNat) ends_nil (by simp) rfl ?_
    · rwa [List.append_nil] at writes
    · rw [padded_value, value]
      push_cast
      rw [mul_one, mul_comm, ← zpow_natCast, Int.toNat_of_nonneg up]
  next down =>
    have place : ((-d.exponent).toNat : ℤ) = -d.exponent := by omega
    split
    next inside =>
      set n := (digitChars d.digits).length - (-d.exponent).toNat with cut
      have some : (digitChars d.digits).take n ≠ [] := by
        simp only [ne_eq, List.take_eq_nil_iff, digitChars_ne_nil, or_false]
        omega
      have writes := writes_point (d := d) (e := 0) _ ((digitChars d.digits).drop n) some
        (fun c member => digitChars_digits _ c (List.mem_of_mem_take member))
        (fun c member => digitChars_digits _ c (List.mem_of_mem_drop member)) ends_nil rfl ?_
      · rwa [List.append_nil] at writes
      · rw [List.take_append_drop, digitChars_value, List.length_drop, value]
        congr 2
        omega
    next outside =>
      have writes := writes_point (d := d) (e := 0) ['0'] _ (by simp) (by simp; decide)
        (led_digits d.digits ((-d.exponent).toNat - (digitChars d.digits).length)) ends_nil rfl ?_
      · rwa [List.append_nil] at writes
      · rw [Nat.ofDigitChars_append, Nat.ofDigitChars_cons, Nat.ofDigitChars_nil, Nat.mul_zero,
          Nat.sub_self, Nat.add_zero, led_value, value, List.length_append, List.length_replicate]
        congr 2
        omega

theorem positionalWithPoint_writes : Writes d.positionalWithPoint d := by
  unfold positionalWithPoint
  split
  next up =>
    have writes := writes_point (d := d) (e := 0) _ ['0'] (by simp [digitChars_ne_nil])
      (padded_digits d.digits d.exponent.toNat) (by simp; decide) ends_nil rfl ?_
    · rw [List.append_nil] at writes
      rwa [positional, if_pos up]
    · rw [Nat.ofDigitChars_append, padded_value, Nat.ofDigitChars_cons, Nat.ofDigitChars_nil, value]
      simp only [Nat.sub_self, Nat.add_zero, List.length_singleton]
      push_cast
      rw [← zpow_natCast, Int.toNat_of_nonneg up]
      ring
  next down => exact positional_writes d

/-- The first digit and those behind it. -/
theorem digitChars_cons (n : Nat) : ∃ c rest, digitChars n = c :: rest ∧ Digit c ∧
    (∀ e ∈ rest, Digit e) ∧ Nat.ofDigitChars 10 (c :: rest) 0 = n := by
  obtain ⟨c, rest, cons⟩ := List.exists_cons_of_ne_nil (digitChars_ne_nil n)
  have digits := digitChars_digits n
  have same := digitChars_value n
  rw [cons] at digits same
  exact ⟨c, rest, cons, digits c (by simp), fun e member => digits e (by simp [member]), same⟩

theorem ends_exponent {c : Char} (letter : c = 'e' ∨ c = 'E') (tail : List Char) :
    Ends (c :: tail) := by
  rintro d rest ⟨⟩
  rcases letter with rfl | rfl <;> decide

theorem exponent?_letter {c : Char} (letter : c = 'e' ∨ c = 'E') (tail : List Char) :
    exponent? (c :: tail) = integer? tail := by
  rw [exponent?, if_pos letter]

theorem order_cons {c : Char} {rest : List Char} (cons : digitChars d.digits = c :: rest) :
    d.order = d.exponent + rest.length := by
  rw [order, cons, List.length_cons]
  push_cast
  ring

theorem scientific_writes : Writes d.scientific d := by
  obtain ⟨c, rest, cons, digit, digits, same⟩ := digitChars_cons d.digits
  have order := order_cons d cons
  have exponent : exponent? ('E' :: intChars d.order) = some d.order := by
    rw [exponent?_letter (.inr rfl), integer?_intChars]
  have ends := ends_exponent (.inr rfl) (intChars d.order)
  rw [scientific, cons]
  cases rest with
  | nil =>
    refine writes_point [c] ['0'] (by simp) (by simpa using digit) (by simp; decide)
      ends exponent ?_
    rw [Nat.ofDigitChars_append, same, Nat.ofDigitChars_cons, Nat.ofDigitChars_nil, value, order]
    simp only [List.length_nil, List.length_singleton, Nat.sub_self, Nat.cast_zero, add_zero,
      Nat.cast_one]
    rw [zpow_sub₀ (by norm_num)]
    push_cast
    field_simp
  | cons e rest =>
    refine writes_point [c] (e :: rest) (by simp) (by simpa using digit) digits
      ends exponent ?_
    rw [List.singleton_append, same, value, order]
    congr 2
    omega

theorem signedExponent_writes : Writes d.signedExponent d := by
  obtain ⟨c, rest, cons, digit, digits, same⟩ := digitChars_cons d.digits
  have order := order_cons d cons
  obtain ⟨n, padded⟩ : ∃ n, (if (digitChars d.order.natAbs).length < 2
      then '0' :: digitChars d.order.natAbs else digitChars d.order.natAbs)
        = List.replicate n '0' ++ digitChars d.order.natAbs := by
    split
    · exact ⟨1, rfl⟩
    · exact ⟨0, rfl⟩
  simp only [signedExponent, padded, cons]
  set tail := 'e' :: (if d.order < 0 then '-' else '+') ::
    (List.replicate n '0' ++ digitChars d.order.natAbs) with written
  have exponent : exponent? tail = some d.order := by
    rw [written, exponent?_letter (.inl rfl), integer?_padded]
  have ends : Ends tail := ends_exponent (.inl rfl) _
  cases rest with
  | nil =>
    refine writes_whole [c] (by simp) (by simpa using digit) ends (by simp [written]) exponent ?_
    rw [same, value, order]
    simp
  | cons e rest =>
    refine writes_point [c] (e :: rest) (by simp) (by simpa using digit) digits
      ends exponent ?_
    rw [List.singleton_append, same, value, order]
    congr 2
    omega

end Decimal
namespace Numeral

variable {cs : List Char} {d : Decimal}

theorem Writes.head (writes : Writes cs d) : ∃ c tail, cs = c :: tail ∧ Digit c := by
  obtain ⟨d', read, -⟩ := writes
  cases cs with
  | nil => simp [unsigned?] at read
  | cons c tail =>
    refine ⟨c, tail, rfl, ?_⟩
    by_contra other
    rw [← isDigit_iff, Bool.not_eq_true] at other
    simp [unsigned?, other] at read

/-- With its sign before it, a layout is read as the number with that sign. -/
theorem Writes.signed (writes : Writes cs d) (negative : Bool) :
    ∃ d', read? (signed negative cs) = some (negative, d') ∧ d'.value = d.value := by
  obtain ⟨c, tail, rfl, digit⟩ := writes.head
  obtain ⟨d', read, same⟩ := writes
  exact ⟨d', by rw [read?_signed digit, read, Option.map_some], same⟩

end Numeral

/-! ### Shapes -/

/-- Digits with an optional point and fraction, which is not just a zero. -/
inductive PlainText : List Char → Prop
  | whole {ds : List Char} : ds ≠ [] → (∀ c ∈ ds, Digit c) → PlainText ds
  | point {ds es : List Char} : ds ≠ [] → (∀ c ∈ ds, Digit c) → es ≠ [] → (∀ c ∈ es, Digit c) →
    es ≠ ['0'] → PlainText (ds ++ '.' :: es)

/-- An integer without plus sign and leading zeros. -/
inductive IntegerText : List Char → Prop
  | zero : IntegerText ['0']
  | signed {c : Char} {ds : List Char} (negative : Bool) : Digit c → c ≠ '0' → (∀ c ∈ ds, Digit c) →
    IntegerText (signed negative (c :: ds))

/-- One digit other than zero, a point, digits of which the last is a zero only if it is alone,
and the exponent. -/
inductive ScientificText : List Char → Prop
  | mk {c : Char} {ds es : List Char} : Digit c → c ≠ '0' → ds ≠ [] → (∀ c ∈ ds, Digit c) →
    (ds.getLast? = some '0' → ds = ['0']) → IntegerText es →
    ScientificText (c :: '.' :: (ds ++ 'E' :: es))

theorem not_digit_E : ¬Digit 'E' := by decide

theorem PlainText.not_mem {cs : List Char} (plain : PlainText cs) : 'E' ∉ cs := by
  cases plain with
  | whole some digits => exact fun member => not_digit_E (digits _ member)
  | point some digits more places other =>
    intro member
    simp only [List.mem_append, List.mem_cons] at member
    rcases member with member | point | member
    · exact not_digit_E (digits _ member)
    · exact absurd point (by decide)
    · exact not_digit_E (places _ member)

/-- No text has both shapes. -/
theorem ScientificText.not_plain {cs : List Char} (scientific : ScientificText cs) :
    ¬PlainText cs := by
  intro plain
  cases scientific
  exact plain.not_mem (by simp)

theorem digitChars_last (n : Nat) :
    (Decimal.digitChars n).getLast? = some (Nat.digitChar (n % 10)) := by
  rw [Decimal.digitChars, Nat.toDigits_eq_if (by decide)]
  split
  next small => rw [Nat.mod_eq_of_lt small, List.getLast?_singleton]
  next large => rw [List.getLast?_append, List.getLast?_singleton, Option.some_or]

theorem digitChars_last_ne {n : Nat} (some : n % 10 ≠ 0) :
    (Decimal.digitChars n).getLast? ≠ Option.some '0' := by
  rw [digitChars_last]
  simpa using some

theorem digitChars_first_ne {n : Nat} (some : n ≠ 0) :
    (Decimal.digitChars n).head? ≠ Option.some '0' := by
  induction n using Nat.strongRecOn with
  | ind n ih =>
    rw [Decimal.digitChars, Nat.toDigits_eq_if (by decide)]
    split
    next small => simpa using some
    next large =>
      have before := ih (n / 10) (by omega) (by omega)
      have more : Nat.toDigits 10 (n / 10) ≠ [] := Nat.toDigits_ne_nil
      rwa [List.head?_append_of_ne_nil _ more]

namespace Decimal

variable {d : Decimal}

theorem intChars_text (i : ℤ) : IntegerText (intChars i) := by
  by_cases zero : i = 0
  · subst zero
    exact .zero
  obtain ⟨c, rest, cons, digit, digits, -⟩ := digitChars_cons i.natAbs
  have first := digitChars_first_ne (n := i.natAbs) (by omega)
  rw [cons] at first
  have shape := IntegerText.signed (decide (i < 0)) digit (by simpa using first) digits
  rw [← cons] at shape
  simpa [intChars, signed] using shape

/-- A decimal without trailing zeros is laid out without a trailing `.0`. -/
theorem positional_plain (stripped : d.exponent < 0 → d.digits % 10 ≠ 0) :
    PlainText d.positional := by
  unfold positional
  dsimp only
  split
  next up =>
    exact .whole (by simp [digitChars_ne_nil]) fun c member =>
      (List.mem_append.mp member).elim (digitChars_digits _ c) (zeros_digits _ c)
  next down =>
    have last := digitChars_last_ne (stripped (by omega))
    split
    next inside =>
      have cut :
          (digitChars d.digits).length - (-d.exponent).toNat < (digitChars d.digits).length := by
        omega
      refine .point ?_ (fun c member => digitChars_digits _ c (List.mem_of_mem_take member)) ?_
        (fun c member => digitChars_digits _ c (List.mem_of_mem_drop member)) ?_
      · simp only [ne_eq, List.take_eq_nil_iff, digitChars_ne_nil, or_false]
        omega
      · simpa using cut
      · intro zero
        have same := List.getLast?_drop (l := digitChars d.digits)
          (i := (digitChars d.digits).length - (-d.exponent).toNat)
        rw [zero, if_neg (by omega)] at same
        exact last same.symm
    next outside =>
      have zero : ∀ c ∈ ['0'], Digit c := by simp; decide
      refine PlainText.point (by simp) zero (by simp [digitChars_ne_nil]) (fun c member =>
        (List.mem_append.mp member).elim (zeros_digits _ c) (digitChars_digits _ c)) ?_
      intro zero
      have same := congrArg List.getLast? zero
      rw [List.getLast?_append_of_ne_nil _ (digitChars_ne_nil _)] at same
      exact last same

theorem scientific_text (stripped : d.digits % 10 ≠ 0) : ScientificText d.scientific := by
  obtain ⟨c, rest, cons, digit, digits, -⟩ := digitChars_cons d.digits
  have first := digitChars_first_ne (n := d.digits) (by omega)
  have last := digitChars_last_ne stripped
  rw [cons] at first last
  rw [scientific, cons]
  cases rest with
  | nil =>
    exact .mk digit (by simpa using first) (by simp) (by simp; decide) (fun _ => rfl) (intChars_text _)
  | cons e rest =>
    refine .mk digit (by simpa using first) (by simp) digits (fun zero => ?_) (intChars_text _)
    rw [List.getLast?_cons_cons] at last
    exact absurd zero last

end Decimal
end LoxLang
