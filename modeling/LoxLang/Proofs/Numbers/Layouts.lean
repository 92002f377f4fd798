import LoxLang.Proofs.Numbers.Texts
import LoxLang.Proofs.Scanning.Cutting
/-! The display form of a number as a layout of its shortest digits. Programs print a number by
taking its token form apart: for a plain magnitude the `.0` is dropped, for the others the digits
and the exponent are read off and laid out again. Both come to the shortest digits, whatever layout
they were read from, because these have no zero at their end. -/
namespace LoxLang

/-! ### Digits and magnitudes -/

theorem digitChars_ten {n : Nat} (some : n ≠ 0) :
    Decimal.digitChars (10 * n) = Decimal.digitChars n ++ ['0'] :=
  (Nat.toDigits_append_toDigits (by decide) (Nat.pos_of_ne_zero some) (by decide : 0 < 10)).symm

theorem digitChars_pow {n : Nat} (some : n ≠ 0) (k : Nat) :
    Decimal.digitChars (10 ^ k * n) = Decimal.digitChars n ++ List.replicate k '0' := by
  induction k with
  | zero => simp
  | succ k ih =>
      have more : 10 ^ k * n ≠ 0 := Nat.mul_ne_zero (by positivity) some
      rw [Nat.pow_succ', Nat.mul_assoc, digitChars_ten more, ih, List.append_assoc,
        ← List.replicate_succ']

theorem digitChars_length {n : Nat} (some : n ≠ 0) :
    10 ^ ((Decimal.digitChars n).length - 1) ≤ n ∧ n < 10 ^ (Decimal.digitChars n).length := by
  induction n using Nat.strongRecOn with
  | ind n ih =>
    rw [Decimal.digitChars, Nat.toDigits_eq_if (by decide)]
    split
    next small => simp only [List.length_singleton, Nat.sub_self]; omega
    next large =>
      obtain ⟨least, most⟩ := ih (n / 10) (by omega) (by omega)
      obtain ⟨l, length⟩ := Nat.exists_eq_succ_of_ne_zero
        (List.length_pos_iff.mpr (digitChars_ne_nil (n / 10))).ne'
      rw [Decimal.digitChars] at least most length
      rw [length] at least most
      simp only [List.length_append, List.length_singleton, length, Nat.succ_sub_one,
        Nat.pow_succ] at least most ⊢
      omega

namespace Decimal
variable {d d' : Decimal}

/-- The first digit stands for the order of the number. -/
theorem order_bounds (some : d.digits ≠ 0) :
    (10 : ℚ) ^ d.order ≤ d.value ∧ d.value < (10 : ℚ) ^ (d.order + 1) := by
  obtain ⟨least, most⟩ := digitChars_length some
  have length := List.length_pos_iff.mpr (digitChars_ne_nil d.digits)
  have power : (0 : ℚ) < 10 ^ d.exponent := by positivity
  have low : d.order = ((digitChars d.digits).length - 1 : Nat) + d.exponent := by
    rw [order]
    omega
  have high : d.order + 1 = ((digitChars d.digits).length : Nat) + d.exponent := by
    rw [order]
    omega
  rw [high, low, zpow_add₀ (by norm_num), zpow_add₀ (by norm_num), zpow_natCast, zpow_natCast, value]
  constructor
  · exact mul_le_mul_of_nonneg_right (by exact_mod_cast least) power.le
  · exact mul_lt_mul_of_pos_right (by exact_mod_cast most) power

/-- A decimal of the value of one without trailing zeros has more of these. -/
theorem eq_of_value (same : d'.value = d.value) (stripped : d.digits % 10 ≠ 0) :
    ∃ k : Nat, d'.digits = 10 ^ k * d.digits ∧ d'.exponent = d.exponent - k := by
  have scaled {a b : Decimal} (same : a.value = b.value) {k : Nat}
      (lower : a.exponent = b.exponent - k) : a.digits = 10 ^ k * b.digits := by
    have power : (10 : ℚ) ^ b.exponent = 10 ^ k * 10 ^ a.exponent := by
      rw [← zpow_natCast, ← zpow_add₀ (by norm_num), lower]
      congr 1
      omega
    rw [value, value, power, mul_left_comm, ← mul_assoc,
      mul_left_inj' (zpow_ne_zero _ (by norm_num))] at same
    exact_mod_cast same
  rcases le_or_gt d'.exponent d.exponent with lower | higher
  · refine ⟨(d.exponent - d'.exponent).toNat, scaled same ?_, ?_⟩ <;> omega
  · obtain ⟨k, up⟩ : ∃ k : Nat, d.exponent = d'.exponent - (k + 1 : Nat) :=
      ⟨(d'.exponent - d.exponent).toNat - 1, by omega⟩
    refine absurd ?_ stripped
    rw [scaled same.symm up, Nat.pow_succ', Nat.mul_assoc, Nat.mul_mod_right]

end Decimal

/-! ### Reading a text -/

namespace Numeral
variable {cs : List Char} {d : Decimal}

/-- What is read is digits, perhaps with a point among them, and perhaps an exponent. -/
theorem unsigned?_shape (read : unsigned? cs = some d) : ∃ ds es tail e, ds ≠ [] ∧
    (∀ c ∈ ds, Digit c) ∧ (∀ c ∈ es, Digit c) ∧
    (cs = ds ++ tail ∧ es = [] ∨ cs = ds ++ '.' :: (es ++ tail)) ∧ exponent? tail = some e ∧
    d = ⟨Nat.ofDigitChars 10 (ds ++ es) 0, e - es.length⟩ := by
  have digits (ts : List Char) : ∀ c ∈ ts.takeWhile Char.isDigit, Digit c := fun c member =>
    (isDigit_iff c).mp (Scan.mem_takeWhile member)
  simp only [unsigned?] at read
  split at read
  · cases read
  next begins =>
    obtain ⟨e, exponent, rfl⟩ := Option.map_eq_some_iff.mp read
    refine ⟨_, fraction (cs.dropWhile Char.isDigit), _, e, begins, digits cs, ?_, ?_, exponent, rfl⟩
    · unfold fraction
      split
      · exact digits _
      · simp
    · have whole := List.takeWhile_append_dropWhile (p := Char.isDigit) (l := cs)
      unfold fraction behindFraction
      cases rest : cs.dropWhile Char.isDigit with
      | nil => exact .inl ⟨by simpa [rest] using whole.symm, by simp⟩
      | cons c tail =>
          rw [rest] at whole
          by_cases point : c = '.'
          · refine .inr ?_
            simp only [point, List.head?_cons, if_true, List.tail_cons,
              List.takeWhile_append_dropWhile]
            exact point ▸ whole.symm
          · exact .inl ⟨by simpa [point] using whole.symm, by simp [point]⟩

theorem natural?_value {ds : List Char} {n : Nat} (read : natural? ds = some n) :
    Nat.ofDigitChars 10 ds 0 = n := by
  unfold natural? at read
  split at read
  · exact Option.some.inj read
  · cases read

/-- An exponent behind its mark. -/
theorem exponent?_read {tail : List Char} {e : ℤ} (read : exponent? tail = some e) :
    (∀ c ∈ tail.head?, DecimalTuple.isExponentMark c = true) ∧
      DecimalTuple.exponentOf tail = e := by
  cases tail with
  | nil => exact ⟨by simp, Option.some.inj read⟩
  | cons mark cs =>
    simp only [exponent?] at read
    split at read
    next marks =>
      refine ⟨by simpa [DecimalTuple.isExponentMark] using marks, ?_⟩
      cases cs with
      | nil => cases read
      | cons c ds =>
        simp only [integer?] at read
        split at read
        next minus =>
          obtain ⟨n, digits, rfl⟩ := Option.map_eq_some_iff.mp read
          rw [minus, DecimalTuple.exponentOf, natural?_value digits]
        split at read
        next plus =>
          obtain ⟨n, digits, rfl⟩ := Option.map_eq_some_iff.mp read
          rw [plus, DecimalTuple.exponentOf, natural?_value digits]
        next minus plus =>
          obtain ⟨n, digits, rfl⟩ := Option.map_eq_some_iff.mp read
          rw [DecimalTuple.exponentOf, natural?_value digits]
          · simpa using minus
          · simpa using plus
    · cases read

end Numeral

namespace DecimalTuple
variable {cs : List Char} {d d' : Decimal}

/-- A run of characters and what goes on with another one. -/
theorem span_run {p : Char → Bool} (cs tail : List Char) (run : ∀ c ∈ cs, p c = true)
    (ends : ∀ c ∈ tail.head?, p c = false) :
    (cs ++ tail).takeWhile p = cs ∧ (cs ++ tail).dropWhile p = tail := by
  rw [List.takeWhile_append_of_pos run, List.dropWhile_append_of_pos run]
  cases tail with
  | nil => simp
  | cons c tail => simp [ends c rfl]

theorem digit_no_mark {c : Char} (digit : Digit c) : (!isExponentMark c) = true := by
  rw [Bool.not_eq_true', isExponentMark, Bool.or_eq_false_iff]
  constructor <;> refine decide_eq_false ?_ <;> rintro rfl <;> exact absurd digit (by decide)

theorem digit_no_point {c : Char} (digit : Digit c) : decide (c ≠ '.') = true := by
  refine decide_eq_true ?_
  rintro rfl
  exact absurd digit (by decide)

/-- The tuple of a text has the number that is read off it. -/
theorem ofText_signed (read : Numeral.unsigned? cs = some d) (negative : Bool) :
    ofText (signed negative cs) = ⟨negative, Decimal.digitChars d.digits, d.exponent⟩ := by
  obtain ⟨ds, es, tail, e, some, digits, places, shape, exponent, rfl⟩ :=
    Numeral.unsigned?_shape read
  obtain ⟨marks, exponentOf⟩ := Numeral.exponent?_read exponent
  have ends : ∀ c ∈ tail.head?, (!isExponentMark c) = false := fun c head => by
    rw [marks c head, Bool.not_true]
  obtain ⟨c, cs, rfl, digit⟩ : ∃ c rest, cs = c :: rest ∧ Digit c := by
    obtain ⟨c, rest, rfl⟩ := List.exists_cons_of_ne_nil some
    rcases shape with ⟨same, -⟩ | same <;> exact ⟨c, _, same, digits c List.mem_cons_self⟩
  have unsigned : (if (signed negative (c :: cs)).head? = Option.some '-' then
      (signed negative (c :: cs)).tail else signed negative (c :: cs)) = c :: cs ∧
      decide ((signed negative (c :: cs)).head? = Option.some '-') = negative := by
    have other : c ≠ '-' := by
      rintro rfl
      exact absurd digit (by decide)
    cases negative <;> simp [signed, other]
  simp only [ofText, unsigned.1, unsigned.2, DecimalTuple.mk.injEq, true_and]
  rcases shape with ⟨same, rfl⟩ | same
  · obtain ⟨mantissa, behind⟩ := span_run ds tail (fun c member => digit_no_mark (digits c member)) ends
    obtain ⟨whole, rest⟩ := span_run ds [] (fun c member => digit_no_point (digits c member))
      (by simp)
    rw [List.append_nil] at whole rest
    simp only [same, mantissa, behind, whole, rest, exponentOf, List.tail_nil, and_self]
  · have run : ∀ c ∈ ds ++ '.' :: es, (!isExponentMark c) = true := fun c member => by
      rcases List.mem_append.mp member with inside | inside
      · exact digit_no_mark (digits c inside)
      · rcases List.mem_cons.mp inside with rfl | inside
        · decide
        · exact digit_no_mark (places c inside)
    obtain ⟨mantissa, behind⟩ := span_run _ tail run ends
    obtain ⟨whole, rest⟩ := span_run ds ('.' :: es)
      (fun c member => digit_no_point (digits c member)) (by simp)
    rw [List.append_assoc, List.cons_append] at mantissa behind
    simp only [same, mantissa, behind, whole, rest, exponentOf, List.tail_cons, and_self]

/-- The scientific layout of a tuple is that of its number without trailing zeros. -/
theorem scientific_eq (same : d'.value = d.value) (stripped : d.digits % 10 ≠ 0)
    (negative : Bool) :
    scientific ⟨negative, Decimal.digitChars d'.digits, d'.exponent⟩ =
      signed negative d.scientific := by
  have some : d.digits ≠ 0 := fun none => stripped (by rw [none])
  obtain ⟨k, digits, exponent⟩ := Decimal.eq_of_value same stripped
  have zeros : ((Decimal.digitChars d'.digits).reverse.dropWhile (· = '0')).reverse =
      Decimal.digitChars d.digits := by
    have last := digitChars_last_ne stripped
    rw [← List.head?_reverse] at last
    have split := span_run (p := (· = '0')) (List.replicate k '0')
      (Decimal.digitChars d.digits).reverse (by simp +contextual) fun c head => by
        simpa using fun zero : c = '0' => last (zero ▸ head)
    rw [digits, digitChars_pow some, List.reverse_append, List.reverse_replicate, split.2,
      List.reverse_reverse]
  have order : d'.exponent + (Decimal.digitChars d'.digits).length - 1 = d.order := by
    rw [digits, digitChars_pow some, List.length_append, List.length_replicate, exponent,
      Decimal.order]
    omega
  obtain ⟨c, rest, cons⟩ := List.exists_cons_of_ne_nil (digitChars_ne_nil d.digits)
  simp only [scientific, zeros, order, Decimal.scientific, cons, List.isEmpty_iff]
  rfl

end DecimalTuple

/-! ### The display form -/

theorem Decimal.positional_last {d : Decimal} (down : d.exponent < 0) :
    d.positional.getLast? = (digitChars d.digits).getLast? := by
  unfold positional
  rw [if_neg (by omega)]
  dsimp only
  split
  next inside =>
    have behind : (digitChars d.digits).drop ((digitChars d.digits).length -
        (-d.exponent).toNat) ≠ [] := by
      rw [ne_eq, List.drop_eq_nil_iff]
      omega
    rw [List.getLast?_append_of_ne_nil _ (List.cons_ne_nil _ _), List.getLast?_cons_of_ne_nil behind,
      List.getLast?_drop, if_neg (by omega)]
  next outside =>
    have behind := digitChars_ne_nil d.digits
    rw [List.getLast?_cons_of_ne_nil (List.cons_ne_nil _ _),
      List.getLast?_cons_of_ne_nil (by simp [behind]), List.getLast?_append_of_ne_nil _ behind]

/-- Only an integer is written with a `.0`. -/
theorem withoutPoint_positional {d : Decimal} (stripped : d.exponent < 0 → d.digits % 10 ≠ 0)
    (negative : Bool) :
    withoutPoint (signed negative d.positionalWithPoint) = signed negative d.positional := by
  unfold Decimal.positionalWithPoint
  split
  next up =>
    have text : signed negative (d.positional ++ ['.', '0']) =
        signed negative d.positional ++ ['.', '0'] := by
      cases negative <;> rfl
    rw [text, withoutPoint, if_pos (List.isSuffixOf_iff_suffix.mpr (List.suffix_append _ _))]
    simp
  next down =>
    have last := digitChars_last_ne (stripped (by omega))
    rw [← Decimal.positional_last (by omega)] at last
    refine if_neg fun point => last ?_
    obtain ⟨before, same⟩ := List.isSuffixOf_iff_suffix.mp point
    have ends := congrArg List.getLast? same
    have some : d.positional ≠ [] := fun none => by
      have digits := Decimal.positional_last (d := d) (by omega)
      rw [none, digitChars_last] at digits
      cases digits
    rw [List.getLast?_append_of_ne_nil _ (by simp)] at ends
    cases negative with
    | true => exact (ends.trans (List.getLast?_cons_of_ne_nil some)).symm
    | false => exact ends.symm

namespace Binary
variable {x : Binary} {q : ℚ}

/-- What rounds to a magnitude is within a factor of two. -/
theorem Rounds.near (rounds : x.Rounds q) (some : x.significand ≠ 0) :
    x.value ≤ 2 * q ∧ q ≤ 2 * x.value := by
  obtain ⟨low, high⟩ := rounds.bounds
  have one : (1 : ℚ) ≤ x.significand := by exact_mod_cast Nat.pos_of_ne_zero some
  have power : (0 : ℚ) < 2 ^ x.exponent := by positivity
  have half : x.value ≤ 2 * x.low := by
    rw [value, Binary.low, ← mul_assoc]
    refine mul_le_mul_of_nonneg_right ?_ power.le
    split <;> linarith
  have double : x.high ≤ 2 * x.value := by
    rw [value, Binary.high, ← mul_assoc]
    exact mul_le_mul_of_nonneg_right (by linarith) power.le
  constructor <;> linarith

/-- The token form of a plain magnitude has no exponent. -/
theorem isPlain_order (plain : x.isPlain = true) :
    -4 ≤ x.shortest.order ∧ x.shortest.order < 16 := by
  by_cases none : x.significand = 0
  · rw [shortest_zero none]
    decide
  · obtain ⟨near, far⟩ := (shortest_rounds none).near none
    obtain ⟨least, most⟩ := (isPlain_iff.mp plain).resolve_left (mt value_eq_zero.mp none)
    have digits : x.shortest.digits ≠ 0 := fun zero => shortest_digits none (by rw [zero])
    obtain ⟨first, next⟩ := Decimal.order_bounds digits
    have above : (10 : ℚ) ^ (-4 : ℤ) < 10 ^ (x.shortest.order + 1) := by
      refine lt_trans ?_ next
      norm_num
      linarith
    have below : (10 : ℚ) ^ x.shortest.order < 10 ^ (16 : ℤ) := by
      refine lt_of_le_of_lt first ?_
      norm_num
      linarith
    have up := (zpow_lt_zpow_iff_right₀ (by norm_num)).mp above
    have down := (zpow_lt_zpow_iff_right₀ (by norm_num)).mp below
    omega

end Binary

/-- The token form is a layout of the shortest digits. -/
theorem Parts.tokenForm_writes (negative : Bool) (m : Binary) :
    ∃ cs, (finite negative m).tokenForm = signed negative cs ∧ Numeral.Writes cs m.shortest := by
  refine ⟨_, rfl, ?_⟩
  split
  · exact m.shortest.positionalWithPoint_writes
  · exact m.shortest.signedExponent_writes

/-- So is the display form: positional for the plain magnitudes, and else scientific. -/
theorem Parts.display_finite (negative : Bool) (x : Binary) :
    (finite negative x).display =
      signed negative (if x.isPlain then x.shortest.positional else x.shortest.scientific) := by
  by_cases plain : x.isPlain = true
  · simp only [display, tokenForm, if_pos plain, if_pos (Binary.isPlain_order plain)]
    refine withoutPoint_positional (fun down => ?_) negative
    by_cases none : x.significand = 0
    · rw [Binary.shortest_zero none] at down
      cases down
    · exact Binary.shortest_digits none
  · have some : x.significand ≠ 0 := fun none =>
      plain (Binary.isPlain_iff.mpr (.inl (Binary.value_eq_zero.mpr none)))
    obtain ⟨text, token, d, read, same⟩ := tokenForm_writes negative x
    simp only [display, token, if_neg plain]
    rw [DecimalTuple.ofText_signed read,
      DecimalTuple.scientific_eq same (Binary.shortest_digits some)]

end LoxLang
