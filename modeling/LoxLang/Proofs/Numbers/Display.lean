import LoxLang.Proofs.Numbers.Layouts
import LoxLang.Proofs.Numbers.Reading
import LoxLang.Proofs.Numbers.Shortest
import LoxLang.Proofs.Scanning.Separators
/-! The display of a number loses nothing and has one of two shapes. Reading the text back gives
the number with its sign, and a plain text is scanned as the number token that it spells. -/
namespace LoxLang

namespace Binary

variable {x : Binary} {d : Decimal}

theorem Held.eq_zero (held : x.Held) (none : x.significand = 0) : x = zero := by
  obtain ⟨significand, exponent, narrowBelow⟩ := x
  have bottom : exponent = -1074 := held.full.resolve_left (by simp only at none ⊢; omega)
  have wide : narrowBelow = false := by
    rw [← Bool.not_eq_true, held.narrow, none]
    omega
  rw [show significand = 0 from none, bottom, wide]
  rfl

/-- A decimal of the value of the shortest one is read as the magnitude. -/
theorem Held.read_back (held : x.Held) (same : d.value = x.shortest.value) {below : Bool} {n : Nat}
    (exponent : d.exponent = if below then -(n : ℤ) else n) :
    Parts.ofFloat (Float.ofScientific d.digits below n) = .finite false x := by
  by_cases none : x.significand = 0
  · rw [shortest_zero none] at same
    have zero : d.digits = 0 := by simpa [Decimal.value, zpow_ne_zero] using same
    rw [zero, ofScientific_zero, held.eq_zero none]
  · have rounds := shortest_rounds none
    rw [← same, Decimal.value, exponent] at rounds
    exact held.ofScientific none rounds

end Binary

/-- The number that a decimal is read as. -/
def Decimal.float (d : Decimal) : Float :=
  Float.ofScientific d.digits (d.exponent < 0) d.exponent.natAbs

/-- The number that a numeral is read as: rounded once, and negated for a minus. -/
def Numeral.float? (cs : List Char) : Option Float :=
  (read? cs).map fun signed => if signed.1 then -signed.2.float else signed.2.float

theorem Decimal.float_shortest {d : Decimal} {x : Binary} (held : x.Held)
    (same : d.value = x.shortest.value) : Parts.ofFloat d.float = .finite false x := by
  refine held.read_back same ?_
  by_cases negative : d.exponent < 0
  · simp only [negative, decide_true, if_true]
    omega
  · simp only [negative, decide_false, Bool.false_eq_true, if_false]
    omega

section Display

variable {x : Float} {negative : Bool} {m : Binary}

/-- The display form of a finite number writes its shortest digits, and has the shape of a plain
text for the plain magnitudes and else that of a scientific one. -/
theorem Parts.display_text (negative : Bool) (m : Binary) :
    ∃ cs, (finite negative m).display = signed negative cs ∧ Numeral.Writes cs m.shortest ∧
      if m.isPlain then PlainText cs else ScientificText cs := by
  refine ⟨_, display_finite negative m, ?_, ?_⟩
  · split
    · exact m.shortest.positional_writes
    · exact m.shortest.scientific_writes
  · by_cases none : m.significand = 0
    · have plain : m.isPlain = true := Binary.isPlain_iff.mpr (.inl (Binary.value_eq_zero.mpr none))
      rw [if_pos plain, if_pos plain, Binary.shortest_zero none]
      exact Decimal.positional_plain (by simp)
    · have stripped := Binary.shortest_digits none
      split
      · exact Decimal.positional_plain fun _ => stripped
      · exact Decimal.scientific_text stripped

/-- A text that writes the shortest digits of a number with its sign is read as that number. -/
theorem Numeral.float?_signed (finite : Parts.ofFloat x = .finite negative m) {cs : List Char}
    (writes : Writes cs m.shortest) : float? (LoxLang.signed negative cs) = some x := by
  obtain ⟨d, read, same⟩ := writes.signed negative
  have magnitude := Decimal.float_shortest (Parts.finite_held finite) same
  rw [float?, read, Option.map_some, Option.some.injEq]
  cases negative with
  | true => exact Parts.ofFloat_injective (Parts.ofFloat_neg magnitude) finite
  | false => exact Parts.ofFloat_injective magnitude finite

end Display

/-! ### Scanning -/

namespace PlainText

variable {cs : List Char}

/-- A plain text is spelled like a number token. -/
theorem lexeme (plain : PlainText cs) : Lexeme .number cs := by
  cases plain with
  | @whole ds some digits =>
    obtain ⟨d, ds, rfl⟩ := List.exists_cons_of_ne_nil some
    rw [List.forall_mem_cons] at digits
    exact .whole digits.1 digits.2
  | @point ds es some digits more places =>
    obtain ⟨d, ds, rfl⟩ := List.exists_cons_of_ne_nil some
    obtain ⟨e, es, rfl⟩ := List.exists_cons_of_ne_nil more
    rw [List.forall_mem_cons] at digits places
    exact .decimal digits.1 digits.2 places.1 places.2

/-- A number token of that spelling stands for the number that the text writes. -/
theorem readNumber {d : Decimal} (plain : PlainText cs) (writes : Numeral.Writes cs d) :
    ∃ (d' : Decimal) (n : Nat), readNumber cs = Float.ofScientific d'.digits true n ∧
      d'.exponent = -(n : ℤ) ∧
      d'.value = d.value := by
  obtain ⟨d', read, same⟩ := writes
  cases plain with
  | whole some digits =>
    have unsigned := Numeral.unsigned?_whole some digits Numeral.ends_nil (by simp)
    obtain ⟨whole, rest⟩ := Numeral.span_digits digits Numeral.ends_nil
    rw [List.append_nil] at unsigned whole rest
    rw [read] at unsigned
    cases unsigned
    refine ⟨_, 0, ?_, rfl, same⟩
    simp only [LoxLang.readNumber, whole, rest, List.drop_nil, List.append_nil]
    rfl
  | @point ds es some digits more places other =>
    have unsigned := Numeral.unsigned?_point some digits places Numeral.ends_nil
    have behind : Numeral.Ends ('.' :: es) := by
      rintro c tail ⟨⟩
      exact Longest.not_digit_point
    obtain ⟨whole, rest⟩ := Numeral.span_digits digits behind
    rw [List.append_nil] at unsigned
    rw [read] at unsigned
    cases unsigned
    refine ⟨_, es.length, ?_, zero_sub _, same⟩
    simp only [LoxLang.readNumber, whole, rest, List.drop_one, List.tail_cons]
    rfl

end PlainText

namespace Scan

/-- A lexeme alone is scanned as one token. -/
theorem place_alone {kind : Kind} {cs : List Char} (p : Pos) (spelt : Lexeme kind cs) :
    (place p (spans cs)).tokens = [⟨kind, String.ofList cs, p⟩] ∧
      (place p (spans cs)).issues = [] := by
  have alone := place_lexeme (t := ⟨kind, String.ofList cs, p⟩) p [] (by simpa using spelt)
    (by rintro _ _ ⟨⟩)
  simp only [String.toList_ofList, List.append_nil] at alone
  rw [alone]
  simp [spans, place]

/-- A minus is a token of its own. -/
theorem place_minus (p : Pos) (cs : List Char) :
    place p (spans ('-' :: cs)) =
      let behind := place (p.next '-') (spans cs)
      { behind with tokens := ⟨.minus, "-", p⟩ :: behind.tokens } := by
  have symbol : (['-'], Kind.minus) ∈ Kind.symbols := by decide
  have longest : Longest ['-'] cs := .symbol symbol (by decide) fun none => absurd none (by decide)
  have next := spans_next (s := ⟨.token .minus, ['-']⟩) (by simp) (.symbol symbol) longest
  show place p (spans (['-'] ++ cs)) = _
  rw [next, place]
  rfl

end Scan

/-- Zero, and what lies from a thousandth up to ten million. -/
def Binary.Ordinary (m : Binary) : Prop := m.value = 0 ∨ 1 / 1000 ≤ m.value ∧ m.value < 10000000

section Lossless

variable {x : Float} {negative : Bool} {m : Binary}

/-- Scanning a plain text that writes the shortest digits gives one number token. -/
theorem scan_plain (held : m.Held) {cs : List Char} (plain : PlainText cs)
    (writes : Numeral.Writes cs m.shortest) (p : Pos) :
    ∃ t : Token, (Scan.place p (Scan.spans cs)).tokens = [t] ∧
      (Scan.place p (Scan.spans cs)).issues = [] ∧ t.kind = .number ∧
      ∃ y, t.literal? = some (.number y) ∧ Parts.ofFloat y = .finite false m := by
  obtain ⟨tokens, issues⟩ := Scan.place_alone p plain.lexeme
  obtain ⟨d, n, read, exponent, same⟩ := plain.readNumber writes
  refine ⟨_, tokens, issues, rfl, readNumber cs, ?_, ?_⟩
  · simp [Token.literal?]
  · rw [read]
    exact held.read_back same exponent

/-- A plain text with its sign is scanned as the number that it writes, behind a minus if there is
one. -/
theorem scan_signed (finite : Parts.ofFloat x = .finite negative m) {cs : List Char}
    (plain : PlainText cs) (writes : Numeral.Writes cs m.shortest) :
    (scan (String.ofList (signed negative cs))).issues = [] ∧
      (negative = false → ∃ t, (scan (String.ofList (signed negative cs))).tokens = [t] ∧
        t.kind = .number ∧ t.literal? = some (.number x)) ∧
      (negative = true → ∃ s t, (scan (String.ofList (signed negative cs))).tokens = [s, t] ∧
        s.kind = .minus ∧ t.kind = .number ∧ t.literal? = some (.number (-x))) := by
  have held := Parts.finite_held finite
  rw [scan_eq_place, String.toList_ofList]
  cases negative with
  | false =>
    obtain ⟨t, tokens, issues, kind, y, literal, parts⟩ := scan_plain held plain writes Pos.start
    refine ⟨issues, fun _ => ⟨t, tokens, kind, ?_⟩, fun wrong => absurd wrong Bool.false_ne_true⟩
    rw [literal, Parts.ofFloat_injective parts finite]
  | true =>
    have minus := Scan.place_minus Pos.start cs
    obtain ⟨t, tokens, issues, kind, y, literal, parts⟩ :=
      scan_plain held plain writes (Pos.start.next '-')
    simp only [tokens, issues] at minus
    simp only [signed, if_true, minus, true_and]
    refine ⟨fun wrong => absurd wrong.symm Bool.false_ne_true, fun _ => ⟨_, t, rfl, rfl, kind, ?_⟩⟩
    rw [literal, Parts.ofFloat_injective parts (Parts.ofFloat_neg finite)]

/-- The display of a finite number writes the same decimal as its token form, the shortest one, and
is read back as that number, a zero with its sign too. Without its sign it is plain exactly for the
ordinary magnitudes and scientific for the others. A plain display is scanned as one number token
that stands for the number, behind a minus if the number has the sign of the negative ones. -/
theorem display_lossless (finite : Parts.ofFloat x = .finite negative m) :
    (∃ d d' s, Numeral.read? (displayNumber x).toList = some (negative, d) ∧
      Numeral.read? (tokenNumber x).toList = some (negative, d') ∧ d.value = d'.value ∧
      d'.value = Decimal.value s ∧ (m.value = 0 ∨ m.Shortest s)) ∧
    Numeral.float? (displayNumber x).toList = some x ∧
    (∃ cs, (displayNumber x).toList = signed negative cs ∧ (PlainText cs ↔ m.Ordinary) ∧
      (ScientificText cs ↔ ¬m.Ordinary)) ∧
    (m.Ordinary → (scan (displayNumber x)).issues = [] ∧
      (negative = false → ∃ t, (scan (displayNumber x)).tokens = [t] ∧ t.kind = .number ∧
        t.literal? = some (.number x)) ∧
      (negative = true → ∃ s t, (scan (displayNumber x)).tokens = [s, t] ∧ s.kind = .minus ∧
        t.kind = .number ∧ t.literal? = some (.number (-x)))) := by
  obtain ⟨cs, display, writes, shape⟩ := Parts.display_text negative m
  obtain ⟨ts, token, writesToken⟩ := Parts.tokenForm_writes negative m
  have shown : displayNumber x = String.ofList (signed negative cs) := by
    rw [displayNumber, finite, display]
  have listed : tokenNumber x = String.ofList (signed negative ts) := by
    rw [tokenNumber, finite, token]
  have ordinary : m.isPlain = true ↔ m.Ordinary := Binary.isPlain_iff
  rw [shown, listed, String.toList_ofList, String.toList_ofList]
  refine ⟨?_, Numeral.float?_signed finite writes, ⟨cs, rfl, ?_⟩, fun among => ?_⟩
  · obtain ⟨d, read, same⟩ := writes.signed negative
    obtain ⟨d', read', same'⟩ := writesToken.signed negative
    refine ⟨d, d', m.shortest, read, read', same.trans same'.symm, same', ?_⟩
    exact or_iff_not_imp_left.mpr fun sized =>
      (Parts.finite_held finite).shortest (mt Binary.value_eq_zero.mpr sized)
  · rw [← ordinary]
    split at shape
    next plain =>
      exact ⟨iff_of_true shape plain,
        iff_of_false (fun scientific => scientific.not_plain shape) (not_not.mpr plain)⟩
    next other => exact ⟨iff_of_false shape.not_plain other, iff_of_true shape other⟩
  · rw [if_pos (ordinary.mpr among)] at shape
    exact scan_signed finite shape writes

end Lossless

/-- The negative number nearest to a thousandth, the last one before the scientific form. -/
theorem display_lossless_thousandth :
    let x := Float.ofBits 0xBF50624DD2F1A9FC
    let m := Binary.ofFields 0x3F5 0x0624DD2F1A9FC
    Parts.ofFloat x = .finite true m ∧ displayNumber x = "-0.001" ∧ m.Ordinary ∧
      Numeral.float? "-0.001".toList = some x ∧
      ∃ s t, (scan "-0.001").tokens = [s, t] ∧ s.kind = .minus ∧ t.kind = .number ∧
        t.literal? = some (.number (-x)) := by
  intro x m
  have finite : Parts.ofFloat x = .finite true m := by decide +kernel
  have shown : displayNumber x = "-0.001" := by decide +kernel
  have ordinary : m.Ordinary := Binary.isPlain_iff.mp (by decide +kernel)
  obtain ⟨-, back, -, scanned⟩ := display_lossless finite
  rw [shown] at back scanned
  exact ⟨finite, shown, ordinary, back, (scanned ordinary).2.2 rfl⟩

end LoxLang
