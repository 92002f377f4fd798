import LoxLang.Proofs.Scanning.Cutting
/-! On which line a span is. The scanner makes tokens and messages at the end of a span and takes
the line there. Only strings and comments have newlines in them, so every other token, and every
message about a stray character, is on the line where its span starts. -/
namespace LoxLang

theorem Pos.line_after (p : Pos) (cs : List Char) : (p.after cs).line = p.line + cs.count '\n' := by
  induction cs generalizing p with
  | nil => rfl
  | cons c cs ih =>
      refine (ih (p.next c)).trans ?_
      by_cases newline : c = '\n'
      · simp [next, newline, Nat.add_assoc, Nat.add_comm 1]
      · simp [next, newline]

/-- Spans that are made on the line on which they end. -/
def Piece.EndsLine : Piece → Prop
  | .token kind => kind ≠ .text
  | .error cause => cause = .unexpectedCharacter
  | .blank | .lineComment | .blockComment => False

theorem newline_not_digit : ¬Digit '\n' := by decide

theorem newline_not_letter : ¬Letter '\n' := by decide

theorem symbols_newline : ∀ entry ∈ Kind.symbols, '\n' ∉ entry.1 := by decide

/-- Such a span has no newline in it. -/
theorem Cuts.flat {s : Span} {rest : List Char} (cuts : Cuts s rest) (made : s.piece.EndsLine) :
    '\n' ∉ s.text := by
  cases cuts with
  | single single => exact symbols_newline _ (Scan.single?_symbol single)
  | alone pair => exact symbols_newline _ (Scan.comparison?_symbol pair).1
  | withEqual pair => exact symbols_newline _ (Scan.comparison?_symbol pair).2
  | slash => decide
  | text => exact absurd rfl made
  | lineComment | blockComment | blank => exact made.elim
  | openComment | openString => cases made
  | whole digit digits =>
      exact fun inside =>
        newline_not_digit (List.forall_mem_cons.mpr ⟨digit, digits⟩ _ inside)
  | decimal digit digits place places =>
      intro inside
      rcases List.mem_append.mp (List.cons_append ▸ inside) with whole | point
      · exact newline_not_digit (List.forall_mem_cons.mpr ⟨digit, digits⟩ _ whole)
      · rcases List.mem_cons.mp point with same | behind
        · exact absurd same (by decide)
        · exact newline_not_digit (List.forall_mem_cons.mpr ⟨place, places⟩ _ behind)
  | word letter parts =>
      exact fun inside => (List.forall_mem_cons.mpr ⟨.inl letter, parts⟩ _ inside).elim
        newline_not_letter newline_not_digit
  | unexpected single pair slash blank =>
      exact fun inside => blank (List.mem_singleton.mp inside ▸ by decide)

namespace Scan

/-- The line of a message about a span that starts at `p`: that of a stray character, and else the
one on which the source ends. -/
def issueLine (p : Pos) (text : List Char) : ScanError → Nat
  | .unexpectedCharacter => p.line
  | .openString | .openComment => (p.after text).line

/-- The tokens and messages of spans that start at `p`, each where its span starts. -/
def place (p : Pos) : List Span → Scan
  | [] => ⟨[], [], p⟩
  | s :: rest =>
    let scan := place (p.after s.text) rest
    match s.piece with
    | .token kind => { scan with tokens := ⟨kind, String.ofList s.text, p⟩ :: scan.tokens }
    | .error cause =>
      { scan with issues := ⟨issueLine p s.text cause, .nowhere, cause.message⟩ :: scan.issues }
    | .blank | .lineComment | .blockComment => scan

theorem spans_flat (cs : List Char) :
    ∀ s ∈ spans cs, s.piece.EndsLine → '\n' ∉ s.text := by
  induction cs using spans.induct with
  | case1 => simp [spans]
  | case2 c cs ih =>
      rw [spans]
      exact List.forall_mem_cons.mpr ⟨fun made => (cut_cuts c cs).flat made, ih⟩

theorem line_after_flat {p : Pos} {text : List Char} (flat : '\n' ∉ text) :
    (p.after text).line = p.line := by
  rw [Pos.line_after, List.count_eq_zero.mpr flat, Nat.add_zero]

/-- A token has the line of its start where the scanner takes it at the end. -/
theorem tokenLine_eq {p : Pos} {kind : Kind} {text : List Char}
    (flat : Piece.EndsLine (.token kind) → '\n' ∉ text) :
    tokenLine p (p.after text) kind = p.line := by
  unfold tokenLine
  split
  · rfl
  · next other => exact line_after_flat (flat other)

theorem issueLine_eq {p : Pos} {cause : ScanError} {text : List Char}
    (flat : Piece.EndsLine (.error cause) → '\n' ∉ text) :
    (p.after text).line = issueLine p text cause := by
  cases cause with
  | unexpectedCharacter => exact line_after_flat (flat rfl)
  | openString | openComment => rfl

theorem record_eq_place {ss : List Span} (flat : ∀ s ∈ ss, s.piece.EndsLine → '\n' ∉ s.text)
    (p : Pos) : record p ss = place p ss := by
  induction ss generalizing p with
  | nil => rfl
  | cons s rest ih =>
      obtain ⟨here, later⟩ := List.forall_mem_cons.mp flat
      rw [record, place, ih later]
      cases piece : s.piece with
      | token kind => simp only [tokenLine_eq (piece ▸ here)]
      | error cause => simp only [issueLine_eq (piece ▸ here)]
      | blank | lineComment | blockComment => rfl

end Scan

/-- The scan makes tokens and messages where their spans start, but for what is wrong with the end
of the source. -/
theorem scan_eq_place (source : String) :
    scan source = Scan.place Pos.start (Scan.spans source.toList) :=
  Scan.record_eq_place (Scan.spans_flat source.toList) Pos.start

end LoxLang
