import Mathlib.Data.List.DropRight
import LoxLang.Proofs.Scanning.Division
/-! Where tokens and messages stand. The scan counts lines and columns as it goes; what it has
counted at a span is what the text up to that offset says. -/
namespace LoxLang

/-- The place of an offset: a line for each newline before it, and a column for each character
between the last of these, or the start of the text, and the offset. -/
def Pos.ofOffset (text : List Char) (n : Nat) : Pos :=
  ⟨1 + (text.take n).count '\n', 1 + ((text.take n).rtakeWhile (· ≠ '\n')).length⟩

/-- The spans of a text with the offsets where they start, the first one at `n`. -/
def Scan.offsets (n : Nat) : List Span → List (Nat × Span)
  | [] => []
  | s :: rest => (n, s) :: offsets (n + s.text.length) rest

/-- What is wrong with a span at offset `n` is wrong at its first character, unless it is that
the text ends. -/
def ScanError.offset (text : List Char) (n : Nat) : ScanError → Nat
  | .unexpectedCharacter => n
  | .openString | .openComment => text.length

/-- The message about a span that starts at an offset of a text. -/
def Span.issueAt? (text : List Char) (n : Nat) (s : Span) : Option Diagnostic :=
  match s.piece with
  | .error cause => some ⟨(Pos.ofOffset text (cause.offset text n)).line, .nowhere, cause.message⟩
  | _ => none

/-- The tokens and messages of a scan stand where the spans of the text do. -/
structure Scan.Located (result : Scan) (text : List Char) (ss : List Span) : Prop where
  /-- A span is what the text has at its offset. -/
  starts : ∀ entry ∈ offsets 0 ss, entry.2.text <+: text.drop entry.1
  tokens : result.tokens =
    (offsets 0 ss).filterMap fun entry => entry.2.token? (Pos.ofOffset text entry.1)
  issues : result.issues = (offsets 0 ss).filterMap fun entry => entry.2.issueAt? text entry.1
  stop : result.stop = Pos.ofOffset text text.length

namespace Pos

theorem after_append (p : Pos) (cs ds : List Char) : p.after (cs ++ ds) = (p.after cs).after ds :=
  List.foldl_append

/-- One more character moves the place as the scan moves it. -/
theorem ofOffset_concat (cs : List Char) (c : Char) :
    ofOffset (cs ++ [c]) (cs.length + 1) = (ofOffset cs cs.length).next c := by
  have whole : (cs ++ [c]).take (cs.length + 1) = cs ++ [c] := List.take_of_length_le (by simp)
  rw [ofOffset, ofOffset, whole, List.take_length, List.count_append, List.rtakeWhile_concat, next]
  by_cases newline : c = '\n'
  · simp [newline, Nat.add_assoc]
  · simp [newline, Nat.add_assoc]

theorem start_after (cs : List Char) : start.after cs = ofOffset cs cs.length := by
  induction cs using List.reverseRecOn with
  | nil => rfl
  | append_singleton cs c ih =>
      rw [after_append, ih, List.length_append, List.length_singleton, ofOffset_concat]
      rfl

/-- What the scan has counted up to an offset. -/
theorem after_take (text : List Char) (n : Nat) : start.after (text.take n) = ofOffset text n := by
  rw [start_after, ofOffset, ofOffset, List.take_length]

end Pos

namespace Scan
variable {ss : List Span}

/-- Every span starts where the spans before it end. -/
theorem mem_offsets {n k : Nat} {s : Span} (member : (k, s) ∈ offsets n ss) :
    ∃ before after, ss = before ++ s :: after ∧ k = n + (before.flatMap Span.text).length := by
  induction ss generalizing n with
  | nil => cases member
  | cons t ss ih =>
      rcases List.mem_cons.mp member with here | later
      · obtain ⟨rfl, rfl⟩ := Prod.mk.inj here
        exact ⟨[], ss, rfl, rfl⟩
      · obtain ⟨before, after, rfl, rfl⟩ := ih later
        exact ⟨t :: before, after, rfl, by simp [Nat.add_assoc]⟩

/-- The scan has counted the place of each span right, whatever the spans before it are. -/
theorem places_offsets (before : List Char) {text : List Char}
    (whole : text = before ++ ss.flatMap Span.text) :
    places (Pos.start.after before) ss =
      (offsets before.length ss).map fun entry => (Pos.ofOffset text entry.1, entry.2) := by
  induction ss generalizing before with
  | nil => rfl
  | cons s ss ih =>
      have here : Pos.start.after before = Pos.ofOffset text before.length := by
        rw [← Pos.after_take, whole, List.take_left]
      rw [places, offsets, List.map_cons, ← Pos.after_append,
        ih (before ++ s.text) (by simpa using whole), List.length_append, here]

end Scan

namespace Division
variable {text : List Char} {ss : List Span} {n : Nat} {s : Span}

theorem starts (division : Division text ss) (member : (n, s) ∈ Scan.offsets 0 ss) :
    s.text <+: text.drop n := by
  obtain ⟨before, after, rfl, rfl⟩ := Scan.mem_offsets member
  rw [← division.covers, Nat.zero_add, List.flatMap_append, List.drop_left', List.flatMap_cons]
  · exact List.prefix_append _ _
  · rfl

/-- A span that is left open is the rest of the text. -/
theorem open_whole (division : Division text ss) (member : (n, s) ∈ Scan.offsets 0 ss)
    (still : s.piece.IsOpen) : text.take n ++ s.text = text := by
  obtain ⟨before, after, rfl, rfl⟩ := Scan.mem_offsets member
  have lawful := division.lawful before s after rfl
  have nothing : after.flatMap Span.text = [] := by
    rcases still with string | comment
    · rw [Span.Lawful, string] at lawful
      obtain ⟨_, _, _, nothing⟩ := lawful
      exact nothing
    · rw [Span.Lawful, comment] at lawful
      obtain ⟨_, _, _, nothing⟩ := lawful
      exact nothing
  have whole := division.covers
  rw [List.flatMap_append, List.flatMap_cons, nothing, List.append_nil] at whole
  rw [← whole, Nat.zero_add, List.take_left]

/-- The line that the scan gives to what is wrong with a span. -/
theorem issue_line (division : Division text ss) (member : (n, s) ∈ Scan.offsets 0 ss) :
    s.issue? (Pos.ofOffset text n) = s.issueAt? text n := by
  cases piece : s.piece with
  | error cause =>
      have line : Scan.issueLine (Pos.ofOffset text n) s.text cause =
          (Pos.ofOffset text (cause.offset text n)).line := by
        have ends (still : s.piece.IsOpen) :
            (Pos.ofOffset text n).after s.text = Pos.ofOffset text text.length := by
          rw [← Pos.after_take, ← Pos.after_append, division.open_whole member still,
            Pos.start_after]
        cases cause with
        | unexpectedCharacter => rfl
        | openString => exact congrArg Pos.line (ends (.inl piece))
        | openComment => exact congrArg Pos.line (ends (.inr piece))
      simp only [Span.issue?, Span.issueAt?, piece, line]
  | _ => simp only [Span.issue?, Span.issueAt?, piece]

end Division

/-- Every token and every message of a source text stands where its span does, and the end of the
text where the text ends. -/
theorem scan_located (source : String) :
    ∃ ss, Division source.toList ss ∧ (∀ tt, Division source.toList tt → tt = ss) ∧
      (scan source).Located source.toList ss := by
  have division := Scan.spans_division source.toList
  have placed := Scan.places_offsets [] division.covers.symm
  refine ⟨Scan.spans source.toList, division, fun tt again => again.unique division, ?_⟩
  exact {
    starts := fun entry member => division.starts member
    tokens := by
      rw [scan_eq_place, Scan.place_tokens]
      exact placed ▸ List.filterMap_map
    issues := by
      rw [scan_eq_place, Scan.place_issues]
      refine (placed ▸ List.filterMap_map).trans ?_
      exact List.filterMap_congr fun entry member => division.issue_line member
    stop := by
      rw [scan_eq_place, Scan.stop_place, division.covers, Pos.start_after] }

end LoxLang
