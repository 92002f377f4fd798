import LoxLang.Proofs.Relining
import LoxLang.Proofs.Scanning.Lines
/-! The scan of a text in two parts. A newline ends every token and every comment but an open
one, so a text behind a newline has the tokens that it has alone, further down. -/
namespace LoxLang

/-- The piece runs to the end of the text for want of what closes it. -/
def Piece.IsOpen (p : Piece) : Prop := p = .error .openString ∨ p = .error .openComment

/-- The cut of the same text with more behind it. -/
def Cut.followed (k : Cut) (more : List Char) : Cut := { k with rest := k.rest ++ more }

namespace Scan

section
variable {p : Char → Bool} (cs more : List Char)

/-- Where a run of characters ends within a text, it ends there with any text behind. -/
theorem takeWhile_within (ends : cs.dropWhile p ≠ []) :
    (cs ++ more).takeWhile p = cs.takeWhile p ∧
      (cs ++ more).dropWhile p = cs.dropWhile p ++ more := by
  induction cs with
  | nil => exact absurd rfl ends
  | cons c cs ih =>
      cases same : p c with
      | true =>
          obtain ⟨taken, dropped⟩ := ih (by simpa [same] using ends)
          simp [same, taken, dropped]
      | false => simp [same]

/-- A character that does not belong to a run ends it. -/
theorem takeWhile_before {c : Char} (ends : p c = false) :
    (cs ++ c :: more).takeWhile p = cs.takeWhile p ∧
      (cs ++ c :: more).dropWhile p = cs.dropWhile p ++ c :: more := by
  induction cs with
  | nil => simp [ends]
  | cons d cs ih => cases same : p d <;> simp [same, ih]

end

/-- A comment that is closed ends there with any text behind. -/
theorem splitComment_within (cs more : List Char) : ∀ text rest,
    splitComment cs = (text, some rest) → splitComment (cs ++ more) = (text, some (rest ++ more)) := by
  fun_induction splitComment cs with
  | case1 => rintro _ _ ⟨⟩
  | case2 rest =>
      rintro _ _ ⟨⟩
      rfl
  | case3 c cs _ _ _ apart ih =>
      intro text rest whole
      obtain ⟨rfl, closed⟩ := Prod.mk.inj whole
      have stays : ∀ tail, c = '*' → cs ++ more = '/' :: tail → False := by
        intro tail star slash
        cases cs with
        | nil => cases closed
        | cons d cs =>
            obtain ⟨rfl, -⟩ := List.cons.inj slash
            exact apart cs star rfl
      rw [List.cons_append, splitComment.eq_3 c (cs ++ more) stays,
        ih (splitComment cs).1 rest (Prod.ext rfl closed)]

variable (more : List Char)

theorem cutSlash_newline {cs : List Char} (closed : ¬(cutSlash cs).piece.IsOpen) :
    cutSlash (cs ++ '\n' :: more) = (cutSlash cs).followed ('\n' :: more) := by
  cases cs with
  | nil => rfl
  | cons d cs =>
      by_cases line : d = '/'
      · subst line
        obtain ⟨taken, dropped⟩ := takeWhile_before (p := notNewline) (c := '\n') cs more rfl
        simp only [List.cons_append, cutSlash, taken, dropped, Cut.followed]
      by_cases block : d = '*'
      · subst block
        cases split : splitComment cs with
        | mk text rest =>
            cases rest with
            | none => exact absurd (.inr (by simp only [cutSlash, split])) closed
            | some rest =>
                simp only [List.cons_append, cutSlash, split, Cut.followed,
                  splitComment_within cs ('\n' :: more) text rest split]
      · simp only [List.cons_append, Cut.followed]
        rw [cutSlash.eq_3, cutSlash.eq_3] <;> simp [line, block]

theorem cutString_newline {cs : List Char} (closed : ¬(cutString cs).piece.IsOpen) :
    cutString (cs ++ '\n' :: more) = (cutString cs).followed ('\n' :: more) := by
  cases rest : cs.dropWhile notQuote with
  | nil => exact absurd (.inl (by simp only [cutString, rest])) closed
  | cons quote rest' =>
      obtain ⟨taken, dropped⟩ := takeWhile_within (p := notQuote) cs ('\n' :: more)
        (by simp [rest])
      simp only [cutString, taken, dropped, rest, List.cons_append, Cut.followed]

theorem cutNumber_newline (c : Char) (cs : List Char) :
    cutNumber c (cs ++ '\n' :: more) = (cutNumber c cs).followed ('\n' :: more) := by
  obtain ⟨taken, dropped⟩ := takeWhile_before (p := Char.isDigit) (c := '\n') cs more rfl
  simp only [cutNumber, taken, dropped]
  match cs.dropWhile Char.isDigit with
  | [] => rfl
  | [d] =>
      by_cases point : d = '.'
      · subst point
        rfl
      · simp [point, Cut.followed]
  | d :: e :: rest =>
      by_cases point : d = '.'
      · subst point
        obtain ⟨taken, dropped⟩ := takeWhile_before (p := Char.isDigit) (c := '\n') rest more rfl
        by_cases digit : e.isDigit <;> simp [digit, taken, dropped, Cut.followed]
      · simp [point, Cut.followed]

theorem cutWord_newline (c : Char) (cs : List Char) :
    cutWord c (cs ++ '\n' :: more) = (cutWord c cs).followed ('\n' :: more) := by
  obtain ⟨taken, dropped⟩ := takeWhile_before (p := isWordPart) (c := '\n') cs more rfl
  simp only [cutWord, taken, dropped, Cut.followed]

/-- A newline behind a text leaves the first span as it is, unless that is left open. -/
theorem cut_newline {c : Char} {cs : List Char} (closed : ¬(cut c cs).piece.IsOpen) :
    cut c (cs ++ '\n' :: more) = (cut c cs).followed ('\n' :: more) := by
  unfold cut at closed ⊢
  cases single : single? c with
  | some kind => rfl
  | none =>
      cases pair : comparison? c with
      | some kinds =>
          cases cs with
          | nil => rfl
          | cons d cs =>
              by_cases equal : d = '='
              · subst equal
                rfl
              · simp [equal, Cut.followed]
      | none =>
          simp only [single, pair] at closed
          dsimp only
          split
          · next slash =>
              rw [if_pos slash] at closed
              exact cutSlash_newline more closed
          next other =>
          rw [if_neg other] at closed
          split
          · rfl
          next other =>
          rw [if_neg other] at closed
          split
          · next quote =>
              rw [if_pos quote] at closed
              exact cutString_newline more closed
          split
          · exact cutNumber_newline more c cs
          split
          · exact cutWord_newline more c cs
          · rfl

/-- The spans of a text in two lines, of which the first leaves nothing open. -/
theorem spans_newline (cs : List Char) (closed : ∀ s ∈ spans cs, ¬s.piece.IsOpen) :
    spans (cs ++ '\n' :: more) = spans cs ++ ⟨.blank, ['\n']⟩ :: spans more := by
  induction cs using spans.induct with
  | case1 =>
      rw [List.nil_append, spans]
      simp [spans, cut, single?, comparison?, isBlank]
  | case2 c cs ih =>
      rw [spans] at closed
      obtain ⟨here, later⟩ := List.forall_mem_cons.mp closed
      rw [List.cons_append, spans, spans, cut_newline more here]
      exact congrArg (_ :: ·) (ih later)

end Scan

/-! Spans on other lines. -/

theorem Pos.next_down (p : Pos) (n : Nat) (c : Char) :
    (p.reline (· + n)).next c = (p.next c).reline (· + n) := by
  unfold next
  split
  · exact congrArg (Pos.mk · 1) (Nat.add_right_comm p.line n 1)
  · rfl

theorem Pos.after_down (p : Pos) (n : Nat) (cs : List Char) :
    (p.reline (· + n)).after cs = (p.after cs).reline (· + n) := by
  induction cs generalizing p with
  | nil => rfl
  | cons c cs ih => exact (congrArg (after · cs) (p.next_down n c)).trans (ih (p.next c))

def Diagnostic.reline (f : Nat → Nat) (d : Diagnostic) : Diagnostic := { d with line := f d.line }

namespace Scan

/-- A scan on other lines. -/
def reline (f : Nat → Nat) (s : Scan) : Scan where
  tokens := s.tokens.map (Token.reline f)
  issues := s.issues.map (Diagnostic.reline f)
  stop := s.stop.reline f

/-- A scan that goes on behind another one. -/
def followed (s behind : Scan) : Scan where
  tokens := s.tokens ++ behind.tokens
  issues := s.issues ++ behind.issues
  stop := behind.stop

theorem place_append (p : Pos) (ss tt : List Span) :
    place p (ss ++ tt) = (place p ss).followed (place (place p ss).stop tt) := by
  induction ss generalizing p with
  | nil => rfl
  | cons s ss ih =>
      simp only [List.cons_append, place, ih]
      cases s.piece <;> rfl

theorem issueLine_down (p : Pos) (n : Nat) (text : List Char) (cause : ScanError) :
    issueLine (p.reline (· + n)) text cause = issueLine p text cause + n := by
  cases cause with
  | unexpectedCharacter => rfl
  | openString | openComment => exact congrArg Pos.line (p.after_down n text)

theorem place_down (p : Pos) (n : Nat) (ss : List Span) :
    place (p.reline (· + n)) ss = (place p ss).reline (· + n) := by
  induction ss generalizing p with
  | nil => rfl
  | cons s ss ih =>
      simp only [place, Pos.after_down, ih, issueLine_down]
      cases s.piece <;> rfl

theorem stop_place (p : Pos) (ss : List Span) :
    (place p ss).stop = p.after (ss.flatMap Span.text) := by
  induction ss generalizing p with
  | nil => rfl
  | cons s ss ih =>
      have behind : (place p (s :: ss)).stop = (place (p.after s.text) ss).stop := by
        simp only [place]
        cases s.piece <;> rfl
      rw [behind, ih, List.flatMap_cons, Pos.after, Pos.after, Pos.after, List.foldl_append]

theorem text_spans (cs : List Char) : (spans cs).flatMap Span.text = cs := by
  induction cs using spans.induct with
  | case1 => simp [spans]
  | case2 c cs ih => rw [spans, List.flatMap_cons, ih, cut_append]

/-- Where nothing is wrong no span is an error. -/
theorem piece_ne_of_issues_nil {p : Pos} {ss : List Span} (quiet : (place p ss).issues = []) :
    ∀ s ∈ ss, ∀ cause, s.piece ≠ .error cause := by
  induction ss generalizing p with
  | nil => simp
  | cons s ss ih =>
      have both : (∀ cause, s.piece ≠ .error cause) ∧ (place (p.after s.text) ss).issues = [] := by
        simp only [place] at quiet
        cases piece : s.piece <;> simp_all
      exact List.forall_mem_cons.mpr ⟨both.1, ih both.2⟩

end Scan

/-- How many lines a source text has. -/
def lineCount (source : String) : Nat := source.toList.count '\n' + 1

theorem stop_line (source : String) : (scan source).stop.line = lineCount source := by
  rw [scan_eq_place, Scan.stop_place, Scan.text_spans, Pos.line_after, lineCount, Nat.add_comm]
  rfl

/-- A text with which nothing is wrong, and another one on the lines below it. -/
theorem scan_append {first : String} (quiet : (scan first).issues = []) (second : String) :
    scan (first ++ "\n" ++ second) =
      (scan first).followed ((scan second).reline (· + lineCount first)) := by
  have pieces := Scan.piece_ne_of_issues_nil (scan_eq_place first ▸ quiet)
  have text : (first ++ "\n" ++ second).toList = first.toList ++ '\n' :: second.toList := by simp
  have behind : (scan first).stop.next '\n' = Pos.start.reline (· + lineCount first) := by
    rw [Pos.next, if_pos rfl, stop_line]
    exact congrArg (Pos.mk · 1) (Nat.add_comm _ _)
  rw [scan_eq_place, text, Scan.spans_newline second.toList first.toList fun s member open' =>
      open'.elim (pieces s member _) (pieces s member _), Scan.place_append,
    ← scan_eq_place first]
  simp only [Scan.place]
  rw [show (scan first).stop.after ['\n'] = (scan first).stop.next '\n' from rfl, behind,
    Scan.place_down, ← scan_eq_place second]

end LoxLang
