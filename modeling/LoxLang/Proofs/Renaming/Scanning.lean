import LoxLang.Proofs.Respelling
import LoxLang.Proofs.Scanning.Places
/-! A source text with another word put for some of its identifiers. It is divided where the text
was, so it has the same tokens but for these words, each on the line where it was. -/
namespace LoxLang

/-- Two texts that start alike up to a word. -/
inductive Akin : List Char → List Char → Prop
  | nil : Akin [] []
  | letter {c d : Char} {cs ds : List Char} : Letter c → Letter d → Akin (c :: cs) (d :: ds)
  | same {c : Char} {cs ds : List Char} : Akin cs ds → Akin (c :: cs) (c :: ds)

namespace Akin
variable {rest rest' tail : List Char} {c : Char}

theorem append (akin : Akin rest rest') (text : List Char) : Akin (text ++ rest) (text ++ rest') := by
  induction text with
  | nil => exact akin
  | cons c text ih => exact .same ih

theorem of_nil (akin : Akin [] rest) : rest = [] := by
  cases akin
  rfl

/-- What is no letter is in front of both. -/
theorem head (akin : Akin rest (c :: tail)) (other : ¬Letter c) :
    ∃ tail', rest = c :: tail' ∧ Akin tail' tail := by
  cases akin with
  | letter _ letter => exact absurd letter other
  | same akin => exact ⟨_, rfl, akin⟩

theorem ne_head (akin : Akin rest rest') (other : ¬Letter c) (ne : ∀ tail, rest ≠ c :: tail) :
    ∀ tail, rest' ≠ c :: tail := by
  rintro tail rfl
  obtain ⟨tail', same, -⟩ := akin.head other
  exact ne tail' same

theorem not_digit (akin : Akin rest rest') (ends : ∀ d tail, rest = d :: tail → ¬Digit d) :
    ∀ d tail, rest' = d :: tail → ¬Digit d := by
  rintro d tail rfl
  cases akin with
  | letter _ letter => exact fun digit => digit.not_letter letter
  | same _ => exact ends d _ rfl

theorem not_word (akin : Akin rest rest')
    (ends : ∀ d tail, rest = d :: tail → ¬(Letter d ∨ Digit d)) :
    ∀ d tail, rest' = d :: tail → ¬(Letter d ∨ Digit d) := by
  rintro d tail rfl
  cases akin with
  | letter letter _ => exact absurd (.inl letter) (ends _ _ rfl)
  | same _ => exact ends d _ rfl

end Akin

namespace Cuts
variable {s : Span} {text rest rest' : List Char}

/-- What the scan cuts off is cut off before a text that goes on alike. -/
theorem akin (cuts : Cuts s rest) (akin : Akin rest rest') : Cuts s rest' := by
  cases cuts with
  | single single => exact .single single
  | alone pair ends => exact .alone pair (akin.ne_head (by decide) ends)
  | withEqual pair => exact .withEqual pair
  | slash line block =>
      exact .slash (akin.ne_head (by decide) line) (akin.ne_head (by decide) block)
  | lineComment inside ends =>
      refine .lineComment inside fun d tail same => ?_
      subst same
      cases akin with
      | letter letter _ =>
          obtain rfl := ends _ _ rfl
          exact absurd letter (by decide)
      | same _ => exact ends d _ rfl
  | blockComment first => exact .blockComment first
  | openComment still =>
      obtain rfl := akin.of_nil
      exact .openComment still
  | blank member => exact .blank member
  | text closed => exact .text closed
  | openString still =>
      obtain rfl := akin.of_nil
      exact .openString still
  | whole digit digits ends places =>
      refine .whole digit digits (akin.not_digit ends) ?_
      rintro e tail rfl
      obtain ⟨tail', rfl, akin'⟩ := akin.head (by decide)
      exact akin'.not_digit (fun e tail same => places e tail (congrArg ('.' :: ·) same)) e tail rfl
  | decimal digit digits place places ends =>
      exact .decimal digit digits place places (akin.not_digit ends)
  | word letter parts ends => exact .word letter parts (akin.not_word ends)
  | unexpected single pair slash blank quote digit letter =>
      exact .unexpected single pair slash blank quote digit letter

/-- An identifier stops where no further letter or digit is. -/
theorem identifier (cuts : Cuts ⟨.token .identifier, text⟩ rest) :
    ∀ d tail, rest = d :: tail → ¬(Letter d ∨ Digit d) := by
  generalize same : (⟨.token .identifier, text⟩ : Span) = s at cuts
  cases cuts with
  | single single => exact absurd (Piece.token.inj (Span.mk.inj same).1).symm (Scan.single?_ne single)
  | alone pair _ =>
      exact absurd (Piece.token.inj (Span.mk.inj same).1).symm (Scan.comparison?_ne pair).1
  | withEqual pair =>
      exact absurd (Piece.token.inj (Span.mk.inj same).1).symm (Scan.comparison?_ne pair).2
  | word _ _ ends => exact ends
  | _ => cases same

end Cuts

/-- An identifier is a word that is not reserved. -/
theorem lexeme_identifier {text : List Char} (spelt : Lexeme .identifier text) :
    ∃ c cs, text = c :: cs ∧ Letter c ∧ (∀ d ∈ cs, Letter d ∨ Digit d) ∧
      Kind.ofWord (String.ofList text) = .identifier := by
  cases spelt with
  | symbol member =>
      have other : ∀ entry ∈ Kind.symbols, entry.2 ≠ .identifier := by decide
      exact absurd rfl (other _ member)
  | keyword member =>
      have other : ∀ entry ∈ Kind.keywords, entry.2 ≠ .identifier := by decide
      exact absurd rfl (other _ member)
  | identifier letter parts free =>
      exact ⟨_, _, rfl, letter, parts, ofWord_other free⟩

/-- A newline is in no word. -/
theorem lexeme_newline {text : List Char} (spelt : Lexeme .identifier text) :
    text.count '\n' = 0 := by
  obtain ⟨c, cs, rfl, letter, parts, -⟩ := lexeme_identifier spelt
  rw [List.count_eq_zero]
  intro member
  have other : ¬(Letter '\n' ∨ Digit '\n') := by decide
  rcases List.mem_cons.mp member with same | behind
  · exact other (.inl (same ▸ letter))
  · exact other (parts _ behind)

theorem Scan.spans_cuts {s : Span} {rest : List Char} (cuts : Cuts s rest) (some : s.text ≠ []) :
    spans (s.text ++ rest) = s :: spans rest := by
  obtain ⟨piece, text⟩ := s
  obtain ⟨c, cs, rfl⟩ := List.exists_cons_of_ne_nil some
  rw [List.cons_append, spans, cuts.eq_cut]

/-- The span with another word for its text, if it is an identifier at one of the places. -/
def Span.rewrite (marks : List Pos) (word : List Char) (p : Pos) (s : Span) : Span :=
  if s.piece = .token .identifier ∧ p ∈ marks then ⟨.token .identifier, word⟩ else s

namespace Scan

def rewriteFrom (marks : List Pos) (word : List Char) (p : Pos) (ss : List Span) : List Span :=
  (places p ss).map fun placed => placed.2.rewrite marks word placed.1

variable {marks : List Pos} {word : List Char}

/-- The new text is divided into the new spans. -/
theorem spans_rewrite (spelt : Lexeme .identifier word) (cs : List Char) (p : Pos) :
    Akin cs ((rewriteFrom marks word p (spans cs)).flatMap Span.text) ∧
      spans ((rewriteFrom marks word p (spans cs)).flatMap Span.text) =
        rewriteFrom marks word p (spans cs) := by
  induction cs using spans.induct generalizing p with
  | case1 => simpa [spans, rewriteFrom, places] using Akin.nil
  | case2 c cs ih =>
      have cuts := cut_cuts c cs
      have whole := cut_append c cs
      have some := cut_text_ne_nil c cs
      obtain ⟨akin, again⟩ := ih (p.after (cut c cs).text)
      rw [spans]
      generalize cut c cs = k at cuts whole some akin again
      obtain ⟨piece, text, rest⟩ := k
      dsimp only at cuts whole some akin again ⊢
      rw [← whole, rewriteFrom, places, List.map_cons, List.flatMap_cons, ← rewriteFrom]
      by_cases marked : piece = .token .identifier ∧ p ∈ marks
      · obtain ⟨rfl, here⟩ := marked
        -- The new word ends where the old one did, before no letter and no digit.
        have ends := akin.not_word cuts.identifier
        obtain ⟨d, ds, rfl, letter', parts, free⟩ := lexeme_identifier spelt
        obtain ⟨e, es, rfl, letter, -⟩ := lexeme_identifier cuts.lawful
        have cuts' := Cuts.word letter' parts ends
        rw [free] at cuts'
        rw [Span.rewrite, if_pos ⟨rfl, here⟩]
        exact ⟨.letter letter letter', by rw [spans_cuts cuts' (by simp), again]⟩
      · rw [Span.rewrite, if_neg marked]
        exact ⟨akin.append text, by rw [spans_cuts (cuts.akin akin) some, again]⟩

/-- Where each span of a text starts, and where it starts with the new words. -/
def shifts (marks : List Pos) (word : List Char) (p q : Pos) : List Span → List (Pos × Pos)
  | [] => []
  | s :: rest =>
    (p, q) :: shifts marks word (p.after s.text) (q.after (s.rewrite marks word p).text) rest

theorem shifts_fst (p q : Pos) (ss : List Span) :
    (shifts marks word p q ss).map Prod.fst = (places p ss).map Prod.fst := by
  induction ss generalizing p q with
  | nil => rfl
  | cons s rest ih => exact congrArg (p :: ·) (ih _ _)

/-- A new word is on the line where the old one was. -/
theorem shifts_line (spelt : Lexeme .identifier word) {ss : List Span}
    (lawful : ∀ s ∈ ss, s.piece = .token .identifier → Lexeme .identifier s.text) :
    ∀ p q, q.line = p.line → ∀ e ∈ shifts marks word p q ss, e.2.line = e.1.line := by
  induction ss with
  | nil => simp [shifts]
  | cons s rest ih =>
      intro p q same
      obtain ⟨here, later⟩ := List.forall_mem_cons.mp lawful
      refine List.forall_mem_cons.mpr ⟨same, ih later _ _ ?_⟩
      rw [Pos.line_after, Pos.line_after, same, Span.rewrite]
      split
      · next marked => rw [lexeme_newline spelt, lexeme_newline (here marked.1)]
      · rfl

theorem token_rewrite {τ : Respelling} {p q : Pos}
    (text : ∀ n, τ.text n = if n.pos ∈ marks then String.ofList word else n.text)
    (moved : τ.pos p = q) (s : Span) :
    (s.rewrite marks word p).token? q = (s.token? p).map (Token.respell τ) := by
  obtain ⟨piece, cs⟩ := s
  subst moved
  by_cases marked : piece = .token .identifier ∧ p ∈ marks
  · obtain ⟨rfl, here⟩ := marked
    rw [Span.rewrite, if_pos ⟨rfl, here⟩]
    simp [Span.token?, Token.respell, Name.respell, Name.token, text, here]
  · rw [Span.rewrite, if_neg marked]
    cases piece with
    | token kind =>
        by_cases word : kind = .identifier
        · subst word
          have elsewhere : p ∉ marks := fun here => marked ⟨rfl, here⟩
          simp [Span.token?, Token.respell, Name.respell, Name.token, text, elsewhere]
        · simp [Span.token?, Token.respell, word]
    | _ => rfl

/-- The tokens of the new spans are the old ones with the new words, where the new spans start. -/
theorem tokens_rewrite {τ : Respelling}
    (text : ∀ n, τ.text n = if n.pos ∈ marks then String.ofList word else n.text) (ss : List Span) :
    ∀ p q, (∀ e ∈ shifts marks word p q ss, τ.pos e.1 = e.2) →
      (places q (rewriteFrom marks word p ss)).filterMap (fun placed => placed.2.token? placed.1) =
        ((places p ss).filterMap fun placed => placed.2.token? placed.1).map (Token.respell τ) := by
  induction ss with
  | nil => exact fun _ _ _ => rfl
  | cons s rest ih =>
      intro p q moved
      obtain ⟨here, later⟩ := List.forall_mem_cons.mp moved
      have token : (s.rewrite marks word p).token? q = (s.token? p).map (Token.respell τ) :=
        token_rewrite text here s
      have behind := ih _ _ later
      rw [rewriteFrom, places, List.map_cons, places, List.filterMap_cons, List.filterMap_cons, token]
      dsimp only
      rw [← rewriteFrom, behind]
      cases s.token? p <;> rfl

/-- Each place has one new place. -/
theorem shifts_lookup {p q : Pos} {ss : List Span} (some : ∀ s ∈ ss, s.text ≠ []) {a b : Pos}
    (member : (a, b) ∈ shifts marks word p q ss) :
    (shifts marks word p q ss).lookup a = .some b := by
  have once : ((shifts marks word p q ss).map Prod.fst).Pairwise Pos.Before := by
    rw [shifts_fst, List.pairwise_map]
    exact places_increase some
  obtain ⟨before, after, split⟩ := List.append_of_mem member
  rw [split, List.map_append, List.map_cons] at once
  refine List.lookup_eq_some_iff.mpr ⟨before, after, split, fun e earlier => ?_⟩
  have first := (List.pairwise_append.mp once).2.2 e.1 (List.mem_map_of_mem earlier) a
    List.mem_cons_self
  exact bne_iff_ne.mpr first.ne.symm

/-- No new word is an error. -/
theorem issues_rewrite {ss : List Span} (quiet : ∀ s ∈ ss, ∀ cause, s.piece ≠ .error cause) :
    ∀ p q, (place q (rewriteFrom marks word p ss)).issues = [] := by
  induction ss with
  | nil => exact fun _ _ => rfl
  | cons s rest ih =>
      intro p q
      obtain ⟨here, later⟩ := List.forall_mem_cons.mp quiet
      have behind := ih later (p.after s.text) (q.after (s.rewrite marks word p).text)
      have fine : ∀ cause, (s.rewrite marks word p).piece ≠ .error cause := by
        intro cause
        unfold Span.rewrite
        split
        · exact fun same => by cases same
        · exact here cause
      rw [rewriteFrom, places, List.map_cons, ← rewriteFrom, place]
      cases piece : (s.rewrite marks word p).piece with
      | error cause => exact absurd piece (fine cause)
      | _ => exact behind

end Scan

/-- The source text with another word for its identifiers at some places. -/
def rewritten (marks : List Pos) (word source : String) : String :=
  String.ofList ((Scan.rewriteFrom marks word.toList Pos.start
    (Scan.spans source.toList)).flatMap Span.text)

variable {marks : List Pos} {word source : String}

theorem scan_rewritten (spelt : Lexeme .identifier word.toList) :
    scan (rewritten marks word source) =
      Scan.place Pos.start (Scan.rewriteFrom marks word.toList Pos.start
        (Scan.spans source.toList)) := by
  rw [scan_eq_place, rewritten, String.toList_ofList, (Scan.spans_rewrite spelt _ _).2]

/-- The tokens of the text with the new word are those of the text, respelled. -/
theorem tokens_rewritten (spelt : Lexeme .identifier word.toList) (marks : List Pos)
    (source : String) :
    ∃ τ : Respelling, (∀ n, τ.text n = if n.pos ∈ marks then word else n.text) ∧
      (scan (rewritten marks word source)).tokens =
        (scan source).tokens.map (Token.respell τ) := by
  have division := Scan.spans_division source.toList
  have lawful : ∀ s ∈ Scan.spans source.toList, s.piece = .token .identifier →
      Lexeme .identifier s.text := by
    intro s member same
    obtain ⟨before, after, split⟩ := List.append_of_mem member
    have here := division.lawful before s after split
    rwa [Span.Lawful, same] at here
  let moves := Scan.shifts marks word.toList Pos.start Pos.start (Scan.spans source.toList)
  have lines : ∀ e ∈ moves, e.2.line = e.1.line := Scan.shifts_line spelt lawful _ _ rfl
  let τ : Respelling := {
    text := fun n => if n.pos ∈ marks then word else n.text
    pos := fun p => (moves.lookup p).getD p
    line_pos := by
      intro p
      cases found : moves.lookup p with
      | none => rfl
      | some q =>
          obtain ⟨before, after, split, -⟩ := List.lookup_eq_some_iff.mp found
          exact lines (p, q) (split ▸ by simp) }
  refine ⟨τ, fun _ => rfl, ?_⟩
  rw [scan_rewritten spelt, scan_eq_place, Scan.place_tokens, Scan.place_tokens]
  refine Scan.tokens_rewrite (fun n => ?_) _ _ _ fun e member => ?_
  · rw [String.ofList_toList]
  · have found : moves.lookup e.1 = some e.2 := Scan.shifts_lookup division.nonempty member
    exact congrArg (Option.getD · e.1) found

theorem issues_rewritten (spelt : Lexeme .identifier word.toList)
    (quiet : (scan source).issues = []) : (scan (rewritten marks word source)).issues = [] := by
  rw [scan_rewritten spelt]
  exact Scan.issues_rewrite (Scan.piece_ne_of_issues_nil (scan_eq_place source ▸ quiet)) _ _

end LoxLang
