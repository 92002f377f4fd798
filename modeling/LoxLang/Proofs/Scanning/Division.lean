import LoxLang.Proofs.Scanning.Cutting
import LoxLang.Proofs.Relining.Scanning
import LoxLang.Proofs.Scanning
/-! A source text has one division into longest spans. The scan finds it, and its tokens and
messages are those of the spans, each at the place where its span starts. -/
namespace LoxLang

/-- What the text of a span is, by its piece, and where it stops. -/
def Span.Lawful (s : Span) (rest : List Char) : Prop :=
  match s.piece with
  | .token kind => Lexeme kind s.text
  | .blank => ∃ c ∈ [' ', '\r', '\t', '\n'], s.text = [c]
  | .lineComment => ∃ body, s.text = '/' :: '/' :: body ∧ '\n' ∉ body ∧
      ∀ d tail, rest = d :: tail → d = '\n'
  | .blockComment => ∃ body, s.text = '/' :: '*' :: (body ++ ['*', '/']) ∧
      ¬['*', '/'] <:+: body ++ ['*']
  | .error .unexpectedCharacter => ∃ c, s.text = [c] ∧ ∀ piece more, ¬Shape piece (c :: more)
  | .error .openString => ∃ body, s.text = '"' :: body ∧ '"' ∉ body ∧ rest = []
  | .error .openComment => ∃ body, s.text = '/' :: '*' :: body ∧ ¬['*', '/'] <:+: body ∧ rest = []

/-- The token of a span that starts at `p`. -/
def Span.token? (p : Pos) (s : Span) : Option Token :=
  match s.piece with
  | .token kind => some ⟨kind, String.ofList s.text, p⟩
  | _ => none

/-- The message about a span that starts at `p`. -/
def Span.issue? (p : Pos) (s : Span) : Option Diagnostic :=
  match s.piece with
  | .error cause => some ⟨Scan.issueLine p s.text cause, .nowhere, cause.message⟩
  | _ => none

/-- The spans cover the text one after the other, and each is the longest that fits there. -/
structure Division (text : List Char) (ss : List Span) : Prop where
  covers : ss.flatMap Span.text = text
  nonempty : ∀ s ∈ ss, s.text ≠ []
  lawful : ∀ before s after, ss = before ++ s :: after → s.Lawful (after.flatMap Span.text)
  longest : ∀ before s after, ss = before ++ s :: after →
    Longest s.text (after.flatMap Span.text)

/-- The spans with the places where they start. -/
def Scan.places (p : Pos) : List Span → List (Pos × Span)
  | [] => []
  | s :: rest => (p, s) :: places (p.after s.text) rest

/-- The scan of a text with these spans. -/
structure Scan.Reads (result : Scan) (ss : List Span) : Prop where
  tokens : result.tokens = (places Pos.start ss).filterMap fun placed => placed.2.token? placed.1
  issues : result.issues = (places Pos.start ss).filterMap fun placed => placed.2.issue? placed.1
  stop : result.stop = Pos.start.after (ss.flatMap Span.text)
  /-- A string stands for what is between its quotes. -/
  texts : ∀ t ∈ result.tokens, t.kind = .text → ∃ body, t.lexeme.toList = '"' :: (body ++ ['"']) ∧
    '"' ∉ body ∧ t.literal? = some (.text (String.ofList body))

theorem Span.Fits.longest {s : Span} {rest : List Char} (fits : s.Fits rest) :
    Longest s.text rest := by
  rcases fits with ⟨-, longest⟩ | ⟨c, rfl, nothing⟩
  · exact longest
  · intro more _ _ piece
    exact nothing piece more

theorem Cuts.lawful {s : Span} {rest : List Char} (cuts : Cuts s rest) : s.Lawful rest := by
  cases cuts with
  | single single => exact .symbol (Scan.single?_symbol single)
  | alone pair => exact .symbol (Scan.comparison?_symbol pair).1
  | withEqual pair => exact .symbol (Scan.comparison?_symbol pair).2
  | slash => exact .symbol (by decide)
  | lineComment inside ends => exact ⟨_, rfl, inside, ends⟩
  | blockComment first => exact ⟨_, rfl, first⟩
  | openComment still => exact ⟨_, rfl, still, rfl⟩
  | blank member => exact ⟨_, member, rfl⟩
  | text closed => exact .text closed
  | openString still => exact ⟨_, rfl, still, rfl⟩
  | whole digit digits => exact .whole digit digits
  | decimal digit digits place places => exact .decimal digit digits place places
  | word letter parts => exact lexeme_word letter parts
  | unexpected single pair slash blank quote digit letter =>
      exact ⟨_, rfl, starts_nothing single pair slash blank quote digit letter⟩

/-- A lawful span that cannot be longer is the one that fits. -/
theorem Span.Lawful.fits {s : Span} {rest : List Char} (lawful : s.Lawful rest)
    (longest : Longest s.text rest) : s.Fits rest := by
  cases s with | mk piece text =>
  cases piece with
  | token kind => exact .inl ⟨.token lawful, longest⟩
  | blank =>
      obtain ⟨c, member, rfl⟩ := lawful
      exact .inl ⟨.blank member, longest⟩
  | lineComment =>
      obtain ⟨body, rfl, inside, -⟩ := lawful
      exact .inl ⟨.lineComment inside, longest⟩
  | blockComment =>
      obtain ⟨body, rfl, first⟩ := lawful
      exact .inl ⟨.blockComment first, longest⟩
  | error cause =>
      cases cause with
      | unexpectedCharacter =>
          obtain ⟨c, rfl, nothing⟩ := lawful
          exact .inr ⟨c, rfl, nothing⟩
      | openString =>
          obtain ⟨body, rfl, still, -⟩ := lawful
          exact .inl ⟨.openString still, longest⟩
      | openComment =>
          obtain ⟨body, rfl, still, -⟩ := lawful
          exact .inl ⟨.openComment still, longest⟩

namespace Division
variable {s : Span} {ss tt : List Span} {text rest : List Char}

theorem nil : Division [] [] where
  covers := rfl
  nonempty := by simp
  lawful := by simp
  longest := by simp

theorem cons (some : s.text ≠ []) (lawful : s.Lawful rest) (longest : Longest s.text rest)
    (division : Division rest ss) : Division (s.text ++ rest) (s :: ss) where
  covers := by rw [List.flatMap_cons, division.covers]
  nonempty := List.forall_mem_cons.mpr ⟨some, division.nonempty⟩
  lawful := by
    intro before t after same
    cases before with
    | nil =>
        obtain ⟨rfl, rfl⟩ := List.cons.inj same
        exact division.covers.symm ▸ lawful
    | cons b before => exact division.lawful before t after (List.cons.inj same).2
  longest := by
    intro before t after same
    cases before with
    | nil =>
        obtain ⟨rfl, rfl⟩ := List.cons.inj same
        exact division.covers.symm ▸ longest
    | cons b before => exact division.longest before t after (List.cons.inj same).2

theorem tail (division : Division text (s :: ss)) : Division (ss.flatMap Span.text) ss where
  covers := rfl
  nonempty t member := division.nonempty t (List.mem_cons_of_mem s member)
  lawful before t after same := division.lawful (s :: before) t after (congrArg (s :: ·) same)
  longest before t after same := division.longest (s :: before) t after (congrArg (s :: ·) same)

theorem head_fits (division : Division text (s :: ss)) : s.Fits (ss.flatMap Span.text) :=
  (division.lawful [] s ss rfl).fits (division.longest [] s ss rfl)

/-- A text is divided in one way. -/
theorem unique (division : Division text ss) (again : Division text tt) : ss = tt := by
  induction ss generalizing text tt with
  | nil =>
      cases tt with
      | nil => rfl
      | cons t tt =>
          have both := division.covers.trans again.covers.symm
          rw [List.flatMap_cons] at both
          exact absurd (List.append_eq_nil_iff.mp both.symm).1 (again.nonempty t List.mem_cons_self)
  | cons s ss ih =>
      cases tt with
      | nil =>
          have both := division.covers.trans again.covers.symm
          rw [List.flatMap_cons] at both
          exact absurd (List.append_eq_nil_iff.mp both).1 (division.nonempty s List.mem_cons_self)
      | cons t tt =>
          have both := division.covers.trans again.covers.symm
          rw [List.flatMap_cons, List.flatMap_cons] at both
          obtain ⟨rfl, rest⟩ := division.head_fits.unique again.head_fits both
          exact congrArg (s :: ·) (ih division.tail (rest ▸ again.tail))

end Division

namespace Scan

theorem spans_division (cs : List Char) : Division cs (spans cs) := by
  induction cs using spans.induct with
  | case1 => simpa [spans] using Division.nil
  | case2 c cs ih =>
      have cuts := cut_cuts c cs
      have whole := cut_append c cs
      rw [spans]
      exact whole ▸ Division.cons (s := ⟨(cut c cs).piece, (cut c cs).text⟩) (cut_text_ne_nil c cs)
        cuts.lawful cuts.fits.longest ih

theorem place_tokens (p : Pos) (ss : List Span) :
    (place p ss).tokens = (places p ss).filterMap fun placed => placed.2.token? placed.1 := by
  induction ss generalizing p with
  | nil => rfl
  | cons s ss ih =>
      cases piece : s.piece <;>
        simp only [place, places, List.filterMap_cons, Span.token?, piece, ih]

theorem place_issues (p : Pos) (ss : List Span) :
    (place p ss).issues = (places p ss).filterMap fun placed => placed.2.issue? placed.1 := by
  induction ss generalizing p with
  | nil => rfl
  | cons s ss ih =>
      cases piece : s.piece <;>
        simp only [place, places, List.filterMap_cons, Span.issue?, piece, ih]

end Scan

theorem lexeme_text {text : List Char} (spelt : Lexeme .text text) :
    ∃ body, text = '"' :: (body ++ ['"']) ∧ '"' ∉ body := by
  cases spelt with
  | symbol member => exact absurd rfl (symbols_other _ member)
  | keyword member => exact absurd rfl (keywords_other _ member)
  | text closed => exact ⟨_, rfl, closed⟩

theorem Token.text_literal {t : Token} {body : List Char} (kind : t.kind = .text)
    (lexeme : t.lexeme.toList = '"' :: (body ++ ['"'])) :
    t.literal? = some (.text (String.ofList body)) := by
  simp [literal?, kind, lexeme]

/-- Every token of a source text has a lexeme of its kind. -/
theorem scan_lexeme {source : String} {t : Token} (member : t ∈ (scan source).tokens) :
    Lexeme t.kind t.lexeme.toList := by
  rw [scan_eq_place] at member
  obtain ⟨s, inside, piece, lexeme⟩ := Scan.mem_place member
  obtain ⟨before, after, split⟩ := List.append_of_mem inside
  have lawful := (Scan.spans_division source.toList).lawful before s after split
  rw [Span.Lawful, piece] at lawful
  rwa [lexeme, String.toList_ofList]

/-- The scan divides a source text into the longest spans that the grammar of tokens has, in the
one way there is, and loses nothing of it. -/
theorem scan_divides (source : String) :
    ∃ ss, Division source.toList ss ∧ (∀ tt, Division source.toList tt → tt = ss) ∧
      (scan source).Reads ss := by
  have division := Scan.spans_division source.toList
  refine ⟨Scan.spans source.toList, division, fun tt again => again.unique division, ?_⟩
  exact {
    tokens := by rw [scan_eq_place, Scan.place_tokens]
    issues := by rw [scan_eq_place, Scan.place_issues]
    stop := by rw [scan_eq_place, Scan.stop_place]
    texts := by
      intro t member kind
      obtain ⟨body, spelled, closed⟩ := lexeme_text (kind ▸ scan_lexeme member)
      exact ⟨body, spelled, closed, Token.text_literal kind spelled⟩ }

end LoxLang
