import LoxLang.Proofs.Scanning.Division
/-! What stands between tokens. The lexemes of a text, written again with other blanks and comments
between them, are the same tokens: a blank behind a lexeme ends it, and blanks and closed comments
are passed over. -/
namespace LoxLang

/-- Blanks, closed comments and comments up to the end of a line, one behind the other. -/
inductive Gap : List Char → Prop
  | nil : Gap []
  | blank {c : Char} {gap : List Char} : c ∈ [' ', '\r', '\t', '\n'] → Gap gap → Gap (c :: gap)
  | lineComment (body : List Char) {gap : List Char} : '\n' ∉ body → Gap gap →
    Gap ('/' :: '/' :: (body ++ '\n' :: gap))
  | blockComment (body : List Char) {gap : List Char} : ¬['*', '/'] <:+: body ++ ['*'] → Gap gap →
    Gap ('/' :: '*' :: (body ++ '*' :: '/' :: gap))

/-- A text made of lexemes, with a blank and any further gap between each two of them. -/
inductive Rejoined : List String → List Char → Prop
  | none : Rejoined [] []
  | one (lexeme : String) : Rejoined [lexeme] lexeme.toList
  | more (lexeme : String) {next : String} {others : List String} (c : Char)
    {gap rest : List Char} : c ∈ [' ', '\r', '\t', '\n'] → Gap gap →
    Rejoined (next :: others) rest →
    Rejoined (lexeme :: next :: others) (lexeme.toList ++ c :: (gap ++ rest))

/-- What a token is, wherever it stands. -/
structure Token.Face where
  kind : Kind
  lexeme : String
  literal? : Option Literal

def Token.face (t : Token) : Face := ⟨t.kind, t.lexeme, t.literal?⟩

/-- Nothing follows, or a blank. -/
def Blanked (rest : List Char) : Prop := ∀ c tail, rest = c :: tail → c ∈ [' ', '\r', '\t', '\n']

theorem symbols_blank : ∀ entry ∈ Kind.symbols, ∀ c ∈ entry.1, c ∉ [' ', '\r', '\t', '\n'] := by
  have all : ∀ entry ∈ Kind.symbols, entry.1.all fun c => c ∉ [' ', '\r', '\t', '\n'] := by decide
  simpa only [List.all_eq_true, decide_eq_true_eq] using all

namespace Blanked
variable {rest : List Char}

theorem blank {c : Char} (member : c ∈ [' ', '\r', '\t', '\n']) (tail : List Char) :
    Blanked (c :: tail) := by
  rintro _ _ ⟨⟩
  exact member

theorem not_head {c : Char} (blanked : Blanked rest) (other : c ∉ [' ', '\r', '\t', '\n']) :
    ∀ tail, rest ≠ c :: tail :=
  fun tail same => other (blanked c tail same)

theorem not_digit (blanked : Blanked rest) : ∀ e tail, rest = e :: tail → ¬Digit e :=
  fun e tail same => (blanks_head e (blanked e tail same)).2.1

theorem not_word (blanked : Blanked rest) :
    ∀ d tail, rest = d :: tail → ¬(Letter d ∨ Digit d) := by
  intro d tail same
  obtain ⟨letter, digit, -⟩ := blanks_head d (blanked d tail same)
  exact not_or.mpr ⟨letter, digit⟩

/-- No symbol goes on with a blank. -/
theorem longest_symbol {kind : Kind} {text : List Char} (blanked : Blanked rest)
    (symbol : (text, kind) ∈ Kind.symbols) : Longest text rest := by
  obtain ⟨some, head⟩ := symbols_head _ symbol
  obtain ⟨c, cs, rfl⟩ := List.exists_cons_of_ne_nil some
  obtain ⟨letter, digit, quote, slash⟩ := head c (by simp)
  by_cases same : c = '/'
  · cases slash same
    exact .slash (blanked.not_head (by decide)) (blanked.not_head (by decide))
  rintro more further ⟨tail, rfl⟩ piece shape
  obtain ⟨d, more, rfl⟩ := List.exists_cons_of_ne_nil further
  have blank : d ∈ [' ', '\r', '\t', '\n'] := blanked d _ rfl
  rcases shape.of_other letter digit quote same with ⟨kind', -, member⟩ | ⟨-, single, -⟩
  · exact symbols_blank _ member d (by simp) blank
  · simp at single

/-- A lexeme ends before a blank, whatever comes behind that. -/
theorem longest {kind : Kind} {text : List Char} (blanked : Blanked rest)
    (spelt : Lexeme kind text) : Longest text rest := by
  cases spelt with
  | symbol member => exact blanked.longest_symbol member
  | keyword member =>
      obtain ⟨some, letters⟩ := keywords_letters _ member
      rw [String.toList_ofList] at some letters
      obtain ⟨c, cs, rfl⟩ := List.exists_cons_of_ne_nil some
      exact .word (letters c List.mem_cons_self) blanked.not_word
  | identifier letter => exact .word letter blanked.not_word
  | whole digit digits =>
      refine .whole digit digits blanked.not_digit fun e tail point => ?_
      exact absurd point (blanked.not_head (by decide) (e :: tail))
  | decimal digit digits => exact .decimal digit digits blanked.not_digit
  | text => exact .quote _

end Blanked

theorem Lexeme.ne_nil {kind : Kind} {text : List Char} (spelt : Lexeme kind text) : text ≠ [] := by
  rintro rfl
  exact Shape.ne_nil (.token spelt)

namespace Scan

/-- The scan goes on behind a span that is lawful and as long as it can be. -/
theorem spans_next {s : Span} {rest : List Char} (some : s.text ≠ []) (lawful : s.Lawful rest)
    (longest : Longest s.text rest) : spans (s.text ++ rest) = s :: spans rest :=
  (spans_division (s.text ++ rest)).unique (.cons some lawful longest (spans_division rest))

/-- Blanks and closed comments leave nothing but the place behind them. -/
theorem place_pass {s : Span} (p : Pos) (rest : List Char) (some : s.text ≠ [])
    (lawful : s.Lawful rest) (longest : Longest s.text rest)
    (passed : s.piece ∈ [Piece.blank, .lineComment, .blockComment]) :
    place p (spans (s.text ++ rest)) = place (p.after s.text) (spans rest) := by
  rw [spans_next some lawful longest]
  simp only [List.mem_cons, List.not_mem_nil, or_false] at passed
  rcases passed with piece | piece | piece <;> simp only [place, piece]

theorem place_blank {c : Char} (member : c ∈ [' ', '\r', '\t', '\n']) (p : Pos)
    (rest : List Char) : place p (spans (c :: rest)) = place (p.next c) (spans rest) :=
  place_pass (s := ⟨.blank, [c]⟩) p rest (by simp) ⟨c, member, rfl⟩ (.blank member) (by simp)

theorem place_gap {gap : List Char} (layout : Gap gap) (p : Pos) (rest : List Char) :
    place p (spans (gap ++ rest)) = place (p.after gap) (spans rest) := by
  induction layout generalizing p with
  | nil => rfl
  | blank member _ ih =>
      rw [List.cons_append, place_blank member, ih]
      rfl
  | @lineComment body gap inside _ ih =>
      have ends : ∀ d tail, '\n' :: (gap ++ rest) = d :: tail → d = '\n' := by
        rintro _ _ ⟨⟩
        rfl
      have comment := place_pass (s := ⟨.lineComment, '/' :: '/' :: body⟩) p _ (by simp)
        ⟨body, rfl, inside, ends⟩ (.line_comment ends) (by simp)
      rw [place_blank (by decide), ih] at comment
      simpa [Pos.after] using comment
  | @blockComment body gap first _ ih =>
      have comment := place_pass (s := ⟨.blockComment, '/' :: '*' :: (body ++ ['*', '/'])⟩) p
        (gap ++ rest) (by simp) ⟨body, rfl, first⟩ (.block_comment body) (by simp)
      rw [ih] at comment
      simpa [Pos.after] using comment

/-- A lexeme before a blank is scanned as the token that it was. -/
theorem place_lexeme {t : Token} (p : Pos) (rest : List Char)
    (spelt : Lexeme t.kind t.lexeme.toList) (blanked : Blanked rest) :
    place p (spans (t.lexeme.toList ++ rest)) =
      let behind := place (p.after t.lexeme.toList) (spans rest)
      { behind with tokens := { t with pos := p } :: behind.tokens } := by
  have next := spans_next (s := ⟨.token t.kind, t.lexeme.toList⟩) spelt.ne_nil spelt
    (blanked.longest spelt)
  rw [next, place, String.ofList_toList]

theorem place_rejoined {ts : List Token} {cs : List Char}
    (spelt : ∀ t ∈ ts, Lexeme t.kind t.lexeme.toList)
    (rejoined : Rejoined (ts.map Token.lexeme) cs) (p : Pos) :
    (place p (spans cs)).issues = [] ∧
      (place p (spans cs)).tokens.map Token.face = ts.map Token.face := by
  induction ts generalizing cs p with
  | nil =>
      cases rejoined
      simp [spans, place]
  | cons t ts ih =>
      obtain ⟨here, later⟩ := List.forall_mem_cons.mp spelt
      cases ts with
      | nil =>
          cases rejoined
          have alone := place_lexeme p [] here (by rintro _ _ ⟨⟩)
          rw [List.append_nil] at alone
          simp [alone, spans, place, Token.face, Token.literal?]
      | cons u ts =>
          cases rejoined with
          | @more _ _ _ c gap rest member layout rejoined =>
              rw [place_lexeme p _ here (.blank member _), place_blank member, place_gap layout]
              obtain ⟨quiet, same⟩ := ih later rejoined _
              refine ⟨quiet, ?_⟩
              rw [List.map_cons, same]
              rfl

end Scan

/-- Layout does not matter: the lexemes of a text, joined again with any separators, are scanned
without a message as the tokens that they were. -/
theorem scan_rejoined {source : String} {again : String}
    (rejoined : Rejoined ((scan source).tokens.map Token.lexeme) again.toList) :
    (scan again).issues = [] ∧
      (scan again).tokens.map Token.face = (scan source).tokens.map Token.face := by
  rw [scan_eq_place again]
  exact Scan.place_rejoined (fun _ member => scan_lexeme member) rejoined Pos.start

/-- A slash before a comment, a string that opens one, and a number before a point. -/
theorem scan_rejoined_slash :
    let source := "a/\"/*\"1.b"
    let again := "a //\"\n/ /*/\"*/\"/*\"\t\r1 .\nb"
    Rejoined ((scan source).tokens.map Token.lexeme) again.toList ∧ (scan again).issues = [] ∧
      (scan again).tokens.map Token.face = (scan source).tokens.map Token.face := by
  intro source again
  have lexemes : (scan source).tokens.map Token.lexeme = ["a", "/", "\"/*\"", "1", ".", "b"] := by
    decide +kernel
  have rejoined : Rejoined ((scan source).tokens.map Token.lexeme) again.toList := by
    rw [lexemes]
    have line : Gap "//\"\n".toList := .lineComment ['"'] (by decide) .nil
    have block : Gap "/*/\"*/".toList := .blockComment ['/', '"'] (by decide) .nil
    have blank : Gap "\r".toList := .blank (by decide) .nil
    have joined := Rejoined.more "a" ' ' (by decide) line <| .more "/" ' ' (by decide) block <|
      .more "\"/*\"" '\t' (by decide) blank <| .more "1" ' ' (by decide) .nil <|
      .more "." '\n' (by decide) .nil <| .one "b"
    simpa [again] using joined
  exact ⟨rejoined, scan_rejoined rejoined⟩

end LoxLang
