import LoxLang.Token.Scan
/-! The grammar of tokens, stated apart from the scan: which texts are tokens of a kind, and which
are blanks and comments. A text is divided into spans by taking, again and again, the longest
beginning that the grammar has. -/
namespace LoxLang

/-- The ASCII letters, and the underscore among them. -/
def Letter (c : Char) : Prop := ('a' ≤ c ∧ c ≤ 'z') ∨ ('A' ≤ c ∧ c ≤ 'Z') ∨ c = '_'

def Digit (c : Char) : Prop := '0' ≤ c ∧ c ≤ '9'

instance : DecidablePred Letter := fun c =>
  inferInstanceAs (Decidable (('a' ≤ c ∧ c ≤ 'z') ∨ ('A' ≤ c ∧ c ≤ 'Z') ∨ c = '_'))

instance : DecidablePred Digit := fun c => inferInstanceAs (Decidable ('0' ≤ c ∧ c ≤ '9'))

/-- The tokens that are spelled in one way only and are no words. -/
def Kind.symbols : List (List Char × Kind) :=
  [(['('], .leftParen), ([')'], .rightParen), (['\x7b'], .leftBrace), (['\x7d'], .rightBrace),
   ([','], .comma), (['.'], .dot), (['-'], .minus), (['+'], .plus), ([';'], .semicolon),
   (['/'], .slash), (['*'], .star), (['?'], .question), ([':'], .colon),
   (['!'], .bang), (['!', '='], .bangEqual), (['='], .equal), (['=', '='], .equalEqual),
   (['>'], .greater), (['>', '='], .greaterEqual), (['<'], .less), (['<', '='], .lessEqual)]

/-- The texts that are tokens of a kind. -/
inductive Lexeme : Kind → List Char → Prop
  | symbol {kind : Kind} {text : List Char} : (text, kind) ∈ Kind.symbols → Lexeme kind text
  | keyword {kind : Kind} {text : List Char} : (String.ofList text, kind) ∈ Kind.keywords →
    Lexeme kind text
  | identifier {c : Char} {cs : List Char} : Letter c → (∀ d ∈ cs, Letter d ∨ Digit d) →
    (∀ kind, (String.ofList (c :: cs), kind) ∉ Kind.keywords) → Lexeme .identifier (c :: cs)
  | whole {d : Char} {ds : List Char} : Digit d → (∀ d ∈ ds, Digit d) → Lexeme .number (d :: ds)
  | decimal {d e : Char} {ds es : List Char} : Digit d → (∀ d ∈ ds, Digit d) →
    Digit e → (∀ e ∈ es, Digit e) → Lexeme .number (d :: (ds ++ '.' :: e :: es))
  | text {body : List Char} : '"' ∉ body → Lexeme .text ('"' :: (body ++ ['"']))

/-- The texts that are spans of a piece. Strings and comments that are still open are among
them; a character that starts nothing is not. -/
inductive Shape : Piece → List Char → Prop
  | token {kind : Kind} {text : List Char} : Lexeme kind text → Shape (.token kind) text
  | blank {c : Char} : c ∈ [' ', '\r', '\t', '\n'] → Shape .blank [c]
  | lineComment {body : List Char} : '\n' ∉ body → Shape .lineComment ('/' :: '/' :: body)
  /-- The first `*/` behind the opening is the last two characters. -/
  | blockComment {body : List Char} : ¬['*', '/'] <:+: body ++ ['*'] →
    Shape .blockComment ('/' :: '*' :: (body ++ ['*', '/']))
  | openString {body : List Char} : '"' ∉ body → Shape (.error .openString) ('"' :: body)
  | openComment {body : List Char} : ¬['*', '/'] <:+: body →
    Shape (.error .openComment) ('/' :: '*' :: body)

/-- Nothing that the grammar has goes on from this text into what follows it. -/
def Longest (text rest : List Char) : Prop :=
  ∀ more, more ≠ [] → more <+: rest → ∀ piece, ¬Shape piece (text ++ more)

/-- A span before the rest of a text: the longest beginning that the grammar has, or one
character with which nothing in the grammar starts. -/
def Span.Fits (s : Span) (rest : List Char) : Prop :=
  (Shape s.piece s.text ∧ Longest s.text rest) ∨
    ∃ c, s = ⟨.error .unexpectedCharacter, [c]⟩ ∧ ∀ piece more, ¬Shape piece (c :: more)

theorem isDigit_iff (c : Char) : c.isDigit = true ↔ Digit c := by
  simp [Char.isDigit, Digit, Char.le_def]

theorem isWordStart_iff (c : Char) : Scan.isWordStart c = true ↔ Letter c := by
  have spelled : Scan.isWordStart c = (decide ('A' ≤ c ∧ c ≤ 'Z') ||
      (decide ('a' ≤ c) && decide (c ≤ 'z')) || decide (c = '_')) := rfl
  rw [spelled, Letter]
  simp only [Bool.or_eq_true, decide_eq_true_eq, Bool.and_eq_true]
  constructor
  · rintro ((upper | lower) | line)
    · exact .inr (.inl upper)
    · exact .inl lower
    · exact .inr (.inr line)
  · rintro (lower | upper | line)
    · exact .inl (.inr lower)
    · exact .inl (.inl upper)
    · exact .inr line

theorem isWordPart_iff (c : Char) : Scan.isWordPart c = true ↔ Letter c ∨ Digit c := by
  simp only [Scan.isWordPart, Bool.or_eq_true, isWordStart_iff, isDigit_iff]

/-! The first character of a text says which shapes it can have. -/

theorem Digit.not_letter {c : Char} (digit : Digit c) : ¬Letter c := by
  simp only [Digit, Letter, Char.le_def, UInt32.le_iff_toNat_le] at digit ⊢
  rintro (lower | upper | rfl)
  · have := Nat.le_trans lower.1 digit.2
    contradiction
  · have := Nat.le_trans upper.1 digit.2
    contradiction
  · revert digit
    decide

/-- No symbol starts like a word, a number or a string, and one only like a comment. -/
theorem symbols_head : ∀ entry ∈ Kind.symbols, entry.1 ≠ [] ∧ ∀ c ∈ entry.1.take 1,
    ¬Letter c ∧ ¬Digit c ∧ c ≠ '"' ∧ (c = '/' → entry = (['/'], .slash)) := by
  -- Decided along the list of characters, not for every character that there is.
  have all : ∀ entry ∈ Kind.symbols, entry.1 ≠ [] ∧ (entry.1.take 1).all fun c =>
      ¬Letter c ∧ ¬Digit c ∧ c ≠ '"' ∧ (c = '/' → entry = (['/'], .slash)) := by decide
  simpa only [List.all_eq_true, decide_eq_true_eq] using all

/-- A symbol is of one kind. -/
theorem symbols_kind : ∀ entry ∈ Kind.symbols, ∀ other ∈ Kind.symbols,
    entry.1 = other.1 → entry.2 = other.2 := by
  decide

/-- Reserved words are made of letters. -/
theorem keywords_letters : ∀ entry ∈ Kind.keywords, entry.1.toList ≠ [] ∧
    ∀ c ∈ entry.1.toList, Letter c := by
  have all : ∀ entry ∈ Kind.keywords, entry.1.toList ≠ [] ∧
      entry.1.toList.all fun c => Letter c := by decide +kernel
  simpa only [List.all_eq_true, decide_eq_true_eq] using all

/-- A word is no string. -/
theorem keywords_other : ∀ entry ∈ Kind.keywords, entry.2 ≠ .text := by decide

theorem symbols_other : ∀ entry ∈ Kind.symbols, entry.2 ≠ .text := by decide

theorem keywords_ofWord : ∀ entry ∈ Kind.keywords, Kind.ofWord entry.1 = entry.2 := by
  decide +kernel

theorem keyword_letter {c : Char} {cs : List Char} {kind : Kind}
    (member : (String.ofList (c :: cs), kind) ∈ Kind.keywords) : Letter c :=
  (keywords_letters _ member).2 c (by simp)

theorem ofWord_other {w : String} (other : ∀ kind, (w, kind) ∉ Kind.keywords) :
    Kind.ofWord w = .identifier := by
  have none : Kind.keywords.lookup w = none :=
    List.lookup_eq_none_iff.mpr fun entry member =>
      bne_iff_ne.mpr fun same => other entry.2 (same ▸ member)
  rw [Kind.ofWord, none, Option.getD_none]

/-- A word has the kind that the scan gives it. -/
theorem lexeme_word {c : Char} {cs : List Char} (letter : Letter c)
    (parts : ∀ d ∈ cs, Letter d ∨ Digit d) :
    Lexeme (Kind.ofWord (String.ofList (c :: cs))) (c :: cs) := by
  by_cases reserved : ∃ kind, (String.ofList (c :: cs), kind) ∈ Kind.keywords
  · obtain ⟨kind, member⟩ := reserved
    exact keywords_ofWord _ member ▸ .keyword member
  · have other : ∀ kind, (String.ofList (c :: cs), kind) ∉ Kind.keywords := fun kind member =>
      reserved ⟨kind, member⟩
    exact ofWord_other other ▸ .identifier letter parts other

theorem blanks_head : ∀ c ∈ [' ', '\r', '\t', '\n'], ¬Letter c ∧ ¬Digit c ∧ c ≠ '"' ∧ c ≠ '/' ∧
    ∀ entry ∈ Kind.symbols, entry.1.take 1 ≠ [c] := by
  have all : [' ', '\r', '\t', '\n'].all fun c => ¬Letter c ∧ ¬Digit c ∧ c ≠ '"' ∧ c ≠ '/' ∧
    ∀ entry ∈ Kind.symbols, entry.1.take 1 ≠ [c] := by decide
  simpa only [List.all_eq_true, decide_eq_true_eq] using all

namespace Shape
variable {piece : Piece} {c : Char} {cs : List Char}

theorem of_letter (letter : Letter c) (shape : Shape piece (c :: cs)) :
    piece = .token (Kind.ofWord (String.ofList (c :: cs))) ∧ ∀ d ∈ cs, Letter d ∨ Digit d := by
  cases shape with
  | token spelt =>
      cases spelt with
      | symbol member => exact absurd letter ((symbols_head _ member).2 c (by simp)).1
      | keyword member =>
          have letters := (keywords_letters _ member).2
          rw [String.toList_ofList] at letters
          exact ⟨congrArg Piece.token (keywords_ofWord _ member).symm,
            fun d inside => .inl (letters d (List.mem_cons_of_mem c inside))⟩
      | identifier _ parts other =>
          exact ⟨congrArg Piece.token (ofWord_other other).symm, parts⟩
      | whole digit | decimal digit => exact absurd letter digit.not_letter
      | text => exact absurd letter (by decide)
  | blank member => exact absurd letter (blanks_head c member).1
  | _ => exact absurd letter (by decide)

theorem of_digit (digit : Digit c) (shape : Shape piece (c :: cs)) : piece = .token .number ∧
    ((∀ d ∈ cs, Digit d) ∨ ∃ ds e es, cs = ds ++ '.' :: e :: es ∧
      (∀ d ∈ ds, Digit d) ∧ Digit e ∧ ∀ e ∈ es, Digit e) := by
  cases shape with
  | token spelt =>
      cases spelt with
      | symbol member => exact absurd digit ((symbols_head _ member).2 c (by simp)).2.1
      | keyword member => exact absurd (keyword_letter member) digit.not_letter
      | identifier letter => exact absurd letter digit.not_letter
      | whole _ digits => exact ⟨rfl, .inl digits⟩
      | decimal _ digits place places => exact ⟨rfl, .inr ⟨_, _, _, rfl, digits, place, places⟩⟩
      | text => exact absurd digit (by decide)
  | blank member => exact absurd digit (blanks_head c member).2.1
  | _ => exact absurd digit (by decide)

theorem of_quote (shape : Shape piece ('"' :: cs)) :
    (piece = .error .openString ∧ '"' ∉ cs) ∨
      ∃ body, cs = body ++ ['"'] ∧ piece = .token .text ∧ '"' ∉ body := by
  cases shape with
  | token spelt =>
      cases spelt with
      | symbol member => exact absurd rfl ((symbols_head _ member).2 '"' (by simp)).2.2.1
      | keyword member => exact absurd (keyword_letter member) (by decide)
      | identifier letter => exact absurd letter (by decide)
      | whole digit | decimal digit => exact absurd digit (by decide)
      | text closed => exact .inr ⟨_, rfl, rfl, closed⟩
  | blank member => exact absurd rfl (blanks_head '"' member).2.2.1
  | openString still => exact .inl ⟨rfl, still⟩

theorem of_slash (shape : Shape piece ('/' :: cs)) :
    (piece = .token .slash ∧ cs = []) ∨
    (∃ body, cs = '/' :: body ∧ piece = .lineComment ∧ '\n' ∉ body) ∨
    (∃ body, cs = '*' :: (body ++ ['*', '/']) ∧ piece = .blockComment ∧
      ¬['*', '/'] <:+: body ++ ['*']) ∨
    ∃ body, cs = '*' :: body ∧ piece = .error .openComment ∧ ¬['*', '/'] <:+: body := by
  cases shape with
  | token spelt =>
      cases spelt with
      | symbol member =>
          have same := ((symbols_head _ member).2 '/' (by simp)).2.2.2 rfl
          injection same with text kind
          injection text with _ tail
          exact .inl ⟨congrArg Piece.token kind, tail⟩
      | keyword member => exact absurd (keyword_letter member) (by decide)
      | identifier letter => exact absurd letter (by decide)
      | whole digit | decimal digit => exact absurd digit (by decide)
  | blank member => exact absurd rfl (blanks_head '/' member).2.2.2.1
  | lineComment inside => exact .inr (.inl ⟨_, rfl, rfl, inside⟩)
  | blockComment first => exact .inr (.inr (.inl ⟨_, rfl, rfl, first⟩))
  | openComment still => exact .inr (.inr (.inr ⟨_, rfl, rfl, still⟩))

theorem of_other (letter : ¬Letter c) (digit : ¬Digit c) (quote : c ≠ '"') (slash : c ≠ '/')
    (shape : Shape piece (c :: cs)) :
    (∃ kind, piece = .token kind ∧ (c :: cs, kind) ∈ Kind.symbols) ∨
      (piece = .blank ∧ cs = [] ∧ c ∈ [' ', '\r', '\t', '\n']) := by
  cases shape with
  | token spelt =>
      cases spelt with
      | symbol member => exact .inl ⟨_, rfl, member⟩
      | keyword member => exact absurd (keyword_letter member) letter
      | identifier start => exact absurd start letter
      | whole start | decimal start => exact absurd start digit
      | text => exact absurd rfl quote
  | blank member => exact .inr ⟨rfl, rfl, member⟩
  | openString => exact absurd rfl quote
  | _ => exact absurd rfl slash

theorem ne_nil : ¬Shape piece [] := by
  intro shape
  cases shape with
  | token spelt =>
      cases spelt with
      | symbol member => exact absurd rfl (symbols_head _ member).1
      | keyword member => exact absurd (by simp) (keywords_letters _ member).1

/-- A text is a span of one piece only. -/
theorem functional {other : Piece} {text : List Char} (shape : Shape piece text)
    (again : Shape other text) : piece = other := by
  cases text with
  | nil => exact absurd shape ne_nil
  | cons c cs =>
      by_cases letter : Letter c
      · exact (of_letter letter shape).1.trans (of_letter letter again).1.symm
      by_cases digit : Digit c
      · exact (of_digit digit shape).1.trans (of_digit digit again).1.symm
      by_cases quote : c = '"'
      · subst quote
        rcases of_quote shape with ⟨rfl, still⟩ | ⟨body, rfl, rfl, -⟩ <;>
          rcases of_quote again with ⟨rfl, still'⟩ | ⟨body', same, rfl, -⟩
        · rfl
        · exact absurd (by simp [same]) still
        · exact absurd (by simp) still'
        · rfl
      by_cases slash : c = '/'
      · subst slash
        rcases of_slash shape with ⟨rfl, rfl⟩ | ⟨body, rfl, rfl, -⟩ | ⟨body, rfl, rfl, -⟩ |
            ⟨body, rfl, rfl, still⟩ <;>
          rcases of_slash again with ⟨rfl, same⟩ | ⟨body', same, rfl, -⟩ | ⟨body', same, rfl, -⟩ |
            ⟨body', same, rfl, still'⟩
        all_goals first | rfl | cases same
        · exact absurd (List.suffix_append body ['*', '/']).isInfix still'
        · exact absurd (List.suffix_append body' ['*', '/']).isInfix still
      · rcases of_other letter digit quote slash shape with ⟨kind, rfl, member⟩ | ⟨rfl, rfl, blank⟩ <;>
          rcases of_other letter digit quote slash again with ⟨kind', rfl, member'⟩ | ⟨rfl, -, blank'⟩
        · exact congrArg Piece.token (symbols_kind _ member _ member' rfl)
        · exact absurd rfl ((blanks_head c blank').2.2.2.2 _ member)
        · exact absurd rfl ((blanks_head c blank).2.2.2.2 _ member')
        · rfl

end Shape

end LoxLang
