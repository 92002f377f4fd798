import LoxLang.Proofs.Scanning.Shapes
/-! What the scan cuts off a text, with what the next characters may be, is the longest
beginning that the grammar of tokens has. -/
namespace LoxLang

/-- The spans that the scan takes, before a rest that does not go on with them. -/
inductive Cuts : Span → List Char → Prop
  | single {c : Char} {kind : Kind} {rest : List Char} : Scan.single? c = some kind →
    Cuts ⟨.token kind, [c]⟩ rest
  | alone {c : Char} {alone withEqual : Kind} {rest : List Char} :
    Scan.comparison? c = some (alone, withEqual) → (∀ tail, rest ≠ '=' :: tail) →
    Cuts ⟨.token alone, [c]⟩ rest
  | withEqual {c : Char} {alone withEqual : Kind} {rest : List Char} :
    Scan.comparison? c = some (alone, withEqual) → Cuts ⟨.token withEqual, [c, '=']⟩ rest
  | slash {rest : List Char} : (∀ tail, rest ≠ '/' :: tail) → (∀ tail, rest ≠ '*' :: tail) →
    Cuts ⟨.token .slash, ['/']⟩ rest
  | lineComment {body rest : List Char} : '\n' ∉ body → (∀ d tail, rest = d :: tail → d = '\n') →
    Cuts ⟨.lineComment, '/' :: '/' :: body⟩ rest
  | blockComment {body rest : List Char} : ¬['*', '/'] <:+: body ++ ['*'] →
    Cuts ⟨.blockComment, '/' :: '*' :: (body ++ ['*', '/'])⟩ rest
  | openComment {body : List Char} : ¬['*', '/'] <:+: body →
    Cuts ⟨.error .openComment, '/' :: '*' :: body⟩ []
  | blank {c : Char} {rest : List Char} : c ∈ [' ', '\r', '\t', '\n'] → Cuts ⟨.blank, [c]⟩ rest
  | text {body rest : List Char} : '"' ∉ body → Cuts ⟨.token .text, '"' :: (body ++ ['"'])⟩ rest
  | openString {body : List Char} : '"' ∉ body → Cuts ⟨.error .openString, '"' :: body⟩ []
  | whole {d : Char} {ds rest : List Char} : Digit d → (∀ d ∈ ds, Digit d) →
    (∀ e tail, rest = e :: tail → ¬Digit e) → (∀ e tail, rest = '.' :: e :: tail → ¬Digit e) →
    Cuts ⟨.token .number, d :: ds⟩ rest
  | decimal {d e : Char} {ds es rest : List Char} : Digit d → (∀ d ∈ ds, Digit d) →
    Digit e → (∀ e ∈ es, Digit e) → (∀ e tail, rest = e :: tail → ¬Digit e) →
    Cuts ⟨.token .number, d :: (ds ++ '.' :: e :: es)⟩ rest
  | word {c : Char} {cs rest : List Char} : Letter c → (∀ d ∈ cs, Letter d ∨ Digit d) →
    (∀ d tail, rest = d :: tail → ¬(Letter d ∨ Digit d)) →
    Cuts ⟨.token (Kind.ofWord (String.ofList (c :: cs))), c :: cs⟩ rest
  | unexpected {c : Char} {rest : List Char} : Scan.single? c = none → Scan.comparison? c = none →
    c ≠ '/' → c ∉ [' ', '\r', '\t', '\n'] → c ≠ '"' → ¬Digit c → ¬Letter c →
    Cuts ⟨.error .unexpectedCharacter, [c]⟩ rest

namespace Scan

theorem isBlank_iff (c : Char) : isBlank c = true ↔ c ∈ [' ', '\r', '\t', '\n'] := by
  simp [isBlank, or_assoc]

theorem mem_takeWhile {p : Char → Bool} {cs : List Char} {d : Char} (member : d ∈ cs.takeWhile p) :
    p d = true :=
  List.all_eq_true.mp List.all_takeWhile d member

/-- What follows a run of characters starts with another one. -/
theorem dropWhile_head {p : Char → Bool} {cs tail : List Char} {d : Char}
    (rest : cs.dropWhile p = d :: tail) : p d = false := by
  have head := List.head?_dropWhile_not p cs
  rwa [rest] at head

theorem splitComment_cuts (cs : List Char) : ∀ text rest, splitComment cs = (text, rest) →
    match rest with
    | some _ => ∃ body, text = body ++ ['*', '/'] ∧ ¬['*', '/'] <:+: body ++ ['*']
    | none => ¬['*', '/'] <:+: text := by
  fun_induction splitComment cs with
  | case1 =>
      rintro _ _ ⟨⟩ inside
      simpa using inside.length_le
  | case2 rest =>
      rintro _ _ ⟨⟩
      exact ⟨[], rfl, fun inside => by simpa using inside.length_le⟩
  | case3 c cs _ _ _ apart ih =>
      intro text rest whole
      obtain ⟨rfl, rfl⟩ := Prod.mk.inj whole
      have text := splitComment_append cs
      -- A closing sign at the front would have been found.
      have front {inside : List Char} (starts : inside <+: cs) : ¬['*', '/'] <+: c :: inside := by
        rintro ⟨more, same⟩
        obtain ⟨rfl, slash⟩ := List.cons.inj same
        obtain ⟨tail, rfl⟩ := starts
        exact apart (more ++ tail) rfl (congrArg (· ++ tail) slash.symm)
      have found := ih _ _ rfl
      cases closed : (splitComment cs).2 with
      | some rest =>
          simp only [closed] at found text ⊢
          obtain ⟨body, same, first⟩ := found
          refine ⟨c :: body, congrArg (c :: ·) same, fun inside => ?_⟩
          rcases List.infix_cons_iff.mp inside with start | later
          · exact front ⟨'/' :: rest, by simpa [same] using text⟩ start
          · exact first later
      | none =>
          simp only [closed] at found text ⊢
          intro inside
          rcases List.infix_cons_iff.mp inside with start | later
          · exact front ⟨[], text⟩ start
          · exact found later

theorem cutSlash_cuts (cs : List Char) :
    Cuts ⟨(cutSlash cs).piece, (cutSlash cs).text⟩ (cutSlash cs).rest := by
  unfold cutSlash
  split
  · next cs =>
      exact .lineComment (fun newline => by simpa [notNewline] using mem_takeWhile newline)
        fun d tail rest => by simpa [notNewline] using dropWhile_head rest
  · next cs =>
      have found := splitComment_cuts cs
      split
      · next text rest split =>
          obtain ⟨body, rfl, first⟩ := found text _ split
          exact .blockComment first
      · next text split => exact .openComment (found text _ split)
  · next line block => exact .slash line block

theorem cutString_cuts (cs : List Char) :
    Cuts ⟨(cutString cs).piece, (cutString cs).text⟩ (cutString cs).rest := by
  have body : '"' ∉ cs.takeWhile notQuote := fun quote => by
    simpa [notQuote] using mem_takeWhile quote
  unfold cutString
  dsimp only
  split
  · exact .openString body
  · next quote rest dropped =>
      have closes : quote = '"' := by simpa [notQuote] using dropWhile_head dropped
      subst closes
      exact .text body

theorem cutNumber_cuts {c : Char} (digit : Digit c) (cs : List Char) :
    Cuts ⟨(cutNumber c cs).piece, (cutNumber c cs).text⟩ (cutNumber c cs).rest := by
  have digits (cs : List Char) : ∀ d ∈ cs.takeWhile Char.isDigit, Digit d := fun d member =>
    (isDigit_iff d).mp (mem_takeWhile member)
  have ends (cs : List Char) : ∀ e tail, cs.dropWhile Char.isDigit = e :: tail → ¬Digit e :=
    fun e tail rest digit => by
      simpa [(isDigit_iff e).mpr digit] using dropWhile_head rest
  unfold cutNumber
  dsimp only
  split
  · next e rest dropped =>
      split
      · next place =>
          exact .decimal digit (digits cs) ((isDigit_iff e).mp place) (digits rest) (ends rest)
      · next noPlace =>
          refine .whole digit (digits cs) (dropped ▸ ends cs) ?_
          intro e' tail same place
          obtain ⟨rfl, -⟩ := List.cons.inj (List.cons.inj same).2
          exact noPlace ((isDigit_iff e).mpr place)
  · next noPoint =>
      exact .whole digit (digits cs) (ends cs) fun e tail rest => (noPoint e tail rest).elim

theorem cutWord_cuts {c : Char} (letter : Letter c) (cs : List Char) :
    Cuts ⟨(cutWord c cs).piece, (cutWord c cs).text⟩ (cutWord c cs).rest :=
  .word letter (fun d member => (isWordPart_iff d).mp (mem_takeWhile member))
    fun d tail rest part => by
      simpa [(isWordPart_iff d).mpr part] using dropWhile_head rest

theorem cut_cuts (c : Char) (cs : List Char) :
    Cuts ⟨(cut c cs).piece, (cut c cs).text⟩ (cut c cs).rest := by
  unfold cut
  split
  · next single => exact .single single
  · next pair =>
      split
      · exact .withEqual pair
      · next noEqual => exact .alone pair noEqual
  · next single pair =>
      split
      · exact cutSlash_cuts cs
      next slash =>
      split
      · next blank => exact .blank ((isBlank_iff c).mp blank)
      next blank =>
      split
      · exact cutString_cuts cs
      next quote =>
      split
      · next digit => exact cutNumber_cuts ((isDigit_iff c).mp digit) cs
      next digit =>
      split
      · next letter => exact cutWord_cuts ((isWordStart_iff c).mp letter) cs
      · next letter =>
          exact .unexpected single pair slash (fun member => blank ((isBlank_iff c).mpr member)) quote
            (fun is => digit ((isDigit_iff c).mpr is)) fun is => letter ((isWordStart_iff c).mpr is)

end Scan

/-! Which symbols start with a character. -/

namespace Scan

theorem single?_symbol {c : Char} {kind : Kind} (single : single? c = some kind) :
    ([c], kind) ∈ Kind.symbols := by
  revert single
  unfold single?
  split <;> rintro ⟨⟩ <;> decide

theorem comparison?_symbol {c : Char} {alone withEqual : Kind}
    (pair : comparison? c = some (alone, withEqual)) :
    ([c], alone) ∈ Kind.symbols ∧ ([c, '='], withEqual) ∈ Kind.symbols := by
  revert pair
  unfold comparison?
  split <;> rintro ⟨⟩ <;> decide

/-- A symbol is one character, unless that can take an equal sign. -/
theorem symbols_first : ∀ entry ∈ Kind.symbols, ∀ c ∈ entry.1.take 1,
    (c = '/' ∨ single? c ≠ none ∨ comparison? c ≠ none) ∧
      (entry.1 = [c] ∨ single? c = none ∧ entry.1 = [c, '=']) := by
  have all : ∀ entry ∈ Kind.symbols, (entry.1.take 1).all fun c =>
      (c = '/' ∨ single? c ≠ none ∨ comparison? c ≠ none) ∧
        (entry.1 = [c] ∨ single? c = none ∧ entry.1 = [c, '=']) := by decide
  simpa only [List.all_eq_true, decide_eq_true_eq] using all

end Scan

/-- A character that is a symbol on its own starts nothing that is no symbol. -/
theorem Shape.of_symbol {c : Char} {kind : Kind} (symbol : ([c], kind) ∈ Kind.symbols)
    (slash : c ≠ '/') {piece : Piece} {cs : List Char} (shape : Shape piece (c :: cs)) :
    cs = [] ∨ Scan.single? c = none ∧ cs = ['='] := by
  obtain ⟨-, head⟩ := symbols_head _ symbol
  obtain ⟨letter, digit, quote, -⟩ := head c (by simp)
  rcases of_other letter digit quote slash shape with ⟨kind', -, member⟩ | ⟨-, rfl, -⟩
  · simpa using (Scan.symbols_first _ member c (by simp)).2
  · exact .inl rfl

namespace Longest
variable {rest : List Char}

theorem to_end (text : List Char) : Longest text [] := by
  intro more some starts
  exact absurd (List.prefix_nil.mp starts) some

theorem symbol {c : Char} {kind : Kind} (symbol : ([c], kind) ∈ Kind.symbols) (slash : c ≠ '/')
    (ends : Scan.single? c = none → ∀ tail, rest ≠ '=' :: tail) : Longest [c] rest := by
  rintro more some ⟨tail, rfl⟩ piece shape
  rcases shape.of_symbol symbol slash with none | ⟨double, rfl⟩
  · exact some none
  · exact ends double tail rfl

theorem with_equal {c : Char} {kind : Kind} (symbol : ([c], kind) ∈ Kind.symbols) (slash : c ≠ '/') :
    Longest [c, '='] rest := by
  intro more some _ piece shape
  rcases shape.of_symbol symbol slash with none | ⟨-, same⟩
  · cases none
  · exact some (List.cons.inj same).2

theorem slash (line : ∀ tail, rest ≠ '/' :: tail) (block : ∀ tail, rest ≠ '*' :: tail) :
    Longest ['/'] rest := by
  rintro more some ⟨tail, rfl⟩ piece shape
  rcases shape.of_slash with ⟨-, none⟩ | ⟨body, rfl, -⟩ | ⟨body, rfl, -⟩ | ⟨body, rfl, -⟩
  · exact some none
  · exact line _ rfl
  · exact block _ rfl
  · exact block _ rfl

theorem line_comment {body : List Char} (ends : ∀ d tail, rest = d :: tail → d = '\n') :
    Longest ('/' :: '/' :: body) rest := by
  rintro more some ⟨tail, rfl⟩ piece shape
  obtain ⟨d, more, rfl⟩ := List.exists_cons_of_ne_nil some
  obtain rfl := ends d _ rfl
  rcases shape.of_slash with ⟨-, same⟩ | ⟨_, same, -, inside⟩ | ⟨_, same, -⟩ | ⟨_, same, -⟩
  · cases same
  · obtain ⟨-, rfl⟩ := List.cons.inj same
    exact inside (by simp)
  · cases same
  · cases same

theorem block_comment (body : List Char) : Longest ('/' :: '*' :: (body ++ ['*', '/'])) rest := by
  intro more some _ piece shape
  -- The closing sign is inside of any longer text.
  rcases shape.of_slash with ⟨-, same⟩ | ⟨_, same, -⟩ | ⟨body', same, -, first⟩ | ⟨_, same, -, still⟩
  · cases same
  · cases same
  · obtain ⟨-, same⟩ := List.cons.inj same
    have shorter : body ++ ['*', '/'] ++ more.dropLast = body' ++ ['*'] := by
      have both := congrArg List.dropLast same
      rwa [List.append_eq, List.dropLast_append_of_ne_nil some,
        List.dropLast_append_of_ne_nil (by simp)] at both
    exact first ⟨body, more.dropLast, shorter⟩
  · obtain ⟨-, rfl⟩ := List.cons.inj same
    exact still ⟨body, more, by simp⟩

theorem quote (body : List Char) : Longest ('"' :: (body ++ ['"'])) rest := by
  intro more some _ piece shape
  rcases shape.of_quote with ⟨-, still⟩ | ⟨body', same, -, closed⟩
  · exact still (by simp)
  · have shorter : body ++ ['"'] ++ more.dropLast = body' := by
      have both := congrArg List.dropLast same
      rwa [List.append_eq, List.dropLast_append_of_ne_nil some, List.dropLast_concat] at both
    exact closed (shorter ▸ by simp)

theorem word {c : Char} {cs : List Char} (letter : Letter c)
    (ends : ∀ d tail, rest = d :: tail → ¬(Letter d ∨ Digit d)) : Longest (c :: cs) rest := by
  rintro more some ⟨tail, rfl⟩ piece shape
  obtain ⟨d, more, rfl⟩ := List.exists_cons_of_ne_nil some
  exact ends d _ rfl ((shape.of_letter letter).2 d (by simp))

/-- A text has one beginning of digits with another character behind it. -/
theorem digits_unique {ds ds' es es' : List Char} {e e' : Char} (digits : ∀ d ∈ ds, Digit d)
    (digits' : ∀ d ∈ ds', Digit d) (other : ¬Digit e) (other' : ¬Digit e')
    (same : ds ++ e :: es = ds' ++ e' :: es') : e = e' ∧ es = es' := by
  induction ds generalizing ds' with
  | nil =>
      cases ds' with
      | nil => exact List.cons.inj same
      | cons d' ds' => exact absurd (digits' d' (by simp)) ((List.cons.inj same).1 ▸ other)
  | cons d ds ih =>
      cases ds' with
      | nil => exact absurd (digits d (by simp)) ((List.cons.inj same).1 ▸ other')
      | cons d' ds' =>
          rw [List.forall_mem_cons] at digits digits'
          exact ih digits.2 digits'.2 (List.cons.inj same).2

theorem not_digit_point : ¬Digit '.' := by decide

theorem whole {d : Char} {ds : List Char} (digit : Digit d) (digits : ∀ d ∈ ds, Digit d)
    (ends : ∀ e tail, rest = e :: tail → ¬Digit e)
    (places : ∀ e tail, rest = '.' :: e :: tail → ¬Digit e) : Longest (d :: ds) rest := by
  rintro more some ⟨tail, rfl⟩ piece shape
  obtain ⟨e, more, rfl⟩ := List.exists_cons_of_ne_nil some
  rcases (shape.of_digit digit).2 with all | ⟨ds', e', es, same, digits', place, -⟩
  · exact ends e _ rfl (all e (by simp))
  · obtain ⟨rfl, rfl⟩ := digits_unique digits digits' (ends e _ rfl) not_digit_point same
    exact places e' _ rfl place

theorem decimal {d e : Char} {ds es : List Char} (digit : Digit d) (digits : ∀ d ∈ ds, Digit d)
    (ends : ∀ e tail, rest = e :: tail → ¬Digit e) :
    Longest (d :: (ds ++ '.' :: e :: es)) rest := by
  rintro more some ⟨tail, rfl⟩ piece shape
  obtain ⟨f, more, rfl⟩ := List.exists_cons_of_ne_nil some
  rcases (shape.of_digit digit).2 with all | ⟨ds', e', es, same, digits', place, places⟩
  · exact not_digit_point (all '.' (by simp))
  · simp only [List.append_eq, List.append_assoc, List.cons_append] at same
    obtain ⟨-, same⟩ := digits_unique digits digits' not_digit_point not_digit_point same
    have inside : f ∈ e' :: es := same ▸ by simp
    exact ends f _ rfl ((List.forall_mem_cons.mpr ⟨place, places⟩ : ∀ e ∈ e' :: es, _) f inside)


theorem blank {c : Char} (member : c ∈ [' ', '\r', '\t', '\n']) : Longest [c] rest := by
  intro more some _ piece shape
  obtain ⟨letter, digit, quote, slash, symbols⟩ := blanks_head c member
  rcases shape.of_other letter digit quote slash with ⟨kind, -, symbol⟩ | ⟨-, none, -⟩
  · exact symbols _ symbol rfl
  · exact some none

end Longest

theorem Scan.single?_slash {c : Char} {kind : Kind} (single : single? c = some kind) : c ≠ '/' := by
  rintro rfl
  cases single

theorem Scan.comparison?_slash {c : Char} {kinds : Kind × Kind} (pair : comparison? c = some kinds) :
    c ≠ '/' := by
  rintro rfl
  cases pair

namespace Cuts

/-- A character that the scan reports starts nothing. -/
theorem starts_nothing {c : Char} (single : Scan.single? c = none)
    (pair : Scan.comparison? c = none) (slash : c ≠ '/') (blank : c ∉ [' ', '\r', '\t', '\n'])
    (quote : c ≠ '"') (digit : ¬Digit c) (letter : ¬Letter c) (piece : Piece) (more : List Char) :
    ¬Shape piece (c :: more) := by
  intro shape
  rcases shape.of_other letter digit quote slash with ⟨kind, -, symbol⟩ | ⟨-, -, member⟩
  · rcases (Scan.symbols_first _ symbol c (by simp)).1 with same | some | some
    · exact slash same
    · exact some single
    · exact some pair
  · exact blank member

/-- What the scan cuts off is the longest beginning that the grammar has. -/
theorem fits {s : Span} {rest : List Char} (cuts : Cuts s rest) : s.Fits rest := by
  cases cuts with
  | single single =>
      have symbol := Scan.single?_symbol single
      exact .inl ⟨.token (.symbol symbol), .symbol symbol (Scan.single?_slash single)
        fun none => by simp [single] at none⟩
  | alone pair noEqual =>
      obtain ⟨symbol, -⟩ := Scan.comparison?_symbol pair
      exact .inl ⟨.token (.symbol symbol), .symbol symbol (Scan.comparison?_slash pair)
        fun _ => noEqual⟩
  | withEqual pair =>
      obtain ⟨symbol, double⟩ := Scan.comparison?_symbol pair
      exact .inl ⟨.token (.symbol double), .with_equal symbol (Scan.comparison?_slash pair)⟩
  | slash line block => exact .inl ⟨.token (.symbol (by decide)), .slash line block⟩
  | lineComment inside ends => exact .inl ⟨.lineComment inside, .line_comment ends⟩
  | blockComment first => exact .inl ⟨.blockComment first, .block_comment _⟩
  | openComment still => exact .inl ⟨.openComment still, .to_end _⟩
  | blank member => exact .inl ⟨.blank member, .blank member⟩
  | text closed => exact .inl ⟨.token (.text closed), .quote _⟩
  | openString still => exact .inl ⟨.openString still, .to_end _⟩
  | whole digit digits ends places =>
      exact .inl ⟨.token (.whole digit digits), .whole digit digits ends places⟩
  | decimal digit digits place places ends =>
      exact .inl ⟨.token (.decimal digit digits place places), .decimal digit digits ends⟩
  | word letter parts ends => exact .inl ⟨.token (lexeme_word letter parts), .word letter ends⟩
  | unexpected single pair slash blank quote digit letter =>
      exact .inr ⟨_, rfl, starts_nothing single pair slash blank quote digit letter⟩

end Cuts

namespace Span.Fits

/-- Of two beginnings of a text that both fit, none is shorter. -/
theorem prefix_eq {s t : Span} {rest rest' : List Char} (fits : s.Fits rest) (again : t.Fits rest')
    (same : s.text ++ rest = t.text ++ rest') (shorter : s.text <+: t.text) : s = t := by
  cases s with | mk p text =>
  cases t with | mk q whole =>
  obtain ⟨more, rfl⟩ := shorter
  rcases fits with ⟨shape, longest⟩ | ⟨c, only, nothing⟩
  · rcases again with ⟨shape', -⟩ | ⟨c, only, nothing⟩
    · by_cases none : more = []
      · subst none
        rw [List.append_nil] at shape' ⊢
        exact congrArg (Span.mk · text) (shape.functional shape')
      · have behind : rest = more ++ rest' := by
          rw [List.append_assoc] at same
          exact List.append_cancel_left same
        exact absurd shape' (longest more none (behind ▸ List.prefix_append more rest') q)
    · cases text with
      | nil => exact absurd shape Shape.ne_nil
      | cons d ds =>
          obtain ⟨rfl, -⟩ := List.cons.inj (congrArg Span.text only)
          exact absurd shape (nothing p ds)
  · obtain ⟨rfl, rfl⟩ := Span.mk.inj only
    rcases again with ⟨shape', -⟩ | ⟨d, only', -⟩
    · exact absurd shape' (nothing q more)
    · obtain ⟨rfl, single⟩ := Span.mk.inj only'
      obtain ⟨rfl, rfl⟩ := List.cons.inj single
      rfl

/-- A text has one span that fits in front. -/
theorem unique {s t : Span} {rest rest' : List Char} (fits : s.Fits rest) (again : t.Fits rest')
    (same : s.text ++ rest = t.text ++ rest') : s = t ∧ rest = rest' := by
  have equal : s = t := by
    rcases List.prefix_or_prefix_of_prefix (List.prefix_append s.text rest)
      (same ▸ List.prefix_append t.text rest') with shorter | shorter
    · exact fits.prefix_eq again same shorter
    · exact (again.prefix_eq fits same.symm shorter).symm
  subst equal
  exact ⟨rfl, List.append_cancel_left same⟩

end Span.Fits

/-- A text that starts with a span that the scan takes is cut there. -/
theorem Cuts.eq_cut {c : Char} {cs rest : List Char} {piece : Piece}
    (cuts : Cuts ⟨piece, c :: cs⟩ rest) : Scan.cut c (cs ++ rest) = ⟨piece, c :: cs, rest⟩ := by
  have first := Scan.cut_cuts c (cs ++ rest)
  obtain ⟨same, behind⟩ := first.fits.unique cuts.fits (Scan.cut_append c (cs ++ rest))
  injection same with piece text
  cases cut : Scan.cut c (cs ++ rest) with
  | mk p t r => simp_all

end LoxLang
