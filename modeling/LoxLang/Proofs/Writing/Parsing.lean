import LoxLang.Proofs.Scanning.Division
import LoxLang.Proofs.Writing.Giving.Statements
import LoxLang.Proofs.Writing.Placing
import LoxLang.Proofs.Writing.Tokens
/-! Reading a program from its tokens is inverse to writing it out. -/
namespace LoxLang

theorem symbols_spelling : ∀ entry ∈ Kind.symbols,
    entry.2.spelling? = some (String.ofList entry.1) := by decide

theorem keywords_spelling : ∀ entry ∈ Kind.keywords, entry.2.spelling? = some entry.1 := by decide

/-- The tokens of a source text are spelled as their kinds demand. -/
theorem scan_spelled (source : String) : ∀ t ∈ (scan source).tokens, t.Spelled := by
  intro t member lexeme fixed
  have spelt := scan_lexeme member
  generalize whole : t.lexeme.toList = text at spelt
  have here : t.lexeme = String.ofList text := by rw [← whole, String.ofList_toList]
  rw [here]
  generalize t.kind = kind at spelt fixed
  cases spelt with
  | symbol entry => exact Option.some.inj ((symbols_spelling _ entry).symm.trans fixed)
  | keyword entry => exact Option.some.inj ((keywords_spelling _ entry).symm.trans fixed)
  | identifier | whole | decimal | text => cases fixed

/-- Programs without a `for` are read from tokens just as they are written out. Where the tokens are
read without issues, they are the program written out, in kinds, names and values, and in all
lexemes if each is the one that its kind demands; every operand and every `else` of the program is
where it can be. Such a program whose numbers are read from digits is written out by tokens, and all
tokens that it is written out by are read without issues and give the program back but for its
places. All tokens of a source text have the lexemes that their kinds demand. -/
theorem parse_inverts :
    (∀ tokens : List Token, (∀ t ∈ tokens, t.kind ≠ .forWord) → (parse tokens).issues = [] →
      (tokens.map fun t => t.proper.glyph) = glyphsOfBody (parse tokens).program ∧
        ((∀ t ∈ tokens, t.Spelled) →
          tokens.map Token.glyph = glyphsOfBody (parse tokens).program) ∧
        levelledBody (parse tokens).program) ∧
    (∀ program : List RawStmt, levelledBody program →
      ((∀ x, Glyph.constant .number (.number x) ∈ glyphsOfBody program →
          ∃ lexeme : String, readNumber lexeme.toList = x) →
        ∃ tokens : List Token, (∀ t ∈ tokens, t.Spelled) ∧
          tokens.map Token.glyph = glyphsOfBody program) ∧
      ∀ tokens : List Token, tokens.map Token.glyph = glyphsOfBody program →
        (parse tokens).issues = [] ∧
          unplacedBody (parse tokens).program = unplacedBody program) ∧
    ∀ source : String, ∀ t ∈ (scan source).tokens, t.Spelled := by
  refine ⟨fun tokens forless quiet => ?_, fun program levelled =>
    ⟨(regular_body program).tokens, fun tokens whole => ?_⟩, scan_spelled⟩
  · obtain ⟨parts, program, rfl, all⟩ := parse_written quiet forless
    rw [program]
    have whole : properGlyphs (parts.map Prod.snd).flatten = _ :=
      glyphs_body fun part member => (all part member).glyphs
    refine ⟨whole, fun spelled => ?_, levelled_body fun part member => (all part member).levelled⟩
    rw [← properGlyphs_eq spelled, whole]
  · obtain ⟨parts, rfl, all, alike⟩ := placedBody program levelled tokens whole
    rw [parse_of_written all]
    exact ⟨rfl, alike⟩

/-- An `else` behind two conditions, and operators of several levels. -/
theorem parse_inverts_nested :
    let words : List (Kind × String) := [(.ifWord, "if"), (.leftParen, "("), (.identifier, "a"),
      (.rightParen, ")"), (.ifWord, "if"), (.leftParen, "("), (.bang, "!"), (.identifier, "b"),
      (.rightParen, ")"), (.identifier, "p"), (.dot, "."), (.identifier, "q"), (.equal, "="),
      (.identifier, "x"), (.minus, "-"), (.identifier, "y"), (.minus, "-"), (.nilWord, "nil"),
      (.semicolon, ";"), (.elseWord, "else"), (.identifier, "f"), (.leftParen, "("),
      (.identifier, "x"), (.orWord, "or"), (.identifier, "y"), (.andWord, "and"),
      (.text, "\"z\""), (.comma, ","), (.trueWord, "true"), (.rightParen, ")"), (.semicolon, ";")]
    let tokens : List Token := words.map fun w => ⟨w.1, w.2, .start⟩
    let name := fun x => (⟨x, ⟨2, 3⟩⟩ : Name)
    let var := fun x => (.var (name x) () : RawExpr)
    let difference := fun l r => (.binary l .subtract ⟨2, 3⟩ r : RawExpr)
    let value : RawExpr := difference (difference (var "x") (var "y")) (.literal 2 .nil)
    let choice : RawExpr := .logical (var "x") .or ⟨2, 3⟩
      (.logical (var "y") .and ⟨2, 3⟩ (.literal 2 (.text "z")))
    let program : List RawStmt := [.ifThen 2 (var "a") (.ifElse 2 (.unary .not ⟨2, 3⟩ (var "b"))
      (.expression (.assignMember (var "p") (name "q") value))
      (.expression (.call (var "f") ⟨2, 3⟩ [choice, .literal 2 (.bool true)])))]
    ((∀ t ∈ tokens, t.kind ≠ .forWord) ∧ (parse tokens).issues = [] ∧ (∀ t ∈ tokens, t.Spelled) ∧
      tokens.map Token.glyph = glyphsOfBody (parse tokens).program) ∧
    levelledBody program ∧ tokens.map Token.glyph = glyphsOfBody program ∧
      unplacedBody (parse tokens).program = unplacedBody program := by
  intro words tokens name var difference value choice program
  have forless : ∀ t ∈ tokens, t.kind ≠ .forWord := by decide
  have quiet : (parse tokens).issues = [] := by decide +kernel
  have spelled : ∀ t ∈ tokens, t.Spelled := by
    simp only [Token.Spelled]
    decide
  have levelled : levelledBody program := by
    simp [program, choice, value, difference, var, name, levelledBody, levelledAll, Stmt.Levelled,
      Expr.Levelled, Expr.Sits, Expr.level, Stmt.binds, Stmt.takesElse, Level.rank, Level.next,
      BinaryOp.level, LogicalOp.level, maxEntries]
  have whole : tokens.map Token.glyph = glyphsOfBody program := rfl
  exact ⟨⟨forless, quiet, spelled, (parse_inverts.1 tokens forless quiet).2.1 spelled⟩, levelled,
    whole, ((parse_inverts.2.1 program levelled).2 tokens whole).2⟩
end LoxLang
