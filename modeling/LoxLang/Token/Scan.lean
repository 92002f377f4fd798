import LoxLang.Diagnostic
/-! From a source text to its tokens. The text is cut into spans, each a token, a blank, a
comment or one error; positions and lexemes are read off the spans as they end. -/
namespace LoxLang

inductive ScanError where
  | unexpectedCharacter
  | openString
  | openComment
deriving DecidableEq

def ScanError.message : ScanError → String
  | unexpectedCharacter => "Unexpected character."
  | openString => "Unterminated string."
  | openComment => "Unterminated comment."

/-- What one span of the source is. -/
inductive Piece where
  | token (kind : Kind)
  | blank
  | lineComment
  | blockComment
  | error (cause : ScanError)
deriving DecidableEq

/-- The first span of a text: its piece, its characters, and the characters after it. -/
structure Cut where
  piece : Piece
  text : List Char
  rest : List Char

structure Span where
  piece : Piece
  text : List Char
deriving DecidableEq

/-- Tokens, messages in source order, and where the source stops. -/
structure Scan where
  tokens : List Token
  issues : List Diagnostic
  stop : Pos

namespace Scan

/-- Characters that are a token by themselves. -/
def single? : Char → Option Kind
  | '(' => some .leftParen
  | ')' => some .rightParen
  | '\x7b' => some .leftBrace
  | '\x7d' => some .rightBrace
  | ',' => some .comma
  | '.' => some .dot
  | '-' => some .minus
  | '+' => some .plus
  | ';' => some .semicolon
  | '*' => some .star
  | '?' => some .question
  | ':' => some .colon
  | _ => none

/-- Characters that are one token alone and another with `=` after them. -/
def comparison? : Char → Option (Kind × Kind)
  | '!' => some (.bang, .bangEqual)
  | '=' => some (.equal, .equalEqual)
  | '>' => some (.greater, .greaterEqual)
  | '<' => some (.less, .lessEqual)
  | _ => none

def isBlank (c : Char) : Bool := c = ' ' || c = '\r' || c = '\t' || c = '\n'

/-- Words start with an ASCII letter or an underscore. -/
def isWordStart (c : Char) : Bool := c.isAlpha || c = '_'

def isWordPart (c : Char) : Bool := isWordStart c || c.isDigit

def notNewline (c : Char) : Bool := c ≠ '\n'

def notQuote (c : Char) : Bool := c ≠ '"'

/-- Splits after the first `*/`; without one the second part is `none`. -/
def splitComment : List Char → List Char × Option (List Char)
  | [] => ([], none)
  | c :: cs =>
    match c, cs with
    | '*', '/' :: rest => (['*', '/'], some rest)
    | _, _ => let (text, rest) := splitComment cs; (c :: text, rest)

/-- The cut of a text that starts with a slash, given what follows the slash. -/
def cutSlash : List Char → Cut
  | '/' :: cs =>
    ⟨.lineComment, '/' :: '/' :: cs.takeWhile notNewline, cs.dropWhile notNewline⟩
  | '*' :: cs =>
    match splitComment cs with
    | (text, some rest) => ⟨.blockComment, '/' :: '*' :: text, rest⟩
    | (text, none) => ⟨.error .openComment, '/' :: '*' :: text, []⟩
  | cs => ⟨.token .slash, ['/'], cs⟩

/-- The cut of a text that starts with a double quote, given what follows it. -/
def cutString (cs : List Char) : Cut :=
  let body := '"' :: cs.takeWhile notQuote
  match cs.dropWhile notQuote with
  | [] => ⟨.error .openString, body, []⟩
  | quote :: rest => ⟨.token .text, body ++ [quote], rest⟩

/-- The cut of a text that starts with the digit `c`. A point belongs to the number only
with a digit after it. -/
def cutNumber (c : Char) (cs : List Char) : Cut :=
  let whole := c :: cs.takeWhile Char.isDigit
  match cs.dropWhile Char.isDigit with
  | '.' :: d :: rest =>
    if d.isDigit then
      ⟨.token .number, whole ++ '.' :: d :: rest.takeWhile Char.isDigit,
        rest.dropWhile Char.isDigit⟩
    else ⟨.token .number, whole, '.' :: d :: rest⟩
  | rest => ⟨.token .number, whole, rest⟩

def cutWord (c : Char) (cs : List Char) : Cut :=
  let word := c :: cs.takeWhile isWordPart
  ⟨.token (Kind.ofWord (String.ofList word)), word, cs.dropWhile isWordPart⟩

/-- The first span of the text `c :: cs`. -/
def cut (c : Char) (cs : List Char) : Cut :=
  match single? c, comparison? c with
  | some kind, _ => ⟨.token kind, [c], cs⟩
  | none, some (alone, withEqual) =>
    match cs with
    | '=' :: rest => ⟨.token withEqual, [c, '='], rest⟩
    | _ => ⟨.token alone, [c], cs⟩
  | none, none =>
    if c = '/' then cutSlash cs
    else if isBlank c then ⟨.blank, [c], cs⟩
    else if c = '"' then cutString cs
    else if c.isDigit then cutNumber c cs
    else if isWordStart c then cutWord c cs
    else ⟨.error .unexpectedCharacter, [c], cs⟩

theorem splitComment_append (cs : List Char) :
    (splitComment cs).1 ++ (splitComment cs).2.getD [] = cs := by
  fun_induction splitComment cs <;> simp_all

theorem cutSlash_append (cs : List Char) : (cutSlash cs).text ++ (cutSlash cs).rest = '/' :: cs := by
  unfold cutSlash
  split
  · simp [List.takeWhile_append_dropWhile]
  · rename_i cs
    have h := splitComment_append cs
    split <;> simp_all
  · simp

theorem cutString_append (cs : List Char) :
    (cutString cs).text ++ (cutString cs).rest = '"' :: cs := by
  have body := List.takeWhile_append_dropWhile (p := notQuote) (l := cs)
  unfold cutString
  dsimp only
  split <;> simp_all

theorem cutNumber_append (c : Char) (cs : List Char) :
    (cutNumber c cs).text ++ (cutNumber c cs).rest = c :: cs := by
  have whole := List.takeWhile_append_dropWhile (p := Char.isDigit) (l := cs)
  unfold cutNumber
  dsimp only
  split
  · rename_i d rest h
    split
    · have := List.takeWhile_append_dropWhile (p := Char.isDigit) (l := rest)
      simp_all
    · simp_all
  · simp_all

theorem cutWord_append (c : Char) (cs : List Char) :
    (cutWord c cs).text ++ (cutWord c cs).rest = c :: cs := by
  simp [cutWord, List.takeWhile_append_dropWhile]

/-- A cut loses nothing: its characters and the rest make up the text. -/
theorem cut_append (c : Char) (cs : List Char) : (cut c cs).text ++ (cut c cs).rest = c :: cs := by
  unfold cut
  split
  · rfl
  · split <;> rfl
  · split
    · next h => exact h ▸ cutSlash_append cs
    split
    · rfl
    split
    · next h => exact h ▸ cutString_append cs
    split
    · exact cutNumber_append c cs
    split
    · exact cutWord_append c cs
    · rfl

theorem cut_text_ne_nil (c : Char) (cs : List Char) : (cut c cs).text ≠ [] := by
  unfold cut cutSlash cutString cutNumber cutWord
  dsimp only
  repeat' split
  all_goals simp

/-- Each span takes at least one character. -/
theorem cut_rest_length (c : Char) (cs : List Char) : (cut c cs).rest.length ≤ cs.length := by
  have whole := congrArg List.length (cut_append c cs)
  have some_taken := List.length_pos_iff.mpr (cut_text_ne_nil c cs)
  simp only [List.length_append, List.length_cons] at whole
  omega

/-- The spans of a text, which cover it. -/
def spans : List Char → List Span
  | [] => []
  | c :: cs => ⟨(cut c cs).piece, (cut c cs).text⟩ :: spans (cut c cs).rest
termination_by cs => cs.length
decreasing_by exact Nat.lt_succ_of_le (cut_rest_length c cs)

/-- The line of a token from `p` to `q`: the one that the scanner has come to, but for a string
the one on which it starts. -/
def tokenLine (p q : Pos) : Kind → Nat
  | .text => p.line
  | _ => q.line

/-- The tokens and messages of spans that start at `p`. Each is made at the end of its span: a
message names the line there, and a token has the column of its start. -/
def record (p : Pos) : List Span → Scan
  | [] => ⟨[], [], p⟩
  | s :: rest =>
    let q := p.after s.text
    let scan := record q rest
    match s.piece with
    | .token kind =>
      let token : Token := ⟨kind, String.ofList s.text, ⟨tokenLine p q kind, p.column⟩⟩
      { scan with tokens := token :: scan.tokens }
    | .error cause => { scan with issues := ⟨q.line, .nowhere, cause.message⟩ :: scan.issues }
    | .blank | .lineComment | .blockComment => scan

end Scan

/-- The tokens of a source text, with the messages about what is no token. -/
def scan (source : String) : Scan := Scan.record Pos.start (Scan.spans source.toList)

end LoxLang
