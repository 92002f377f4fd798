import LoxLang.Number.Layout
import LoxLang.Text.Quoted
/-! Tokens: kind, lexeme and the position of the first character. What a literal token
stands for is read off its lexeme. -/
namespace LoxLang

/-- A place in a source text. Lines and columns count from 1; only a newline ends a line. -/
structure Pos where
  line : Nat
  column : Nat
deriving DecidableEq, Inhabited

namespace Pos

def start : Pos := ⟨1, 1⟩

/-- The place after one more character. -/
def next (p : Pos) (c : Char) : Pos := if c = '\n' then ⟨p.line + 1, 1⟩ else ⟨p.line, p.column + 1⟩

/-- The place after a run of characters. -/
def after (p : Pos) (cs : List Char) : Pos := cs.foldl next p

end Pos

/-- The constants that a program can write down. -/
inductive Literal where
  | nil
  | bool (b : Bool)
  | number (x : Float)
  | text (s : String)

inductive Kind where
  | leftParen | rightParen | leftBrace | rightBrace
  | comma | dot | minus | plus | semicolon | slash | star | question | colon
  | bang | bangEqual | equal | equalEqual | greater | greaterEqual | less | lessEqual
  | identifier | text | number
  | andWord | classWord | elseWord | falseWord | funWord | forWord | ifWord | nilWord | orWord
  | printWord | returnWord | superWord | thisWord | trueWord | varWord | whileWord
deriving DecidableEq

structure Token where
  kind : Kind
  lexeme : String
  pos : Pos
deriving DecidableEq

namespace Kind

/-- The name of a kind in token listings. -/
def label : Kind → String
  | leftParen => "LEFT_PAREN" | rightParen => "RIGHT_PAREN"
  | leftBrace => "LEFT_BRACE" | rightBrace => "RIGHT_BRACE"
  | comma => "COMMA" | dot => "DOT" | minus => "MINUS" | plus => "PLUS"
  | semicolon => "SEMICOLON" | slash => "SLASH" | star => "STAR"
  | question => "QUESTION" | colon => "COLON"
  | bang => "BANG" | bangEqual => "BANG_EQUAL" | equal => "EQUAL" | equalEqual => "EQUAL_EQUAL"
  | greater => "GREATER" | greaterEqual => "GREATER_EQUAL"
  | less => "LESS" | lessEqual => "LESS_EQUAL"
  | identifier => "IDENTIFIER" | text => "STRING" | number => "NUMBER"
  | andWord => "AND" | classWord => "CLASS" | elseWord => "ELSE" | falseWord => "FALSE"
  | funWord => "FUN" | forWord => "FOR" | ifWord => "IF" | nilWord => "NIL" | orWord => "OR"
  | printWord => "PRINT" | returnWord => "RETURN" | superWord => "SUPER" | thisWord => "THIS"
  | trueWord => "TRUE" | varWord => "VAR" | whileWord => "WHILE"

/-- The reserved words. -/
def keywords : List (String × Kind) :=
  [("and", andWord), ("class", classWord), ("else", elseWord), ("false", falseWord),
   ("fun", funWord), ("for", forWord), ("if", ifWord), ("nil", nilWord), ("or", orWord),
   ("print", printWord), ("return", returnWord), ("super", superWord), ("this", thisWord),
   ("true", trueWord), ("var", varWord), ("while", whileWord)]

/-- A word is a keyword if it is reserved as a whole, else an identifier. -/
def ofWord (w : String) : Kind := (keywords.lookup w).getD identifier

end Kind

/-- Reads digits with at most one point among them. -/
def readNumber (cs : List Char) : Float :=
  let whole := cs.takeWhile Char.isDigit
  let places := (cs.dropWhile Char.isDigit).drop 1
  let digits := (whole ++ places).foldl (fun n c => 10 * n + (c.toNat - '0'.toNat)) 0
  Float.ofScientific digits true places.length

namespace Token

/-- The constant a literal token stands for: a number by its digits, a string by what is
between its quotes. -/
def literal? (t : Token) : Option Literal :=
  match t.kind with
  | .number => some (.number (readNumber t.lexeme.toList))
  | .text => some (.text (String.ofList (t.lexeme.toList.drop 1).dropLast))
  | _ => none

/-- The line of a token listing. -/
def listing (t : Token) : String :=
  let head := t.kind.label ++ " " ++ t.lexeme
  match t.literal? with
  | some (.number x) => head ++ " " ++ tokenNumber x
  | some (.text s) => head ++ " " ++ s
  | _ => head

/-- A token with its place, for inspection. -/
def inspection (label lexeme : String) (p : Pos) : String :=
  "Token(" ++ label ++ ", " ++ Text.quoted lexeme ++ ", L" ++ p.line.repr ++ ":C"
    ++ p.column.repr ++ ")"

def inspect (t : Token) : String := inspection t.kind.label t.lexeme t.pos

end Token

/-- How listings name the end of the source. -/
def endLabel : String := "EOF"

end LoxLang
