import LoxLang.Tree
/-! The outline of a tree: nested lists of words, written in parentheses. -/
namespace LoxLang

/-- A word, or a list of parts. -/
inductive Outline where
  | word (cs : List Char)
  | list (parts : List Outline)

namespace Outline

def ofText (s : String) : Outline := word s.toList

mutual

/-- Lists go in parentheses, their parts separated by spaces. -/
def chars : Outline → List Char
  | word cs => cs
  | list parts => '(' :: (partsChars parts ++ [')'])

def partsChars : List Outline → List Char
  | [] => []
  | [part] => chars part
  | part :: rest => chars part ++ ' ' :: partsChars rest

end

end Outline

def Literal.display : Literal → List Char
  | nil => "nil".toList
  | bool true => "true".toList
  | bool false => "false".toList
  | number x => (Parts.ofFloat x).display
  | text s => s.toList

open Outline

mutual

def Expr.outline {δ : Type} : Expr δ → Outline
  | .literal _ value => word value.display
  | .grouping _ inner => list [ofText "group", inner.outline]
  | .var name _ => ofText name.text
  | .assign name value _ => list [ofText "=", ofText name.text, value.outline]
  | .unary op _ operand => list [ofText op.lexeme, operand.outline]
  | .binary left op _ right => list [ofText op.lexeme, left.outline, right.outline]
  | .logical left op _ right => list [ofText op.lexeme, left.outline, right.outline]
  | .conditional condition thenBranch elseBranch =>
    list [ofText "?:", condition.outline, thenBranch.outline, elseBranch.outline]
  | .call callee _ arguments =>
    list (ofText "call" :: callee.outline :: outlineArguments arguments)
  | .member object name => list [ofText ".", object.outline, ofText name.text]
  | .assignMember object name value =>
    list [ofText "=", list [ofText ".", object.outline, ofText name.text], value.outline]
  | .receiver _ _ => ofText "this"
  | .inherited _ method _ => list [ofText "super", ofText method.text]

def outlineArguments {δ : Type} : List (Expr δ) → List Outline
  | [] => []
  | e :: rest => e.outline :: outlineArguments rest

end

/-- The name of a routine with its parameters in parentheses, one word. -/
def signature (name : Name) (params : List Name) : Outline :=
  word (name.text.toList ++ '(' :: (partsChars (params.map fun p => ofText p.text) ++ [')']))

mutual

def Stmt.outline {δ : Type} : Stmt δ → Outline
  | .expression value => list [ofText ";", value.outline]
  | .print _ value => list [ofText "print", value.outline]
  | .var name none => list [ofText "var", ofText name.text]
  | .var name (some value) =>
    list [ofText "var", ofText name.text, ofText "=", value.outline]
  | .block _ body => list (ofText "block" :: outlineBody body)
  | .ifThen _ condition thenBranch =>
    list [ofText "if", condition.outline, thenBranch.outline]
  | .ifElse _ condition thenBranch elseBranch =>
    list [ofText "if-else", condition.outline, thenBranch.outline, elseBranch.outline]
  | .loop _ condition body => list [ofText "while", condition.outline, body.outline]
  | .function declaration => declaration.outline
  | .classDecl name none methods =>
    list (ofText "class" :: ofText name.text :: outlineMethods methods)
  | .classDecl name (some parent) methods =>
    list (ofText "class" :: ofText name.text :: ofText "<" :: ofText parent.name.text
      :: outlineMethods methods)
  | .ret _ none => list [ofText "return"]
  | .ret _ (some value) => list [ofText "return", value.outline]

def Routine.outline {δ : Type} : Routine δ → Outline
  | .mk name params body => list (ofText "fun" :: signature name params :: outlineBody body)

def outlineBody {δ : Type} : List (Stmt δ) → List Outline
  | [] => []
  | s :: rest => s.outline :: outlineBody rest

def outlineMethods {δ : Type} : List (Routine δ) → List Outline
  | [] => []
  | r :: rest => r.outline :: outlineMethods rest

end

def Stmt.text {δ : Type} (s : Stmt δ) : String := String.ofList s.outline.chars

/-- The text of a program has one statement a line. -/
def programText {δ : Type} (program : List (Stmt δ)) : String :=
  "\n".intercalate (program.map Stmt.text)

end LoxLang
