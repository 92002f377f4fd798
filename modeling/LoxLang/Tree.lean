import LoxLang.Token
/-! Syntax trees. A tree is indexed by what it keeps at each reference to a variable: nothing
when it comes from the tokens, a lexical address once its scopes are known. -/
namespace LoxLang

/-- An identifier and where it stands. -/
structure Name where
  text : String
  pos : Pos
deriving DecidableEq

inductive UnaryOp where
  | negate | not
deriving DecidableEq

/-- The operators that evaluate both operands, the comma among them. -/
inductive BinaryOp where
  | comma | equal | notEqual | greater | greaterEqual | less | lessEqual
  | add | subtract | multiply | divide
deriving DecidableEq

/-- The operators that may leave their right operand unevaluated. -/
inductive LogicalOp where
  | and | or
deriving DecidableEq

inductive Expr (δ : Type) where
  | literal (line : Nat) (value : Literal)
  | grouping (line : Nat) (inner : Expr δ)
  | var (name : Name) (address : δ)
  | assign (name : Name) (value : Expr δ) (address : δ)
  | unary (op : UnaryOp) (pos : Pos) (operand : Expr δ)
  | binary (left : Expr δ) (op : BinaryOp) (pos : Pos) (right : Expr δ)
  | logical (left : Expr δ) (op : LogicalOp) (pos : Pos) (right : Expr δ)
  | conditional (condition thenBranch elseBranch : Expr δ)
  /-- A call is placed at its closing parenthesis. -/
  | call (callee : Expr δ) (close : Pos) (arguments : List (Expr δ))
  | member (object : Expr δ) (name : Name)
  | assignMember (object : Expr δ) (name : Name) (value : Expr δ)
  /-- The keyword `this`. -/
  | receiver (pos : Pos) (address : δ)
  /-- The keyword `super` with the method looked up above the class. -/
  | inherited (pos : Pos) (method : Name) (address : δ)

/-- The class named after `<` in a class declaration. -/
structure Superclass (δ : Type) where
  name : Name
  address : δ

mutual

inductive Stmt (δ : Type) where
  | expression (value : Expr δ)
  | print (line : Nat) (value : Expr δ)
  | var (name : Name) (initializer : Option (Expr δ))
  | block (line : Nat) (body : List (Stmt δ))
  | ifThen (line : Nat) (condition : Expr δ) (thenBranch : Stmt δ)
  | ifElse (line : Nat) (condition : Expr δ) (thenBranch elseBranch : Stmt δ)
  | loop (line : Nat) (condition : Expr δ) (body : Stmt δ)
  | function (declaration : Routine δ)
  | classDecl (name : Name) (superclass : Option (Superclass δ)) (methods : List (Routine δ))
  | ret (pos : Pos) (value : Option (Expr δ))

/-- A function or method as it is declared. -/
inductive Routine (δ : Type) where
  | mk (name : Name) (params : List Name) (body : List (Stmt δ))

end

/-- The two kinds of declaration that have parameters and a body. -/
inductive RoutineKind where
  | function | method
deriving DecidableEq

namespace Routine
variable {δ : Type}

def name : Routine δ → Name
  | mk name _ _ => name

def params : Routine δ → List Name
  | mk _ params _ => params

def body : Routine δ → List (Stmt δ)
  | mk _ _ body => body

end Routine

def Name.token (n : Name) : Token := ⟨.identifier, n.text, n.pos⟩

namespace UnaryOp

def kind : UnaryOp → Kind
  | negate => .minus
  | not => .bang

def lexeme : UnaryOp → String
  | negate => "-"
  | not => "!"

def token (op : UnaryOp) (p : Pos) : Token := ⟨op.kind, op.lexeme, p⟩

end UnaryOp

namespace BinaryOp

def kind : BinaryOp → Kind
  | comma => .comma
  | equal => .equalEqual
  | notEqual => .bangEqual
  | greater => .greater
  | greaterEqual => .greaterEqual
  | less => .less
  | lessEqual => .lessEqual
  | add => .plus
  | subtract => .minus
  | multiply => .star
  | divide => .slash

def lexeme : BinaryOp → String
  | comma => ","
  | equal => "=="
  | notEqual => "!="
  | greater => ">"
  | greaterEqual => ">="
  | less => "<"
  | lessEqual => "<="
  | add => "+"
  | subtract => "-"
  | multiply => "*"
  | divide => "/"

def token (op : BinaryOp) (p : Pos) : Token := ⟨op.kind, op.lexeme, p⟩

end BinaryOp

namespace LogicalOp

def kind : LogicalOp → Kind
  | and => .andWord
  | or => .orWord

def lexeme : LogicalOp → String
  | and => "and"
  | or => "or"

def token (op : LogicalOp) (p : Pos) : Token := ⟨op.kind, op.lexeme, p⟩

end LogicalOp

/-- The token of the keyword `this` at a place. -/
def receiverToken (p : Pos) : Token := ⟨.thisWord, "this", p⟩

/-- The token of the keyword `super` at a place. -/
def inheritedToken (p : Pos) : Token := ⟨.superWord, "super", p⟩

/-- The token of the keyword `return` at a place. -/
def returnToken (p : Pos) : Token := ⟨.returnWord, "return", p⟩

/-- The line an expression is placed at: that of its operator, its name or its first token. -/
def Expr.line {δ : Type} : Expr δ → Nat
  | literal line _ | grouping line _ => line
  | var name _ | assign name _ _ | member _ name | assignMember _ name _ => name.pos.line
  | unary _ pos _ | binary _ _ pos _ | logical _ _ pos _ => pos.line
  | conditional condition _ _ => condition.line
  | call _ close _ => close.line
  | receiver pos _ | inherited pos _ _ => pos.line

def Stmt.line {δ : Type} : Stmt δ → Nat
  | expression value => value.line
  | print line _ | block line _ | ifThen line _ _ | ifElse line _ _ _ | loop line _ _ => line
  | var name _ | classDecl name _ _ => name.pos.line
  | function declaration => declaration.name.pos.line
  | ret pos _ => pos.line

end LoxLang
