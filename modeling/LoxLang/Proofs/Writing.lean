import LoxLang.Proofs.Addressing
import LoxLang.Proofs.Scanning.Shapes
import LoxLang.Tree.Expression
/-! Trees written out in the order of the source, and the trees that can be: every operand at a level
that its position allows, and every `else` at the nearest `if` that can take it. -/
namespace LoxLang

/-- The lexeme of the kinds that have only one. -/
def Kind.spelling? (k : Kind) : Option String :=
  match Kind.symbols.find? (·.2 = k) with
  | some entry => some (String.ofList entry.1)
  | none => (Kind.keywords.find? (·.2 = k)).map Prod.fst

/-- A token whose kind has only one lexeme has that. -/
def Token.Spelled (t : Token) : Prop := ∀ lexeme, t.kind.spelling? = some lexeme → t.lexeme = lexeme

/-- The token with the lexeme that its kind demands, if that demands one. -/
def Token.proper (t : Token) : Token := { t with lexeme := t.kind.spelling?.getD t.lexeme }

/-- A token apart from its place: its kind with the lexeme, or with the value of a literal. -/
inductive Glyph where
  | word (kind : Kind) (lexeme : String)
  | constant (kind : Kind) (value : Literal)

def Token.glyph (t : Token) : Glyph :=
  match t.literal? with
  | some value => .constant t.kind value
  | none => .word t.kind t.lexeme

def Kind.glyph (k : Kind) : Glyph := .word k (k.spelling?.getD "")

def Name.glyph (n : Name) : Glyph := .word .identifier n.text

def Literal.glyph : Literal → Glyph
  | nil => Kind.nilWord.glyph
  | bool true => Kind.trueWord.glyph
  | bool false => Kind.falseWord.glyph
  | number x => .constant .number (.number x)
  | text s => .constant .text (.text s)

/-- Entries of a list with commas between them. -/
def separated (entries : List (List Glyph)) : List Glyph := [Kind.comma.glyph].intercalate entries

section
variable {δ : Type}

mutual

def Expr.glyphs : Expr δ → List Glyph
  | .literal _ value => [value.glyph]
  | .grouping _ inner => Kind.leftParen.glyph :: (inner.glyphs ++ [Kind.rightParen.glyph])
  | .var name _ => [name.glyph]
  | .assign name value _ => name.glyph :: Kind.equal.glyph :: value.glyphs
  | .unary op _ operand => op.kind.glyph :: operand.glyphs
  | .binary left op _ right => left.glyphs ++ op.kind.glyph :: right.glyphs
  | .logical left op _ right => left.glyphs ++ op.kind.glyph :: right.glyphs
  | .conditional condition thenBranch elseBranch =>
    condition.glyphs ++ Kind.question.glyph ::
      (thenBranch.glyphs ++ Kind.colon.glyph :: elseBranch.glyphs)
  | .call callee _ arguments =>
    callee.glyphs ++ Kind.leftParen.glyph ::
      (separated (glyphsOfAll arguments) ++ [Kind.rightParen.glyph])
  | .member object name => object.glyphs ++ [Kind.dot.glyph, name.glyph]
  | .assignMember object name value =>
    object.glyphs ++ Kind.dot.glyph :: name.glyph :: Kind.equal.glyph :: value.glyphs
  | .receiver _ _ => [Kind.thisWord.glyph]
  | .inherited _ method _ => [Kind.superWord.glyph, Kind.dot.glyph, method.glyph]

def glyphsOfAll : List (Expr δ) → List (List Glyph)
  | [] => []
  | e :: rest => e.glyphs :: glyphsOfAll rest

end

def Superclass.glyphs (parent : Superclass δ) : List Glyph := [Kind.less.glyph, parent.name.glyph]

mutual

def Stmt.glyphs : Stmt δ → List Glyph
  | .expression value => value.glyphs ++ [Kind.semicolon.glyph]
  | .print _ value => Kind.printWord.glyph :: (value.glyphs ++ [Kind.semicolon.glyph])
  | .var name none => [Kind.varWord.glyph, name.glyph, Kind.semicolon.glyph]
  | .var name (some value) =>
    Kind.varWord.glyph :: name.glyph :: Kind.equal.glyph ::
      (value.glyphs ++ [Kind.semicolon.glyph])
  | .block _ body => Kind.leftBrace.glyph :: (glyphsOfBody body ++ [Kind.rightBrace.glyph])
  | .ifThen _ condition thenBranch =>
    Kind.ifWord.glyph :: Kind.leftParen.glyph ::
      (condition.glyphs ++ Kind.rightParen.glyph :: thenBranch.glyphs)
  | .ifElse _ condition thenBranch elseBranch =>
    Kind.ifWord.glyph :: Kind.leftParen.glyph ::
      (condition.glyphs ++ Kind.rightParen.glyph ::
        (thenBranch.glyphs ++ Kind.elseWord.glyph :: elseBranch.glyphs))
  | .loop _ condition body =>
    Kind.whileWord.glyph :: Kind.leftParen.glyph ::
      (condition.glyphs ++ Kind.rightParen.glyph :: body.glyphs)
  | .function declaration => Kind.funWord.glyph :: declaration.glyphs
  | .classDecl name superclass methods =>
    Kind.classWord.glyph :: name.glyph :: ((superclass.map Superclass.glyphs).getD [] ++
      Kind.leftBrace.glyph :: (glyphsOfMethods methods ++ [Kind.rightBrace.glyph]))
  | .ret _ none => [Kind.returnWord.glyph, Kind.semicolon.glyph]
  | .ret _ (some value) => Kind.returnWord.glyph :: (value.glyphs ++ [Kind.semicolon.glyph])

def glyphsOfBody : List (Stmt δ) → List Glyph
  | [] => []
  | s :: rest => s.glyphs ++ glyphsOfBody rest

def Routine.glyphs : Routine δ → List Glyph
  | .mk name params body =>
    name.glyph :: Kind.leftParen.glyph ::
      (separated (params.map fun p => [p.glyph]) ++ Kind.rightParen.glyph ::
        Kind.leftBrace.glyph :: (glyphsOfBody body ++ [Kind.rightBrace.glyph]))

def glyphsOfMethods : List (Routine δ) → List Glyph
  | [] => []
  | r :: rest => r.glyphs ++ glyphsOfMethods rest

end

end

/-- The levels of expressions, from those that bind least. -/
inductive Level where
  | expression | assignment | conditional | disjunction | conjunction | equality | comparison
  | term | factor | unary | call | primary
deriving DecidableEq

namespace Level

def rank : Level → Nat
  | expression => 0 | assignment => 1 | conditional => 2 | disjunction => 3 | conjunction => 4
  | equality => 5 | comparison => 6 | term => 7 | factor => 8 | unary => 9 | call => 10
  | primary => 11

/-- The level that binds more by one. -/
def next : Level → Level
  | expression => assignment | assignment => conditional | conditional => disjunction
  | disjunction => conjunction | conjunction => equality | equality => comparison
  | comparison => term | term => factor | factor => unary | unary => call | call => primary
  | primary => primary

end Level

def BinaryOp.level : BinaryOp → Level
  | comma => .expression
  | equal | notEqual => .equality
  | greater | greaterEqual | less | lessEqual => .comparison
  | add | subtract => .term
  | multiply | divide => .factor

def LogicalOp.level : LogicalOp → Level
  | or => .disjunction
  | and => .conjunction

section
variable {δ : Type}

def Expr.level : Expr δ → Level
  | literal _ _ | grouping _ _ | var _ _ | receiver _ _ | inherited _ _ _ => .primary
  | call _ _ _ | member _ _ => .call
  | unary _ _ _ => .unary
  | binary _ op _ _ => op.level
  | logical _ op _ _ => op.level
  | conditional _ _ _ => .conditional
  | assign _ _ _ | assignMember _ _ _ => .assignment

/-- The expression can stand where one of the level is read. -/
def Expr.Sits (n : Level) (e : Expr δ) : Prop := n.rank ≤ e.level.rank

mutual

/-- Every operand sits at the level that its position demands: of two operands around an operator
the right one binds more than the operator. -/
def Expr.Levelled : Expr δ → Prop
  | .literal _ _ | .var _ _ | .receiver _ _ | .inherited _ _ _ => True
  | .grouping _ inner => inner.Levelled
  | .assign _ value _ => value.Sits .assignment ∧ value.Levelled
  | .unary _ _ operand => operand.Sits .unary ∧ operand.Levelled
  | .binary left op _ right =>
    (left.Sits op.level ∧ left.Levelled) ∧ right.Sits op.level.next ∧ right.Levelled
  | .logical left op _ right =>
    (left.Sits op.level ∧ left.Levelled) ∧ right.Sits op.level.next ∧ right.Levelled
  | .conditional condition thenBranch elseBranch =>
    (condition.Sits .disjunction ∧ condition.Levelled) ∧
      (thenBranch.Sits .assignment ∧ thenBranch.Levelled) ∧
      elseBranch.Sits .conditional ∧ elseBranch.Levelled
  | .call callee _ arguments =>
    (callee.Sits .call ∧ callee.Levelled) ∧ arguments.length ≤ maxEntries ∧ levelledAll arguments
  | .member object _ => object.Sits .call ∧ object.Levelled
  | .assignMember object _ value =>
    (object.Sits .call ∧ object.Levelled) ∧ value.Sits .assignment ∧ value.Levelled

/-- Entries of a list are assignments at least, which leaves out the comma. -/
def levelledAll : List (Expr δ) → Prop
  | [] => True
  | e :: rest => (e.Sits .assignment ∧ e.Levelled) ∧ levelledAll rest

end

/-- An `else` behind the statement would belong to an `if` in it. -/
def Stmt.takesElse : Stmt δ → Bool
  | .ifThen _ _ _ => true
  | .ifElse _ _ _ elseBranch => elseBranch.takesElse
  | .loop _ _ body => body.takesElse
  | _ => false

mutual

/-- Expressions are levelled, conditions and loops govern no declaration, and no branch in front of
an `else` takes it. -/
def Stmt.Levelled : Stmt δ → Prop
  | .expression value | .print _ value => value.Levelled
  | .var _ none | .ret _ none => True
  | .var _ (some value) | .ret _ (some value) => value.Levelled
  | .block _ body => levelledBody body
  | .ifThen _ condition thenBranch =>
    condition.Levelled ∧ thenBranch.binds = none ∧ thenBranch.Levelled
  | .ifElse _ condition thenBranch elseBranch =>
    condition.Levelled ∧
      (thenBranch.binds = none ∧ thenBranch.takesElse = false ∧ thenBranch.Levelled) ∧
      elseBranch.binds = none ∧ elseBranch.Levelled
  | .loop _ condition body => condition.Levelled ∧ body.binds = none ∧ body.Levelled
  | .function declaration => declaration.Levelled
  | .classDecl _ _ methods => levelledMethods methods

def levelledBody : List (Stmt δ) → Prop
  | [] => True
  | s :: rest => s.Levelled ∧ levelledBody rest

def Routine.Levelled : Routine δ → Prop
  | .mk _ params body => params.length ≤ maxEntries ∧ levelledBody body

def levelledMethods : List (Routine δ) → Prop
  | [] => True
  | r :: rest => r.Levelled ∧ levelledMethods rest

end

/-! Trees up to line and column. -/

def Name.unplaced (n : Name) : Name := ⟨n.text, .start⟩

mutual

/-- The same tree with every part at the start of the source. -/
def Expr.unplaced : Expr δ → Expr δ
  | .literal _ value => .literal Pos.start.line value
  | .grouping _ inner => .grouping Pos.start.line inner.unplaced
  | .var name address => .var name.unplaced address
  | .assign name value address => .assign name.unplaced value.unplaced address
  | .unary op _ operand => .unary op .start operand.unplaced
  | .binary left op _ right => .binary left.unplaced op .start right.unplaced
  | .logical left op _ right => .logical left.unplaced op .start right.unplaced
  | .conditional condition thenBranch elseBranch =>
    .conditional condition.unplaced thenBranch.unplaced elseBranch.unplaced
  | .call callee _ arguments => .call callee.unplaced .start (unplacedAll arguments)
  | .member object name => .member object.unplaced name.unplaced
  | .assignMember object name value =>
    .assignMember object.unplaced name.unplaced value.unplaced
  | .receiver _ address => .receiver .start address
  | .inherited _ method address => .inherited .start method.unplaced address

def unplacedAll : List (Expr δ) → List (Expr δ)
  | [] => []
  | e :: rest => e.unplaced :: unplacedAll rest

end

def Superclass.unplaced (parent : Superclass δ) : Superclass δ :=
  ⟨parent.name.unplaced, parent.address⟩

mutual

def Stmt.unplaced : Stmt δ → Stmt δ
  | .expression value => .expression value.unplaced
  | .print _ value => .print Pos.start.line value.unplaced
  | .var name initializer => .var name.unplaced (initializer.map Expr.unplaced)
  | .block _ body => .block Pos.start.line (unplacedBody body)
  | .ifThen _ condition thenBranch =>
    .ifThen Pos.start.line condition.unplaced thenBranch.unplaced
  | .ifElse _ condition thenBranch elseBranch =>
    .ifElse Pos.start.line condition.unplaced thenBranch.unplaced elseBranch.unplaced
  | .loop _ condition body => .loop Pos.start.line condition.unplaced body.unplaced
  | .function declaration => .function declaration.unplaced
  | .classDecl name superclass methods =>
    .classDecl name.unplaced (superclass.map Superclass.unplaced) (unplacedMethods methods)
  | .ret _ value => .ret .start (value.map Expr.unplaced)

def unplacedBody : List (Stmt δ) → List (Stmt δ)
  | [] => []
  | s :: rest => s.unplaced :: unplacedBody rest

def Routine.unplaced : Routine δ → Routine δ
  | .mk name params body => .mk name.unplaced (params.map Name.unplaced) (unplacedBody body)

def unplacedMethods : List (Routine δ) → List (Routine δ)
  | [] => []
  | r :: rest => r.unplaced :: unplacedMethods rest

end

end

end LoxLang
