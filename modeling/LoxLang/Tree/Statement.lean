import LoxLang.Tree.Expression
/-! Statements and whole programs from tokens. A declaration that cannot be read is dropped,
and reading goes on where the next statement may start. -/
namespace LoxLang

/-- The statement a `for` stands for: a scope with the initializer, in it a loop, and in its
body, after the statement repeated, the increment. All that has no token of its own is
placed at the line of the keyword. -/
def forStatement (line : Nat) (initializer : Option RawStmt) (condition increment : Option RawExpr)
    (body : RawStmt) : RawStmt :=
  let round := match increment with
    | none => body
    | some e => .block line [body, .expression e]
  let repeated := .loop line (condition.getD (.literal line (.bool true))) round
  match initializer with
  | none => repeated
  | some s => .block line [s, repeated]

namespace Reading

def variableDeclaration (budget : Nat) : Reading RawStmt := do
  let name ← expectName .variableName
  match ← accept? .equal with
  | none =>
    let _ ← expect .semicolon .variableEnd
    pure (.var name none)
  | some _ =>
    let value ← expression budget
    let _ ← expect .semicolon .variableEnd
    pure (.var name (some value))

def expressionStatement (budget : Nat) : Reading RawStmt := do
  let value ← expression budget
  let _ ← expect .semicolon .statementEnd
  pure (.expression value)

/-- Declarations up to the closing brace, which is taken too. -/
def block (budget : Nat) (declaration : Reading (Option RawStmt)) : Reading (List RawStmt) := do
  let found ← untilBrace declaration budget
  let _ ← expect .rightBrace .blockEnd
  pure (found.filterMap id)

/-- A function or method from its name on. -/
def routine (budget : Nat) (declaration : Reading (Option RawStmt)) (kind : RoutineKind) :
    Reading RawRoutine := do
  let name ← expectName (.routineName kind)
  let _ ← expect .leftParen (.parametersStart kind)
  let params ←
    if ← nextIs .rightParen then pure []
    else entries .tooManyParameters (expectName .parameterName) budget 0
  let _ ← expect .rightParen .parametersEnd
  let _ ← expect .leftBrace (.routineBodyStart kind)
  let body ← block budget declaration
  pure (.mk name params body)

def superclass : Reading (Option (Superclass Unit)) := do
  match ← accept? .less with
  | none => pure none
  | some _ =>
    let name ← expectName .superclassName
    pure (some ⟨name, ()⟩)

/-- A class from its name on. -/
def classDeclaration (budget : Nat) (declaration : Reading (Option RawStmt)) :
    Reading RawStmt := do
  let name ← expectName .className
  let parent ← superclass
  let _ ← expect .leftBrace .classBodyStart
  let methods ← untilBrace (routine budget declaration .method) budget
  let _ ← expect .rightBrace .classBodyEnd
  pure (.classDecl name parent methods)

/-- The first clause of a `for`, with its semicolon. -/
def forInitializer (budget : Nat) : Reading (Option RawStmt) := do
  match ← accept? .semicolon with
  | some _ => pure none
  | none =>
    match ← accept? .varWord with
    | some _ => some <$> variableDeclaration budget
    | none => some <$> expressionStatement budget

/-- An expression, unless the token that ends its place comes at once. -/
def optionalExpression (budget : Nat) (stop : Kind) : Reading (Option RawExpr) := do
  if ← nextIs stop then pure none else some <$> expression budget

/-- A `for` from its opening parenthesis on. -/
def forLoop (budget : Nat) (statement : Reading RawStmt) (line : Nat) : Reading RawStmt := do
  let _ ← expect .leftParen .forStart
  let initializer ← forInitializer budget
  let condition ← optionalExpression budget .semicolon
  let _ ← expect .semicolon .loopConditionEnd
  let increment ← optionalExpression budget .rightParen
  let _ ← expect .rightParen .forClausesEnd
  let body ← statement
  pure (forStatement line initializer condition increment body)

def ifStatement (budget : Nat) (statement : Reading RawStmt) (line : Nat) : Reading RawStmt := do
  let _ ← expect .leftParen .ifStart
  let condition ← expression budget
  let _ ← expect .rightParen .ifConditionEnd
  let thenBranch ← statement
  match ← accept? .elseWord with
  | none => pure (.ifThen line condition thenBranch)
  | some _ =>
    let elseBranch ← statement
    pure (.ifElse line condition thenBranch elseBranch)

def printStatement (budget : Nat) (line : Nat) : Reading RawStmt := do
  let value ← expression budget
  let _ ← expect .semicolon .printEnd
  pure (.print line value)

def returnStatement (budget : Nat) (pos : Pos) : Reading RawStmt := do
  let value ← optionalExpression budget .semicolon
  let _ ← expect .semicolon .returnEnd
  pure (.ret pos value)

def whileStatement (budget : Nat) (statement : Reading RawStmt) (line : Nat) :
    Reading RawStmt := do
  let _ ← expect .leftParen .whileStart
  let condition ← expression budget
  let _ ← expect .rightParen .whileConditionEnd
  let body ← statement
  pure (.loop line condition body)

/-- A statement, given the readings of the statements and declarations inside it. -/
def statementLevel (budget : Nat) (statement : Reading RawStmt)
    (declaration : Reading (Option RawStmt)) : Reading RawStmt
  | [] => expressionStatement budget []
  | t :: ts =>
    match t.kind with
    | .forWord => forLoop budget statement t.pos.line ts
    | .ifWord => ifStatement budget statement t.pos.line ts
    | .printWord => printStatement budget t.pos.line ts
    | .returnWord => returnStatement budget t.pos ts
    | .whileWord => whileStatement budget statement t.pos.line ts
    | .leftBrace => (Stmt.block t.pos.line <$> block budget declaration) ts
    | _ => expressionStatement budget (t :: ts)

/-- A declaration or statement, given the readings of those inside it. -/
def declarationLevel (budget : Nat) (statement : Reading RawStmt)
    (declaration : Reading (Option RawStmt)) : Reading RawStmt
  | [] => statementLevel budget statement declaration []
  | t :: ts =>
    match t.kind with
    | .classWord => classDeclaration budget declaration ts
    | .funWord => (Stmt.function <$> routine budget declaration .function) ts
    | .varWord => variableDeclaration budget ts
    | _ => statementLevel budget statement declaration (t :: ts)

mutual

def statement : Nat → Reading RawStmt
  | 0 => fail .expression
  | n + 1 => statementLevel (n + 1) (statement n) (declaration n)

/-- A declaration, or nothing after resuming behind one that cannot be read. -/
def declaration : Nat → Reading (Option RawStmt)
  | 0 => recover (fail .expression)
  | n + 1 => recover (declarationLevel (n + 1) (statement n) (declaration n))

end

/-- Declarations up to the end of the tokens. -/
def program (budget : Nat) : Reading (List RawStmt) := do
  let found ← untilEnd (declaration budget) budget
  pure (found.filterMap id)

end Reading

/-- The statements that could be read, and every issue. -/
structure Parse where
  program : List RawStmt
  issues : List Issue

def parse (tokens : List Token) : Parse :=
  let read := Reading.program tokens.length tokens
  ⟨read.value?.getD [], read.issues⟩

def Issue.diagnostic (lastLine : Nat) (i : Issue) : Diagnostic :=
  Diagnostic.atSite lastLine i.site i.cause.message

end LoxLang
