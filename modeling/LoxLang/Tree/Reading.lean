import LoxLang.Diagnostic
import LoxLang.Tree
/-! Reading trees from tokens. A reading takes tokens from the front of a list, may report
issues, and either yields a value or is abandoned. Issues are output only: no reading can
look at them. -/
namespace LoxLang

def RoutineKind.word : RoutineKind → String
  | function => "function"
  | method => "method"

inductive SyntaxError where
  | className | superclassName | classBodyStart | classBodyEnd
  | routineName (kind : RoutineKind) | parametersStart (kind : RoutineKind)
  | parameterName | tooManyParameters | parametersEnd | routineBodyStart (kind : RoutineKind)
  | variableName | variableEnd | blockEnd
  | forStart | loopConditionEnd | forClausesEnd
  | ifStart | ifConditionEnd | whileStart | whileConditionEnd
  | printEnd | returnEnd | statementEnd
  | assignmentTarget | conditionalColon
  | propertyName | tooManyArguments | argumentsEnd
  | superDot | superMethod | groupingEnd | expression
deriving DecidableEq

/-- Parameter and argument lists hold at most this many entries. -/
def maxEntries : Nat := 8

namespace SyntaxError

def message : SyntaxError → String
  | className => "Expect class name."
  | superclassName => "Expect superclass name."
  | classBodyStart => "Expect '\x7b' before class body."
  | classBodyEnd => "Expect '\x7d' after class body."
  | routineName kind => "Expect " ++ kind.word ++ " name."
  | parametersStart kind => "Expect '(' after " ++ kind.word ++ " name."
  | parameterName => "Expect parameter name."
  | tooManyParameters => "Can't have more than " ++ maxEntries.repr ++ " parameters."
  | parametersEnd => "Expect ')' after parameters."
  | routineBodyStart kind => "Expect '\x7b' before " ++ kind.word ++ " body."
  | variableName => "Expect variable name."
  | variableEnd => "Expect ';' after variable declaration."
  | blockEnd => "Expect '\x7d' after block."
  | forStart => "Expect '(' after 'for'."
  | loopConditionEnd => "Expect ';' after loop condition."
  | forClausesEnd => "Expect ')' after for clauses."
  | ifStart => "Expect '(' after 'if'."
  | ifConditionEnd => "Expect ')' after if condition."
  | whileStart => "Expect '(' after 'while'."
  | whileConditionEnd => "Expect ')' after condition."
  | printEnd => "Expect ';' after value."
  | returnEnd => "Expect ';' after return value."
  | statementEnd => "Expect ';' after expression."
  | assignmentTarget => "Invalid assignment target."
  | conditionalColon => "Expect ':' after then branch of conditional expression."
  | propertyName => "Expect property name after '.'."
  | tooManyArguments => "Can't have more than " ++ maxEntries.repr ++ " arguments."
  | argumentsEnd => "Expect ')' after arguments."
  | superDot => "Expect '.' after 'super'."
  | superMethod => "Expect superclass method name."
  | groupingEnd => "Expect ')' after expression."
  | expression => "Expect expression."

end SyntaxError

/-- An error at a token, or at the end of the source. -/
structure Issue where
  site : Option Token
  cause : SyntaxError
deriving DecidableEq

/-- What a reading leaves: its value unless it was abandoned, the tokens not taken, and the
issues in the order in which they were found. -/
structure Reading.Outcome (α : Type) where
  value? : Option α
  rest : List Token
  issues : List Issue

def Reading (α : Type) : Type := List Token → Reading.Outcome α

namespace Reading
variable {α β : Type}

instance : Monad Reading where
  pure a := fun ts => ⟨some a, ts, []⟩
  bind x f := fun ts =>
    let first := x ts
    match first.value? with
    | none => ⟨none, first.rest, first.issues⟩
    | some a =>
      let second := f a first.rest
      ⟨second.value?, second.rest, first.issues ++ second.issues⟩

/-- Reports an issue and goes on. -/
def reportAt (site : Option Token) (cause : SyntaxError) : Reading Unit :=
  fun ts => ⟨some (), ts, [⟨site, cause⟩]⟩

/-- Reports an issue at the next token and goes on. -/
def report (cause : SyntaxError) : Reading Unit :=
  fun ts => ⟨some (), ts, [⟨ts.head?, cause⟩]⟩

/-- Reports an issue at the next token and abandons the reading. -/
def fail (cause : SyntaxError) : Reading α :=
  fun ts => ⟨none, ts, [⟨ts.head?, cause⟩]⟩

/-- Whether the next token is of a kind. -/
def nextIs (kind : Kind) : Reading Bool :=
  fun ts => ⟨some (ts.head?.any (·.kind = kind)), ts, []⟩

/-- Takes the next token if the choice has something for its kind. -/
def acceptWith? (choice : Kind → Option α) : Reading (Option (α × Token))
  | [] => ⟨some none, [], []⟩
  | t :: ts =>
    match choice t.kind with
    | some a => ⟨some (some (a, t)), ts, []⟩
    | none => ⟨some none, t :: ts, []⟩

/-- Takes the next token if it is of the given kind. -/
def accept? (kind : Kind) : Reading (Option Token)
  | [] => ⟨some none, [], []⟩
  | t :: ts => if t.kind = kind then ⟨some (some t), ts, []⟩ else ⟨some none, t :: ts, []⟩

/-- Takes a token of the given kind, or fails. -/
def expect (kind : Kind) (cause : SyntaxError) : Reading Token
  | [] => fail cause []
  | t :: ts => if t.kind = kind then ⟨some t, ts, []⟩ else fail cause (t :: ts)

def expectName (cause : SyntaxError) : Reading Name := do
  let t ← expect .identifier cause
  pure ⟨t.lexeme, t.pos⟩

/-- Items up to a closing brace or the end, neither of which is taken. The budget is at least
the number of tokens left, and every item takes one. -/
def untilBrace (item : Reading α) : Nat → Reading (List α)
  | 0 => pure []
  | n + 1 => fun ts =>
    if ts.head?.all (·.kind = .rightBrace) then ⟨some [], ts, []⟩
    else (do
      let first ← item
      let others ← untilBrace item n
      pure (first :: others)) ts

/-- Items up to the end of the tokens. -/
def untilEnd (item : Reading α) : Nat → Reading (List α)
  | 0 => pure []
  | n + 1 => fun ts =>
    if ts.isEmpty then ⟨some [], ts, []⟩
    else (do
      let first ← item
      let others ← untilEnd item n
      pure (first :: others)) ts

/-- One entry after `count` others; an entry too many is reported where it starts. -/
def entry (tooMany : SyntaxError) (item : Reading α) (count : Nat) : Reading α := do
  if maxEntries ≤ count then report tooMany
  item

/-- Entries separated by commas, at least one. -/
def entries (tooMany : SyntaxError) (item : Reading α) : Nat → Nat → Reading (List α)
  | 0, count => do
    let first ← entry tooMany item count
    pure [first]
  | n + 1, count => do
    let first ← entry tooMany item count
    match ← accept? .comma with
    | none => pure [first]
    | some _ =>
      let others ← entries tooMany item n (count + 1)
      pure (first :: others)

/-- The tokens after the one that follows `previous`, from the start of a statement on: after
a semicolon, or before a keyword that starts one. -/
def resumeAfter (previous : Token) : List Token → List Token
  | [] => []
  | t :: ts =>
    if previous.kind = .semicolon ∨ t.kind ∈ [.classWord, .funWord, .varWord, .forWord, .ifWord,
        .whileWord, .printWord, .returnWord]
    then t :: ts else resumeAfter t ts

/-- Skips at least one token, up to where a statement may start. -/
def resume : List Token → List Token
  | [] => []
  | t :: ts => resumeAfter t ts

/-- Where a reading is abandoned, goes on at the next statement without its value. -/
def recover (x : Reading α) : Reading (Option α) := fun ts =>
  let read := x ts
  match read.value? with
  | some a => ⟨some (some a), read.rest, read.issues⟩
  | none => ⟨some none, resume read.rest, read.issues⟩

end Reading
end LoxLang
