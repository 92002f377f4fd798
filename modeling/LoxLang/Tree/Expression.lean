import LoxLang.Tree.Reading
/-! Expressions from tokens, one reading per level of the grammar. A budget is at least the
number of tokens left, so it runs out only at their end. Readings nested in brackets or
after an operator that nests to the right start behind at least one token. -/
namespace LoxLang

/-- Trees as they come from the tokens, without addresses. -/
abbrev RawExpr := Expr Unit
abbrev RawStmt := Stmt Unit
abbrev RawRoutine := Routine Unit

namespace Reading

/-- Further operands of a level, each joined to what stands on its left. -/
def chain {ω : Type} (choice : Kind → Option ω) (join : RawExpr → ω → Pos → RawExpr → RawExpr)
    (operand : Reading RawExpr) : Nat → RawExpr → Reading RawExpr
  | 0, left => pure left
  | n + 1, left => do
    match ← acceptWith? choice with
    | none => pure left
    | some (op, t) =>
      let right ← operand
      chain choice join operand n (join left op t.pos right)

/-- Operands of a level, nested to the left. -/
def leftNested {ω : Type} (choice : Kind → Option ω)
    (join : RawExpr → ω → Pos → RawExpr → RawExpr) (budget : Nat) (operand : Reading RawExpr) :
    Reading RawExpr := do
  let first ← operand
  chain choice join operand budget first

def commaOp? : Kind → Option BinaryOp
  | .comma => some .comma
  | _ => none

def orOp? : Kind → Option LogicalOp
  | .orWord => some .or
  | _ => none

def andOp? : Kind → Option LogicalOp
  | .andWord => some .and
  | _ => none

def equalityOp? : Kind → Option BinaryOp
  | .bangEqual => some .notEqual
  | .equalEqual => some .equal
  | _ => none

def comparisonOp? : Kind → Option BinaryOp
  | .greater => some .greater
  | .greaterEqual => some .greaterEqual
  | .less => some .less
  | .lessEqual => some .lessEqual
  | _ => none

def termOp? : Kind → Option BinaryOp
  | .minus => some .subtract
  | .plus => some .add
  | _ => none

def factorOp? : Kind → Option BinaryOp
  | .slash => some .divide
  | .star => some .multiply
  | _ => none

def unaryOp? : Kind → Option UnaryOp
  | .bang => some .not
  | .minus => some .negate
  | _ => none

/-- An expression, given the reading of its parts between commas. -/
def commaList (budget : Nat) (part : Reading RawExpr) : Reading RawExpr :=
  leftNested commaOp? Expr.binary budget part

/-- The constant that a token stands for by itself. -/
def constant? (t : Token) : Option Literal :=
  match t.kind with
  | .falseWord => some (.bool false)
  | .trueWord => some (.bool true)
  | .nilWord => some .nil
  | _ => t.literal?

/-- The method named after `super`. -/
def inheritedAccess (pos : Pos) : Reading RawExpr := do
  let _ ← expect .dot .superDot
  let method ← expectName .superMethod
  pure (.inherited pos method ())

/-- A grouping from behind its opening parenthesis. -/
def grouping (budget : Nat) (nested : Reading RawExpr) (line : Nat) : Reading RawExpr := do
  let inner ← commaList budget nested
  let _ ← expect .rightParen .groupingEnd
  pure (.grouping line inner)

/-- Literals, names, `this`, `super.name` and groupings. -/
def primary (budget : Nat) (nested : Reading RawExpr) : Reading RawExpr
  | [] => fail .expression []
  | t :: ts =>
    match constant? t with
    | some value => ⟨some (.literal t.pos.line value), ts, []⟩
    | none =>
      match t.kind with
      | .superWord => inheritedAccess t.pos ts
      | .thisWord => ⟨some (.receiver t.pos ()), ts, []⟩
      | .identifier => ⟨some (.var ⟨t.lexeme, t.pos⟩ ()), ts, []⟩
      | .leftParen => grouping budget nested t.pos.line ts
      | _ => fail .expression (t :: ts)

/-- The arguments of a call up to its closing parenthesis, and the place of that. -/
def arguments (budget : Nat) (nested : Reading RawExpr) : Reading (List RawExpr × Pos) := do
  let args ← if ← nextIs .rightParen then pure [] else entries .tooManyArguments nested budget 0
  let close ← expect .rightParen .argumentsEnd
  pure (args, close.pos)

/-- Calls and property accesses after an expression. -/
def suffixes (budget : Nat) (nested : Reading RawExpr) : Nat → RawExpr → Reading RawExpr
  | 0, e => pure e
  | n + 1, e => fun ts =>
    match ts with
    | [] => ⟨some e, [], []⟩
    | t :: rest =>
      match t.kind with
      | .leftParen => (do
          let (args, close) ← arguments budget nested
          suffixes budget nested n (.call e close args)) rest
      | .dot => (do
          let name ← expectName .propertyName
          suffixes budget nested n (.member e name)) rest
      | _ => ⟨some e, t :: rest, []⟩

def callLevel (budget : Nat) (nested : Reading RawExpr) : Reading RawExpr := do
  let e ← primary budget nested
  suffixes budget nested budget e

/-- Prefix operators, nested to the right. -/
def unaryLevel (budget : Nat) (nested : Reading RawExpr) : Nat → Reading RawExpr
  | 0 => fail .expression
  | n + 1 => do
    match ← acceptWith? unaryOp? with
    | some (op, t) =>
      let operand ← unaryLevel budget nested n
      pure (.unary op t.pos operand)
    | none => callLevel budget nested

def factor (budget : Nat) (nested : Reading RawExpr) : Reading RawExpr :=
  leftNested factorOp? Expr.binary budget (unaryLevel budget nested budget)

def term (budget : Nat) (nested : Reading RawExpr) : Reading RawExpr :=
  leftNested termOp? Expr.binary budget (factor budget nested)

def comparison (budget : Nat) (nested : Reading RawExpr) : Reading RawExpr :=
  leftNested comparisonOp? Expr.binary budget (term budget nested)

def equality (budget : Nat) (nested : Reading RawExpr) : Reading RawExpr :=
  leftNested equalityOp? Expr.binary budget (comparison budget nested)

def conjunction (budget : Nat) (nested : Reading RawExpr) : Reading RawExpr :=
  leftNested andOp? Expr.logical budget (equality budget nested)

def disjunction (budget : Nat) (nested : Reading RawExpr) : Reading RawExpr :=
  leftNested orOp? Expr.logical budget (conjunction budget nested)

/-- Conditionals nest to the right; the branch before the colon is a nested reading. -/
def conditional (budget : Nat) (nested : Reading RawExpr) : Nat → Reading RawExpr
  | 0 => fail .expression
  | n + 1 => do
    let condition ← disjunction budget nested
    match ← accept? .question with
    | none => pure condition
    | some _ =>
      let thenBranch ← nested
      let _ ← expect .colon .conditionalColon
      let elseBranch ← conditional budget nested n
      pure (.conditional condition thenBranch elseBranch)

/-- An assignment of `value` to what was read before the equals sign. Anything but a variable
or a property is reported at that sign and kept. -/
def assignTo (target : RawExpr) (equals : Token) (value : RawExpr) : Reading RawExpr :=
  match target with
  | .var name _ => pure (.assign name value ())
  | .member object name => pure (.assignMember object name value)
  | _ => do
    reportAt (some equals) .assignmentTarget
    pure target

/-- Assignments nest to the right. -/
def assignment : Nat → Reading RawExpr
  | 0 => fail .expression
  | n + 1 => do
    let left ← conditional (n + 1) (assignment n) (n + 1)
    match ← accept? .equal with
    | none => pure left
    | some equals =>
      let value ← assignment n
      assignTo left equals value

/-- An expression: assignments separated by commas. -/
def expression (budget : Nat) : Reading RawExpr := commaList budget (assignment budget)

end Reading
end LoxLang
