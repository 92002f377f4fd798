import LoxLang.Machine
/-! The values of expressions. How a value is called is a parameter here. -/
namespace LoxLang

/-- A call of something whose number of arguments has been checked. -/
abbrev Caller : Type := Callable → List Value → Run Value

/-- The sum of two numbers, or two texts joined, one of which may be the display of a number. -/
def addValues : Value → Value → Except Fault.Cause Value
  | .number x, .number y => .ok (.number (x + y))
  | .text s, .text t => .ok (.text (s ++ t))
  | .number x, .text t => .ok (.text (displayNumber x ++ t))
  | .text s, .number y => .ok (.text (s ++ displayNumber y))
  | _, _ => .error .operandsNotAddable

/-- The value of a binary operator applied to two values. Order and arithmetic are for
numbers only; division by either zero is refused. -/
def BinaryOp.apply : BinaryOp → Value → Value → Except Fault.Cause Value
  | .comma, _, b => .ok b
  | .equal, a, b => .ok (.bool (a.same b))
  | .notEqual, a, b => .ok (.bool !a.same b)
  | .add, a, b => addValues a b
  | .greater, .number x, .number y => .ok (.bool (decide (y < x)))
  | .greaterEqual, .number x, .number y => .ok (.bool (decide (y ≤ x)))
  | .less, .number x, .number y => .ok (.bool (decide (x < y)))
  | .lessEqual, .number x, .number y => .ok (.bool (decide (x ≤ y)))
  | .subtract, .number x, .number y => .ok (.number (x - y))
  | .multiply, .number x, .number y => .ok (.number (x * y))
  | .divide, .number x, .number y =>
    if y == 0 then .error .divisionByZero else .ok (.number (x / y))
  | _, _, _ => .error .operandsNotNumbers

def UnaryOp.apply (op : UnaryOp) (a : Value) : Except Fault.Cause Value :=
  match op, a with
  | .not, a => .ok (.bool !a.isTruthy)
  | .negate, .number x => .ok (.number (-x))
  | .negate, _ => .error .operandNotNumber

namespace Run

/-- A result computed apart from the machine, failing at a token. -/
def lift (token : Token) : Except Fault.Cause Value → Run Value
  | .ok v => pure v
  | .error cause => fault cause (some token)

/-- Reads a variable: at its address, or among the globals. -/
def lookUp (token : Token) (address : Address) : Run Value := do
  let h ← heap
  match address with
  | none => lift token (h.get Machine.globals token.lexeme)
  | some depth =>
    match h.getAt (← active) depth token.lexeme with
    | .ok v => pure v
    | .error (.fault cause) => fault cause (some token)
    | .error (.unbound u) => throw (.unbound u)

/-- Gives the nearest binding of a name, from a scope outward, a value. -/
def assignFrom (s : ScopeId) (name : Name) (v : Value) : Run Unit := do
  match (← heap).binder? s name.text with
  | some t => update (·.define t name.text (some v))
  | none => fault (.undefinedVariable name.text) (some name.token)

/-- Gives the binding of a name at a distance from the active scope a value. -/
def assignAt (distance : Int) (name : Name) (v : Value) : Run Unit := do
  let s ← active
  match (← heap).binderAt s distance name.text with
  | .ok t => update (·.define t name.text (some v))
  | .error u => throw (.unbound u)

/-- Assigns a variable: at its address, or among the globals. -/
def assign (name : Name) (address : Address) (v : Value) : Run Unit :=
  match address with
  | none => assignFrom Machine.globals name v
  | some depth => assignAt depth name v

/-- A new function: the method with its receiver bound. -/
def bound (method : Closure) (i : InstanceId) : Run Value := do
  let k ← change (·.bindReceiver method i)
  let f ← change (·.newFunction k)
  pure (.callable (.function f))

/-- A property of an instance: a field, or else a method bound to the instance. -/
def property (i : InstanceId) (name : Name) : Run Value := do
  let h ← heap
  let o ← follow (h.instance? i)
  match o.fields.find? name.text with
  | some v => pure v
  | none =>
    match h.findMethod o.ofClass name.text with
    | some method => bound method i
    | none => fault (.undefinedProperty name.text) (some name.token)

/-- A method found above a class, bound to the receiver. `super` stands one scope further out
than `this`. -/
def inheritedMethod (pos : Pos) (method : Name) (address : Address) : Run Value := do
  let h ← heap
  let depth ← follow address
  let parent ← lookUp (inheritedToken pos) address
  match parent, h.getAt (← active) (depth - 1) "this" with
  | .callable (.ofClass c), .ok (.object i) =>
    match h.findMethod c method.text with
    | some found => bound found i
    | none => fault (.undefinedProperty method.text) (some method.token)
  | _, .error (.unbound u) => throw (.unbound u)
  | _, _ => throw .illFormed

/-- Calls a value with arguments, placed at the closing parenthesis of the call. -/
def callValue (call : Caller) (close : Pos) (callee : Value) (arguments : List Value) :
    Run Value := do
  let paren : Token := ⟨.rightParen, ")", close⟩
  match callee with
  | .callable c =>
    let expected ← follow ((← heap).arity? c)
    if arguments.length = expected then call c arguments
    else fault (.arity expected arguments.length) (some paren)
  | _ => fault .notCallable (some paren)

/-- The value of an `and` or `or` whose left operand has the value `left`. -/
def shortCircuit (op : LogicalOp) (left : Value) (right : Run Value) : Run Value :=
  match op with
  | .or => if left.isTruthy then pure left else right
  | .and => if left.isTruthy then right else pure left

mutual

/-- The value of an expression. Operands are evaluated from left to right. -/
def evaluate (call : Caller) : Expr Address → Run Value
  | .literal _ value => pure value.toValue
  | .grouping _ inner => evaluate call inner
  | .var name address => lookUp name.token address
  | .assign name value address => do
    let v ← evaluate call value
    assign name address v
    pure v
  | .unary op pos operand => do
    let v ← evaluate call operand
    lift (op.token pos) (op.apply v)
  | .binary left op pos right => do
    let a ← evaluate call left
    let b ← evaluate call right
    lift (op.token pos) (op.apply a b)
  | .logical left op _ right => do
    let a ← evaluate call left
    shortCircuit op a (evaluate call right)
  | .conditional condition thenBranch elseBranch => do
    let c ← evaluate call condition
    if c.isTruthy then evaluate call thenBranch else evaluate call elseBranch
  | .call callee close arguments => do
    let f ← evaluate call callee
    let args ← evaluateAll call arguments
    callValue call close f args
  | .member object name => do
    match ← evaluate call object with
    | .object i => property i name
    | _ => fault .noProperties (some name.token)
  | .assignMember object name value => do
    match ← evaluate call object with
    | .object i =>
      let v ← evaluate call value
      update (·.setField i name.text v)
      pure v
    | _ => fault .noFields (some name.token)
  | .receiver pos address => lookUp (receiverToken pos) address
  | .inherited pos method address => inheritedMethod pos method address

def evaluateAll (call : Caller) : List (Expr Address) → Run (List Value)
  | [] => pure []
  | e :: rest => do
    let v ← evaluate call e
    let vs ← evaluateAll call rest
    pure (v :: vs)

end

end Run
end LoxLang
