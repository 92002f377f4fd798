import LoxLang.Token
/-! What can go wrong while a program runs. -/
namespace LoxLang

/-- Why a run fails. -/
inductive Fault.Cause where
  | operandNotNumber
  | operandsNotNumbers
  | operandsNotAddable
  | superclassNotClass
  /-- A routine of the host refuses its arguments. -/
  | raised (message : String)
  | divisionByZero
  | undefinedVariable (name : String)
  | uninitializedVariable (name : String)
  | undefinedProperty (name : String)
  | notCallable
  | noProperties
  | noFields
  | arity (expected got : Nat)
deriving DecidableEq

/-- A failure with the token at which it arose, if it arose in the program text. -/
structure Fault where
  cause : Fault.Cause
  token : Option Token
deriving DecidableEq

namespace Fault

def Cause.message : Cause → String
  | operandNotNumber => "Operand must be a number."
  | operandsNotNumbers => "Operands must be numbers."
  | operandsNotAddable => "Operands must be two numbers or two strings."
  | superclassNotClass => "Superclass must be a class."
  | raised message => message
  | divisionByZero => "Can't divide a number by zero."
  | undefinedVariable name => "Undefined variable '" ++ name ++ "'."
  | uninitializedVariable name => "Variable '" ++ name ++ "' is uninitialized."
  | undefinedProperty name => "Undefined property '" ++ name ++ "'."
  | notCallable => "Can only call functions and classes."
  | noProperties => "Only instances have properties."
  | noFields => "Only instances have fields."
  | arity expected got =>
    "Expect " ++ expected.repr ++ " arguments but got " ++ got.repr ++ "."

def message (f : Fault) : String := f.cause.message

/-- The line of the token, 0 without one. -/
def line (f : Fault) : Nat := (f.token.map (·.pos.line)).getD 0

/-- The lines shown to the user. -/
def text (f : Fault) : String := f.message ++ "\n[line " ++ f.line.repr ++ "]"

end Fault

/-- An access at an address that leads to no scope or to no binding. It is no failure of the
program but of the agreement between its addresses and its scopes. -/
inductive Unbound where
  | noScope (distance : Int)
  | notBound (name : String) (distance : Int)
deriving DecidableEq

def Unbound.message : Unbound → String
  | noScope distance => "No scope at distance " ++ distance.repr
  | notBound name distance =>
    "'" ++ name ++ "' not bound at resolved distance " ++ distance.repr

/-- Why a variable cannot be read or assigned. -/
inductive AccessError where
  | fault (cause : Fault.Cause)
  | unbound (u : Unbound)
deriving DecidableEq

end LoxLang
