import LoxLang.Number.Layout
import LoxLang.Token
import LoxLang.Text.Quoted
/-! Values: constants, and references to what lives on the heap. -/
namespace LoxLang

structure ScopeId where
  index : Nat
deriving DecidableEq

structure FunctionId where
  index : Nat
deriving DecidableEq

structure ClassId where
  index : Nat
deriving DecidableEq

structure InstanceId where
  index : Nat
deriving DecidableEq

structure NativeId where
  index : Nat
deriving DecidableEq

/-- What can be called: a routine of the host, a function with its scope, or a class. -/
inductive Callable where
  | native (id : NativeId)
  | function (id : FunctionId)
  | ofClass (id : ClassId)
deriving DecidableEq

inductive Value where
  | nil
  | bool (b : Bool)
  | number (x : Float)
  | text (s : String)
  | callable (c : Callable)
  | object (i : InstanceId)

namespace Value

/-- The name of a value's type. -/
def typeName : Value → String
  | nil => "nil"
  | bool _ => "boolean"
  | number _ => "number"
  | text _ => "string"
  | callable _ => "callable"
  | object _ => "instance"

/-- All values but `nil` and `false` hold, also zero and the empty string. -/
def isTruthy : Value → Bool
  | nil => false
  | bool b => b
  | _ => true

/-- Equality of values. Numbers are equal if they are taken apart alike: one not-a-number
equals another, and the two zeros differ. References are equal if they are the same. -/
def same : Value → Value → Bool
  | nil, nil => true
  | bool a, bool b => a = b
  | number a, number b => Parts.ofFloat a = Parts.ofFloat b
  | text a, text b => a = b
  | callable a, callable b => a = b
  | object a, object b => a = b
  | _, _ => false

end Value

namespace Literal

def toValue : Literal → Value
  | nil => .nil
  | bool b => .bool b
  | number x => .number x
  | text s => .text s

/-- A constant with its type, for inspection. -/
def inspect (l : Literal) : String :=
  let payload := match l with
    | nil => "None"
    | bool true => "True"
    | bool false => "False"
    | number x => tokenNumber x
    | text s => Text.quoted s
  "LoxValue(" ++ l.toValue.typeName ++ ": " ++ payload ++ ")"

end Literal
end LoxLang
