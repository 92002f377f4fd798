import LoxLang.Value
/-! Routines of the host. A host program computes a value from arguments; it may call back
into the program, ask how many arguments something takes, look at how a value displays, take the
time, or refuse its arguments. -/
namespace LoxLang

inductive Host where
  | done (v : Value)
  | raise (message : String)
  | call (callee : Callable) (arguments : List Value) (next : Value → Host)
  | arity (callee : Callable) (next : Nat → Host)
  | display (v : Value) (next : String → Host)
  | time (next : Float → Host)

structure Native where
  name : String
  arity : Nat
  body : List Value → Host

/-- The routine `clock`: the time in seconds, taken at each call. -/
def Native.clock : Native := ⟨"clock", 0, fun _ => .time fun now => .done (.number now)⟩

end LoxLang
