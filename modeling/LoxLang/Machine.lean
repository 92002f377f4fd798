import LoxLang.Heap
/-! The state of a run and the ways it can stop. -/
namespace LoxLang

/-- How far a run may go: how deep calls may nest, and how many rounds a loop may take. -/
structure Limits where
  depth : Nat
  rounds : Nat

/-- Calls nest a thousand deep; no loop that ends takes anywhere near the rounds allowed. -/
def Limits.standard : Limits := ⟨1000, Nat.pow 2 60⟩

/-- What a clock reads each time it is asked, from now on. -/
structure Clock where
  reading : Nat → Float

namespace Clock

/-- A clock that stands still. -/
def stopped (now : Float) : Clock := ⟨fun _ => now⟩

instance : Coe Float Clock := ⟨stopped⟩

instance (n : Nat) : OfNat Clock n := ⟨stopped (.ofNat n)⟩

/-- The clock behind its next reading. -/
def later (c : Clock) : Clock := ⟨fun n => c.reading (n + 1)⟩

end Clock

/-- What a run shares with the world around it: the lines printed so far, and a clock. -/
structure World where
  printed : Array String
  clock : Clock

namespace World

def print (w : World) (line : String) : World := { w with printed := w.printed.push line }

/-- The time, and the world behind it. -/
def time (w : World) : Float × World := (w.clock.reading 0, { w with clock := w.clock.later })

/-- The world with the lines taken out. -/
def flush (w : World) : World := { w with printed := #[] }

end World

/-- What a run changes: the heap, the scope that is active, and the world around it. -/
structure Machine where
  heap : Heap
  active : ScopeId
  world : World

/-- Why a computation stops before it has a value. -/
inductive Exit where
  /-- A `return` on its way to the call it ends. -/
  | returned (v : Value)
  | fault (f : Fault)
  | unbound (u : Unbound)
  /-- Calls nest too deep. -/
  | overflow
  /-- A loop takes too many rounds. -/
  | endless
  /-- A reference leads to nothing, or `this` or `super` to a value of the wrong kind. -/
  | illFormed

/-- A computation on the machine. Whichever way it ends, the machine it leaves goes on. -/
abbrev Run (α : Type) : Type := EStateM Exit Machine α

namespace Machine

/-- The global scope is the first of the heap. -/
def globals : ScopeId := ⟨0⟩

/-- A machine with an empty global scope. -/
def start (now : Clock) : Machine := ⟨.start, globals, ⟨#[], now⟩⟩

/-- The machine with the lines taken out. -/
def flush (m : Machine) : Machine := { m with world := m.world.flush }

end Machine

namespace Run
variable {α : Type}

def heap : Run Heap := fun m => .ok m.heap m

def active : Run ScopeId := fun m => .ok m.active m

def print (line : String) : Run Unit := fun ⟨heap, active, world⟩ =>
  .ok () ⟨heap, active, world.print line⟩

def time : Run Float := fun ⟨heap, active, world⟩ =>
  let (now, world) := world.time
  .ok now ⟨heap, active, world⟩

def fault (cause : Fault.Cause) (token : Option Token) : Run α := throw (.fault ⟨cause, token⟩)

/-- Replaces the heap by what a change of it yields. -/
def change (f : Heap → α × Heap) : Run α := fun ⟨heap, active, world⟩ =>
  let (a, h) := f heap
  .ok a ⟨h, active, world⟩

def update (f : Heap → Heap) : Run Unit := fun ⟨heap, active, world⟩ =>
  .ok () ⟨f heap, active, world⟩

/-- The object a reference leads to. -/
def follow : Option α → Run α
  | some a => pure a
  | none => throw .illFormed

/-- Runs a computation with another scope active. The scope active before is active again
afterwards, whichever way the computation ends. -/
def within (s : ScopeId) (x : Run α) : Run α := fun ⟨heap, before, world⟩ =>
  match x ⟨heap, s, world⟩ with
  | .ok a ⟨heap, _, world⟩ => .ok a ⟨heap, before, world⟩
  | .error e ⟨heap, _, world⟩ => .error e ⟨heap, before, world⟩

/-- Repeats a computation for as long as it yields true. -/
def repeatWhile (round : Run Bool) : Nat → Run Unit
  | 0 => throw .endless
  | n + 1 => do
    if ← round then repeatWhile round n

/-- Binds a name in the active scope. -/
def define (name : String) (v : Option Value) : Run Unit := do
  let s ← active
  update (·.define s name v)

end Run
end LoxLang
