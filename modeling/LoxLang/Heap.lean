import LoxLang.Table
import LoxLang.Scoping
import LoxLang.Fault
import LoxLang.Native
/-! The heap: scopes, functions, classes, instances and routines of the host. Nothing is ever
taken off it. -/
namespace LoxLang

/-- A scope: the scopes around it, nearest first, and its bindings. A name bound to `none` is
declared and has no value yet. -/
structure Scope where
  outer : List ScopeId
  bindings : Table (Option Value)

/-- A routine with the scope it was declared in. A method whose receiver is bound has a scope
with `this` around its declaration's. -/
structure Closure where
  declaration : Routine Address
  scope : ScopeId
  isInitializer : Bool

/-- A class: the classes above it, nearest first, and its own methods. -/
structure Class where
  name : String
  ancestors : List ClassId
  methods : Table Closure

structure Instance where
  ofClass : ClassId
  fields : Table Value

structure Heap where
  scopes : Array Scope
  functions : Array Closure
  classes : Array Class
  instances : Array Instance
  natives : Array Native

namespace Heap

def empty : Heap := ⟨#[], #[], #[], #[], #[]⟩

def scope? (h : Heap) (s : ScopeId) : Option Scope := h.scopes[s.index]?

def function? (h : Heap) (f : FunctionId) : Option Closure := h.functions[f.index]?

def class? (h : Heap) (c : ClassId) : Option Class := h.classes[c.index]?

def instance? (h : Heap) (i : InstanceId) : Option Instance := h.instances[i.index]?

def native? (h : Heap) (n : NativeId) : Option Native := h.natives[n.index]?

/-! Scopes. -/

/-- A scope and the scopes around it, nearest first. -/
def chain (h : Heap) (s : ScopeId) : List ScopeId := s :: ((h.scope? s).map Scope.outer).getD []

/-- A new scope without bindings inside `enclosing`. -/
def newScope (h : Heap) (enclosing : Option ScopeId) : ScopeId × Heap :=
  let outer := (enclosing.map h.chain).getD []
  (⟨h.scopes.size⟩, { h with scopes := h.scopes.push ⟨outer, Table.empty⟩ })

/-- A heap with an empty global scope. -/
def start : Heap := (empty.newScope none).2

/-- Binds a name in a scope, in place of any binding of that name there. -/
def define (h : Heap) (s : ScopeId) (x : String) (v : Option Value) : Heap :=
  { h with scopes := h.scopes.modify s.index fun scope =>
      { scope with bindings := scope.bindings.put x v } }

/-- The binding of a name in one scope. -/
def binding? (h : Heap) (s : ScopeId) (x : String) : Option (Option Value) :=
  (h.scope? s).bind fun scope => scope.bindings.find? x

/-- The nearest scope outward that binds a name. -/
def binder? (h : Heap) (s : ScopeId) (x : String) : Option ScopeId :=
  (h.chain s).find? fun t => (h.binding? t x).isSome

/-- The nearest binding outward of a name. -/
def lookup (h : Heap) (s : ScopeId) (x : String) : Option (Option Value) :=
  (h.chain s).findSome? fun t => h.binding? t x

/-- The scope so many scopes outward; a negative distance stays. -/
def ancestor (h : Heap) (s : ScopeId) (distance : Int) : Except Unbound ScopeId :=
  match (h.chain s)[distance.toNat]? with
  | some t => .ok t
  | none => .error (.noScope distance)

/-- The value of a binding of `x`. -/
def read (x : String) : Option Value → Except Fault.Cause Value
  | some v => .ok v
  | none => .error (.uninitializedVariable x)

/-- The value of the nearest binding outward. -/
def get (h : Heap) (s : ScopeId) (x : String) : Except Fault.Cause Value :=
  match h.lookup s x with
  | some b => read x b
  | none => .error (.undefinedVariable x)

/-- The scope at a distance, provided that it binds the name. -/
def binderAt (h : Heap) (s : ScopeId) (distance : Int) (x : String) : Except Unbound ScopeId :=
  match h.ancestor s distance with
  | .error e => .error e
  | .ok t => if (h.binding? t x).isSome then .ok t else .error (.notBound x distance)

/-- The value of the binding at a distance. -/
def getAt (h : Heap) (s : ScopeId) (distance : Int) (x : String) : Except AccessError Value :=
  match h.ancestor s distance with
  | .error e => .error (.unbound e)
  | .ok t =>
    match h.binding? t x with
    | none => .error (.unbound (.notBound x distance))
    | some b => (read x b).mapError .fault

/-- Gives the nearest binding outward a value. -/
def assign (h : Heap) (s : ScopeId) (x : String) (v : Value) : Except Fault.Cause Heap :=
  match h.binder? s x with
  | some t => .ok (h.define t x (some v))
  | none => .error (.undefinedVariable x)

/-- Gives the binding at a distance a value. -/
def assignAt (h : Heap) (s : ScopeId) (distance : Int) (x : String) (v : Value) :
    Except Unbound Heap :=
  match h.binderAt s distance x with
  | .ok t => .ok (h.define t x (some v))
  | .error e => .error e

/-- A scope as it is listed: how many scopes are around it, and its names in order. -/
def inspectScope (h : Heap) (s : ScopeId) : String :=
  let names := ((h.scope? s).map fun scope => scope.bindings.names).getD []
  let sorted := names.mergeSort fun a b => !decide (b < a)
  "Environment(depth=" ++ ((h.chain s).length - 1).repr ++ ", names=["
    ++ ", ".intercalate (sorted.map Text.quoted) ++ "])"

/-! Routines, classes and instances. -/

def newFunction (h : Heap) (k : Closure) : FunctionId × Heap :=
  (⟨h.functions.size⟩, { h with functions := h.functions.push k })

/-- A class and the classes above it, nearest first. -/
def lineage (h : Heap) (c : ClassId) : List ClassId :=
  c :: ((h.class? c).map Class.ancestors).getD []

/-- A new class below `superclass`. -/
def newClass (h : Heap) (name : String) (superclass : Option ClassId) (methods : Table Closure) :
    ClassId × Heap :=
  let ancestors := (superclass.map h.lineage).getD []
  (⟨h.classes.size⟩, { h with classes := h.classes.push ⟨name, ancestors, methods⟩ })

def newInstance (h : Heap) (c : ClassId) : InstanceId × Heap :=
  (⟨h.instances.size⟩, { h with instances := h.instances.push ⟨c, Table.empty⟩ })

def newNative (h : Heap) (n : Native) : NativeId × Heap :=
  (⟨h.natives.size⟩, { h with natives := h.natives.push n })

/-- A method of a class or, if it has none of that name, of the nearest class above. -/
def findMethod (h : Heap) (c : ClassId) (name : String) : Option Closure :=
  (h.lineage c).findSome? fun d => (h.class? d).bind fun k => k.methods.find? name

/-- A method with its receiver: in a new scope that holds `this`. -/
def bindReceiver (h : Heap) (method : Closure) (i : InstanceId) : Closure × Heap :=
  let (s, h) := h.newScope (some method.scope)
  ({ method with scope := s }, h.define s "this" (some (.object i)))

def setField (h : Heap) (i : InstanceId) (name : String) (v : Value) : Heap :=
  { h with instances := h.instances.modify i.index fun o =>
      { o with fields := o.fields.put name v } }

/-- How many arguments a call takes. A class takes those of its initializer. -/
def arity? (h : Heap) : Callable → Option Nat
  | .native n => (h.native? n).map Native.arity
  | .function f => (h.function? f).map fun k => k.declaration.params.length
  | .ofClass c =>
    (h.class? c).map fun _ =>
      ((h.findMethod c "init").map fun k => k.declaration.params.length).getD 0

/-- The text a program prints for a value. -/
def display (h : Heap) : Value → String
  | .nil => "nil"
  | .bool true => "true"
  | .bool false => "false"
  | .number x => displayNumber x
  | .text s => s
  | .callable (.native _) => "<native fn>"
  | .callable (.function f) =>
    "<fn " ++ ((h.function? f).map fun k => k.declaration.name.text).getD "" ++ ">"
  | .callable (.ofClass c) => ((h.class? c).map Class.name).getD ""
  | .object i =>
    (((h.instance? i).bind fun o => h.class? o.ofClass).map Class.name).getD "" ++ " instance"

end Heap
end LoxLang
