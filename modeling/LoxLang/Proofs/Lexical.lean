import LoxLang.Execution
/-! Scoping at the time of declaration. Trees run without addresses here: a closure keeps the
local names visible where it is declared, each with the place of its value, and any other name
is looked up among the global variables at each use. -/
namespace LoxLang
namespace Lexical

/-- A place that holds the value of a local variable. -/
structure Location where
  index : Nat
deriving DecidableEq

/-- The local names visible at a point, innermost scope first, and where their values are. -/
abbrev Environment : Type := List (Table Location)

/-- The place of the nearest variable of a name. -/
def Environment.place? (ρ : Environment) (x : String) : Option Location :=
  ρ.findSome? fun f => f.find? x

/-- A routine with the names visible where it was declared. -/
structure Closure where
  declaration : Routine Unit
  visible : Environment
  isInitializer : Bool

structure Class where
  name : String
  ancestors : List ClassId
  methods : Table Closure

structure Store where
  cells : Array (Option Value)
  globals : Table (Option Value)
  functions : Array Closure
  classes : Array Class
  instances : Array Instance
  natives : Array Native
  world : World

namespace Store

def cell? (σ : Store) (l : Location) : Option (Option Value) := σ.cells[l.index]?

def function? (σ : Store) (f : FunctionId) : Option Closure := σ.functions[f.index]?

def class? (σ : Store) (c : ClassId) : Option Class := σ.classes[c.index]?

def instance? (σ : Store) (i : InstanceId) : Option Instance := σ.instances[i.index]?

def native? (σ : Store) (n : NativeId) : Option Native := σ.natives[n.index]?

/-- A new place. -/
def allocate (σ : Store) (v : Option Value) : Location × Store :=
  (⟨σ.cells.size⟩, { σ with cells := σ.cells.push v })

def write (σ : Store) (l : Location) (v : Option Value) : Store :=
  { σ with cells := σ.cells.modify l.index fun _ => v }

/-- What a name stands for: what is at its place, or else the global variable of that name. -/
def binding? (σ : Store) (ρ : Environment) (x : String) : Option (Option Value) :=
  match ρ.place? x with
  | some l => σ.cell? l
  | none => σ.globals.find? x

/-- Declares a name: in the innermost scope, where a name that is there keeps its place, or
globally. -/
def declare (σ : Store) (ρ : Environment) (x : String) (v : Option Value) : Environment × Store :=
  match ρ with
  | [] => ([], { σ with globals := σ.globals.put x v })
  | f :: outer =>
    match f.find? x with
    | some l => (f :: outer, σ.write l v)
    | none =>
      let (l, σ) := σ.allocate v
      (f.put x l :: outer, σ)

/-- Gives the variable that a name stands for a value, if there is one. -/
def assign? (σ : Store) (ρ : Environment) (x : String) (v : Value) : Option Store :=
  match ρ.place? x with
  | some l => some (σ.write l (some v))
  | none =>
    if σ.globals.contains x then some { σ with globals := σ.globals.put x (some v) } else none

def newFunction (σ : Store) (k : Closure) : FunctionId × Store :=
  (⟨σ.functions.size⟩, { σ with functions := σ.functions.push k })

def lineage (σ : Store) (c : ClassId) : List ClassId :=
  c :: ((σ.class? c).map Class.ancestors).getD []

def newClass (σ : Store) (name : String) (superclass : Option ClassId) (methods : Table Closure) :
    ClassId × Store :=
  let ancestors := (superclass.map σ.lineage).getD []
  (⟨σ.classes.size⟩, { σ with classes := σ.classes.push ⟨name, ancestors, methods⟩ })

def newInstance (σ : Store) (c : ClassId) : InstanceId × Store :=
  (⟨σ.instances.size⟩, { σ with instances := σ.instances.push ⟨c, Table.empty⟩ })

def findMethod (σ : Store) (c : ClassId) (name : String) : Option Closure :=
  (σ.lineage c).findSome? fun d => (σ.class? d).bind fun k => k.methods.find? name

/-- A method with its receiver: it sees `this`. -/
def bindReceiver (σ : Store) (method : Closure) (i : InstanceId) : Closure × Store :=
  let (l, σ) := σ.allocate (some (.object i))
  ({ method with visible := Table.empty.put "this" l :: method.visible }, σ)

def setField (σ : Store) (i : InstanceId) (name : String) (v : Value) : Store :=
  { σ with instances := σ.instances.modify i.index fun o =>
      { o with fields := o.fields.put name v } }

def arity? (σ : Store) : Callable → Option Nat
  | .native n => (σ.native? n).map Native.arity
  | .function f => (σ.function? f).map fun k => k.declaration.params.length
  | .ofClass c =>
    (σ.class? c).map fun _ =>
      ((σ.findMethod c "init").map fun k => k.declaration.params.length).getD 0

def display (σ : Store) : Value → String
  | .nil => "nil"
  | .bool true => "true"
  | .bool false => "false"
  | .number x => displayNumber x
  | .text s => s
  | .callable (.native _) => "<native fn>"
  | .callable (.function f) =>
    "<fn " ++ ((σ.function? f).map fun k => k.declaration.name.text).getD "" ++ ">"
  | .callable (.ofClass c) => ((σ.class? c).map Class.name).getD ""
  | .object i =>
    (((σ.instance? i).bind fun o => σ.class? o.ofClass).map Class.name).getD "" ++ " instance"

def bindParameters (σ : Store) (ρ : Environment) : List (Name × Value) → Environment × Store
  | [] => (ρ, σ)
  | (p, v) :: rest =>
    let (ρ, σ) := σ.declare ρ p.text (some v)
    bindParameters σ ρ rest

end Store

/-- A computation on the store. -/
abbrev Run (α : Type) : Type := EStateM Exit Store α

/-- A call of something whose number of arguments has been checked. -/
abbrev Caller : Type := Callable → List Value → Run Value

section
variable {α : Type}

def store : Run Store := fun σ => .ok σ σ

def print (line : String) : Run Unit := fun σ => .ok () { σ with world := σ.world.print line }

def time : Run Float := fun σ => .ok σ.world.time.1 { σ with world := σ.world.time.2 }

def fault (cause : Fault.Cause) (token : Option Token) : Run α := throw (.fault ⟨cause, token⟩)

def change (f : Store → α × Store) : Run α := fun σ => .ok (f σ).1 (f σ).2

def update (f : Store → Store) : Run Unit := fun σ => .ok () (f σ)

def follow : Option α → Run α
  | some a => pure a
  | none => throw .illFormed

def repeatWhile (round : Run Bool) : Nat → Run Unit
  | 0 => throw .endless
  | n + 1 => do
    if ← round then repeatWhile round n

end

def lift (token : Token) : Except Fault.Cause Value → Run Value
  | .ok v => pure v
  | .error cause => fault cause (some token)

def lookUp (ρ : Environment) (token : Token) : Run Value := do
  match (← store).binding? ρ token.lexeme with
  | some b => lift token (Heap.read token.lexeme b)
  | none => fault (.undefinedVariable token.lexeme) (some token)

def assign (ρ : Environment) (name : Name) (v : Value) : Run Unit := do
  match (← store).assign? ρ name.text v with
  | some σ => update fun _ => σ
  | none => fault (.undefinedVariable name.text) (some name.token)

/-- A new function: the method with its receiver bound. -/
def bound (method : Closure) (i : InstanceId) : Run Value := do
  let k ← change (·.bindReceiver method i)
  let f ← change (·.newFunction k)
  pure (.callable (.function f))

def property (i : InstanceId) (name : Name) : Run Value := do
  let σ ← store
  let o ← follow (σ.instance? i)
  match o.fields.find? name.text with
  | some v => pure v
  | none =>
    match σ.findMethod o.ofClass name.text with
    | some method => bound method i
    | none => fault (.undefinedProperty name.text) (some name.token)

def inheritedMethod (ρ : Environment) (pos : Pos) (method : Name) : Run Value := do
  let parent ← lookUp ρ (inheritedToken pos)
  let receiver ← lookUp ρ (receiverToken pos)
  match parent, receiver with
  | .callable (.ofClass c), .object i =>
    match (← store).findMethod c method.text with
    | some found => bound found i
    | none => fault (.undefinedProperty method.text) (some method.token)
  | _, _ => throw .illFormed

def callValue (call : Caller) (close : Pos) (callee : Value) (arguments : List Value) :
    Run Value := do
  let paren : Token := ⟨.rightParen, ")", close⟩
  match callee with
  | .callable c =>
    let expected ← follow ((← store).arity? c)
    if arguments.length = expected then call c arguments
    else fault (.arity expected arguments.length) (some paren)
  | _ => fault .notCallable (some paren)

def shortCircuit (op : LogicalOp) (left : Value) (right : Run Value) : Run Value :=
  match op with
  | .or => if left.isTruthy then pure left else right
  | .and => if left.isTruthy then right else pure left

mutual

/-- The value of an expression at a point where the names of `ρ` are visible. -/
def evaluate (call : Caller) (ρ : Environment) : Expr Unit → Run Value
  | .literal _ value => pure value.toValue
  | .grouping _ inner => evaluate call ρ inner
  | .var name _ => lookUp ρ name.token
  | .assign name value _ => do
    let v ← evaluate call ρ value
    assign ρ name v
    pure v
  | .unary op pos operand => do
    let v ← evaluate call ρ operand
    lift (op.token pos) (op.apply v)
  | .binary left op pos right => do
    let a ← evaluate call ρ left
    let b ← evaluate call ρ right
    lift (op.token pos) (op.apply a b)
  | .logical left op _ right => do
    let a ← evaluate call ρ left
    shortCircuit op a (evaluate call ρ right)
  | .conditional condition thenBranch elseBranch => do
    let c ← evaluate call ρ condition
    if c.isTruthy then evaluate call ρ thenBranch else evaluate call ρ elseBranch
  | .call callee close arguments => do
    let f ← evaluate call ρ callee
    let args ← evaluateAll call ρ arguments
    callValue call close f args
  | .member object name => do
    match ← evaluate call ρ object with
    | .object i => property i name
    | _ => fault .noProperties (some name.token)
  | .assignMember object name value => do
    match ← evaluate call ρ object with
    | .object i =>
      let v ← evaluate call ρ value
      update (·.setField i name.text v)
      pure v
    | _ => fault .noFields (some name.token)
  | .receiver pos _ => lookUp ρ (receiverToken pos)
  | .inherited pos method _ => inheritedMethod ρ pos method

def evaluateAll (call : Caller) (ρ : Environment) : List (Expr Unit) → Run (List Value)
  | [] => pure []
  | e :: rest => do
    let v ← evaluate call ρ e
    let vs ← evaluateAll call ρ rest
    pure (v :: vs)

end

def superclass (ρ : Environment) (parent : Superclass Unit) : Run ClassId := do
  match ← lookUp ρ parent.name.token with
  | .callable (.ofClass c) => pure c
  | _ => fault .superclassNotClass (some parent.name.token)

def methodTable (ρ : Environment) (methods : List (Routine Unit)) : Table Closure :=
  methods.foldl (fun t r => t.put r.name.text ⟨r, ρ, r.name.text = "init"⟩) Table.empty

/-- Declares a function, which sees its own name. -/
def declareFunction (ρ : Environment) (r : Routine Unit) : Run Environment := do
  let ρ ← change (·.declare ρ r.name.text none)
  let f ← change (·.newFunction ⟨r, ρ, false⟩)
  assign ρ r.name (.callable (.function f))
  pure ρ

/-- What the methods of a class see besides what is visible where it is declared. -/
def aboveMethods (ρ : Environment) : Option ClassId → Run Environment
  | none => pure ρ
  | some c => do
    let l ← change (·.allocate (some (.callable (.ofClass c))))
    pure (Table.empty.put "super" l :: ρ)

/-- Makes a class whose methods see its name. -/
def bindClass (ρ : Environment) (name : Name) (above : Option ClassId)
    (methods : List (Routine Unit)) : Run Environment := do
  let ρ ← change (·.declare ρ name.text none)
  let inner ← aboveMethods ρ above
  let k ← change (·.newClass name.text above (methodTable inner methods))
  assign ρ name (.callable (.ofClass k))
  pure ρ

/-- Declares a class. The class it inherits from is looked up before its name is visible. -/
def declareClass (ρ : Environment) (name : Name) (parent : Option (Superclass Unit))
    (methods : List (Routine Unit)) : Run Environment :=
  match parent with
  | none => bindClass ρ name none methods
  | some p => do
    let c ← superclass ρ p
    bindClass ρ name (some c) methods

mutual

/-- Executes a statement and yields the names visible behind it. -/
def execute (rounds : Nat) (call : Caller) (ρ : Environment) : Stmt Unit → Run Environment
  | .expression value => do
    let _ ← evaluate call ρ value
    pure ρ
  | .print _ value => do
    let v ← evaluate call ρ value
    print ((← store).display v)
    pure ρ
  | .var name none => change (·.declare ρ name.text none)
  | .var name (some value) => do
    let v ← evaluate call ρ value
    change (·.declare ρ name.text (some v))
  | .block _ body => do
    executeAll rounds call (Table.empty :: ρ) body
    pure ρ
  | .ifThen _ condition thenBranch => do
    let c ← evaluate call ρ condition
    if c.isTruthy then
      let _ ← execute rounds call ρ thenBranch
      pure ρ
    else pure ρ
  | .ifElse _ condition thenBranch elseBranch => do
    let c ← evaluate call ρ condition
    if c.isTruthy then
      let _ ← execute rounds call ρ thenBranch
      pure ρ
    else
      let _ ← execute rounds call ρ elseBranch
      pure ρ
  | .loop _ condition body => do
    repeatWhile (do
      let c ← evaluate call ρ condition
      if c.isTruthy then
        let _ ← execute rounds call ρ body
        pure true
      else pure false) rounds
    pure ρ
  | .function declaration => declareFunction ρ declaration
  | .classDecl name parent methods => declareClass ρ name parent methods
  | .ret _ none => throw (.returned .nil)
  | .ret _ (some value) => do
    let v ← evaluate call ρ value
    throw (.returned v)

def executeAll (rounds : Nat) (call : Caller) (ρ : Environment) : List (Stmt Unit) → Run Unit
  | [] => pure ()
  | s :: rest => do
    let ρ ← execute rounds call ρ s
    executeAll rounds call ρ rest

end

/-- An initializer yields its receiver. -/
def yielded (k : Closure) (v : Value) : Run Value := do
  if k.isInitializer then
    match (← store).binding? k.visible "this" with
    | some (some receiver) => pure receiver
    | _ => throw .illFormed
  else pure v

def bodyValue (body : Run Unit) : Run Value := fun σ =>
  match body σ with
  | .ok _ σ' => .ok .nil σ'
  | .error (.returned v) σ' => .ok v σ'
  | .error e σ' => .error e σ'

/-- Runs a routine with its parameters in a scope of its own. -/
def activate (rounds : Nat) (call : Caller) (k : Closure) (arguments : List Value) :
    Run Value := do
  let ρ ← change fun σ =>
    σ.bindParameters (Table.empty :: k.visible) (k.declaration.params.zip arguments)
  let v ← bodyValue (executeAll rounds call ρ k.declaration.body)
  yielded k v

/-- A new instance, on which the initializer of its class has run, if the class has one. -/
def instantiate (rounds : Nat) (call : Caller) (c : ClassId) (arguments : List Value) :
    Run Value := do
  let i ← change (·.newInstance c)
  match (← store).findMethod c "init" with
  | none => pure (.object i)
  | some initializer =>
    let k ← change (·.bindReceiver initializer i)
    let _ ← activate rounds call k arguments
    pure (.object i)

def host (call : Caller) : Host → Run Value
  | .done v => pure v
  | .raise message => fault (.raised message) none
  | .call callee arguments next => do
    let v ← call callee arguments
    host call (next v)
  | .arity callee next => do
    let n ← follow ((← store).arity? callee)
    host call (next n)
  | .display v next => do
    let s := (← store).display v
    host call (next s)
  | .time next => do
    let now ← time
    host call (next now)

/-- Calls with at most `depth` calls nested in each other. -/
def invoke (rounds : Nat) : Nat → Caller
  | 0 => fun _ _ => throw .overflow
  | depth + 1 => fun callee arguments =>
    let call := invoke rounds depth
    match callee with
    | .function f => do
      let k ← follow ((← store).function? f)
      activate rounds call k arguments
    | .ofClass c => instantiate rounds call c arguments
    | .native n => do
      let routine ← follow ((← store).native? n)
      host call (routine.body arguments)

/-- The value of a statement at the top, if it is an expression. -/
def topStatement (limits : Limits) : Stmt Unit → Run (Option Value)
  | .expression value => some <$> evaluate (invoke limits.rounds limits.depth) [] value
  | s => do
    let _ ← execute limits.rounds (invoke limits.rounds limits.depth) [] s
    pure none

def topLevel (limits : Limits) : Option Value → List (Stmt Unit) → Run (Option Value)
  | last, [] => pure last
  | _, s :: rest => do
    let last ← topStatement limits s
    topLevel limits last rest

def program (limits : Limits) (statements : List (Stmt Unit)) : Run (Option Value) :=
  topLevel limits none statements

end Lexical
end LoxLang
