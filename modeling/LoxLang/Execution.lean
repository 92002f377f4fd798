import LoxLang.Evaluation
/-! The effects of statements, and calls. Calls nest to a given depth; within one call the
work follows the tree. -/
namespace LoxLang
namespace Run

/-- The class a declaration inherits from, found by its name. -/
def superclass (parent : Superclass Address) : Run ClassId := do
  match ← lookUp parent.name.token parent.address with
  | .callable (.ofClass c) => pure c
  | _ => fault .superclassNotClass (some parent.name.token)

def methodTable (s : ScopeId) (methods : List (Routine Address)) : Table Closure :=
  methods.foldl (fun t r => t.put r.name.text ⟨r, s, r.name.text = "init"⟩) Table.empty

/-- Declares a class. Its name is bound before its methods take their scope, and their scope
holds `super` if the class inherits. -/
def declareClass (name : Name) (parent : Option (Superclass Address))
    (methods : List (Routine Address)) : Run Unit := do
  let above ← match parent with
    | none => pure none
    | some p => some <$> superclass p
  define name.text none
  let around ← active
  let scope ← match above with
    | none => pure around
    | some c => do
      let s ← change (·.newScope (some around))
      update (·.define s "super" (some (.callable (.ofClass c))))
      pure s
  let k ← change (·.newClass name.text above (methodTable scope methods))
  assignFrom around name (.callable (.ofClass k))

mutual

def execute (rounds : Nat) (call : Caller) : Stmt Address → Run Unit
  | .expression value => do
    let _ ← evaluate call value
    pure ()
  | .print _ value => do
    let v ← evaluate call value
    print ((← heap).display v)
  | .var name none => define name.text none
  | .var name (some value) => do
    let v ← evaluate call value
    define name.text (some v)
  | .block _ body => do
    let s ← change (·.newScope (some (← active)))
    within s (executeAll rounds call body)
  | .ifThen _ condition thenBranch => do
    let c ← evaluate call condition
    if c.isTruthy then execute rounds call thenBranch
  | .ifElse _ condition thenBranch elseBranch => do
    let c ← evaluate call condition
    if c.isTruthy then execute rounds call thenBranch else execute rounds call elseBranch
  | .loop _ condition body =>
    repeatWhile (do
      let c ← evaluate call condition
      if c.isTruthy then
        execute rounds call body
        pure true
      else pure false) rounds
  | .function declaration => do
    let f ← change (·.newFunction ⟨declaration, (← active), false⟩)
    define declaration.name.text (some (.callable (.function f)))
  | .classDecl name parent methods => declareClass name parent methods
  | .ret _ none => throw (.returned .nil)
  | .ret _ (some value) => do
    let v ← evaluate call value
    throw (.returned v)

def executeAll (rounds : Nat) (call : Caller) : List (Stmt Address) → Run Unit
  | [] => pure ()
  | s :: rest => do
    execute rounds call s
    executeAll rounds call rest

end

/-- Binds parameters to arguments, position by position; of a repeated name the last wins. -/
def bindParameters (s : ScopeId) (params : List Name) (arguments : List Value) (h : Heap) : Heap :=
  (params.zip arguments).foldl (fun h (p, v) => h.define s p.text (some v)) h

/-- What a call yields whose body ended with `v`. An initializer yields its receiver. -/
def yielded (k : Closure) (v : Value) : Run Value := do
  if k.isInitializer then
    match (← heap).getAt k.scope 0 "this" with
    | .ok receiver => pure receiver
    | .error _ => throw .illFormed
  else pure v

/-- The value a body ends with: that of its `return`, or `nil`. -/
def bodyValue (body : Run Unit) : Run Value := fun m =>
  match body m with
  | .ok _ m' => .ok .nil m'
  | .error (.returned v) m' => .ok v m'
  | .error e m' => .error e m'

/-- Runs a routine: its parameters are bound in a new scope, in which its body runs. -/
def activate (rounds : Nat) (call : Caller) (k : Closure) (arguments : List Value) :
    Run Value := do
  let s ← change (·.newScope (some k.scope))
  update (bindParameters s k.declaration.params arguments)
  let v ← bodyValue (within s (executeAll rounds call k.declaration.body))
  yielded k v

/-- A new instance of a class, on which the initializer of the class has run. -/
def instantiate (rounds : Nat) (call : Caller) (c : ClassId) (arguments : List Value) :
    Run Value := do
  let i ← change (·.newInstance c)
  match (← heap).findMethod c "init" with
  | none => pure ()
  | some initializer =>
    let k ← change (·.bindReceiver initializer i)
    let _ ← activate rounds call k arguments
  pure (.object i)

/-- Runs a program of the host. -/
def host (call : Caller) : Host → Run Value
  | .done v => pure v
  | .raise message => fault (.raised message) none
  | .call callee arguments next => do
    let v ← call callee arguments
    host call (next v)
  | .arity callee next => do
    let n ← follow ((← heap).arity? callee)
    host call (next n)
  | .display v next => do
    let s := (← heap).display v
    host call (next s)
  | .time next => do
    let now ← time
    host call (next now)

/-- Calls with at most `depth` calls nested in each other. -/
def invoke (rounds : Nat) : Nat → Caller
  | 0 => fun _ _ => throw .overflow
  | depth + 1 => fun callee arguments =>
    let call := invoke rounds depth
    match callee with
    | .function f => do
      let k ← follow ((← heap).function? f)
      activate rounds call k arguments
    | .ofClass c => instantiate rounds call c arguments
    | .native n => do
      let routine ← follow ((← heap).native? n)
      host call (routine.body arguments)

/-- Runs statements from top to bottom. The value is that of the last one if it is an
expression; `last` is that of the one before. -/
def topLevel (limits : Limits) : Option Value → List (Stmt Address) → Run (Option Value)
  | last, [] => pure last
  | _, s :: rest => do
    let last ← match s with
      | .expression value => some <$> evaluate (invoke limits.rounds limits.depth) value
      | s => do
        execute limits.rounds (invoke limits.rounds limits.depth) s
        pure none
    topLevel limits last rest

/-- The value of a statement at the top, if it is an expression. -/
def topStatement (limits : Limits) : Stmt Address → Run (Option Value)
  | .expression value => some <$> evaluate (invoke limits.rounds limits.depth) value
  | s => do
    execute limits.rounds (invoke limits.rounds limits.depth) s
    pure none

theorem topLevel_cons (limits : Limits) (last : Option Value) (s : Stmt Address)
    (rest : List (Stmt Address)) : topLevel limits last (s :: rest) =
      topStatement limits s >>= fun last => topLevel limits last rest := by
  cases s <;> simp [topLevel, topStatement]

def program (limits : Limits) (statements : List (Stmt Address)) : Run (Option Value) :=
  topLevel limits none statements

end Run
end LoxLang
