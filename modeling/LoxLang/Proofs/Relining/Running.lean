import LoxLang.Proofs.Recording
import LoxLang.Proofs.Related
import LoxLang.Proofs.Relining
/-! Runs of a program on other lines. Nothing that a machine does depends on a line, so a run
on other lines, and after other prints, comes to the same on these lines and after these prints.
Routines of the host hold no lines. -/
namespace LoxLang

section
variable {α β : Type}

def Table.map (g : α → β) (t : Table α) : Table β := ⟨t.entries.map fun (x, a) => (x, g a)⟩

theorem Table.map_id_of_eq {g : α → α} (same : ∀ a, g a = a) (t : Table α) : t.map g = t := by
  simp [map, same]

theorem Table.map_map_of_eq {g h k : α → α} (same : ∀ a, h (g a) = k a) (t : Table α) :
    (t.map g).map h = t.map k := by
  simp [map, same]

theorem Table.find?_map (g : α → β) (t : Table α) (x : String) :
    (t.map g).find? x = (t.find? x).map g := by
  obtain ⟨entries⟩ := t
  simp only [find?, map]
  induction entries with
  | nil => rfl
  | cons e es ih =>
      obtain ⟨y, a⟩ := e
      simp only [List.map_cons, List.lookup_cons, ih]
      split <;> rfl

theorem Table.put_map (g : α → β) (t : Table α) (x : String) (a : α) :
    (t.map g).put x (g a) = (t.put x a).map g := by
  obtain ⟨entries⟩ := t
  suffices same : putEntry x (g a) (entries.map fun (x, a) => (x, g a)) =
      (putEntry x a entries).map fun (x, a) => (x, g a) from congrArg Table.mk same
  induction entries with
  | nil => rfl
  | cons e es ih =>
      obtain ⟨y, b⟩ := e
      by_cases same : y = x
      · simp [putEntry, same]
      · simpa [putEntry, same] using ih

end

def Closure.reline (f : Nat → Nat) (k : Closure) : Closure :=
  { k with declaration := k.declaration.reline f }

def Class.reline (f : Nat → Nat) (k : Class) : Class :=
  { k with methods := k.methods.map (Closure.reline f) }

namespace Heap

/-- The heap with its code on other lines. -/
def reline (f : Nat → Nat) (h : Heap) : Heap :=
  { h with
    functions := h.functions.map (Closure.reline f)
    classes := h.classes.map (Class.reline f) }

variable {f : Nat → Nat} (h : Heap)

@[simp] theorem get_reline (s : ScopeId) (x : String) : (h.reline f).get s x = h.get s x := rfl

@[simp] theorem getAt_reline (s : ScopeId) (d : Int) (x : String) :
    (h.reline f).getAt s d x = h.getAt s d x := rfl

@[simp] theorem binder?_reline (s : ScopeId) (x : String) :
    (h.reline f).binder? s x = h.binder? s x := rfl

@[simp] theorem binderAt_reline (s : ScopeId) (d : Int) (x : String) :
    (h.reline f).binderAt s d x = h.binderAt s d x := rfl

@[simp] theorem instance?_reline (i : InstanceId) : (h.reline f).instance? i = h.instance? i := rfl

@[simp] theorem native?_reline (n : NativeId) : (h.reline f).native? n = h.native? n := rfl

theorem function?_reline (i : FunctionId) :
    (h.reline f).function? i = (h.function? i).map (Closure.reline f) := Array.getElem?_map

theorem class?_reline (c : ClassId) :
    (h.reline f).class? c = (h.class? c).map (Class.reline f) := Array.getElem?_map

@[simp] theorem lineage_reline (c : ClassId) : (h.reline f).lineage c = h.lineage c := by
  simp only [lineage, class?_reline, Option.map_map]
  rfl

theorem findMethod_reline (c : ClassId) (name : String) :
    (h.reline f).findMethod c name = (h.findMethod c name).map (Closure.reline f) := by
  rw [findMethod, findMethod, lineage_reline, List.map_findSome?]
  congr 1
  funext d
  rw [class?_reline, Function.comp_apply]
  cases h.class? d with
  | none => rfl
  | some k => exact Table.find?_map _ _ _

theorem className_reline (c : ClassId) :
    ((h.reline f).class? c).map Class.name = (h.class? c).map Class.name := by
  rw [class?_reline, Option.map_map]
  rfl

@[simp] theorem arity?_reline (c : Callable) : (h.reline f).arity? c = h.arity? c := by
  refine arity?_congr (fun i => ?_) h.className_reline (fun c => ?_) rfl c
  · simp [function?_reline, Closure.reline, Function.comp_def]
  · simp [findMethod_reline, Closure.reline, Function.comp_def]

@[simp] theorem display_reline (v : Value) : (h.reline f).display v = h.display v := by
  refine display_congr (fun i => ?_) h.className_reline rfl v
  simp [function?_reline, Closure.reline, Function.comp_def]

theorem newFunction_reline (k : Closure) : (h.reline f).newFunction (k.reline f) =
    ((h.newFunction k).1, (h.newFunction k).2.reline f) := by
  simp [newFunction, reline]

theorem newClass_reline (name : String) (above : Option ClassId) (methods : Table Closure) :
    (h.reline f).newClass name above (methods.map (Closure.reline f)) =
      ((h.newClass name above methods).1, (h.newClass name above methods).2.reline f) := by
  have same : ((above.map (h.reline f).lineage).getD []) = (above.map h.lineage).getD [] := by
    cases above <;> simp
  simp only [newClass, same]
  simp [reline, Class.reline]

end Heap

/-- The world after other prints. -/
def World.after (before : Array String) (w : World) : World :=
  { w with printed := before ++ w.printed }

@[simp] theorem World.after_after (before before' : Array String) (w : World) :
    (w.after before).after before' = w.after (before' ++ before) := by
  simp only [after, Array.append_assoc]

@[simp] theorem World.after_nothing (w : World) : w.after #[] = w := by simp [after]

/-- Lines that were taken out are put in again. -/
@[simp] theorem World.after_flush (w : World) : w.flush.after w.printed = w := by
  simp [after, flush]

@[simp] theorem World.printed_after (before : Array String) (w : World) :
    (w.after before).printed = before ++ w.printed := rfl

/-- The machine with its code on other lines, and after other prints. -/
def Machine.reline (f : Nat → Nat) (before : Array String) (m : Machine) : Machine :=
  ⟨m.heap.reline f, m.active, m.world.after before⟩

/-! Code that stays, and code moved twice. -/

theorem Closure.reline_id (k : Closure) : k.reline id = k := by
  rw [reline, Routine.reline_id]

theorem Closure.reline_reline {f g : Nat → Nat} (k : Closure) :
    (k.reline f).reline g = k.reline (g ∘ f) := by
  simp only [reline, Routine.reline_reline]

theorem Class.reline_id (k : Class) : k.reline id = k := by
  rw [reline, Table.map_id_of_eq Closure.reline_id]

theorem Class.reline_reline {f g : Nat → Nat} (k : Class) :
    (k.reline f).reline g = k.reline (g ∘ f) := by
  simp only [reline, Table.map_map_of_eq Closure.reline_reline]

theorem Heap.reline_id (h : Heap) : h.reline id = h := by
  simp [reline, funext Closure.reline_id, funext Class.reline_id]

theorem Heap.reline_reline {f g : Nat → Nat} (h : Heap) :
    (h.reline f).reline g = h.reline (g ∘ f) := by
  simp [reline, Closure.reline_reline, Class.reline_reline, Function.comp_def]

theorem Machine.reline_reline {f g : Nat → Nat} {before before' : Array String} (m : Machine) :
    (m.reline f before).reline g before' = m.reline (g ∘ f) (before' ++ before) := by
  simp [reline, Heap.reline_reline]

def Fault.reline (f : Nat → Nat) (x : Fault) : Fault :=
  { x with token := x.token.map (Token.reline f) }

def Exit.reline (f : Nat → Nat) : Exit → Exit
  | .fault x => .fault (x.reline f)
  | e => e

namespace Run
variable {α β : Type} {f : Nat → Nat} {before : Array String}

/-- The result of a run on other lines and after other prints. -/
def moved (f : Nat → Nat) (before : Array String) (g : α → α) :
    EStateM.Result Exit Machine α → EStateM.Result Exit Machine α
  | .ok a m => .ok (g a) (m.reline f before)
  | .error e m => .error (e.reline f) (m.reline f before)

/-- The second run comes to what the first one does, on other lines and after other prints. -/
def Relines (f : Nat → Nat) (before : Array String) (g : α → α) (x x' : Run α) : Prop :=
  ∀ m, x' (m.reline f before) = moved f before g (x m)

namespace Relines
variable {g : α → α} {h : β → β} {x x' : Run α}

theorem pure {a b : α} (same : b = g a) : Relines f before g (Pure.pure a) (Pure.pure b) :=
  fun m => congrArg (EStateM.Result.ok · (m.reline f before)) same

theorem throw {e e' : Exit} (same : e' = e.reline f) :
    Relines f before g (MonadExcept.throw e) (MonadExcept.throw e') :=
  fun m => congrArg (EStateM.Result.error · (m.reline f before)) same

theorem bind {F F' : α → Run β} (first : Relines f before g x x')
    (second : ∀ a, Relines f before h (F a) (F' (g a))) :
    Relines f before h (x >>= F) (x' >>= F') := by
  intro m
  have here := first m
  cases same : x m with
  | ok a m' =>
      rw [same] at here
      simp only [Bind.bind, EStateM.bind, here, same, moved]
      exact second a m'
  | error e m' =>
      rw [same] at here
      simp only [Bind.bind, EStateM.bind, here, same, moved]

theorem map {k k' : α → β} (first : Relines f before g x x') (same : ∀ a, k' (g a) = h (k a)) :
    Relines f before h (k <$> x) (k' <$> x') := by
  intro m
  have here := first m
  cases ended : x m with
  | ok a m' =>
      rw [ended] at here
      simp only [Functor.map, EStateM.map, here, ended, moved, same]
  | error e m' =>
      rw [ended] at here
      simp only [Functor.map, EStateM.map, here, ended, moved]

theorem ite {p : Prop} [Decidable p] {y y' : Run α} (yes : Relines f before g x x')
    (no : Relines f before g y y') :
    Relines f before g (if p then x else y) (if p then x' else y') := by
  by_cases holds : p
  · simpa only [if_pos holds] using yes
  · simpa only [if_neg holds] using no

theorem heap : Relines f before (Heap.reline f) Run.heap Run.heap := fun _ => rfl

theorem active : Relines f before id Run.active Run.active := fun _ => rfl

theorem print (line : String) : Relines f before id (Run.print line) (Run.print line) := by
  intro m
  simp [Run.print, Machine.reline, moved, World.after, World.print]

theorem time : Relines f before id Run.time Run.time := fun _ => rfl

theorem fault (cause : Fault.Cause) (token : Option Token) :
    Relines f before g (Run.fault cause token) (Run.fault cause (token.map (Token.reline f))) :=
  throw rfl

theorem change {F F' : Heap → α × Heap}
    (same : ∀ h, F' (h.reline f) = (g (F h).1, (F h).2.reline f)) :
    Relines f before g (Run.change F) (Run.change F') := by
  intro m
  simp only [Run.change, Machine.reline, same]
  rfl

theorem update {F F' : Heap → Heap} (same : ∀ h, F' (h.reline f) = (F h).reline f) :
    Relines f before id (Run.update F) (Run.update F') := by
  intro m
  simp only [Run.update, Machine.reline, same]
  rfl

theorem follow (o : Option α) : Relines f before g (Run.follow o) (Run.follow (o.map g)) := by
  cases o with
  | none => exact throw rfl
  | some a => exact pure rfl

theorem within (s : ScopeId) (inner : Relines f before g x x') :
    Relines f before g (Run.within s x) (Run.within s x') := by
  intro m
  have here := inner ⟨m.heap, s, m.world⟩
  simp only [Machine.reline] at here
  simp only [Run.within, Machine.reline, here]
  cases x ⟨m.heap, s, m.world⟩ <;> rfl

theorem repeatWhile {round round' : Run Bool} (inner : Relines f before id round round') (n : Nat) :
    Relines f before id (Run.repeatWhile round n) (Run.repeatWhile round' n) := by
  induction n with
  | zero => exact throw rfl
  | succ n ih => exact inner.bind fun _ => .ite ih (pure rfl)

theorem define (name : String) (v : Option Value) :
    Relines f before id (Run.define name v) (Run.define name v) :=
  active.bind fun _ => update fun _ => rfl

theorem lift (token : Token) (r : Except Fault.Cause Value) :
    Relines f before id (Run.lift token r) (Run.lift (token.reline f) r) := by
  cases r with
  | ok v => exact pure rfl
  | error cause => exact fault cause (some token)

theorem lookUp (token : Token) (address : Address) :
    Relines f before id (Run.lookUp token address) (Run.lookUp (token.reline f) address) := by
  refine heap.bind fun h => ?_
  cases address with
  | none => exact lift token _
  | some depth =>
      refine active.bind fun s => ?_
      simp only [Heap.getAt_reline, Token.lexeme_reline, id]
      cases h.getAt s depth token.lexeme with
      | ok v => exact pure rfl
      | error e =>
          cases e with
          | fault cause => exact fault cause (some token)
          | unbound u => exact throw rfl

theorem assignFrom (s : ScopeId) (name : Name) (v : Value) :
    Relines f before id (Run.assignFrom s name v) (Run.assignFrom s (name.reline f) v) := by
  refine heap.bind fun h => ?_
  simp only [Heap.binder?_reline, Name.text_reline]
  cases h.binder? s name.text with
  | some t => exact update fun _ => rfl
  | none => exact fault _ (some name.token)

theorem assignAt (distance : Int) (name : Name) (v : Value) :
    Relines f before id (Run.assignAt distance name v) (Run.assignAt distance (name.reline f) v) := by
  refine active.bind fun s => heap.bind fun h => ?_
  simp only [Heap.binderAt_reline, Name.text_reline, id]
  cases h.binderAt s distance name.text with
  | ok t => exact update fun _ => rfl
  | error u => exact throw rfl

theorem assign (name : Name) (address : Address) (v : Value) :
    Relines f before id (Run.assign name address v) (Run.assign (name.reline f) address v) := by
  cases address with
  | none => exact assignFrom _ name v
  | some depth => exact assignAt depth name v

theorem bound (method : Closure) (i : InstanceId) :
    Relines f before id (Run.bound method i) (Run.bound (method.reline f) i) := by
  refine (change (g := Closure.reline f) fun h => rfl).bind fun k => ?_
  exact (change fun h => h.newFunction_reline k).bind fun _ => pure rfl

theorem property (i : InstanceId) (name : Name) :
    Relines f before id (Run.property i name) (Run.property i (name.reline f)) := by
  refine heap.bind fun h => ?_
  simp only [Heap.instance?_reline, Name.text_reline]
  refine Relines.bind (g := id) (by simpa using follow (g := id) (h.instance? i)) fun o => ?_
  simp only [id, Heap.findMethod_reline]
  cases o.fields.find? name.text with
  | some v => exact pure rfl
  | none =>
      cases h.findMethod o.ofClass name.text with
      | some method => exact bound method i
      | none => exact fault _ (some name.token)

theorem inheritedMethod (pos : Pos) (method : Name) (address : Address) :
    Relines f before id (Run.inheritedMethod pos method address)
      (Run.inheritedMethod (pos.reline f) (method.reline f) address) := by
  refine heap.bind fun h => ?_
  refine Relines.bind (g := id) (by simpa using follow (g := id) address) fun depth => ?_
  refine (lookUp (inheritedToken pos) address).bind fun parent => active.bind fun s => ?_
  simp only [id, Heap.getAt_reline, Heap.findMethod_reline, Name.text_reline]
  split
  · next _ c i _ =>
      cases h.findMethod c method.text with
      | some found => exact bound found i
      | none => exact fault _ (some method.token)
  · exact throw rfl
  · exact throw rfl

theorem callValue {call call' : Caller} (calls : ∀ c args, Relines f before id (call c args) (call' c args))
    (close : Pos) (callee : Value) (arguments : List Value) :
    Relines f before id (Run.callValue call close callee arguments)
      (Run.callValue call' (close.reline f) callee arguments) := by
  cases callee with
  | callable c =>
      refine heap.bind fun h => ?_
      simp only [Heap.arity?_reline]
      refine Relines.bind (g := id) (by simpa using follow (g := id) (h.arity? c)) fun expected => ?_
      exact .ite (calls c arguments) (fault _ (some ⟨.rightParen, ")", close⟩))
  | _ => exact fault _ (some ⟨.rightParen, ")", close⟩)

theorem shortCircuit (op : LogicalOp) (left : Value) {right right' : Run Value}
    (inner : Relines f before id right right') :
    Relines f before id (Run.shortCircuit op left right) (Run.shortCircuit op left right') := by
  cases op with
  | and => exact .ite inner (pure rfl)
  | or => exact .ite (pure rfl) inner

end Relines

/-- Calls come to the same on other lines. -/
def RelinesCalls (f : Nat → Nat) (before : Array String) (call : Caller) : Prop :=
  ∀ callee arguments, Relines f before id (call callee arguments) (call callee arguments)

section
variable {call : Caller}

mutual

theorem evaluate_relines (calls : RelinesCalls f before call) : ∀ e : Expr Address,
    Relines f before id (evaluate call e) (evaluate call (e.reline f))
  | .literal _ _ => .pure rfl
  | .grouping _ inner => evaluate_relines calls inner
  | .var name address => .lookUp name.token address
  | .assign name value address => (evaluate_relines calls value).bind fun v =>
      (Relines.assign name address v).bind fun _ => .pure rfl
  | .unary op pos operand => (evaluate_relines calls operand).bind fun _ =>
      .lift (op.token pos) _
  | .binary left op pos right => (evaluate_relines calls left).bind fun _ =>
      (evaluate_relines calls right).bind fun _ => .lift (op.token pos) _
  | .logical left op _ right => (evaluate_relines calls left).bind fun a =>
      .shortCircuit op a (evaluate_relines calls right)
  | .conditional condition thenBranch elseBranch => (evaluate_relines calls condition).bind fun _ =>
      .ite (evaluate_relines calls thenBranch) (evaluate_relines calls elseBranch)
  | .call callee close arguments => (evaluate_relines calls callee).bind fun c =>
      (evaluateAll_relines calls arguments).bind fun args => .callValue calls close c args
  | .member object name => (evaluate_relines calls object).bind fun v => by
      cases v with
      | object i => exact .property i name
      | _ => exact .fault _ (some name.token)
  | .assignMember object name value => (evaluate_relines calls object).bind fun v => by
      cases v with
      | object i =>
          exact (evaluate_relines calls value).bind fun _ =>
            Relines.bind (Relines.update fun _ => rfl) fun _ => .pure rfl
      | _ => exact .fault _ (some name.token)
  | .receiver pos address => .lookUp (receiverToken pos) address
  | .inherited pos method address => .inheritedMethod pos method address

theorem evaluateAll_relines (calls : RelinesCalls f before call) : ∀ es : List (Expr Address),
    Relines f before id (evaluateAll call es) (evaluateAll call (relineAll f es))
  | [] => .pure rfl
  | e :: rest => (evaluate_relines calls e).bind fun _ =>
      (evaluateAll_relines calls rest).bind fun _ => .pure rfl

end

theorem superclass_relines (parent : Superclass Address) :
    Relines f before id (superclass parent) (superclass (parent.reline f)) := by
  refine (Relines.lookUp parent.name.token parent.address).bind fun v => ?_
  match v with
  | .callable (.ofClass c) => exact .pure rfl
  | .callable (.native _) | .callable (.function _) => exact .fault _ (some parent.name.token)
  | .nil | .bool _ | .number _ | .text _ | .object _ => exact .fault _ (some parent.name.token)

theorem methodTable_reline (s : ScopeId) (methods : List (Routine Address)) :
    methodTable s (relineMethods f methods) = (methodTable s methods).map (Closure.reline f) := by
  suffices same : ∀ t : Table Closure, (relineMethods f methods).foldl (fun t r =>
      t.put r.name.text ⟨r, s, r.name.text = "init"⟩) (t.map (Closure.reline f)) =
        (methods.foldl (fun t r => t.put r.name.text ⟨r, s, r.name.text = "init"⟩) t).map
          (Closure.reline f) from same Table.empty
  induction methods with
  | nil => exact fun _ => rfl
  | cons r rest ih =>
      intro t
      rw [List.foldl_cons, ← ih, ← Table.put_map]
      simp [relineMethods, Closure.reline]

/-- What a class declaration does once it is known which class is above. -/
theorem bindClass_relines (name : Name) (above : Option ClassId) (methods : List (Routine Address)) :
    Relines f before id (Recorded.bindClass name above methods)
      (Recorded.bindClass (name.reline f) above (relineMethods f methods)) := by
  refine Relines.bind (.define name.text none) fun _ => Relines.active.bind fun around => ?_
  have scope : Relines f before id (Recorded.methodScope around above)
      (Recorded.methodScope around above) := by
    cases above with
    | none => exact .pure rfl
    | some c =>
        refine Relines.bind (Relines.change (g := id) fun _ => rfl) fun t => ?_
        exact Relines.bind (Relines.update fun _ => rfl) fun _ => .pure rfl
  refine scope.bind fun scope => Relines.bind (Relines.change (g := id) fun h => ?_) fun k =>
    .assignFrom around name _
  rw [id, methodTable_reline]
  exact h.newClass_reline _ _ _

theorem declareClass_relines (name : Name) (parent : Option (Superclass Address))
    (methods : List (Routine Address)) :
    Relines f before id (declareClass name parent methods)
      (declareClass (name.reline f) (parent.map (Superclass.reline f)) (relineMethods f methods)) := by
  cases parent with
  | none => exact bindClass_relines name none methods
  | some p =>
      rw [Option.map_some, Recorded.declareClass_some, Recorded.declareClass_some]
      exact (superclass_relines p).bind fun c => bindClass_relines name (some c) methods

mutual

theorem execute_relines (rounds : Nat) (calls : RelinesCalls f before call) : ∀ s : Stmt Address,
    Relines f before id (execute rounds call s) (execute rounds call (s.reline f))
  | .expression value => (evaluate_relines calls value).bind fun _ => .pure rfl
  | .print _ value => (evaluate_relines calls value).bind fun v => Relines.heap.bind fun h => by
      rw [Heap.display_reline]
      exact .print _
  | .var name none => .define name.text none
  | .var name (some value) => (evaluate_relines calls value).bind fun v => .define name.text (some v)
  | .block _ body => Relines.active.bind fun s =>
      Relines.bind (Relines.change fun _ => rfl) fun s => .within s (executeAll_relines rounds calls body)
  | .ifThen _ condition thenBranch => (evaluate_relines calls condition).bind fun _ =>
      .ite (execute_relines rounds calls thenBranch) (.pure rfl)
  | .ifElse _ condition thenBranch elseBranch => (evaluate_relines calls condition).bind fun _ =>
      .ite (execute_relines rounds calls thenBranch) (execute_relines rounds calls elseBranch)
  | .loop _ condition body => by
      refine Relines.repeatWhile (Relines.bind (evaluate_relines calls condition) fun _ => ?_) rounds
      exact .ite ((execute_relines rounds calls body).bind fun _ => .pure rfl) (.pure rfl)
  | .function declaration => by
      refine Relines.active.bind fun s => ?_
      refine Relines.bind (Relines.change (g := id) fun h =>
        h.newFunction_reline ⟨declaration, s, false⟩) fun i => ?_
      rw [Routine.name_reline]
      exact .define declaration.name.text _
  | .classDecl name parent methods => declareClass_relines name parent methods
  | .ret _ none => .throw rfl
  | .ret _ (some value) => (evaluate_relines calls value).bind fun _ => .throw rfl

theorem executeAll_relines (rounds : Nat) (calls : RelinesCalls f before call) :
    ∀ ss : List (Stmt Address),
      Relines f before id (executeAll rounds call ss) (executeAll rounds call (relineBody f ss))
  | [] => .pure rfl
  | s :: rest => (execute_relines rounds calls s).bind fun _ => executeAll_relines rounds calls rest

end

theorem bindParameters_reline (s : ScopeId) (params : List Name) (arguments : List Value) (h : Heap) :
    bindParameters s (params.map (Name.reline f)) arguments (h.reline f) =
      (bindParameters s params arguments h).reline f := by
  simp only [bindParameters]
  induction params generalizing arguments h with
  | nil => rfl
  | cons p params ih =>
      cases arguments with
      | nil => rfl
      | cons v arguments => exact ih arguments (h.define s p.text (some v))

theorem bodyValue_relines {body body' : Run Unit} (inner : Relines f before id body body') :
    Relines f before id (bodyValue body) (bodyValue body') := by
  intro m
  simp only [bodyValue, inner m]
  cases body m with
  | ok _ m => rfl
  | error e m => cases e <;> rfl

theorem yielded_relines (k : Closure) (v : Value) :
    Relines f before id (yielded k v) (yielded (k.reline f) v) := by
  refine .ite (Relines.heap.bind fun h => ?_) (.pure rfl)
  simp only [Heap.getAt_reline, Closure.reline]
  cases h.getAt k.scope 0 "this" with
  | ok receiver => exact .pure rfl
  | error _ => exact .throw rfl

theorem activate_relines (rounds : Nat) (calls : RelinesCalls f before call) (k : Closure)
    (arguments : List Value) :
    Relines f before id (activate rounds call k arguments)
      (activate rounds call (k.reline f) arguments) := by
  obtain ⟨⟨name, params, body⟩, scope, isInitializer⟩ := k
  refine Relines.bind (Relines.change (g := id) fun _ => rfl) fun s => ?_
  refine Relines.bind (Relines.update fun h => bindParameters_reline s params arguments h) fun _ => ?_
  exact (bodyValue_relines (.within s (executeAll_relines rounds calls body))).bind fun v =>
    yielded_relines _ v

theorem instantiate_relines (rounds : Nat) (calls : RelinesCalls f before call) (c : ClassId)
    (arguments : List Value) :
    Relines f before id (instantiate rounds call c arguments)
      (instantiate rounds call c arguments) := by
  refine Relines.bind (Relines.change (g := id) fun _ => rfl) fun i => Relines.heap.bind fun h => ?_
  simp only [Heap.findMethod_reline]
  cases h.findMethod c "init" with
  | none => exact .pure rfl
  | some initializer =>
      refine Relines.bind (Relines.change (g := Closure.reline f) fun _ => rfl) fun k => ?_
      exact (activate_relines rounds calls k arguments).bind fun _ => .pure rfl

theorem host_relines (calls : RelinesCalls f before call) (p : Host) :
    Relines f before id (host call p) (host call p) := by
  induction p with
  | done v => exact .pure rfl
  | raise message => exact .fault _ none
  | call callee arguments next ih => exact (calls callee arguments).bind ih
  | arity callee next ih =>
      refine Relines.heap.bind fun h => ?_
      simp only [Heap.arity?_reline]
      exact Relines.bind (g := id) (by simpa using Relines.follow (g := id) (h.arity? callee)) ih
  | display v next ih =>
      refine Relines.heap.bind fun h => ?_
      simp only [Heap.display_reline]
      exact ih _
  | time next ih => exact Relines.time.bind ih

end

theorem invoke_relines (rounds depth : Nat) : RelinesCalls f before (invoke rounds depth) := by
  induction depth with
  | zero => exact fun _ _ => .throw rfl
  | succ depth ih =>
      intro callee arguments
      cases callee with
      | function i =>
          refine Relines.heap.bind fun h => ?_
          simp only [Heap.function?_reline]
          exact (Relines.follow _).bind fun k => activate_relines rounds ih k arguments
      | ofClass c => exact instantiate_relines rounds ih c arguments
      | native n =>
          refine Relines.heap.bind fun h => ?_
          simp only [Heap.native?_reline]
          exact Relines.bind (g := id) (by simpa using Relines.follow (g := id) (h.native? n))
            fun routine => host_relines ih _

theorem topStatement_relines (limits : Limits) (s : Stmt Address) :
    Relines f before id (topStatement limits s) (topStatement limits (s.reline f)) := by
  have calls : RelinesCalls f before (invoke limits.rounds limits.depth) := invoke_relines _ _
  have executed : Relines f before id
      (do
        execute limits.rounds (invoke limits.rounds limits.depth) s
        pure none)
      (do
        execute limits.rounds (invoke limits.rounds limits.depth) (s.reline f)
        pure (none : Option Value)) :=
    (execute_relines limits.rounds calls s).bind fun _ => .pure rfl
  cases s with
  | expression value => exact (evaluate_relines calls value).map fun _ => rfl
  | _ => exact executed

/-- Statements on other lines, run on a machine whose code is on other lines, come to the same. -/
theorem topLevel_relines (limits : Limits) (ss : List (Stmt Address)) : ∀ last,
    Relines f before id (topLevel limits last ss) (topLevel limits last (relineBody f ss)) := by
  induction ss with
  | nil => exact fun _ => .pure rfl
  | cons s rest ih =>
      intro last
      rw [relineBody, topLevel_cons, topLevel_cons]
      exact (topStatement_relines limits s).bind ih

end Run
end LoxLang
