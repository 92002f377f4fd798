import LoxLang.Proofs.Heap.Growth
import LoxLang.Proofs.Recording
/-! The active scope. Whatever a computation does and whichever way it ends, the scope that is
active afterwards is the one that was active before. -/
namespace LoxLang
namespace Run
variable {α β : Type} {rounds : Nat} {call : Caller}

/-- The machine that a computation leaves. -/
def leaves (x : Run α) (m : Machine) : Machine :=
  match x m with
  | .ok _ m' | .error _ m' => m'

/-- What is handed on from machine to machine holds between the machines before and after two
computations if it does for each of them. -/
theorem leaves_bind (rel : Machine → Machine → Prop)
    (trans : ∀ {a b c}, rel a b → rel b c → rel a c) {x : Run α} {f : α → Run β}
    (first : ∀ m, rel m (x.leaves m)) (second : ∀ a m, rel m ((f a).leaves m)) (m : Machine) :
    rel m ((x >>= f).leaves m) := by
  have here := first m
  unfold leaves at here ⊢
  simp only [Bind.bind, EStateM.bind]
  cases same : x m with
  | ok a m' =>
      rw [same] at here
      exact trans here (second a m')
  | error e m' =>
      rw [same] at here
      exact here

/-! Computations that only look at the machine. -/

/-- The machine after a computation is the one before, also where it breaks off. -/
def Still (x : Run α) : Prop := ∀ m, x.leaves m = m

namespace Still

theorem pure (a : α) : Still (Pure.pure a : Run α) := fun _ => rfl

theorem throw (e : Exit) : Still (MonadExcept.throw e : Run α) := fun _ => rfl

theorem bind {x : Run α} {f : α → Run β} (first : Still x) (second : ∀ a, Still (f a)) :
    Still (x >>= f) :=
  leaves_bind (fun m m' => m' = m) (fun one two => two.trans one) first second

theorem heap : Still Run.heap := fun _ => rfl

theorem active : Still Run.active := fun _ => rfl

theorem fault (cause : Fault.Cause) (token : Option Token) :
    Still (Run.fault cause token : Run α) := fun _ => rfl

theorem follow (o : Option α) : Still (Run.follow o) := by
  cases o with
  | none => exact throw _
  | some a => exact pure a

end Still

theorem lift_still (token : Token) (r : Except Fault.Cause Value) : Still (lift token r) := by
  cases r with
  | ok v => exact .pure v
  | error cause => exact .fault _ _

theorem lookUp_still (token : Token) (address : Address) : Still (lookUp token address) := by
  refine Still.heap.bind fun h => ?_
  cases address with
  | none => exact lift_still _ _
  | some depth =>
      refine Still.active.bind fun s => ?_
      split
      · exact .pure _
      · exact .fault _ _
      · exact .throw _

theorem superclass_still (parent : Superclass Address) : Still (superclass parent) := by
  refine (lookUp_still _ _).bind fun v => ?_
  split
  · exact .pure _
  · exact .fault _ _

theorem yielded_still (k : Closure) (v : Value) : Still (yielded k v) := by
  unfold yielded
  split
  · refine Still.heap.bind fun h => ?_
    split
    · exact .pure _
    · exact .throw _
  · exact .pure _

/-! Assignments. -/

/-- An assignment gives the name the value in one scope, or breaks off, and by no return. -/
theorem assignFrom_cases (s : ScopeId) (name : Name) (v : Value) (m : Machine) :
    (∃ t, assignFrom s name v m = update (·.define t name.text (some v)) m) ∨
      ∃ e : Exit, assignFrom s name v m = (throw e : Run Unit) m ∧ ∀ w, e ≠ .returned w := by
  simp only [assignFrom, Bind.bind, EStateM.bind, heap]
  cases m.heap.binder? s name.text with
  | some t => exact .inl ⟨t, rfl⟩
  | none => exact .inr ⟨_, rfl, fun _ => Exit.noConfusion⟩

theorem assign_cases (name : Name) (address : Address) (v : Value) (m : Machine) :
    (∃ t, assign name address v m = update (·.define t name.text (some v)) m) ∨
      ∃ e : Exit, assign name address v m = (throw e : Run Unit) m ∧ ∀ w, e ≠ .returned w := by
  cases address with
  | none => exact assignFrom_cases Machine.globals name v m
  | some depth =>
      simp only [assign, assignAt, Bind.bind, EStateM.bind, active, heap]
      cases m.heap.binderAt m.active depth name.text with
      | ok t => exact .inl ⟨t, rfl⟩
      | error u => exact .inr ⟨.unbound u, rfl, fun _ => Exit.noConfusion⟩

/-! Computations that end in the scope in which they begin. -/

/-- The scope active before a computation is active again afterwards, also where it breaks off. -/
def Restores (x : Run α) : Prop := ∀ m, (x.leaves m).active = m.active

theorem Still.restores {x : Run α} (still : Still x) : Restores x := fun m =>
  congrArg Machine.active (still m)

namespace Restores

theorem pure (a : α) : Restores (Pure.pure a : Run α) := fun _ => rfl

theorem throw (e : Exit) : Restores (MonadExcept.throw e : Run α) := fun _ => rfl

theorem bind {x : Run α} {f : α → Run β} (first : Restores x) (second : ∀ a, Restores (f a)) :
    Restores (x >>= f) :=
  leaves_bind (fun m m' => m'.active = m.active) (fun one two => two.trans one) first second

theorem map {g : α → β} {x : Run α} (restores : Restores x) : Restores (g <$> x) := by
  rw [map_eq_pure_bind]
  exact restores.bind fun a => pure (g a)

theorem ite {p : Prop} [Decidable p] {x y : Run α} (whether : Restores x) (otherwise : Restores y) :
    Restores (if p then x else y) := by
  split
  · exact whether
  · exact otherwise

theorem heap : Restores Run.heap := fun _ => rfl

theorem active : Restores Run.active := fun _ => rfl

theorem print (line : String) : Restores (Run.print line) := fun _ => rfl

theorem time : Restores Run.time := fun _ => rfl

theorem fault (cause : Fault.Cause) (token : Option Token) :
    Restores (Run.fault cause token : Run α) := fun _ => rfl

theorem change (f : Heap → α × Heap) : Restores (Run.change f) := fun _ => rfl

theorem update (f : Heap → Heap) : Restores (Run.update f) := fun _ => rfl

theorem follow (o : Option α) : Restores (Run.follow o) := (Still.follow o).restores

/-- A computation in another scope ends in the scope in which it began, whatever it does. -/
theorem within (s : ScopeId) (x : Run α) : Restores (Run.within s x) := by
  rintro ⟨heap, before, world⟩
  simp only [leaves, Run.within]
  cases x ⟨heap, s, world⟩ <;> rfl

theorem bodyValue {body : Run Unit} (restores : Restores body) : Restores (Run.bodyValue body) := by
  intro m
  have here := restores m
  unfold leaves Run.bodyValue at *
  cases same : body m with
  | ok a m' =>
      rw [same] at here
      exact here
  | error e m' =>
      rw [same] at here
      cases e <;> exact here

theorem repeatWhile {round : Run Bool} (restores : Restores round) (n : Nat) :
    Restores (Run.repeatWhile round n) := by
  induction n with
  | zero => exact throw _
  | succ n ih =>
      refine restores.bind fun again => ?_
      cases again with
      | true => exact ih
      | false => exact pure ()

end Restores

/-! Expressions. -/

theorem lift_restores (token : Token) (r : Except Fault.Cause Value) : Restores (lift token r) :=
  (lift_still token r).restores

theorem lookUp_restores (token : Token) (address : Address) : Restores (lookUp token address) :=
  (lookUp_still token address).restores

theorem assignFrom_restores (s : ScopeId) (name : Name) (v : Value) :
    Restores (assignFrom s name v) := fun m => by
  rcases assignFrom_cases s name v m with ⟨t, same⟩ | ⟨e, same, -⟩ <;>
    · rw [leaves, same]
      rfl

theorem assign_restores (name : Name) (address : Address) (v : Value) :
    Restores (assign name address v) := fun m => by
  rcases assign_cases name address v m with ⟨t, same⟩ | ⟨e, same, -⟩ <;>
    · rw [leaves, same]
      rfl

theorem bound_restores (method : Closure) (i : InstanceId) : Restores (bound method i) :=
  (Restores.change _).bind fun _ => (Restores.change _).bind fun _ => .pure _

theorem property_restores (i : InstanceId) (name : Name) : Restores (property i name) := by
  refine Restores.heap.bind fun h => (Restores.follow _).bind fun o => ?_
  split
  · exact .pure _
  · split
    · exact bound_restores _ _
    · exact .fault _ _

theorem inheritedMethod_restores (pos : Pos) (method : Name) (address : Address) :
    Restores (inheritedMethod pos method address) := by
  refine Restores.heap.bind fun h => (Restores.follow _).bind fun depth =>
    (lookUp_restores _ _).bind fun parent => Restores.active.bind fun s => ?_
  split
  · split
    · exact bound_restores _ _
    · exact .fault _ _
  · exact .throw _
  · exact .throw _

/-- Calls that leave the active scope as they find it. -/
def RestoringCalls (call : Caller) : Prop := ∀ callee arguments, Restores (call callee arguments)

theorem callValue_restores (calls : RestoringCalls call) (close : Pos) (callee : Value)
    (arguments : List Value) : Restores (callValue call close callee arguments) := by
  cases callee with
  | callable c =>
      exact Restores.heap.bind fun h => (Restores.follow _).bind fun expected =>
        .ite (calls c arguments) (.fault _ _)
  | _ => exact .fault _ _

theorem shortCircuit_restores (op : LogicalOp) (left : Value) {right : Run Value}
    (restores : Restores right) : Restores (shortCircuit op left right) := by
  cases op with
  | or => exact .ite (.pure _) restores
  | and => exact .ite restores (.pure _)

mutual

theorem evaluate_restores (calls : RestoringCalls call) :
    ∀ e : Expr Address, Restores (evaluate call e)
  | .literal _ value => .pure _
  | .grouping _ inner => evaluate_restores calls inner
  | .var _ _ => lookUp_restores _ _
  | .assign _ value _ => (evaluate_restores calls value).bind fun _ =>
      (assign_restores _ _ _).bind fun _ => .pure _
  | .unary _ _ operand => (evaluate_restores calls operand).bind fun _ => lift_restores _ _
  | .binary left _ _ right => (evaluate_restores calls left).bind fun _ =>
      (evaluate_restores calls right).bind fun _ => lift_restores _ _
  | .logical left _ _ right => (evaluate_restores calls left).bind fun _ =>
      shortCircuit_restores _ _ (evaluate_restores calls right)
  | .conditional condition thenBranch elseBranch =>
      (evaluate_restores calls condition).bind fun _ =>
        .ite (evaluate_restores calls thenBranch) (evaluate_restores calls elseBranch)
  | .call callee _ arguments => (evaluate_restores calls callee).bind fun _ =>
      (evaluateAll_restores calls arguments).bind fun _ => callValue_restores calls _ _ _
  | .member object name => by
      refine (evaluate_restores calls object).bind fun v => ?_
      cases v with
      | object i => exact property_restores i name
      | _ => exact .fault _ _
  | .assignMember object _ value => by
      refine (evaluate_restores calls object).bind fun v => ?_
      cases v with
      | object i =>
          exact (evaluate_restores calls value).bind fun _ =>
            (Restores.update _).bind fun _ => .pure _
      | _ => exact .fault _ _
  | .receiver _ _ => lookUp_restores _ _
  | .inherited _ _ _ => inheritedMethod_restores _ _ _

theorem evaluateAll_restores (calls : RestoringCalls call) :
    ∀ es : List (Expr Address), Restores (evaluateAll call es)
  | [] => .pure _
  | e :: rest => (evaluate_restores calls e).bind fun _ =>
      (evaluateAll_restores calls rest).bind fun _ => .pure _

end

/-! Statements. -/

theorem define_restores (name : String) (v : Option Value) : Restores (define name v) :=
  Restores.active.bind fun _ => .update _

theorem superclass_restores (parent : Superclass Address) : Restores (superclass parent) :=
  (superclass_still parent).restores

/-- Makes a scope active and leaves it so. -/
def enterScope (s : ScopeId) : Run Unit := fun ⟨heap, _, world⟩ => .ok () ⟨heap, s, world⟩

/-- Makes the scope around the active one active. -/
def leaveScope : Run Unit := do
  let s ← active
  let around ← follow ((← heap).chain s)[1]?
  enterScope around

/-- A class declaration that enters the scope of its methods and leaves it again step by step.
Nothing would lead back out of that scope if a step in between broke off. -/
def declareClassInside (name : Name) (parent : Option (Superclass Address))
    (methods : List (Routine Address)) : Run Unit := do
  let above ← match parent with
    | none => pure none
    | some p => some <$> superclass p
  define name.text none
  match above with
  | none => pure ()
  | some c => do
    enterScope (← change (·.newScope (some (← active))))
    define "super" (some (.callable (.ofClass c)))
  let inside ← active
  let k ← change (·.newClass name.text above (methodTable inside methods))
  match above with
  | none => pure ()
  | some _ => leaveScope
  assignFrom (← active) name (.callable (.ofClass k))

theorem leaveScope_eq {m : Machine} {around : ScopeId}
    (outside : (m.heap.chain m.active)[1]? = some around) :
    leaveScope m = .ok () { m with active := around } := by
  simp only [leaveScope, Bind.bind, EStateM.bind, active, heap, outside]
  rfl

/-- The scope around a new scope is the one it was made in, whatever is bound in it. -/
theorem around_newScope (h : Heap) (around : ScopeId) (x : String) (v : Option Value) :
    let made := h.newScope (some around)
    ((made.2.define made.1 x v).chain made.1)[1]? = some around := by
  intro made
  rw [Heap.chain_define, show made.2.chain made.1 = made.1 :: h.chain around from
    h.chain_newScope_self around]
  rfl

/-- Between entering the scope of the methods and leaving it no step breaks off, so that a class
declaration need not see to it that it is left. -/
theorem declareClass_eq_inside (name : Name) (parent : Option (Superclass Address))
    (methods : List (Routine Address)) :
    declareClass name parent methods = declareClassInside name parent methods := by
  cases parent with
  | none => rfl
  | some p =>
      simp only [declareClass, declareClassInside, bind_assoc, map_eq_pure_bind, pure_bind]
      congr 1
      funext c m
      let declared := m.heap.define m.active name.text none
      let made := declared.newScope (some m.active)
      let inner := made.2.define made.1 "super" (some (.callable (.ofClass c)))
      let grown := inner.newClass name.text (some c) (methodTable made.1 methods)
      -- a new class leaves all scopes as they are
      have left : leaveScope ⟨grown.2, made.1, m.world⟩ = .ok () ⟨grown.2, m.active, m.world⟩ :=
        leaveScope_eq (around_newScope declared m.active "super" _)
      simp only [Bind.bind, EStateM.bind, define, active, update, change, enterScope]
      rw [left]

/-- What a class declaration does once it is known which class is above. -/
theorem bindClass_restores (name : Name) (above : Option ClassId)
    (methods : List (Routine Address)) : Restores (Recorded.bindClass name above methods) := by
  refine (define_restores _ _).bind fun _ => Restores.active.bind fun around =>
    Restores.bind ?_ fun scope => (Restores.change _).bind fun k => assignFrom_restores _ _ _
  cases above with
  | none => exact .pure _
  | some c => exact (Restores.change _).bind fun _ => (Restores.update _).bind fun _ => .pure _

theorem declareClass_restores (name : Name) (parent : Option (Superclass Address))
    (methods : List (Routine Address)) : Restores (declareClass name parent methods) := by
  cases parent with
  | none => exact bindClass_restores name none methods
  | some p =>
      rw [Recorded.declareClass_some]
      exact (superclass_restores p).bind fun c => bindClass_restores name (some c) methods

mutual

theorem execute_restores (calls : RestoringCalls call) :
    ∀ s : Stmt Address, Restores (execute rounds call s)
  | .expression value => (evaluate_restores calls value).bind fun _ => .pure _
  | .print _ value => (evaluate_restores calls value).bind fun _ =>
      Restores.heap.bind fun _ => .print _
  | .var _ none => define_restores _ _
  | .var _ (some value) => (evaluate_restores calls value).bind fun _ => define_restores _ _
  | .block _ _ => Restores.active.bind fun _ => (Restores.change _).bind fun _ => .within _ _
  | .ifThen _ condition thenBranch => (evaluate_restores calls condition).bind fun _ =>
      .ite (execute_restores calls thenBranch) (.pure _)
  | .ifElse _ condition thenBranch elseBranch => (evaluate_restores calls condition).bind fun _ =>
      .ite (execute_restores calls thenBranch) (execute_restores calls elseBranch)
  | .loop _ condition body => .repeatWhile
      ((evaluate_restores calls condition).bind fun _ =>
        .ite ((execute_restores calls body).bind fun _ => .pure _) (.pure _)) rounds
  | .function _ => Restores.active.bind fun _ => (Restores.change _).bind fun _ =>
      define_restores _ _
  | .classDecl _ _ _ => declareClass_restores _ _ _
  | .ret _ none => .throw _
  | .ret _ (some value) => (evaluate_restores calls value).bind fun _ => .throw _

theorem executeAll_restores (calls : RestoringCalls call) :
    ∀ ss : List (Stmt Address), Restores (executeAll rounds call ss)
  | [] => .pure _
  | s :: rest => (execute_restores calls s).bind fun _ => executeAll_restores calls rest

end

/-! Calls. -/

theorem yielded_restores (k : Closure) (v : Value) : Restores (yielded k v) :=
  (yielded_still k v).restores

theorem activate_restores (k : Closure) (arguments : List Value) :
    Restores (activate rounds call k arguments) :=
  (Restores.change _).bind fun _ => (Restores.update _).bind fun _ =>
    (Restores.bodyValue (.within _ _)).bind fun _ => yielded_restores _ _

theorem instantiate_restores (c : ClassId) (arguments : List Value) :
    Restores (instantiate rounds call c arguments) := by
  refine (Restores.change _).bind fun i => Restores.heap.bind fun h => ?_
  cases h.findMethod c "init" with
  | none => exact .pure _
  | some initializer => exact (Restores.change _).bind fun k =>
      (activate_restores k arguments).bind fun _ => .pure _

/-- A program of the host changes the active scope only through the calls it makes. -/
theorem host_restores (calls : RestoringCalls call) (p : Host) : Restores (host call p) := by
  induction p with
  | done v => exact .pure v
  | raise message => exact .fault _ _
  | call callee arguments next ih => exact (calls callee arguments).bind ih
  | arity callee next ih =>
      exact Restores.heap.bind fun _ => (Restores.follow _).bind ih
  | display v next ih => exact Restores.heap.bind fun h => ih (h.display v)
  | time next ih => exact Restores.time.bind ih

theorem invoke_restores (rounds depth : Nat) : RestoringCalls (invoke rounds depth) := by
  induction depth with
  | zero => exact fun _ _ => .throw _
  | succ depth ih =>
      intro callee arguments
      cases callee with
      | function f => exact Restores.heap.bind fun _ => (Restores.follow _).bind fun k =>
          activate_restores k arguments
      | ofClass c => exact instantiate_restores c arguments
      | native n => exact Restores.heap.bind fun _ => (Restores.follow _).bind fun routine =>
          host_restores ih _

theorem topLevel_restores (limits : Limits) (last : Option Value) (ss : List (Stmt Address)) :
    Restores (topLevel limits last ss) := by
  have calls := invoke_restores limits.rounds limits.depth
  induction ss generalizing last with
  | nil => exact .pure last
  | cons s rest ih =>
      cases s with
      | expression value => exact (evaluate_restores calls value).map.bind ih
      | _ => exact (execute_restores calls _).bind fun _ => ih none

theorem program_restores (limits : Limits) (ss : List (Stmt Address)) :
    Restores (program limits ss) := topLevel_restores limits none ss

/-- Every part of a run leaves active the scope that it finds active, whichever way it ends. -/
structure Restoring (rounds : Nat) (call : Caller) : Prop where
  expression : ∀ e, Restores (evaluate call e)
  statement : ∀ s, Restores (execute rounds call s)
  block : ∀ s body, Restores (within s (executeAll rounds call body))
  called : ∀ callee arguments, Restores (call callee arguments)
  /-- A function, or a method with its receiver bound. -/
  routine : ∀ k arguments, Restores (activate rounds call k arguments)
  ofClass : ∀ c arguments, Restores (instantiate rounds call c arguments)
  host : ∀ p, Restores (host call p)
  /-- The scope of the methods of a class is left although nothing guards it. -/
  classDecl : ∀ name parent methods,
    declareClass name parent methods = declareClassInside name parent methods ∧
      Restores (declareClassInside name parent methods)

/-- It is enough that the calls do so, be they served by the program or by the host. -/
theorem restoring (rounds : Nat) (calls : RestoringCalls call) : Restoring rounds call where
  expression := evaluate_restores calls
  statement := execute_restores calls
  block := fun s _ => .within s _
  called := calls
  routine := activate_restores
  ofClass := instantiate_restores
  host := host_restores calls
  classDecl := fun name parent methods => by
    have same := declareClass_eq_inside name parent methods
    exact ⟨same, same ▸ declareClass_restores name parent methods⟩

end Run
end LoxLang
