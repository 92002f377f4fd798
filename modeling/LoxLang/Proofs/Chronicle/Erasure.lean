import LoxLang.Proofs.Chronicle
/-! Without its register and its moments a chronicled run is the run of the program. -/
namespace LoxLang
namespace Chronicled
variable {α β : Type}

/-- A result without what is noted beside the machine. -/
def struck : EStateM.Result Exit Scene α → EStateM.Result Exit Machine α
  | .ok v a => .ok v a.machine
  | .error e a => .error e a.machine

/-- The chronicled computation does what the computation does. -/
def Does (x : Chronicled α) (y : Run α) : Prop := ∀ a, y a.machine = struck (x a)

namespace Does
variable {x : Chronicled α} {y : Run α}

/-- What the computation yields the chronicled one yields on the same machine. -/
theorem ok {a : Scene} {v : α} {m : Machine} (does : Does x y) (same : y a.machine = .ok v m) :
    ∃ b, x a = .ok v b ∧ b.machine = m := by
  have whole := (does a).symm.trans same
  cases found : x a with
  | ok w b =>
      rw [found] at whole
      cases whole
      exact ⟨b, rfl, rfl⟩
  | error e b =>
      rw [found] at whole
      cases whole

theorem pure (v : α) : Does (Pure.pure v) (Pure.pure v) := fun _ => rfl

theorem silent (y : Run α) : Does (Chronicled.silent y) y := by
  intro a
  unfold Chronicled.silent
  cases same : y a.machine <;> simp only [same, struck]

theorem bind {f : α → Chronicled β} {g : α → Run β} (first : Does x y)
    (second : ∀ v, Does (f v) (g v)) : Does (x >>= f) (y >>= g) := by
  intro a
  have here := first a
  simp only [Bind.bind, EStateM.bind]
  cases same : x a with
  | ok v b =>
      rw [same] at here
      rw [here]
      exact second v b
  | error e b =>
      rw [same] at here
      rw [here]
      rfl

theorem map (f : α → β) (does : Does x y) : Does (f <$> x) (f <$> y) := by
  rw [map_eq_pure_bind, map_eq_pure_bind]
  exact does.bind fun v => pure (f v)

/-! What is only noted or looked up in the register does nothing. -/

theorem mark {f : Unit → Chronicled α} (does : Does (f ()) y) : Does (Chronicled.mark >>= f) y :=
  fun ⟨m, l, moments⟩ => does ⟨m, l, ⟨m, l⟩ :: moments⟩

theorem origin {g : FunctionId} {f : Origin → Chronicled α} (does : ∀ o, Does (f o) y) :
    Does (Chronicled.origin g >>= f) y := fun a => does _ a

theorem inner {c : ClassId} {f : Scopes → Chronicled α} (does : ∀ Γ, Does (f Γ) y) :
    Does (Chronicled.inner c >>= f) y := fun a => does _ a

theorem next {f : Nat → Chronicled α} (does : ∀ n, Does (f n) y) :
    Does (Chronicled.next >>= f) y := fun a => does _ a

theorem newFunction (o : Origin) (k : Closure) :
    Does (Chronicled.newFunction o k) (Run.change (·.newFunction k)) := fun _ => rfl

theorem newClass (o : ClassOrigin) (methods : Table Closure) :
    Does (Chronicled.newClass o methods) (Run.change (·.newClass o.name.text o.above methods)) :=
  fun _ => rfl

theorem openRegion (execution : Execution) (activation : Option Nat) (around : ScopeId) :
    Does (Chronicled.openRegion execution activation around)
      (Run.change (·.newScope (some around))) := fun _ => rfl

theorem ite {p : Prop} [Decidable p] {x' : Chronicled α} {y' : Run α} (whether : Does x y)
    (otherwise : Does x' y') : Does (if p then x else x') (if p then y else y') := by
  split
  · exact whether
  · exact otherwise

theorem within (s : ScopeId) (does : Does x y) : Does (Chronicled.within s x) (Run.within s y) := by
  intro a
  have here := does ⟨{ a.machine with active := s }, a.register, a.moments⟩
  simp only [Chronicled.within, Run.within, here]
  cases x ⟨{ a.machine with active := s }, a.register, a.moments⟩ <;> rfl

theorem bodyValue {body : Chronicled Unit} {body' : Run Unit} (does : Does body body') :
    Does (Chronicled.bodyValue body) (Run.bodyValue body') := by
  intro a
  simp only [Chronicled.bodyValue, Run.bodyValue, does a]
  cases body a with
  | ok v b => rfl
  | error e b => cases e <;> rfl

theorem repeatWhile {round : Chronicled Bool} {round' : Run Bool} (does : Does round round')
    (n : Nat) : Does (Chronicled.repeatWhile round n) (Run.repeatWhile round' n) := by
  induction n with
  | zero => exact silent _
  | succ n ih => exact does.bind fun again => ite ih (pure ())

end Does

theorem bound_does (method : Closure) (d : ClassId) (i : InstanceId) :
    Does (bound method d i) (Run.bound method i) :=
  .inner fun _ => (Does.silent _).bind fun _ => (Does.newFunction _ _).bind fun _ => .pure _

theorem methodFrom_does (h : Heap) (c : ClassId) (name : Name) (i : InstanceId) :
    Does (methodFrom h c name i) (Run.methodFrom h c name i) := by
  have same := h.findDeclared_method c name.text
  unfold methodFrom Run.methodFrom
  rw [← same]
  cases h.findDeclared c name.text with
  | none => exact .silent _
  | some found => exact bound_does found.2 found.1 i

theorem property_does (i : InstanceId) (name : Name) :
    Does (property i name) (Run.property i name) := by
  refine (Does.silent _).bind fun h => (Does.silent _).bind fun o => ?_
  cases o.fields.find? name.text with
  | some v => exact .pure v
  | none => exact methodFrom_does h o.ofClass name i

theorem inheritedMethod_does (pos : Pos) (method : Name) (address : Address) :
    Does (inheritedMethod pos method address) (Run.inheritedMethod pos method address) := by
  refine (Does.silent _).bind fun h => (Does.silent _).bind fun depth =>
    (Does.silent _).bind fun parent => (Does.silent _).bind fun s => ?_
  cases h.getAt s (depth - 1) "this" with
  | error e =>
      cases parent with
      | callable c => cases c <;> cases e <;> exact .silent _
      | _ => cases e <;> exact .silent _
  | ok v =>
      cases parent with
      | callable c =>
          cases c with
          | ofClass c =>
              cases v with
              | object i => exact methodFrom_does h c method i
              | _ => exact .silent _
          | _ => exact .silent _
      | _ => exact .silent _

/-- Chronicled calls that do what the calls do. -/
def DoCalls (call : Calls) (call' : Caller) : Prop :=
  ∀ callee arguments, Does (call callee arguments) (call' callee arguments)

section
variable {call : Calls} {call' : Caller}

theorem callValue_does (calls : DoCalls call call') (close : Pos) (callee : Value)
    (arguments : List Value) :
    Does (callValue call close callee arguments) (Run.callValue call' close callee arguments) := by
  cases callee with
  | callable c =>
      exact (Does.silent _).bind fun h => (Does.silent _).bind fun expected =>
        .ite (calls c arguments) (.silent _)
  | _ => exact .silent _

theorem shortCircuit_does (op : LogicalOp) (left : Value) {right : Chronicled Value}
    {right' : Run Value} (does : Does right right') :
    Does (shortCircuit op left right) (Run.shortCircuit op left right') := by
  cases op with
  | or => exact .ite (.pure _) does
  | and => exact .ite does (.pure _)

mutual

theorem evaluate_does (calls : DoCalls call call') :
    ∀ e : Expr Address, Does (evaluate call e) (Run.evaluate call' e)
  | .literal _ value => .mark (.pure _)
  | .grouping _ inner => .mark (evaluate_does calls inner)
  | .var _ _ => .mark (.silent _)
  | .assign _ value _ => .mark ((evaluate_does calls value).bind fun _ =>
      (Does.silent _).bind fun _ => .pure _)
  | .unary _ _ operand => .mark ((evaluate_does calls operand).bind fun _ => .silent _)
  | .binary left _ _ right => .mark ((evaluate_does calls left).bind fun _ =>
      (evaluate_does calls right).bind fun _ => .silent _)
  | .logical left _ _ right => .mark ((evaluate_does calls left).bind fun _ =>
      shortCircuit_does _ _ (evaluate_does calls right))
  | .conditional condition thenBranch elseBranch => .mark
      ((evaluate_does calls condition).bind fun _ =>
        .ite (evaluate_does calls thenBranch) (evaluate_does calls elseBranch))
  | .call callee _ arguments => .mark ((evaluate_does calls callee).bind fun _ =>
      (evaluateAll_does calls arguments).bind fun _ => callValue_does calls _ _ _)
  | .member object name => by
      refine .mark ((evaluate_does calls object).bind fun v => ?_)
      cases v with
      | object i => exact property_does i name
      | _ => exact .silent _
  | .assignMember object _ value => by
      refine .mark ((evaluate_does calls object).bind fun v => ?_)
      cases v with
      | object i =>
          exact (evaluate_does calls value).bind fun _ => (Does.silent _).bind fun _ => .pure _
      | _ => exact .silent _
  | .receiver _ _ => .mark (.silent _)
  | .inherited _ _ _ => .mark (inheritedMethod_does _ _ _)

theorem evaluateAll_does (calls : DoCalls call call') :
    ∀ es : List (Expr Address), Does (evaluateAll call es) (Run.evaluateAll call' es)
  | [] => .pure _
  | e :: rest => (evaluate_does calls e).bind fun _ =>
      (evaluateAll_does calls rest).bind fun _ => .pure _

end

theorem bindClass_does (o : ClassOrigin) :
    Does (bindClass o) (Recorded.bindClass o.name o.above o.methods) :=
  (Does.silent _).bind fun _ => (Does.silent _).bind fun _ => (Does.silent _).bind fun _ =>
    (Does.newClass _ _).bind fun _ => .silent _

variable {rounds : Nat}

mutual

theorem execute_does (calls : DoCalls call call') : ∀ (s : Stmt Address) (st : Setting),
    Does (execute rounds call st s) (Run.execute rounds call' s)
  | .expression value, _ => .mark ((evaluate_does calls value).bind fun _ => .pure _)
  | .print _ value, _ => .mark ((evaluate_does calls value).bind fun _ => .silent _)
  | .var _ none, _ => .mark (.silent _)
  | .var _ (some value), _ => .mark ((evaluate_does calls value).bind fun _ => .silent _)
  | .block _ body, _ => .mark ((Does.silent _).bind fun _ => .next fun _ =>
      (Does.openRegion _ _ _).bind fun s => .within s (executeAll_does calls body _))
  | .ifThen _ condition thenBranch, st => .mark ((evaluate_does calls condition).bind fun _ =>
      .ite (execute_does calls thenBranch st) (.pure _))
  | .ifElse _ condition thenBranch elseBranch, st => .mark
      ((evaluate_does calls condition).bind fun _ =>
        .ite (execute_does calls thenBranch st) (execute_does calls elseBranch st))
  | .loop _ condition body, st => .mark (.repeatWhile
      ((evaluate_does calls condition).bind fun _ =>
        .ite ((execute_does calls body st).bind fun _ => .pure _) (.pure _)) rounds)
  | .function _, _ => .mark ((Does.silent _).bind fun _ =>
      (Does.newFunction _ _).bind fun _ => .silent _)
  | .classDecl name none methods, st => by
      rw [execute, Run.execute, Recorded.declareClass_none]
      exact .mark (bindClass_does ⟨st, name, none, methods, none⟩)
  | .classDecl name (some parent) methods, st => by
      rw [execute, Run.execute, Recorded.declareClass_some]
      exact .mark ((Does.silent _).bind fun c =>
        bindClass_does ⟨st, name, some parent, methods, some c⟩)
  | .ret _ none, _ => .mark (.silent _)
  | .ret _ (some value), _ => .mark ((evaluate_does calls value).bind fun _ => .silent _)

theorem executeAll_does (calls : DoCalls call call') : ∀ (ss : List (Stmt Address))
    (st : Setting), Does (executeAll rounds call st ss) (Run.executeAll rounds call' ss)
  | [], _ => .pure _
  | s :: rest, st => (execute_does calls s st).bind fun _ => executeAll_does calls rest _

end

theorem activate_does (calls : DoCalls call call') (callee : Option FunctionId) (o : Origin)
    (k : Closure) (arguments : List Value) :
    Does (activate rounds call callee o k arguments) (Run.activate rounds call' k arguments) :=
  .next fun _ => (Does.openRegion _ _ _).bind fun s => (Does.silent _).bind fun _ =>
    (Does.bodyValue (.within s (executeAll_does calls _ _))).bind fun _ => .silent _

theorem instantiate_does (calls : DoCalls call call') (c : ClassId) (arguments : List Value) :
    Does (instantiate rounds call c arguments) (Run.instantiate rounds call' c arguments) := by
  refine (Does.silent _).bind fun i => (Does.silent _).bind fun h => ?_
  rw [← h.findDeclared_method c "init"]
  cases h.findDeclared c "init" with
  | none => exact .pure _
  | some found => exact .inner fun _ => (Does.silent _).bind fun k =>
      (activate_does calls none _ k arguments).bind fun _ => .pure _

theorem host_does (calls : DoCalls call call') (p : Host) :
    Does (host call p) (Run.host call' p) := by
  induction p with
  | done v => exact .pure v
  | raise message => exact .silent _
  | call callee arguments next ih => exact (calls callee arguments).bind ih
  | arity callee next ih => exact (Does.silent _).bind fun _ => (Does.silent _).bind ih
  | display v next ih => exact (Does.silent _).bind fun h => ih (h.display v)
  | time next ih => exact (Does.silent _).bind ih

end

theorem invoke_does (rounds depth : Nat) :
    DoCalls (invoke rounds depth) (Run.invoke rounds depth) := by
  induction depth with
  | zero => exact fun _ _ => .silent _
  | succ depth ih =>
      intro callee arguments
      refine .mark ?_
      cases callee with
      | function f => exact .origin fun o => (Does.silent _).bind fun _ =>
          (Does.silent _).bind fun k => activate_does ih (some f) o k arguments
      | ofClass c => exact instantiate_does ih c arguments
      | native n =>
          exact (Does.silent _).bind fun _ => (Does.silent _).bind fun routine =>
            host_does ih (routine.body arguments)

theorem topStatement_does (limits : Limits) (st : Setting) (s : Stmt Address) :
    Does (topStatement limits st s) (Run.topStatement limits s) := by
  have calls := invoke_does limits.rounds limits.depth
  cases s with
  | expression value => exact (evaluate_does calls value).map some
  | _ => exact (execute_does calls _ st).bind fun _ => .pure _

/-- A chronicled run is the run of the program. -/
theorem program_does (limits : Limits) (ss : List (Stmt Address)) :
    Does (program limits ss) (Run.program limits ss) := by
  suffices run : ∀ st last, Does (topLevel limits st last ss) (Run.topLevel limits last ss) from
    run .top none
  induction ss with
  | nil => exact fun _ last => .pure last
  | cons s rest ih =>
      intro st last
      rw [topLevel, Run.topLevel_cons]
      exact (topStatement_does limits st s).bind fun last => ih (st.behind s) last

end Chronicled
end LoxLang
