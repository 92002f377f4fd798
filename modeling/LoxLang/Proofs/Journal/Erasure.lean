import LoxLang.Proofs.Journal
/-! Without its journal a journaled run is the run of the program. -/
namespace LoxLang
namespace Journaled
variable {α β : Type}

/-- A result without what is noted beside the machine. -/
def struck : EStateM.Result Exit Situation α → EStateM.Result Exit Machine α
  | .ok v a => .ok v a.machine
  | .error e a => .error e a.machine

/-- The journaled computation does what the computation does. -/
def Does (x : Journaled α) (y : Run α) : Prop := ∀ a, y a.machine = struck (x a)

namespace Does
variable {x : Journaled α} {y : Run α}

theorem pure (v : α) : Does (Pure.pure v) (Pure.pure v) := fun _ => rfl

theorem silent (y : Run α) : Does (Journaled.silent y) y := by
  intro a
  unfold Journaled.silent
  cases same : y a.machine <;> simp only [same, struck]

theorem bind {f : α → Journaled β} {g : α → Run β} (first : Does x y)
    (second : ∀ v, Does (f v) (g v)) : Does (x >>= f) (y >>= g) := by
  intro a
  have here := first a
  simp only [Bind.bind, EStateM.bind]
  cases same : x a with
  | ok v b =>
      rw [same] at here
      rw [here]
      exact second v b
  | error e b =>
      rw [same] at here
      rw [here]
      rfl

theorem under (n : Node) (does : Does x y) : Does (Journaled.under n x) y := by
  intro a
  have here := does { a with pending := n :: a.pending }
  refine here.trans ?_
  unfold Journaled.under
  cases x { a with pending := n :: a.pending } <;> rfl

theorem note {d : Deed} {f : Unit → Journaled α} (does : Does (f ()) y) :
    Does (Journaled.note d >>= f) y :=
  fun ⟨m, j, pending⟩ => does ⟨m, { j with deeds := d :: j.deeds }, pending⟩

theorem property (i : InstanceId) (name : Name) :
    Does (Journaled.property i name) (Run.property i name) := by
  intro a
  unfold Journaled.property
  cases same : Run.property i name a.machine <;> simp only [same, struck]

theorem ite {p : Prop} [Decidable p] {x' : Journaled α} {y' : Run α} (whether : Does x y)
    (otherwise : Does x' y') : Does (if p then x else x') (if p then y else y') := by
  split
  · exact whether
  · exact otherwise

theorem within (s : ScopeId) (does : Does x y) : Does (Journaled.within s x) (Run.within s y) := by
  intro a
  have here := does { a with machine := { a.machine with active := s } }
  simp only [Journaled.within, Run.within, here]
  cases x { a with machine := { a.machine with active := s } } <;> rfl

theorem bodyValue {body : Journaled Unit} {body' : Run Unit} (does : Does body body') :
    Does (Journaled.bodyValue body) (Run.bodyValue body') := by
  intro a
  simp only [Journaled.bodyValue, Run.bodyValue, does a]
  cases body a with
  | ok v b => rfl
  | error e b => cases e <;> rfl

theorem repeatWhile {round : Journaled Bool} {round' : Run Bool} (does : Does round round')
    (n : Nat) : Does (Journaled.repeatWhile round n) (Run.repeatWhile round' n) := by
  induction n with
  | zero => exact silent _
  | succ n ih => exact does.bind fun again => ite ih (pure ())

end Does

/-- Journaled calls that do what the calls do. -/
def DoCalls (call : Calls) (call' : Caller) : Prop :=
  ∀ callee arguments, Does (call callee arguments) (call' callee arguments)

section
variable {call : Calls} {call' : Caller}

theorem callValue_does (calls : DoCalls call call') (close : Pos) (callee : Value)
    (arguments : List Value) :
    Does (callValue call close callee arguments) (Run.callValue call' close callee arguments) := by
  cases callee with
  | callable c =>
      exact (Does.silent _).bind fun h => (Does.silent _).bind fun expected =>
        .ite (calls c arguments) (.silent _)
  | _ => exact .silent _

theorem shortCircuit_does (op : LogicalOp) (left : Value) {right : Journaled Value}
    {right' : Run Value} (does : Does right right') :
    Does (shortCircuit op left right) (Run.shortCircuit op left right') := by
  cases op with
  | or => exact .ite (.pure _) does
  | and => exact .ite does (.pure _)

mutual

theorem evaluate_does (calls : DoCalls call call') :
    ∀ e : Expr Address, Does (evaluate call e) (Run.evaluate call' e)
  | .literal _ _ => .under _ (.pure _)
  | .grouping _ inner => .under _ (evaluate_does calls inner)
  | .var _ _ => .under _ (.silent _)
  | .assign _ value _ => .under _ ((evaluate_does calls value).bind fun _ =>
      (Does.silent _).bind fun _ => .pure _)
  | .unary _ _ operand => .under _ ((evaluate_does calls operand).bind fun _ => .silent _)
  | .binary left _ _ right => .under _ ((evaluate_does calls left).bind fun _ =>
      (evaluate_does calls right).bind fun _ => .silent _)
  | .logical left _ _ right => .under _ ((evaluate_does calls left).bind fun _ =>
      shortCircuit_does _ _ (evaluate_does calls right))
  | .conditional condition thenBranch elseBranch => .under _
      ((evaluate_does calls condition).bind fun _ =>
        .ite (evaluate_does calls thenBranch) (evaluate_does calls elseBranch))
  | .call callee _ arguments => .under _ ((evaluate_does calls callee).bind fun _ =>
      (evaluateAll_does calls arguments).bind fun _ => callValue_does calls _ _ _)
  | .member object name => by
      refine .under _ ((evaluate_does calls object).bind fun v => ?_)
      cases v with
      | object i => exact .property i name
      | _ => exact .silent _
  | .assignMember object _ value => by
      refine .under _ ((evaluate_does calls object).bind fun v => ?_)
      cases v with
      | object i =>
          exact (evaluate_does calls value).bind fun _ => (Does.silent _).bind fun _ =>
            .note (.pure _)
      | _ => exact .silent _
  | .receiver _ _ => .under _ (.silent _)
  | .inherited _ _ _ => .under _ (.silent _)

theorem evaluateAll_does (calls : DoCalls call call') :
    ∀ es : List (Expr Address), Does (evaluateAll call es) (Run.evaluateAll call' es)
  | [] => .pure _
  | e :: rest => (evaluate_does calls e).bind fun _ =>
      (evaluateAll_does calls rest).bind fun _ => .pure _

end

variable {rounds : Nat}

mutual

theorem execute_does (calls : DoCalls call call') :
    ∀ s : Stmt Address, Does (execute rounds call s) (Run.execute rounds call' s)
  | .expression value => .under _ ((evaluate_does calls value).bind fun _ => .pure _)
  | .print _ value => .under _ ((evaluate_does calls value).bind fun _ => .silent _)
  | .var _ none => .under _ (.silent _)
  | .var _ (some value) => .under _ ((evaluate_does calls value).bind fun _ => .silent _)
  | .block _ body => .under _ ((Does.silent _).bind fun _ => (Does.silent _).bind fun s =>
      .within s (executeAll_does calls body))
  | .ifThen _ condition thenBranch => .under _ ((evaluate_does calls condition).bind fun _ =>
      .ite (execute_does calls thenBranch) (.pure _))
  | .ifElse _ condition thenBranch elseBranch => .under _
      ((evaluate_does calls condition).bind fun _ =>
        .ite (execute_does calls thenBranch) (execute_does calls elseBranch))
  | .loop _ condition body => .under _ (.repeatWhile
      ((evaluate_does calls condition).bind fun _ =>
        .ite ((execute_does calls body).bind fun _ => .pure _) (.pure _)) rounds)
  | .function _ => .under _ ((Does.silent _).bind fun _ => (Does.silent _).bind fun _ =>
      .silent _)
  | .classDecl name none methods => by
      rw [Run.execute, Recorded.declareClass_none]
      exact .under _ (.silent _)
  | .classDecl name (some parent) methods => by
      rw [Run.execute, Recorded.declareClass_some]
      exact .under _ (.bind (.under _ (.silent _)) fun c => .silent _)
  | .ret _ none => .under _ (.silent _)
  | .ret _ (some value) => .under _ ((evaluate_does calls value).bind fun _ => .silent _)

theorem executeAll_does (calls : DoCalls call call') :
    ∀ ss : List (Stmt Address), Does (executeAll rounds call ss) (Run.executeAll rounds call' ss)
  | [] => .pure _
  | s :: rest => (execute_does calls s).bind fun _ => executeAll_does calls rest

end

theorem activate_does (calls : DoCalls call call') (k : Closure) (arguments : List Value) :
    Does (activate rounds call k arguments) (Run.activate rounds call' k arguments) :=
  (Does.silent _).bind fun s => (Does.silent _).bind fun _ =>
    (Does.bodyValue (.within s (executeAll_does calls _))).bind fun _ => .silent _

theorem instantiate_does (calls : DoCalls call call') (c : ClassId) (arguments : List Value) :
    Does (instantiate rounds call c arguments) (Run.instantiate rounds call' c arguments) := by
  refine (Does.silent _).bind fun i => .note ((Does.silent _).bind fun h => ?_)
  cases h.findMethod c "init" with
  | none => exact .pure _
  | some initializer => exact (Does.silent _).bind fun k =>
      (activate_does calls k arguments).bind fun _ => .pure _

theorem host_does (calls : DoCalls call call') (p : Host) :
    Does (host call p) (Run.host call' p) := by
  induction p with
  | done v => exact .pure v
  | raise message => exact .silent _
  | call callee arguments next ih => exact (calls callee arguments).bind ih
  | arity callee next ih => exact (Does.silent _).bind fun _ => (Does.silent _).bind ih
  | display v next ih => exact (Does.silent _).bind fun h => ih (h.display v)
  | time next ih => exact (Does.silent _).bind ih

end

theorem invoke_does (rounds depth : Nat) :
    DoCalls (invoke rounds depth) (Run.invoke rounds depth) := by
  induction depth with
  | zero => exact fun _ _ => .silent _
  | succ depth ih =>
      intro callee arguments
      cases callee with
      | function f =>
          exact (Does.silent _).bind fun _ => (Does.silent _).bind fun k =>
            activate_does ih k arguments
      | ofClass c => exact fun a => instantiate_does ih c arguments a
      | native n =>
          exact (Does.silent _).bind fun _ => (Does.silent _).bind fun routine =>
            host_does ih (routine.body arguments)

theorem topStatement_does (limits : Limits) (s : Stmt Address) :
    Does (topStatement limits s) (Run.topStatement limits s) := by
  have calls := invoke_does limits.rounds limits.depth
  cases s with
  | expression value =>
      rw [Run.topStatement, map_eq_pure_bind]
      exact .under _ ((evaluate_does calls value).bind fun v => .pure (some v))
  | _ => exact (execute_does calls _).bind fun _ => .pure _

theorem topLevel_does (limits : Limits) (last : Option Value) (ss : List (Stmt Address)) :
    Does (topLevel limits last ss) (Run.topLevel limits last ss) := by
  induction ss generalizing last with
  | nil => exact .pure last
  | cons s rest ih =>
      rw [topLevel, Run.topLevel_cons]
      exact (topStatement_does limits s).bind ih

/-- A journaled run is the run of the program. -/
theorem program_does (limits : Limits) (ss : List (Stmt Address)) :
    Does (program limits ss) (Run.program limits ss) := topLevel_does limits none ss

end Journaled
end LoxLang
