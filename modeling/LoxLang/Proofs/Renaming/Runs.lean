import LoxLang.Proofs.Recording
import LoxLang.Proofs.Renaming.Running
/-! Whole runs of a program with a name changed in some scopes. Both runs come by the same nodes, one
after the other, the second one by the nodes as they are spelled now. -/
namespace LoxLang

def Node.respell (τ : Respelling) : Node → Node
  | .expr e => .expr (e.respell τ)
  | .stmt s => .stmt (s.respell τ)
  | .superclass className parent => .superclass (className.respell τ) (parent.respell τ)
  | .store name address => .store (name.respell τ) address

variable {α β : Type} {τ : Respelling} {ρ : Renaming} {F w w' : List Bool} {m m' : Machine}

namespace Recorded

/-- Two recorded computations do the same, the second one with names changed. -/
structure Renames (τ : Respelling) (ρ : Renaming) (Q : List Bool → Machine → α → α → Prop)
    (x x' : Recorded α) (w : List Bool) (m : Machine) : Prop where
  result : Run.Renames τ ρ Q x.forget x'.forget w m
  visits : (x' (m.respell τ ρ w)).visits.map Visit.node =
    ((x m).visits.map Visit.node).map (Node.respell τ)

namespace Renames
variable {Q Q' : List Bool → Machine → α → α → Prop} {P : List Bool → Machine → β → β → Prop}
  {x x' : Recorded α}

theorem silent {r r' : Run α} (renames : Run.Renames τ ρ Q r r' w m) :
    Renames τ ρ Q (Recorded.silent r) (Recorded.silent r') w m := ⟨renames, rfl⟩

theorem pure {a a' : α} (marked : m.heap.Marked τ ρ w) (q : Q w m a a') :
    Renames τ ρ Q (Pure.pure a) (Pure.pure a') w m := ⟨.pure marked q, rfl⟩

theorem bind {f f' : α → Recorded β} (first : Renames τ ρ Q x x' w m)
    (second : ∀ a a' w' m', Onward w m w' m' → m'.heap.Marked τ ρ w' → Q w' m' a a' →
      Renames τ ρ P (f a) (f' a') w' m') : Renames τ ρ P (x >>= f) (x' >>= f') w m := by
  obtain ⟨result, visits⟩ := first
  constructor
  · simp only [forget_bind]
    exact result.bind fun a a' w' m' onward marked q => (second a a' w' m' onward marked q).result
  · unfold Run.Renames forget at result
    simp only [Bind.bind]
    generalize x m = y, x' (m.respell τ ρ w) = y' at result visits
    obtain ⟨r, v⟩ := y
    obtain ⟨r', v'⟩ := y'
    cases result with
    | error _ _ _ => exact visits
    | ok onward marked q =>
        have rest := (second _ _ _ _ onward marked q).visits
        dsimp only at visits rest ⊢
        simp only [List.map_append, visits, rest]

/-- Both come by a node. -/
theorem visit {n : Node} {f f' : Unit → Recorded α} (marked : m.heap.Marked τ ρ w)
    (next : Renames τ ρ Q (f ()) (f' ()) w m) :
    Renames τ ρ Q (Recorded.visit n >>= f) (Recorded.visit (n.respell τ) >>= f') w m := by
  have here : Renames τ ρ (Still w m) (Recorded.visit n) (Recorded.visit (n.respell τ)) w m :=
    ⟨.pure marked ⟨rfl, rfl, rfl⟩, rfl⟩
  refine here.bind ?_
  rintro _ _ _ _ - - ⟨rfl, rfl, -⟩
  exact next

theorem within {s : ScopeId} {x x' : Recorded Unit}
    (inner : Renames τ ρ Equal x x' w { m with active := s }) :
    Renames τ ρ Equal (Recorded.within s x) (Recorded.within s x') w m := by
  obtain ⟨result, visits⟩ := inner
  refine ⟨?_, visits⟩
  unfold Run.Renames at result ⊢
  simp only [forget_within, Run.within, Machine.respell] at result ⊢
  generalize x.forget _ = y, x'.forget _ = y' at result
  cases result with
  | ok onward marked same => exact .ok ⟨onward.grown, rfl, onward.marks⟩ marked same
  | error onward marked same => exact .error ⟨onward.grown, rfl, onward.marks⟩ marked same

theorem bodyValue {x x' : Recorded Unit} (body : Renames τ ρ Equal x x' w m) :
    Renames τ ρ Equal (Recorded.bodyValue x) (Recorded.bodyValue x') w m := by
  obtain ⟨result, visits⟩ := body
  refine ⟨?_, visits⟩
  unfold Run.Renames at result ⊢
  simp only [forget_bodyValue, Run.bodyValue]
  generalize x.forget m = y, x'.forget (m.respell τ ρ w) = y' at result
  cases result with
  | ok onward marked _ => exact .ok onward marked rfl
  | error onward marked same =>
      cases same with
      | returned v => exact .ok onward marked rfl
      | fault f => exact .error onward marked (.fault f)
      | noScope d => exact .error onward marked (.noScope d)
      | notBound x d b => exact .error onward marked (.notBound x d b)
      | overflow => exact .error onward marked .overflow
      | endless => exact .error onward marked .endless
      | illFormed => exact .error onward marked .illFormed

/-- Each round is the same in both, so all rounds are. -/
theorem repeatWhile {round round' : Recorded Bool}
    (each : ∀ w m, Outlook τ ρ F w m → Renames τ ρ Equal round round' w m) (n : Nat) :
    ∀ w m, Outlook τ ρ F w m →
      Renames τ ρ Equal (Recorded.repeatWhile round n) (Recorded.repeatWhile round' n) w m := by
  induction n with
  | zero => exact fun w m outlook => silent (.stop outlook.marked .endless)
  | succ n ih =>
      intro w m outlook
      refine (each w m outlook).bind ?_
      rintro again _ w' m' onward marked rfl
      cases again with
      | true => exact ih w' m' (onward.outlook outlook marked)
      | false => exact pure marked rfl

end Renames
end Recorded

/-- Calls come to the same with names changed. -/
def Recorded.Calls.Rename (τ : Respelling) (ρ : Renaming) (call call' : Recorded.Calls) : Prop :=
  ∀ c arguments w m, m.heap.Marked τ ρ w →
    Recorded.Renames τ ρ Equal (call c arguments) (call' c arguments) w m

namespace Recorded
variable {call call' : Calls} {rounds : Nat}

theorem Renames.callValue (calls : Calls.Rename τ ρ call call') (marked : m.heap.Marked τ ρ w)
    (close : Pos) (callee : Value) (arguments : List Value) :
    Renames τ ρ Equal (callValue call close callee arguments)
      (callValue call' (τ.pos close) callee arguments) w m := by
  have other : Renames τ ρ (Equal (α := Value))
      (Recorded.silent (Run.fault .notCallable (some ⟨.rightParen, ")", close⟩)))
      (Recorded.silent (Run.fault .notCallable (some ⟨.rightParen, ")", τ.pos close⟩))) w m :=
    .silent (.fault marked (fun _ => Fault.Cause.noConfusion) (some ⟨.rightParen, ")", close⟩))
  cases callee with
  | nil | bool _ | number _ | text _ | object _ => exact other
  | callable c =>
      refine Renames.bind (.silent (.read ?_)) (Q := Still w m) ?_
      · rw [Heap.arity?_respell]
        exact .follow_same _ marked
      · rintro n _ _ _ - - ⟨rfl, rfl, rfl⟩
        by_cases count : arguments.length = n
        · simp only [if_pos count]
          exact calls c arguments w m marked
        · simp only [if_neg count]
          exact .silent (.fault marked (fun _ same => by cases same)
            (some ⟨.rightParen, ")", close⟩))

mutual

/-- An expression has the same value with names changed. -/
theorem evaluate_renames (calls : Calls.Rename τ ρ call call') :
    ∀ (e : Expr Address) (w : List Bool) (m : Machine), Outlook τ ρ F w m →
      (∀ u ∈ e.uses, u.Follows τ ρ F) →
      Renames τ ρ Equal (evaluate call e) (evaluate call' (e.respell τ)) w m
  | .literal line value, w, m, outlook, _ => .visit outlook.marked (.pure outlook.marked rfl)
  | .grouping line inner, w, m, outlook, follow =>
      .visit outlook.marked (evaluate_renames calls inner w m outlook follow)
  | .var name address, w, m, outlook, follow =>
      .visit outlook.marked (.silent
        (.equal (.lookUpName outlook (follow _ List.mem_cons_self))))
  | .assign name value address, w, m, outlook, follow => by
      obtain ⟨here, inner⟩ := List.forall_mem_cons.mp follow
      refine .visit outlook.marked ((evaluate_renames calls value w m outlook inner).bind ?_)
      rintro v _ w₁ m₁ onward marked rfl
      refine .visit marked (.bind (.silent (.assign (onward.outlook outlook marked) here v)) ?_)
      intro _ _ w₂ m₂ _ marked₂ _
      exact .pure marked₂ rfl
  | .unary op pos operand, w, m, outlook, follow => by
      refine .visit outlook.marked ((evaluate_renames calls operand w m outlook follow).bind ?_)
      rintro v _ w₁ m₁ _ marked rfl
      have same : op.token (τ.pos pos) = (op.token pos).respell τ := by cases op <;> rfl
      rw [same]
      exact .silent (.lift marked _ fun cause failed => UnaryOp.silent failed)
  | .binary left op pos right, w, m, outlook, follow => by
      obtain ⟨first, second⟩ := List.forall_mem_append.mp follow
      refine .visit outlook.marked ((evaluate_renames calls left w m outlook first).bind ?_)
      rintro a _ w₁ m₁ onward marked rfl
      refine (evaluate_renames calls right w₁ m₁ (onward.outlook outlook marked) second).bind ?_
      rintro b _ w₂ m₂ _ marked₂ rfl
      have same : op.token (τ.pos pos) = (op.token pos).respell τ := by cases op <;> rfl
      rw [same]
      exact .silent (.lift marked₂ _ fun cause failed => BinaryOp.silent failed)
  | .logical left op pos right, w, m, outlook, follow => by
      obtain ⟨first, second⟩ := List.forall_mem_append.mp follow
      refine .visit outlook.marked ((evaluate_renames calls left w m outlook first).bind ?_)
      rintro a _ w₁ m₁ onward marked rfl
      have rest := evaluate_renames calls right w₁ m₁ (onward.outlook outlook marked) second
      have done : Renames τ ρ Equal (Pure.pure a) (Pure.pure a) w₁ m₁ := .pure marked rfl
      cases op with
      | or =>
          simp only [shortCircuit]
          split
          · exact done
          · exact rest
      | and =>
          simp only [shortCircuit]
          split
          · exact rest
          · exact done
  | .conditional condition thenBranch elseBranch, w, m, outlook, follow => by
      obtain ⟨first, branches⟩ := List.forall_mem_append.mp follow
      obtain ⟨second, third⟩ := List.forall_mem_append.mp branches
      refine .visit outlook.marked ((evaluate_renames calls condition w m outlook first).bind ?_)
      rintro c _ w₁ m₁ onward marked rfl
      have outlook₁ := onward.outlook outlook marked
      split
      · exact evaluate_renames calls thenBranch w₁ m₁ outlook₁ second
      · exact evaluate_renames calls elseBranch w₁ m₁ outlook₁ third
  | .call callee close arguments, w, m, outlook, follow => by
      obtain ⟨first, second⟩ := List.forall_mem_append.mp follow
      refine .visit outlook.marked ((evaluate_renames calls callee w m outlook first).bind ?_)
      rintro f _ w₁ m₁ onward marked rfl
      refine (evaluateAll_renames calls arguments w₁ m₁ (onward.outlook outlook marked)
        second).bind ?_
      rintro vs _ w₂ m₂ _ marked₂ rfl
      exact .callValue calls marked₂ close f vs
  | .member object name, w, m, outlook, follow => by
      obtain ⟨first, second⟩ := List.forall_mem_append.mp follow
      refine .visit outlook.marked ((evaluate_renames calls object w m outlook first).bind ?_)
      rintro v _ w₁ m₁ _ marked rfl
      cases v with
      | object i => exact .silent (.property marked i (second _ List.mem_cons_self))
      | nil | bool _ | number _ | text _ | callable _ =>
          exact .silent (.fault marked (fun _ => Fault.Cause.noConfusion) (some name.token))
  | .assignMember object name value, w, m, outlook, follow => by
      obtain ⟨first, second⟩ := List.forall_mem_append.mp follow
      obtain ⟨here, third⟩ := List.forall_mem_cons.mp second
      refine .visit outlook.marked ((evaluate_renames calls object w m outlook first).bind ?_)
      rintro v _ w₁ m₁ onward marked rfl
      cases v with
      | object i =>
          refine (evaluate_renames calls value w₁ m₁ (onward.outlook outlook marked) third).bind ?_
          rintro v _ w₂ m₂ _ marked₂ rfl
          refine .bind (.silent (.setField marked₂ i here v)) ?_
          intro _ _ w₃ m₃ _ marked₃ _
          exact .pure marked₃ rfl
      | nil | bool _ | number _ | text _ | callable _ =>
          exact .silent (.fault marked (fun _ => Fault.Cause.noConfusion) (some name.token))
  | .receiver pos address, w, m, outlook, _ =>
      .visit outlook.marked (.silent (.equal (.lookUpReceiver pos outlook)))
  | .inherited pos method address, w, m, outlook, follow =>
      .visit outlook.marked (.silent (.inheritedMethod outlook (follow _ List.mem_cons_self)))

theorem evaluateAll_renames (calls : Calls.Rename τ ρ call call') :
    ∀ (es : List (Expr Address)) (w : List Bool) (m : Machine), Outlook τ ρ F w m →
      (∀ u ∈ usesOfAll es, u.Follows τ ρ F) →
      Renames τ ρ Equal (evaluateAll call es) (evaluateAll call' (respellAll τ es)) w m
  | [], w, m, outlook, _ => .pure outlook.marked rfl
  | e :: rest, w, m, outlook, follow => by
      obtain ⟨first, others⟩ := List.forall_mem_append.mp follow
      refine (evaluate_renames calls e w m outlook first).bind ?_
      rintro v _ w₁ m₁ onward marked rfl
      refine (evaluateAll_renames calls rest w₁ m₁ (onward.outlook outlook marked) others).bind ?_
      rintro vs _ w₂ m₂ _ marked₂ rfl
      exact .pure marked₂ rfl

end

mutual

/-- A statement has the same effects with names changed. -/
theorem execute_renames (calls : Calls.Rename τ ρ call call') :
    ∀ (s : Stmt Address) (F w : List Bool) (m : Machine), Outlook τ ρ F w m →
      Followed τ ρ F s.uses s.scopes →
      Renames τ ρ Equal (execute rounds call s) (execute rounds call' (s.respell τ)) w m
  | .expression value, F, w, m, outlook, follow => by
      refine .visit outlook.marked
        ((evaluate_renames calls value w m outlook follow.uses).bind ?_)
      intro _ _ w₁ m₁ _ marked _
      exact .pure marked rfl
  | .print line value, F, w, m, outlook, follow => by
      refine .visit outlook.marked
        ((evaluate_renames calls value w m outlook follow.uses).bind ?_)
      rintro v _ w₁ m₁ onward marked rfl
      exact .silent (.display (onward.outlook outlook marked) v)
  | .var name none, F, w, m, outlook, follow =>
      .visit outlook.marked (.silent (.define outlook (follow.uses _ List.mem_cons_self) none))
  | .var name (some value), F, w, m, outlook, follow => by
      obtain ⟨declared, inner⟩ := List.forall_mem_cons.mp follow.uses
      refine .visit outlook.marked ((evaluate_renames calls value w m outlook inner).bind ?_)
      rintro v _ w₁ m₁ onward marked rfl
      exact .silent (.define (onward.outlook outlook marked) declared (some v))
  | .block line body, F, w, m, outlook, follow => by
      obtain ⟨scope, scopes⟩ := List.forall_mem_cons.mp follow.scopes
      obtain ⟨b, -, inside⟩ := scope.enter follow.uses
      refine .visit outlook.marked (.bind (.silent (.openBlock outlook b)) ?_)
      rintro _ s w₁ m₁ - marked ⟨rfl, outlook₁⟩
      exact .within (executeAll_renames calls body (b :: F) w₁ _ outlook₁ ⟨inside, scopes⟩)
  | .ifThen line condition thenBranch, F, w, m, outlook, follow => by
      obtain ⟨first, second⟩ := List.forall_mem_append.mp follow.uses
      refine .visit outlook.marked ((evaluate_renames calls condition w m outlook first).bind ?_)
      rintro c _ w₁ m₁ onward marked rfl
      split
      · exact execute_renames calls thenBranch F w₁ m₁ (onward.outlook outlook marked)
          ⟨second, follow.scopes⟩
      · exact .pure marked rfl
  | .ifElse line condition thenBranch elseBranch, F, w, m, outlook, follow => by
      obtain ⟨first, branches⟩ := List.forall_mem_append.mp follow.uses
      obtain ⟨second, third⟩ := List.forall_mem_append.mp branches
      obtain ⟨scopes, scopes'⟩ := List.forall_mem_append.mp follow.scopes
      refine .visit outlook.marked ((evaluate_renames calls condition w m outlook first).bind ?_)
      rintro c _ w₁ m₁ onward marked rfl
      have outlook₁ := onward.outlook outlook marked
      split
      · exact execute_renames calls thenBranch F w₁ m₁ outlook₁ ⟨second, scopes⟩
      · exact execute_renames calls elseBranch F w₁ m₁ outlook₁ ⟨third, scopes'⟩
  | .loop line condition body, F, w, m, outlook, follow => by
      obtain ⟨first, second⟩ := List.forall_mem_append.mp follow.uses
      refine .visit outlook.marked (.repeatWhile ?_ rounds w m outlook)
      intro w₁ m₁ outlook₁
      refine (evaluate_renames calls condition w₁ m₁ outlook₁ first).bind ?_
      rintro c _ w₂ m₂ onward marked rfl
      split
      · refine (execute_renames calls body F w₂ m₂ (onward.outlook outlook₁ marked)
          ⟨second, follow.scopes⟩).bind ?_
        intro _ _ w₃ m₃ _ marked₃ _
        exact .pure marked₃ rfl
      · exact .pure marked rfl
  | .function declaration, F, w, m, outlook, follow => by
      obtain ⟨declared, inside⟩ := List.forall_mem_cons.mp follow.uses
      exact .visit outlook.marked
        (.silent (.declareFunction outlook declared ⟨inside, follow.scopes⟩))
  | .classDecl name none methods, F, w, m, outlook, follow => by
      obtain ⟨declared, inside⟩ := List.forall_mem_cons.mp follow.uses
      exact .visit outlook.marked (.silent (.bindClass none outlook declared
        ⟨receivers_follow inside, follow.scopes⟩))
  | .classDecl name (some parent) methods, F, w, m, outlook, follow => by
      obtain ⟨declared, others⟩ := List.forall_mem_cons.mp follow.uses
      obtain ⟨above, inside⟩ := List.forall_mem_cons.mp others
      refine .visit outlook.marked (.visit outlook.marked
        (.bind (.silent (.superclass outlook above)) ?_))
      rintro c _ w₁ m₁ onward marked rfl
      exact .silent (.bindClass (some c) (onward.outlook outlook marked) declared
        ⟨receivers_follow (receivers_follow inside), follow.scopes⟩)
  | .ret pos none, F, w, m, outlook, _ =>
      .visit outlook.marked (.silent (.stop outlook.marked (.returned .nil)))
  | .ret pos (some value), F, w, m, outlook, follow => by
      refine .visit outlook.marked
        ((evaluate_renames calls value w m outlook follow.uses).bind ?_)
      rintro v _ w₁ m₁ _ marked rfl
      exact .silent (.stop marked (.returned v))

theorem executeAll_renames (calls : Calls.Rename τ ρ call call') :
    ∀ (ss : List (Stmt Address)) (F w : List Bool) (m : Machine), Outlook τ ρ F w m →
      Followed τ ρ F (usesOfBody ss) (scopesOfBody ss) →
      Renames τ ρ Equal (executeAll rounds call ss) (executeAll rounds call' (respellBody τ ss)) w m
  | [], _, w, m, outlook, _ => .pure outlook.marked rfl
  | s :: rest, F, w, m, outlook, follow => by
      obtain ⟨first, second⟩ := List.forall_mem_append.mp follow.uses
      obtain ⟨scopes, scopes'⟩ := List.forall_mem_append.mp follow.scopes
      refine (execute_renames calls s F w m outlook ⟨first, scopes⟩).bind ?_
      intro _ _ w₁ m₁ onward marked _
      exact executeAll_renames calls rest F w₁ m₁ (onward.outlook outlook marked) ⟨second, scopes'⟩

end

/-- A routine is run with its parameters as they are spelled now. -/
theorem activate_renames (calls : Calls.Rename τ ρ call call') {k : Closure}
    (arguments : List Value) (marked : m.heap.Marked τ ρ w)
    (follows : m.heap.FollowsFrom τ ρ w k.scope [] k.declaration) :
    Renames τ ρ Equal (activate rounds call k arguments)
      (activate rounds call' (k.respell τ) arguments) w m := by
  obtain ⟨⟨name, params, body⟩, scope, initializer⟩ := k
  obtain ⟨alive, -, code⟩ := follows
  obtain ⟨entered, scopes⟩ := List.forall_mem_cons.mp code.scopes
  obtain ⟨b, given, inside⟩ := entered.enter code.uses
  refine .bind (.silent (.openActivation arguments marked alive given)) ?_
  rintro _ s w₁ m₁ - marked₁ ⟨rfl, outlook₁⟩
  have run : Renames τ ρ Equal (executeAll rounds call body)
      (executeAll rounds call' (respellBody τ body)) w₁ { m₁ with active := s } :=
    executeAll_renames calls body _ w₁ _ outlook₁ ⟨inside, scopes⟩
  refine run.within.bodyValue.bind ?_
  rintro v _ w₂ m₂ _ marked₂ rfl
  exact .silent (.yielded marked₂ _ v)

theorem instantiate_renames (calls : Calls.Rename τ ρ call call') (c : ClassId)
    (arguments : List Value) (marked : m.heap.Marked τ ρ w) :
    Renames τ ρ Equal (instantiate rounds call c arguments) (instantiate rounds call' c arguments)
      w m := by
  have made : Run.Renames τ ρ Equal (Run.change (·.newInstance c)) (Run.change (·.newInstance c))
      w m :=
    .change (m.heap.extends_newInstance c) (List.prefix_refl w) (marked.newInstance c) rfl rfl
  refine .bind (.silent made) ?_
  rintro i _ w₁ m₁ - marked₁ rfl
  have looked : Renames τ ρ (fun w' m' h h' => w₁ = w' ∧ m₁ = m' ∧ h = m₁.heap ∧
      h' = m₁.heap.respell τ ρ w₁) (Recorded.silent Run.heap) (Recorded.silent Run.heap) w₁ m₁ :=
    .silent (.ok (.refl w₁ m₁) marked₁ ⟨rfl, rfl, rfl, rfl⟩)
  refine looked.bind ?_
  rintro _ _ _ _ - - ⟨rfl, rfl, rfl, rfl⟩
  simp only [Heap.findMethod_respell]
  cases found : m₁.heap.findMethod c "init" with
  | none => exact .pure marked₁ rfl
  | some initializer =>
      refine .bind (.silent (.bindReceiver marked₁ i (marked₁.findMethod found))) ?_
      rintro k _ w₂ m₂ - marked₂ ⟨rfl, follows⟩
      refine (activate_renames calls arguments marked₂ follows).bind ?_
      intro _ _ w₃ m₃ _ marked₃ _
      exact .pure marked₃ rfl

/-- A program of the host names no variables. -/
theorem host_renames (calls : Calls.Rename τ ρ call call') (p : Host) :
    ∀ (w : List Bool) (m : Machine), m.heap.Marked τ ρ w →
      Renames τ ρ Equal (host call p) (host call' p) w m := by
  induction p with
  | done v => exact fun w m marked => .pure marked rfl
  | raise message =>
      exact fun w m marked => .silent (.fault marked (fun _ => Fault.Cause.noConfusion) none)
  | call callee arguments next ih =>
      intro w m marked
      refine (calls callee arguments w m marked).bind ?_
      rintro v _ w₁ m₁ - marked₁ rfl
      exact ih v w₁ m₁ marked₁
  | arity callee next ih =>
      intro w m marked
      refine Renames.bind (.silent (.read ?_)) (Q := Still w m) ?_
      · rw [Heap.arity?_respell]
        exact .follow_same _ marked
      · rintro n _ _ _ - - ⟨rfl, rfl, rfl⟩
        exact ih n w m marked
  | display v next ih =>
      intro w m marked
      refine Renames.bind (.silent (.read ?_)) (Q := Still w m) ?_
      · rw [marked.display]
        exact .pure marked ⟨rfl, rfl, rfl⟩
      · rintro s _ _ _ - - ⟨rfl, rfl, rfl⟩
        exact ih s w m marked
  | time next ih =>
      intro w m marked
      refine (Renames.silent (.time marked)).bind ?_
      rintro now _ w₁ m₁ - marked₁ rfl
      exact ih now w₁ m₁ marked₁

/-- Calls come to the same, however deep they nest. -/
theorem invoke_renames (rounds depth : Nat) :
    Calls.Rename τ ρ (invoke rounds depth) (invoke rounds depth) := by
  induction depth with
  | zero => exact fun c arguments w m marked => .silent (.stop marked .overflow)
  | succ depth ih =>
      intro c arguments w m marked
      cases c with
      | function f =>
          have found : Run.Renames τ ρ (fun w' m' k k' => w = w' ∧ m = m' ∧ k' = k.respell τ ∧
              m.heap.function? f = some k) (do Run.follow ((← Run.heap).function? f))
              (do Run.follow ((← Run.heap).function? f)) w m := by
            refine .read (.follow marked ?_ ?_)
            · intro missing
              rw [Heap.function?_respell, missing]
              rfl
            · intro k found
              refine ⟨k.respell τ, ?_, rfl, rfl, rfl, found⟩
              rw [Heap.function?_respell, found]
              rfl
          refine .bind (.silent found) ?_
          rintro k _ _ _ - - ⟨rfl, rfl, rfl, found⟩
          exact activate_renames ih arguments marked (marked.functions f k found)
      | ofClass c => exact instantiate_renames ih c arguments marked
      | native n =>
          refine Renames.bind (.silent (.read ?_)) (Q := Still w m) ?_
          · rw [Heap.native?_respell]
            exact .follow_same _ marked
          · rintro r _ _ _ - - ⟨rfl, rfl, rfl⟩
            exact host_renames ih _ w m marked

theorem topStatement_renames (limits : Limits) (s : Stmt Address) (outlook : Outlook τ ρ F w m)
    (follow : Followed τ ρ F s.uses s.scopes) :
    Renames τ ρ Equal (topStatement limits s) (topStatement limits (s.respell τ)) w m := by
  have calls : Calls.Rename τ ρ (invoke limits.rounds limits.depth)
    (invoke limits.rounds limits.depth) := invoke_renames _ _
  have executed : Renames τ ρ Equal
      (do
        execute limits.rounds (invoke limits.rounds limits.depth) s
        pure (none : Option Value))
      (do
        execute limits.rounds (invoke limits.rounds limits.depth) (s.respell τ)
        pure none) w m := by
    refine (execute_renames calls s F w m outlook follow).bind ?_
    intro _ _ w₁ m₁ _ marked _
    exact .pure marked rfl
  cases s with
  | expression value =>
      refine .visit outlook.marked
        ((evaluate_renames calls value w m outlook follow.uses).bind ?_)
      rintro v _ w₁ m₁ _ marked rfl
      exact .pure marked rfl
  | _ => exact executed

theorem topLevel_renames (limits : Limits) (ss : List (Stmt Address)) :
    ∀ (last : Option Value) (w : List Bool) (m : Machine), Outlook τ ρ F w m →
      Followed τ ρ F (usesOfBody ss) (scopesOfBody ss) →
      Renames τ ρ Equal (topLevel limits last ss) (topLevel limits last (respellBody τ ss)) w m := by
  induction ss with
  | nil => exact fun last w m outlook _ => .pure outlook.marked rfl
  | cons s rest ih =>
      intro last w m outlook follow
      obtain ⟨first, second⟩ := List.forall_mem_append.mp follow.uses
      obtain ⟨scopes, scopes'⟩ := List.forall_mem_append.mp follow.scopes
      refine (topStatement_renames limits s outlook ⟨first, scopes⟩).bind ?_
      rintro last₁ _ w₁ m₁ onward marked rfl
      exact ih last₁ w₁ m₁ (onward.outlook outlook marked) ⟨second, scopes'⟩

/-- A program whose names follow does the same with its names changed. -/
theorem program_renames (limits : Limits) {ss : List (Stmt Address)}
    (outlook : Outlook τ ρ F w m) (follow : Followed τ ρ F (usesOfBody ss) (scopesOfBody ss)) :
    Renames τ ρ Equal (program limits ss) (program limits (respellBody τ ss)) w m :=
  topLevel_renames limits ss none w m outlook follow

end Recorded
end LoxLang
