import LoxLang.Proofs.Blame
import LoxLang.Proofs.Journal
import LoxLang.Proofs.Running.Calls
/-! Journaled runs of known code point at what fails. Where a run breaks off with a failure, the
innermost pending node is the one that is to blame. -/
namespace LoxLang

/-- The failure has arisen at the innermost of the nodes, which is a node of known code. -/
def Pinned (R : Regime) (pending : List Node) (f : Fault) : Prop :=
  ∃ σ rest, R.sites σ ∧ pending = σ.node :: rest ∧ σ.node.Blames f

/-- The run is at a node of known code. -/
structure Reached (R : Regime) (n : Node) (a : Situation) : Prop where
  poised : Poised R a.machine
  pending : ∃ σ rest, R.sites σ ∧ σ.node = n ∧ a.pending = n :: rest

/-- The situation after a computation that has not broken off. -/
structure Situation.Later (R : Regime) (a b : Situation) : Prop where
  follows : Follows R a.machine b.machine
  pending : b.pending = a.pending

namespace Journaled
variable {α β : Type} {R : Regime} {n : Node} {a : Situation}

/-- From the situation on, the computation keeps what is known, and a failure with which it breaks
off is pinned on a pending node. -/
structure Points (R : Regime) (x : Journaled α) (a : Situation) (Q : α → Heap → Prop) : Prop where
  ok : ∀ v b, x a = .ok v b → a.Later R b ∧ Q v b.machine.heap
  error : ∀ e b, x a = .error e b → Follows R a.machine b.machine ∧
    ∀ f, e = .fault f → Pinned R b.pending f

end Journaled

namespace Reached
variable {R : Regime} {n : Node} {a b : Situation}

theorem later (reached : Reached R n a) (later : a.Later R b) : Reached R n b := by
  obtain ⟨σ, rest, site, node, pending⟩ := reached.pending
  exact ⟨later.follows.poised reached.poised, σ, rest, site, node, later.pending.trans pending⟩

theorem coded (reached : Reached R n a) : Coded R a.machine.heap := reached.poised.coded

theorem pinned (reached : Reached R n a) {f : Fault} (blamed : n.Blames f) :
    Pinned R a.pending f := by
  obtain ⟨σ, rest, site, rfl, pending⟩ := reached.pending
  exact ⟨σ, rest, site, pending, blamed⟩

end Reached

namespace Journaled
variable {α β : Type} {R : Regime} {n : Node} {a : Situation}

namespace Points
variable {x : Journaled α} {Q : α → Heap → Prop}

theorem of_ok {v : α} {b : Situation} (ran : x a = .ok v b) (later : a.Later R b)
    (q : Q v b.machine.heap) : Points R x a Q := by
  refine ⟨fun w c same => ?_, fun e c same => ?_⟩
  · cases ran.symm.trans same
    exact ⟨later, q⟩
  · cases ran.symm.trans same

theorem of_error {e : Exit} {b : Situation} (ran : x a = .error e b)
    (follows : Follows R a.machine b.machine) (pinned : ∀ f, e = .fault f → Pinned R b.pending f) :
    Points R x a Q := by
  refine ⟨fun w c same => ?_, fun e' c same => ?_⟩
  · cases ran.symm.trans same
  · cases ran.symm.trans same
    exact ⟨follows, pinned⟩

theorem pure {v : α} (coded : Coded R a.machine.heap) (q : Q v a.machine.heap) :
    Points R (Pure.pure v : Journaled α) a Q := of_ok rfl ⟨.refl coded, rfl⟩ q

theorem silent {B : Fault → Prop} {y : Run α} (heeds : y.Heeds R B a.machine Q)
    (pinned : ∀ f, B f → Pinned R a.pending f) : Points R (Journaled.silent y) a Q := by
  obtain ⟨m, j, pending⟩ := a
  cases ran : y m with
  | ok v m' =>
      obtain ⟨follows, q⟩ := heeds.ok v m' ran
      have ended : Journaled.silent y ⟨m, j, pending⟩ = .ok v ⟨m', j, pending⟩ := by
        simp only [Journaled.silent, ran]
      exact of_ok ended ⟨follows, rfl⟩ q
  | error e m' =>
      obtain ⟨follows, blamed⟩ := heeds.error e m' ran
      have ended : Journaled.silent y ⟨m, j, pending⟩ = .error e ⟨m', j, pending⟩ := by
        simp only [Journaled.silent, ran]
      exact of_error ended follows fun f fault => pinned f (blamed f fault)

/-- A step of a node that fails only as the node can. -/
theorem step (reached : Reached R n a) {y : Run α} (heeds : y.Heeds R n.Blames a.machine Q) :
    Points R (Journaled.silent y) a Q := silent heeds fun _ => reached.pinned

/-- A step that does not fail. -/
theorem sure {y : Run α} (heeds : y.Heeds R (fun _ => False) a.machine Q) :
    Points R (Journaled.silent y) a Q := silent heeds fun _ => False.elim

theorem bind {f : α → Journaled β} {P : α → Heap → Prop} {Q : β → Heap → Prop}
    (first : Points R x a P)
    (second : ∀ v b, a.Later R b → P v b.machine.heap → Points R (f v) b Q) :
    Points R (x >>= f) a Q := by
  cases ran : x a with
  | error e b =>
      obtain ⟨follows, pinned⟩ := first.error e b ran
      exact of_error (by simp only [Bind.bind, EStateM.bind, ran]) follows pinned
  | ok v b =>
      obtain ⟨later, p⟩ := first.ok v b ran
      have rest : (x >>= f) a = f v b := by simp only [Bind.bind, EStateM.bind, ran]
      cases ran' : f v b with
      | ok w c =>
          obtain ⟨later', q⟩ := (second v b later p).ok w c ran'
          exact of_ok (rest.trans ran')
            ⟨later.follows.trans later'.follows, later'.pending.trans later.pending⟩ q
      | error e c =>
          obtain ⟨follows, pinned⟩ := (second v b later p).error e c ran'
          exact of_error (rest.trans ran') (later.follows.trans follows) pinned

theorem ite {p : Prop} [Decidable p] {y : Journaled α} (whether : Points R x a Q)
    (otherwise : Points R y a Q) : Points R (if p then x else y) a Q := by
  split
  · exact whether
  · exact otherwise

/-- A computation at a node of known code. -/
theorem at_node (poised : Poised R a.machine) {Γ : Scopes} {inside : Bool} {i : Option Name}
    (known : R.sites ⟨Γ, inside, i, n⟩) (body : ∀ b, Reached R n b → Points R x b Q) :
    Points R (Journaled.under n x) a Q := by
  have points := body { a with pending := n :: a.pending } ⟨poised, _, a.pending, known, rfl, rfl⟩
  cases ran : x { a with pending := n :: a.pending } with
  | ok v b =>
      obtain ⟨later, q⟩ := points.ok v b ran
      have ended : Journaled.under n x a = .ok v { b with pending := a.pending } := by
        simp only [Journaled.under, ran]
      exact of_ok ended ⟨later.follows, rfl⟩ q
  | error e b =>
      obtain ⟨follows, pinned⟩ := points.error e b ran
      exact of_error (by simp only [Journaled.under, ran]) follows pinned

theorem note {d : Deed} (coded : Coded R a.machine.heap) :
    Points R (Journaled.note d) a fun _ h => h = a.machine.heap :=
  of_ok rfl ⟨.refl coded, rfl⟩ rfl

/-- An access is noted, and otherwise a step. -/
theorem property (reached : Reached R n a) {i : InstanceId} {name : Name}
    (heeds : (Run.property i name).Heeds R n.Blames a.machine fun _ _ => True) :
    Points R (Journaled.property i name) a fun _ _ => True := by
  obtain ⟨m, j, pending⟩ := a
  cases ran : Run.property i name m with
  | ok v m' =>
      obtain ⟨j', ended⟩ : ∃ j',
          Journaled.property i name ⟨m, j, pending⟩ = .ok v ⟨m', j', pending⟩ := by
        simp only [Journaled.property, ran]
        exact ⟨_, rfl⟩
      exact of_ok ended ⟨(heeds.ok v m' ran).1, rfl⟩ trivial
  | error e m' =>
      obtain ⟨follows, blamed⟩ := heeds.error e m' ran
      obtain ⟨j', ended⟩ : ∃ j',
          Journaled.property i name ⟨m, j, pending⟩ = .error e ⟨m', j', pending⟩ := by
        simp only [Journaled.property, ran]
        exact ⟨_, rfl⟩
      exact of_error ended follows fun f fault => reached.pinned (blamed f fault)

/-- In another scope, which is there, a run goes as it does in its own. -/
theorem within {s : ScopeId} (coded : Coded R a.machine.heap) (alive : a.machine.heap.Alive s)
    (body : ∀ b : Situation, Poised R b.machine → Points R x b Q) :
    Points R (Journaled.within s x) a Q := by
  obtain ⟨m, j, pending⟩ := a
  have points := body ⟨{ m with active := s }, j, pending⟩ ⟨coded, alive⟩
  cases ran : x ⟨{ m with active := s }, j, pending⟩ with
  | ok v b =>
      obtain ⟨later, q⟩ := points.ok v b ran
      have ended : Journaled.within s x ⟨m, j, pending⟩
          = .ok v { b with machine := { b.machine with active := m.active } } := by
        simp only [Journaled.within, ran]
      exact of_ok ended ⟨⟨later.follows.grown, rfl, later.follows.coded⟩, later.pending⟩ q
  | error e b =>
      obtain ⟨follows, pinned⟩ := points.error e b ran
      have ended : Journaled.within s x ⟨m, j, pending⟩
          = .error e { b with machine := { b.machine with active := m.active } } := by
        simp only [Journaled.within, ran]
      exact of_error ended ⟨follows.grown, rfl, follows.coded⟩ pinned

theorem bodyValue {body : Journaled Unit} (points : Points R body a fun _ _ => True) :
    Points R (Journaled.bodyValue body) a fun _ _ => True := by
  cases ran : body a with
  | ok v b =>
      have ended : Journaled.bodyValue body a = .ok .nil b := by simp only [Journaled.bodyValue, ran]
      exact of_ok ended (points.ok v b ran).1 trivial
  | error e b =>
      obtain ⟨follows, pinned⟩ := points.error e b ran
      cases e with
      | returned w =>
          have ended : Journaled.bodyValue body a = .ok w { b with pending := a.pending } := by
            simp only [Journaled.bodyValue, ran]
          exact of_ok ended ⟨follows, rfl⟩ trivial
      | _ => exact of_error (by simp only [Journaled.bodyValue, ran]) follows pinned

/-- A loop points at what fails if each of its rounds does. -/
theorem repeatWhile {round : Journaled Bool}
    (step : ∀ b, Reached R n b → Points R round b fun _ _ => True) (k : Nat) :
    ∀ a, Reached R n a → Points R (Journaled.repeatWhile round k) a fun _ _ => True := by
  induction k with
  | zero => exact fun a reached => .sure (.throw reached.coded fun _ same => nomatch same)
  | succ k ih =>
      intro a reached
      refine (step a reached).bind fun again b later _ => ?_
      cases again with
      | true => exact ih b (reached.later later)
      | false => exact pure later.follows.coded trivial

end Points

/-- Nothing is asked of what a computation yields. -/
abbrev Sane (R : Regime) (x : Journaled α) (a : Situation) : Prop := Points R x a fun _ _ => True

/-- Calls that point at what fails, wherever they are made. -/
def PointingCalls (R : Regime) (call : Calls) : Prop :=
  ∀ callee arguments a, Poised R a.machine → Sane R (call callee arguments) a

section
variable {call : Calls} {rounds : Nat} {Γ : Scopes} {inside : Bool} {i : Option Name}

theorem callValue_points (calls : PointingCalls R call) {callee : Value} {arguments : List Value}
    {e : Expr Address} {close : Pos} {es : List (Expr Address)}
    (reached : Reached R (.expr (.call e close es)) a) :
    Sane R (callValue call close callee arguments) a := by
  cases callee with
  | callable c =>
      refine (Points.sure (.heap reached.coded)).bind fun h b later _ => ?_
      refine (Points.sure (.follow later.follows.coded)).bind fun expected d later' _ => ?_
      have reached' := (reached.later later).later later'
      by_cases same : arguments.length = expected
      · rw [if_pos same]
        exact calls c arguments d reached'.poised
      · rw [if_neg same]
        exact .step reached' (.fault reached'.coded ⟨rfl, .inr ⟨_, _, Ne.symm same, rfl⟩⟩)
  | _ => exact .step reached (.fault reached.coded ⟨rfl, .inl rfl⟩)

mutual

/-- An expression of known code points at what fails. -/
theorem evaluate_points (calls : PointingCalls R call) : ∀ (e : Expr Address) (a : Situation),
    Poised R a.machine → (∀ n ∈ e.nodes, R.sites ⟨Γ, inside, i, n⟩) → Sane R (evaluate call e) a
  | .literal _ _, a, poised, known => .at_node poised (known _ List.mem_cons_self) fun b reached =>
      .pure reached.coded trivial
  | .grouping _ body, a, poised, known => by
      obtain ⟨here, inner⟩ := List.forall_mem_cons.mp known
      exact .at_node poised here fun b reached => evaluate_points calls body b reached.poised inner
  | .var _ _, a, poised, known => .at_node poised (known _ List.mem_cons_self) fun b reached =>
      .step reached (.lookUp reached.coded)
  | .assign name value address, a, poised, known => by
      obtain ⟨here, inner, -⟩ := known_pair known
      refine .at_node poised here fun b reached => ?_
      refine (evaluate_points calls value b reached.poised inner).bind fun v c later _ => ?_
      have reached' := reached.later later
      refine (Points.step reached' (.assign reached'.coded)).bind fun _ d later' _ => ?_
      exact .pure later'.follows.coded trivial
  | .unary op pos operand, a, poised, known => by
      obtain ⟨here, inner⟩ := List.forall_mem_cons.mp known
      refine .at_node poised here fun b reached => ?_
      refine (evaluate_points calls operand b reached.poised inner).bind fun v c later _ => ?_
      have reached' := reached.later later
      refine .step reached' (.lift reached'.coded fun cause failed => ?_)
      obtain ⟨rfl, rfl⟩ := UnaryOp.refuses failed
      exact ⟨rfl, rfl⟩
  | .binary left op pos right, a, poised, known => by
      obtain ⟨here, first, second⟩ := known_pair known
      refine .at_node poised here fun b reached => ?_
      refine (evaluate_points calls left b reached.poised first).bind fun v c later _ => ?_
      have reached' := reached.later later
      refine (evaluate_points calls right c reached'.poised second).bind fun w d later' _ => ?_
      have reached'' := reached'.later later'
      exact .step reached'' (.lift reached''.coded fun cause failed =>
        ⟨rfl, BinaryOp.refuses failed⟩)
  | .logical left op pos right, a, poised, known => by
      obtain ⟨here, first, second⟩ := known_pair known
      refine .at_node poised here fun b reached => ?_
      refine (evaluate_points calls left b reached.poised first).bind fun v c later _ => ?_
      have rest := evaluate_points calls right c (reached.later later).poised second
      have stop : Sane R (Pure.pure v : Journaled Value) c := .pure later.follows.coded trivial
      cases op with
      | and => exact .ite rest stop
      | or => exact .ite stop rest
  | .conditional condition thenBranch elseBranch, a, poised, known => by
      obtain ⟨here, first, branches⟩ := known_pair known
      obtain ⟨second, third⟩ := List.forall_mem_append.mp branches
      refine .at_node poised here fun b reached => ?_
      refine (evaluate_points calls condition b reached.poised first).bind fun v c later _ => ?_
      have poised' := (reached.later later).poised
      exact .ite (evaluate_points calls thenBranch c poised' second)
        (evaluate_points calls elseBranch c poised' third)
  | .call callee close arguments, a, poised, known => by
      obtain ⟨here, first, second⟩ := known_pair known
      refine .at_node poised here fun b reached => ?_
      refine (evaluate_points calls callee b reached.poised first).bind fun f c later _ => ?_
      have reached' := reached.later later
      refine (evaluateAll_points calls arguments c reached'.poised second).bind fun vs d later' _ => ?_
      exact callValue_points calls (reached'.later later')
  | .member object name, a, poised, known => by
      obtain ⟨here, inner⟩ := List.forall_mem_cons.mp known
      refine .at_node poised here fun b reached => ?_
      refine (evaluate_points calls object b reached.poised inner).bind fun v c later _ => ?_
      have reached' := reached.later later
      cases v with
      | object j =>
          refine .property reached' ((Run.Heeds.property reached'.coded).more ?_)
          rintro _ rfl
          exact ⟨rfl, .inr rfl⟩
      | _ => exact .step reached' (.fault reached'.coded ⟨rfl, .inl rfl⟩)
  | .assignMember object name value, a, poised, known => by
      obtain ⟨here, second, first⟩ := known_pair known
      refine .at_node poised here fun b reached => ?_
      refine (evaluate_points calls object b reached.poised first).bind fun v c later _ => ?_
      have reached' := reached.later later
      cases v with
      | object j =>
          refine (evaluate_points calls value c reached'.poised second).bind fun w d later' _ => ?_
          have stored := later'.follows.coded.setField j name.text w
          refine (Points.sure (.update (d.machine.heap.extends_setField j name.text w)
            stored)).bind fun _ d' later₂ _ => ?_
          refine (Points.note later₂.follows.coded).bind fun _ d'' later₃ _ => ?_
          exact .pure later₃.follows.coded trivial
      | _ => exact .step reached' (.fault reached'.coded rfl)
  | .receiver pos address, a, poised, known => by
      have here := known _ List.mem_cons_self
      obtain ⟨d, rfl, -⟩ := R.lawful _ here
      exact .at_node poised here fun b reached => .sure (.lookUp_reserved reached.coded (.inl rfl))
  | .inherited pos method address, a, poised, known => by
      have here := known _ List.mem_cons_self
      obtain ⟨d, rfl, -⟩ := R.lawful _ here
      exact .at_node poised here fun b reached => .step reached (.inheritedMethod reached.coded)

theorem evaluateAll_points (calls : PointingCalls R call) :
    ∀ (es : List (Expr Address)) (a : Situation), Poised R a.machine →
      (∀ n ∈ nodesOfAll es, R.sites ⟨Γ, inside, i, n⟩) → Sane R (evaluateAll call es) a
  | [], a, poised, _ => .pure poised.coded trivial
  | e :: rest, a, poised, known => by
      obtain ⟨first, second⟩ := List.forall_mem_append.mp known
      refine (evaluate_points calls e a poised first).bind fun v b later _ => ?_
      have poised' := later.follows.poised poised
      refine (evaluateAll_points calls rest b poised' second).bind fun vs c later' _ => ?_
      exact .pure later'.follows.coded trivial

end

/-- The methods of a class are known code if their sites are known. -/
theorem coded_of_methods {methods : List (Routine Address)}
    (known : ∀ σ ∈ sitesOfMethods Γ methods, R.sites σ) : ∀ r ∈ methods, r.Coded R := by
  induction methods with
  | nil => exact fun r member => absurd member List.not_mem_nil
  | cons first rest ih =>
      obtain ⟨here, others⟩ := List.forall_mem_append.mp known
      exact List.forall_mem_cons.mpr ⟨⟨Γ, here⟩, ih others⟩

mutual

/-- A statement of known code points at what fails. -/
theorem execute_points (calls : PointingCalls R call) : ∀ (s : Stmt Address) (Γ : Scopes)
    (inside : Bool) (a : Situation), Poised R a.machine → (∀ σ ∈ s.sites Γ inside, R.sites σ) →
    Sane R (execute rounds call s) a
  | .expression value, Γ, inside, a, poised, known => by
      obtain ⟨here, inner⟩ := List.forall_mem_cons.mp known
      refine .at_node poised here fun b reached => ?_
      refine (evaluate_points calls value b reached.poised (known_nodes inner)).bind ?_
      exact fun _ c later _ => .pure later.follows.coded trivial
  | .print line value, Γ, inside, a, poised, known => by
      obtain ⟨here, inner⟩ := List.forall_mem_cons.mp known
      refine .at_node poised here fun b reached => ?_
      refine (evaluate_points calls value b reached.poised (known_nodes inner)).bind ?_
      intro v c later _
      refine .sure ((Run.Heeds.heap later.follows.coded).bind fun h m follows _ => ?_)
      exact .done rfl ⟨.refl _, rfl, follows.coded⟩ trivial
  | .var name none, Γ, inside, a, poised, known => by
      have here := known _ List.mem_cons_self
      refine .at_node poised here fun b reached => .sure ?_
      exact (Run.Heeds.define reached.coded (R.lawful _ here)).weaken fun _ _ _ => trivial
  | .var name (some value), Γ, inside, a, poised, known => by
      obtain ⟨here, inner⟩ := List.forall_mem_cons.mp known
      refine .at_node poised here fun b reached => ?_
      refine (evaluate_points calls value b reached.poised (known_nodes inner)).bind ?_
      intro v c later _
      exact .sure ((Run.Heeds.define later.follows.coded (R.lawful _ here)).weaken
        fun _ _ _ => trivial)
  | .block line body, Γ, inside, a, poised, known => by
      obtain ⟨here, inner⟩ := List.forall_mem_cons.mp known
      refine .at_node poised here fun b reached => ?_
      refine (Points.sure (.active reached.coded)).bind fun around c later _ => ?_
      have opened := later.follows.coded.newScope (some around)
      refine (Points.sure (.change (c.machine.heap.extends_newScope (some around)) opened)).bind ?_
      intro s d later' made
      exact .within later'.follows.coded (Heap.alive_of_newScope made) fun b poised =>
        executeAll_points calls body (Table.empty :: Γ) inside b poised inner
  | .ifThen line condition thenBranch, Γ, inside, a, poised, known => by
      obtain ⟨here, inner⟩ := List.forall_mem_cons.mp known
      obtain ⟨first, second⟩ := List.forall_mem_append.mp inner
      refine .at_node poised here fun b reached => ?_
      refine (evaluate_points calls condition b reached.poised (known_nodes first)).bind ?_
      intro v c later _
      exact .ite (execute_points calls thenBranch Γ inside c (reached.later later).poised second)
        (.pure later.follows.coded trivial)
  | .ifElse line condition thenBranch elseBranch, Γ, inside, a, poised, known => by
      obtain ⟨here, inner⟩ := List.forall_mem_cons.mp known
      obtain ⟨first, branches⟩ := List.forall_mem_append.mp inner
      obtain ⟨second, third⟩ := List.forall_mem_append.mp branches
      refine .at_node poised here fun b reached => ?_
      refine (evaluate_points calls condition b reached.poised (known_nodes first)).bind ?_
      intro v c later _
      have poised' := (reached.later later).poised
      exact .ite (execute_points calls thenBranch Γ inside c poised' second)
        (execute_points calls elseBranch Γ inside c poised' third)
  | .loop line condition body, Γ, inside, a, poised, known => by
      obtain ⟨here, inner⟩ := List.forall_mem_cons.mp known
      obtain ⟨first, second⟩ := List.forall_mem_append.mp inner
      refine .at_node poised here fun b reached => .repeatWhile ?_ rounds b reached
      intro c reached
      refine (evaluate_points calls condition c reached.poised (known_nodes first)).bind ?_
      intro v d later _
      refine .ite ?_ (.pure later.follows.coded trivial)
      refine (execute_points calls body Γ inside d (reached.later later).poised second).bind ?_
      exact fun _ _ later' _ => .pure later'.follows.coded trivial
  | .function declaration, Γ, inside, a, poised, known => by
      obtain ⟨here, inner⟩ := List.forall_mem_cons.mp known
      obtain ⟨ordinary, -⟩ := R.lawful _ here
      refine .at_node poised here fun b reached => ?_
      refine (Points.sure (.active reached.coded)).bind fun around c later _ => ?_
      have made : Coded R (c.machine.heap.newFunction ⟨declaration, around, false⟩).2 :=
        later.follows.coded.newFunction ⟨_, inner⟩
      refine (Points.sure (.change (c.machine.heap.extends_newFunction _) made)).bind ?_
      intro f d later' _
      exact .sure ((Run.Heeds.define later'.follows.coded ordinary).weaken fun _ _ _ => trivial)
  | .classDecl name none methods, Γ, inside, a, poised, known => by
      obtain ⟨here, inner⟩ := List.forall_mem_cons.mp known
      obtain ⟨ordinary, -⟩ := R.lawful _ here
      exact .at_node poised here fun b reached =>
        .sure (.bindClass reached.poised ordinary (coded_of_methods inner))
  | .classDecl name (some parent) methods, Γ, inside, a, poised, known => by
      obtain ⟨here, others⟩ := List.forall_mem_cons.mp known
      obtain ⟨above, inner⟩ := List.forall_mem_cons.mp others
      obtain ⟨ordinary, -⟩ := R.lawful _ here
      refine .at_node poised here fun b reached => ?_
      refine (Points.at_node (Q := fun _ _ => True) reached.poised above fun c reached' =>
        .step reached' (.superclass reached'.coded)).bind ?_
      intro k c later _
      exact .sure (.bindClass (reached.later later).poised ordinary (coded_of_methods inner))
  | .ret pos none, Γ, inside, a, poised, known =>
      .at_node poised (known _ List.mem_cons_self) fun b reached =>
        .sure (.throw reached.coded fun _ same => nomatch same)
  | .ret pos (some value), Γ, inside, a, poised, known => by
      obtain ⟨here, inner⟩ := List.forall_mem_cons.mp known
      refine .at_node poised here fun b reached => ?_
      refine (evaluate_points calls value b reached.poised (known_nodes inner)).bind ?_
      exact fun v c later _ => .sure (.throw later.follows.coded fun _ same => nomatch same)

theorem executeAll_points (calls : PointingCalls R call) : ∀ (ss : List (Stmt Address)) (Γ : Scopes)
    (inside : Bool) (a : Situation), Poised R a.machine →
    (∀ σ ∈ sitesOfAll Γ inside ss, R.sites σ) → Sane R (executeAll rounds call ss) a
  | [], _, _, a, poised, _ => .pure poised.coded trivial
  | s :: rest, Γ, inside, a, poised, known => by
      obtain ⟨first, others⟩ := List.forall_mem_append.mp known
      refine (execute_points calls s Γ inside a poised first).bind fun _ b later _ => ?_
      exact executeAll_points calls rest (Γ.extend s) inside b (later.follows.poised poised) others

end

theorem yielded_heeds {m : Machine} {k : Closure} {v : Value} (coded : Coded R m.heap) :
    (Run.yielded k v).Heeds R (fun _ => False) m fun _ _ => True := by
  unfold Run.yielded
  split
  · refine (Run.Heeds.heap coded).bind fun h m' follows _ => ?_
    split
    · exact .pure follows.coded trivial
    · exact .throw follows.coded fun _ same => nomatch same
  · exact .pure coded trivial

theorem activate_points (calls : PointingCalls R call) {k : Closure} {arguments : List Value}
    (poised : Poised R a.machine) (code : k.declaration.Coded R) :
    Sane R (activate rounds call k arguments) a := by
  obtain ⟨Γ, known⟩ := code
  have opened := poised.coded.newScope (some k.scope)
  refine (Points.sure (.change (a.machine.heap.extends_newScope (some k.scope)) opened)).bind ?_
  intro s b later made
  have alive := Heap.alive_of_newScope made
  have grown := b.machine.heap.extends_bindParameters s k.declaration.params arguments
  refine (Points.sure (.update grown (later.follows.coded.bindParameters _ _ _))).bind ?_
  intro _ c later' _
  rw [Routine.sites_eq] at known
  refine (Points.bodyValue (.within later'.follows.coded (later'.follows.grown.alive alive)
    fun d poised => executeAll_points calls _ _ true d poised known)).bind ?_
  exact fun v d later'' _ => .sure (yielded_heeds later''.follows.coded)

theorem instantiate_points (calls : PointingCalls R call) {c : ClassId} {arguments : List Value}
    (poised : Poised R a.machine) : Sane R (instantiate rounds call c arguments) a := by
  refine (Points.sure (.change (a.machine.heap.extends_newInstance c)
    (poised.coded.newInstance c))).bind fun i b later _ => ?_
  refine (Points.note later.follows.coded).bind fun _ b₂ later₂ _ => ?_
  refine (Points.sure (.heap later₂.follows.coded)).bind ?_
  rintro h b₃ later₃ ⟨rfl, -⟩
  cases found : b₂.machine.heap.findMethod c "init" with
  | none => exact .pure later₃.follows.coded trivial
  | some initializer =>
      have code := later₂.follows.coded.findMethod found
      refine (Points.sure (.change (b₃.machine.heap.extends_bindReceiver initializer i)
        (later₃.follows.coded.bindReceiver initializer i))).bind fun k b₄ later₄ made => ?_
      have same : k.declaration = initializer.declaration := by
        rw [show k = (b₃.machine.heap.bindReceiver initializer i).1 by rw [made]]
        rfl
      have poised' := later₄.follows.poised (later₃.follows.poised (later₂.follows.poised
        (later.follows.poised poised)))
      refine (activate_points calls poised' (same ▸ code)).bind fun _ b₅ later₅ _ => ?_
      exact .pure later₅.follows.coded trivial

theorem host_points (calls : PointingCalls R call) (p : Host) : ∀ a : Situation,
    Poised R a.machine → p.Quiet → Sane R (host call p) a := by
  induction p with
  | done v => exact fun a poised _ => .pure poised.coded trivial
  | raise message => exact fun a _ quiet => quiet.elim
  | call callee arguments next ih =>
      exact fun a poised quiet => (calls callee arguments a poised).bind fun v b later _ =>
        ih v b (later.follows.poised poised) (quiet v)
  | arity callee next ih =>
      intro a poised quiet
      refine (Points.sure (.heap poised.coded)).bind fun h b later _ => ?_
      refine (Points.sure (.follow later.follows.coded)).bind fun n c later' _ => ?_
      exact ih n c (later'.follows.poised (later.follows.poised poised)) (quiet n)
  | display v next ih =>
      intro a poised quiet
      refine (Points.sure (.heap poised.coded)).bind fun h b later _ => ?_
      exact ih _ b (later.follows.poised poised) (quiet _)
  | time next ih =>
      intro a poised quiet
      refine (Points.sure (.time poised.coded)).bind fun now b later _ => ?_
      exact ih now b (later.follows.poised poised) (quiet now)

end

theorem invoke_points (rounds depth : Nat) : PointingCalls R (invoke rounds depth) := by
  induction depth with
  | zero =>
      intro c arguments a poised
      exact .sure (.throw (e := .overflow) poised.coded fun _ same => nomatch same)
  | succ depth ih =>
      intro c arguments a poised
      refine (Points.sure (.heap poised.coded)).bind ?_
      rintro h b later ⟨rfl, -⟩
      have poised' := later.follows.poised poised
      cases c with
      | function f =>
          refine (Points.sure (.follow poised'.coded)).bind ?_
          rintro k c later' ⟨-, found⟩
          exact activate_points ih (later'.follows.poised poised')
            (poised.coded.functions f k found)
      | ofClass c => exact instantiate_points ih poised'
      | native n =>
          refine (Points.sure (.follow poised'.coded)).bind ?_
          rintro r c later' ⟨-, found⟩
          exact host_points ih _ c (later'.follows.poised poised')
            (poised.coded.natives n r found arguments)

theorem topStatement_points (limits : Limits) (s : Stmt Address) {Γ : Scopes}
    (poised : Poised R a.machine) (known : ∀ σ ∈ s.sites Γ false, R.sites σ) :
    Sane R (topStatement limits s) a := by
  have calls : PointingCalls R (invoke limits.rounds limits.depth) := invoke_points _ _
  cases s with
  | expression value =>
      obtain ⟨here, inner⟩ := List.forall_mem_cons.mp known
      refine .at_node poised here fun b reached => ?_
      refine (evaluate_points calls value b reached.poised (known_nodes inner)).bind ?_
      exact fun v c later _ => .pure later.follows.coded trivial
  | _ =>
      exact (execute_points calls _ Γ false a poised known).bind fun _ b later _ =>
        .pure later.follows.coded trivial

/-- A program of known code points at what fails. -/
theorem program_points (limits : Limits) {ss : List (Stmt Address)} (poised : Poised R a.machine)
    (known : ∀ σ ∈ sitesOfAll [] false ss, R.sites σ) : Sane R (program limits ss) a := by
  suffices run : ∀ (ss : List (Stmt Address)) (last : Option Value) (Γ : Scopes) (a : Situation),
      Poised R a.machine → (∀ σ ∈ sitesOfAll Γ false ss, R.sites σ) →
      Sane R (topLevel limits last ss) a from run ss none [] a poised known
  intro ss
  induction ss with
  | nil => exact fun last Γ a poised _ => .pure poised.coded trivial
  | cons s rest ih =>
      intro last Γ a poised known
      obtain ⟨first, others⟩ := List.forall_mem_append.mp known
      exact (topStatement_points limits s poised first).bind fun last' b later _ =>
        ih last' (Γ.extend s) b (later.follows.poised poised) others

end Journaled
end LoxLang
