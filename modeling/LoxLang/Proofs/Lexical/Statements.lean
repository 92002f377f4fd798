import LoxLang.Proofs.Lexical.Expressions
import LoxLang.Proofs.Running.Execution
/-! Statements have the same effects by addresses and by visible names. -/
namespace LoxLang
open Lexical (Environment Location Store)

variable {R : Regime} {d : Prop} {h : Heap} {w : Owners} {m : Machine} {σ σ' : Store}
  {s : ScopeId} {Γ Δ : Scopes} {ρ : Environment} {x : String}

theorem Lexical.Store.world_declare (σ : Store) (ρ : Environment) (x : String)
    (b : Option Value) : (σ.declare ρ x b).2.world = σ.world := by
  unfold Store.declare
  split
  · rfl
  · split <;> rfl

theorem Lexical.Store.world_assign {v : Value} (assigned : σ.assign? ρ x v = some σ') :
    σ'.world = σ.world := by
  unfold Store.assign? at assigned
  split at assigned
  · cases assigned
    rfl
  · split at assigned
    · cases assigned
      rfl
    · cases assigned

/-- The methods of a class, which all see the same names. -/
theorem methodTable_like {methods : List (Routine Address)}
    (known : ∀ r ∈ methods, r.Known R (Walk.receiverScope :: Δ))
    (visible : Depicts h w (h.chain s) Δ ρ) (x : String) :
    Option.Rel (Closure.LikeMethod R h w) ((Run.methodTable s methods).find? x)
      ((Lexical.methodTable ρ (eraseMethods methods)).find? x) := by
  unfold Run.methodTable Lexical.methodTable
  suffices each : ∀ (t : Table Closure) (t' : Table Lexical.Closure),
      Option.Rel (Closure.LikeMethod R h w) (t.find? x) (t'.find? x) →
      Option.Rel (Closure.LikeMethod R h w)
        ((methods.foldl (fun t r => t.put r.name.text ⟨r, s, r.name.text = "init"⟩) t).find? x)
        (((eraseMethods methods).foldl
          (fun t r => t.put r.name.text ⟨r, ρ, r.name.text = "init"⟩) t').find? x) from
    each Table.empty Table.empty .none
  induction methods with
  | nil => exact fun t t' like => like
  | cons r rest ih =>
      obtain ⟨here, others⟩ := List.forall_mem_cons.mp known
      intro t t' like
      refine ih others _ _ ?_
      rw [Table.find?_put, Table.find?_put, Routine.name_erase]
      split
      · exact .some ⟨Δ, here, rfl, rfl, visible⟩
      · exact like

namespace Parallel

/-- The names visible behind the declaration of `x`, among them `x`. -/
def Declared (Γ : Scopes) (x : String) (w : Owners) (m : Machine) (_ : Unit) (ρ : Environment) :
    Prop :=
  Stands w m.heap m.active (Γ.declare x) ρ ∧ (m.heap.binding? m.active x).isSome = true

theorem declare {name : Name} {b : Option Value} (orderly : R.Orderly) (beside : Beside R w m σ)
    (stands : Stands w m.heap m.active Γ ρ) (ordinary : name.Ordinary) :
    Parallel R True (Declared Γ name.text) (Run.define name.text b)
      (Lexical.change (·.declare ρ name.text b)) w m σ := by
  obtain ⟨w', alike, stands', grown⟩ :=
    beside.alike.declare orderly.untyped (ordinary.fits b) stands
  have living : m.heap.Alive m.active := stands.visible.alive_head
  have world := (σ.world_declare ρ name.text b).trans beside.world
  refine .ok ⟨m.heap.extends_define _ _ _, rfl, grown.weaken fun t here => .inr ⟨trivial, here⟩⟩
    ⟨alike, world⟩ ⟨stands', ?_⟩
  rw [Heap.binding?_define_self _ _ living]
  rfl

/-- A name just declared is given a value. -/
theorem redefine {name : Name} {v : Value} (orderly : R.Orderly) (beside : Beside R w m σ)
    (stands : Stands w m.heap s (Γ.declare name.text) ρ) (ordinary : name.Ordinary)
    (bound : (m.heap.binding? s name.text).isSome = true) :
    Parallel R d Effect (Run.assignFrom s name v) (Lexical.assign ρ name v) w m σ := by
  obtain ⟨σ', assigned, alike, -⟩ :=
    beside.alike.redefine orderly.untyped (ordinary.fits (some v)) stands bound
  have binder : m.heap.binder? s name.text = some s := by
    rw [Heap.binder?, Heap.chain, List.find?_cons, bound]
  refine congr (g := Lexical.update fun _ => σ')
    (update (f := (·.define s name.text (some v))) alike
      ((Store.world_assign assigned).trans beside.world) (m.heap.extends_define _ _ _)) ?_ ?_
  · simp only [Run.assignFrom, Bind.bind, EStateM.bind, Run.heap, binder]
  · simp only [Lexical.assign, Bind.bind, EStateM.bind, Lexical.store, assigned]

theorem declareFunction {r : Routine Address} (orderly : R.Orderly) (beside : Beside R w m σ)
    (stands : Stands w m.heap m.active Γ ρ) (ordinary : r.name.Ordinary)
    (known : r.Known R (Γ.declare r.name.text)) :
    Parallel R True (fun w' m' _ ρ' => Stands w' m'.heap m'.active (Γ.declare r.name.text) ρ')
      (do
        let f ← Run.change (·.newFunction ⟨r, (← Run.active), false⟩)
        Run.define r.name.text (some (.callable (.function f))))
      (Lexical.declareFunction ρ r.erase) w m σ := by
  obtain ⟨w', σ', assigned, alike, stands', grown⟩ :=
    beside.alike.declareFunction orderly.untyped stands ordinary known
  have world : σ'.world = m.world :=
    ((Store.world_assign assigned).trans (σ.world_declare ρ r.name.text none)).trans
      beside.world
  have same : Lexical.declareFunction ρ r.erase σ =
      .ok (σ.declare ρ r.name.text none).1 σ' := by
    simp only [Lexical.declareFunction, Bind.bind, EStateM.bind, Lexical.change, Lexical.assign,
      Lexical.store, Routine.name_erase, assigned]
    rfl
  unfold Parallel
  rw [same]
  exact .ok ⟨(m.heap.extends_newFunction _).trans (Heap.extends_define _ _ _ _), rfl,
    grown.weaken fun t here => .inr ⟨trivial, here⟩⟩ ⟨alike, world⟩ stands'

/-- A superclass is looked up before the name of the class is visible. -/
theorem superclass {parent : Superclass Address} (beside : Beside R w m σ)
    (visible : Depicts m.heap w (m.heap.chain m.active) Γ ρ)
    (finds : Γ.Finds parent.name.text parent.address) :
    Parallel R d Same (Run.superclass parent) (Lexical.superclass ρ ⟨parent.name, ()⟩) w m σ := by
  refine (lookUp (d := d) beside visible finds).bind id ?_
  rintro _ v w' m' σ' - beside' rfl
  cases v with
  | callable c =>
      cases c with
      | ofClass c => exact pure beside' rfl
      | _ => exact fault beside' _ _
  | _ => exact fault beside' _ _

/-- What the methods of a class see. -/
theorem methodScope (above : Option ClassId) (orderly : R.Orderly) (beside : Beside R w m σ)
    (visible : Depicts m.heap w (m.heap.chain m.active) Γ ρ) :
    Parallel R False (fun w' m' s ρ' => Depicts m'.heap w' (m'.heap.chain s) (Γ.above above) ρ')
      (Recorded.methodScope m.active above) (Lexical.aboveMethods ρ above) w m σ := by
  cases above with
  | none => exact pure beside visible
  | some c =>
      have fits : Fits "super" (some (.callable (.ofClass c))) :=
        ⟨fun other => absurd other (by decide), fun _ => ⟨c, rfl⟩⟩
      obtain ⟨w', alike, visible', grown⟩ := beside.alike.enclose orderly.untyped fits visible
      exact .ok ⟨(m.heap.extends_newScope _).trans (Heap.extends_define _ _ _ _), rfl,
        grown.weaken fun _ => .inl⟩ ⟨alike, beside.world⟩ visible'

theorem bindClass {name : Name} {above : Option ClassId} {methods : List (Routine Address)}
    (orderly : R.Orderly) (beside : Beside R w m σ) (stands : Stands w m.heap m.active Γ ρ)
    (ordinary : name.Ordinary) (known : ∀ r ∈ methods,
      r.Known R (Walk.receiverScope :: (Γ.declare name.text).above above)) :
    Parallel R True (fun w' m' _ ρ' => Stands w' m'.heap m'.active (Γ.declare name.text) ρ')
      (Recorded.bindClass name above methods)
      (Lexical.bindClass ρ name above (eraseMethods methods)) w m σ := by
  refine (declare orderly beside stands ordinary).bind id ?_
  rintro _ ρ₁ w₁ m₁ σ₁ - beside₁ ⟨stands₁, bound₁⟩
  have scope := methodScope above orderly beside₁ stands₁.visible
  refine congr (f := Recorded.methodScope m₁.active above >>= fun s =>
    Recorded.makeClass name above methods m₁.active s) (scope.bind False.elim ?_) rfl rfl
  intro s ρ₂ w₂ m₂ σ₂ later₂ beside₂ visible₂
  obtain ⟨number, alike₃⟩ := beside₂.alike.newClass orderly.untyped name.text above
    (methodTable_like known visible₂)
  have made : Parallel R False Same
      (Run.change (·.newClass name.text above (Run.methodTable s methods)))
      (Lexical.change (·.newClass name.text above (Lexical.methodTable ρ₂ (eraseMethods methods))))
      w₂ m₂ σ₂ :=
    change alike₃ beside₂.world ⟨m₂.heap.extends_newClass _ _ _, rfl, .refl w₂ _⟩ number
  refine made.bind False.elim ?_
  rintro _ k w₃ m₃ σ₃ later₃ beside₃ rfl
  have later := later₂.trans later₃
  have stands₃ := later.stands stands₁
  have bound₃ := later.grown.bound bound₁
  rw [later.active] at stands₃
  have assigned : Parallel R False Effect
      (Run.assignFrom m₁.active name (.callable (.ofClass k)))
      (Lexical.assign ρ₁ name (.callable (.ofClass k))) w₃ m₃ σ₃ :=
    redefine orderly beside₃ stands₃ ordinary bound₃
  rw [← later.active] at stands₃
  exact assigned.keeping stands₃

theorem print {v : Value} (beside : Beside R w m σ) (stands : Stands w m.heap m.active Γ ρ) :
    Parallel R d (fun w' m' _ ρ' => Stands w' m'.heap m'.active Γ ρ')
      (do Run.print ((← Run.heap).display v))
      (do
        Lexical.print ((← Lexical.store).display v)
        Pure.pure ρ) w m σ := by
  have world : σ.world.print (σ.display v) = m.world.print (m.heap.display v) := by
    rw [beside.world, beside.alike.display_eq]
  exact .ok ⟨.refl m.heap, rfl, .refl w _⟩ ⟨beside.alike.setWorld _, world⟩ stands

/-- The scope of a block is new. -/
theorem block {body : Run Unit} {body' : Lexical.Run Unit} (beside : Beside R w m σ)
    (stands : Stands w m.heap m.active Γ ρ)
    (inner : ∀ m', Beside R w m' σ →
      Stands w m'.heap m'.active (Table.empty :: Γ) (Table.empty :: ρ) →
      Parallel R True Effect body body' w m' σ) :
    Parallel R False Effect
      (do
        let s ← Run.change (·.newScope (some (← Run.active)))
        Run.within s body) body' w m σ := by
  have opened := Stands.newScope stands.visible beside.alike.bindings
  have run := inner ⟨(m.heap.newScope (some m.active)).2, (m.heap.newScope (some m.active)).1,
    m.world⟩ ⟨beside.alike.newScope _, beside.world⟩ opened
  exact within (n := ⟨(m.heap.newScope (some m.active)).2, m.active, m.world⟩)
    (m.heap.extends_newScope _) rfl (.refl w _) m.heap.not_alive_new run

end Parallel

section
variable {call : Caller} {call' : Lexical.Caller} {rounds : Nat}

/-- The names visible behind a statement. -/
def Behind (Γ : Scopes) (s : Stmt Address) (w : Owners) (m : Machine) (_ : Unit)
    (ρ : Environment) : Prop :=
  Stands w m.heap m.active (Γ.extend s) ρ

theorem Parallel.quiet {s : Stmt Address} {x : Run Unit} {y : Lexical.Run Environment}
    (binds : s.binds = none) (p : Parallel R (s.binds ≠ none) (Behind Γ s) x y w m σ) :
    Parallel R False Effect x y w m σ :=
  (p.loosen (absurd binds)).weaken fun _ _ _ _ _ => trivial

/-- What keeps the visible names is what a statement does that declares nothing. -/
theorem Parallel.behind {s : Stmt Address} {x : Run Unit} {y : Lexical.Run Environment}
    (binds : s.binds = none)
    (p : Parallel R False (fun w' m' _ ρ' => Stands w' m'.heap m'.active Γ ρ') x y w m σ) :
    Parallel R (s.binds ≠ none) (Behind Γ s) x y w m σ :=
  (p.loosen False.elim).weaken fun _ _ _ _ stands => by
    rw [Behind, Scopes.extend_of_binds_none binds]
    exact stands

mutual

/-- A statement of known code has the same effects on both sides, and behind it the same
names are visible. -/
theorem execute_parallel (orderly : R.Orderly) (serves : Parallel.Serves R call call') :
    ∀ (s : Stmt Address) (Γ : Scopes) (ρ : Environment) (inside : Bool) (w : Owners) (m : Machine)
      (σ : Store), Beside R w m σ → Stands w m.heap m.active Γ ρ →
      (∀ σ ∈ s.sites Γ inside, R.sites σ) →
      Parallel R (s.binds ≠ none) (Behind Γ s) (Run.execute rounds call s)
        (Lexical.execute rounds call' ρ s.erase) w m σ
  | .expression value, Γ, ρ, inside, w, m, σ, beside, stands, known => by
      obtain ⟨-, inner⟩ := List.forall_mem_cons.mp known
      have visible := stands.visible
      refine (evaluate_parallel orderly serves value w m σ beside visible
        (known_nodes inner)).bind False.elim ?_
      intro _ _ w₁ m₁ σ₁ later beside₁ _
      exact .pure beside₁ (later.stands stands)
  | .print line value, Γ, ρ, inside, w, m, σ, beside, stands, known => by
      obtain ⟨-, inner⟩ := List.forall_mem_cons.mp known
      refine (evaluate_parallel orderly serves value w m σ beside stands.visible
        (known_nodes inner)).bind False.elim ?_
      rintro _ v w₁ m₁ σ₁ later beside₁ rfl
      exact .print beside₁ (later.stands stands)
  | .var name none, Γ, ρ, inside, w, m, σ, beside, stands, known => by
      have here := known _ List.mem_cons_self
      refine ((Parallel.declare orderly beside stands (R.lawful _ here)).loosen ?_).weaken ?_
      · exact fun _ => by simp [Stmt.binds]
      · exact fun _ _ _ _ declared => declared.1
  | .var name (some value), Γ, ρ, inside, w, m, σ, beside, stands, known => by
      obtain ⟨here, inner⟩ := List.forall_mem_cons.mp known
      refine (evaluate_parallel orderly serves value w m σ beside
        (stands.visible.enter name.text) (known_nodes inner)).bind False.elim ?_
      rintro _ v w₁ m₁ σ₁ later beside₁ rfl
      refine ((Parallel.declare orderly beside₁ (later.stands stands)
        (R.lawful _ here)).loosen ?_).weaken ?_
      · exact fun _ => by simp [Stmt.binds]
      · exact fun _ _ _ _ declared => declared.1
  | .block line body, Γ, ρ, inside, w, m, σ, beside, stands, known => by
      obtain ⟨-, inner⟩ := List.forall_mem_cons.mp known
      refine .behind rfl (.keeping (.block beside stands ?_) stands)
      intro m' beside' stands'
      exact executeAll_parallel orderly serves body _ _ inside w m' σ beside' stands' inner
  | .ifThen line condition thenBranch, Γ, ρ, inside, w, m, σ, beside, stands, known => by
      obtain ⟨here, inner⟩ := List.forall_mem_cons.mp known
      obtain ⟨first, second⟩ := List.forall_mem_append.mp inner
      have binds : thenBranch.binds = none := R.lawful _ here
      refine .behind rfl ((evaluate_parallel orderly serves condition w m σ beside stands.visible
        (known_nodes first)).bind id ?_)
      rintro _ c w₁ m₁ σ₁ later beside₁ rfl
      have stands₁ := later.stands stands
      refine .ite ?_ (.pure beside₁ stands₁)
      exact .keeping (.quiet binds (execute_parallel orderly serves thenBranch Γ ρ inside w₁ m₁ σ₁
        beside₁ stands₁ second)) stands₁
  | .ifElse line condition thenBranch elseBranch, Γ, ρ, inside, w, m, σ, beside, stands, known => by
      obtain ⟨here, inner⟩ := List.forall_mem_cons.mp known
      obtain ⟨first, branches⟩ := List.forall_mem_append.mp inner
      obtain ⟨second, third⟩ := List.forall_mem_append.mp branches
      obtain ⟨binds, binds'⟩ := R.lawful _ here
      refine .behind rfl ((evaluate_parallel orderly serves condition w m σ beside stands.visible
        (known_nodes first)).bind id ?_)
      rintro _ c w₁ m₁ σ₁ later beside₁ rfl
      have stands₁ := later.stands stands
      refine .ite ?_ ?_
      · exact .keeping (.quiet binds (execute_parallel orderly serves thenBranch Γ ρ inside w₁ m₁ σ₁
          beside₁ stands₁ second)) stands₁
      · exact .keeping (.quiet binds' (execute_parallel orderly serves elseBranch Γ ρ inside w₁ m₁ σ₁
          beside₁ stands₁ third)) stands₁
  | .loop line condition body, Γ, ρ, inside, w, m, σ, beside, stands, known => by
      obtain ⟨here, inner⟩ := List.forall_mem_cons.mp known
      obtain ⟨first, second⟩ := List.forall_mem_append.mp inner
      have binds : body.binds = none := R.lawful _ here
      refine .behind rfl (.keeping (.repeatWhile ?_ rounds w m σ beside stands) stands)
      intro w₁ m₁ σ₁ beside₁ stands₁
      refine (evaluate_parallel orderly serves condition w₁ m₁ σ₁ beside₁ stands₁.visible
        (known_nodes first)).bind id ?_
      rintro _ c w₂ m₂ σ₂ later beside₂ rfl
      refine .ite ?_ (.pure beside₂ rfl)
      refine (Parallel.quiet binds (execute_parallel orderly serves body Γ ρ inside w₂ m₂ σ₂ beside₂
        (later.stands stands₁) second)).bind id ?_
      intro _ _ w₃ m₃ σ₃ _ beside₃ _
      exact .pure beside₃ rfl
  | .function declaration, Γ, ρ, inside, w, m, σ, beside, stands, known => by
      obtain ⟨here, inner⟩ := List.forall_mem_cons.mp known
      obtain ⟨ordinary, params⟩ := R.lawful _ here
      refine (Parallel.declareFunction orderly beside stands ordinary ⟨inner, params⟩).loosen ?_
      exact fun _ => by simp [Stmt.binds]
  | .classDecl name none methods, Γ, ρ, inside, w, m, σ, beside, stands, known => by
      obtain ⟨here, inner⟩ := List.forall_mem_cons.mp known
      obtain ⟨ordinary, params⟩ := R.lawful _ here
      have declared : Parallel R True
          (fun w' m' _ ρ' => Stands w' m'.heap m'.active (Γ.declare name.text) ρ')
          (Recorded.bindClass name none methods)
          (Lexical.bindClass ρ name none (eraseMethods methods)) w m σ :=
        .bindClass orderly beside stands ordinary (.of_methods inner params)
      exact (declared.congr rfl rfl).loosen fun _ => by simp [Stmt.binds]
  | .classDecl name (some parent) methods, Γ, ρ, inside, w, m, σ, beside, stands, known => by
      obtain ⟨here, others⟩ := List.forall_mem_cons.mp known
      obtain ⟨above, inner⟩ := List.forall_mem_cons.mp others
      obtain ⟨ordinary, params⟩ := R.lawful _ here
      obtain ⟨other, nearest, finished⟩ := R.lawful _ above
      have finds : Γ.Finds parent.name.text parent.address :=
        ⟨nearest.trans (Scopes.locate_declare other), fun n found =>
          (finished n found).of_declare fun both => other both.2⟩
      have whole : Parallel R True
          (fun w' m' _ ρ' => Stands w' m'.heap m'.active (Γ.declare name.text) ρ')
          (Run.superclass parent >>= fun c => Recorded.bindClass name (some c) methods)
          (Lexical.superclass ρ ⟨parent.name, ()⟩ >>= fun c =>
            Lexical.bindClass ρ name (some c) (eraseMethods methods)) w m σ := by
        refine (Parallel.superclass (d := False) beside stands.visible finds).bind False.elim ?_
        rintro _ c w₁ m₁ σ₁ later beside₁ rfl
        exact .bindClass orderly beside₁ (later.stands stands) ordinary (.of_methods inner params)
      refine (whole.congr ?_ rfl).loosen fun _ => by simp [Stmt.binds]
      rw [← Recorded.declareClass_some]
      rfl
  | .ret pos none, _, _, _, w, m, σ, beside, _, _ => .stop beside
  | .ret pos (some value), Γ, ρ, inside, w, m, σ, beside, stands, known => by
      obtain ⟨-, inner⟩ := List.forall_mem_cons.mp known
      refine (evaluate_parallel orderly serves value w m σ beside stands.visible
        (known_nodes inner)).bind False.elim ?_
      rintro _ v w₁ m₁ σ₁ _ beside₁ rfl
      exact .stop beside₁

theorem executeAll_parallel (orderly : R.Orderly) (serves : Parallel.Serves R call call') :
    ∀ (ss : List (Stmt Address)) (Γ : Scopes) (ρ : Environment) (inside : Bool) (w : Owners)
      (m : Machine) (σ : Store), Beside R w m σ → Stands w m.heap m.active Γ ρ →
      (∀ σ ∈ sitesOfAll Γ inside ss, R.sites σ) →
      Parallel R True Effect (Run.executeAll rounds call ss)
        (Lexical.executeAll rounds call' ρ (eraseBody ss)) w m σ
  | [], _, _, _, _, _, _, beside, _, _ => .pure beside trivial
  | s :: rest, Γ, ρ, inside, w, m, σ, beside, stands, known => by
      obtain ⟨first, others⟩ := List.forall_mem_append.mp known
      refine (execute_parallel orderly serves s Γ ρ inside w m σ beside stands first).bind
        (fun _ => trivial) ?_
      intro _ ρ₁ w₁ m₁ σ₁ _ beside₁ stands₁
      exact executeAll_parallel orderly serves rest _ ρ₁ inside w₁ m₁ σ₁ beside₁ stands₁ others

end

end
end LoxLang
