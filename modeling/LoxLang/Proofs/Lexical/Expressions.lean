import LoxLang.Proofs.Lexical.Parallel
import LoxLang.Proofs.Running.Evaluation
/-! Expressions have the same values by addresses and by visible names. -/
namespace LoxLang
open Lexical (Environment Location Store)

/-- Code in which no local variable is assigned in its own initializer, on heaps of which
only the scopes and the code are known. -/
structure Regime.Orderly (R : Regime) : Prop where
  untyped : ¬R.typed
  apart : ∀ σ, R.sites σ → ∀ x, ¬σ.SelfAssigns x

variable {R : Regime} {d : Prop} {h : Heap} {w w' : Owners} {m : Machine} {σ : Store}
  {s : ScopeId} {Γ : Scopes} {ρ : Environment} {x : String}

namespace Alike

/-- A local name stands for the binding at its address. -/
theorem binding_local (alike : Alike R w h σ) (visible : Depicts h w (h.chain s) Γ ρ) {n : Nat}
    (finds : Γ.Finds x (some n)) :
    ∃ t b, (h.chain s)[n]? = some t ∧ t ≠ Machine.globals ∧ h.binding? t x = some b ∧
      σ.binding? ρ x = some b := by
  obtain ⟨t, l, reached, place, owned⟩ := visible.place_some finds.1.symm (finds.2 n rfl)
  obtain ⟨inner, b, bound, cell⟩ := alike.bindings.holds owned
  refine ⟨t, b, reached, inner, bound, ?_⟩
  rw [Store.binding?, place]
  exact cell

theorem binding_global (alike : Alike R w h σ) (visible : Depicts h w (h.chain s) Γ ρ)
    (finds : Γ.Finds x none) : σ.binding? ρ x = h.binding? Machine.globals x := by
  rw [Store.binding?, visible.place_none finds.1.symm, alike.bindings.global]

end Alike

namespace Parallel
variable {α β : Type} {Q : Owners → Machine → α → β → Prop}

theorem change {f : Heap → α × Heap} {g : Store → β × Store}
    (alike : Alike R w' (f m.heap).2 (g σ).2) (world : (g σ).2.world = m.world)
    (later : Later d w m w' ⟨(f m.heap).2, m.active, m.world⟩)
    (q : Q w' ⟨(f m.heap).2, m.active, m.world⟩ (f m.heap).1 (g σ).1) :
    Parallel R d Q (Run.change f) (Lexical.change g) w m σ :=
  .ok later ⟨alike, world⟩ q

theorem update {f : Heap → Heap} {g : Store → Store} (alike : Alike R w (f m.heap) (g σ))
    (world : (g σ).world = m.world) (grown : m.heap.Extends (f m.heap)) :
    Parallel R d Effect (Run.update f) (Lexical.update g) w m σ :=
  .ok ⟨grown, rfl, .refl w _⟩ ⟨alike, world⟩ trivial

/-- Both sides take the same time. -/
theorem time (beside : Beside R w m σ) :
    Parallel R d (fun _ m' x y => y = x ∧ m'.heap = m.heap) Run.time Lexical.time w m σ := by
  have same : σ.world.time = m.world.time := congrArg World.time beside.world
  exact .ok ⟨.refl m.heap, rfl, .refl w _⟩ ⟨beside.alike.setWorld _, congrArg Prod.snd same⟩
    ⟨congrArg Prod.fst same, rfl⟩

theorem lift (beside : Beside R w m σ) (token : Token) (r : Except Fault.Cause Value) :
    Parallel R d Same (Run.lift token r) (Lexical.lift token r) w m σ := by
  cases r with
  | ok v => exact pure beside rfl
  | error cause => exact fault beside cause (some token)

/-- A reference is read. -/
theorem lookUp {token : Token} {address : Address} (beside : Beside R w m σ)
    (visible : Depicts m.heap w (m.heap.chain m.active) Γ ρ)
    (finds : Γ.Finds token.lexeme address) :
    Parallel R d Same (Run.lookUp token address) (Lexical.lookUp ρ token) w m σ := by
  cases address with
  | none =>
      have global := beside.alike.binding_global visible finds
      have outermost := beside.alike.sound.inScope.outermost
      refine congr (lift beside token (m.heap.get Machine.globals token.lexeme)) rfl ?_
      simp only [Lexical.lookUp, Bind.bind, EStateM.bind, Lexical.store, global,
        Heap.get_globals outermost]
      cases m.heap.binding? Machine.globals token.lexeme <;> rfl
  | some n =>
      obtain ⟨t, b, reached, -, bound, same⟩ := beside.alike.binding_local visible finds
      have got := Heap.getAt_of_bound (Int.toNat_natCast n) reached bound
      refine congr (lift beside token (Heap.read token.lexeme b)) ?_ ?_
      · simp only [Run.lookUp, Bind.bind, EStateM.bind, Run.heap, Run.active, got]
        cases b <;> rfl
      · simp only [Lexical.lookUp, Bind.bind, EStateM.bind, Lexical.store, same]

/-- A reference is given a value. -/
theorem assign {name : Name} {address : Address} {v : Value} (orderly : R.Orderly)
    (beside : Beside R w m σ) (visible : Depicts m.heap w (m.heap.chain m.active) Γ ρ)
    (ordinary : name.Ordinary) (finds : Γ.Finds name.text address) :
    Parallel R d Effect (Run.assign name address v) (Lexical.assign ρ name v) w m σ := by
  have untyped := orderly.untyped
  have fits := ordinary.fits (some v)
  cases address with
  | none =>
      have missing := visible.place_none finds.1.symm
      have outermost := beside.alike.sound.inScope.outermost
      have binder := Heap.binder?_globals outermost name.text
      rw [beside.alike.bindings.global] at binder
      by_cases bound : (σ.globals.find? name.text).isSome = true
      · rw [if_pos bound] at binder
        have assigned : σ.assign? ρ name.text v =
            some { σ with globals := σ.globals.put name.text (some v) } := by
          rw [Store.assign?, missing]
          exact if_pos bound
        refine congr (g := Lexical.update fun _ => _)
          (update (f := (·.define Machine.globals name.text (some v)))
            (beside.alike.putGlobal untyped fits) beside.world (m.heap.extends_define _ _ _)) ?_ ?_
        · simp only [Run.assign, Run.assignFrom, Bind.bind, EStateM.bind, Run.heap, binder]
        · simp only [Lexical.assign, Bind.bind, EStateM.bind, Lexical.store, assigned]
      · rw [if_neg bound] at binder
        have failed : σ.assign? ρ name.text v = none := by
          rw [Store.assign?, missing]
          exact if_neg bound
        refine congr (fault beside (.undefinedVariable name.text) (some name.token)) ?_ ?_
        · simp only [Run.assign, Run.assignFrom, Bind.bind, EStateM.bind, Run.heap, binder]
        · simp only [Lexical.assign, Bind.bind, EStateM.bind, Lexical.store, failed]
  | some n =>
      obtain ⟨t, l, reached, place, owned⟩ := visible.place_some finds.1.symm (finds.2 n rfl)
      obtain ⟨-, b, bound, -⟩ := beside.alike.bindings.holds owned
      have found := Heap.binderAt_of_bound reached (Option.isSome_iff_exists.mpr ⟨b, bound⟩)
      have assigned : σ.assign? ρ name.text v = some (σ.write l (some v)) := by
        rw [Store.assign?, place]
      refine congr (g := Lexical.update fun _ => _)
        (update (f := (·.define t name.text (some v)))
          (beside.alike.write untyped fits owned) beside.world (m.heap.extends_define _ _ _)) ?_ ?_
      · simp only [Run.assign, Run.assignAt, Bind.bind, EStateM.bind, Run.heap, Run.active, found]
      · simp only [Lexical.assign, Bind.bind, EStateM.bind, Lexical.store, assigned]

theorem bound {k : Closure} {k' : Lexical.Closure} {i : InstanceId} (orderly : R.Orderly)
    (beside : Beside R w m σ) (like : k.LikeMethod R m.heap w k') :
    Parallel R d Same (Run.bound k i) (Lexical.bound k' i) w m σ := by
  obtain ⟨w', alike, function, grown⟩ := beside.alike.bindReceiver orderly.untyped like i
  refine (change (Q := fun w m k k' => k.LikeFunction R m.heap w k') alike beside.world
    ⟨m.heap.extends_bindReceiver k i, rfl, grown.weaken fun _ => .inl⟩ function).bind id ?_
  intro k₁ k₁' w₁ m₁ σ₁ later beside₁ like₁
  obtain ⟨number, alike₁⟩ := beside₁.alike.newFunction like₁
  refine (change (f := (·.newFunction k₁)) (g := (·.newFunction k₁')) (Q := Same) alike₁ beside₁.world
    ⟨m₁.heap.extends_newFunction k₁, rfl, .refl w₁ _⟩ number).bind id ?_
  intro f f' w₂ m₂ σ₂ _ beside₂ same
  exact pure beside₂ (congrArg (fun f => Value.callable (.function f)) same)

theorem property {i : InstanceId} {name : Name} (orderly : R.Orderly) (beside : Beside R w m σ) :
    Parallel R d Same (Run.property i name) (Lexical.property i name) w m σ := by
  have instances : σ.instance? i = m.heap.instance? i := by
    rw [Store.instance?, Heap.instance?, beside.alike.objects.instances]
  refine .read ((follow beside (rel_of_eq instances)).bind id ?_)
  rintro _ o w' m' σ' - beside' ⟨rfl, rfl, -, rfl⟩
  cases o.fields.find? name.text with
  | some v => exact pure beside' rfl
  | none =>
      have found := beside.alike.findMethod o.ofClass name.text
      generalize m'.heap.findMethod o.ofClass name.text = k,
        σ.findMethod o.ofClass name.text = k' at found
      cases found with
      | some like => exact bound orderly beside' like
      | none => exact fault beside' _ _

/-- A method of the class above, bound to the receiver. -/
theorem inheritedMethod {pos : Pos} {method : Name} {n : Nat} (orderly : R.Orderly)
    (beside : Beside R w m σ) (visible : Depicts m.heap w (m.heap.chain m.active) Γ ρ)
    (above : Γ.Finds "super" (some (n + 1))) (receiver : Γ.Finds "this" (some n)) :
    Parallel R d Same (Run.inheritedMethod pos method (some (n + 1)))
      (Lexical.inheritedMethod ρ pos method) w m σ := by
  have reserved := beside.alike.sound.inScope.reserved
  obtain ⟨s, _, reached, inner, bound_super, same⟩ := beside.alike.binding_local visible above
  obtain ⟨t, _, reached', inner', bound_this, same'⟩ := beside.alike.binding_local visible receiver
  obtain ⟨c, rfl⟩ := (reserved s "super" _ (absurd · inner) bound_super).2 rfl
  obtain ⟨i, rfl⟩ := (reserved t "this" _ (absurd · inner') bound_this).1 rfl
  have got_super := Heap.getAt_of_bound (Int.toNat_natCast (n + 1)) reached bound_super
  have got_this : m.heap.getAt m.active ((n + 1 : Nat) - 1) "this" = .ok (.object i) :=
    Heap.getAt_of_bound (by omega) reached' bound_this
  have parent : Run.lookUp (inheritedToken pos) (some (n + 1)) m =
      .ok (.callable (.ofClass c)) m := by
    simp only [Run.lookUp, Bind.bind, EStateM.bind, Run.heap, Run.active, inheritedToken, got_super]
    rfl
  have parent' : Lexical.lookUp ρ (inheritedToken pos) σ = .ok (.callable (.ofClass c)) σ := by
    simp only [Lexical.lookUp, Bind.bind, EStateM.bind, Lexical.store, inheritedToken, same]
    rfl
  have this' : Lexical.lookUp ρ (receiverToken pos) σ = .ok (.object i) σ := by
    simp only [Lexical.lookUp, Bind.bind, EStateM.bind, Lexical.store, receiverToken, same']
    rfl
  have like := beside.alike.findMethod c method.text
  generalize found : m.heap.findMethod c method.text = k,
    found' : σ.findMethod c method.text = k' at like
  cases like with
  | some like =>
      refine congr (bound (i := i) orderly beside like) ?_ ?_
      · simp only [Run.inheritedMethod, Bind.bind, EStateM.bind, Run.heap, Run.active, Run.follow,
          Pure.pure, EStateM.pure, parent, got_this, found]
      · simp only [Lexical.inheritedMethod, Bind.bind, EStateM.bind, Lexical.store, parent', this',
          found']
  | none =>
      refine congr (fault beside (.undefinedProperty method.text) (some method.token)) ?_ ?_
      · simp only [Run.inheritedMethod, Bind.bind, EStateM.bind, Run.heap, Run.active, Run.follow,
          Pure.pure, EStateM.pure, parent, got_this, found]
      · simp only [Lexical.inheritedMethod, Bind.bind, EStateM.bind, Lexical.store, parent', this',
          found']

end Parallel

/-- Whoever calls with as many arguments as are taken gets the same on both sides. -/
def Parallel.Serves (R : Regime) (call : Caller) (call' : Lexical.Caller) : Prop :=
  ∀ c arguments w m σ, Beside R w m σ → m.heap.arity? c = some arguments.length →
    Parallel R False Same (call c arguments) (call' c arguments) w m σ

section
variable {call : Caller} {call' : Lexical.Caller} {inside : Bool} {i : Option Name}

theorem Parallel.callValue {close : Pos} {callee : Value} {arguments : List Value}
    (serves : Serves R call call') (beside : Beside R w m σ) :
    Parallel R False Same (Run.callValue call close callee arguments)
      (Lexical.callValue call' close callee arguments) w m σ := by
  cases callee with
  | callable c =>
      refine .read ((follow beside (rel_of_eq (beside.alike.arity?_eq c))).bind id ?_)
      rintro _ n w' m' σ' - beside' ⟨rfl, rfl, taken, rfl⟩
      by_cases count : arguments.length = n
      · rw [if_pos count, if_pos count]
        exact serves c arguments _ _ _ beside' (by rw [taken, count])
      · rw [if_neg count, if_neg count]
        exact fault beside' _ _
  | _ => exact fault beside _ _

mutual

/-- An expression of known code has the same value, and the same effects, on both sides. -/
theorem evaluate_parallel (orderly : R.Orderly) (serves : Parallel.Serves R call call') :
    ∀ (e : Expr Address) (w : Owners) (m : Machine) (σ : Store), Beside R w m σ →
      Depicts m.heap w (m.heap.chain m.active) Γ ρ → (∀ n ∈ e.nodes, R.sites ⟨Γ, inside, i, n⟩) →
      Parallel R False Same (Run.evaluate call e) (Lexical.evaluate call' ρ e.erase) w m σ
  | .literal _ value, w, m, σ, beside, _, _ => .pure beside rfl
  | .grouping _ inner, w, m, σ, beside, visible, known =>
      evaluate_parallel orderly serves inner w m σ beside visible (List.forall_mem_cons.mp known).2
  | .var name address, w, m, σ, beside, visible, known =>
      .lookUp beside visible (R.lawful _ (known _ List.mem_cons_self))
  | .assign name value address, w, m, σ, beside, visible, known => by
      obtain ⟨-, inner, others⟩ := known_pair known
      have last : R.sites ⟨Γ, inside, i, .store name address⟩ :=
        others _ (List.mem_singleton_self _)
      obtain ⟨ordinary, nearest, finished⟩ := R.lawful _ last
      have finds : Γ.Finds name.text address := ⟨nearest, fun n found =>
        (finished n found).resolve_right (orderly.apart _ last name.text)⟩
      refine (evaluate_parallel orderly serves value w m σ beside visible inner).bind id ?_
      rintro _ v w₁ m₁ σ₁ later beside₁ rfl
      refine (Parallel.assign orderly beside₁ (later.visible visible) ordinary finds).bind id ?_
      intro _ _ w₂ m₂ σ₂ _ beside₂ _
      exact .pure beside₂ rfl
  | .unary op pos operand, w, m, σ, beside, visible, known => by
      obtain ⟨-, inner⟩ := List.forall_mem_cons.mp known
      refine (evaluate_parallel orderly serves operand w m σ beside visible inner).bind id ?_
      rintro _ v w₁ m₁ σ₁ _ beside₁ rfl
      exact .lift beside₁ _ _
  | .binary left op pos right, w, m, σ, beside, visible, known => by
      obtain ⟨-, first, second⟩ := known_pair known
      refine (evaluate_parallel orderly serves left w m σ beside visible first).bind id ?_
      rintro _ a w₁ m₁ σ₁ later beside₁ rfl
      refine (evaluate_parallel orderly serves right w₁ m₁ σ₁ beside₁ (later.visible visible)
        second).bind id ?_
      rintro _ b w₂ m₂ σ₂ _ beside₂ rfl
      exact .lift beside₂ _ _
  | .logical left op pos right, w, m, σ, beside, visible, known => by
      obtain ⟨-, first, second⟩ := known_pair known
      refine (evaluate_parallel orderly serves left w m σ beside visible first).bind id ?_
      rintro _ a w₁ m₁ σ₁ later beside₁ rfl
      have rest := evaluate_parallel orderly serves right w₁ m₁ σ₁ beside₁ (later.visible visible)
        second
      cases op with
      | and => exact .ite rest (.pure beside₁ rfl)
      | or => exact .ite (.pure beside₁ rfl) rest
  | .conditional condition thenBranch elseBranch, w, m, σ, beside, visible, known => by
      obtain ⟨-, first, branches⟩ := known_pair known
      obtain ⟨second, third⟩ := List.forall_mem_append.mp branches
      refine (evaluate_parallel orderly serves condition w m σ beside visible first).bind id ?_
      rintro _ c w₁ m₁ σ₁ later beside₁ rfl
      have visible₁ := later.visible visible
      exact .ite (evaluate_parallel orderly serves thenBranch w₁ m₁ σ₁ beside₁ visible₁ second)
        (evaluate_parallel orderly serves elseBranch w₁ m₁ σ₁ beside₁ visible₁ third)
  | .call callee close arguments, w, m, σ, beside, visible, known => by
      obtain ⟨-, first, second⟩ := known_pair known
      refine (evaluate_parallel orderly serves callee w m σ beside visible first).bind id ?_
      rintro _ f w₁ m₁ σ₁ later beside₁ rfl
      refine (evaluateAll_parallel orderly serves arguments w₁ m₁ σ₁ beside₁
        (later.visible visible) second).bind id ?_
      rintro _ vs w₂ m₂ σ₂ _ beside₂ rfl
      exact .callValue serves beside₂
  | .member object name, w, m, σ, beside, visible, known => by
      obtain ⟨-, inner⟩ := List.forall_mem_cons.mp known
      refine (evaluate_parallel orderly serves object w m σ beside visible inner).bind id ?_
      rintro _ v w₁ m₁ σ₁ _ beside₁ rfl
      cases v with
      | object j => exact .property orderly beside₁
      | _ => exact .fault beside₁ _ _
  | .assignMember object name value, w, m, σ, beside, visible, known => by
      obtain ⟨-, second, first⟩ := known_pair known
      refine (evaluate_parallel orderly serves object w m σ beside visible first).bind id ?_
      rintro _ v w₁ m₁ σ₁ later beside₁ rfl
      cases v with
      | object j =>
          refine (evaluate_parallel orderly serves value w₁ m₁ σ₁ beside₁ (later.visible visible)
            second).bind id ?_
          rintro _ v w₂ m₂ σ₂ _ beside₂ rfl
          refine (Parallel.update (beside₂.alike.setField orderly.untyped j name.text v)
            beside₂.world (m₂.heap.extends_setField j name.text v)).bind id ?_
          intro _ _ w₃ m₃ σ₃ _ beside₃ _
          exact .pure beside₃ rfl
      | _ => exact .fault beside₁ _ _
  | .receiver pos address, w, m, σ, beside, visible, known => by
      obtain ⟨n, rfl, finds⟩ := R.lawful _ (known _ List.mem_cons_self)
      exact .lookUp beside visible finds
  | .inherited pos method address, w, m, σ, beside, visible, known => by
      obtain ⟨n, rfl, above, receiver⟩ := R.lawful _ (known _ List.mem_cons_self)
      exact .inheritedMethod orderly beside visible above receiver

theorem evaluateAll_parallel (orderly : R.Orderly) (serves : Parallel.Serves R call call') :
    ∀ (es : List (Expr Address)) (w : Owners) (m : Machine) (σ : Store), Beside R w m σ →
      Depicts m.heap w (m.heap.chain m.active) Γ ρ →
      (∀ n ∈ nodesOfAll es, R.sites ⟨Γ, inside, i, n⟩) →
      Parallel R False Same (Run.evaluateAll call es) (Lexical.evaluateAll call' ρ (eraseAll es))
        w m σ
  | [], w, m, σ, beside, _, _ => .pure beside rfl
  | e :: rest, w, m, σ, beside, visible, known => by
      obtain ⟨first, second⟩ := List.forall_mem_append.mp known
      refine (evaluate_parallel orderly serves e w m σ beside visible first).bind id ?_
      rintro _ v w₁ m₁ σ₁ later beside₁ rfl
      refine (evaluateAll_parallel orderly serves rest w₁ m₁ σ₁ beside₁ (later.visible visible)
        second).bind id ?_
      rintro _ vs w₂ m₂ σ₂ _ beside₂ rfl
      exact .pure beside₂ rfl

end

end
end LoxLang
