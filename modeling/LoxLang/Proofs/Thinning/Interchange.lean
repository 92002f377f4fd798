import LoxLang.Proofs.Running.Calls
import LoxLang.Proofs.Running.Restoring
import LoxLang.Proofs.Thinning.Runs
/-! Two computations from one machine. Where the second one does without some scopes that the first
one makes, nothing that runs later can tell which of them ran. -/
namespace LoxLang

/-- Every scope of a heap is its own counterpart. -/
def Pairing.same (h : Heap) : Pairing := fun s => if (h.scope? s).isSome then some s else none

/-- The machines left by two computations from `m` hold the same. -/
structure Machine.Same (m l r : Machine) : Prop where
  active : r.active = l.active
  world : r.world = l.world
  /-- Every variable that there was. -/
  bindings : ∀ s, m.heap.Alive s → ∀ x, r.heap.binding? s x = l.heap.binding? s x
  /-- Every object, with its fields. -/
  instances : r.heap.instances = l.heap.instances
  arity : ∀ c, r.heap.arity? c = l.heap.arity? c
  display : ∀ v, r.heap.display v = l.heap.display v

namespace Run

/-- Two computations from `m` both end normally or both break off, and leave the same. -/
inductive Coincide (E : Exit → Exit → Prop) (m : Machine) :
    EStateM.Result Exit Machine Unit → EStateM.Result Exit Machine Unit → Prop
  | ok {l r : Machine} : m.Same l r → Coincide E m (.ok () l) (.ok () r)
  | error {e e' : Exit} {l r : Machine} : E e e' → m.Same l r →
    Coincide E m (.error e l) (.error e' r)

/-- Two computations from `m` end the same, and so does whatever runs after them in a scope that
there was: calls of what they made, too. -/
structure Interchangeable (m : Machine) (x y : Run Unit) : Prop where
  ends : Coincide Eq m (x m) (y m)
  later : ∀ limit depth s ss, (∀ t ∈ m.heap.chain s, m.heap.Alive t) →
    Coincide Exit.Alike m (within s (executeAll limit (invoke limit depth) ss) (x.leaves m))
      (within s (executeAll limit (invoke limit depth) ss) (y.leaves m))

end Run

variable {R : Regime} {h : Heap} {m : Machine} {s : ScopeId} {ts : List ScopeId} {Γ : Scopes}

theorem Pairing.same_alive (alive : h.Alive s) : Pairing.same h s = some s := if_pos alive

theorem Mirrors.all_alive (mirrors : Mirrors h ts Γ) : ∀ t ∈ ts, h.Alive t := by
  induction mirrors with
  | globals alive => exact List.forall_mem_singleton.mpr alive
  | cons _ alive _ _ ih => exact List.forall_mem_cons.mpr ⟨alive, ih⟩

namespace Heap

theorem opposite_same (alive : ∀ t ∈ h.chain s, h.Alive t) :
    h.Opposite (Pairing.same h) h s s := by
  refine ⟨alive, alive s List.mem_cons_self, ?_⟩
  rw [List.filterMap_congr fun t member => Pairing.same_alive (alive t member), List.filterMap_some]

theorem allKept_same (alive : ∀ t ∈ h.chain s, h.Alive t) :
    AllKept (h.kept (Pairing.same h) s) := by
  refine List.forall_mem_map.mpr fun t member => ?_
  rw [Pairing.same_alive (alive t member)]
  rfl

end Heap

theorem Closure.thins_same {k : Closure} (alive : ∀ t ∈ h.chain k.scope, h.Alive t)
    {inner : List Bool} (all : AllKept inner) : k.Thins (Pairing.same h) h h inner k := by
  have whole : AllKept (inner ++ h.kept (Pairing.same h) k.scope) :=
    List.forall_mem_append.mpr ⟨all, Heap.allKept_same alive⟩
  exact ⟨Heap.opposite_same alive, .refl whole _, rfl, fun _ => .refl whole⟩

/-- With nothing left out, a sound heap is itself. -/
theorem Heap.thins_same (sound : Scoped R h) : h.Thins (Pairing.same h) h := by
  have found {s t : ScopeId} (paired : Pairing.same h s = some t) : h.Alive s ∧ s = t := by
    unfold Pairing.same at paired
    split at paired
    · next alive => exact ⟨alive, Option.some.inj paired⟩
    · cases paired
  refine ⟨⟨fun s t paired => ?_, fun s k here none => ?_, fun s t u first second => ?_,
    fun u alive => ⟨u, Pairing.same_alive alive⟩⟩, Pairing.same_alive sound.globals,
    sound.outermost, opposite_same ?_, fun f => ?_, fun c => ?_, rfl, rfl⟩
  · obtain ⟨alive, rfl⟩ := found paired
    obtain ⟨k, here⟩ := Option.isSome_iff_exists.mp alive
    exact ⟨k, k, here, here, rfl⟩
  · rw [Pairing.same, here] at none
    cases none
  · exact (found first).2.trans (found second).2.symm
  · rw [sound.outermost]
    exact List.forall_mem_singleton.mpr sound.globals
  · cases here : h.function? f with
    | none => exact .none
    | some k =>
        obtain ⟨Γ, -, mirrors, -⟩ := sound.functions f k here
        exact .some (Closure.thins_same mirrors.all_alive fun _ member => by cases member)
  · cases here : h.class? c with
    | none => exact .none
    | some k =>
        refine .some ⟨rfl, rfl, fun x => ?_⟩
        cases named : k.methods.find? x with
        | none => exact .none
        | some method =>
            obtain ⟨Γ, -, mirrors⟩ := sound.methods c k here x method named
            exact .some (Closure.thins_same mirrors.all_alive
              (List.forall_mem_singleton.mpr rfl))

namespace Twin
variable {T : Twin}

/-- A machine and itself. -/
def itself (m : Machine) : Twin := ⟨Pairing.same m.heap, m, m⟩

theorem view_itself (sound : Scoped R m.heap)
    (alive : ∀ t ∈ m.heap.chain m.active, m.heap.Alive t) :
    (itself m).View (m.heap.kept (Pairing.same m.heap) m.active) :=
  ⟨⟨Heap.thins_same sound, rfl⟩, Heap.opposite_same alive, rfl⟩

theorem Later.same (later : (itself m).Later T) (thins : T.Thins) : m.Same T.left T.right := by
  refine ⟨later.active'.trans later.active.symm, thins.world, fun s alive x => ?_,
    thins.heap.instances, thins.heap.arity?, thins.heap.display⟩
  exact thins.heap.toPaired.binding? ((later.pairing s alive).trans (Pairing.same_alive alive)) x

/-- Whatever runs on both machines in a scope that there was does the same. -/
theorem Later.after (later : (itself m).Later T) (thins : T.Thins)
    (alive : ∀ t ∈ m.heap.chain s, m.heap.Alive t) (limit depth : Nat) (ss : List (Stmt Address)) :
    Run.Coincide Exit.Alike m
      (Run.within s (Run.executeAll limit (Run.invoke limit depth) ss) T.left)
      (Run.within s (Run.executeAll limit (Run.invoke limit depth) ss) T.right) := by
  have opposite := Heap.opposite_same alive
  have view : (T.entering s s).View (m.heap.kept (Pairing.same m.heap) s) :=
    ⟨thins.entering s s, later.opposite opposite, later.kept opposite⟩
  have inside : Run.Thins Equals (Run.executeAll limit (Run.invoke limit depth) ss)
      (Run.executeAll limit (Run.invoke limit depth) ss) (T.entering s s) :=
    Run.executeAll_thins (Run.invoke_thins limit depth) (.refl (Heap.allKept_same alive) ss) _ view
  have run := inside.within
  unfold Run.Thins at run
  generalize Run.within s _ T.left = r, Run.within s _ T.right = r' at run ⊢
  cases run with
  | ok later' thins' _ => exact .ok ((later.trans later').same thins')
  | error later' thins' alike => exact .error alike ((later.trans later').same thins')

end Twin

/-- A reference that a run in order cannot find counts no scopes. -/
theorem Exit.Alike.eq_of_allowed {e e' : Exit} {b : Bool} {vs : List Visit} (alike : e.Alike e')
    (allowed : e.Allowed R b vs h) : e = e' := by
  cases alike with
  | same => rfl
  | unbound alike =>
      obtain ⟨v, x, -, -, rfl⟩ := allowed
      cases alike with
      | notBound _ zero => rw [zero rfl]

/-- What does the same without some scopes is as good. -/
theorem Run.interchangeable_of_thins {x y : Run Unit}
    (thins : Run.Thins Twin.Equals x y (Twin.itself m))
    (exits : ∀ e n, x m = .error e n → ∃ b vs, e.Allowed R b vs n.heap) :
    Run.Interchangeable m x y := by
  unfold Run.Thins at thins
  change (Twin.itself m).Ends Twin.Equals (x m) (y m) at thins
  constructor
  · generalize left : x m = r, y m = r' at thins
    cases thins with
    | ok later thins _ => exact .ok (later.same thins)
    | error later thins alike =>
        obtain ⟨b, vs, allowed⟩ := exits _ _ left
        exact .error (alike.eq_of_allowed allowed) (later.same thins)
  · intro limit depth s ss alive
    unfold Run.leaves
    generalize x m = r, y m = r' at thins
    cases thins with
    | ok later thins _ => exact later.after thins alive limit depth ss
    | error later thins _ => exact later.after thins alive limit depth ss

end LoxLang
