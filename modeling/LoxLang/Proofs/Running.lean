import LoxLang.Proofs.Heap.Steps
import LoxLang.Proofs.Recording
/-! Rules for recorded runs of known code. A run that starts on a sound heap comes only by nodes
whose scopes are those around the machine, keeps the heap sound, and ends in few ways. -/
namespace LoxLang

/-- The superclass of a class is evaluated before the name of that class is bound. -/
def Site.Awaits (σ : Site) (d : Nat) (x : String) : Prop :=
  d = 0 ∧ ∃ name parent, σ.node = .superclass name parent ∧ x = name.text

/-- The scopes around a machine are those of a site: one for each local scope, then the global
one, and every name whose declaration is finished is bound where the site has it. -/
structure Site.Around (σ : Site) (m : Machine) : Prop where
  depth : (m.heap.chain m.active).length = σ.scopes.length + 1
  outermost : (m.heap.chain m.active)[σ.scopes.length]? = some Machine.globals
  inner : ∀ d, d < σ.scopes.length →
    ∃ t, (m.heap.chain m.active)[d]? = some t ∧ t ≠ Machine.globals ∧ m.heap.Alive t
  names : ∀ d x, σ.scopes.Holds d x → ¬σ.Awaits d x →
    ∃ t, (m.heap.chain m.active)[d]? = some t ∧ (m.heap.binding? t x).isSome = true

/-- A run comes by a node of known code, in the scopes of one of its sites. -/
structure Visit.InOrder (R : Regime) (v : Visit) : Prop where
  sound : Sound R v.machine.heap
  site : ∃ σ, R.sites σ ∧ σ.node = v.node ∧ σ.Around v.machine

/-- A run comes by a store to a variable in its own initializer, whose scope does not hold the
variable yet. -/
def Visit.Misses (R : Regime) (v : Visit) (x : String) : Prop :=
  (∃ σ, R.sites σ ∧ σ.node = v.node ∧ σ.Around v.machine ∧ σ.SelfAssigns x) ∧
    v.machine.heap.binding? v.machine.active x = none

/-- How a run can end before it has a value: `inside` says whether a call is around it. -/
def Exit.Allowed (R : Regime) (inside : Bool) (visits : List Visit) (h : Heap) : Exit → Prop
  | .returned v => inside = true ∧ (R.typed → h.Valid v)
  | .unbound u => ∃ v x, visits.getLast? = some v ∧ v.Misses R x ∧ u = .notBound x 0
  | .illFormed => ¬R.typed
  | .fault _ | .overflow | .endless => True

/-- What holds between the machines before and after a run, whichever way that ends. -/
structure After (R : Regime) (m m' : Machine) : Prop where
  grown : m.heap.Extends m'.heap
  active : m'.active = m.active
  sound : Sound R m'.heap

/-- A recorded computation is in order from a machine on, and ends with what `Q` says. -/
structure Meets {α : Type} (R : Regime) (inside : Bool) (x : Recorded α) (m : Machine)
    (Q : α → Heap → Prop) : Prop where
  seen : ∀ v ∈ (x m).visits, v.InOrder R
  ok : ∀ a m', (x m).result = .ok a m' → After R m m' ∧ Q a m'.heap
  error : ∀ e m', (x m).result = .error e m' →
    After R m m' ∧ e.Allowed R inside (x m).visits m'.heap

/-- What a computation of a value ends with. -/
def Yields (R : Regime) (v : Value) (h : Heap) : Prop := R.typed → h.Valid v

variable {α β : Type} {R : Regime} {b : Bool} {m m' m'' : Machine} {Γ : Scopes}

theorem After.refl (sound : Sound R m.heap) : After R m m := ⟨.refl m.heap, rfl, sound⟩

theorem After.trans (a : After R m m') (a' : After R m' m'') : After R m m'' :=
  ⟨a.grown.trans a'.grown, a'.active.trans a.active, a'.sound⟩

/-- The scopes around the machine stay what they are. -/
theorem After.mirrors (a : After R m m') (mirrors : Mirrors m.heap (m.heap.chain m.active) Γ) :
    Mirrors m'.heap (m'.heap.chain m'.active) Γ := by
  rw [a.active]
  exact mirrors.later a.grown

/-- What a run comes by last is not changed by what it came by before. -/
theorem Exit.Allowed.more {e : Exit} {vs : List Visit} {h : Heap} (before : List Visit)
    (allowed : e.Allowed R b vs h) : e.Allowed R b (before ++ vs) h := by
  cases e with
  | unbound u =>
      obtain ⟨v, x, last, rest⟩ := allowed
      exact ⟨v, x, by rw [List.getLast?_append, last, Option.some_or], rest⟩
  | _ => exact allowed

/-- Exits that are in order outside of a call are in order inside of one. -/
theorem Exit.Allowed.inside {e : Exit} {vs : List Visit} {h : Heap}
    (allowed : e.Allowed R false vs h) : e.Allowed R b vs h := by
  cases e with
  | returned v => exact absurd allowed.1 (by simp)
  | _ => exact allowed

/-- Scopes that mirror those of a site are around the machine. -/
theorem Mirrors.around {σ : Site} (mirrors : Mirrors m.heap (m.heap.chain m.active) σ.scopes) :
    σ.Around m := by
  refine ⟨mirrors.length, mirrors.outermost, fun d hd => mirrors.inner hd, fun d x held _ => ?_⟩
  obtain ⟨t, found, -, bound⟩ := mirrors.holds held
  exact ⟨t, found, bound⟩

theorem Visit.InOrder.of_mirrors {σ : Site} (sound : Sound R m.heap) (known : R.sites σ)
    (mirrors : Mirrors m.heap (m.heap.chain m.active) σ.scopes) : Visit.InOrder R ⟨σ.node, m⟩ :=
  ⟨sound, σ, known, rfl, mirrors.around⟩

/-- What a declaration of `x` adds to the scopes is `x`. -/
theorem Scopes.Holds.of_declare {d : Nat} {x y : String} (held : (Γ.declare x).Holds d y)
    (other : ¬(d = 0 ∧ y = x)) : Γ.Holds d y := by
  obtain ⟨g, found, finished⟩ := held
  cases Γ with
  | nil => cases found
  | cons k Γ =>
      cases d with
      | zero =>
          obtain rfl := Option.some.inj found
          have named : ¬y = x := fun same => other ⟨rfl, same⟩
          rw [Table.find?_put, Table.find?_put, if_neg named, if_neg named] at finished
          exact ⟨k, rfl, finished⟩
      | succ d => exact ⟨g, found, finished⟩

/-- Around a superclass all names are bound but that of the class. -/
theorem Mirrors.around_superclass {name : Name} {parent : Superclass Address} {i : Option Name}
    (mirrors : Mirrors m.heap (m.heap.chain m.active) Γ) :
    (Site.mk (Γ.declare name.text) b i (.superclass name parent)).Around m := by
  have same : (Γ.declare name.text).length = Γ.length := by cases Γ <;> rfl
  refine ⟨?_, ?_, fun d hd => ?_, fun d x held awaits => ?_⟩
  · simp only [same, mirrors.length]
  · simp only [same, mirrors.outermost]
  · exact mirrors.inner (by simpa only [same] using hd)
  · have other : ¬(d = 0 ∧ x = name.text) := fun both =>
      awaits ⟨both.1, name, parent, rfl, both.2⟩
    obtain ⟨t, found, -, bound⟩ := mirrors.holds (held.of_declare other)
    exact ⟨t, found, bound⟩

namespace Meets
variable {Q Q' : α → Heap → Prop} {x : Recorded α}

/-! Rules. -/

theorem pure {a : α} (sound : Sound R m.heap) (q : Q a m.heap) :
    Meets R b (Pure.pure a : Recorded α) m Q := by
  refine ⟨fun v member => ?_, fun a' m' same => ?_, fun e m' same => ?_⟩
  · cases member
  · cases same
    exact ⟨.refl sound, q⟩
  · cases same

theorem silent_ok {x : Run α} {a : α} {n : Machine} (same : x m = .ok a n) (after : After R m n)
    (q : Q a n.heap) : Meets R b (Recorded.silent x) m Q := by
  refine ⟨fun v member => ?_, fun a' m'' other => ?_, fun e m'' other => ?_⟩
  · cases member
  · cases same.symm.trans other
    exact ⟨after, q⟩
  · cases same.symm.trans other

theorem silent_error {x : Run α} {e : Exit} {n : Machine} (same : x m = .error e n)
    (after : After R m n) (allowed : e.Allowed R b [] n.heap) :
    Meets R b (Recorded.silent x) m Q := by
  refine ⟨fun v member => ?_, fun a m'' other => ?_, fun e' m'' other => ?_⟩
  · cases member
  · cases same.symm.trans other
  · cases same.symm.trans other
    exact ⟨after, allowed⟩

theorem update {f : Heap → Heap} (grown : m.heap.Extends (f m.heap)) (sound : Sound R (f m.heap)) :
    Meets R b (Recorded.silent (Run.update f)) m fun _ h => h = f m.heap :=
  silent_ok (n := ⟨f m.heap, m.active, m.world⟩) rfl ⟨grown, rfl, sound⟩ rfl

theorem change {f : Heap → α × Heap} (grown : m.heap.Extends (f m.heap).2)
    (sound : Sound R (f m.heap).2) :
    Meets R b (Recorded.silent (Run.change f)) m fun a h => f m.heap = (a, h) :=
  silent_ok (n := ⟨(f m.heap).2, m.active, m.world⟩) rfl ⟨grown, rfl, sound⟩ rfl

theorem heap (sound : Sound R m.heap) :
    Meets R b (Recorded.silent Run.heap) m fun h h' => h = m.heap ∧ h' = m.heap :=
  silent_ok (n := m) rfl (.refl sound) ⟨rfl, rfl⟩

theorem time (sound : Sound R m.heap) :
    Meets R b (Recorded.silent Run.time) m fun _ h => h = m.heap :=
  silent_ok (n := ⟨m.heap, m.active, m.world.time.2⟩) rfl ⟨.refl m.heap, rfl, sound⟩ rfl

/-- Computations that do the same from a machine on are in order together. -/
theorem silent_congr {x y : Run α} (same : x m = y m) (meets : Meets R b (Recorded.silent y) m Q) :
    Meets R b (Recorded.silent x) m Q := by
  have whole : Recorded.silent x m = Recorded.silent y m := by simp only [Recorded.silent, same]
  refine ⟨?_, ?_, ?_⟩ <;> rw [whole]
  · exact meets.seen
  · exact meets.ok
  · exact meets.error

theorem bind {P : α → Heap → Prop} {f : α → Recorded β} {Q : β → Heap → Prop}
    (first : Meets R b x m P)
    (second : ∀ a m', After R m m' → P a m'.heap → Meets R b (f a) m' Q) :
    Meets R b (x >>= f) m Q := by
  cases whole : x m with
  | mk result visits =>
      have seen := first.seen
      rw [whole] at seen
      cases result with
      | error e m' =>
          have here : (x >>= f) m = ⟨.error e m', visits⟩ := by simp only [Bind.bind, whole]
          obtain ⟨after, allowed⟩ := first.error e m' (by rw [whole])
          rw [whole] at allowed
          refine ⟨?_, fun a m'' same => ?_, fun e' m'' same => ?_⟩
          · rw [here]
            exact seen
          · rw [here] at same
            cases same
          · rw [here] at same ⊢
            cases same
            exact ⟨after, allowed⟩
      | ok a m' =>
          have here : (x >>= f) m = ⟨(f a m').result, visits ++ (f a m').visits⟩ := by
            simp only [Bind.bind, whole]
          obtain ⟨after, p⟩ := first.ok a m' (by rw [whole])
          have rest := second a m' after p
          refine ⟨?_, fun a' m'' same => ?_, fun e m'' same => ?_⟩
          · rw [here]
            exact List.forall_mem_append.mpr ⟨seen, rest.seen⟩
          · rw [here] at same
            obtain ⟨after', q⟩ := rest.ok a' m'' same
            exact ⟨after.trans after', q⟩
          · rw [here] at same ⊢
            obtain ⟨after', allowed⟩ := rest.error e m'' same
            exact ⟨after.trans after', allowed.more visits⟩

theorem ite {p : Prop} [Decidable p] {y : Recorded α} (whether : Meets R b x m Q)
    (otherwise : Meets R b y m Q) : Meets R b (if p then x else y) m Q := by
  split
  · exact whether
  · exact otherwise

/-- A node that is noted, and what follows. -/
theorem visit {n : Node} {f : Unit → Recorded β} {Q : β → Heap → Prop}
    (here : Visit.InOrder R ⟨n, m⟩) (rest : Meets R b (f ()) m Q) :
    Meets R b (Recorded.visit n >>= f) m Q := by
  refine ⟨?_, rest.ok, fun e m' same => ?_⟩
  · exact List.forall_mem_cons.mpr ⟨here, rest.seen⟩
  · obtain ⟨after, allowed⟩ := rest.error e m' same
    exact ⟨after, allowed.more [_]⟩

/-- A node that is noted, at which the run breaks off. -/
theorem visit_stop {n : Node} {f : Unit → Recorded β} {Q : β → Heap → Prop} {e : Exit}
    (here : Visit.InOrder R ⟨n, m⟩) (same : f () m = ⟨.error e m, []⟩)
    (allowed : e.Allowed R b [⟨n, m⟩] m.heap) : Meets R b (Recorded.visit n >>= f) m Q := by
  have whole : (Recorded.visit n >>= f) m = ⟨.error e m, [⟨n, m⟩]⟩ := by
    simp only [Bind.bind, Recorded.visit, same, List.append_nil]
  refine ⟨?_, ?_, ?_⟩ <;> rw [whole]
  · exact List.forall_mem_singleton.mpr here
  · intro a m' other
    cases other
  · intro e' m' other
    cases other
    exact ⟨.refl here.sound, allowed⟩

/-- A reference is followed. -/
theorem follow {f : Heap → Option α} (sound : Sound R m.heap)
    (leads : R.typed → (f m.heap).isSome = true) :
    Meets R b (Recorded.silent (do Run.follow (f (← Run.heap)))) m fun a h =>
      h = m.heap ∧ f h = some a := by
  cases found : f m.heap with
  | some a =>
      refine silent_ok (n := m) (a := a) ?_ (.refl sound) ⟨rfl, found⟩
      simp only [Bind.bind, EStateM.bind, Run.heap, found]
      rfl
  | none =>
      refine silent_error (n := m) (e := .illFormed) ?_ (.refl sound) fun t => ?_
      · simp only [Bind.bind, EStateM.bind, Run.heap, found]
        rfl
      · have some := leads t
        rw [found] at some
        cases some

theorem weaken (meets : Meets R b x m Q) (imp : ∀ a h, Q a h → Q' a h) : Meets R b x m Q' :=
  ⟨meets.seen, fun a m' same => ⟨(meets.ok a m' same).1, imp a _ (meets.ok a m' same).2⟩,
    meets.error⟩

theorem inside (meets : Meets R false x m Q) : Meets R b x m Q :=
  ⟨meets.seen, meets.ok, fun e m' same =>
    ⟨(meets.error e m' same).1, (meets.error e m' same).2.inside⟩⟩

/-- A computation in another scope ends in the scope in which it began. -/
theorem within {s : ScopeId} (meets : Meets R b x { m with active := s } Q) :
    Meets R b (Recorded.within s x) m Q := by
  refine ⟨meets.seen, fun a m' same => ?_, fun e m' same => ?_⟩
  · simp only [Recorded.within, Run.within, Recorded.forget] at same
    split at same
    · next found =>
        cases same
        obtain ⟨after, q⟩ := meets.ok _ _ found
        exact ⟨⟨after.grown, rfl, after.sound⟩, q⟩
    · cases same
  · simp only [Recorded.within, Run.within, Recorded.forget] at same
    split at same
    · cases same
    · next found =>
        cases same
        obtain ⟨after, allowed⟩ := meets.error _ _ found
        exact ⟨⟨after.grown, rfl, after.sound⟩, allowed⟩

/-- The body of a call ends with its value, also by a `return`. -/
theorem bodyValue {body : Recorded Unit} (meets : Meets R true body m fun _ _ => True) :
    Meets R false (Recorded.bodyValue body) m (Yields R) := by
  refine ⟨meets.seen, fun v m' same => ?_, fun e m' same => ?_⟩
  · simp only [Recorded.bodyValue, Run.bodyValue, Recorded.forget] at same
    split at same
    · next found =>
        cases same
        exact ⟨(meets.ok _ _ found).1, fun _ => trivial⟩
    · next found =>
        cases same
        obtain ⟨after, -, valid⟩ := meets.error _ _ found
        exact ⟨after, valid⟩
    · cases same
  · simp only [Recorded.bodyValue, Run.bodyValue, Recorded.forget] at same
    split at same
    · cases same
    · cases same
    · next other found =>
        cases same
        obtain ⟨after, allowed⟩ := meets.error _ _ found
        refine ⟨after, ?_⟩
        cases e with
        | returned v => exact absurd rfl (other v)
        | _ => exact allowed

/-- A loop is in order if each of its rounds keeps what it needs. -/
theorem repeatWhile {round : Recorded Bool} {I : Heap → Prop} {s : ScopeId}
    (step : ∀ m, m.active = s → Sound R m.heap → I m.heap → Meets R b round m fun _ h => I h)
    (n : Nat) : ∀ m, m.active = s → Sound R m.heap → I m.heap →
      Meets R b (Recorded.repeatWhile round n) m fun _ h => I h := by
  induction n with
  | zero => exact fun m _ sound _ => silent_error rfl (.refl sound) trivial
  | succ n ih =>
      intro m active sound inv
      refine (step m active sound inv).bind fun again m' after inv' => ?_
      cases again with
      | true => exact ih m' (after.active.trans active) after.sound inv'
      | false => exact pure after.sound inv'

end Meets
end LoxLang
