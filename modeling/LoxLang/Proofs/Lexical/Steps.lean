import LoxLang.Proofs.Lexical.Likeness
/-! Changes of a heap and of a store that is like it. After the same change on both sides the
store is like the heap again, with owners for the places that are new. -/
namespace LoxLang
open Lexical (Environment Location Store)

variable {R : Regime} {h h' : Heap} {w w' w'' : Owners} {σ σ' : Store} {s t : ScopeId} {Γ : Scopes}
  {ρ : Environment} {x : String} {b : Option Value}

/-- The owners stay, and only places of scopes with `may` are new. -/
structure Owners.Grow (w w' : Owners) (may : ScopeId → Prop) : Prop where
  keeps : w.Keeps w'
  introduced : ∀ (i : Nat) t x, w'[i]? = some (t, x) → w[i]? = none → may t

namespace Owners

theorem Grow.refl (w : Owners) (may : ScopeId → Prop) : w.Grow w may :=
  ⟨fun _ _ found => found, fun i t x found missing => absurd (found.symm.trans missing) (by simp)⟩

theorem Grow.trans {may may' may'' : ScopeId → Prop} (g : w.Grow w' may) (g' : w'.Grow w'' may')
    (first : ∀ t, may t → may'' t) (second : ∀ t, may' t → may'' t) : w.Grow w'' may'' := by
  refine ⟨fun i o found => g'.keeps i o (g.keeps i o found), fun i t x found missing => ?_⟩
  cases between : w'[i]? with
  | none => exact second t (g'.introduced i t x found between)
  | some o =>
      cases found.symm.trans (g'.keeps i o between)
      exact first t (g.introduced i t x between missing)

theorem Grow.weaken {may may' : ScopeId → Prop} (g : w.Grow w' may) (imp : ∀ t, may t → may' t) :
    w.Grow w' may' :=
  ⟨g.keeps, fun i t x found missing => imp t (g.introduced i t x found missing)⟩

theorem grow_push (w : Owners) (t : ScopeId) (x : String) : w.Grow (w.push (t, x)) (· = t) := by
  refine ⟨fun i o found => Heap.getElem?_push_of_some _ found, fun i s y found missing => ?_⟩
  rw [Array.getElem?_push] at found
  split at found
  · cases found
    rfl
  · exact absurd (found.symm.trans missing) (by simp)

end Owners

/-! What is like stays like. -/

theorem Closure.Like.grow {k : Closure} {k' : Lexical.Closure} (like : k.Like h w Γ k')
    (e : h.Extends h') (keeps : w.Keeps w') : k.Like h' w' Γ k' :=
  ⟨like.declaration, like.isInitializer, like.visible.later e keeps⟩

theorem Closure.LikeFunction.grow {k : Closure} {k' : Lexical.Closure}
    (like : k.LikeFunction R h w k') (e : h.Extends h') (keeps : w.Keeps w') :
    k.LikeFunction R h' w' k' := by
  obtain ⟨Γ, known, same, initializer⟩ := like
  exact ⟨Γ, known, same.grow e keeps, initializer⟩

theorem Closure.LikeMethod.grow {k : Closure} {k' : Lexical.Closure} (like : k.LikeMethod R h w k')
    (e : h.Extends h') (keeps : w.Keeps w') : k.LikeMethod R h' w' k' := by
  obtain ⟨Γ, known, same⟩ := like
  exact ⟨Γ, known, same.grow e keeps⟩

theorem Class.Like.grow {k : Class} {k' : Lexical.Class} (like : k.Like R h w k')
    (e : h.Extends h') (keeps : w.Keeps w') : k.Like R h' w' k' :=
  ⟨like.name, like.ancestors, fun x => rel_imp (like.methods x) fun _ _ _ m => m.grow e keeps⟩

/-- Changes of variables do not touch what is not a variable. -/
theorem Objects.grow {scopes : Array Scope} {cells : Array (Option Value)}
    {globals : Table (Option Value)} (objects : Objects R w h σ)
    (e : h.Extends { h with scopes := scopes }) (keeps : w.Keeps w') :
    Objects R w' { h with scopes := scopes } { σ with cells := cells, globals := globals } :=
  ⟨fun f => rel_imp (objects.functions f) fun _ _ _ like => like.grow e keeps,
    fun c => rel_imp (objects.classes c) fun _ _ _ like => like.grow e keeps,
    objects.instances, objects.natives⟩

/-! Variables. -/

namespace Variables

/-- The cell of a place holds the binding it stands for. -/
theorem holds (v : Variables w h σ) {i : Nat} (owned : w[i]? = some (t, x)) :
    t ≠ Machine.globals ∧ ∃ b, h.binding? t x = some b ∧ σ.cells[i]? = some b := by
  obtain ⟨b, cell, inner, bound⟩ := rel_some (v.cells i) owned
  exact ⟨inner, b, bound, cell⟩

theorem alive (v : Variables w h σ) {i : Nat} (owned : w[i]? = some (t, x)) : h.Alive t := by
  obtain ⟨-, b, bound, -⟩ := v.holds owned
  exact Heap.alive_of_binding bound

theorem newScope (v : Variables w h σ) (alive : h.Alive Machine.globals) (e : Option ScopeId) :
    Variables w (h.newScope e).2 σ := by
  refine ⟨fun i => rel_imp (v.cells i) fun o b _ owned => ⟨owned.1, ?_⟩, v.apart, ?_⟩
  · rw [Heap.binding?_newScope, if_neg (Heap.alive_of_binding owned.2).ne_new]
    exact owned.2
  · rw [Heap.scope?_newScope, if_neg alive.ne_new]
    exact v.globals

theorem write (v : Variables w h σ) {l : Location} (owned : w[l.index]? = some (t, x)) :
    Variables w (h.define t x b) (σ.write l b) := by
  obtain ⟨inner, c, bound, cell⟩ := v.holds owned
  have alive := Heap.alive_of_binding bound
  refine ⟨fun i => ?_, v.apart, ?_⟩
  · simp only [Store.write, Array.getElem?_modify]
    by_cases here : l.index = i
    · subst here
      rw [if_pos rfl, owned, cell]
      exact .some ⟨inner, Heap.binding?_define_self x b alive⟩
    · rw [if_neg here]
      refine rel_imp (v.cells i) fun o c' owner held => ⟨held.1, ?_⟩
      have other : ¬(o.1 = t ∧ o.2 = x) := fun ⟨first, second⟩ =>
        here (v.apart l.index i (t, x) owned (first ▸ second ▸ owner))
      rw [Heap.binding?_define, if_neg other]
      exact held.2
  · rw [Heap.scope?_define, if_neg (Ne.symm inner)]
    exact v.globals

/-- A new place, for a name that no place stands for yet. -/
theorem allocate (v : Variables w h σ) (inner : t ≠ Machine.globals) (alive : h.Alive t)
    (fresh : ∀ i : Nat, w[i]? ≠ some (t, x)) :
    Variables (w.push (t, x)) (h.define t x b) (σ.allocate b).2 := by
  have size := size_eq_of_rel v.cells
  refine ⟨fun i => ?_, fun i j o first second => ?_, ?_⟩
  · simp only [Store.allocate, Array.getElem?_push, size]
    split
    · exact .some ⟨inner, Heap.binding?_define_self x b alive⟩
    · refine rel_imp (v.cells i) fun o c owner held => ⟨held.1, ?_⟩
      have other : ¬(o.1 = t ∧ o.2 = x) := fun ⟨first, second⟩ =>
        fresh i (first ▸ second ▸ owner)
      rw [Heap.binding?_define, if_neg other]
      exact held.2
  · rw [Array.getElem?_push] at first second
    by_cases last : i = w.size
    · rw [if_pos last] at first
      cases first
      by_cases last' : j = w.size
      · exact last.trans last'.symm
      · rw [if_neg last'] at second
        exact absurd second (fresh j)
    · rw [if_neg last] at first
      by_cases last' : j = w.size
      · rw [if_pos last'] at second
        cases second
        exact absurd first (fresh i)
      · rw [if_neg last'] at second
        exact v.apart i j o first second
  · rw [Heap.scope?_define, if_neg (Ne.symm inner)]
    exact v.globals

theorem putGlobal (v : Variables w h σ) :
    Variables w (h.define Machine.globals x b) { σ with globals := σ.globals.put x b } := by
  refine ⟨fun i => rel_imp (v.cells i) fun o c _ held => ⟨held.1, ?_⟩, v.apart, ?_⟩
  · rw [Heap.binding?_define, if_neg fun both => held.1 both.1]
    exact held.2
  · obtain ⟨scope, found, same⟩ := Option.map_eq_some_iff.mp v.globals
    rw [Heap.scope?_define, if_pos rfl, found]
    exact congrArg (fun g => some (Table.put g x b)) same

/-- A global variable is what the store has under its name. -/
theorem global (v : Variables w h σ) (x : String) :
    h.binding? Machine.globals x = σ.globals.find? x := by
  obtain ⟨scope, found, same⟩ := Option.map_eq_some_iff.mp v.globals
  rw [Heap.binding?, found, ← same]
  rfl

theorem mirrors (v : Variables w h σ) {ts : List ScopeId} (d : Depicts h w ts Γ ρ) :
    Mirrors h ts Γ := by
  refine d.mirrors fun i t y owned => ?_
  obtain ⟨-, b, bound, -⟩ := v.holds owned
  exact Option.isSome_iff_exists.mpr ⟨b, bound⟩

end Variables

/-! Frames. -/

theorem Scopes.declare_cons (g : Table Bool) (Γ : Scopes) (x : String) :
    declare (g :: Γ) x = g.put x true :: Γ := by
  rw [declare, enter, enter, Table.put_put]

namespace Frame
variable {g : Table Bool} {f : Table Location} {l : Location}

theorem empty (w : Owners) (t : ScopeId) : Frame w t Table.empty Table.empty := by
  refine ⟨fun x l found => ?_, fun x finished => ?_, fun x _ => rfl⟩
  · cases found
  · cases finished

/-- A name declared again keeps its place. -/
theorem again (frame : Frame w t g f) (found : f.find? x = some l) : Frame w t (g.put x true) f := by
  refine ⟨frame.owned, fun y finished => ?_, fun y absent => ?_⟩
  · rw [Table.find?_put] at finished
    split at finished
    · next same => exact same ▸ Option.isSome_iff_exists.mpr ⟨l, found⟩
    · exact frame.named y finished
  · rw [Table.find?_put] at absent
    split at absent
    · cases absent
    · exact frame.absent y absent

theorem put (frame : Frame w t g f) (owned : w[l.index]? = some (t, x)) :
    Frame w t (g.put x true) (f.put x l) := by
  refine ⟨fun y k found => ?_, fun y finished => ?_, fun y absent => ?_⟩
  · rw [Table.find?_put] at found
    split at found
    · next same =>
        cases found
        exact same ▸ owned
    · exact frame.owned y k found
  · rw [Table.find?_put] at finished ⊢
    split at finished
    · next same => rw [if_pos same]; rfl
    · next other => rw [if_neg other]; exact frame.named y finished
  · rw [Table.find?_put] at absent ⊢
    split at absent
    · cases absent
    · next other => rw [if_neg other]; exact frame.absent y absent

end Frame

theorem Complete.put {f : Table Location} (complete : Complete w s (f :: ρ))
    (fresh : ∀ i : Nat, w[i]? ≠ some (s, x)) :
    Complete (w.push (s, x)) s (f.put x ⟨w.size⟩ :: ρ) := by
  intro y l owned
  rw [Table.find?_put]
  rw [Array.getElem?_push] at owned
  by_cases last : l.index = w.size
  · rw [if_pos last] at owned
    cases owned
    rw [if_pos rfl, ← last]
  · rw [if_neg last] at owned
    by_cases named : y = x
    · exact absurd (named ▸ owned) (fresh l.index)
    · rw [if_neg named]
      exact complete y l owned

/-! Like heaps and stores. -/

namespace Stands

theorem grow (stands : Stands w h s Γ ρ) (e : h.Extends h')
    {may : ScopeId → Prop} (g : w.Grow w' may) (others : ¬may s) : Stands w' h' s Γ ρ := by
  refine ⟨stands.visible.later e g.keeps, ?_⟩
  have complete := stands.complete
  cases ρ with
  | nil => trivial
  | cons f ρ =>
      intro x l owned
      cases before : w[l.index]? with
      | none => exact absurd (g.introduced _ _ _ owned before) others
      | some o =>
          cases owned.symm.trans (g.keeps _ _ before)
          exact complete x l before

/-- In a new scope no further name is visible. -/
theorem newScope (visible : Depicts h w (h.chain s) Γ ρ) (v : Variables w h σ) :
    let made := h.newScope (some s)
    Stands w made.2 made.1 (Table.empty :: Γ) (Table.empty :: ρ) := by
  intro made
  refine ⟨?_, fun x l owned => absurd rfl (v.alive owned).ne_new⟩
  have e := h.extends_newScope (some s)
  have inner : Mirrors made.2 (made.2.chain made.1) (Table.empty :: Γ) :=
    (v.mirrors visible).newScope
  rw [show made.2.chain made.1 = made.1 :: h.chain s from h.chain_newScope_self s] at inner ⊢
  obtain ⟨_, ⟨⟩, local', alive⟩ := inner.inner (d := 0) (Nat.zero_lt_succ _)
  exact .cons local' alive (.empty w made.1) (visible.grow e fun _ _ found => found)

end Stands

namespace Alike

theorem newScope (alike : Alike R w h σ) (e : Option ScopeId) : Alike R w (h.newScope e).2 σ :=
  ⟨alike.sound.newScope e, alike.bindings.newScope alike.sound.inScope.globals e,
    alike.objects.grow (h.extends_newScope e) fun _ _ found => found⟩

/-- The world is apart from all else in a store. -/
theorem setWorld (alike : Alike R w h σ) (world : World) :
    Alike R w h { σ with world } :=
  ⟨alike.sound, ⟨alike.bindings.cells, alike.bindings.apart, alike.bindings.globals⟩,
    ⟨alike.objects.functions, alike.objects.classes, alike.objects.instances,
      alike.objects.natives⟩⟩

theorem write (alike : Alike R w h σ) (untyped : ¬R.typed) (fits : Fits x b) {l : Location}
    (owned : w[l.index]? = some (t, x)) : Alike R w (h.define t x b) (σ.write l b) :=
  ⟨alike.sound.define (fun _ => fits) (absurd · untyped), alike.bindings.write owned,
    alike.objects.grow (h.extends_define t x b) fun _ _ found => found⟩

theorem putGlobal (alike : Alike R w h σ) (untyped : ¬R.typed) (fits : Fits x b) :
    Alike R w (h.define Machine.globals x b) { σ with globals := σ.globals.put x b } :=
  ⟨alike.sound.define (fun _ => fits) (absurd · untyped), alike.bindings.putGlobal,
    alike.objects.grow (h.extends_define _ x b) fun _ _ found => found⟩

/-- A declaration where the machine and the names visible agree. -/
theorem declare (alike : Alike R w h σ) (untyped : ¬R.typed) (fits : Fits x b)
    (stands : Stands w h s Γ ρ) :
    ∃ w', Alike R w' (h.define s x b) (σ.declare ρ x b).2 ∧
      Stands w' (h.define s x b) s (Γ.declare x) (σ.declare ρ x b).1 ∧ w.Grow w' (· = s) := by
  have e := h.extends_define s x b
  have visible := stands.visible
  obtain ⟨ts, around⟩ : ∃ ts, h.chain s = s :: ts := ⟨_, rfl⟩
  rw [around] at visible
  cases visible with
  | globals alive =>
      refine ⟨w, alike.putGlobal untyped fits, ⟨?_, trivial⟩, .refl w _⟩
      rw [Heap.chain_define, alike.sound.inScope.outermost]
      exact .globals (e.alive alive)
  | @cons _ _ g Γ f ρ inner alive frame rest =>
      have complete := stands.complete
      rw [Scopes.declare_cons]
      cases found : f.find? x with
      | some l =>
          have owned := frame.owned x l found
          have same : σ.declare (f :: ρ) x b = (f :: ρ, σ.write l b) := by
            simp only [Store.declare, found]
          rw [same]
          refine ⟨w, alike.write untyped fits owned, ⟨?_, complete⟩, .refl w _⟩
          rw [Heap.chain_define, around]
          exact .cons inner (e.alive alive) (frame.again found)
            (rest.grow e fun _ _ found => found)
      | none =>
          have fresh : ∀ i : Nat, w[i]? ≠ some (s, x) := fun i owned =>
            absurd (found.symm.trans (complete x ⟨i⟩ owned)) (by simp)
          have size := size_eq_of_rel alike.bindings.cells
          have same : σ.declare (f :: ρ) x b =
              (f.put x ⟨w.size⟩ :: ρ, (σ.allocate b).2) := by
            simp only [Store.declare, found, Store.allocate, size]
          have grown := w.grow_push s x
          have owned : (w.push (s, x))[w.size]? = some (s, x) := by
            rw [Array.getElem?_push, if_pos rfl]
          rw [same]
          refine ⟨w.push (s, x), ⟨?_, ?_, ?_⟩, ⟨?_, ?_⟩, grown⟩
          · exact alike.sound.define (fun _ => fits) (absurd · untyped)
          · exact alike.bindings.allocate inner alive fresh
          · exact alike.objects.grow e grown.keeps
          · rw [Heap.chain_define, around]
            exact .cons inner (e.alive alive) ((frame.grow grown.keeps).put owned)
              (rest.grow e grown.keeps)
          · exact complete.put fresh

/-- A new scope with one name, which is not visible outside of it. -/
theorem enclose (alike : Alike R w h σ) (untyped : ¬R.typed) (fits : Fits x b)
    (visible : Depicts h w (h.chain s) Γ ρ) :
    let made := h.newScope (some s)
    let place := σ.allocate b
    ∃ w', Alike R w' (made.2.define made.1 x b) place.2 ∧
      Depicts (made.2.define made.1 x b) w' ((made.2.define made.1 x b).chain made.1)
        (Table.empty.put x true :: Γ) (Table.empty.put x place.1 :: ρ) ∧
      w.Grow w' fun t => ¬h.Alive t := by
  intro made place
  obtain ⟨w', alike', stands', grown⟩ := (alike.newScope (some s)).declare (x := x) untyped fits
    (Stands.newScope visible alike.bindings)
  rw [Scopes.declare_cons] at stands'
  refine ⟨w', alike', stands'.visible, grown.weaken ?_⟩
  rintro t rfl
  exact h.not_alive_new

end Alike
end LoxLang
