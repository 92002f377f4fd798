import LoxLang.Proofs.Heap.Steps
import LoxLang.Proofs.Addressing.Lawful
import LoxLang.Proofs.Lexical
import LoxLang.Proofs.Lexical.Erasure
import LoxLang.Proofs.Related
/-! When a store is like a heap. Every place of the store stands for a binding in a local scope
of the heap; what a closure of the store sees are those bindings of its scopes that the walk
had at its declaration. A scope may hold more by now. -/
namespace LoxLang
open Lexical (Environment Location Store)

/-- For each place of a store, the scope and the name whose binding it stands for. -/
abbrev Owners : Type := Array (ScopeId × String)

def Owners.Keeps (w w' : Owners) : Prop := ∀ (i : Nat) o, w[i]? = some o → w'[i]? = some o

/-- The names visible from a scope that the walk sees as `g`: those whose declaration is
finished, and none that is not there. -/
structure Frame (w : Owners) (t : ScopeId) (g : Table Bool) (f : Table Location) : Prop where
  owned : ∀ x l, f.find? x = some l → w[l.index]? = some (t, x)
  named : ∀ x, g.find? x = some true → (f.find? x).isSome = true
  absent : ∀ x, g.find? x = none → f.find? x = none

/-- The names visible inside scopes of a heap, which the walk sees as `Γ`. -/
inductive Depicts (h : Heap) (w : Owners) : List ScopeId → Scopes → Environment → Prop
  | globals : h.Alive Machine.globals → Depicts h w [Machine.globals] [] []
  | cons {t : ScopeId} {ts : List ScopeId} {g : Table Bool} {Γ : Scopes} {f : Table Location}
    {ρ : Environment} : t ≠ Machine.globals → h.Alive t → Frame w t g f → Depicts h w ts Γ ρ →
    Depicts h w (t :: ts) (g :: Γ) (f :: ρ)

/-- Every name that the innermost scope `t` binds is visible. -/
def Complete (w : Owners) (t : ScopeId) : Environment → Prop
  | [] => True
  | f :: _ => ∀ x l, w[l.index]? = some (t, x) → f.find? x = some l

/-- The same routine, in scopes and with the names visible in them. -/
structure Closure.Like (h : Heap) (w : Owners) (Γ : Scopes) (k : Closure) (k' : Lexical.Closure) :
    Prop where
  declaration : k'.declaration = k.declaration.erase
  isInitializer : k'.isInitializer = k.isInitializer
  visible : Depicts h w (h.chain k.scope) Γ k'.visible

def Closure.LikeFunction (R : Regime) (h : Heap) (w : Owners) (k : Closure)
    (k' : Lexical.Closure) : Prop :=
  ∃ Γ, k.declaration.Known R Γ ∧ k.Like h w Γ k' ∧
    (k.isInitializer = true → ∃ Δ, Γ = Walk.receiverScope :: Δ)

def Closure.LikeMethod (R : Regime) (h : Heap) (w : Owners) (k : Closure) (k' : Lexical.Closure) :
    Prop :=
  ∃ Γ, k.declaration.Known R (Walk.receiverScope :: Γ) ∧ k.Like h w Γ k'

structure Class.Like (R : Regime) (h : Heap) (w : Owners) (k : Class) (k' : Lexical.Class) :
    Prop where
  name : k'.name = k.name
  ancestors : k'.ancestors = k.ancestors
  methods : ∀ x, Option.Rel (Closure.LikeMethod R h w) (k.methods.find? x) (k'.methods.find? x)

/-- A place holds what the binding holds that it stands for. -/
def Owned (h : Heap) (o : ScopeId × String) (b : Option Value) : Prop :=
  o.1 ≠ Machine.globals ∧ h.binding? o.1 o.2 = some b

/-- No two places stand for the same binding. -/
structure Variables (w : Owners) (h : Heap) (σ : Store) : Prop where
  cells : ∀ i : Nat, Option.Rel (Owned h) w[i]? σ.cells[i]?
  apart : ∀ (i j : Nat) o, w[i]? = some o → w[j]? = some o → i = j
  globals : (h.scope? Machine.globals).map Scope.bindings = some σ.globals

structure Objects (R : Regime) (w : Owners) (h : Heap) (σ : Store) : Prop where
  functions : ∀ f, Option.Rel (Closure.LikeFunction R h w) (h.function? f) (σ.function? f)
  classes : ∀ c, Option.Rel (Class.Like R h w) (h.class? c) (σ.class? c)
  instances : σ.instances = h.instances
  natives : σ.natives = h.natives

structure Alike (R : Regime) (w : Owners) (h : Heap) (σ : Store) : Prop where
  sound : Sound R h
  bindings : Variables w h σ
  objects : Objects R w h σ

/-- The names visible in a scope at a place of known code. -/
structure Stands (w : Owners) (h : Heap) (s : ScopeId) (Γ : Scopes) (ρ : Environment) : Prop where
  visible : Depicts h w (h.chain s) Γ ρ
  complete : Complete w s ρ

variable {R : Regime} {h h' : Heap} {w w' : Owners} {ts : List ScopeId} {Γ : Scopes}
  {ρ : Environment} {x : String}

theorem Frame.grow {t : ScopeId} {g : Table Bool} {f : Table Location} (frame : Frame w t g f)
    (keeps : w.Keeps w') : Frame w' t g f :=
  ⟨fun y l found => keeps _ _ (frame.owned y l found), frame.named, frame.absent⟩

namespace Depicts

theorem grow (d : Depicts h w ts Γ ρ) (e : h.Extends h') (keeps : w.Keeps w') :
    Depicts h' w' ts Γ ρ := by
  induction d with
  | globals alive => exact .globals (e.alive alive)
  | cons inner alive frame _ ih => exact .cons inner (e.alive alive) (frame.grow keeps) ih

theorem alive_head {s : ScopeId} (d : Depicts h w (s :: ts) Γ ρ) : h.Alive s := by
  cases d with
  | globals alive => exact alive
  | cons _ alive _ _ => exact alive

theorem later {s : ScopeId} (d : Depicts h w (h.chain s) Γ ρ) (e : h.Extends h')
    (keeps : w.Keeps w') : Depicts h' w' (h'.chain s) Γ ρ := by
  rw [e.chain (show h.Alive s from d.alive_head)]
  exact d.grow e keeps

/-- A name that no local scope declares is not visible. -/
theorem place_none (d : Depicts h w ts Γ ρ) (missing : Γ.locate x = none) : ρ.place? x = none := by
  induction d with
  | globals => rfl
  | @cons t ts g Γ f ρ inner alive frame rest ih =>
      rw [Scopes.locate_cons] at missing
      by_cases here : g.contains x = true
      · rw [if_pos here] at missing
        cases missing
      · rw [if_neg here, Option.map_eq_none_iff] at missing
        have absent := frame.absent x (by simpa [Table.contains] using here)
        simp only [Environment.place?, List.findSome?_cons, absent]
        exact ih missing

/-- A name whose declaration is finished in its nearest scope is visible, at a place that
stands for its binding there. -/
theorem place_some (d : Depicts h w ts Γ ρ) {n : Nat} (nearest : Γ.locate x = some n)
    (held : Γ.Holds n x) : ∃ t l, ts[n]? = some t ∧ ρ.place? x = some l ∧
      w[l.index]? = some (t, x) := by
  induction d generalizing n with
  | globals => cases nearest
  | @cons t ts g Γ f ρ inner alive frame rest ih =>
      obtain ⟨k, reached, finished⟩ := held
      rw [Scopes.locate_cons] at nearest
      by_cases here : g.contains x = true
      · rw [if_pos here] at nearest
        cases nearest
        cases reached
        obtain ⟨l, found⟩ := Option.isSome_iff_exists.mp (frame.named x finished)
        refine ⟨t, l, rfl, ?_, frame.owned x l found⟩
        simp only [Environment.place?, List.findSome?_cons, found]
      · rw [if_neg here] at nearest
        obtain ⟨n, farther, rfl⟩ := Option.map_eq_some_iff.mp nearest
        have absent := frame.absent x (by simpa [Table.contains] using here)
        obtain ⟨s, l, reached', found, owned⟩ := ih farther ⟨k, reached, finished⟩
        refine ⟨s, l, reached', ?_, owned⟩
        simp only [Environment.place?, List.findSome?_cons, absent]
        exact found

/-- The scopes are those that the walk had. -/
theorem mirrors (d : Depicts h w ts Γ ρ)
    (bound : ∀ (i : Nat) t y, w[i]? = some (t, y) → (h.binding? t y).isSome = true) : Mirrors h ts Γ := by
  induction d with
  | globals alive => exact .globals alive
  | cons inner alive frame _ ih =>
      refine .cons inner alive (fun y finished => ?_) ih
      obtain ⟨l, found⟩ := Option.isSome_iff_exists.mp (frame.named y finished)
      exact bound l.index _ y (frame.owned y l found)

/-- A declaration that is begun adds no visible name. -/
theorem enter (d : Depicts h w ts Γ ρ) (y : String) : Depicts h w ts (Γ.enter y false) ρ := by
  cases d with
  | globals alive => exact .globals alive
  | cons inner alive frame rest =>
      refine .cons inner alive ⟨frame.owned, fun z finished => ?_, fun z absent => ?_⟩ rest
      · rw [Table.find?_put] at finished
        split at finished
        · cases finished
        · exact frame.named z finished
      · rw [Table.find?_put] at absent
        split at absent
        · cases absent
        · exact frame.absent z absent

end Depicts
end LoxLang
