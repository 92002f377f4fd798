import LoxLang.Proofs.Lexical.Objects
/-! Rules for runs side by side: one on the machine, by addresses, one on a store, by visible
names. They do the same if they end alike and leave a store that is like the heap. -/
namespace LoxLang
open Lexical (Environment Location Store)

/-- What a run does to a machine and to the owners. `declares` says whether it may declare names
in the active scope; all other scopes that get names are new. -/
structure Later (declares : Prop) (w : Owners) (m : Machine) (w' : Owners) (m' : Machine) :
    Prop where
  grown : m.heap.Extends m'.heap
  active : m'.active = m.active
  owners : w.Grow w' fun t => ¬m.heap.Alive t ∨ declares ∧ t = m.active

/-- The store is like the heap, and the world is the same. -/
structure Beside (R : Regime) (w : Owners) (m : Machine) (σ : Store) : Prop where
  alike : Alike R w m.heap σ
  world : σ.world = m.world

/-- Two results are the same but for what they leave. -/
inductive Agree {α β : Type} (R : Regime) (declares : Prop) (w : Owners) (m : Machine)
    (Q : Owners → Machine → α → β → Prop) :
    EStateM.Result Exit Machine α → EStateM.Result Exit Store β → Prop
  | ok {a : α} {b : β} {w' : Owners} {m' : Machine} {σ' : Store} :
    Later declares w m w' m' → Beside R w' m' σ' → Q w' m' a b →
    Agree R declares w m Q (.ok a m') (.ok b σ')
  | error {e : Exit} {w' : Owners} {m' : Machine} {σ' : Store} :
    Later declares w m w' m' → Beside R w' m' σ' →
    Agree R declares w m Q (.error e m') (.error e σ')

/-- Two computations do the same from a machine and a store on. -/
def Parallel {α β : Type} (R : Regime) (declares : Prop) (Q : Owners → Machine → α → β → Prop)
    (x : Run α) (y : Lexical.Run β) (w : Owners) (m : Machine) (σ : Store) : Prop :=
  Agree R declares w m Q (x m) (y σ)

/-- The same value. -/
def Same {α : Type} (_ : Owners) (_ : Machine) (a b : α) : Prop := b = a

/-- Nothing but the effect. -/
def Effect {α β : Type} (_ : Owners) (_ : Machine) (_ : α) (_ : β) : Prop := True

variable {α β γ δ : Type} {R : Regime} {d d' : Prop} {w w' w'' : Owners} {m m' m'' : Machine}
  {σ : Store} {s : ScopeId} {Γ : Scopes} {ρ : Environment}

namespace Later

theorem refl (d : Prop) (w : Owners) (m : Machine) : Later d w m w m :=
  ⟨.refl m.heap, rfl, .refl w _⟩

theorem trans (l : Later d w m w' m') (l' : Later d w' m' w'' m'') : Later d w m w'' m'' := by
  refine ⟨l.grown.trans l'.grown, l'.active.trans l.active,
    l.owners.trans l'.owners (fun _ => id) fun t new => ?_⟩
  rcases new with new | ⟨may, here⟩
  · exact .inl fun alive => new (l.grown.alive alive)
  · exact .inr ⟨may, here.trans l.active⟩

theorem weaken (l : Later d w m w' m') (imp : d → d') : Later d' w m w' m' :=
  ⟨l.grown, l.active, l.owners.weaken fun _ => Or.imp id fun both => ⟨imp both.1, both.2⟩⟩

theorem visible (l : Later d w m w' m') (visible : Depicts m.heap w (m.heap.chain m.active) Γ ρ) :
    Depicts m'.heap w' (m'.heap.chain m'.active) Γ ρ := by
  rw [l.active]
  exact visible.later l.grown l.owners.keeps

/-- All that is visible stays so where nothing is declared. -/
theorem stands (l : Later False w m w' m') (stands : Stands w m.heap m.active Γ ρ) :
    Stands w' m'.heap m'.active Γ ρ := by
  rw [l.active]
  refine stands.grow l.grown l.owners ?_
  rintro (new | ⟨⟨⟩, -⟩)
  exact new stands.visible.alive_head

end Later

namespace Parallel
variable {Q Q' : Owners → Machine → α → β → Prop} {x : Run α} {y : Lexical.Run β}

/-! Rules. -/

theorem pure {a : α} {b : β} (beside : Beside R w m σ) (q : Q w m a b) :
    Parallel R d Q (Pure.pure a) (Pure.pure b) w m σ :=
  .ok (.refl d w m) beside q

theorem stop {e : Exit} (beside : Beside R w m σ) :
    Parallel R d Q (throw e) (throw e) w m σ :=
  .error (.refl d w m) beside

theorem fault (beside : Beside R w m σ) (cause : Fault.Cause) (token : Option Token) :
    Parallel R d Q (Run.fault cause token) (Lexical.fault cause token) w m σ := stop beside

theorem weaken (p : Parallel R d Q x y w m σ) (imp : ∀ w' m' a b, Q w' m' a b → Q' w' m' a b) :
    Parallel R d Q' x y w m σ := by
  unfold Parallel at p ⊢
  generalize x m = r, y σ = r' at p
  cases p with
  | ok l beside q => exact .ok l beside (imp _ _ _ _ q)
  | error l beside => exact .error l beside

theorem loosen (p : Parallel R d Q x y w m σ) (imp : d → d') : Parallel R d' Q x y w m σ := by
  unfold Parallel at p ⊢
  generalize x m = r, y σ = r' at p
  cases p with
  | ok l beside q => exact .ok (l.weaken imp) beside q
  | error l beside => exact .error (l.weaken imp) beside

/-- Computations that do what two parallel ones do. -/
theorem congr {f : Run α} {g : Lexical.Run β} (p : Parallel R d Q f g w m σ)
    (same : x m = f m) (same' : y σ = g σ) : Parallel R d Q x y w m σ := by
  rw [Parallel, same, same']
  exact p

theorem bind {P : Owners → Machine → α → β → Prop} {Q : Owners → Machine → γ → δ → Prop}
    {f : α → Run γ} {g : β → Lexical.Run δ} (first : Parallel R d' P x y w m σ) (imp : d' → d)
    (second : ∀ a b w' m' σ', Later d' w m w' m' → Beside R w' m' σ' → P w' m' a b →
      Parallel R d Q (f a) (g b) w' m' σ') :
    Parallel R d Q (x >>= f) (y >>= g) w m σ := by
  unfold Parallel at first ⊢
  cases same : x m with
  | error e m' =>
      cases same' : y σ with
      | ok b σ' =>
          rw [same, same'] at first
          cases first
      | error e' σ' =>
          rw [same, same'] at first
          cases first with
          | error l beside =>
              simp only [Bind.bind, EStateM.bind, same, same']
              exact .error (l.weaken imp) beside
  | ok a m' =>
      cases same' : y σ with
      | error e' σ' =>
          rw [same, same'] at first
          cases first
      | ok b σ' =>
          rw [same, same'] at first
          cases first with
          | ok l beside p =>
              simp only [Bind.bind, EStateM.bind, same, same']
              have rest := second a b _ m' σ' l beside p
              unfold Parallel at rest
              generalize f a m' = r, g b σ' = r' at rest
              cases rest with
              | ok l' beside' q => exact .ok ((l.weaken imp).trans l') beside' q
              | error l' beside' => exact .error ((l.weaken imp).trans l') beside'

/-- Both branch on the same. -/
theorem ite {p : Prop} [Decidable p] {x' : Run α} {y' : Lexical.Run β}
    (whether : Parallel R d Q x y w m σ) (otherwise : Parallel R d Q x' y' w m σ) :
    Parallel R d Q (if p then x else x') (if p then y else y') w m σ := by
  split
  · exact whether
  · exact otherwise

/-- Both look at what they have. -/
theorem read {f : Heap → Run α} {g : Store → Lexical.Run β}
    (p : Parallel R d Q (f m.heap) (g σ) w m σ) :
    Parallel R d Q (Run.heap >>= f) (Lexical.store >>= g) w m σ := p

/-- A reference is followed to objects that are like each other. -/
theorem follow {o : Option α} {o' : Option β} {P : α → β → Prop} (beside : Beside R w m σ)
    (rel : Option.Rel P o o') :
    Parallel R d (fun w' m' a b => w' = w ∧ m' = m ∧ o = some a ∧ P a b) (Run.follow o)
      (Lexical.follow o') w m σ := by
  cases rel with
  | some related => exact pure beside ⟨rfl, rfl, rfl, related⟩
  | none => exact stop beside

/-- A computation after which the same names are visible. -/
theorem keeping (p : Parallel R False Q x y w m σ) (stands : Stands w m.heap m.active Γ ρ) :
    Parallel R d (fun w' m' _ ρ' => Stands w' m'.heap m'.active Γ ρ') x (do let _ ← y; Pure.pure ρ)
      w m σ := by
  unfold Parallel at p ⊢
  simp only [Bind.bind, EStateM.bind]
  generalize x m = r, y σ = r' at p
  cases p with
  | ok l beside _ => exact .ok (l.weaken False.elim) beside (l.stands stands)
  | error l beside => exact .error (l.weaken False.elim) beside

/-- In a scope that is new a computation may declare names. -/
theorem within {x : Run α} {y : Lexical.Run β} {w₁ : Owners} {n : Machine}
    (grown : m.heap.Extends n.heap) (active : n.active = m.active)
    (owners : w.Grow w₁ fun t => ¬m.heap.Alive t) (new : ¬m.heap.Alive s)
    (p : Parallel R d' Effect x y w₁ { n with active := s } σ) :
    Agree R d w m Effect (Run.within s x n) (y σ) := by
  have later {w' : Owners} {m' : Machine} (l : Later d' w₁ { n with active := s } w' m') :
      Later d w m w' { m' with active := n.active } := by
    refine ⟨grown.trans l.grown, active, owners.trans l.owners (fun _ => .inl) fun t fresh => ?_⟩
    rcases fresh with fresh | ⟨-, rfl⟩
    · exact .inl fun alive => fresh (grown.alive alive)
    · exact .inl new
  obtain ⟨heap, before, world⟩ := n
  unfold Parallel at p
  simp only [Run.within]
  generalize x ⟨heap, s, world⟩ = r, y σ = r' at p
  cases p with
  | ok l beside _ => exact .ok (later l) ⟨beside.alike, beside.world⟩ trivial
  | error l beside => exact .error (later l) ⟨beside.alike, beside.world⟩

/-- The body of a call ends with the same value, also by a `return`. -/
theorem bodyValue {x : Run Unit} {y : Lexical.Run Unit} {m₁ : Machine}
    (p : Agree R d w m Effect (x m₁) (y σ)) :
    Agree R d w m Same (Run.bodyValue x m₁) (Lexical.bodyValue y σ) := by
  unfold Run.bodyValue Lexical.bodyValue
  generalize x m₁ = r, y σ = r' at p
  cases p with
  | ok l beside _ => exact .ok l beside rfl
  | @error e w' m' σ' l beside =>
      cases e with
      | returned v => exact .ok l beside rfl
      | _ => exact .error l beside

/-- Loops do the same if their rounds do wherever the same names are visible. -/
theorem repeatWhile {round : Run Bool} {round' : Lexical.Run Bool}
    (step : ∀ w m σ, Beside R w m σ → Stands w m.heap m.active Γ ρ →
      Parallel R False Same round round' w m σ) (n : Nat) :
    ∀ w m σ, Beside R w m σ → Stands w m.heap m.active Γ ρ →
      Parallel R False Effect (Run.repeatWhile round n) (Lexical.repeatWhile round' n) w m σ := by
  induction n with
  | zero => exact fun w m σ beside _ => stop beside
  | succ n ih =>
      intro w m σ beside stands
      refine (step w m σ beside stands).bind id fun again b w' m' σ' later beside' same => ?_
      cases same
      cases again with
      | true => exact ih w' m' σ' beside' (later.stands stands)
      | false => exact pure beside' trivial

end Parallel
end LoxLang
