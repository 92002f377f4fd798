import LoxLang.Proofs.Recording
import LoxLang.Proofs.Running.Execution
import LoxLang.Proofs.Thinning.Heaps
/-! Rules for runs on two machines, the second one without some scopes of the first. Both print the
same lines, have the same scopes opposite active, and stop alike. -/
namespace LoxLang

/-- The same exit, but for the distance that an unbound reference counts. -/
inductive Exit.Alike : Exit → Exit → Prop
  | same (e : Exit) : Alike e e
  | unbound {u u' : Unbound} : u.Alike u' → Alike (.unbound u) (.unbound u')

/-- Two machines with the pairing of their scopes. -/
structure Twin where
  pairing : Pairing
  left : Machine
  right : Machine

namespace Twin

/-- The right machine is the left one without some scopes. -/
structure Thins (T : Twin) : Prop where
  heap : T.left.heap.Thins T.pairing T.right.heap
  world : T.right.world = T.left.world

/-- The active scopes are opposite, and `ks` are the scopes kept from there outward. -/
structure View (ks : List Bool) (T : Twin) : Prop extends T.Thins where
  opposite : T.left.heap.Opposite T.pairing T.right.heap T.left.active T.right.active
  kept : T.left.heap.kept T.pairing T.left.active = ks

/-- The machines with other scopes active. -/
def entering (T : Twin) (s s' : ScopeId) : Twin :=
  ⟨T.pairing, { T.left with active := s }, { T.right with active := s' }⟩

/-- What runs do to both machines. -/
structure Later (T T' : Twin) : Prop where
  grown : T.left.heap.Extends T'.left.heap
  grown' : T.right.heap.Extends T'.right.heap
  active : T'.left.active = T.left.active
  active' : T'.right.active = T.right.active
  pairing : T.pairing.Grows T.left.heap T'.pairing

/-- The results of two computations on the machines. -/
inductive Ends {α : Type} (T : Twin) (Q : Twin → α → α → Prop) :
    EStateM.Result Exit Machine α → EStateM.Result Exit Machine α → Prop
  | ok {a a' : α} {T' : Twin} : T.Later T' → T'.Thins → Q T' a a' →
    Ends T Q (.ok a T'.left) (.ok a' T'.right)
  | error {e e' : Exit} {T' : Twin} : T.Later T' → T'.Thins → e.Alike e' →
    Ends T Q (.error e T'.left) (.error e' T'.right)

/-- The same value. -/
def Equals {α : Type} (_ : Twin) (a b : α) : Prop := a = b

/-- The same value, and nothing has changed. -/
def Stays {α : Type} (T T' : Twin) (a b : α) : Prop := T = T' ∧ a = b

variable {ks : List Bool} {T T' T'' : Twin}

theorem Thins.entering (thins : T.Thins) (s s' : ScopeId) : (T.entering s s').Thins :=
  ⟨thins.heap, thins.world⟩

namespace Later

theorem refl (T : Twin) : T.Later T :=
  ⟨.refl _, .refl _, rfl, rfl, Pairing.grows_refl _ _⟩

theorem trans (later : T.Later T') (later' : T'.Later T'') : T.Later T'' :=
  ⟨later.grown.trans later'.grown, later.grown'.trans later'.grown',
    later'.active.trans later.active, later'.active'.trans later.active',
    fun s alive => (later'.pairing s (later.grown.alive alive)).trans (later.pairing s alive)⟩

/-- The scopes that were active are active again. -/
theorem leave {s s' : ScopeId} (later : (T.entering s s').Later T') :
    T.Later (T'.entering T.left.active T.right.active) :=
  ⟨later.grown, later.grown', rfl, rfl, later.pairing⟩

/-- What stands opposite stays so. -/
theorem opposite (later : T.Later T') {s s' : ScopeId}
    (opposite : T.left.heap.Opposite T.pairing T.right.heap s s') :
    T'.left.heap.Opposite T'.pairing T'.right.heap s s' :=
  opposite.grow later.grown later.grown' later.pairing

theorem kept (later : T.Later T') {s s' : ScopeId}
    (opposite : T.left.heap.Opposite T.pairing T.right.heap s s') :
    T'.left.heap.kept T'.pairing s = T.left.heap.kept T.pairing s :=
  opposite.kept_grow later.grown later.pairing

theorem view (later : T.Later T') (view : T.View ks) (thins : T'.Thins) : T'.View ks := by
  refine ⟨thins, ?_, ?_⟩
  · rw [later.active, later.active']
    exact later.opposite view.opposite
  · rw [later.active, later.kept view.opposite, view.kept]

end Later
end Twin

open Twin (Equals Stays)

namespace Run
variable {α β : Type} {ks : List Bool} {T : Twin}

theorem within_ok {s : ScopeId} {x : Run α} {m m' : Machine} {a : α}
    (done : x { m with active := s } = .ok a m') :
    Run.within s x m = .ok a { m' with active := m.active } := by
  obtain ⟨heap, before, world⟩ := m
  simp only [Run.within, done]

theorem within_error {s : ScopeId} {x : Run α} {m m' : Machine} {e : Exit}
    (stopped : x { m with active := s } = .error e m') :
    Run.within s x m = .error e { m' with active := m.active } := by
  obtain ⟨heap, before, world⟩ := m
  simp only [Run.within, stopped]

/-- Two computations do the same on two machines. -/
def Thins (Q : Twin → α → α → Prop) (x x' : Run α) (T : Twin) : Prop :=
  T.Ends Q (x T.left) (x' T.right)

namespace Thins
variable {Q Q' : Twin → α → α → Prop} {P : Twin → β → β → Prop} {x x' : Run α}

theorem pure {a a' : α} (thins : T.Thins) (q : Q T a a') :
    Thins Q (Pure.pure a) (Pure.pure a') T :=
  .ok (.refl T) thins q

theorem stop (thins : T.Thins) {e e' : Exit} (alike : e.Alike e') :
    Thins Q (throw e) (throw e') T :=
  .error (.refl T) thins alike

theorem fault (thins : T.Thins) (cause : Fault.Cause) (token : Option Token) :
    Thins Q (Run.fault cause token) (Run.fault cause token) T :=
  stop thins (.same _)

theorem weaken (both : Thins Q x x' T) (imp : ∀ T' a a', Q T' a a' → Q' T' a a') :
    Thins Q' x x' T := by
  unfold Thins at both ⊢
  generalize x T.left = y, x' T.right = y' at both
  cases both with
  | ok later thins q => exact .ok later thins (imp _ _ _ q)
  | error later thins alike => exact .error later thins alike

theorem bind {f f' : α → Run β} (first : Thins Q x x' T)
    (second : ∀ a a' T', T.Later T' → T'.Thins → Q T' a a' → Thins P (f a) (f' a') T') :
    Thins P (x >>= f) (x' >>= f') T := by
  unfold Thins at first ⊢
  simp only [Bind.bind, EStateM.bind]
  generalize x T.left = y, x' T.right = y' at first
  cases first with
  | error later thins alike => exact .error later thins alike
  | @ok a a' T' later thins q =>
      have rest := second a a' T' later thins q
      unfold Thins at rest
      dsimp only
      generalize f a T'.left = z, f' a' T'.right = z' at rest
      cases rest with
      | ok later' thins' p => exact .ok (later.trans later') thins' p
      | error later' thins' alike => exact .error (later.trans later') thins' alike

/-- Both look at their heaps. -/
theorem read {f f' : Heap → Run α} (both : Thins Q (f T.left.heap) (f' T.right.heap) T) :
    Thins Q (Run.heap >>= f) (Run.heap >>= f') T := both

theorem active {f f' : ScopeId → Run α} (both : Thins Q (f T.left.active) (f' T.right.active) T) :
    Thins Q (Run.active >>= f) (Run.active >>= f') T := both

theorem change {c c' : Heap → α × Heap} {w : Pairing} (thins : T.Thins)
    (grown : T.left.heap.Extends (c T.left.heap).2)
    (grown' : T.right.heap.Extends (c' T.right.heap).2) (pairing : T.pairing.Grows T.left.heap w)
    (made : (c T.left.heap).2.Thins w (c' T.right.heap).2)
    (q : Q ⟨w, { T.left with heap := (c T.left.heap).2 },
      { T.right with heap := (c' T.right.heap).2 }⟩ (c T.left.heap).1 (c' T.right.heap).1) :
    Thins Q (Run.change c) (Run.change c') T := by
  have later : T.Later ⟨w, { T.left with heap := (c T.left.heap).2 },
      { T.right with heap := (c' T.right.heap).2 }⟩ := ⟨grown, grown', rfl, rfl, pairing⟩
  exact .ok later ⟨made, thins.world⟩ q

theorem update {c c' : Heap → Heap} {Q : Twin → Unit → Unit → Prop} (thins : T.Thins)
    (grown : T.left.heap.Extends (c T.left.heap)) (grown' : T.right.heap.Extends (c' T.right.heap))
    (made : (c T.left.heap).Thins T.pairing (c' T.right.heap))
    (q : Q ⟨T.pairing, { T.left with heap := c T.left.heap },
      { T.right with heap := c' T.right.heap }⟩ () ()) :
    Thins Q (Run.update c) (Run.update c') T := by
  have later : T.Later ⟨T.pairing, { T.left with heap := c T.left.heap },
      { T.right with heap := c' T.right.heap }⟩ :=
    ⟨grown, grown', rfl, rfl, Pairing.grows_refl _ _⟩
  exact .ok later ⟨made, thins.world⟩ q

theorem print (thins : T.Thins) (line : String) :
    Thins Equals (Run.print line) (Run.print line) T := by
  have later : T.Later ⟨T.pairing, { T.left with world := T.left.world.print line },
      { T.right with world := T.right.world.print line }⟩ :=
    ⟨.refl _, .refl _, rfl, rfl, Pairing.grows_refl _ _⟩
  exact .ok later ⟨thins.heap, congrArg (·.print line) thins.world⟩ rfl

theorem time (thins : T.Thins) : Thins Equals Run.time Run.time T := by
  have later : T.Later ⟨T.pairing, { T.left with world := T.left.world.time.2 },
      { T.right with world := T.right.world.time.2 }⟩ :=
    ⟨.refl _, .refl _, rfl, rfl, Pairing.grows_refl _ _⟩
  have same := congrArg World.time thins.world
  exact .ok later ⟨thins.heap, congrArg Prod.snd same⟩ (congrArg Prod.fst same.symm)

/-- Both follow their references. -/
theorem follow {r : α → α → Prop} {o o' : Option α} (thins : T.Thins) (rel : Option.Rel r o o') :
    Thins (fun T' a a' => T = T' ∧ r a a') (Run.follow o) (Run.follow o') T := by
  cases rel with
  | none => exact stop thins (.same _)
  | some related => exact pure thins ⟨rfl, related⟩

/-- Both follow the same reference. -/
theorem follow_same (thins : T.Thins) {o o' : Option α} (same : o' = o) :
    Thins (Stays T) (Run.follow o) (Run.follow o') T :=
  (follow thins (rel_of_eq same)).weaken fun _ _ _ both => ⟨both.1, both.2.symm⟩

theorem lift (thins : T.Thins) (token : Token) (r : Except Fault.Cause Value) :
    Thins (Stays T) (Run.lift token r) (Run.lift token r) T := by
  cases r with
  | ok v => exact pure thins ⟨rfl, rfl⟩
  | error cause => exact fault thins cause (some token)

theorem equal (both : Thins (Stays T) x x' T) : Thins Equals x x' T :=
  both.weaken fun _ _ _ still => still.2

/-! Variables. -/

theorem lookUp {token : Token} {a a' : Address} (view : T.View ks)
    (shortens : Address.Shortens ks a a') :
    Thins (Stays T) (Run.lookUp token a) (Run.lookUp token a') T := by
  refine read ?_
  cases shortens with
  | none =>
      dsimp only
      rw [Heap.get_globals view.heap.outermost, Heap.get_globals view.heap.outermost',
        view.heap.binding?_globals]
      exact lift view.toThins token _
  | some skips =>
      refine active ?_
      rw [← view.kept] at skips
      rcases view.opposite.getAt view.heap.toPaired skips.distances token.lexeme with
        ⟨b, found, found'⟩ | ⟨u, u', alike, missed, missed'⟩
      · rw [found, found']
        cases b with
        | some v => exact pure view.toThins ⟨rfl, rfl⟩
        | none => exact fault view.toThins _ (some token)
      · rw [missed, missed']
        exact stop view.toThins (.unbound alike)

theorem updateDefine {s s' : ScopeId} (thins : T.Thins) (found : T.pairing s = some s')
    (x : String) (v : Option Value) :
    Thins Equals (Run.update (·.define s x v)) (Run.update (·.define s' x v)) T :=
  update thins (T.left.heap.extends_define s x v) (T.right.heap.extends_define s' x v)
    (thins.heap.define found x v) rfl

/-- A name is bound in an active scope that is kept. -/
theorem define (view : T.View ks) (inner : Skips ks 0 0) (x : String) (v : Option Value) :
    Thins Equals (Run.define x v) (Run.define x v) T :=
  active (updateDefine view.toThins (view.opposite.innermost (view.kept ▸ inner)) x v)

theorem assignGlobal (thins : T.Thins) (name : Name) (v : Value) :
    Thins Equals (Run.assignFrom Machine.globals name v) (Run.assignFrom Machine.globals name v)
      T := by
  refine read ?_
  rw [Heap.binder?_globals thins.heap.outermost, Heap.binder?_globals thins.heap.outermost',
    thins.heap.binding?_globals]
  by_cases bound : (T.left.heap.binding? Machine.globals name.text).isSome = true
  · rw [if_pos bound]
    exact updateDefine thins thins.heap.globals name.text (some v)
  · rw [if_neg bound]
    exact fault thins _ (some name.token)

theorem assign {name : Name} {a a' : Address} (view : T.View ks)
    (shortens : Address.Shortens ks a a') (v : Value) :
    Thins Equals (Run.assign name a v) (Run.assign name a' v) T := by
  cases shortens with
  | none => exact assignGlobal view.toThins name v
  | some skips =>
      refine active (read ?_)
      rw [← view.kept] at skips
      rcases view.opposite.binderAt view.heap.toPaired skips.distances name.text with
        ⟨t, t', paired, found, found'⟩ | ⟨u, u', alike, missed, missed'⟩
      · rw [found, found']
        exact updateDefine view.toThins paired name.text (some v)
      · rw [missed, missed']
        exact stop view.toThins (.unbound alike)

/-! Methods and classes. -/

theorem newScope {s s' : ScopeId} (thins : T.Thins)
    (opposite : T.left.heap.Opposite T.pairing T.right.heap s s') :
    Thins (fun T' t t' => T'.left.heap.Opposite T'.pairing T'.right.heap t t' ∧
        T'.left.heap.kept T'.pairing t = true :: T.left.heap.kept T.pairing s)
      (Run.change (·.newScope (some s))) (Run.change (·.newScope (some s'))) T := by
  obtain ⟨made, around, kept⟩ := thins.heap.newScope opposite
  exact change thins (T.left.heap.extends_newScope _) (T.right.heap.extends_newScope _)
    (Pairing.grows_update _ _ _) made ⟨around, kept⟩

theorem newFunction {k k' : Closure} (thins : T.Thins)
    (same : k.Thins T.pairing T.left.heap T.right.heap [] k') :
    Thins Equals (Run.change (·.newFunction k)) (Run.change (·.newFunction k')) T := by
  obtain ⟨number, made⟩ := thins.heap.newFunction same
  exact change thins (T.left.heap.extends_newFunction k) (T.right.heap.extends_newFunction k')
    (Pairing.grows_refl _ _) made number.symm

theorem bindReceiver {k k' : Closure} (thins : T.Thins)
    (same : k.Thins T.pairing T.left.heap T.right.heap [true] k') (i : InstanceId) :
    Thins (fun T' k k' => k.Thins T'.pairing T'.left.heap T'.right.heap [] k')
      (Run.change (·.bindReceiver k i)) (Run.change (·.bindReceiver k' i)) T := by
  obtain ⟨made, bound⟩ := thins.heap.bindReceiver same i
  exact change thins (T.left.heap.extends_bindReceiver k i)
    (T.right.heap.extends_bindReceiver k' i) (Pairing.grows_update _ _ _) made bound

theorem bound {k k' : Closure} (thins : T.Thins)
    (same : k.Thins T.pairing T.left.heap T.right.heap [true] k') (i : InstanceId) :
    Thins Equals (Run.bound k i) (Run.bound k' i) T := by
  refine (bindReceiver thins same i).bind fun k k' T₁ _ thins₁ same₁ => ?_
  refine (newFunction thins₁ same₁).bind ?_
  rintro f _ T₂ - thins₂ rfl
  exact pure thins₂ rfl

/-- A method is looked up, and bound if there is one. -/
theorem boundMethod (thins : T.Thins) (c : ClassId) (i : InstanceId) (name : Name) :
    Thins Equals
      (match T.left.heap.findMethod c name.text with
      | some method => Run.bound method i
      | none => Run.fault (.undefinedProperty name.text) (some name.token))
      (match T.right.heap.findMethod c name.text with
      | some method => Run.bound method i
      | none => Run.fault (.undefinedProperty name.text) (some name.token)) T := by
  have found := thins.heap.findMethod c name.text
  generalize T.left.heap.findMethod c name.text = o,
    T.right.heap.findMethod c name.text = o' at found
  cases found with
  | none => exact fault thins _ (some name.token)
  | some same => exact bound thins same i

theorem property (thins : T.Thins) (i : InstanceId) (name : Name) :
    Thins Equals (Run.property i name) (Run.property i name) T := by
  have same : T.right.heap.instance? i = T.left.heap.instance? i := by
    rw [Heap.instance?, Heap.instance?, thins.heap.instances]
  refine read ((follow_same thins same).bind ?_)
  rintro o _ _ - - ⟨rfl, rfl⟩
  cases o.fields.find? name.text with
  | some v => exact pure thins rfl
  | none => exact boundMethod thins o.ofClass i name

theorem setField (thins : T.Thins) (i : InstanceId) (x : String) (v : Value) :
    Thins Equals (Run.update (·.setField i x v)) (Run.update (·.setField i x v)) T :=
  update thins (T.left.heap.extends_setField i x v) (T.right.heap.extends_setField i x v)
    (thins.heap.setField i x v) rfl

theorem inheritedMethod {pos : Pos} {method : Name} {a a' : Address} (view : T.View ks)
    (shortens : Option.Rel (fun d e => Skips ks d e ∧ Skips ks (d - 1) (e - 1)) a a') :
    Thins Equals (Run.inheritedMethod pos method a) (Run.inheritedMethod pos method a') T := by
  refine read ((follow view.toThins shortens).bind ?_)
  rintro d e _ - - ⟨rfl, skips, inner⟩
  have address : Address.Shortens ks a a' := rel_imp shortens fun _ _ _ both => both.1
  refine (lookUp view address).bind ?_
  rintro parent _ _ - - ⟨rfl, rfl⟩
  refine active ?_
  rw [← view.kept] at skips inner
  rcases view.opposite.getAt view.heap.toPaired (skips.distances_pred inner) "this" with
    ⟨b, found, found'⟩ | ⟨u, u', alike, missed, missed'⟩
  · rw [found, found']
    split
    · exact boundMethod view.toThins _ _ method
    · next none => cases b <;> cases none
    · exact stop view.toThins (.same _)
  · rw [missed, missed']
    have stops : Thins Equals (throw (.unbound u) : Run Value) (throw (.unbound u')) T :=
      stop view.toThins (.unbound alike)
    cases parent with
    | callable c => cases c <;> exact stops
    | _ => exact stops

theorem superclass {parent : Name} {a a' : Address} (view : T.View ks)
    (shortens : Address.Shortens ks a a') :
    Thins Equals (Run.superclass ⟨parent, a⟩) (Run.superclass ⟨parent, a'⟩) T := by
  refine (lookUp view shortens).bind ?_
  rintro v _ _ - - ⟨rfl, rfl⟩
  have other : Thins (Equals (α := ClassId)) (Run.fault .superclassNotClass (some parent.token))
      (Run.fault .superclassNotClass (some parent.token)) T := fault view.toThins _ _
  cases v with
  | callable c =>
      cases c with
      | ofClass c => exact pure view.toThins rfl
      | native _ | function _ => exact other
  | nil | bool _ | number _ | text _ | object _ => exact other

theorem defineBound (view : T.View ks) (inner : Skips ks 0 0) (x : String) (v : Option Value) :
    Thins (fun T' _ _ => (T'.left.heap.binding? T'.left.active x).isSome = true)
      (Run.define x v) (Run.define x v) T := by
  have paired := view.opposite.innermost (view.kept ▸ inner)
  refine active (update view.toThins (T.left.heap.extends_define _ x v)
    (T.right.heap.extends_define _ x v) (view.heap.define paired x v) ?_)
  rw [Heap.binding?_define_self _ _ view.opposite.alive_head]
  rfl

/-- A name that the active scope binds is assigned there. -/
theorem assignHere {name : Name} (view : T.View ks) (inner : Skips ks 0 0)
    (bound : (T.left.heap.binding? T.left.active name.text).isSome = true) (v : Value) :
    Thins Equals (Run.assignFrom T.left.active name v) (Run.assignFrom T.right.active name v) T := by
  have paired := view.opposite.innermost (view.kept ▸ inner)
  have here : T.left.heap.binder? T.left.active name.text = some T.left.active := by
    simp [Heap.binder?, Heap.chain, bound]
  have here' : T.right.heap.binder? T.right.active name.text = some T.right.active := by
    simp [Heap.binder?, Heap.chain, view.heap.toPaired.binding? paired, bound]
  refine read ?_
  rw [here, here']
  exact updateDefine view.toThins paired name.text (some v)

/-- The scope of methods, which is kept. -/
theorem methodScope (view : T.View ks) (above : Option ClassId) :
    Thins (fun T' t t' => T'.left.heap.Opposite T'.pairing T'.right.heap t t' ∧
        T'.left.heap.kept T'.pairing t = above.toList.map (fun _ => true) ++ ks)
      (Recorded.methodScope T.left.active above) (Recorded.methodScope T.right.active above) T := by
  cases above with
  | none => exact pure view.toThins ⟨view.opposite, view.kept⟩
  | some c =>
      refine (newScope view.toThins view.opposite).bind ?_
      rintro t t' T₁ - thins₁ ⟨opposite, kept⟩
      have paired := opposite.innermost (kept ▸ .here _)
      refine (updateDefine thins₁ paired "super" (some (.callable (.ofClass c)))).bind ?_
      rintro _ _ T₂ later₂ thins₂ -
      refine pure thins₂ ⟨later₂.opposite opposite, ?_⟩
      rw [later₂.kept opposite, kept, view.kept]
      rfl

end Thins

/-- The methods of a class, which all see the same scopes. -/
theorem methodTable_thins {w : Pairing} {h h' : Heap} {s s' : ScopeId}
    {methods methods' : List (Routine Address)} (opposite : h.Opposite w h' s s')
    (shorten : ShortensMethods (true :: h.kept w s) methods methods') (x : String) :
    Option.Rel (Closure.Thins w h h' [true]) ((Run.methodTable s methods).find? x)
      ((Run.methodTable s' methods').find? x) := by
  unfold Run.methodTable
  suffices each : ∀ t t' : Table Closure,
      Option.Rel (Closure.Thins w h h' [true]) (t.find? x) (t'.find? x) →
      Option.Rel (Closure.Thins w h h' [true])
        ((methods.foldl (fun t r => t.put r.name.text ⟨r, s, r.name.text = "init"⟩) t).find? x)
        ((methods'.foldl (fun t r => t.put r.name.text ⟨r, s', r.name.text = "init"⟩) t').find? x)
    from each Table.empty Table.empty .none
  induction methods generalizing methods' with
  | nil =>
      cases shorten
      exact fun t t' thins => thins
  | cons r rest ih =>
      cases shorten with
      | cons here others =>
          intro t t' thins
          refine ih others _ _ ?_
          rw [Table.find?_put, Table.find?_put, here.name]
          split
          · exact .some ⟨opposite, here, rfl, fun _ => .here _⟩
          · exact thins

namespace Thins
variable {Q Q' : Twin → α → α → Prop} {P : Twin → β → β → Prop} {x x' : Run α}

theorem makeClass {name : Name} {above : Option ClassId} {methods methods' : List (Routine Address)}
    {s s' : ScopeId} (view : T.View ks) (inner : Skips ks 0 0)
    (bound : (T.left.heap.binding? T.left.active name.text).isSome = true)
    (opposite : T.left.heap.Opposite T.pairing T.right.heap s s')
    (shorten : ShortensMethods (true :: T.left.heap.kept T.pairing s) methods methods') :
    Thins Equals (Recorded.makeClass name above methods T.left.active s)
      (Recorded.makeClass name above methods' T.right.active s') T := by
  have e := T.left.heap.extends_newClass name.text above (Run.methodTable s methods)
  have e' := T.right.heap.extends_newClass name.text above (Run.methodTable s' methods')
  obtain ⟨number, made⟩ := view.heap.newClass name.text above (methodTable_thins opposite shorten)
  have created : Thins (fun T' k k' => k = k' ∧ T'.left.active = T.left.active ∧
        T'.right.active = T.right.active ∧
        (T'.left.heap.binding? T'.left.active name.text).isSome = true)
      (Run.change (·.newClass name.text above (Run.methodTable s methods)))
      (Run.change (·.newClass name.text above (Run.methodTable s' methods'))) T :=
    change view.toThins e e' (Pairing.grows_refl _ _) made ⟨number.symm, rfl, rfl, e.bound bound⟩
  refine created.bind ?_
  rintro k _ T₁ later thins₁ ⟨rfl, same, same', bound'⟩
  rw [← same, ← same']
  exact assignHere (later.view view thins₁) inner bound' _

theorem bindClass {name : Name} (above : Option ClassId) {methods methods' : List (Routine Address)}
    (view : T.View ks) (inner : Skips ks 0 0)
    (shorten : ShortensMethods (true :: (above.toList.map (fun _ => true) ++ ks)) methods methods') :
    Thins Equals (Recorded.bindClass name above methods) (Recorded.bindClass name above methods')
      T := by
  refine (defineBound view inner name.text none).bind ?_
  rintro _ _ T₁ later thins₁ bound
  have view₁ := later.view view thins₁
  refine active ((methodScope view₁ above).bind ?_)
  rintro s s' T₂ later₂ thins₂ ⟨opposite, kept⟩
  rw [← later₂.active, ← later₂.active']
  refine makeClass (later₂.view view₁ thins₂) inner ?_ opposite (kept ▸ shorten)
  rw [later₂.active]
  exact later₂.grown.bound bound

/-- A function that is declared sees its own scope. -/
theorem declareFunction {r r' : Routine Address} (view : T.View ks) (inner : Skips ks 0 0)
    (shortens : r.Shortens ks r') :
    Thins Equals
      (do
        let f ← Run.change (·.newFunction ⟨r, (← Run.active), false⟩)
        Run.define r.name.text (some (.callable (.function f))))
      (do
        let f ← Run.change (·.newFunction ⟨r', (← Run.active), false⟩)
        Run.define r'.name.text (some (.callable (.function f)))) T := by
  have same : Closure.Thins T.pairing T.left.heap T.right.heap [] ⟨r, T.left.active, false⟩
      ⟨r', T.right.active, false⟩ :=
    ⟨view.opposite, view.kept ▸ shortens, rfl, fun initializer => by cases initializer⟩
  rw [shortens.name]
  refine active ((newFunction view.toThins same).bind ?_)
  rintro f _ T₁ later thins₁ rfl
  exact define (later.view view thins₁) inner _ _

theorem display (thins : T.Thins) (v : Value) :
    Thins Equals (do Run.print ((← Run.heap).display v)) (do Run.print ((← Run.heap).display v))
      T := by
  refine read ?_
  rw [thins.heap.display]
  exact print thins _

/-! Scopes and rounds. -/

/-- Both run with other scopes active. -/
theorem within {s s' : ScopeId} {x x' : Run α} (inner : Thins Equals x x' (T.entering s s')) :
    Thins Equals (Run.within s x) (Run.within s' x') T := by
  unfold Thins at inner ⊢
  generalize left : x (T.entering s s').left = y, right : x' (T.entering s s').right = y' at inner
  cases inner with
  | ok later thins same =>
      have ended := Twin.Ends.ok (Q := Equals) later.leave (thins.entering _ _) same
      rw [within_ok left, within_ok right]
      exact ended
  | error later thins alike =>
      have ended := Twin.Ends.error (α := α) (Q := Equals) later.leave (thins.entering _ _) alike
      rw [within_error left, within_error right]
      exact ended

/-- A scope is entered on both machines. -/
theorem enter {x x' : Run α} (view : T.View ks)
    (inner : ∀ T' : Twin, T'.View (true :: ks) → Thins Equals x x' T') :
    Thins Equals
      (do
        let s ← Run.change (·.newScope (some (← Run.active)))
        Run.within s x)
      (do
        let s ← Run.change (·.newScope (some (← Run.active)))
        Run.within s x') T := by
  refine active ((newScope view.toThins view.opposite).bind ?_)
  rintro s s' T₁ - thins₁ ⟨opposite, kept⟩
  exact within (inner _ ⟨thins₁.entering s s', opposite, by rw [← view.kept]; exact kept⟩)

/-- A scope left out is entered on the first machine alone. -/
theorem enterLeft {x x' : Run α} (view : T.View ks)
    (inner : ∀ T' : Twin, T'.View (false :: ks) → Thins Equals x x' T') :
    Thins Equals
      (do
        let s ← Run.change (·.newScope (some (← Run.active)))
        Run.within s x) x' T := by
  obtain ⟨made, opposite, kept⟩ := view.heap.newScopeLeft view.opposite
  let T₁ : Twin := ⟨Function.update T.pairing ⟨T.left.heap.scopes.size⟩ none,
    { T.left with heap := (T.left.heap.newScope (some T.left.active)).2 }, T.right⟩
  have begun : T.Later T₁ :=
    ⟨T.left.heap.extends_newScope _, .refl _, rfl, rfl, Pairing.grows_update _ _ _⟩
  have run := inner (T₁.entering ⟨T.left.heap.scopes.size⟩ T.right.active)
    ⟨⟨made, view.world⟩, opposite, view.kept ▸ kept⟩
  have stayed {T' : Twin} (later : (T₁.entering ⟨T.left.heap.scopes.size⟩ T.right.active).Later T') :
      (T'.entering T.left.active T.right.active).right = T'.right := by
    obtain ⟨w, left, right⟩ := T'
    obtain ⟨heap, active, world⟩ := right
    cases later.active'
    rfl
  change T.Ends Equals (Run.within ⟨T.left.heap.scopes.size⟩ x T₁.left) (x' T.right)
  unfold Thins at run
  generalize left : x (T₁.entering _ _).left = y, right : x' (T₁.entering _ _).right = y' at run
  cases run with
  | ok later thins same =>
      have ended := Twin.Ends.ok (Q := Equals) (begun.trans later.leave) (thins.entering _ _) same
      rw [within_ok left]
      rw [stayed later, ← right] at ended
      exact ended
  | error later thins alike =>
      have ended := Twin.Ends.error (α := α) (Q := Equals) (begun.trans later.leave)
        (thins.entering _ _) alike
      rw [within_error left]
      rw [stayed later, ← right] at ended
      exact ended

/-- A routine is entered. -/
theorem openActivation {k k' : Closure} (arguments : List Value) (thins : T.Thins)
    (same : k.Thins T.pairing T.left.heap T.right.heap [] k') :
    Thins (fun T' s s' =>
        (T'.entering s s').View (true :: T.left.heap.kept T.pairing k.scope))
      (Recorded.openActivation k arguments) (Recorded.openActivation k' arguments) T := by
  unfold Recorded.openActivation
  rw [same.code.params]
  refine (newScope thins same.scope).bind ?_
  rintro s s' T₁ later thins₁ ⟨opposite, kept⟩
  have paired := opposite.innermost (kept ▸ .here _)
  have bound : Thins Equals (Run.update (Run.bindParameters s k.declaration.params arguments))
      (Run.update (Run.bindParameters s' k.declaration.params arguments)) T₁ :=
    update thins₁ (T₁.left.heap.extends_bindParameters _ _ _)
      (T₁.right.heap.extends_bindParameters _ _ _)
      (Heap.Thins.bindParameters paired _ _ _ _ thins₁.heap) rfl
  refine bound.bind ?_
  rintro _ _ T₂ later₂ thins₂ -
  exact pure thins₂ ⟨thins₂.entering s s', later₂.opposite opposite,
    (later₂.kept opposite).trans kept⟩

/-- An initializer yields its receiver. -/
theorem yielded {k k' : Closure} (thins : T.Thins)
    (same : k.Thins T.pairing T.left.heap T.right.heap [] k') (v : Value) :
    Thins Equals (Run.yielded k v) (Run.yielded k' v) T := by
  unfold Run.yielded
  rw [same.initializer]
  by_cases initializer : k.isInitializer = true
  · have distances := (same.receiver initializer).distances
    rw [if_pos initializer, if_pos initializer]
    refine read ?_
    rcases same.scope.getAt thins.heap.toPaired distances "this" with
      ⟨b, found, found'⟩ | ⟨u, u', -, missed, missed'⟩
    · rw [Int.ofNat_zero] at found found'
      rw [found, found']
      cases Heap.read "this" b with
      | ok receiver => exact pure thins rfl
      | error _ => exact stop thins (.same _)
    · rw [Int.ofNat_zero] at missed missed'
      rw [missed, missed']
      exact stop thins (.same _)
  · rw [if_neg initializer, if_neg initializer]
    exact pure thins rfl

theorem bodyValue {x x' : Run Unit} (body : Thins Equals x x' T) :
    Thins Equals (Run.bodyValue x) (Run.bodyValue x') T := by
  unfold Thins at body ⊢
  unfold Run.bodyValue
  generalize x _ = y, x' _ = y' at body
  cases body with
  | ok later thins _ => exact .ok later thins rfl
  | @error e _ _ later thins alike =>
      cases alike with
      | unbound alike => exact .error later thins (.unbound alike)
      | same =>
          cases e with
          | returned v => exact .ok later thins rfl
          | _ => exact .error later thins (.same _)

/-- Each round is the same on both machines, so all rounds are. -/
theorem repeatWhile {round round' : Run Bool}
    (each : ∀ T : Twin, T.View ks → Thins Equals round round' T) (n : Nat) :
    ∀ T : Twin, T.View ks →
      Thins Equals (Run.repeatWhile round n) (Run.repeatWhile round' n) T := by
  induction n with
  | zero => exact fun T view => stop view.toThins (.same _)
  | succ n ih =>
      intro T view
      refine (each T view).bind ?_
      rintro again _ T₁ later thins₁ rfl
      cases again with
      | true => exact ih T₁ (later.view view thins₁)
      | false => exact pure thins₁ rfl

end Thins
end Run
end LoxLang
