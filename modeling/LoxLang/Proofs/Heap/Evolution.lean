import LoxLang.Proofs.Chronicle.Faithful
import Mathlib.Logic.Relation
/-! How a heap evolves. A run changes its heap in a few ways only, and each of them makes at most one
thing, which refers to things that are there. So what a thing refers to was made before it, and from
every scope the links to the enclosing ones lead to the global scope. -/
namespace LoxLang

/-- What is made on a heap and stays. -/
inductive Thing where
  | scope (s : ScopeId)
  | function (f : FunctionId)
  | ofClass (c : ClassId)
  | object (i : InstanceId)

namespace Heap
variable {h h' h'' : Heap} {a b : Thing} {s t : ScopeId}

def Has (h : Heap) : Thing → Prop
  | .scope s => h.Alive s
  | .function f => h.Leads (.function f)
  | .ofClass c => h.Leads (.ofClass c)
  | .object i => h.Valid (.object i)

/-- The scope directly around a scope. -/
def enclosing? (h : Heap) (s : ScopeId) : Option ScopeId :=
  (h.scope? s).bind fun scope => scope.outer.head?

/-- What a thing refers to from the time when it is made: a scope to the enclosing one, a closure to
its scope, a class to the class above and the scope of its methods, an instance to its class. -/
inductive Refers (h : Heap) : Thing → Thing → Prop
  | enclosing {s t : ScopeId} : h.enclosing? s = some t → Refers h (.scope s) (.scope t)
  | closure {f : FunctionId} {k : Closure} : h.function? f = some k →
    Refers h (.function f) (.scope k.scope)
  | method {c : ClassId} {k : Class} {x : String} {m : Closure} : h.class? c = some k →
    k.methods.find? x = some m → Refers h (.ofClass c) (.scope m.scope)
  | superclass {c p : ClassId} {k : Class} : h.class? c = some k → k.superclass? = some p →
    Refers h (.ofClass c) (.ofClass p)
  | object {i : InstanceId} {o : Instance} : h.instance? i = some o →
    Refers h (.object i) (.ofClass o.ofClass)

/-- One change of a heap. What is made or stored refers to things that are there. -/
inductive Change (h : Heap) : Heap → Prop
  | scope {around : ScopeId} : h.Alive around → Change h (h.newScope (some around)).2
  | binding (s : ScopeId) (x : String) {v : Option Value} : (∀ w, v = some w → h.Valid w) →
    Change h (h.define s x v)
  | function {k : Closure} : h.Alive k.scope → Change h (h.newFunction k).2
  | ofClass (name : String) {above : Option ClassId} {methods : Table Closure} :
    (∀ p, above = some p → h.Leads (.ofClass p)) →
    (∀ x m, methods.find? x = some m → h.Alive m.scope) →
    Change h (h.newClass name above methods).2
  | object {c : ClassId} : h.Leads (.ofClass c) → Change h (h.newInstance c).2
  | field (i : InstanceId) (x : String) {v : Value} : h.Valid v → Change h (h.setField i x v)
  | native {r : Native} : r.Sane → Change h (h.newNative r).2

theorem Change.grown (change : h.Change h') : h.Extends h' := by
  cases change with
  | scope _ => exact h.extends_newScope _
  | binding s x _ => exact h.extends_define s x _
  | function _ => exact h.extends_newFunction _
  | ofClass name _ _ => exact h.extends_newClass name _ _
  | object _ => exact h.extends_newInstance _
  | field i x _ => exact h.extends_setField i x _
  | native _ => exact h.extends_newNative _

theorem Has.grow (has : h.Has a) (grown : h.Extends h') : h'.Has a := by
  cases a with
  | scope s => exact grown.alive has
  | function f => exact Leads.grow (c := .function f) has grown
  | ofClass c => exact Leads.grow (c := .ofClass c) has grown
  | object i => exact Valid.grow (v := .object i) has grown

theorem Extends.enclosing (grown : h.Extends h') (alive : h.Alive s) :
    h'.enclosing? s = h.enclosing? s := by
  obtain ⟨k, found⟩ := Option.isSome_iff_exists.mp alive
  obtain ⟨k', found', grows⟩ := grown.scopes s k found
  rw [enclosing?, enclosing?, found, found', Option.bind_some, Option.bind_some, grows.outer]

/-- A thing goes on to refer to what it referred to, and to nothing else. -/
theorem Extends.refers_iff (grown : h.Extends h') (has : h.Has a) :
    h'.Refers a b ↔ h.Refers a b := by
  constructor
  · intro refers
    cases refers with
    | enclosing linked => exact .enclosing (grown.enclosing has ▸ linked)
    | @closure f k found' =>
        obtain ⟨k', found⟩ := Option.isSome_iff_exists.mp has
        cases found'.symm.trans (grown.functions f k' found)
        exact .closure found
    | @method c k x m found' named =>
        obtain ⟨k', found⟩ := Option.isSome_iff_exists.mp has
        cases found'.symm.trans (grown.classes c k' found)
        exact .method found named
    | @superclass c p k found' above =>
        obtain ⟨k', found⟩ := Option.isSome_iff_exists.mp has
        cases found'.symm.trans (grown.classes c k' found)
        exact .superclass found above
    | @object i o found' =>
        obtain ⟨o', found⟩ := Option.isSome_iff_exists.mp has
        obtain ⟨o'', found'', grows⟩ := grown.instances i o' found
        cases found'.symm.trans found''
        exact grows.ofClass ▸ .object found
  · intro refers
    cases refers with
    | enclosing linked => exact .enclosing ((grown.enclosing has).trans linked)
    | closure found => exact .closure (grown.functions _ _ found)
    | method found named => exact .method (grown.classes _ _ found) named
    | superclass found above => exact .superclass (grown.classes _ _ found) above
    | object found =>
        obtain ⟨o', found', grows⟩ := grown.instances _ _ found
        exact grows.ofClass ▸ .object found'

/-- A new scope is in front of one that was there. -/
theorem Change.scope_new (change : h.Change h') (alive : h'.Alive s) (new : ¬h.Alive s) :
    ∃ t, h.Alive t ∧ h'.enclosing? s = some t ∧ h'.chain s = s :: h'.chain t := by
  have grown := change.grown
  cases change with
  | @scope around here =>
      obtain rfl : s = ⟨h.scopes.size⟩ := (alive_newScope_iff.mp alive).resolve_right new
      refine ⟨around, here, ?_, ?_⟩
      · rw [enclosing?, scope?_newScope, if_pos rfl]
        rfl
      · rw [chain_newScope_self, grown.chain here]
  | binding s x _ => exact absurd (alive_define.mp alive) new
  | _ => exact absurd alive new

theorem Change.function_new (change : h.Change h') {f : FunctionId} {k : Closure}
    (found : h'.function? f = some k) (new : ¬h.Leads (.function f)) : h.Alive k.scope := by
  cases change with
  | function alive =>
      rw [function?_newFunction] at found
      split at found
      · cases found
        exact alive
      · exact absurd (Option.isSome_iff_exists.mpr ⟨k, found⟩) new
  | _ => exact absurd (Option.isSome_iff_exists.mpr ⟨k, found⟩) new

theorem Change.class_new (change : h.Change h') {c : ClassId} {k : Class}
    (found : h'.class? c = some k) (new : ¬h.Leads (.ofClass c)) :
    (∀ x m, k.methods.find? x = some m → h.Alive m.scope) ∧
      ∀ p, k.superclass? = some p → h.Leads (.ofClass p) := by
  cases change with
  | @ofClass name above methods leads alive =>
      rw [class?_newClass] at found
      split at found
      · cases found
        refine ⟨alive, fun p linked => ?_⟩
        cases above with
        | none => cases linked
        | some p' =>
            cases linked
            exact leads p rfl
      · exact absurd (Option.isSome_iff_exists.mpr ⟨k, found⟩) new
  | _ => exact absurd (Option.isSome_iff_exists.mpr ⟨k, found⟩) new

theorem Change.instance_new (change : h.Change h') {i : InstanceId} {o : Instance}
    (found : h'.instance? i = some o) (new : ¬h.Valid (.object i)) :
    h.Leads (.ofClass o.ofClass) := by
  cases change with
  | object leads =>
      rw [instance?_newInstance] at found
      split at found
      · cases found
        exact leads
      · exact absurd (Option.isSome_iff_exists.mpr ⟨o, found⟩) new
  | @field j x v _ =>
      refine absurd ?_ new
      rw [instance?_setField] at found
      split at found
      · obtain ⟨o', found', -⟩ := Option.map_eq_some_iff.mp found
        exact Option.isSome_iff_exists.mpr ⟨o', found'⟩
      · exact Option.isSome_iff_exists.mpr ⟨o, found⟩
  | _ => exact absurd (Option.isSome_iff_exists.mpr ⟨o, found⟩) new

/-- What a new thing refers to was there before. A new thing was made by the one change that makes
things of its kind, under its guard. -/
theorem Change.refers_new (change : h.Change h') (refers : h'.Refers a b) (new : ¬h.Has a) :
    h.Has b := by
  cases refers with
  | @enclosing s t linked =>
      obtain ⟨k, found, -⟩ := Option.bind_eq_some_iff.mp linked
      obtain ⟨t', alive, linked', -⟩ :=
        change.scope_new (Option.isSome_iff_exists.mpr ⟨k, found⟩) new
      cases linked.symm.trans linked'
      exact alive
  | closure found => exact change.function_new found new
  | method found named => exact (change.class_new found new).1 _ _ named
  | superclass found linked => exact (change.class_new found new).2 _ linked
  | object found => exact change.instance_new found new

theorem Change.typed (change : h.Change h') (typed : h.Typed) : h'.Typed := by
  cases change with
  | scope _ => exact typed.newScope _
  | binding s x valid => exact typed.define valid
  | function _ => exact typed.newFunction _
  | ofClass name leads _ => exact typed.newClass name _ leads
  | object leads => exact typed.newInstance leads
  | field i x valid => exact typed.setField valid
  | native _ => exact typed.newNative _

theorem Change.sane (change : h.Change h') (natives : ∀ n r, h.native? n = some r → r.Sane)
    (n : NativeId) (r : Native) (found : h'.native? n = some r) : r.Sane := by
  cases change with
  | native sane =>
      rw [native?_newNative] at found
      split at found
      · cases found
        exact sane
      · exact natives n r found
  | _ => exact natives n r found

/-! Sequences of changes. -/

/-- The second heap comes of the first by changes. -/
def Evolves : Heap → Heap → Prop := Relation.ReflTransGen Change

namespace Evolves

theorem refl (h : Heap) : h.Evolves h := Relation.ReflTransGen.refl

theorem one (change : h.Change h') : h.Evolves h' := Relation.ReflTransGen.single change

theorem trans (first : h.Evolves h') (second : h'.Evolves h'') : h.Evolves h'' :=
  Relation.ReflTransGen.trans first second

theorem grown (evolves : h.Evolves h') : h.Extends h' := by
  induction evolves with
  | refl => exact .refl h
  | tail _ change ih => exact ih.trans change.grown

end Evolves

theorem evolves_bindParameters (s : ScopeId) (ps : List Name) {vs : List Value}
    (valid : ∀ v ∈ vs, h.Valid v) : h.Evolves (Run.bindParameters s ps vs h) := by
  induction ps generalizing h vs with
  | nil => exact .refl h
  | cons p ps ih =>
      cases vs with
      | nil => exact .refl h
      | cons v vs =>
          obtain ⟨first, others⟩ := List.forall_mem_cons.mp valid
          have change : h.Change (h.define s p.text (some v)) :=
            .binding s p.text fun w same => Option.some.inj same ▸ first
          exact (Evolves.one change).trans (ih fun w member => (others w member).grow change.grown)

/-- A scope with one binding is made in two changes. -/
theorem evolves_newScopeWith {around : ScopeId} (alive : h.Alive around) (x : String) {v : Value}
    (valid : h.Valid v) :
    let made := h.newScope (some around)
    h.Evolves (made.2.define made.1 x (some v)) ∧ (made.2.define made.1 x (some v)).Alive made.1 := by
  intro made
  have opened : h.Change made.2 := .scope alive
  refine ⟨(Evolves.one opened).trans (.one (.binding _ x fun w same => ?_)), ?_⟩
  · exact Option.some.inj same ▸ valid.grow opened.grown
  · exact alive_define.mpr (alive_newScope_iff.mpr (.inl rfl))

/-- The heaps before a heap, from the start on, the latest first. -/
inductive History : Heap → List Heap → Prop
  | start : History Heap.start []
  | change {h h' : Heap} {past : List Heap} : History h past → h.Change h' →
    History h' (h :: past)

theorem Evolves.history (evolves : Heap.start.Evolves h) : ∃ past, h.History past := by
  induction evolves with
  | refl => exact ⟨[], .start⟩
  | tail _ change ih =>
      obtain ⟨past, history⟩ := ih
      exact ⟨_, history.change change⟩

/-- At the start nothing refers to anything. -/
theorem not_refers_start : ¬Heap.start.Refers a b := by
  intro refers
  cases refers with
  | @enclosing s t linked =>
      obtain ⟨k, found, outer⟩ := Option.bind_eq_some_iff.mp linked
      rw [show Heap.start = (Heap.empty.newScope none).2 from rfl, scope?_newScope] at found
      split at found
      · cases found
        cases outer
      · cases found
  | closure found => cases found
  | method found _ => cases found
  | superclass found _ => cases found
  | object found => cases found

/-- What a thing refers to was made before it, in whatever way the heap has come about. -/
theorem History.earlier {past : List Heap} (history : h.History past) (refers : h.Refers a b) :
    ∃ before ∈ past, before.Has b ∧ ¬before.Has a := by
  induction history with
  | start => exact absurd refers not_refers_start
  | @change h h' past _ change ih =>
      -- Either it was there before the last change, or that change has made it.
      by_cases has : h.Has a
      · obtain ⟨before, member, made⟩ := ih ((change.grown.refers_iff has).mp refers)
        exact ⟨before, List.mem_cons_of_mem _ member, made⟩
      · exact ⟨h, List.mem_cons_self, change.refers_new refers has, has⟩

/-! Links. -/

/-- What holds of references on a heap. Every scope but the global one is in front of one that was
made before, and references lead somewhere. -/
structure Linked (h : Heap) : Prop where
  globals : h.Alive Machine.globals
  outermost : h.enclosing? Machine.globals = none
  enclosed : ∀ s, h.Alive s → s ≠ Machine.globals → ∃ t, h.enclosing? s = some t ∧
    t.index < s.index ∧ h.chain s = s :: h.chain t
  present : ∀ a b, h.Refers a b → h.Has b
  typed : h.Typed
  natives : ∀ n r, h.native? n = some r → r.Sane

theorem linked_start : Heap.start.Linked := by
  refine ⟨rfl, rfl, fun s alive other => ?_, fun a b refers => absurd refers not_refers_start, ?_,
    by rintro n r ⟨⟩⟩
  · refine absurd (scopeId_eq_iff.mpr ?_) other
    exact Nat.lt_one_iff.mp (alive_iff.mp alive)
  · have empty : Heap.empty.Typed := by
      refine ⟨?_, ?_, ?_, ?_⟩
      · rintro s x v ⟨⟩
      · rintro i o x v ⟨⟩
      · rintro i o ⟨⟩
      · rintro c k ⟨⟩
    exact empty.newScope none

namespace Linked

theorem change (linked : h.Linked) (change : h.Change h') : h'.Linked := by
  have grown := change.grown
  refine ⟨grown.alive linked.globals, (grown.enclosing linked.globals).trans linked.outermost, ?_,
    fun a b refers => ?_, change.typed linked.typed, change.sane linked.natives⟩
  · intro s alive other
    -- What was there keeps its links, and what is new is linked to what was there.
    by_cases old : h.Alive s
    · obtain ⟨t, link, earlier, chain⟩ := linked.enclosed s old other
      have outer : h.Alive t := alive_iff.mpr (Nat.lt_trans earlier (alive_iff.mp old))
      refine ⟨t, (grown.enclosing old).trans link, earlier, ?_⟩
      rw [grown.chain old, grown.chain outer, chain]
    · obtain ⟨t, outer, link, chain⟩ := change.scope_new alive old
      rw [alive_iff] at old outer
      exact ⟨t, link, Nat.lt_of_lt_of_le outer (Nat.le_of_not_lt old), chain⟩
  · by_cases has : h.Has a
    · exact (linked.present a b ((grown.refers_iff has).mp refers)).grow grown
    · exact (change.refers_new refers has).grow grown

theorem evolves (linked : h.Linked) (evolves : h.Evolves h') : h'.Linked := by
  induction evolves with
  | refl => exact linked
  | tail _ step ih => exact ih.change step

/-- The methods that are found in a class have a scope that is on the heap. -/
theorem methodAlive (linked : h.Linked) {c d : ClassId} {x : String} {method : Closure}
    (found : h.findDeclared c x = some (d, method)) : h.Alive method.scope := by
  obtain ⟨d', -, same⟩ := List.exists_of_findSome?_eq_some found
  obtain ⟨method', named, same⟩ := Option.map_eq_some_iff.mp same
  cases same
  obtain ⟨c', here, there⟩ := Option.bind_eq_some_iff.mp named
  exact linked.present _ _ (.method here there)

end Linked

/-- The scopes from one outward, link by link. -/
inductive Climbs (h : Heap) : ScopeId → List ScopeId → Prop
  | outermost {s : ScopeId} : h.enclosing? s = none → Climbs h s [s]
  | outward {s t : ScopeId} {ts : List ScopeId} : h.enclosing? s = some t → Climbs h t ts →
    Climbs h s (s :: ts)

theorem Climbs.unique {ts us : List ScopeId} (climbs : h.Climbs s ts) (climbs' : h.Climbs s us) :
    us = ts := by
  induction climbs generalizing us with
  | outermost none =>
      cases climbs' with
      | outermost _ => rfl
      | outward link _ => cases none.symm.trans link
  | outward link _ ih =>
      cases climbs' with
      | outermost none => cases none.symm.trans link
      | outward link' rest =>
          cases link.symm.trans link'
          rw [ih rest]

/-- The way outward from a scope comes to an end, in the global scope, and each scope on it was made
before the one that it is around. -/
structure Descends (h : Heap) (s : ScopeId) : Prop where
  climbs : ∀ ts, h.Climbs s ts ↔ ts = h.chain s
  ends : (h.chain s).getLast? = some Machine.globals
  earlier : (h.chain s).Pairwise fun inner outer => outer.index < inner.index

theorem Linked.descends (linked : h.Linked) (alive : h.Alive s) : h.Descends s := by
  have top : h.chain Machine.globals = [Machine.globals] := by
    obtain ⟨k, found⟩ := Option.isSome_iff_exists.mp linked.globals
    have none := linked.outermost
    rw [enclosing?, found, Option.bind_some, List.head?_eq_none_iff] at none
    rw [chain, found, Option.map_some, Option.getD_some, none]
  suffices all : ∀ n s, s.index < n → h.Alive s → h.Climbs s (h.chain s) ∧
      (h.chain s).getLast? = some Machine.globals ∧
      (h.chain s).Pairwise fun inner outer => outer.index < inner.index by
    obtain ⟨climbs, ends, earlier⟩ := all (s.index + 1) s (Nat.lt_succ_self _) alive
    exact ⟨fun ts => ⟨climbs.unique, fun same => same ▸ climbs⟩, ends, earlier⟩
  -- The links lead to ever smaller numbers.
  intro n
  induction n with
  | zero => exact fun s less _ => absurd less (Nat.not_lt_zero _)
  | succ n ih =>
      intro s less alive
      by_cases global : s = Machine.globals
      · rw [global, top]
        exact ⟨.outermost linked.outermost, rfl, List.pairwise_singleton ..⟩
      · obtain ⟨t, link, earlier, chain⟩ := linked.enclosed s alive global
        have outer : h.Alive t := alive_iff.mpr (Nat.lt_trans earlier (alive_iff.mp alive))
        obtain ⟨climbs, ends, falls⟩ :=
          ih t (Nat.lt_of_lt_of_le earlier (Nat.le_of_lt_succ less)) outer
        rw [chain]
        refine ⟨.outward link climbs, ?_, List.pairwise_cons.mpr ⟨fun u member => ?_, falls⟩⟩
        · rw [List.getLast?_cons, ends]
          rfl
        · rcases List.mem_cons.mp member with rfl | further
          · exact earlier
          · exact Nat.lt_trans ((List.pairwise_cons.mp falls).1 u further) earlier

/-- Every link on a heap leads to what is there and was made before, and every way outward from a
scope ends in the one scope that has none around it. -/
structure Founded (h : Heap) : Prop where
  historic : ∃ past, h.History past
  earlier : ∀ past, h.History past → ∀ a b, h.Refers a b →
    ∃ before ∈ past, before.Has b ∧ ¬before.Has a
  present : ∀ a b, h.Refers a b → h.Has b
  outermost : ∀ s, h.Alive s → (h.enclosing? s = none ↔ s = Machine.globals)
  descends : ∀ s, h.Alive s → h.Descends s

theorem Evolves.founded (evolves : Heap.start.Evolves h) : h.Founded := by
  have linked := linked_start.evolves evolves
  refine ⟨evolves.history, fun _ history _ _ => history.earlier, linked.present, fun s alive => ?_,
    fun s => linked.descends⟩
  by_cases global : s = Machine.globals
  · rw [global]
    exact iff_of_true linked.outermost rfl
  · obtain ⟨t, link, -⟩ := linked.enclosed s alive global
    rw [link]
    exact iff_of_false (Option.some_ne_none t) global

end Heap
end LoxLang
