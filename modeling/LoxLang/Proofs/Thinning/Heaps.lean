import Mathlib.Data.List.Basic
import Mathlib.Logic.Function.Basic
import LoxLang.Proofs.Heap.Steps
import LoxLang.Proofs.Related
import LoxLang.Proofs.Thinning.Addresses
/-! Heaps that differ in scopes left out. Every scope that is kept has a counterpart with the same
bindings; those left out have no bindings. Functions, classes and instances have the same numbers on
both heaps, functions in the counterparts of their scopes and with shorter addresses. -/
namespace LoxLang

/-- The counterparts of the scopes of a heap on another heap. A scope without one is left out. -/
abbrev Pairing : Type := ScopeId → Option ScopeId

/-- The scopes of a heap that were there have the counterparts they had. -/
def Pairing.Grows (h : Heap) (w w' : Pairing) : Prop := ∀ s, h.Alive s → w' s = w s

theorem Pairing.grows_refl (h : Heap) (w : Pairing) : w.Grows h w := fun _ _ => rfl

namespace Heap

/-- Which scopes are kept, from a scope outward. -/
def kept (h : Heap) (w : Pairing) (s : ScopeId) : List Bool := (h.chain s).map fun t => (w t).isSome

/-- The scopes from the second place outward are the counterparts of those from the first. -/
structure Opposite (w : Pairing) (h h' : Heap) (s s' : ScopeId) : Prop where
  alive : ∀ t ∈ h.chain s, h.Alive t
  counterpart : h'.Alive s'
  chain : h'.chain s' = (h.chain s).filterMap w

/-- Counterparts have the same bindings, and what has none has no bindings. -/
structure Paired (w : Pairing) (h h' : Heap) : Prop where
  bindings : ∀ s s', w s = some s' →
    ∃ k k', h.scope? s = some k ∧ h'.scope? s' = some k' ∧ k'.bindings = k.bindings
  empty : ∀ s k, h.scope? s = some k → w s = none → k.bindings = Table.empty
  apart : ∀ s t u, w s = some u → w t = some u → s = t
  onto : ∀ u, h'.Alive u → ∃ s, w s = some u

end Heap

/-- The same routine in scopes opposite. Around its code are first the scopes `inner`. What an
initializer has its receiver in is kept. -/
structure Closure.Thins (w : Pairing) (h h' : Heap) (inner : List Bool) (k k' : Closure) :
    Prop where
  scope : h.Opposite w h' k.scope k'.scope
  code : k.declaration.Shortens (inner ++ h.kept w k.scope) k'.declaration
  initializer : k'.isInitializer = k.isInitializer
  receiver : k.isInitializer = true → Skips (inner ++ h.kept w k.scope) 0 0

/-- The same class. A method is seen from the scope of its receiver. -/
structure Class.Thins (w : Pairing) (h h' : Heap) (k k' : Class) : Prop where
  name : k'.name = k.name
  ancestors : k'.ancestors = k.ancestors
  methods : ∀ x, Option.Rel (Closure.Thins w h h' [true]) (k.methods.find? x) (k'.methods.find? x)

/-- The second heap is the first one without some scopes. -/
structure Heap.Thins (w : Pairing) (h h' : Heap) : Prop extends h.Paired w h' where
  globals : w Machine.globals = some Machine.globals
  outermost : h.chain Machine.globals = [Machine.globals]
  opposite : h.Opposite w h' Machine.globals Machine.globals
  functions : ∀ f, Option.Rel (Closure.Thins w h h' []) (h.function? f) (h'.function? f)
  classes : ∀ c, Option.Rel (Class.Thins w h h') (h.class? c) (h'.class? c)
  instances : h'.instances = h.instances
  natives : h'.natives = h.natives

variable {w w' : Pairing} {h h' g g' : Heap} {s s' : ScopeId} {x : String}

/-! What stays while heaps grow. -/

namespace Heap

namespace Opposite

theorem alive_head (opposite : h.Opposite w h' s s') : h.Alive s :=
  opposite.alive s List.mem_cons_self

theorem filterMap_grow (opposite : h.Opposite w h' s s') (more : w.Grows h w') :
    (h.chain s).filterMap w' = h'.chain s' :=
  (List.filterMap_congr fun t member => more t (opposite.alive t member)).trans opposite.chain.symm

theorem map_grow (opposite : h.Opposite w h' s s') (more : w.Grows h w') :
    ((h.chain s).map fun t => (w' t).isSome) = h.kept w s :=
  List.map_congr_left fun t member => by rw [more t (opposite.alive t member)]

theorem kept_grow (opposite : h.Opposite w h' s s') (e : h.Extends g) (more : w.Grows h w') :
    g.kept w' s = h.kept w s := by
  rw [kept, e.chain opposite.alive_head, opposite.map_grow more]

theorem grow (opposite : h.Opposite w h' s s') (e : h.Extends g) (e' : h'.Extends g')
    (more : w.Grows h w') : g.Opposite w' g' s s' := by
  refine ⟨?_, e'.alive opposite.counterpart, ?_⟩
  · rw [e.chain opposite.alive_head]
    exact fun t member => e.alive (opposite.alive t member)
  · rw [e.chain opposite.alive_head, e'.chain opposite.counterpart, opposite.filterMap_grow more]

/-- The scopes from a new scope outward are alive. -/
theorem alive_newScope (opposite : h.Opposite w h' s s') :
    ∀ t ∈ (h.newScope (some s)).2.chain ⟨h.scopes.size⟩, (h.newScope (some s)).2.Alive t := by
  rw [chain_newScope_self]
  exact List.forall_mem_cons.mpr ⟨alive_newScope_iff.mpr (.inl rfl), fun t member =>
    alive_newScope_iff.mpr (.inr (opposite.alive t member))⟩

end Opposite

end Heap

theorem Closure.Thins.grow {inner : List Bool} {k k' : Closure} (thins : k.Thins w h h' inner k')
    (e : h.Extends g) (e' : h'.Extends g') (more : w.Grows h w') : k.Thins w' g g' inner k' := by
  refine ⟨thins.scope.grow e e' more, ?_, thins.initializer, ?_⟩ <;>
    rw [thins.scope.kept_grow e more]
  · exact thins.code
  · exact thins.receiver

theorem Class.Thins.grow {k k' : Class} (thins : k.Thins w h h' k') (e : h.Extends g)
    (e' : h'.Extends g') (more : w.Grows h w') : k.Thins w' g g' k' :=
  ⟨thins.name, thins.ancestors, fun x =>
    rel_imp (thins.methods x) fun _ _ _ method => method.grow e e' more⟩

namespace Heap

/-- Heaps that grow with the same functions and classes. -/
theorem Thins.grow (thins : h.Thins w h') (e : h.Extends g) (e' : h'.Extends g')
    (more : w.Grows h w') (paired : g.Paired w' g')
    (functions : ∀ f, Option.Rel (Closure.Thins w' g g' []) (g.function? f) (g'.function? f))
    (classes : ∀ c, Option.Rel (Class.Thins w' g g') (g.class? c) (g'.class? c))
    (instances : g'.instances = g.instances) (natives : g'.natives = g.natives) :
    g.Thins w' g' := by
  have living := thins.opposite.alive_head
  refine ⟨paired, ?_, ?_, thins.opposite.grow e e' more, functions, classes, instances, natives⟩
  · exact (more _ living).trans thins.globals
  · exact (e.chain living).trans thins.outermost

theorem Thins.functions_grow (thins : h.Thins w h') (e : h.Extends g) (e' : h'.Extends g')
    (more : w.Grows h w') (f : FunctionId) :
    Option.Rel (Closure.Thins w' g g' []) (h.function? f) (h'.function? f) :=
  rel_imp (thins.functions f) fun _ _ _ function => function.grow e e' more

theorem Thins.classes_grow (thins : h.Thins w h') (e : h.Extends g) (e' : h'.Extends g')
    (more : w.Grows h w') (c : ClassId) :
    Option.Rel (Class.Thins w' g g') (h.class? c) (h'.class? c) :=
  rel_imp (thins.classes c) fun _ _ _ made => made.grow e e' more

/-! Pairs of scopes. -/

namespace Paired

theorem alive (paired : h.Paired w h') (found : w s = some s') : h.Alive s ∧ h'.Alive s' := by
  obtain ⟨k, k', here, there, -⟩ := paired.bindings s s' found
  exact ⟨Option.isSome_iff_exists.mpr ⟨k, here⟩, Option.isSome_iff_exists.mpr ⟨k', there⟩⟩

theorem binding? (paired : h.Paired w h') (found : w s = some s') (x : String) :
    h'.binding? s' x = h.binding? s x := by
  obtain ⟨k, k', here, there, same⟩ := paired.bindings s s' found
  simp only [Heap.binding?, here, there, Option.bind_some, same]

theorem define (paired : h.Paired w h') (found : w s = some s') (x : String) (v : Option Value) :
    (h.define s x v).Paired w (h'.define s' x v) := by
  refine ⟨fun t t' other => ?_, fun t k here none => ?_, paired.apart, fun u alive => ?_⟩
  · obtain ⟨k, k', here, there, same⟩ := paired.bindings t t' other
    rw [scope?_define, scope?_define, here, there]
    by_cases equal : t = s
    · subst equal
      obtain rfl := Option.some.inj (other.symm.trans found)
      rw [if_pos rfl, if_pos rfl]
      exact ⟨_, _, rfl, rfl, congrArg (·.put x v) same⟩
    · have distinct : t' ≠ s' := by
        rintro rfl
        exact equal (paired.apart t s t' other found)
      rw [if_neg equal, if_neg distinct]
      exact ⟨k, k', rfl, rfl, same⟩
  · rw [scope?_define] at here
    split at here
    · next equal =>
        rw [equal, found] at none
        cases none
    · exact paired.empty t k here none
  · exact paired.onto u (alive_define.mp alive)

/-- A new scope on both heaps has the other one as its counterpart. -/
theorem newScope (paired : h.Paired w h') (e e' : Option ScopeId) :
    (h.newScope e).2.Paired (Function.update w ⟨h.scopes.size⟩ (some ⟨h'.scopes.size⟩))
      (h'.newScope e').2 := by
  refine ⟨fun t t' found => ?_, fun t k here none => ?_, fun t u v first second => ?_,
    fun u alive => ?_⟩
  · rw [scope?_newScope, scope?_newScope]
    by_cases new : t = ⟨h.scopes.size⟩
    · rw [new, Function.update_self] at found
      obtain rfl := Option.some.inj found
      rw [if_pos new, if_pos rfl]
      exact ⟨_, _, rfl, rfl, rfl⟩
    · rw [Function.update_of_ne new] at found
      rw [if_neg new, if_neg (paired.alive found).2.ne_new]
      exact paired.bindings t t' found
  · by_cases new : t = ⟨h.scopes.size⟩
    · rw [new, Function.update_self] at none
      cases none
    · rw [Function.update_of_ne new] at none
      rw [scope?_newScope, if_neg new] at here
      exact paired.empty t k here none
  · by_cases new : t = ⟨h.scopes.size⟩
    · by_cases new' : u = ⟨h.scopes.size⟩
      · rw [new, new']
      · rw [new, Function.update_self] at first
        rw [Function.update_of_ne new'] at second
        obtain rfl := Option.some.inj first
        exact absurd (paired.alive second).2 h'.not_alive_new
    · rw [Function.update_of_ne new] at first
      by_cases new' : u = ⟨h.scopes.size⟩
      · rw [new', Function.update_self] at second
        obtain rfl := Option.some.inj second
        exact absurd (paired.alive first).2 h'.not_alive_new
      · rw [Function.update_of_ne new'] at second
        exact paired.apart t u v first second
  · rcases alive_newScope_iff.mp alive with rfl | old
    · exact ⟨_, Function.update_self ..⟩
    · obtain ⟨t, found⟩ := paired.onto u old
      exact ⟨t, (Function.update_of_ne (paired.alive found).1.ne_new ..).trans found⟩

/-- A new scope on the first heap alone is left out. -/
theorem newScopeLeft (paired : h.Paired w h') (e : Option ScopeId) :
    (h.newScope e).2.Paired (Function.update w ⟨h.scopes.size⟩ none) h' := by
  have old {t u : ScopeId} (found : Function.update w ⟨h.scopes.size⟩ none t = some u) :
      t ≠ ⟨h.scopes.size⟩ ∧ w t = some u := by
    by_cases new : t = ⟨h.scopes.size⟩
    · rw [new, Function.update_self] at found
      cases found
    · exact ⟨new, (Function.update_of_ne new ..).symm.trans found⟩
  refine ⟨fun t t' found => ?_, fun t k here none => ?_, fun t u v first second => ?_,
    fun u alive => ?_⟩
  · rw [scope?_newScope, if_neg (old found).1]
    exact paired.bindings t t' (old found).2
  · rw [scope?_newScope] at here
    split at here
    · cases here
      rfl
    · next other =>
        rw [Function.update_of_ne other] at none
        exact paired.empty t k here none
  · exact paired.apart t u v (old first).2 (old second).2
  · obtain ⟨t, found⟩ := paired.onto u alive
    exact ⟨t, (Function.update_of_ne (paired.alive found).1.ne_new ..).trans found⟩

end Paired
end Heap

theorem Pairing.grows_update (h : Heap) (w : Pairing) (o : Option ScopeId) :
    w.Grows h (Function.update w ⟨h.scopes.size⟩ o) := fun _ alive =>
  Function.update_of_ne alive.ne_new ..

namespace Heap

/-! Steps that keep one heap the other without some scopes. -/

namespace Thins

/-- What makes no scope keeps the pairs. -/
theorem beside (thins : h.Thins w h') (e : h.Extends g) (e' : h'.Extends g')
    (scopes : g.scopes = h.scopes) (scopes' : g'.scopes = h'.scopes)
    (functions : ∀ f, Option.Rel (Closure.Thins w g g' []) (g.function? f) (g'.function? f))
    (classes : ∀ c, Option.Rel (Class.Thins w g g') (g.class? c) (g'.class? c))
    (instances : g'.instances = g.instances) (natives : g'.natives = g.natives) :
    g.Thins w g' := by
  have same (t : ScopeId) : g.scope? t = h.scope? t := by rw [scope?, scope?, scopes]
  have same' (t : ScopeId) : g'.scope? t = h'.scope? t := by rw [scope?, scope?, scopes']
  refine thins.grow e e' (w.grows_refl h) ⟨?_, ?_, thins.apart, ?_⟩ functions classes instances
    natives
  · simpa only [same, same'] using thins.bindings
  · simpa only [same] using thins.empty
  · simpa only [Alive, same'] using thins.onto

theorem define (thins : h.Thins w h') (found : w s = some s') (x : String) (v : Option Value) :
    (h.define s x v).Thins w (h'.define s' x v) := by
  have e := h.extends_define s x v
  have e' := h'.extends_define s' x v
  have more := w.grows_refl h
  exact thins.grow e e' more (thins.toPaired.define found x v) (thins.functions_grow e e' more)
    (thins.classes_grow e e' more) thins.instances thins.natives

theorem newScope (thins : h.Thins w h') (opposite : h.Opposite w h' s s') :
    let w' : Pairing := Function.update w ⟨h.scopes.size⟩ (some ⟨h'.scopes.size⟩)
    (h.newScope (some s)).2.Thins w' (h'.newScope (some s')).2 ∧
      (h.newScope (some s)).2.Opposite w' (h'.newScope (some s')).2 ⟨h.scopes.size⟩
        ⟨h'.scopes.size⟩ ∧
      (h.newScope (some s)).2.kept w' ⟨h.scopes.size⟩ = true :: h.kept w s := by
  intro w'
  have e := h.extends_newScope (some s)
  have e' := h'.extends_newScope (some s')
  have more : w.Grows h w' := w.grows_update h _
  have here : w' ⟨h.scopes.size⟩ = some ⟨h'.scopes.size⟩ := Function.update_self ..
  refine ⟨thins.grow e e' more (thins.toPaired.newScope _ _) (thins.functions_grow e e' more)
    (thins.classes_grow e e' more) thins.instances thins.natives,
    ⟨opposite.alive_newScope, alive_newScope_iff.mpr (.inl rfl), ?_⟩, ?_⟩
  · rw [chain_newScope_self, chain_newScope_self, List.filterMap_cons_some here,
      opposite.filterMap_grow more]
  · rw [kept, chain_newScope_self, List.map_cons, here, opposite.map_grow more]
    rfl

/-- A scope made on the first heap alone. -/
theorem newScopeLeft (thins : h.Thins w h') (opposite : h.Opposite w h' s s') :
    let w' : Pairing := Function.update w ⟨h.scopes.size⟩ none
    (h.newScope (some s)).2.Thins w' h' ∧
      (h.newScope (some s)).2.Opposite w' h' ⟨h.scopes.size⟩ s' ∧
      (h.newScope (some s)).2.kept w' ⟨h.scopes.size⟩ = false :: h.kept w s := by
  intro w'
  have e := h.extends_newScope (some s)
  have e' : h'.Extends h' := .refl h'
  have more : w.Grows h w' := w.grows_update h _
  have here : w' ⟨h.scopes.size⟩ = none := Function.update_self ..
  refine ⟨thins.grow e e' more (thins.toPaired.newScopeLeft _) (thins.functions_grow e e' more)
    (thins.classes_grow e e' more) thins.instances thins.natives,
    ⟨opposite.alive_newScope, opposite.counterpart, ?_⟩, ?_⟩
  · rw [chain_newScope_self, List.filterMap_cons_none here, opposite.filterMap_grow more]
  · rw [kept, chain_newScope_self, List.map_cons, here, opposite.map_grow more]
    rfl

theorem newFunction {k k' : Closure} (thins : h.Thins w h') (same : k.Thins w h h' [] k') :
    (h'.newFunction k').1 = (h.newFunction k).1 ∧
      (h.newFunction k).2.Thins w (h'.newFunction k').2 := by
  have e := h.extends_newFunction k
  have e' := h'.extends_newFunction k'
  have more := w.grows_refl h
  have functions (i : Nat) := thins.functions ⟨i⟩
  refine ⟨congrArg FunctionId.mk (size_eq_of_rel functions).symm,
    thins.beside e e' rfl rfl (fun f => ?_) (thins.classes_grow e e' more) thins.instances
      thins.natives⟩
  exact rel_imp (rel_push functions same f.index) fun _ _ _ function => function.grow e e' more

theorem lineage (thins : h.Thins w h') (c : ClassId) : h'.lineage c = h.lineage c := by
  rw [Heap.lineage, Heap.lineage, rel_map_eq (thins.classes c) fun _ _ made => made.ancestors]

theorem newClass {methods methods' : Table Closure} (thins : h.Thins w h') (name : String)
    (above : Option ClassId) (same : ∀ x, Option.Rel (Closure.Thins w h h' [true])
      (methods.find? x) (methods'.find? x)) :
    (h'.newClass name above methods').1 = (h.newClass name above methods).1 ∧
      (h.newClass name above methods).2.Thins w (h'.newClass name above methods').2 := by
  have e := h.extends_newClass name above methods
  have e' := h'.extends_newClass name above methods'
  have more := w.grows_refl h
  have classes (i : Nat) := thins.classes ⟨i⟩
  have made : Class.Thins w h h' ⟨name, (above.map h.lineage).getD [], methods⟩
      ⟨name, (above.map h'.lineage).getD [], methods'⟩ :=
    ⟨rfl, by rw [funext thins.lineage], same⟩
  refine ⟨congrArg ClassId.mk (size_eq_of_rel classes).symm,
    thins.beside e e' rfl rfl (thins.functions_grow e e' more) (fun c => ?_) thins.instances
      thins.natives⟩
  exact rel_imp (rel_push classes made c.index) fun _ _ _ entry => entry.grow e e' more

theorem newInstance (thins : h.Thins w h') (c : ClassId) :
    (h'.newInstance c).1 = (h.newInstance c).1 ∧
      (h.newInstance c).2.Thins w (h'.newInstance c).2 := by
  have e := h.extends_newInstance c
  have e' := h'.extends_newInstance c
  have more := w.grows_refl h
  refine ⟨?_, thins.beside e e' rfl rfl (thins.functions_grow e e' more)
    (thins.classes_grow e e' more) ?_ thins.natives⟩ <;>
    simp only [Heap.newInstance, thins.instances]

theorem setField (thins : h.Thins w h') (i : InstanceId) (x : String) (v : Value) :
    (h.setField i x v).Thins w (h'.setField i x v) := by
  have e := h.extends_setField i x v
  have e' := h'.extends_setField i x v
  have more := w.grows_refl h
  refine thins.beside e e' rfl rfl (thins.functions_grow e e' more)
    (thins.classes_grow e e' more) ?_ thins.natives
  simp only [Heap.setField, thins.instances]

/-- A method with its receiver bound, in a new scope on both heaps. -/
theorem bindReceiver {k k' : Closure} (thins : h.Thins w h') (same : k.Thins w h h' [true] k')
    (i : InstanceId) :
    let w' : Pairing := Function.update w ⟨h.scopes.size⟩ (some ⟨h'.scopes.size⟩)
    (h.bindReceiver k i).2.Thins w' (h'.bindReceiver k' i).2 ∧
      (h.bindReceiver k i).1.Thins w' (h.bindReceiver k i).2 (h'.bindReceiver k' i).2 []
        (h'.bindReceiver k' i).1 := by
  intro w'
  obtain ⟨made, opposite, marks⟩ := thins.newScope same.scope
  have here : w' ⟨h.scopes.size⟩ = some ⟨h'.scopes.size⟩ := Function.update_self ..
  have e := (h.newScope (some k.scope)).2.extends_define ⟨h.scopes.size⟩ "this" (some (.object i))
  have e' := (h'.newScope (some k'.scope)).2.extends_define ⟨h'.scopes.size⟩ "this"
    (some (.object i))
  have inside : (h.bindReceiver k i).2.kept w' (h.bindReceiver k i).1.scope =
      true :: h.kept w k.scope := (opposite.kept_grow e (w'.grows_refl _)).trans marks
  refine ⟨made.define here "this" (some (.object i)),
    opposite.grow e e' (w'.grows_refl _), ?_, same.initializer, ?_⟩ <;>
    rw [List.nil_append, inside]
  · exact same.code
  · exact same.receiver

theorem bindParameters (found : w s = some s') (params : List Name) (arguments : List Value) :
    ∀ h h' : Heap, h.Thins w h' →
      (Run.bindParameters s params arguments h).Thins w
        (Run.bindParameters s' params arguments h') := by
  simp only [Run.bindParameters]
  induction params.zip arguments with
  | nil => exact fun h h' thins => thins
  | cons given rest ih => exact fun h h' thins => ih _ _ (thins.define found _ _)

/-! What is read. -/

theorem findMethod (thins : h.Thins w h') (c : ClassId) (x : String) :
    Option.Rel (Closure.Thins w h h' [true]) (h.findMethod c x) (h'.findMethod c x) := by
  rw [Heap.findMethod, Heap.findMethod, thins.lineage]
  exact rel_findSome (fun d => rel_bind (thins.classes d) fun _ _ made => made.methods x) _

theorem className (thins : h.Thins w h') (c : ClassId) :
    (h'.class? c).map Class.name = (h.class? c).map Class.name :=
  rel_map_eq (thins.classes c) fun _ _ made => made.name

theorem arity? (thins : h.Thins w h') (c : Callable) : h'.arity? c = h.arity? c :=
  arity?_congr
    (fun f => rel_map_eq (thins.functions f) fun _ _ same => by rw [same.code.params])
    thins.className
    (fun c => rel_map_eq (thins.findMethod c "init") fun _ _ same => by rw [same.code.params])
    thins.natives c

theorem display (thins : h.Thins w h') (v : Value) : h'.display v = h.display v :=
  display_congr
    (fun f => rel_map_eq (thins.functions f) fun _ _ same => by rw [same.code.name])
    thins.className thins.instances v

/-- Global variables are as they were. -/
theorem binding?_globals (thins : h.Thins w h') (x : String) :
    h'.binding? Machine.globals x = h.binding? Machine.globals x :=
  thins.toPaired.binding? thins.globals x

theorem outermost' (thins : h.Thins w h') : h'.chain Machine.globals = [Machine.globals] := by
  rw [thins.opposite.chain, thins.outermost, List.filterMap_cons_some thins.globals]
  rfl

end Thins
end Heap

/-! What distances lead to. -/

/-- The second access misses its scope or its binding as the first does. -/
inductive Unbound.Alike : Unbound → Unbound → Prop
  | noScope (d e : Int) : Alike (.noScope d) (.noScope e)
  | notBound (x : String) {d e : Int} : (d = 0 → e = 0) → Alike (.notBound x d) (.notBound x e)

/-- Two distances from places opposite to the same scope. -/
structure Distances (ks : List Bool) (d e : Int) : Prop where
  skips : Skips ks d.toNat e.toNat
  zero : d = 0 → e = 0

theorem Skips.distances {ks : List Bool} {d e : Nat} (skips : Skips ks d e) :
    Distances ks (d : Int) (e : Int) := by
  refine ⟨skips, fun none => ?_⟩
  obtain rfl := Int.natCast_eq_zero.mp none
  exact Int.natCast_eq_zero.mpr skips.zero

/-- The scope of `this` stands one scope further in than that of `super`. -/
theorem Skips.distances_pred {ks : List Bool} {d e : Nat} (skips : Skips ks d e)
    (inner : Skips ks (d - 1) (e - 1)) : Distances ks ((d : Int) - 1) ((e : Int) - 1) := by
  refine ⟨?_, fun none => ?_⟩
  · have here (n : Nat) : ((n : Int) - 1).toNat = n - 1 := by omega
    rwa [here, here]
  · obtain rfl : d = 1 := by omega
    have same := inner.next skips
    have first := inner.zero
    omega

namespace Heap.Opposite
variable {d e : Int}

/-- A shortened distance leads to the counterpart of where the distance leads. -/
theorem reach (opposite : h.Opposite w h' s s') (distances : Distances (h.kept w s) d e) :
    h.ancestor s d = .error (.noScope d) ∧ h'.ancestor s' e = .error (.noScope e) ∨
      ∃ t u, w t = some u ∧ h.ancestor s d = .ok t ∧ h'.ancestor s' e = .ok u := by
  have reached := distances.skips.reach
  rw [← opposite.chain] at reached
  simp only [ancestor]
  rcases reached with ⟨none, none'⟩ | ⟨t, u, some, found, some'⟩
  · exact .inl ⟨by rw [none], by rw [none']⟩
  · exact .inr ⟨t, u, found, by rw [some], by rw [some']⟩

/-- Both accesses read the same, or both miss. -/
theorem getAt (opposite : h.Opposite w h' s s') (paired : h.Paired w h')
    (distances : Distances (h.kept w s) d e) (x : String) :
    (∃ b, h.getAt s d x = (read x b).mapError .fault ∧
      h'.getAt s' e x = (read x b).mapError .fault) ∨
    ∃ u u' : Unbound, u.Alike u' ∧ h.getAt s d x = .error (.unbound u) ∧
      h'.getAt s' e x = .error (.unbound u') := by
  simp only [Heap.getAt]
  rcases opposite.reach distances with ⟨none, none'⟩ | ⟨t, u, found, some, some'⟩
  · exact .inr ⟨_, _, .noScope d e, by rw [none], by rw [none']⟩
  · simp only [some, some', paired.binding? found x]
    cases h.binding? t x with
    | none => exact .inr ⟨_, _, .notBound x distances.zero, rfl, rfl⟩
    | some b => exact .inl ⟨b, rfl, rfl⟩

/-- Both find the name bound in scopes that are counterparts, or both miss. -/
theorem binderAt (opposite : h.Opposite w h' s s') (paired : h.Paired w h')
    (distances : Distances (h.kept w s) d e) (x : String) :
    (∃ t u, w t = some u ∧ h.binderAt s d x = .ok t ∧ h'.binderAt s' e x = .ok u) ∨
    ∃ u u' : Unbound, u.Alike u' ∧ h.binderAt s d x = .error u ∧
      h'.binderAt s' e x = .error u' := by
  simp only [Heap.binderAt]
  rcases opposite.reach distances with ⟨none, none'⟩ | ⟨t, u, found, some, some'⟩
  · exact .inr ⟨_, _, .noScope d e, by rw [none], by rw [none']⟩
  · simp only [some, some', paired.binding? found x]
    by_cases bound : (h.binding? t x).isSome = true
    · exact .inl ⟨t, u, found, by rw [if_pos bound], by rw [if_pos bound]⟩
    · exact .inr ⟨_, _, .notBound x distances.zero, by rw [if_neg bound], by rw [if_neg bound]⟩

/-- A scope that is kept is a counterpart of the scope opposite. -/
theorem innermost (opposite : h.Opposite w h' s s') (inner : Skips (h.kept w s) 0 0) :
    w s = some s' := by
  have chain := opposite.chain
  simp only [Heap.kept, Heap.chain, List.map_cons] at inner
  simp only [Heap.chain] at chain
  cases found : w s with
  | none =>
      rw [found] at inner
      cases inner
  | some t =>
      rw [List.filterMap_cons_some found] at chain
      rw [(List.cons.inj chain).1]

end Heap.Opposite
end LoxLang
