import LoxLang.Execution
/-! What each change of the heap does to its parts, and the order of growth on heaps: nothing
is taken away, scopes keep their place and their names, objects keep their class. -/
namespace LoxLang
namespace Heap
variable {h h' h'' : Heap}

/-! Scopes and bindings. -/

theorem scopeId_eq_iff {s t : ScopeId} : s = t ↔ s.index = t.index := by
  constructor
  · rintro rfl
    rfl
  · intro same
    cases s
    cases t
    exact congrArg ScopeId.mk same

theorem scope?_newScope (h : Heap) (e : Option ScopeId) (t : ScopeId) :
    (h.newScope e).2.scope? t =
      if t = ⟨h.scopes.size⟩ then some ⟨(e.map h.chain).getD [], Table.empty⟩ else h.scope? t := by
  simp only [newScope, scope?, Array.getElem?_push, scopeId_eq_iff]

theorem scope?_define (h : Heap) (s t : ScopeId) (x : String) (v : Option Value) :
    (h.define s x v).scope? t = if t = s then (h.scope? t).map fun scope =>
      { scope with bindings := scope.bindings.put x v } else h.scope? t := by
  simp only [define, scope?, Array.getElem?_modify, scopeId_eq_iff, eq_comm (a := s.index)]

/-- The scope is on the heap. -/
def Alive (h : Heap) (s : ScopeId) : Prop := (h.scope? s).isSome = true

theorem alive_iff {s : ScopeId} : h.Alive s ↔ s.index < h.scopes.size := by
  simp [Alive, scope?]

theorem alive_define {s t : ScopeId} {x : String} {v : Option Value} :
    (h.define s x v).Alive t ↔ h.Alive t := by
  simp [alive_iff, define]

theorem alive_newScope_iff {e : Option ScopeId} {t : ScopeId} :
    (h.newScope e).2.Alive t ↔ t = ⟨h.scopes.size⟩ ∨ h.Alive t := by
  rw [Alive, scope?_newScope]
  split
  · next new => simp [new]
  · next old => simp [old, Alive]

theorem not_alive_new (h : Heap) : ¬h.Alive ⟨h.scopes.size⟩ := by
  rw [alive_iff]
  exact Nat.lt_irrefl _

theorem Alive.ne_new {s : ScopeId} (alive : h.Alive s) : s ≠ ⟨h.scopes.size⟩ := by
  rintro rfl
  exact h.not_alive_new alive

@[simp] theorem chain_define (h : Heap) (s t : ScopeId) (x : String) (v : Option Value) :
    (h.define s x v).chain t = h.chain t := by
  rw [chain, chain, scope?_define]
  split
  · cases h.scope? t <;> rfl
  · rfl

theorem chain_newScope_self (h : Heap) (e : ScopeId) :
    (h.newScope (some e)).2.chain ⟨h.scopes.size⟩ = ⟨h.scopes.size⟩ :: h.chain e := by
  rw [chain, scope?_newScope, if_pos rfl]
  rfl

theorem binding?_newScope (h : Heap) (e : Option ScopeId) (t : ScopeId) (x : String) :
    (h.newScope e).2.binding? t x = if t = ⟨h.scopes.size⟩ then none else h.binding? t x := by
  rw [binding?, binding?, scope?_newScope]
  split <;> rfl

theorem binding?_define (h : Heap) (s t : ScopeId) (x y : String) (v : Option Value) :
    (h.define s x v).binding? t y =
      if t = s ∧ y = x then (h.scope? t).map fun _ => v else h.binding? t y := by
  rw [binding?, binding?, scope?_define]
  by_cases same : t = s
  · rw [if_pos same]
    cases h.scope? t with
    | none => simp
    | some scope =>
        by_cases named : y = x <;> simp [same, named]
  · rw [if_neg same, if_neg fun both => same both.1]

theorem binding?_define_self {s : ScopeId} (x : String) (v : Option Value) (alive : h.Alive s) :
    (h.define s x v).binding? s x = some v := by
  obtain ⟨scope, found⟩ := Option.isSome_iff_exists.mp alive
  rw [binding?_define, if_pos ⟨rfl, rfl⟩, found]
  rfl

theorem alive_of_binding {s : ScopeId} {x : String} {b : Option Value}
    (bound : h.binding? s x = some b) : h.Alive s := by
  obtain ⟨scope, found, -⟩ := Option.bind_eq_some_iff.mp bound
  exact Option.isSome_iff_exists.mpr ⟨scope, found⟩

/-- A global variable is found at the end of the scopes. -/
theorem get_globals (outermost : h.chain Machine.globals = [Machine.globals]) (x : String) :
    h.get Machine.globals x = match h.binding? Machine.globals x with
      | some b => read x b
      | none => .error (.undefinedVariable x) := by
  rw [get, lookup, outermost, List.findSome?_cons]
  cases h.binding? Machine.globals x <;> rfl

theorem binder?_globals (outermost : h.chain Machine.globals = [Machine.globals])
    (x : String) : h.binder? Machine.globals x =
      if (h.binding? Machine.globals x).isSome = true then some Machine.globals else none := by
  rw [binder?, outermost, List.find?_cons]
  cases h.binding? Machine.globals x <;> rfl

/-! Growth. -/

/-- A scope with at least the names it had, in its old place. -/
structure ScopeGrows (k k' : Scope) : Prop where
  outer : k'.outer = k.outer
  names : ∀ x, k.bindings.contains x = true → k'.bindings.contains x = true

/-- An instance of the same class with at least the fields it had. -/
structure InstanceGrows (o o' : Instance) : Prop where
  ofClass : o'.ofClass = o.ofClass
  names : ∀ x, o.fields.contains x = true → o'.fields.contains x = true

/-- The second heap has all that the first has. -/
structure Extends (h h' : Heap) : Prop where
  scopes : ∀ s k, h.scope? s = some k → ∃ k', h'.scope? s = some k' ∧ ScopeGrows k k'
  functions : ∀ f k, h.function? f = some k → h'.function? f = some k
  classes : ∀ c k, h.class? c = some k → h'.class? c = some k
  instances : ∀ i o, h.instance? i = some o → ∃ o', h'.instance? i = some o' ∧ InstanceGrows o o'
  natives : ∀ n r, h.native? n = some r → h'.native? n = some r

theorem ScopeGrows.refl (k : Scope) : ScopeGrows k k := ⟨rfl, fun _ held => held⟩

theorem InstanceGrows.refl (o : Instance) : InstanceGrows o o := ⟨rfl, fun _ held => held⟩

namespace Extends

theorem refl (h : Heap) : h.Extends h :=
  ⟨fun _ k found => ⟨k, found, .refl k⟩, fun _ _ found => found, fun _ _ found => found,
    fun _ o found => ⟨o, found, .refl o⟩, fun _ _ found => found⟩

theorem trans (e : h.Extends h') (e' : h'.Extends h'') : h.Extends h'' := by
  refine ⟨?_, ?_, ?_, ?_, ?_⟩
  · intro s k found
    obtain ⟨k', found', grown⟩ := e.scopes s k found
    obtain ⟨k'', found'', grown'⟩ := e'.scopes s k' found'
    exact ⟨k'', found'', grown'.outer.trans grown.outer,
      fun x held => grown'.names x (grown.names x held)⟩
  · intro f k found
    exact e'.functions f k (e.functions f k found)
  · intro c k found
    exact e'.classes c k (e.classes c k found)
  · intro i o found
    obtain ⟨o', found', grown⟩ := e.instances i o found
    obtain ⟨o'', found'', grown'⟩ := e'.instances i o' found'
    exact ⟨o'', found'', grown'.ofClass.trans grown.ofClass,
      fun x held => grown'.names x (grown.names x held)⟩
  · intro n r found
    exact e'.natives n r (e.natives n r found)

theorem alive (e : h.Extends h') {s : ScopeId} (living : h.Alive s) : h'.Alive s := by
  obtain ⟨k, found⟩ := Option.isSome_iff_exists.mp living
  obtain ⟨k', found', -⟩ := e.scopes s k found
  exact Option.isSome_iff_exists.mpr ⟨k', found'⟩

theorem chain (e : h.Extends h') {s : ScopeId} (living : h.Alive s) : h'.chain s = h.chain s := by
  obtain ⟨k, found⟩ := Option.isSome_iff_exists.mp living
  obtain ⟨k', found', grown⟩ := e.scopes s k found
  simp only [Heap.chain, found, found', Option.map_some, Option.getD_some, grown.outer]

theorem bound (e : h.Extends h') {s : ScopeId} {x : String}
    (held : (h.binding? s x).isSome = true) : (h'.binding? s x).isSome = true := by
  obtain ⟨b, hb⟩ := Option.isSome_iff_exists.mp held
  obtain ⟨k, found, named⟩ := Option.bind_eq_some_iff.mp hb
  obtain ⟨k', found', grown⟩ := e.scopes s k found
  have still : k'.bindings.contains x = true := grown.names x (by simp [Table.contains, named])
  simpa only [binding?, found', Option.bind_some, Table.contains] using still

end Extends

/-! Changes of the heap only add to it. -/

theorem extends_newScope (h : Heap) (e : Option ScopeId) : h.Extends (h.newScope e).2 := by
  refine ⟨?_, fun _ _ found => found, fun _ _ found => found,
    fun _ o found => ⟨o, found, .refl o⟩, fun _ _ found => found⟩
  intro s k found
  have living : h.Alive s := Option.isSome_iff_exists.mpr ⟨k, found⟩
  exact ⟨k, by rw [scope?_newScope, if_neg living.ne_new, found], .refl k⟩

theorem contains_put {α : Type} (t : Table α) (x y : String) (a : α)
    (held : t.contains y = true) : (t.put x a).contains y = true := by
  rw [Table.contains, Table.find?_put]
  split
  · rfl
  · exact held

theorem extends_define (h : Heap) (s : ScopeId) (x : String) (v : Option Value) :
    h.Extends (h.define s x v) := by
  refine ⟨?_, fun _ _ found => found, fun _ _ found => found,
    fun _ o found => ⟨o, found, .refl o⟩, fun _ _ found => found⟩
  intro t k found
  rw [scope?_define, found]
  split
  · exact ⟨_, rfl, rfl, fun y held => contains_put k.bindings x y v held⟩
  · exact ⟨k, rfl, .refl k⟩

/-- What is found in a list is found there after one more is added. -/
theorem getElem?_push_of_some {α : Type} {xs : Array α} {n : Nat} {a : α} (b : α)
    (found : xs[n]? = some a) : (xs.push b)[n]? = some a := by
  obtain ⟨bound, -⟩ := Array.getElem?_eq_some_iff.mp found
  rw [Array.getElem?_push, if_neg (Nat.ne_of_lt bound), found]

theorem extends_newFunction (h : Heap) (k : Closure) : h.Extends (h.newFunction k).2 :=
  ⟨fun _ k found => ⟨k, found, .refl k⟩, fun _ _ found => getElem?_push_of_some k found,
    fun _ _ found => found, fun _ o found => ⟨o, found, .refl o⟩, fun _ _ found => found⟩

theorem extends_newClass (h : Heap) (name : String) (parent : Option ClassId)
    (methods : Table Closure) : h.Extends (h.newClass name parent methods).2 :=
  ⟨fun _ k found => ⟨k, found, .refl k⟩, fun _ _ found => found,
    fun _ _ found => getElem?_push_of_some _ found,
    fun _ o found => ⟨o, found, .refl o⟩, fun _ _ found => found⟩

theorem extends_newInstance (h : Heap) (c : ClassId) : h.Extends (h.newInstance c).2 :=
  ⟨fun _ k found => ⟨k, found, .refl k⟩, fun _ _ found => found, fun _ _ found => found,
    fun _ o found => ⟨o, getElem?_push_of_some _ found, .refl o⟩, fun _ _ found => found⟩

theorem extends_newNative (h : Heap) (n : Native) : h.Extends (h.newNative n).2 :=
  ⟨fun _ k found => ⟨k, found, .refl k⟩, fun _ _ found => found, fun _ _ found => found,
    fun _ o found => ⟨o, found, .refl o⟩, fun _ _ found => getElem?_push_of_some n found⟩

theorem instance?_setField (h : Heap) (i j : InstanceId) (x : String) (v : Value) :
    (h.setField i x v).instance? j = if i.index = j.index then (h.instance? j).map fun o =>
      { o with fields := o.fields.put x v } else h.instance? j := by
  simp only [setField, instance?, Array.getElem?_modify]

theorem extends_setField (h : Heap) (i : InstanceId) (x : String) (v : Value) :
    h.Extends (h.setField i x v) := by
  refine ⟨fun _ k found => ⟨k, found, .refl k⟩, fun _ _ found => found, fun _ _ found => found,
    ?_, fun _ _ found => found⟩
  intro j o found
  rw [instance?_setField, found]
  split
  · exact ⟨_, rfl, rfl, fun y held => contains_put o.fields x y v held⟩
  · exact ⟨o, rfl, .refl o⟩

theorem extends_bindReceiver (h : Heap) (k : Closure) (i : InstanceId) :
    h.Extends (h.bindReceiver k i).2 :=
  (extends_newScope h (some k.scope)).trans (extends_define _ _ _ _)

theorem extends_bindParameters (s : ScopeId) (ps : List Name) (vs : List Value) (h : Heap) :
    h.Extends (Run.bindParameters s ps vs h) := by
  unfold Run.bindParameters
  induction ps.zip vs generalizing h with
  | nil => exact .refl h
  | cons pv rest ih => exact (extends_define h s pv.1.text (some pv.2)).trans (ih _)

end Heap
end LoxLang
