import LoxLang.Proofs.Heap.Steps
import LoxLang.Proofs.Relining.Running
import LoxLang.Proofs.Renaming
/-! Heaps with a name changed in some scopes. Which scopes these are is kept apart from the heap: a
scope that is entered anew has names changed if the code that it is made for does. -/
namespace LoxLang

def Closure.respell (τ : Respelling) (k : Closure) : Closure :=
  { k with declaration := k.declaration.respell τ }

def Class.respell (τ : Respelling) (k : Class) : Class :=
  { k with methods := k.methods.map (Closure.respell τ) }

/-- Whether names are changed in a scope of the heap. -/
def changedIn (w : List Bool) (s : ScopeId) : Bool := w.getD s.index false

theorem changedIn_append {w : List Bool} {s : ScopeId} (known : s.index < w.length)
    (more : List Bool) : changedIn (w ++ more) s = changedIn w s := by
  simp [changedIn, List.getElem?_append_left known]

theorem changedIn_new (w : List Bool) (b : Bool) : changedIn (w ++ [b]) ⟨w.length⟩ = b := by
  simp [changedIn]

/-- A scope with names changed or not. -/
def Scope.rename (ρ : Renaming) (b : Bool) (k : Scope) : Scope :=
  { k with bindings := k.bindings.rename ρ b }

namespace Heap

/-- The heap with its code respelled and names changed in the scopes that are marked. -/
def respell (τ : Respelling) (ρ : Renaming) (w : List Bool) (h : Heap) : Heap :=
  { h with
    scopes := h.scopes.mapIdx fun i k => k.rename ρ (w.getD i false)
    functions := h.functions.map (Closure.respell τ)
    classes := h.classes.map (Class.respell τ) }

/-- Where names are changed, from a scope outward. -/
def marks (h : Heap) (w : List Bool) (s : ScopeId) : List Bool := (h.chain s).map (changedIn w)

/-- The code of a function follows the renaming from its scope, and its name is kept. -/
structure FollowsFrom (τ : Respelling) (ρ : Renaming) (w : List Bool) (h : Heap) (s : ScopeId)
    (inner : List Bool) (r : Routine Address) : Prop where
  alive : h.Alive s
  name : τ.text r.name = r.name.text
  code : Followed τ ρ (inner ++ h.marks w s) r.uses r.scopes

/-- It is known of each scope whether names are changed there, and all code on the heap follows. A
method is seen from the scope of a receiver. -/
structure Marked (τ : Respelling) (ρ : Renaming) (w : List Bool) (h : Heap) : Prop where
  size : w.length = h.scopes.size
  fresh : ∀ s, changedIn w s = true → h.binding? s ρ.new = none
  outer : ∀ s k, h.scope? s = some k → ∀ t ∈ k.outer, h.Alive t
  start : h.Alive Machine.globals
  alone : h.chain Machine.globals = [Machine.globals]
  globals : changedIn w Machine.globals = false
  functions : ∀ f k, h.function? f = some k → FollowsFrom τ ρ w h k.scope [] k.declaration
  methods : ∀ c k x m, h.class? c = some k → k.methods.find? x = some m →
    FollowsFrom τ ρ w h m.scope [false] m.declaration

section
variable {τ : Respelling} {ρ : Renaming} {w : List Bool} (h : Heap)

@[simp] theorem instance?_respell (i : InstanceId) : (h.respell τ ρ w).instance? i = h.instance? i :=
  rfl

@[simp] theorem native?_respell (n : NativeId) : (h.respell τ ρ w).native? n = h.native? n := rfl

theorem function?_respell (i : FunctionId) :
    (h.respell τ ρ w).function? i = (h.function? i).map (Closure.respell τ) := Array.getElem?_map

theorem class?_respell (c : ClassId) :
    (h.respell τ ρ w).class? c = (h.class? c).map (Class.respell τ) := Array.getElem?_map

theorem scope?_respell (s : ScopeId) :
    (h.respell τ ρ w).scope? s = (h.scope? s).map (Scope.rename ρ (changedIn w s)) :=
  Array.getElem?_mapIdx

@[simp] theorem chain_respell (s : ScopeId) : (h.respell τ ρ w).chain s = h.chain s := by
  simp only [chain, scope?_respell, Option.map_map]
  rfl

@[simp] theorem ancestor_respell (s : ScopeId) (d : Int) :
    (h.respell τ ρ w).ancestor s d = h.ancestor s d := by
  simp only [ancestor, chain_respell]

@[simp] theorem lineage_respell (c : ClassId) : (h.respell τ ρ w).lineage c = h.lineage c := by
  simp only [lineage, class?_respell, Option.map_map]
  rfl

theorem findMethod_respell (c : ClassId) (name : String) :
    (h.respell τ ρ w).findMethod c name = (h.findMethod c name).map (Closure.respell τ) := by
  rw [findMethod, findMethod, lineage_respell, List.map_findSome?]
  congr 1
  funext d
  rw [class?_respell, Function.comp_apply]
  cases h.class? d with
  | none => rfl
  | some k => exact Table.find?_map _ _ _

theorem className_respell (c : ClassId) :
    ((h.respell τ ρ w).class? c).map Class.name = (h.class? c).map Class.name := by
  rw [class?_respell, Option.map_map]
  rfl

@[simp] theorem arity?_respell (c : Callable) : (h.respell τ ρ w).arity? c = h.arity? c := by
  refine arity?_congr (fun i => ?_) h.className_respell (fun c => ?_) rfl c
  · simp [function?_respell, Closure.respell, Function.comp_def]
  · simp [findMethod_respell, Closure.respell, Function.comp_def]

theorem newFunction_respell (k : Closure) : (h.respell τ ρ w).newFunction (k.respell τ) =
    ((h.newFunction k).1, (h.newFunction k).2.respell τ ρ w) := by
  simp [newFunction, respell]

theorem newClass_respell (name : String) (above : Option ClassId) (methods : Table Closure) :
    (h.respell τ ρ w).newClass name above (methods.map (Closure.respell τ)) =
      ((h.newClass name above methods).1, (h.newClass name above methods).2.respell τ ρ w) := by
  have same : ((above.map (h.respell τ ρ w).lineage).getD []) =
      (above.map h.lineage).getD [] := by
    cases above <;> simp
  simp only [newClass, same]
  simp [respell, Class.respell]

/-- Heaps that differ in nothing that can be looked up. -/
theorem ext_scopes {h h' : Heap} (scopes : ∀ s, h.scope? s = h'.scope? s)
    (functions : h.functions = h'.functions) (classes : h.classes = h'.classes)
    (instances : h.instances = h'.instances) (natives : h.natives = h'.natives) : h = h' := by
  obtain ⟨ss, fs, cs, is, ns⟩ := h
  obtain ⟨ss', fs', cs', is', ns'⟩ := h'
  obtain rfl : ss = ss' := Array.ext_getElem? fun i => scopes ⟨i⟩
  obtain rfl : fs = fs' := functions
  obtain rfl : cs = cs' := classes
  obtain rfl : is = is' := instances
  obtain rfl : ns = ns' := natives
  rfl

/-- A new scope is marked as it is wanted. -/
theorem newScope_respell (size : w.length = h.scopes.size) (e : Option ScopeId) (b : Bool) :
    (h.respell τ ρ w).newScope e =
      ((h.newScope e).1, (h.newScope e).2.respell τ ρ (w ++ [b])) := by
  have same : (e.map (h.respell τ ρ w).chain).getD [] = (e.map h.chain).getD [] := by
    cases e <;> simp
  have count : (h.respell τ ρ w).scopes.size = h.scopes.size := Array.size_mapIdx
  refine Prod.ext (congrArg ScopeId.mk count) (ext_scopes (fun s => ?_) rfl rfl rfl rfl)
  rw [scope?_respell, scope?_newScope, scope?_newScope, same, count, scope?_respell]
  by_cases new : s = ⟨h.scopes.size⟩
  · rw [if_pos new, if_pos new]
    rfl
  · rw [if_neg new, if_neg new]
    cases found : h.scope? s with
    | none => rfl
    | some k =>
        have known : s.index < w.length :=
          size ▸ alive_iff.mp (Option.isSome_iff_exists.mpr ⟨k, found⟩)
        rw [changedIn_append known]

end

section
variable {τ : Respelling} {ρ : Renaming} {w : List Bool} {h : Heap} {s : ScopeId} {x : String}

theorem binding?_respell (fresh : changedIn w s = true → h.binding? s ρ.new = none)
    (other : x ≠ ρ.new) : (h.respell τ ρ w).binding? s (ρ.spell (changedIn w s) x) =
      h.binding? s x := by
  simp only [binding?, scope?_respell] at fresh ⊢
  cases found : h.scope? s with
  | none => rfl
  | some k =>
      rw [found] at fresh
      cases changed : changedIn w s with
      | false => simp [Scope.rename]
      | true => exact Table.find?_rename (fresh changed) other

theorem binding?_respell_unchanged (same : changedIn w s = false) (x : String) :
    (h.respell τ ρ w).binding? s x = h.binding? s x := by
  simp only [binding?, scope?_respell, same]
  cases h.scope? s with
  | none => rfl
  | some k => simp [Scope.rename]

theorem define_respell (fresh : changedIn w s = true → h.binding? s ρ.new = none)
    (other : x ≠ ρ.new) (v : Option Value) :
    (h.define s x v).respell τ ρ w =
      (h.respell τ ρ w).define s (ρ.spell (changedIn w s) x) v := by
  refine ext_scopes (fun t => ?_) rfl rfl rfl rfl
  rw [scope?_respell, scope?_define, scope?_define, scope?_respell]
  by_cases same : t = s
  · subst same
    rw [if_pos rfl, if_pos rfl, Option.map_map, Option.map_map]
    cases found : h.scope? t with
    | none => rfl
    | some k =>
        have kept : (k.bindings.put x v).rename ρ (changedIn w t) =
            (k.bindings.rename ρ (changedIn w t)).put (ρ.spell (changedIn w t) x) v := by
          cases changed : changedIn w t with
          | false => simp
          | true =>
              have missing := fresh changed
              rw [binding?, found] at missing
              exact Table.put_rename missing other v
        simp [Scope.rename, kept]
  · rw [if_neg same, if_neg same]

end

/-! Steps that keep the marks right. -/

section
variable {τ : Respelling} {ρ : Renaming} {w w' : List Bool} {h h' : Heap} {s : ScopeId} {x : String}

theorem Marked.chain_alive (marked : h.Marked τ ρ w) (alive : h.Alive s) :
    ∀ t ∈ h.chain s, h.Alive t := by
  obtain ⟨k, found⟩ := Option.isSome_iff_exists.mp alive
  intro t member
  rw [chain, found] at member
  rcases List.mem_cons.mp member with rfl | around
  · exact alive
  · exact marked.outer s k found t around

/-- What is marked stays so. -/
theorem Marked.marks_grow (marked : h.Marked τ ρ w) (e : h.Extends h') (more : w <+: w')
    (alive : h.Alive s) : h'.marks w' s = h.marks w s := by
  obtain ⟨v, rfl⟩ := more
  rw [marks, marks, e.chain alive]
  refine List.map_congr_left fun t member => changedIn_append ?_ v
  exact marked.size ▸ alive_iff.mp (marked.chain_alive alive t member)

theorem FollowsFrom.grow {inner : List Bool} {r : Routine Address}
    (follows : h.FollowsFrom τ ρ w s inner r) (marked : h.Marked τ ρ w) (e : h.Extends h')
    (more : w <+: w') : h'.FollowsFrom τ ρ w' s inner r :=
  ⟨e.alive follows.alive, follows.name, (marked.marks_grow e more follows.alive).symm ▸ follows.code⟩

/-- A heap that grows by scopes that are marked and code that follows stays marked. -/
theorem Marked.grow (marked : h.Marked τ ρ w) (e : h.Extends h') (more : w <+: w')
    (size : w'.length = h'.scopes.size)
    (fresh : ∀ s, changedIn w' s = true → h'.binding? s ρ.new = none)
    (outer : ∀ s k, h'.scope? s = some k → ∀ t ∈ k.outer, h'.Alive t)
    (functions : ∀ f k, h'.function? f = some k → h.function? f = some k ∨
      h'.FollowsFrom τ ρ w' k.scope [] k.declaration)
    (methods : ∀ c k, h'.class? c = some k → h.class? c = some k ∨
      ∀ x m, k.methods.find? x = some m → h'.FollowsFrom τ ρ w' m.scope [false] m.declaration) :
    h'.Marked τ ρ w' := by
  have alone : h'.chain Machine.globals = [Machine.globals] :=
    (e.chain marked.start).trans marked.alone
  have unchanged := marked.marks_grow e more marked.start
  rw [marks, marks, alone, marked.alone] at unchanged
  refine ⟨size, fresh, outer, e.alive marked.start, alone, ?_, ?_, ?_⟩
  · exact (List.cons.inj unchanged).1.trans marked.globals
  · intro f k found
    exact (functions f k found).elim (fun old => (marked.functions f k old).grow marked e more) id
  · intro c k x m found named
    exact (methods c k found).elim
      (fun old => (marked.methods c k x m old named).grow marked e more) fun all => all x m named

theorem Marked.newScope (marked : h.Marked τ ρ w) (alive : h.Alive s) (b : Bool) :
    (h.newScope (some s)).2.Marked τ ρ (w ++ [b]) := by
  have e := h.extends_newScope (some s)
  refine marked.grow e (List.prefix_append _ _) ?_ ?_ ?_ (fun _ _ => .inl) (fun _ _ => .inl)
  · simp [Heap.newScope, marked.size]
  · intro t changed
    rw [binding?_newScope]
    split
    · rfl
    · next old =>
        by_cases known : t.index < w.length
        · exact marked.fresh t (changedIn_append known [b] ▸ changed)
        · cases found : h.binding? t ρ.new with
          | none => rfl
          | some v => exact absurd (marked.size ▸ alive_iff.mp (alive_of_binding found)) known
  · intro t k found u around
    rw [scope?_newScope] at found
    split at found
    · cases found
      exact e.alive (marked.chain_alive alive u around)
    · exact e.alive (marked.outer t k found u around)

theorem Marked.define (marked : h.Marked τ ρ w) (s : ScopeId) (other : x ≠ ρ.new)
    (v : Option Value) : (h.define s x v).Marked τ ρ w := by
  have e := h.extends_define s x v
  refine marked.grow e (List.prefix_refl w) ?_ ?_ ?_ (fun _ _ => .inl) (fun _ _ => .inl)
  · simp [Heap.define, marked.size]
  · intro t changed
    rw [binding?_define, if_neg fun both => other both.2.symm]
    exact marked.fresh t changed
  · intro t k found u around
    rw [scope?_define] at found
    split at found
    · obtain ⟨k', found', rfl⟩ := Option.map_eq_some_iff.mp found
      exact e.alive (marked.outer t k' found' u around)
    · exact e.alive (marked.outer t k found u around)

/-- What leaves the scopes alone leaves the marks alone. -/
theorem Marked.beside (marked : h.Marked τ ρ w) (e : h.Extends h') (scopes : h'.scopes = h.scopes)
    (functions : ∀ f k, h'.function? f = some k → h.function? f = some k ∨
      h'.FollowsFrom τ ρ w k.scope [] k.declaration)
    (methods : ∀ c k, h'.class? c = some k → h.class? c = some k ∨
      ∀ x m, k.methods.find? x = some m → h'.FollowsFrom τ ρ w m.scope [false] m.declaration) :
    h'.Marked τ ρ w := by
  have same (t : ScopeId) : h'.scope? t = h.scope? t := by rw [scope?, scope?, scopes]
  refine marked.grow e (List.prefix_refl w) (scopes ▸ marked.size) ?_ ?_ functions methods
  · intro t changed
    rw [binding?, same]
    exact marked.fresh t changed
  · intro t k found u around
    exact e.alive (marked.outer t k (same t ▸ found) u around)

theorem Marked.newFunction {k : Closure} (marked : h.Marked τ ρ w)
    (follows : h.FollowsFrom τ ρ w k.scope [] k.declaration) :
    (h.newFunction k).2.Marked τ ρ w := by
  have e := h.extends_newFunction k
  refine marked.beside e rfl ?_ fun _ _ => .inl
  intro f k' found
  rw [function?_newFunction] at found
  split at found
  · cases found
    exact .inr (follows.grow marked e (List.prefix_refl w))
  · exact .inl found

theorem Marked.newClass {name : String} {parent : Option ClassId} {methods : Table Closure}
    (marked : h.Marked τ ρ w) (follow : ∀ x m, methods.find? x = some m →
      h.FollowsFrom τ ρ w m.scope [false] m.declaration) :
    (h.newClass name parent methods).2.Marked τ ρ w := by
  have e := h.extends_newClass name parent methods
  refine marked.beside e rfl (fun _ _ => .inl) ?_
  intro c k found
  rw [class?_newClass] at found
  split at found
  · cases found
    exact .inr fun x m named => (follow x m named).grow marked e (List.prefix_refl w)
  · exact .inl found

theorem Marked.newInstance (marked : h.Marked τ ρ w) (c : ClassId) :
    (h.newInstance c).2.Marked τ ρ w :=
  marked.beside (h.extends_newInstance c) rfl (fun _ _ => .inl) fun _ _ => .inl

theorem Marked.setField (marked : h.Marked τ ρ w) (i : InstanceId) (x : String) (v : Value) :
    (h.setField i x v).Marked τ ρ w :=
  marked.beside (h.extends_setField i x v) rfl (fun _ _ => .inl) fun _ _ => .inl

/-- A method that is found follows. -/
theorem Marked.findMethod (marked : h.Marked τ ρ w) {c : ClassId} {m : Closure}
    (found : h.findMethod c x = some m) : h.FollowsFrom τ ρ w m.scope [false] m.declaration := by
  obtain ⟨d, -, here⟩ := List.exists_of_findSome?_eq_some found
  obtain ⟨k, there, named⟩ := Option.bind_eq_some_iff.mp here
  exact marked.methods d k x m there named

@[simp] theorem marks_define (s t : ScopeId) (x : String) (v : Option Value) :
    (h.define s x v).marks w t = h.marks w t := by
  rw [marks, chain_define, marks]

/-- A new scope is marked as it is wanted, and stands inside the other one. -/
theorem Marked.marks_newScope (marked : h.Marked τ ρ w) (alive : h.Alive s) (b : Bool) :
    (h.newScope (some s)).2.marks (w ++ [b]) ⟨h.scopes.size⟩ = b :: h.marks w s := by
  have around : (h.newScope (some s)).2.marks (w ++ [b]) s = h.marks w s :=
    marked.marks_grow (h.extends_newScope _) (List.prefix_append _ _) alive
  rw [marks, (h.extends_newScope _).chain alive] at around
  rw [marks, chain_newScope_self, List.map_cons, around, ← marked.size, changedIn_new]

theorem alive_newScope (h : Heap) (e : Option ScopeId) :
    (h.newScope e).2.Alive ⟨h.scopes.size⟩ := by
  simp [alive_iff, newScope]

/-- The receiver is where it was. -/
theorem Marked.getAt_this (marked : h.Marked τ ρ w) (s : ScopeId) (d : Int) :
    (h.respell τ ρ w).getAt s d "this" = h.getAt s d "this" := by
  have same (t : ScopeId) : (h.respell τ ρ w).binding? t "this" = h.binding? t "this" := by
    have here := binding?_respell (τ := τ) (marked.fresh t) ρ.new_ordinary.1.symm
    rwa [Renaming.spell_this] at here
  simp only [getAt, ancestor_respell, same]

theorem bindReceiver_respell (marked : h.Marked τ ρ w) (k : Closure) (i : InstanceId) :
    (h.respell τ ρ w).bindReceiver (k.respell τ) i =
      ((h.bindReceiver k i).1.respell τ, (h.bindReceiver k i).2.respell τ ρ (w ++ [false])) := by
  have made := newScope_respell (τ := τ) (ρ := ρ) h marked.size (some k.scope) false
  have unchanged : changedIn (w ++ [false]) ⟨h.scopes.size⟩ = false :=
    marked.size ▸ changedIn_new w false
  have defined := define_respell (τ := τ) (ρ := ρ) (w := w ++ [false])
    (h := (h.newScope (some k.scope)).2) (s := ⟨h.scopes.size⟩) (x := "this")
    (fun changed => absurd (unchanged.symm.trans changed) Bool.false_ne_true)
    ρ.new_ordinary.1.symm (some (.object i))
  rw [Renaming.spell_this] at defined
  have scope : (k.respell τ).scope = k.scope := rfl
  simp only [bindReceiver, scope, made, Prod.mk.injEq]
  exact ⟨rfl, defined.symm⟩

theorem Marked.bindReceiver {k : Closure} (marked : h.Marked τ ρ w) (i : InstanceId)
    (follows : h.FollowsFrom τ ρ w k.scope [false] k.declaration) :
    (h.bindReceiver k i).2.Marked τ ρ (w ++ [false]) ∧
      (h.bindReceiver k i).2.FollowsFrom τ ρ (w ++ [false]) (h.bindReceiver k i).1.scope []
        (h.bindReceiver k i).1.declaration := by
  have inside := marked.newScope follows.alive false
  have named := inside.define ⟨h.scopes.size⟩ ρ.new_ordinary.1.symm (some (.object i))
  have marks : (h.bindReceiver k i).2.marks (w ++ [false]) (h.bindReceiver k i).1.scope =
      false :: h.marks w k.scope :=
    (marks_define _ _ _ _).trans (marked.marks_newScope follows.alive false)
  refine ⟨named, (extends_define _ _ _ _).alive (alive_newScope h _), follows.name, ?_⟩
  rw [marks]
  exact follows.code

theorem bindParameters_respell {s : ScopeId} {F : List Bool} (params : List Name)
    (arguments : List Value)
    (follow : ∀ p ∈ params, Use.Follows τ ρ (changedIn w s :: F) ⟨p, some 0, false⟩) :
    ∀ h : Heap, h.Marked τ ρ w → (Run.bindParameters s params arguments h).Marked τ ρ w ∧
      Run.bindParameters s (params.map (Name.respell τ)) arguments (h.respell τ ρ w) =
        (Run.bindParameters s params arguments h).respell τ ρ w := by
  simp only [Run.bindParameters]
  induction params generalizing arguments with
  | nil => exact fun h marked => ⟨marked, rfl⟩
  | cons p params ih =>
      intro h marked
      cases arguments with
      | nil => exact ⟨marked, rfl⟩
      | cons v arguments =>
          obtain ⟨first, others⟩ := List.forall_mem_cons.mp follow
          have rest := ih arguments others _ (marked.define s first.fresh (some v))
          rw [define_respell (marked.fresh s) first.fresh, ← first.declared] at rest
          exact rest

/-- Values are shown as they were: the names of functions and classes are kept. -/
theorem Marked.display (marked : h.Marked τ ρ w) (v : Value) :
    (h.respell τ ρ w).display v = h.display v := by
  refine display_congr (fun i => ?_) h.className_respell rfl v
  rw [function?_respell, Option.map_map]
  cases found : h.function? i with
  | none => rfl
  | some k => simp [Closure.respell, (marked.functions i k found).name]

/-- Global variables are as they were. -/
theorem Marked.get_globals (marked : h.Marked τ ρ w) (x : String) :
    (h.respell τ ρ w).get Machine.globals x = h.get Machine.globals x := by
  simp only [get, lookup, chain_respell, marked.alone, List.findSome?_cons, List.findSome?_nil,
    binding?_respell_unchanged marked.globals]

theorem Marked.binder?_globals (marked : h.Marked τ ρ w) (x : String) :
    (h.respell τ ρ w).binder? Machine.globals x = h.binder? Machine.globals x := by
  simp only [binder?, chain_respell, marked.alone, List.find?_cons, List.find?_nil,
    binding?_respell_unchanged marked.globals]

theorem Marked.bindings_globals (marked : h.Marked τ ρ w) :
    ((h.respell τ ρ w).scope? Machine.globals).map Scope.bindings =
      (h.scope? Machine.globals).map Scope.bindings := by
  rw [scope?_respell, marked.globals, Option.map_map]
  congr 1
  funext k
  exact Table.rename_false

/-! What an address leads to. -/

theorem ancestor_nat (h : Heap) (s : ScopeId) (d : Nat) : h.ancestor s (d : Int) =
    match (h.chain s)[d]? with
    | some t => .ok t
    | none => .error (.noScope d) := rfl

/-- The scope that an address leads to has names changed just if the address says so. -/
theorem changedAt_marks {d : Nat} {t : ScopeId} (there : (h.chain s)[d]? = some t) :
    changedAt (h.marks w s) (some d) = changedIn w t := by
  simp [changedAt, marks, there]

theorem Marked.binding_at (marked : h.Marked τ ρ w) {d : Nat} {t : ScopeId}
    (there : (h.chain s)[d]? = some t) (fresh : x ≠ ρ.new) :
    (h.respell τ ρ w).binding? t (ρ.spell (changedAt (h.marks w s) (some d)) x) =
      h.binding? t x := by
  rw [changedAt_marks there]
  exact binding?_respell (marked.fresh t) fresh

end
end Heap
end LoxLang
