import LoxLang.Proofs.Addressing
import LoxLang.Proofs.Heap.Growth
/-! Sound heaps. Every closure on such a heap belongs to a known piece of code, and the scopes
around it are those of that code: one for each local scope of the walk, with the names whose
declaration was finished there. -/
namespace LoxLang

/-- The reference leads to something that can be called. -/
def Heap.Leads (h : Heap) : Callable → Prop
  | .native n => (h.native? n).isSome = true
  | .function f => (h.function? f).isSome = true
  | .ofClass c => (h.class? c).isSome = true

/-- The value is a constant, or a reference that leads somewhere. -/
def Heap.Valid (h : Heap) : Value → Prop
  | .callable c => h.Leads c
  | .object i => (h.instance? i).isSome = true
  | _ => True

/-- Every reference on the heap leads somewhere. -/
structure Heap.Typed (h : Heap) : Prop where
  bindings : ∀ s x v, h.binding? s x = some (some v) → h.Valid v
  fields : ∀ i o x v, h.instance? i = some o → o.fields.find? x = some v → h.Valid v
  instances : ∀ i o, h.instance? i = some o → (h.class? o.ofClass).isSome = true
  ancestors : ∀ c k, h.class? c = some k → ∀ d ∈ k.ancestors, (h.class? d).isSome = true

/-- A host program that calls only with as many arguments as are taken. If it can rely on it
that references lead somewhere (`typed`), it yields and passes on only such references. -/
def Host.Proper (typed : Prop) : Host → Heap → Prop
  | .done v, h => typed → h.Valid v
  | .raise _, _ => True
  | .call callee arguments next, h =>
    h.arity? callee = some arguments.length ∧ (typed → ∀ v ∈ arguments, h.Valid v) ∧
      ∀ v h', h.Extends h' → (typed → h'.Typed ∧ h'.Valid v) → (next v).Proper typed h'
  | .arity callee next, h =>
    (typed → h.Leads callee) ∧ ∀ n, h.arity? callee = some n → (next n).Proper typed h
  | .display v next, h => (next (h.display v)).Proper typed h
  | .time next, h => ∀ now, (next now).Proper typed h

/-- A routine of the host that calls only with as many arguments as are taken. -/
def Native.Proper (typed : Prop) (n : Native) : Prop :=
  ∀ h arguments, arguments.length = n.arity →
    (typed → h.Typed ∧ ∀ v ∈ arguments, h.Valid v) → (n.body arguments).Proper typed h

theorem Native.clock_proper (typed : Prop) : Native.clock.Proper typed :=
  fun _ _ _ _ _ _ => trivial

/-- Scopes of a run, innermost first, with the local scopes they were made for: there is one for
each, which binds the names declared there, and the global scope around them. -/
inductive Mirrors (h : Heap) : List ScopeId → Scopes → Prop
  | globals : h.Alive Machine.globals → Mirrors h [Machine.globals] []
  | cons {t : ScopeId} {ts : List ScopeId} {g : Table Bool} {Γ : Scopes} :
    t ≠ Machine.globals → h.Alive t →
    (∀ x, g.find? x = some true → (h.binding? t x).isSome = true) →
    Mirrors h ts Γ → Mirrors h (t :: ts) (g :: Γ)

/-- What is known when a heap is looked at: code whose sites are lawful, whether every reference
leads somewhere, and whether the routines of the host leave the reserved names alone. -/
structure Regime where
  sites : Site → Prop
  lawful : ∀ σ, sites σ → σ.Lawful
  typed : Prop
  tidy : Prop

/-- A routine, declared in scopes like `Γ`, whose code is known. -/
structure Routine.Known (R : Regime) (Γ : Scopes) (r : Routine Address) : Prop where
  code : ∀ σ ∈ r.sites Γ, R.sites σ
  params : ∀ p ∈ r.params, p.Ordinary

/-- A function whose code is known, in scopes like those of its code. -/
def Closure.Known (R : Regime) (h : Heap) (k : Closure) : Prop :=
  ∃ Γ, k.declaration.Known R Γ ∧ Mirrors h (h.chain k.scope) Γ ∧
    (k.isInitializer = true → ∃ Δ, Γ = Walk.receiverScope :: Δ)

/-- A method before its receiver is bound. -/
def Closure.KnownMethod (R : Regime) (h : Heap) (k : Closure) : Prop :=
  ∃ Γ, k.declaration.Known R (Walk.receiverScope :: Γ) ∧ Mirrors h (h.chain k.scope) Γ

/-- A binding of `this` holds an object, one of `super` a class. -/
def Fits (x : String) (b : Option Value) : Prop :=
  (x = "this" → ∃ i, b = some (.object i)) ∧
    (x = "super" → ∃ c, b = some (.callable (.ofClass c)))

/-- The scopes and the code on the heap agree. -/
structure Scoped (R : Regime) (h : Heap) : Prop where
  globals : h.Alive Machine.globals
  outermost : h.chain Machine.globals = [Machine.globals]
  reserved : ∀ s x b, (s = Machine.globals → R.tidy) → h.binding? s x = some b → Fits x b
  functions : ∀ f k, h.function? f = some k → k.Known R h
  methods : ∀ c k, h.class? c = some k →
    ∀ x m, k.methods.find? x = some m → m.KnownMethod R h
  natives : ∀ n r, h.native? n = some r → r.Proper R.typed

/-- The heaps that a run of known code comes by. -/
structure Sound (R : Regime) (h : Heap) : Prop where
  inScope : Scoped R h
  typed : R.typed → h.Typed

variable {R : Regime} {h h' : Heap} {ts : List ScopeId} {Γ : Scopes}

/-! Mirrors. -/

namespace Mirrors

theorem grow (e : h.Extends h') (m : Mirrors h ts Γ) : Mirrors h' ts Γ := by
  induction m with
  | globals alive => exact .globals (e.alive alive)
  | cons inner alive names _ ih =>
      exact .cons inner (e.alive alive) (fun x finished => e.bound (names x finished)) ih

theorem length (m : Mirrors h ts Γ) : ts.length = Γ.length + 1 := by
  induction m with
  | globals => rfl
  | cons _ _ _ _ ih => simp only [List.length_cons, ih]

theorem outermost (m : Mirrors h ts Γ) : ts[Γ.length]? = some Machine.globals := by
  induction m with
  | globals => rfl
  | cons _ _ _ _ ih => simpa only [List.length_cons, List.getElem?_cons_succ] using ih

theorem inner (m : Mirrors h ts Γ) {d : Nat} (hd : d < Γ.length) :
    ∃ t, ts[d]? = some t ∧ t ≠ Machine.globals ∧ h.Alive t := by
  induction m generalizing d with
  | globals => exact absurd hd (Nat.not_lt_zero d)
  | @cons t ts g Γ inner alive names _ ih =>
      cases d with
      | zero => exact ⟨t, rfl, inner, alive⟩
      | succ d => exact ih (Nat.lt_of_succ_lt_succ hd)

theorem holds (m : Mirrors h ts Γ) {d : Nat} {x : String} (held : Γ.Holds d x) :
    ∃ t, ts[d]? = some t ∧ t ≠ Machine.globals ∧ (h.binding? t x).isSome = true := by
  induction m generalizing d with
  | globals =>
      obtain ⟨g, found, -⟩ := held
      cases found
  | @cons t ts g Γ inner alive names _ ih =>
      obtain ⟨g', found, finished⟩ := held
      cases d with
      | zero =>
          obtain rfl := Option.some.inj found
          exact ⟨t, rfl, inner, names x finished⟩
      | succ d => exact ih ⟨g', found, finished⟩

theorem alive_head {s : ScopeId} (m : Mirrors h (s :: ts) Γ) : h.Alive s := by
  cases m with
  | globals alive => exact alive
  | cons _ alive _ _ => exact alive

theorem alive {s : ScopeId} (m : Mirrors h (h.chain s) Γ) : h.Alive s := m.alive_head

theorem later {s : ScopeId} (m : Mirrors h (h.chain s) Γ) (e : h.Extends h') :
    Mirrors h' (h'.chain s) Γ := by
  rw [e.chain m.alive]
  exact m.grow e

/-- A declaration that is begun demands nothing of the scope it stands in. -/
theorem enter (m : Mirrors h ts Γ) (x : String) : Mirrors h ts (Γ.enter x false) := by
  cases m with
  | globals alive => exact .globals alive
  | cons inner alive names rest =>
      refine .cons inner alive (fun y finished => ?_) rest
      rw [Table.find?_put] at finished
      split at finished
      · cases finished
      · exact names y finished

theorem declare {s : ScopeId} (m : Mirrors h (s :: ts) Γ) (x : String) (v : Option Value) :
    Mirrors (h.define s x v) (s :: ts) (Γ.declare x) := by
  have grown := m.grow (h.extends_define s x v)
  cases grown with
  | globals alive => exact .globals alive
  | cons inner alive names rest =>
      refine .cons inner alive (fun y finished => ?_) rest
      rw [Table.find?_put, Table.find?_put] at finished
      by_cases same : y = x
      · cases m with
        | cons _ living _ _ =>
            rw [same, Heap.binding?_define_self x v living]
            rfl
      · rw [if_neg same, if_neg same] at finished
        exact names y finished

theorem extend {δ : Type} (m : Mirrors h ts Γ) {s : Stmt δ} (quiet : s.binds = none) :
    Mirrors h ts (Γ.extend s) := by
  rwa [Scopes.extend, quiet]

/-- A new scope stands for a local scope without names. -/
theorem newScope {s : ScopeId} (m : Mirrors h (h.chain s) Γ) :
    let made := h.newScope (some s)
    Mirrors made.2 (made.2.chain made.1) (Table.empty :: Γ) := by
  intro made
  have full : 0 < h.scopes.size := Nat.lt_of_le_of_lt (Nat.zero_le _) (Heap.alive_iff.mp m.alive)
  rw [show made.2.chain made.1 = made.1 :: h.chain s from h.chain_newScope_self s]
  refine .cons ?_ ?_ (by simp) (m.grow (h.extends_newScope (some s)))
  · rw [Ne, Heap.scopeId_eq_iff]
    exact Nat.ne_of_gt full
  · rw [Heap.Alive, Heap.scope?_newScope, if_pos (show made.1 = ⟨h.scopes.size⟩ from rfl)]
    rfl

/-- A new scope with one binding stands for a local scope with one name. -/
theorem newScopeWith {s : ScopeId} (m : Mirrors h (h.chain s) Γ) (x : String) (v : Option Value) :
    let made := h.newScope (some s)
    Mirrors (made.2.define made.1 x v) ((made.2.define made.1 x v).chain made.1)
      (Table.empty.put x true :: Γ) := by
  intro made
  have named := m.newScope.declare x v
  have same : Scopes.declare (Table.empty :: Γ) x = Table.empty.put x true :: Γ := by
    simp [Scopes.declare, Scopes.enter, Table.put, Table.putEntry, Table.empty]
  rw [same] at named
  rw [Heap.chain_define]
  exact named

theorem parameters {s : ScopeId} {ps : List Name} {vs : List Value}
    (m : Mirrors h (s :: ts) Γ) (all : vs.length = ps.length) :
    Mirrors (Run.bindParameters s ps vs h) (s :: ts)
      (ps.foldl (fun Δ p => Δ.declare p.text) Γ) := by
  induction ps generalizing h Γ vs with
  | nil => simpa only [Run.bindParameters, List.zip_nil_left, List.foldl_nil] using m
  | cons p ps ih =>
      cases vs with
      | nil => simp at all
      | cons v vs => exact ih (m.declare p.text (some v)) (Nat.succ.inj all)

end Mirrors

/-! What is known stays known. -/

theorem Closure.Known.grow {k : Closure} (known : k.Known R h) (e : h.Extends h') : k.Known R h' := by
  obtain ⟨Γ, code, mirrors, initializer⟩ := known
  exact ⟨Γ, code, mirrors.later e, initializer⟩

theorem Closure.KnownMethod.grow {k : Closure} (known : k.KnownMethod R h) (e : h.Extends h') :
    k.KnownMethod R h' := by
  obtain ⟨Γ, code, mirrors⟩ := known
  exact ⟨Γ, code, mirrors.later e⟩

theorem Heap.Leads.grow {c : Callable} (leads : h.Leads c) (e : h.Extends h') : h'.Leads c := by
  cases c with
  | native n =>
      obtain ⟨r, found⟩ := Option.isSome_iff_exists.mp leads
      exact Option.isSome_iff_exists.mpr ⟨r, e.natives n r found⟩
  | function f =>
      obtain ⟨k, found⟩ := Option.isSome_iff_exists.mp leads
      exact Option.isSome_iff_exists.mpr ⟨k, e.functions f k found⟩
  | ofClass c =>
      obtain ⟨k, found⟩ := Option.isSome_iff_exists.mp leads
      exact Option.isSome_iff_exists.mpr ⟨k, e.classes c k found⟩

theorem Heap.Valid.grow {v : Value} (valid : h.Valid v) (e : h.Extends h') : h'.Valid v := by
  cases v with
  | callable c => exact Heap.Leads.grow valid e
  | object i =>
      obtain ⟨o, found⟩ := Option.isSome_iff_exists.mp valid
      obtain ⟨o', found', -⟩ := e.instances i o found
      exact Option.isSome_iff_exists.mpr ⟨o', found'⟩
  | _ => trivial

/-- A heap that grows by fitting pieces stays in agreement. -/
theorem Scoped.grow (sound : Scoped R h) (e : h.Extends h')
    (reserved : ∀ s x b, (s = Machine.globals → R.tidy) → h'.binding? s x = some b →
      h.binding? s x = some b ∨ Fits x b)
    (functions : ∀ f k, h'.function? f = some k → h.function? f = some k ∨ k.Known R h')
    (methods : ∀ c k, h'.class? c = some k → h.class? c = some k ∨
      ∀ x m, k.methods.find? x = some m → m.KnownMethod R h')
    (natives : ∀ n r, h'.native? n = some r → h.native? n = some r ∨ r.Proper R.typed) :
    Scoped R h' := by
  refine ⟨e.alive sound.globals, (e.chain sound.globals).trans sound.outermost, ?_, ?_, ?_, ?_⟩
  · intro s x b tidy bound
    exact (reserved s x b tidy bound).elim (sound.reserved s x b tidy) id
  · intro f k found
    exact (functions f k found).elim (fun old => (sound.functions f k old).grow e) id
  · intro c k found
    exact (methods c k found).elim (fun old x m named => (sound.methods c k old x m named).grow e) id
  · intro n r found
    exact (natives n r found).elim (sound.natives n r) id

/-- A heap that grows by references that lead somewhere stays typed. -/
theorem Heap.Typed.grow (typed : h.Typed) (e : h.Extends h')
    (bindings : ∀ s x v, h'.binding? s x = some (some v) →
      h.binding? s x = some (some v) ∨ h'.Valid v)
    (fields : ∀ i o x v, h'.instance? i = some o → o.fields.find? x = some v →
      (∃ o', h.instance? i = some o' ∧ o'.fields.find? x = some v) ∨ h'.Valid v)
    (instances : ∀ i o, h'.instance? i = some o →
      (h.class? o.ofClass).isSome = true ∨ (h'.class? o.ofClass).isSome = true)
    (ancestors : ∀ c k, h'.class? c = some k → h.class? c = some k ∨
      ∀ d ∈ k.ancestors, (h'.class? d).isSome = true) : h'.Typed := by
  have still {c : ClassId} (found : (h.class? c).isSome = true) : (h'.class? c).isSome = true :=
    Heap.Leads.grow (c := .ofClass c) found e
  refine ⟨?_, ?_, ?_, ?_⟩
  · intro s x v bound
    exact (bindings s x v bound).elim (fun old => (typed.bindings s x v old).grow e) id
  · intro i o x v found held
    rcases fields i o x v found held with ⟨o', found', held'⟩ | valid
    · exact (typed.fields i o' x v found' held').grow e
    · exact valid
  · intro i o found
    exact (instances i o found).elim still id
  · intro c k found
    exact (ancestors c k found).elim (fun old d above => still (typed.ancestors c k old d above)) id

end LoxLang
