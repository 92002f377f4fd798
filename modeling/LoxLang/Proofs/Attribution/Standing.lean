import LoxLang.Proofs.Attribution
import LoxLang.Proofs.Running.Execution
/-! The meaning of `this` and `super`. The scopes around code that runs for someone hold the receiver
and, if there is one, the class above the declarer. Both bindings last: no program can name them. -/
namespace LoxLang

/-- A name that no program can declare. -/
def Reserved (x : String) : Prop := x = "this" ∨ x = "super"

theorem Name.Ordinary.not_reserved {n : Name} (ordinary : n.Ordinary) : ¬Reserved n.text :=
  not_or.mpr ordinary

theorem Reserved.this : Reserved "this" := .inl rfl

theorem Reserved.super : Reserved "super" := .inr rfl

/-! What lasts on the heap. -/

namespace Heap
variable {h h' h'' : Heap}

/-- The second heap has all that the first has, and every inner scope of the first still has the
same `this` and the same `super`. -/
structure Keeps (h h' : Heap) : Prop where
  grown : h.Extends h'
  reserved : ∀ t x, t ≠ Machine.globals → h.Alive t → Reserved x → h'.binding? t x = h.binding? t x

theorem Keeps.refl (h : Heap) : h.Keeps h := ⟨.refl h, fun _ _ _ _ _ => rfl⟩

theorem Keeps.trans (k : h.Keeps h') (k' : h'.Keeps h'') : h.Keeps h'' :=
  ⟨k.grown.trans k'.grown, fun t x inner alive named =>
    (k'.reserved t x inner (k.grown.alive alive) named).trans (k.reserved t x inner alive named)⟩

theorem keeps_newFunction (h : Heap) (k : Closure) : h.Keeps (h.newFunction k).2 :=
  ⟨h.extends_newFunction k, fun _ _ _ _ _ => rfl⟩

theorem keeps_newClass (h : Heap) (name : String) (above : Option ClassId)
    (methods : Table Closure) : h.Keeps (h.newClass name above methods).2 :=
  ⟨h.extends_newClass name above methods, fun _ _ _ _ _ => rfl⟩

/-- Besides, the second heap has only the functions and classes of the first. -/
structure Steady (h h' : Heap) : Prop where
  keeps : h.Keeps h'
  functions : h'.functions = h.functions
  classes : h'.classes = h.classes

theorem Steady.refl (h : Heap) : h.Steady h := ⟨.refl h, rfl, rfl⟩

theorem Steady.trans (s : h.Steady h') (s' : h'.Steady h'') : h.Steady h'' :=
  ⟨s.keeps.trans s'.keeps, s'.functions.trans s.functions, s'.classes.trans s.classes⟩

theorem steady_newScope (h : Heap) (e : Option ScopeId) : h.Steady (h.newScope e).2 := by
  refine ⟨⟨h.extends_newScope e, fun t x _ alive _ => ?_⟩, rfl, rfl⟩
  rw [binding?_newScope, if_neg alive.ne_new]

theorem steady_define (h : Heap) (s : ScopeId) {x : String} (v : Option Value)
    (harmless : ¬Reserved x ∨ s = Machine.globals) : h.Steady (h.define s x v) := by
  refine ⟨⟨h.extends_define s x v, fun t y inner _ named => ?_⟩, rfl, rfl⟩
  rw [binding?_define, if_neg]
  rintro ⟨rfl, rfl⟩
  exact harmless.elim (· named) inner

/-- What is bound in a new scope hides nothing of the old ones. -/
theorem steady_newScopeWith (h : Heap) (e : Option ScopeId) (x : String) (v : Option Value) :
    h.Steady ((h.newScope e).2.define (h.newScope e).1 x v) := by
  refine ⟨⟨(h.extends_newScope e).trans (extends_define _ _ x v), fun t y _ alive _ => ?_⟩, rfl, rfl⟩
  have old : t ≠ (h.newScope e).1 := alive.ne_new
  rw [binding?_define, if_neg fun same => old same.1, binding?_newScope, if_neg alive.ne_new]

theorem steady_bindParameters (s : ScopeId) {ps : List Name} (vs : List Value) (h : Heap)
    (ordinary : ∀ p ∈ ps, p.Ordinary) : h.Steady (Run.bindParameters s ps vs h) := by
  induction ps generalizing vs h with
  | nil => exact .refl h
  | cons p ps ih =>
      obtain ⟨first, rest⟩ := List.forall_mem_cons.mp ordinary
      cases vs with
      | nil => exact .refl h
      | cons v vs =>
          exact (steady_define h s (some v) (.inl first.not_reserved)).trans (ih vs _ rest)

theorem steady_newInstance (h : Heap) (c : ClassId) : h.Steady (h.newInstance c).2 :=
  ⟨⟨h.extends_newInstance c, fun _ _ _ _ _ => rfl⟩, rfl, rfl⟩

theorem steady_newNative (h : Heap) (n : Native) : h.Steady (h.newNative n).2 :=
  ⟨⟨h.extends_newNative n, fun _ _ _ _ _ => rfl⟩, rfl, rfl⟩

theorem steady_setField (h : Heap) (i : InstanceId) (x : String) (v : Value) :
    h.Steady (h.setField i x v) :=
  ⟨⟨h.extends_setField i x v, fun _ _ _ _ _ => rfl⟩, rfl, rfl⟩

/-- An inner scope binds a name to a value. -/
def Shows (h : Heap) (t : ScopeId) (x : String) (v : Value) : Prop :=
  t ≠ Machine.globals ∧ h.binding? t x = some (some v)

theorem Shows.alive {t : ScopeId} {x : String} {v : Value} (shows : h.Shows t x v) : h.Alive t :=
  alive_of_binding shows.2

theorem Shows.keep {t : ScopeId} {x : String} {v : Value} (shows : h.Shows t x v)
    (named : Reserved x) (keeps : h.Keeps h') : h'.Shows t x v :=
  ⟨shows.1, (keeps.reserved t x shows.1 shows.alive named).trans shows.2⟩

/-- A new scope shows what is bound in it. -/
theorem shows_newScopeWith (full : h.Alive Machine.globals) (e : Option ScopeId) (x : String)
    (v : Value) : ((h.newScope e).2.define (h.newScope e).1 x (some v)).Shows (h.newScope e).1 x v := by
  have made : (h.newScope e).2.Alive (h.newScope e).1 := by
    rw [Alive, scope?_newScope, if_pos (show (h.newScope e).1 = ⟨h.scopes.size⟩ from rfl)]
    rfl
  exact ⟨full.ne_new.symm, binding?_define_self x (some v) made⟩

end Heap

/-! What the two words mean in the scopes of a run. -/

/-- Scopes of a run, innermost first, with the local scopes they were made for, and for whom the
code inside of them runs: for the receiver that the nearest of them holds. The class that a scope
around that one holds is the one that the declarer was declared below. -/
inductive Means (h : Heap) (above : Array (Option ClassId)) :
    List ScopeId → Scopes → Option Standing → Prop
  | globals : h.Alive Machine.globals → Means h above [Machine.globals] [] none
  | inside {t : ScopeId} {ts : List ScopeId} {g : Table Bool} {Γ : Scopes} {who : Option Standing} :
    t ≠ Machine.globals → h.Alive t → g.contains "this" = false → g.contains "super" = false →
    Means h above ts Γ who → Means h above (t :: ts) (g :: Γ) who
  | receiver {t : ScopeId} {ts : List ScopeId} {g : Table Bool} {Γ : Scopes}
    {who : Option Standing} {w : Standing} :
    h.Shows t "this" (.object w.receiver) → above[w.declarer.index]? = some none →
    g.contains "this" = true → g.contains "super" = false →
    Means h above ts Γ who → Means h above (t :: ts) (g :: Γ) (some w)
  | inherited {t s : ScopeId} {ts : List ScopeId} {g k : Table Bool} {Γ : Scopes}
    {who : Option Standing} {w : Standing} {p : ClassId} :
    h.Shows t "this" (.object w.receiver) → h.Shows s "super" (.callable (.ofClass p)) →
    above[w.declarer.index]? = some (some p) →
    g.contains "this" = true → g.contains "super" = false →
    Means h above ts Γ who → Means h above (t :: s :: ts) (g :: k :: Γ) (some w)

/-- The scopes around the methods of a class that is declared below `parent`, or below none. -/
def Surrounds (h : Heap) (above : Array (Option ClassId)) (parent : Option ClassId)
    (ts : List ScopeId) (Γ : Scopes) : Prop :=
  match parent with
  | none => ∃ who, Means h above ts Γ who
  | some p => ∃ s us who, ts = s :: us ∧ h.Shows s "super" (.callable (.ofClass p)) ∧
      Means h above us Γ who

/-- Code that is accepted. -/
def lawfully : Regime := ⟨Site.Lawful, fun _ => id, False, False⟩

/-- A function of accepted code, in scopes of code that runs for `who`. -/
def Closure.RunsFor (h : Heap) (above : Array (Option ClassId)) (who : Option Standing)
    (k : Closure) : Prop :=
  ∃ Γ, k.declaration.Known lawfully Γ ∧ Means h above (h.chain k.scope) Γ who

/-- A method of accepted code, in the scopes around the methods of the class. -/
def Closure.MethodOf (h : Heap) (above : Array (Option ClassId)) (c : ClassId) (k : Closure) :
    Prop :=
  ∃ Γ parent, above[c.index]? = some parent ∧
    k.declaration.Known lawfully (Walk.receiverScope :: Γ.above parent) ∧
    Surrounds h above parent (h.chain k.scope) Γ

/-- The ledger says of a heap what holds there, and all that was seen was right. -/
structure Ledger.Sound (l : Ledger) (h : Heap) : Prop where
  globals : h.Alive Machine.globals
  outermost : h.chain Machine.globals = [Machine.globals]
  allFunctions : l.functions.size = h.functions.size
  allClasses : l.above.size = h.classes.size
  functions : ∀ f k who, h.function? f = some k → l.functions[f.index]? = some who →
    k.RunsFor h l.above who
  methods : ∀ c k x m, h.class? c = some k → k.methods.find? x = some m → m.MethodOf h l.above c
  sights : ∀ s ∈ l.sights, s.Right l.above

/-- The second list says of the classes in the first what the first says. -/
def Prolongs (above above' : Array (Option ClassId)) : Prop :=
  ∀ (c : Nat) p, above[c]? = some p → above'[c]? = some p

variable {h h' : Heap} {above above' : Array (Option ClassId)} {ts : List ScopeId} {Γ : Scopes}
  {who : Option Standing} {parent : Option ClassId}

theorem Prolongs.refl (above : Array (Option ClassId)) : Prolongs above above := fun _ _ => id

theorem Prolongs.trans {above'' : Array (Option ClassId)} (a : Prolongs above above')
    (a' : Prolongs above' above'') : Prolongs above above'' := fun c p found => a' c p (a c p found)

theorem prolongs_push (above : Array (Option ClassId)) (p : Option ClassId) :
    Prolongs above (above.push p) := fun _ _ => Heap.getElem?_push_of_some p

theorem Table.contains_put_other {α : Type} (t : Table α) {x y : String} (a : α) (other : y ≠ x) :
    (t.put x a).contains y = t.contains y := by
  rw [Table.contains, Table.contains, Table.find?_put, if_neg other]

namespace Means

theorem keep (means : Means h above ts Γ who) (keeps : h.Keeps h')
    (prolongs : Prolongs above above') : Means h' above' ts Γ who := by
  induction means with
  | globals alive => exact .globals (keeps.grown.alive alive)
  | inside inner alive this super _ ih => exact .inside inner (keeps.grown.alive alive) this super ih
  | receiver shows alone this super _ ih =>
      exact .receiver (shows.keep .this keeps) (prolongs _ _ alone) this super ih
  | inherited shows shows' below this super _ ih =>
      exact .inherited (shows.keep .this keeps) (shows'.keep .super keeps) (prolongs _ _ below)
        this super ih

theorem alive_head {s : ScopeId} (means : Means h above (s :: ts) Γ who) : h.Alive s := by
  cases means with
  | globals alive => exact alive
  | inside _ alive _ _ _ => exact alive
  | receiver shows _ _ _ _ => exact shows.alive
  | inherited shows _ _ _ _ _ => exact shows.alive

theorem alive {s : ScopeId} (means : Means h above (h.chain s) Γ who) : h.Alive s :=
  means.alive_head

theorem later {s : ScopeId} (means : Means h above (h.chain s) Γ who) (keeps : h.Keeps h')
    (prolongs : Prolongs above above') : Means h' above' (h'.chain s) Γ who := by
  rw [keeps.grown.chain means.alive]
  exact means.keep keeps prolongs

/-- Names that a program enters change nothing. -/
theorem enter (means : Means h above ts Γ who) {x : String} (ordinary : ¬Reserved x) (b : Bool) :
    Means h above ts (Γ.enter x b) who := by
  have same (g : Table Bool) {y : String} (named : Reserved y) :
      (g.put x b).contains y = g.contains y :=
    g.contains_put_other b fun same => ordinary (same ▸ named)
  cases means with
  | globals alive => exact .globals alive
  | inside inner alive this super rest =>
      exact .inside inner alive ((same _ .this).trans this) ((same _ .super).trans super) rest
  | receiver shows alone this super rest =>
      exact .receiver shows alone ((same _ .this).trans this) ((same _ .super).trans super) rest
  | inherited shows shows' below this super rest =>
      exact .inherited shows shows' below ((same _ .this).trans this) ((same _ .super).trans super)
        rest

theorem declare (means : Means h above ts Γ who) {x : String} (ordinary : ¬Reserved x) :
    Means h above ts (Γ.declare x) who :=
  (means.enter ordinary false).enter ordinary true

/-- A new scope without names. -/
theorem newScope {s : ScopeId} (means : Means h above (h.chain s) Γ who)
    (full : h.Alive Machine.globals) :
    let made := h.newScope (some s)
    Means made.2 above (made.2.chain made.1) (Table.empty :: Γ) who := by
  intro made
  rw [show made.2.chain made.1 = made.1 :: h.chain s from h.chain_newScope_self s]
  refine .inside full.ne_new.symm ?_ rfl rfl
    (means.keep (h.steady_newScope (some s)).keeps (.refl above))
  rw [Heap.Alive, Heap.scope?_newScope, if_pos (show made.1 = ⟨h.scopes.size⟩ from rfl)]
  rfl

theorem parameters {ps : List Name} (means : Means h above ts Γ who)
    (ordinary : ∀ p ∈ ps, p.Ordinary) :
    Means h above ts (ps.foldl (fun Δ p => Δ.declare p.text) Γ) who := by
  induction ps generalizing Γ with
  | nil => exact means
  | cons p ps ih =>
      obtain ⟨first, rest⟩ := List.forall_mem_cons.mp ordinary
      exact ih (means.declare first.not_reserved) rest

/-! What is found at the addresses of the two words. -/

/-- The nearest `this` is the receiver. -/
theorem this {d : Nat} (means : Means h above ts Γ who) (found : Γ.locate "this" = some d) :
    ∃ w t, who = some w ∧ ts[d]? = some t ∧ h.Shows t "this" (.object w.receiver) := by
  induction means generalizing d with
  | globals => cases found
  | inside _ _ this _ _ ih =>
      rw [Scopes.locate_cons, this, if_neg Bool.false_ne_true, Option.map_eq_some_iff] at found
      obtain ⟨d, found, rfl⟩ := found
      exact ih found
  | receiver shows _ this _ _ _ =>
      rw [Scopes.locate_cons, if_pos this] at found
      cases found
      exact ⟨_, _, rfl, rfl, shows⟩
  | inherited shows _ _ this _ _ _ =>
      rw [Scopes.locate_cons, if_pos this] at found
      cases found
      exact ⟨_, _, rfl, rfl, shows⟩

/-- `super` is not declared in the scope in which a class is declared. -/
theorem not_super {g : Table Bool} (means : Means h above ts (g :: Γ) who) :
    g.contains "super" = false := by
  cases means <;> assumption

/-- The `super` just around the nearest `this` is the class above the declarer. -/
theorem super {d : Nat} (means : Means h above ts Γ who) (found : Γ.locate "this" = some d)
    (around : Γ.locate "super" = some (d + 1)) :
    ∃ w p s, who = some w ∧ above[w.declarer.index]? = some (some p) ∧ ts[d + 1]? = some s ∧
      h.Shows s "super" (.callable (.ofClass p)) := by
  induction means generalizing d with
  | globals => cases found
  | inside _ _ this super _ ih =>
      rw [Scopes.locate_cons, this, if_neg Bool.false_ne_true, Option.map_eq_some_iff] at found
      rw [Scopes.locate_cons, super, if_neg Bool.false_ne_true, Option.map_eq_some_iff] at around
      obtain ⟨d, found, rfl⟩ := found
      obtain ⟨_, around, same⟩ := around
      cases same
      exact ih found around
  | @receiver _ _ _ Γ _ _ _ _ this super rest _ =>
      rw [Scopes.locate_cons, if_pos this] at found
      cases found
      rw [Scopes.locate_cons, super, if_neg Bool.false_ne_true, Option.map_eq_some_iff] at around
      obtain ⟨_, around, same⟩ := around
      cases same
      cases Γ with
      | nil => cases around
      | cons g Γ =>
          rw [Scopes.locate_cons, rest.not_super, if_neg Bool.false_ne_true,
            Option.map_eq_some_iff] at around
          obtain ⟨_, -, same⟩ := around
          cases same
  | inherited _ shows below this _ _ _ =>
      rw [Scopes.locate_cons, if_pos this] at found
      cases found
      exact ⟨_, _, _, rfl, below, rfl, shows⟩

end Means

namespace Surrounds

theorem keep (surrounds : Surrounds h above parent ts Γ) (keeps : h.Keeps h')
    (prolongs : Prolongs above above') : Surrounds h' above' parent ts Γ := by
  cases parent with
  | none =>
      obtain ⟨who, means⟩ := surrounds
      exact ⟨who, means.keep keeps prolongs⟩
  | some p =>
      obtain ⟨s, us, who, rfl, shows, means⟩ := surrounds
      exact ⟨s, us, who, rfl, shows.keep .super keeps, means.keep keeps prolongs⟩

theorem alive {s : ScopeId} (surrounds : Surrounds h above parent (h.chain s) Γ) : h.Alive s := by
  cases parent with
  | none =>
      obtain ⟨who, means⟩ := surrounds
      exact means.alive
  | some p =>
      obtain ⟨_, us, who, same, shows, -⟩ := surrounds
      cases same
      exact shows.alive

/-- With a receiver in front of them, the scopes around the methods of a class are those of code that
runs for this receiver. -/
theorem receiver {t : ScopeId} {w : Standing} (surrounds : Surrounds h above parent ts Γ)
    (declared : above[w.declarer.index]? = some parent)
    (shows : h.Shows t "this" (.object w.receiver)) :
    Means h above (t :: ts) (Walk.receiverScope :: Γ.above parent) (some w) := by
  cases parent with
  | none =>
      obtain ⟨who, means⟩ := surrounds
      exact .receiver shows declared rfl rfl means
  | some p =>
      obtain ⟨s, us, who, rfl, shows', means⟩ := surrounds
      exact .inherited shows shows' declared rfl rfl means

end Surrounds

/-! What the ledger says goes on holding. -/

theorem Closure.RunsFor.later {k : Closure} (runs : k.RunsFor h above who) (keeps : h.Keeps h')
    (prolongs : Prolongs above above') : k.RunsFor h' above' who := by
  obtain ⟨Γ, known, means⟩ := runs
  exact ⟨Γ, known, means.later keeps prolongs⟩

theorem Closure.MethodOf.later {c : ClassId} {k : Closure} (method : k.MethodOf h above c)
    (keeps : h.Keeps h') (prolongs : Prolongs above above') : k.MethodOf h' above' c := by
  obtain ⟨Γ, parent, declared, known, surrounds⟩ := method
  refine ⟨Γ, parent, prolongs _ _ declared, known, ?_⟩
  rw [keeps.grown.chain surrounds.alive]
  exact surrounds.keep keeps prolongs

theorem Sight.Right.later {s : Sight} (right : s.Right above) (prolongs : Prolongs above above') :
    s.Right above' := by
  unfold Sight.Right at right ⊢
  split
  · next same =>
      simpa only [same] using right
  · next same =>
      simp only [same] at right
      obtain ⟨w, p, for_w, declared, means⟩ := right
      exact ⟨w, p, for_w, prolongs _ _ declared, means⟩
  · trivial

/-- A method with its receiver bound runs for the receiver. -/
theorem Closure.MethodOf.bindReceiver {w : Standing} {k : Closure}
    (method : k.MethodOf h above w.declarer) (full : h.Alive Machine.globals) :
    (h.bindReceiver k w.receiver).1.RunsFor (h.bindReceiver k w.receiver).2 above (some w) := by
  obtain ⟨Γ, parent, declared, known, surrounds⟩ := method
  let made := h.newScope (some k.scope)
  have steady := h.steady_newScopeWith (some k.scope) "this" (some (.object w.receiver))
  have shows := Heap.shows_newScopeWith full (some k.scope) "this" (.object w.receiver)
  refine ⟨_, known, ?_⟩
  have chain : (h.bindReceiver k w.receiver).2.chain made.1 = made.1 :: h.chain k.scope := by
    rw [Heap.bindReceiver, Heap.chain_define]
    exact h.chain_newScope_self k.scope
  rw [show (h.bindReceiver k w.receiver).1.scope = made.1 from rfl, chain]
  exact (surrounds.keep steady.keeps (.refl above)).receiver declared shows

namespace Ledger.Sound
variable {l : Ledger}

theorem steady (sound : l.Sound h) (steady : h.Steady h') : l.Sound h' := by
  have sameFunction (f : FunctionId) : h'.function? f = h.function? f := by
    rw [Heap.function?, steady.functions, Heap.function?]
  have sameClass (c : ClassId) : h'.class? c = h.class? c := by
    rw [Heap.class?, steady.classes, Heap.class?]
  refine ⟨steady.keeps.grown.alive sound.globals,
    (steady.keeps.grown.chain sound.globals).trans sound.outermost, ?_, ?_, ?_, ?_, sound.sights⟩
  · rw [steady.functions]
    exact sound.allFunctions
  · rw [steady.classes]
    exact sound.allClasses
  · intro f k who found entered
    rw [sameFunction] at found
    exact (sound.functions f k who found entered).later steady.keeps (.refl _)
  · intro c k x m found named
    rw [sameClass] at found
    exact (sound.methods c k x m found named).later steady.keeps (.refl _)

/-- Every function on the heap is entered. -/
theorem entered (sound : l.Sound h) {f : FunctionId} {k : Closure} (found : h.function? f = some k) :
    ∃ who, l.functions[f.index]? = some who := by
  obtain ⟨bound, -⟩ := Array.getElem?_eq_some_iff.mp found
  rw [← sound.allFunctions] at bound
  exact ⟨_, Array.getElem?_eq_getElem bound⟩

theorem note (sound : l.Sound h) {s : Sight} (right : s.Right l.above) :
    ({ l with sights := s :: l.sights } : Ledger).Sound h :=
  ⟨sound.globals, sound.outermost, sound.allFunctions, sound.allClasses, sound.functions,
    sound.methods, List.forall_mem_cons.mpr ⟨right, sound.sights⟩⟩

theorem newFunction (sound : l.Sound h) {k : Closure} (runs : k.RunsFor h l.above who) :
    ({ l with functions := l.functions.push who } : Ledger).Sound (h.newFunction k).2 := by
  have keeps := h.keeps_newFunction k
  refine ⟨sound.globals, sound.outermost, ?_, sound.allClasses, ?_, ?_, sound.sights⟩
  · simp only [Heap.newFunction, Array.size_push, sound.allFunctions]
  · intro f k' who' found entered
    simp only [Heap.function?, Heap.newFunction, Array.getElem?_push] at found
    rw [Array.getElem?_push, sound.allFunctions] at entered
    by_cases new : f.index = h.functions.size
    · rw [if_pos new] at found entered
      cases found
      cases entered
      exact runs.later keeps (.refl _)
    · rw [if_neg new] at found entered
      exact (sound.functions f k' who' found entered).later keeps (.refl _)
  · intro c k' x m found named
    exact (sound.methods c k' x m found named).later keeps (.refl _)

/-- A new class is entered with the class it is declared below. -/
theorem newClass (sound : l.Sound h) (name : String) {methods : Table Closure}
    (stand : ∀ x m, methods.find? x = some m → ∃ Γ,
      m.declaration.Known lawfully (Walk.receiverScope :: Γ.above parent) ∧
        Surrounds h l.above parent (h.chain m.scope) Γ) :
    ({ l with above := l.above.push parent } : Ledger).Sound (h.newClass name parent methods).2 := by
  have keeps := h.keeps_newClass name parent methods
  have prolongs := prolongs_push l.above parent
  refine ⟨sound.globals, sound.outermost, sound.allFunctions, ?_, ?_, ?_, ?_⟩
  · simp only [Heap.newClass, Array.size_push, sound.allClasses]
  · intro f k who found entered
    exact (sound.functions f k who found entered).later keeps prolongs
  · intro c k x m found named
    simp only [Heap.class?, Heap.newClass, Array.getElem?_push] at found
    by_cases new : c.index = h.classes.size
    · rw [if_pos new] at found
      cases found
      obtain ⟨Γ, known, surrounds⟩ := stand x m named
      refine ⟨Γ, parent, ?_, known, surrounds.keep keeps prolongs⟩
      rw [Array.getElem?_push, if_pos (new.trans sound.allClasses.symm)]
    · rw [if_neg new] at found
      exact (sound.methods c k x m found named).later keeps prolongs
  · intro s seen
    exact (sound.sights s seen).later prolongs

/-- A method that is found belongs to the class that it is found in. -/
theorem findDeclared (sound : l.Sound h) {c d : ClassId} {x : String} {m : Closure}
    (found : h.findDeclared c x = some (d, m)) : m.MethodOf h l.above d := by
  obtain ⟨_, -, here⟩ := List.exists_of_findSome?_eq_some found
  obtain ⟨m', named, same⟩ := Option.map_eq_some_iff.mp here
  cases same
  obtain ⟨k, known, named⟩ := Option.bind_eq_some_iff.mp named
  exact sound.methods d k x m known named

end Ledger.Sound
end LoxLang
