import LoxLang.Proofs.Attribution.Standing
import LoxLang.Proofs.Chronicle
import LoxLang.Proofs.Heap.Branching
import LoxLang.Proofs.Heap.Inheriting
/-! What a register says of a heap. Every function and class on the heap was made as it says, from
known code and in scopes around which its regions stand, and every region has a scope of its own. -/
namespace LoxLang

/-! Routines of the host. -/

/-- A host program that yields and passes on only references that lead somewhere. -/
def Host.Sane : Host → Heap → Prop
  | .done v, h => h.Valid v
  | .raise _, _ => True
  | .call callee arguments next, h => h.Leads callee ∧ (∀ v ∈ arguments, h.Valid v) ∧
      ∀ v h', h.Extends h' → h'.Typed → h'.Valid v → (next v).Sane h'
  | .arity callee next, h => h.Leads callee ∧ ∀ n, h.arity? callee = some n → (next n).Sane h
  | .display v next, h => (next (h.display v)).Sane h
  | .time next, h => ∀ now, (next now).Sane h

/-- A routine of the host that yields and passes on only references that lead somewhere, if it is
given such. -/
def Native.Sane (n : Native) : Prop :=
  ∀ h arguments, h.Typed → (∀ v ∈ arguments, h.Valid v) → (n.body arguments).Sane h

theorem Native.clock_sane : Native.clock.Sane := fun _ _ _ _ _ => trivial

namespace Heap
variable {h h' h'' : Heap}

/-- The second heap has the functions, classes and routines of the host of the first, the reserved
names are left alone, and scopes go on branching off. -/
structure Calm (h h' : Heap) : Prop where
  steady : h.Steady h'
  natives : h'.natives = h.natives
  branching : h.Branching → h'.Branching

theorem Calm.trans (c : h.Calm h') (c' : h'.Calm h'') : h.Calm h'' :=
  ⟨c.steady.trans c'.steady, c'.natives.trans c.natives, c'.branching ∘ c.branching⟩

theorem calm_newScope {around : ScopeId} (alive : h.Alive around) :
    h.Calm (h.newScope (some around)).2 :=
  ⟨h.steady_newScope _, rfl, fun branching => branching.newScope alive⟩

theorem branching_define (branching : h.Branching) (s : ScopeId) (x : String) (v : Option Value) :
    (h.define s x v).Branching :=
  branching.grow (h.extends_define s x v) fun _ living => alive_define.mp living

theorem calm_define (s : ScopeId) {x : String} (v : Option Value) (ordinary : ¬Reserved x) :
    h.Calm (h.define s x v) :=
  ⟨h.steady_define s v (.inl ordinary), rfl, fun branching => branching_define branching s x v⟩

theorem calm_newScopeWith {around : ScopeId} (alive : h.Alive around) (x : String)
    (v : Option Value) :
    h.Calm ((h.newScope (some around)).2.define (h.newScope (some around)).1 x v) :=
  ⟨h.steady_newScopeWith _ x v, rfl, fun branching =>
    branching_define (branching.newScope alive) _ x v⟩

theorem calm_bindParameters (s : ScopeId) {ps : List Name} (vs : List Value)
    (ordinary : ∀ p ∈ ps, p.Ordinary) : h.Calm (Run.bindParameters s ps vs h) := by
  induction ps generalizing vs h with
  | nil => exact ⟨.refl h, rfl, id⟩
  | cons p ps ih =>
      obtain ⟨first, rest⟩ := List.forall_mem_cons.mp ordinary
      cases vs with
      | nil => exact ⟨.refl h, rfl, id⟩
      | cons v vs => exact (calm_define s (some v) first.not_reserved).trans (ih vs rest)

theorem calm_newInstance (h : Heap) (c : ClassId) : h.Calm (h.newInstance c).2 :=
  ⟨h.steady_newInstance c, rfl, fun branching =>
    branching.grow (h.extends_newInstance c) fun _ => id⟩

theorem calm_setField (h : Heap) (i : InstanceId) (x : String) (v : Value) :
    h.Calm (h.setField i x v) :=
  ⟨h.steady_setField i x v, rfl, fun branching =>
    branching.grow (h.extends_setField i x v) fun _ => id⟩

end Heap

/-- The second register has what the first has, in the same places. -/
structure Register.Prolongs (l l' : Register) : Prop where
  functions : ∀ (n : Nat) o, l.functions[n]? = some o → l'.functions[n]? = some o
  classes : ∀ (n : Nat) o, l.classes[n]? = some o → l'.classes[n]? = some o
  regions : ∀ (n : Nat) r, l.regions[n]? = some r → l'.regions[n]? = some r

/-- The scopes from `s` outward are as many as the local scopes `Γ` and the global one, and the
scopes of the regions of a setting are among them. -/
structure Setting.Around (l : Register) (h : Heap) (st : Setting) (Γ : Scopes) (s : ScopeId) :
    Prop where
  alive : h.Alive s
  depth : (h.chain s).length = Γ.length + 1
  inside : ∀ n, st.activation = some n ∨ st.region = some n →
    ∃ r, l.regions[n]? = some r ∧ r.scope ∈ h.chain s

/-- A closure was made by its declaration in a setting, or from a method of a class, whose receiver
is held by a scope of its own in front of those of the method. -/
def Birth.Made (l : Register) (h : Heap) (Γ : Scopes) (k : Closure) : Birth → Prop
  | .declared st => k.isInitializer = false ∧ st.Around l h Γ k.scope
  | .bound method d i => k = { method with scope := k.scope } ∧
      h.chain k.scope = k.scope :: h.chain method.scope ∧ h.Shows k.scope "this" (.object i) ∧
      ∃ c x, h.class? d = some c ∧ c.methods.find? x = some method

/-- A closure of known code was made as its origin says. -/
structure Origin.Made (R : Regime) (l : Register) (h : Heap) (o : Origin) (k : Closure) : Prop where
  known : k.declaration.Known R o.scopes
  alive : h.Alive k.scope
  depth : (h.chain k.scope).length = o.scopes.length + 1
  birth : o.birth.Made l h o.scopes k

/-- A class was made by the declaration that its origin says. -/
structure ClassOrigin.Made (R : Regime) (l : Register) (h : Heap) (o : ClassOrigin) (k : Class) :
    Prop where
  site : R.sites o.site
  name : k.name = o.name.text
  above : k.superclass? = o.above
  parent : o.parent.isSome = o.above.isSome
  known : ∀ r ∈ o.methods, r.Known R o.inner
  methods : ∃ s, k.methods = Run.methodTable s o.methods ∧
    o.setting.Around l h ((o.setting.scopes.declare o.name.text).above o.above) s

/-- What a region is an execution of. A body is its own activation, in front of the scope of its
closure; a block is one of a known source. -/
def Execution.Stands (R : Regime) (l : Register) (h : Heap) (n : Nat) (r : Region) :
    Execution → Prop
  | .body callee k birth => r.activation = some n ∧ r.around = k.scope ∧
      (∀ f, callee = some f → h.function? f = some k ∧
        ∃ Γ, l.functions[f.index]? = some ⟨birth, Γ⟩) ∧
      ∃ Γ, birth.Made l h Γ k
  | .block σ => R.sites σ ∧ (h.chain r.around).length = σ.scopes.length + 1 ∧
      ∃ line body, σ.node = .stmt (.block line body)

structure Region.Stands (R : Regime) (l : Register) (h : Heap) (n : Nat) (r : Region) : Prop where
  alive : h.Alive r.around
  opened : h.Alive r.scope
  chain : h.chain r.scope = r.scope :: h.chain r.around
  execution : r.execution.Stands R l h n r

/-- The scope that holds the receiver of a copy of a method: one that is a value of its own, or one
that was made for the initialization of an instance and has run in the region of that number. -/
inductive Register.Copied (l : Register) (h : Heap) : FunctionId ⊕ Nat → ScopeId → Prop
  | value {f : FunctionId} {k method : Closure} {d : ClassId} {i : InstanceId} {Γ : Scopes} :
    h.function? f = some k → l.functions[f.index]? = some ⟨.bound method d i, Γ⟩ →
    Copied l h (.inl f) k.scope
  | initializer {n : Nat} {r : Region} {k : Closure} {b : Birth} :
    l.regions[n]? = some r → r.execution = .body none k b → Copied l h (.inr n) k.scope

/-- The register says of a heap what holds there. -/
structure Register.Sound (R : Regime) (l : Register) (h : Heap) : Prop where
  globals : h.Alive Machine.globals
  outermost : h.chain Machine.globals = [Machine.globals]
  branching : h.Branching
  allFunctions : l.functions.size = h.functions.size
  allClasses : l.classes.size = h.classes.size
  functions : ∀ f k o, h.function? f = some k → l.functions[f.index]? = some o → o.Made R l h k
  classes : ∀ c k o, h.class? c = some k → l.classes[c.index]? = some o → o.Made R l h k
  regions : ∀ (n : Nat) (r : Region), l.regions[n]? = some r → r.Stands R l h n
  apart : ∀ (n n' : Nat) (r r' : Region), l.regions[n]? = some r → l.regions[n']? = some r' →
    r.scope = r'.scope → n = n'
  copies : ∀ c c' s, l.Copied h c s → l.Copied h c' s → c = c'
  typed : R.typed → h.Typed ∧ h.Inheriting ∧ ∀ n r, h.native? n = some r → r.Sane

variable {R : Regime} {l l' l'' : Register} {h h' : Heap} {s : ScopeId} {k : Closure} {Γ : Scopes}

namespace Register.Prolongs

theorem refl (l : Register) : l.Prolongs l :=
  ⟨fun _ _ found => found, fun _ _ found => found, fun _ _ found => found⟩

theorem trans (p : l.Prolongs l') (p' : l'.Prolongs l'') : l.Prolongs l'' :=
  ⟨fun n o found => p'.functions n o (p.functions n o found),
    fun n o found => p'.classes n o (p.classes n o found),
    fun n r found => p'.regions n r (p.regions n r found)⟩

theorem function (l : Register) (o : Origin) :
    l.Prolongs { l with functions := l.functions.push o } :=
  ⟨fun _ _ => Heap.getElem?_push_of_some o, fun _ _ found => found, fun _ _ found => found⟩

theorem ofClass (l : Register) (o : ClassOrigin) :
    l.Prolongs { l with classes := l.classes.push o } :=
  ⟨fun _ _ found => found, fun _ _ => Heap.getElem?_push_of_some o, fun _ _ found => found⟩

theorem region (l : Register) (r : Region) :
    l.Prolongs { l with regions := l.regions.push r } :=
  ⟨fun _ _ found => found, fun _ _ found => found, fun _ _ => Heap.getElem?_push_of_some r⟩

end Register.Prolongs

/-! What the register says goes on holding. -/

theorem Setting.Around.later {st : Setting} (around : st.Around l h Γ s) (keeps : h.Keeps h')
    (prolongs : l.Prolongs l') : st.Around l' h' Γ s := by
  have same := keeps.grown.chain around.alive
  refine ⟨keeps.grown.alive around.alive, same ▸ around.depth, fun n here => ?_⟩
  obtain ⟨r, found, member⟩ := around.inside n here
  exact ⟨r, prolongs.regions n r found, same ▸ member⟩

theorem Birth.Made.later {b : Birth} (made : b.Made l h Γ k) (keeps : h.Keeps h')
    (alive : h.Alive k.scope) (branching : h.Branching) (prolongs : l.Prolongs l') :
    b.Made l' h' Γ k := by
  cases b with
  | declared st => exact ⟨made.1, made.2.later keeps prolongs⟩
  | bound method d i =>
      obtain ⟨same, chain, shows, c, x, found, named⟩ := made
      -- The scope of the method is around that of the copy, so its chain stays as well.
      have outer : h.Alive method.scope := by
        refine (branching _ alive _ ?_).1
        rw [chain]
        exact List.mem_cons_of_mem _ (h.mem_chain_self _)
      refine ⟨same, ?_, shows.keep .this keeps, c, x, keeps.grown.classes _ _ found, named⟩
      rw [keeps.grown.chain alive, keeps.grown.chain outer, chain]

theorem Origin.Made.later {o : Origin} (made : o.Made R l h k) (keeps : h.Keeps h')
    (branching : h.Branching) (prolongs : l.Prolongs l') : o.Made R l' h' k :=
  ⟨made.known, keeps.grown.alive made.alive, keeps.grown.chain made.alive ▸ made.depth,
    made.birth.later keeps made.alive branching prolongs⟩

theorem ClassOrigin.Made.later {o : ClassOrigin} {c : Class} (made : o.Made R l h c)
    (keeps : h.Keeps h') (prolongs : l.Prolongs l') : o.Made R l' h' c := by
  obtain ⟨s, table, around⟩ := made.methods
  exact ⟨made.site, made.name, made.above, made.parent, made.known, s, table,
    around.later keeps prolongs⟩

theorem Execution.Stands.later {u : Execution} {n : Nat} {r : Region} (stands : u.Stands R l h n r)
    (alive : h.Alive r.around) (keeps : h.Keeps h') (branching : h.Branching)
    (prolongs : l.Prolongs l') : u.Stands R l' h' n r := by
  cases u with
  | body callee k birth =>
      obtain ⟨own, front, called, Γ, made⟩ := stands
      refine ⟨own, front, fun f same => ?_, Γ, made.later keeps (front ▸ alive) branching prolongs⟩
      obtain ⟨found, Δ, entered⟩ := called f same
      exact ⟨keeps.grown.functions f k found, Δ, prolongs.functions _ _ entered⟩
  | block σ => exact ⟨stands.1, keeps.grown.chain alive ▸ stands.2.1, stands.2.2⟩

theorem Region.Stands.later {n : Nat} {r : Region} (stands : r.Stands R l h n) (keeps : h.Keeps h')
    (branching : h.Branching) (prolongs : l.Prolongs l') : r.Stands R l' h' n := by
  refine ⟨keeps.grown.alive stands.alive, keeps.grown.alive stands.opened, ?_,
    stands.execution.later stands.alive keeps branching prolongs⟩
  rw [keeps.grown.chain stands.opened, keeps.grown.chain stands.alive, stands.chain]

namespace Register.Copied
variable {c : FunctionId ⊕ Nat}

/-- Copies are those of the functions on the heap. -/
theorem same_functions (copied : l.Copied h' c s) (same : h'.functions = h.functions) :
    l.Copied h c s := by
  cases copied with
  | value found entered =>
      rw [Heap.function?, same] at found
      exact .value found entered
  | initializer found body => exact .initializer found body

theorem alive (copied : l.Copied h c s) (sound : l.Sound R h) : h.Alive s := by
  cases copied with
  | value found entered => exact (sound.functions _ _ _ found entered).alive
  | @initializer n r k b found body =>
      have stands := sound.regions n r found
      have execution := stands.execution
      rw [body] at execution
      exact execution.2.1 ▸ stands.alive

end Register.Copied

namespace Register.Sound

/-- A heap with the same functions and classes. -/
theorem steady (sound : l.Sound R h) (steady : h.Steady h') (branching : h'.Branching)
    (typed : R.typed → h'.Typed ∧ ∀ n r, h'.native? n = some r → r.Sane) : l.Sound R h' := by
  have keeps := steady.keeps
  have sameFunction (f : FunctionId) : h'.function? f = h.function? f := by
    rw [Heap.function?, steady.functions, Heap.function?]
  have sameClass (c : ClassId) : h'.class? c = h.class? c := by
    rw [Heap.class?, steady.classes, Heap.class?]
  refine ⟨keeps.grown.alive sound.globals, (keeps.grown.chain sound.globals).trans sound.outermost,
    branching, ?_, ?_, ?_, ?_, ?_, sound.apart, fun c c' s copied copied' => ?_, fun t => ?_⟩
  · rw [steady.functions]
    exact sound.allFunctions
  · rw [steady.classes]
    exact sound.allClasses
  · intro f k o found entered
    rw [sameFunction] at found
    exact (sound.functions f k o found entered).later keeps sound.branching (.refl l)
  · intro c k o found entered
    rw [sameClass] at found
    exact (sound.classes c k o found entered).later keeps (.refl l)
  · intro n r found
    exact (sound.regions n r found).later keeps sound.branching (.refl l)
  · exact sound.copies c c' s (copied.same_functions steady.functions)
      (copied'.same_functions steady.functions)
  · refine ⟨(typed t).1, (sound.typed t).2.1.grow keeps.grown fun c k found => ?_, (typed t).2⟩
    exact .inl (sameClass c ▸ found)

theorem calm (sound : l.Sound R h) (calm : h.Calm h') (typed : R.typed → h'.Typed) :
    l.Sound R h' := by
  refine sound.steady calm.steady (calm.branching sound.branching) fun t => ⟨typed t, ?_⟩
  intro n r found
  rw [Heap.native?, calm.natives] at found
  exact (sound.typed t).2.2 n r found

/-- A heap with more functions or classes, of which the register takes note. -/
theorem grow (sound : l.Sound R h) (keeps : h.Keeps h') (prolongs : l.Prolongs l')
    (scopes : h'.scopes = h.scopes) (natives : h'.natives = h.natives)
    (regions : l'.regions = l.regions) (allFunctions : l'.functions.size = h'.functions.size)
    (allClasses : l'.classes.size = h'.classes.size)
    (functions : ∀ f k o, h'.function? f = some k → l'.functions[f.index]? = some o →
      h.function? f = some k ∧ l.functions[f.index]? = some o ∨ o.Made R l h k)
    (classes : ∀ c k o, h'.class? c = some k → l'.classes[c.index]? = some o →
      h.class? c = some k ∧ l.classes[c.index]? = some o ∨ o.Made R l h k)
    (copies : ∀ c c' s, l'.Copied h' c s → l'.Copied h' c' s → c = c')
    (typed : R.typed → h'.Typed ∧ h'.Inheriting) : l'.Sound R h' := by
  have calm (s : ScopeId) (living : h'.Alive s) : h.Alive s := by
    rwa [Heap.alive_iff, ← scopes, ← Heap.alive_iff]
  refine ⟨keeps.grown.alive sound.globals, (keeps.grown.chain sound.globals).trans sound.outermost,
    sound.branching.grow keeps.grown calm, allFunctions, allClasses, ?_, ?_, ?_, ?_, copies,
    fun t => ?_⟩
  · intro f k o found entered
    rcases functions f k o found entered with ⟨found, entered⟩ | made
    · exact (sound.functions f k o found entered).later keeps sound.branching prolongs
    · exact made.later keeps sound.branching prolongs
  · intro c k o found entered
    rcases classes c k o found entered with ⟨found, entered⟩ | made
    · exact (sound.classes c k o found entered).later keeps prolongs
    · exact made.later keeps prolongs
  · intro n r found
    rw [regions] at found
    exact (sound.regions n r found).later keeps sound.branching prolongs
  · rw [regions]
    exact sound.apart
  · refine ⟨(typed t).1, (typed t).2, fun n r found => (sound.typed t).2.2 n r ?_⟩
    rw [Heap.native?, ← natives]
    exact found

/-- With one more copy, whose scope is that of none before, copies have scopes of their own. -/
theorem copies_more (sound : l.Sound R h) (new : FunctionId ⊕ Nat)
    (known : ∀ c s, l'.Copied h' c s → l.Copied h c s ∨ c = new ∧ ∀ c, ¬l.Copied h c s)
    (c c' : FunctionId ⊕ Nat) (s : ScopeId) (copied : l'.Copied h' c s)
    (copied' : l'.Copied h' c' s) : c = c' := by
  rcases known c s copied with old | ⟨rfl, none⟩
  · rcases known c' s copied' with old' | ⟨-, none⟩
    · exact sound.copies c c' s old old'
    · exact absurd old (none c)
  · rcases known c' s copied' with old' | ⟨rfl, -⟩
    · exact absurd old' (none c')
    · rfl

/-- A function on the heap was there before, or is the new one. -/
theorem function_made {o o' : Origin} {k' : Closure} {f : FunctionId} (sound : l.Sound R h)
    (found : (h.newFunction k).2.function? f = some k')
    (entered : (l.functions.push o)[f.index]? = some o') :
    h.function? f = some k' ∧ l.functions[f.index]? = some o' ∨
      f = ⟨h.functions.size⟩ ∧ k' = k ∧ o' = o := by
  rw [function?_newFunction] at found
  rw [Array.getElem?_push, sound.allFunctions] at entered
  by_cases new : f.index = h.functions.size
  · rw [if_pos new] at found entered
    cases found
    cases entered
    exact .inr ⟨by rw [← new], rfl, rfl⟩
  · rw [if_neg new] at found entered
    exact .inl ⟨found, entered⟩

/-- A function is made. If it is a copy of a method, then its scope is that of no other copy. -/
theorem newFunction {o : Origin} (sound : l.Sound R h) (made : o.Made R l h k)
    (fresh : ∀ method d i, o.birth = .bound method d i → ∀ c, ¬l.Copied h c k.scope) :
    ({ l with functions := l.functions.push o } : Register).Sound R (h.newFunction k).2 := by
  refine sound.grow (h.keeps_newFunction k) (.function l o) rfl rfl rfl ?_ sound.allClasses ?_
    (fun _ _ _ found entered => .inl ⟨found, entered⟩)
    (sound.copies_more (.inl ⟨h.functions.size⟩) fun c s copied => ?_)
    fun t => ⟨(sound.typed t).1.newFunction k,
      (sound.typed t).2.1.grow (h.extends_newFunction k) fun _ _ => .inl⟩
  · simp only [Heap.newFunction, Array.size_push, sound.allFunctions]
  · intro f k' o' found entered
    rcases sound.function_made found entered with old | ⟨-, rfl, rfl⟩
    · exact .inl old
    · exact .inr made
  · cases copied with
    | initializer found body => exact .inl (.initializer found body)
    | @value f k' method d i Γ found entered =>
        rcases sound.function_made found entered with ⟨found', entered'⟩ | ⟨rfl, rfl, rfl⟩
        · exact .inl (.value found' entered')
        · exact .inr ⟨rfl, fresh method d i rfl⟩

/-- A class is made from methods whose scope is at hand. -/
theorem newClass {o : ClassOrigin} (sound : l.Sound R h) (site : R.sites o.site)
    (parent : o.parent.isSome = o.above.isSome) (known : ∀ r ∈ o.methods, r.Known R o.inner)
    (around : o.setting.Around l h ((o.setting.scopes.declare o.name.text).above o.above) s)
    (leads : R.typed → ∀ p, o.above = some p → h.Leads (.ofClass p)) :
    ({ l with classes := l.classes.push o } : Register).Sound R
      (h.newClass o.name.text o.above (Run.methodTable s o.methods)).2 := by
  refine sound.grow (h.keeps_newClass _ _ _) (.ofClass l o) rfl rfl rfl sound.allFunctions ?_
    (fun _ _ _ found entered => .inl ⟨found, entered⟩) ?_ (fun c c' u copied copied' => ?_)
    fun t => ⟨(sound.typed t).1.newClass _ _ (leads t), (sound.typed t).2.1.newClass _ _ (leads t)⟩
  · simp only [Heap.newClass, Array.size_push, sound.allClasses]
  · intro c k o' found entered
    rw [class?_newClass] at found
    rw [Array.getElem?_push, sound.allClasses] at entered
    by_cases new : c.index = h.classes.size
    · rw [if_pos new] at found entered
      cases found
      cases entered
      refine .inr ⟨site, rfl, ?_, parent, known, s, rfl, around⟩
      cases above : o.above <;> rfl
    · rw [if_neg new] at found entered
      exact .inl ⟨found, entered⟩
  · have old {c : FunctionId ⊕ Nat} (copied : Copied { l with classes := l.classes.push o }
        (h.newClass o.name.text o.above (Run.methodTable s o.methods)).2 c u) : l.Copied h c u := by
      cases copied with
      | value found entered => exact .value found entered
      | initializer found body => exact .initializer found body
    exact sound.copies c c' u (old copied) (old copied')

/-- A routine of the host may have any name. -/
theorem newNative {n : Native} (sound : l.Sound R h) (sane : R.typed → n.Sane) :
    l.Sound R ((h.newNative n).2.define Machine.globals n.name
      (some (.callable (.native (h.newNative n).1)))) := by
  let v : Value := .callable (.native (h.newNative n).1)
  have steady : h.Steady ((h.newNative n).2.define Machine.globals n.name (some v)) :=
    (h.steady_newNative n).trans (Heap.steady_define _ _ _ (.inr rfl))
  have branching : (h.newNative n).2.Branching :=
    sound.branching.grow (h.extends_newNative n) fun _ => id
  refine sound.steady steady (Heap.branching_define branching _ _ _) fun t => ⟨?_, ?_⟩
  · refine ((sound.typed t).1.newNative n).define fun w same => ?_
    cases same
    exact leads_newNative h n
  · intro m r found
    have here : (h.newNative n).2.native? m = some r := found
    rw [native?_newNative] at here
    split at here
    · cases here
      exact sane t
    · exact (sound.typed t).2.2 m r here

/-- A region is entered with a scope that no region had before. If it is that of an initializer of a
new instance, then this is a copy of its own. -/
theorem openRegion {r : Region} (sound : l.Sound R h) (alive : h.Alive r.around)
    (new : r.scope = ⟨h.scopes.size⟩) (stands : r.execution.Stands R l h l.regions.size r)
    (fresh : ∀ k b, r.execution = .body none k b → ∀ c, ¬l.Copied h c k.scope) :
    ({ l with regions := l.regions.push r } : Register).Sound R (h.newScope (some r.around)).2 := by
  have opened := sound.calm (h.calm_newScope alive) fun t => (sound.typed t).1.newScope _
  have keeps := (h.steady_newScope (some r.around)).keeps
  have prolongs : l.Prolongs { l with regions := l.regions.push r } := .region l r
  refine ⟨opened.globals, opened.outermost, opened.branching, opened.allFunctions,
    opened.allClasses, ?_, ?_, ?_, ?_,
    sound.copies_more (.inr l.regions.size) fun c s copied => ?_, opened.typed⟩
  · exact fun f k o found entered =>
      (sound.functions f k o found entered).later keeps sound.branching prolongs
  · exact fun c k o found entered => (sound.classes c k o found entered).later keeps prolongs
  · intro n r' found
    rw [Array.getElem?_push] at found
    split at found
    · next last =>
        cases found
        refine ⟨keeps.grown.alive alive, Heap.alive_newScope_iff.mpr (.inl new), ?_, ?_⟩
        · rw [new, h.chain_newScope_self, keeps.grown.chain alive]
        · exact last ▸ stands.later alive keeps sound.branching prolongs
    · exact (sound.regions n r' found).later keeps sound.branching prolongs
  · -- The scopes of the regions before are on the heap already, the new one is not.
    have old (n : Nat) (r' : Region) (found : l.regions[n]? = some r') : r'.scope ≠ r.scope :=
      new ▸ (sound.regions n r' found).opened.ne_new
    intro n n' r₁ r₂ found found' same
    rw [Array.getElem?_push] at found found'
    split at found
    · next last =>
        split at found'
        · next last' => exact last.trans last'.symm
        · cases found
          exact absurd same.symm (old n' r₂ found')
    · split at found'
      · cases found'
        exact absurd same (old n r₁ found)
      · exact sound.apart n n' r₁ r₂ found found' same
  · cases copied with
    | value found entered => exact .inl (.value found entered)
    | @initializer n r' k b found body =>
        rw [Array.getElem?_push] at found
        split at found
        · next last =>
            cases found
            exact .inr ⟨by rw [last], fresh k b body⟩
        · exact .inl (.initializer found body)

/-- Every function on the heap is entered, and every class. -/
theorem entered (sound : l.Sound R h) {f : FunctionId} (found : h.function? f = some k) :
    ∃ o, l.functions[f.index]? = some o ∧ o.Made R l h k := by
  obtain ⟨bound, -⟩ := Array.getElem?_eq_some_iff.mp found
  rw [← sound.allFunctions] at bound
  have entry := Array.getElem?_eq_getElem bound
  exact ⟨_, entry, sound.functions f k _ found entry⟩

theorem enteredClass (sound : l.Sound R h) {c : ClassId} {k : Class} (found : h.class? c = some k) :
    ∃ o, l.classes[c.index]? = some o ∧ o.Made R l h k := by
  obtain ⟨bound, -⟩ := Array.getElem?_eq_some_iff.mp found
  rw [← sound.allClasses] at bound
  have entry := Array.getElem?_eq_getElem bound
  exact ⟨_, entry, sound.classes c k _ found entry⟩

end Register.Sound
end LoxLang
