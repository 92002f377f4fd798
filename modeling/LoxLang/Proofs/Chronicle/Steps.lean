import LoxLang.Proofs.Attribution.Steps
import LoxLang.Proofs.Chronicle.Faithful
/-! Rules for chronicled runs. From a scene whose register is right on, a computation comes only to
scenes whose registers are right, whichever way it ends; and with what it yields goes what is known
of that. -/
namespace LoxLang

namespace Run
variable {α β : Type} {x : Run α} {m : Machine} {P : α → Prop} {Q : β → Prop}

/-- A computation that changes nothing on this machine. It yields what `P` says, or stops otherwise
than by a return. -/
def Reads (x : Run α) (m : Machine) (P : α → Prop) : Prop :=
  (∃ v, x m = .ok v m ∧ P v) ∨ ∃ e, x m = .error e m ∧ ∀ v, e ≠ .returned v

namespace Reads

theorem pure {a : α} (holds : P a) : Reads (Pure.pure a) m P := .inl ⟨a, rfl, holds⟩

theorem throw {e : Exit} (other : ∀ v, e ≠ .returned v) : Reads (MonadExcept.throw e) m P :=
  .inr ⟨e, rfl, other⟩

theorem fault (cause : Fault.Cause) (token : Option Token) : Reads (Run.fault cause token) m P :=
  throw fun _ => Exit.noConfusion

theorem bind {f : α → Run β} (first : Reads x m P) (second : ∀ a, P a → Reads (f a) m Q) :
    Reads (x >>= f) m Q := by
  rcases first with ⟨v, same, holds⟩ | ⟨e, same, other⟩
  · have rest := second v holds
    simpa only [Reads, Bind.bind, EStateM.bind, same] using rest
  · exact .inr ⟨e, by simp only [Bind.bind, EStateM.bind, same], other⟩

theorem heap {f : Heap → Run β} (rest : Reads (f m.heap) m Q) : Reads (Run.heap >>= f) m Q := rest

theorem active {f : ScopeId → Run β} (rest : Reads (f m.active) m Q) :
    Reads (Run.active >>= f) m Q := rest

end Reads

theorem lift_reads {P : Value → Prop} {token : Token} {r : Except Fault.Cause Value}
    (holds : ∀ v, r = .ok v → P v) : Reads (lift token r) m P := by
  cases r with
  | ok v => exact .pure (holds v rfl)
  | error cause => exact .fault _ _

/-! What is read from a heap on which references lead somewhere leads somewhere. -/

theorem getAt_valid {h : Heap} (typed : h.Typed) {s : ScopeId} {d : Int} {x : String} {v : Value}
    (found : h.getAt s d x = .ok v) : h.Valid v := by
  obtain ⟨t, bound⟩ := Heap.getAt_ok found
  exact typed.bindings t x v bound

theorem lookUp_reads (token : Token) (address : Address) :
    Reads (lookUp token address) m fun v => m.heap.Typed → m.heap.Valid v := by
  refine .heap ?_
  cases address with
  | none =>
      refine lift_reads fun v found typed => ?_
      obtain ⟨s, bound⟩ := Heap.get_ok found
      exact typed.bindings s _ v bound
  | some depth =>
      refine .active ?_
      split
      · next v found => exact .pure fun typed => getAt_valid typed found
      · exact .fault _ _
      · exact .throw fun _ => Exit.noConfusion

theorem superclass_reads (parent : Superclass Address) :
    Reads (superclass parent) m fun c => m.heap.Typed → m.heap.Leads (.ofClass c) := by
  refine (lookUp_reads _ _).bind fun v valid => ?_
  split
  · exact .pure valid
  · exact .fault _ _

/-- An initializer yields the receiver that its scope shows. -/
theorem yielded_reads {typed : Prop} {k : Closure} {v : Value} (all : typed → m.heap.Typed)
    (valid : typed → m.heap.Valid v) :
    Reads (yielded k v) m fun w => (typed → m.heap.Valid w) ∧
      ∀ i, k.isInitializer = true → m.heap.Shows k.scope "this" (.object i) → w = .object i := by
  unfold yielded
  split
  · refine .heap ?_
    split
    · next w found =>
        refine .pure ⟨fun t => getAt_valid (all t) found, fun i _ shows => ?_⟩
        have here : m.heap.getAt k.scope 0 "this" = .ok (.object i) :=
          Heap.getAt_of_bound (d := 0) rfl rfl shows.2
        cases found.symm.trans here
        rfl
    · exact .throw fun _ => Exit.noConfusion
  · next other => exact .pure ⟨valid, fun _ initializer => absurd initializer other⟩

end Run

/-- What is on the heap and in the register at the moment goes on to be so. -/
structure Moment.Before (m : Moment) (l : Register) (h : Heap) : Prop where
  keeps : m.machine.heap.Keeps h
  prolongs : m.register.Prolongs l

/-- A scene whose register is right, now and at every moment before. -/
structure Scene.Sound (R : Regime) (a : Scene) : Prop where
  register : a.register.Sound R a.machine.heap
  moments : ∀ m ∈ a.moments, m.register.Sound R m.machine.heap ∧
    m.Before a.register a.machine.heap
  ordered : a.moments.Pairwise fun later earlier =>
    earlier.Before later.register later.machine.heap

/-- What holds between the scenes before and after a computation, whichever way that ends. -/
structure Scene.Later (R : Regime) (a b : Scene) : Prop where
  active : b.machine.active = a.machine.active
  keeps : a.machine.heap.Keeps b.machine.heap
  prolongs : a.register.Prolongs b.register
  sound : b.Sound R

/-- A scene in a setting of known code. -/
structure Scene.At (R : Regime) (a : Scene) (st : Setting) : Prop where
  sound : a.Sound R
  around : st.Around a.register a.machine.heap st.scopes a.machine.active

/-- A value that is returned leads somewhere. -/
def Exit.Sane (R : Regime) (h : Heap) : Exit → Prop
  | .returned v => R.typed → h.Valid v
  | _ => True

theorem Exit.Sane.other {R : Regime} {h : Heap} {e : Exit} (other : ∀ v, e ≠ .returned v) :
    e.Sane R h := by
  cases e with
  | returned v => exact absurd rfl (other v)
  | _ => trivial

variable {R : Regime} {a b c : Scene}

namespace Scene

theorem Later.refl (sound : a.Sound R) : a.Later R a := ⟨rfl, .refl _, .refl _, sound⟩

theorem Later.trans (l : a.Later R b) (l' : b.Later R c) : a.Later R c :=
  ⟨l'.active.trans l.active, l.keeps.trans l'.keeps, l.prolongs.trans l'.prolongs, l'.sound⟩

/-- A step that notes no moment. -/
theorem Later.step (sound : a.Sound R) {m : Machine} {l : Register}
    (active : m.active = a.machine.active) (keeps : a.machine.heap.Keeps m.heap)
    (prolongs : a.register.Prolongs l) (register : l.Sound R m.heap) :
    a.Later R ⟨m, l, a.moments⟩ := by
  refine ⟨active, keeps, prolongs, register, fun m member => ?_, sound.ordered⟩
  obtain ⟨right, before⟩ := sound.moments m member
  exact ⟨right, before.keeps.trans keeps, before.prolongs.trans prolongs⟩

theorem Sound.momentless {m : Machine} {l : Register} (sound : l.Sound R m.heap) :
    Sound R ⟨m, l, []⟩ :=
  ⟨sound, fun _ member => absurd member List.not_mem_nil, .nil⟩

/-- Which scope is active does not matter to the register. -/
theorem Sound.activate (sound : a.Sound R) (s : ScopeId) :
    Sound R ⟨{ a.machine with active := s }, a.register, a.moments⟩ :=
  ⟨sound.register, sound.moments, sound.ordered⟩

theorem Later.typed (l : a.Later R b) (t : R.typed) : b.machine.heap.Typed :=
  (l.sound.register.typed t).1

theorem Sound.typed (sound : a.Sound R) (t : R.typed) : a.machine.heap.Typed :=
  (sound.register.typed t).1

theorem At.later {st : Setting} (here : a.At R st) (l : a.Later R b) : b.At R st := by
  refine ⟨l.sound, ?_⟩
  rw [l.active]
  exact here.around.later l.keeps l.prolongs

end Scene

namespace Chronicled
variable {α β : Type} {x : Chronicled α} {Q Q' : α → Heap → Prop}

/-- From a scene on the register stays right, and what the computation yields is as `Q` says. -/
structure Minds (R : Regime) (x : Chronicled α) (a : Scene) (Q : α → Heap → Prop) : Prop where
  ok : ∀ v b, x a = .ok v b → a.Later R b ∧ Q v b.machine.heap
  error : ∀ e b, x a = .error e b → a.Later R b ∧ e.Sane R b.machine.heap

namespace Minds

theorem of_ok {v : α} (same : x a = .ok v b) (later : a.Later R b) (q : Q v b.machine.heap) :
    Minds R x a Q := by
  refine ⟨fun w c other => ?_, fun e c other => ?_⟩
  · cases same.symm.trans other
    exact ⟨later, q⟩
  · cases same.symm.trans other

theorem of_error {e : Exit} (same : x a = .error e b) (later : a.Later R b)
    (sane : e.Sane R b.machine.heap) : Minds R x a Q := by
  refine ⟨fun v c other => ?_, fun e' c other => ?_⟩
  · cases same.symm.trans other
  · cases same.symm.trans other
    exact ⟨later, sane⟩

/-- What does the same on a scene is as good there. -/
theorem congr {y : Chronicled α} (same : x a = y a) (minds : Minds R y a Q) : Minds R x a Q :=
  ⟨fun v b found => minds.ok v b (same ▸ found), fun e b found => minds.error e b (same ▸ found)⟩

/-- What goes on from a later scene. -/
theorem after {y : Chronicled α} (later : a.Later R b) (same : x a = y b) (minds : Minds R y b Q) :
    Minds R x a Q := by
  refine ⟨fun v c found => ?_, fun e c found => ?_⟩
  · obtain ⟨later', q⟩ := minds.ok v c (same ▸ found)
    exact ⟨later.trans later', q⟩
  · obtain ⟨later', sane⟩ := minds.error e c (same ▸ found)
    exact ⟨later.trans later', sane⟩

theorem pure {v : α} (sound : a.Sound R) (q : Q v a.machine.heap) : Minds R (Pure.pure v) a Q :=
  of_ok rfl (.refl sound) q

theorem weaken (minds : Minds R x a Q) (imp : ∀ v b, a.Later R b → Q v b.machine.heap →
    Q' v b.machine.heap) : Minds R x a Q' :=
  ⟨fun v b same => ⟨(minds.ok v b same).1, imp v b (minds.ok v b same).1 (minds.ok v b same).2⟩,
    minds.error⟩

theorem bind {f : α → Chronicled β} {Q : β → Heap → Prop} {P : α → Heap → Prop}
    (first : Minds R x a P)
    (second : ∀ v b, a.Later R b → P v b.machine.heap → Minds R (f v) b Q) :
    Minds R (x >>= f) a Q := by
  cases same : x a with
  | error e b =>
      obtain ⟨later, sane⟩ := first.error e b same
      exact of_error (by simp only [Bind.bind, EStateM.bind, same]) later sane
  | ok v b =>
      obtain ⟨later, p⟩ := first.ok v b same
      exact after later (by simp only [Bind.bind, EStateM.bind, same]) (second v b later p)

theorem map {f : α → β} {Q : β → Heap → Prop} (minds : Minds R x a fun v => Q (f v)) :
    Minds R (f <$> x) a Q := by
  rw [map_eq_pure_bind]
  exact minds.bind fun v b later q => pure later.sound q

theorem ite {p : Prop} [Decidable p] {y : Chronicled α} (whether : Minds R x a Q)
    (otherwise : Minds R y a Q) : Minds R (if p then x else y) a Q := by
  split
  · exact whether
  · exact otherwise

/-! Computations of which the register takes no note. -/

theorem silent_ok {y : Run α} {v : α} {m : Machine} (same : y a.machine = .ok v m)
    (later : a.Later R ⟨m, a.register, a.moments⟩) (q : Q v m.heap) : Minds R (silent y) a Q :=
  of_ok (by simp only [silent, same]) later q

theorem silent_error {y : Run α} {e : Exit} (sound : a.Sound R)
    (same : y a.machine = .error e a.machine) (sane : e.Sane R a.machine.heap) :
    Minds R (silent y) a Q := of_error (by simp only [silent, same]) (.refl sound) sane

theorem reads {y : Run α} {P : α → Prop} (sound : a.Sound R) (reads : y.Reads a.machine P)
    (q : ∀ v, P v → Q v a.machine.heap) : Minds R (silent y) a Q := by
  rcases reads with ⟨v, same, p⟩ | ⟨e, same, other⟩
  · exact silent_ok same (.refl sound) (q v p)
  · exact silent_error sound same (.other other)

/-- What is read is known of on the same scene. -/
theorem read {y : Run β} {P : β → Prop} {f : β → Chronicled α} (sound : a.Sound R)
    (reads : y.Reads a.machine P) (rest : ∀ v, P v → Minds R (f v) a Q) :
    Minds R (silent y >>= f) a Q := by
  rcases reads with ⟨v, same, p⟩ | ⟨e, same, other⟩
  · exact congr (by simp only [Bind.bind, EStateM.bind, silent, same]) (rest v p)
  · exact of_error (by simp only [Bind.bind, EStateM.bind, silent, same]) (.refl sound)
      (.other other)

theorem fault (sound : a.Sound R) (cause : Fault.Cause) (token : Option Token) :
    Minds R (silent (Run.fault cause token)) a Q := silent_error sound rfl trivial

theorem throw (sound : a.Sound R) {e : Exit} (sane : e.Sane R a.machine.heap) :
    Minds R (silent (MonadExcept.throw e)) a Q := silent_error sound rfl sane

theorem heap {f : Heap → Chronicled α} (rest : Minds R (f a.machine.heap) a Q) :
    Minds R (silent Run.heap >>= f) a Q := ⟨rest.ok, rest.error⟩

theorem active {f : ScopeId → Chronicled α} (rest : Minds R (f a.machine.active) a Q) :
    Minds R (silent Run.active >>= f) a Q := ⟨rest.ok, rest.error⟩

theorem follow {o : Option β} {f : β → Chronicled α} (sound : a.Sound R)
    (rest : ∀ v, o = some v → Minds R (f v) a Q) : Minds R (silent (Run.follow o) >>= f) a Q := by
  refine read (P := fun v => o = some v) sound ?_ rest
  cases o with
  | none => exact .throw fun _ => Exit.noConfusion
  | some v => exact .pure rfl

/-- A computation that does on this machine what another one does. -/
theorem silently {y z : Run α} (same : y a.machine = z a.machine) (minds : Minds R (silent z) a Q) :
    Minds R (silent y) a Q := congr (by simp only [silent, same]) minds

theorem change {g : Heap → β × Heap} {f : β → Chronicled α} (sound : a.Sound R)
    (calm : a.machine.heap.Calm (g a.machine.heap).2) (typed : R.typed → (g a.machine.heap).2.Typed)
    (rest : ∀ b, a.Later R b → b.machine.heap = (g a.machine.heap).2 → b.register = a.register →
      Minds R (f (g a.machine.heap).1) b Q) : Minds R (silent (Run.change g) >>= f) a Q :=
  have later : a.Later R ⟨{ a.machine with heap := (g a.machine.heap).2 }, a.register, a.moments⟩ :=
    .step sound rfl calm.steady.keeps (.refl _) (sound.register.calm calm typed)
  after later rfl (rest _ later rfl rfl)

theorem update {f : Heap → Heap} (sound : a.Sound R) (calm : a.machine.heap.Calm (f a.machine.heap))
    (typed : R.typed → (f a.machine.heap).Typed) :
    Minds R (silent (Run.update f)) a fun _ h => h = f a.machine.heap :=
  silent_ok (m := ⟨f a.machine.heap, a.machine.active, a.machine.world⟩) rfl
    (.step sound rfl calm.steady.keeps (.refl _) (sound.register.calm calm typed)) rfl

theorem print {f : Heap → String} (sound : a.Sound R) :
    Minds R (silent (do Run.print (f (← Run.heap)))) a fun _ _ => True :=
  silent_ok (m := ⟨a.machine.heap, a.machine.active, a.machine.world.print (f a.machine.heap)⟩) rfl
    (.step sound rfl (.refl _) (.refl _) sound.register) trivial

theorem time {f : Float → Chronicled α} (sound : a.Sound R)
    (rest : ∀ now b, a.Later R b → b.machine.heap = a.machine.heap → Minds R (f now) b Q) :
    Minds R (silent Run.time >>= f) a Q :=
  have later : a.Later R ⟨{ a.machine with world := a.machine.world.time.2 }, a.register,
      a.moments⟩ := .step sound rfl (.refl _) (.refl _) sound.register
  after later rfl (rest _ _ later rfl)

/-! What is noted, and what is looked up in the register. -/

theorem mark {f : Unit → Chronicled α} (sound : a.Sound R)
    (rest : ∀ b, a.Later R b → b.machine = a.machine → b.register = a.register →
      Minds R (f ()) b Q) : Minds R (Chronicled.mark >>= f) a Q := by
  let here : Moment := ⟨a.machine, a.register⟩
  have later : a.Later R ⟨a.machine, a.register, here :: a.moments⟩ := by
    refine ⟨rfl, .refl _, .refl _, sound.register, List.forall_mem_cons.mpr ⟨?_, sound.moments⟩, ?_⟩
    · exact ⟨sound.register, .refl _, .refl _⟩
    · exact List.pairwise_cons.mpr ⟨fun m member => (sound.moments m member).2, sound.ordered⟩
  exact after later rfl (rest _ later rfl rfl)

/-- At a mark in a setting of known code. -/
theorem mark_at {f : Unit → Chronicled α} {st : Setting} (here : a.At R st)
    (rest : ∀ b, b.At R st → Minds R (f ()) b Q) : Minds R (Chronicled.mark >>= f) a Q :=
  mark here.sound fun b later _ _ => rest b (here.later later)

theorem origin {f : Origin → Chronicled α} {g : FunctionId}
    (rest : Minds R (f ((a.register.functions[g.index]?).getD ⟨.declared .top, []⟩)) a Q) :
    Minds R (Chronicled.origin g >>= f) a Q := ⟨rest.ok, rest.error⟩

theorem inner {f : Scopes → Chronicled α} {d : ClassId} {o : ClassOrigin}
    (found : a.register.classes[d.index]? = some o) (rest : Minds R (f o.inner) a Q) :
    Minds R (Chronicled.inner d >>= f) a Q := by
  refine congr ?_ rest
  simp only [Bind.bind, EStateM.bind, Chronicled.inner, found, Option.map_some, Option.getD_some]

theorem next {f : Nat → Chronicled α} (rest : Minds R (f a.register.regions.size) a Q) :
    Minds R (Chronicled.next >>= f) a Q := ⟨rest.ok, rest.error⟩

theorem newFunction {o : Origin} {k : Closure} (sound : a.Sound R)
    (made : o.Made R a.register a.machine.heap k)
    (fresh : ∀ method d i, o.birth = .bound method d i →
      ∀ c, ¬a.register.Copied a.machine.heap c k.scope) :
    Minds R (Chronicled.newFunction o k) a fun f h => h.Leads (.function f) := by
  have register := sound.register.newFunction made fresh
  exact of_ok rfl (.step sound rfl (a.machine.heap.keeps_newFunction k) (.function _ o) register)
    (leads_newFunction a.machine.heap k)

theorem newClass {o : ClassOrigin} {s : ScopeId} (sound : a.Sound R) (site : R.sites o.site)
    (parent : o.parent.isSome = o.above.isSome) (known : ∀ r ∈ o.methods, r.Known R o.inner)
    (around : o.setting.Around a.register a.machine.heap
      ((o.setting.scopes.declare o.name.text).above o.above) s)
    (leads : R.typed → ∀ p, o.above = some p → a.machine.heap.Leads (.ofClass p)) :
    Minds R (Chronicled.newClass o (Run.methodTable s o.methods)) a
      fun c h => h.Leads (.ofClass c) := by
  have register := sound.register.newClass site parent known around leads
  exact of_ok rfl (.step sound rfl (a.machine.heap.keeps_newClass _ _ _) (.ofClass _ o) register)
    (leads_newClass _ _ _ _)

/-- Behind the opening of a region the setting of that region is around its scope. -/
theorem openRegion {execution : Execution} {activation : Option Nat} {around : ScopeId} {Γ : Scopes}
    {g : Table Bool} {f : ScopeId → Chronicled α} (sound : a.Sound R)
    (alive : a.machine.heap.Alive around)
    (depth : (a.machine.heap.chain around).length = Γ.length + 1)
    (stands : execution.Stands R a.register a.machine.heap a.register.regions.size
      ⟨execution, activation, around, ⟨a.machine.heap.scopes.size⟩⟩)
    (fresh : ∀ k b, execution = .body none k b → ∀ c, ¬a.register.Copied a.machine.heap c k.scope)
    (inside : ∀ n, activation = some n → n = a.register.regions.size ∨
      ∃ r, a.register.regions[n]? = some r ∧ r.scope ∈ a.machine.heap.chain around)
    (rest : ∀ s b, a.Later R b → Setting.Around b.register b.machine.heap
      ⟨activation, some a.register.regions.size, g :: Γ⟩ (g :: Γ) s → Minds R (f s) b Q) :
    Minds R (Chronicled.openRegion execution activation around >>= f) a Q := by
  let r : Region := ⟨execution, activation, around, ⟨a.machine.heap.scopes.size⟩⟩
  let h := (a.machine.heap.newScope (some around)).2
  let l : Register := { a.register with regions := a.register.regions.push r }
  let b : Scene := ⟨{ a.machine with heap := h }, l, a.moments⟩
  have keeps := (a.machine.heap.steady_newScope (some around)).keeps
  have prolongs : a.register.Prolongs l := .region _ r
  have later : a.Later R b :=
    .step sound rfl keeps prolongs (sound.register.openRegion alive rfl stands fresh)
  have chain : h.chain r.scope = r.scope :: a.machine.heap.chain around :=
    a.machine.heap.chain_newScope_self around
  have entered : l.regions[a.register.regions.size]? = some r := Array.getElem?_push_size
  have here : Setting.Around l h ⟨activation, some a.register.regions.size, g :: Γ⟩ (g :: Γ)
      r.scope := by
    refine ⟨Heap.alive_newScope_iff.mpr (.inl rfl), ?_, fun n within => ?_⟩
    · rw [chain, List.length_cons, depth, List.length_cons]
    · rw [chain]
      have own (same : n = a.register.regions.size) : ∃ r', l.regions[n]? = some r' ∧
          r'.scope ∈ r.scope :: a.machine.heap.chain around :=
        ⟨r, same ▸ entered, List.mem_cons_self⟩
      rcases within with active | region
      · rcases inside n active with same | ⟨r', found, member⟩
        · exact own same
        · exact ⟨r', prolongs.regions n r' found, List.mem_cons_of_mem _ member⟩
      · exact own (Option.some.inj region).symm
  exact after later rfl (rest r.scope b later here)

/-! Other scopes, the values of bodies, and loops. -/

/-- A scene with another active scope is as right. -/
theorem within {s : ScopeId}
    (minds : Minds R x ⟨{ a.machine with active := s }, a.register, a.moments⟩ Q) :
    Minds R (Chronicled.within s x) a Q := by
  let inner : Scene := ⟨{ a.machine with active := s }, a.register, a.moments⟩
  have back {b : Scene} (later : inner.Later R b) :
      a.Later R ⟨{ b.machine with active := a.machine.active }, b.register, b.moments⟩ :=
    ⟨rfl, later.keeps, later.prolongs, later.sound.activate _⟩
  cases same : x inner with
  | ok v b =>
      obtain ⟨later, q⟩ := minds.ok v b same
      refine of_ok (v := v) ?_ (back later) q
      simp only [Chronicled.within, same, inner]
  | error e b =>
      obtain ⟨later, sane⟩ := minds.error e b same
      refine of_error (e := e) ?_ (back later) sane
      simp only [Chronicled.within, same, inner]

theorem bodyValue {body : Chronicled Unit} (minds : Minds R body a fun _ _ => True) :
    Minds R (Chronicled.bodyValue body) a (Yields R) := by
  cases same : body a with
  | ok v b =>
      exact of_ok (v := .nil) (by simp only [Chronicled.bodyValue, same]) (minds.ok v b same).1
        fun _ => trivial
  | error e b =>
      obtain ⟨later, sane⟩ := minds.error e b same
      by_cases returned : ∃ v, e = .returned v
      · obtain ⟨v, rfl⟩ := returned
        exact of_ok (by simp only [Chronicled.bodyValue, same]) later sane
      · refine of_error (e := e) ?_ later sane
        cases e with
        | returned v => exact absurd ⟨v, rfl⟩ returned
        | _ => simp only [Chronicled.bodyValue, same]

/-- A loop minds the register if each of its rounds does. -/
theorem repeatWhile {round : Chronicled Bool}
    (step : ∀ b, a.Later R b → Minds R round b fun _ _ => True) (n : Nat) (sound : a.Sound R) :
    Minds R (Chronicled.repeatWhile round n) a fun _ _ => True := by
  suffices run : ∀ b, a.Later R b → Minds R (Chronicled.repeatWhile round n) b fun _ _ => True from
    run a (.refl sound)
  induction n with
  | zero => exact fun b later => throw later.sound trivial
  | succ n ih =>
      intro b later
      exact (step b later).bind fun again c later' _ =>
        .ite (ih c (later.trans later')) (pure later'.sound trivial)

end Minds
end Chronicled
end LoxLang
