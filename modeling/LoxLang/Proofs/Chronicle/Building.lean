import LoxLang.Proofs.Chronicle.Erasure
import LoxLang.Proofs.Chronicle.Steps
import LoxLang.Proofs.Heap.Evolution
/-! Runs of any code, whether known or not. Whatever is evaluated or executed, and whichever way it
ends, the heap evolves, from each moment of the run to the next, and the scope that is active is on
it. -/
namespace LoxLang

/-- A machine that has come about by changes of the heap, with a scope of the heap active. -/
structure Machine.Stands (m : Machine) : Prop where
  evolved : Heap.start.Evolves m.heap
  active : m.heap.Alive m.active

/-- A scene at which the machine stands, as it did at every moment before. -/
structure Scene.Stands (a : Scene) : Prop where
  machine : a.machine.Stands
  moments : ∀ m ∈ a.moments, m.machine.Stands ∧ m.machine.heap.Evolves a.machine.heap
  ordered : a.moments.Pairwise fun later earlier =>
    earlier.machine.heap.Evolves later.machine.heap

/-- What holds between the scenes before and after a computation of any code. -/
structure Scene.Onward (a b : Scene) : Prop where
  active : b.machine.active = a.machine.active
  evolves : a.machine.heap.Evolves b.machine.heap
  stands : b.Stands

/-- A value that is returned leads somewhere. -/
def Exit.Leads (h : Heap) : Exit → Prop
  | .returned v => h.Valid v
  | _ => True

theorem Exit.Leads.other {h : Heap} {e : Exit} (other : ∀ v, e ≠ .returned v) : e.Leads h := by
  cases e with
  | returned v => exact absurd rfl (other v)
  | _ => trivial

variable {a b c : Scene}

namespace Scene

theorem Stands.linked (stands : a.Stands) : a.machine.heap.Linked :=
  Heap.linked_start.evolves stands.machine.evolved

theorem Onward.refl (stands : a.Stands) : a.Onward a := ⟨rfl, .refl _, stands⟩

theorem Onward.trans (o : a.Onward b) (o' : b.Onward c) : a.Onward c :=
  ⟨o'.active.trans o.active, o.evolves.trans o'.evolves, o'.stands⟩

theorem Onward.grown (o : a.Onward b) : a.machine.heap.Extends b.machine.heap := o.evolves.grown

/-- A step that notes no moment. -/
theorem Onward.step (stands : a.Stands) {m : Machine} {l : Register}
    (active : m.active = a.machine.active) (evolves : a.machine.heap.Evolves m.heap) :
    a.Onward ⟨m, l, a.moments⟩ := by
  refine ⟨active, evolves, ⟨stands.machine.evolved.trans evolves, ?_⟩, fun m member => ?_,
    stands.ordered⟩
  · exact active ▸ evolves.grown.alive stands.machine.active
  · obtain ⟨stood, before⟩ := stands.moments m member
    exact ⟨stood, before.trans evolves⟩

/-- Another scope of the heap may be active. -/
theorem Stands.activate (stands : a.Stands) {s : ScopeId} (alive : a.machine.heap.Alive s) :
    Stands ⟨{ a.machine with active := s }, a.register, a.moments⟩ :=
  ⟨⟨stands.machine.evolved, alive⟩, stands.moments, stands.ordered⟩

end Scene

namespace Chronicled
variable {α β : Type} {x : Chronicled α} {Q Q' : α → Heap → Prop}

/-- From a scene on the heap evolves, and what the computation yields is as `Q` says. -/
structure Builds (x : Chronicled α) (a : Scene) (Q : α → Heap → Prop) : Prop where
  ok : ∀ v b, x a = .ok v b → a.Onward b ∧ Q v b.machine.heap
  error : ∀ e b, x a = .error e b → a.Onward b ∧ e.Leads b.machine.heap

namespace Builds

theorem of_ok {v : α} (same : x a = .ok v b) (onward : a.Onward b) (q : Q v b.machine.heap) :
    Builds x a Q := by
  refine ⟨fun w c other => ?_, fun e c other => ?_⟩
  · cases same.symm.trans other
    exact ⟨onward, q⟩
  · cases same.symm.trans other

theorem of_error {e : Exit} (same : x a = .error e b) (onward : a.Onward b)
    (leads : e.Leads b.machine.heap) : Builds x a Q := by
  refine ⟨fun v c other => ?_, fun e' c other => ?_⟩
  · cases same.symm.trans other
  · cases same.symm.trans other
    exact ⟨onward, leads⟩

/-- What does the same on a scene is as good there. -/
theorem congr {y : Chronicled α} (same : x a = y a) (builds : Builds y a Q) : Builds x a Q :=
  ⟨fun v b found => builds.ok v b (same ▸ found), fun e b found => builds.error e b (same ▸ found)⟩

/-- What goes on from a later scene. -/
theorem after {y : Chronicled α} (onward : a.Onward b) (same : x a = y b) (builds : Builds y b Q) :
    Builds x a Q := by
  refine ⟨fun v c found => ?_, fun e c found => ?_⟩
  · obtain ⟨onward', q⟩ := builds.ok v c (same ▸ found)
    exact ⟨onward.trans onward', q⟩
  · obtain ⟨onward', leads⟩ := builds.error e c (same ▸ found)
    exact ⟨onward.trans onward', leads⟩

theorem pure {v : α} (stands : a.Stands) (q : Q v a.machine.heap) : Builds (Pure.pure v) a Q :=
  of_ok rfl (.refl stands) q

theorem weaken (builds : Builds x a Q) (imp : ∀ v b, a.Onward b → Q v b.machine.heap →
    Q' v b.machine.heap) : Builds x a Q' :=
  ⟨fun v b same => ⟨(builds.ok v b same).1, imp v b (builds.ok v b same).1 (builds.ok v b same).2⟩,
    builds.error⟩

theorem bind {f : α → Chronicled β} {Q : β → Heap → Prop} {P : α → Heap → Prop}
    (first : Builds x a P)
    (second : ∀ v b, a.Onward b → P v b.machine.heap → Builds (f v) b Q) :
    Builds (x >>= f) a Q := by
  cases same : x a with
  | error e b =>
      obtain ⟨onward, leads⟩ := first.error e b same
      exact of_error (by simp only [Bind.bind, EStateM.bind, same]) onward leads
  | ok v b =>
      obtain ⟨onward, p⟩ := first.ok v b same
      exact after onward (by simp only [Bind.bind, EStateM.bind, same]) (second v b onward p)

theorem map {f : α → β} {Q : β → Heap → Prop} (builds : Builds x a fun v => Q (f v)) :
    Builds (f <$> x) a Q := by
  rw [map_eq_pure_bind]
  exact builds.bind fun v b onward q => pure onward.stands q

theorem ite {p : Prop} [Decidable p] {y : Chronicled α} (whether : Builds x a Q)
    (otherwise : Builds y a Q) : Builds (if p then x else y) a Q := by
  split
  · exact whether
  · exact otherwise

/-! Computations of which the register takes no note. -/

theorem fails {y : Run α} {e : Exit} (stands : a.Stands)
    (same : y a.machine = .error e a.machine) (leads : e.Leads a.machine.heap) :
    Builds (silent y) a Q :=
  of_error (by simp only [silent, same]) (.refl stands) leads

theorem fault (stands : a.Stands) (cause : Fault.Cause) (token : Option Token) :
    Builds (silent (Run.fault cause token)) a Q := fails stands rfl trivial

theorem throw (stands : a.Stands) {e : Exit} (leads : e.Leads a.machine.heap) :
    Builds (silent (MonadExcept.throw e)) a Q := fails stands rfl leads

theorem reads {y : Run α} {P : α → Prop} (stands : a.Stands) (reads : y.Reads a.machine P)
    (q : ∀ v, P v → Q v a.machine.heap) : Builds (silent y) a Q := by
  rcases reads with ⟨v, same, p⟩ | ⟨e, same, other⟩
  · exact of_ok (by simp only [silent, same]) (.refl stands) (q v p)
  · exact fails stands same (.other other)

/-- What is read is known of on the same scene. -/
theorem read {y : Run β} {P : β → Prop} {f : β → Chronicled α} (stands : a.Stands)
    (reads : y.Reads a.machine P) (rest : ∀ v, P v → Builds (f v) a Q) :
    Builds (silent y >>= f) a Q := by
  rcases reads with ⟨v, same, p⟩ | ⟨e, same, other⟩
  · exact congr (by simp only [Bind.bind, EStateM.bind, silent, same]) (rest v p)
  · exact of_error (by simp only [Bind.bind, EStateM.bind, silent, same]) (.refl stands)
      (.other other)

theorem heap {f : Heap → Chronicled α} (rest : Builds (f a.machine.heap) a Q) :
    Builds (silent Run.heap >>= f) a Q := ⟨rest.ok, rest.error⟩

theorem active {f : ScopeId → Chronicled α} (rest : Builds (f a.machine.active) a Q) :
    Builds (silent Run.active >>= f) a Q := ⟨rest.ok, rest.error⟩

theorem follow {o : Option β} {f : β → Chronicled α} (stands : a.Stands)
    (rest : ∀ v, o = some v → Builds (f v) a Q) : Builds (silent (Run.follow o) >>= f) a Q := by
  refine read (P := fun v => o = some v) stands ?_ rest
  cases o with
  | none => exact .throw fun _ => Exit.noConfusion
  | some v => exact .pure rfl

/-- A computation that does on this machine what another one does. -/
theorem silently {y z : Run α} (same : y a.machine = z a.machine) (builds : Builds (silent z) a Q) :
    Builds (silent y) a Q := congr (by simp only [silent, same]) builds

theorem change {g : Heap → β × Heap} {f : β → Chronicled α} (stands : a.Stands)
    (evolves : a.machine.heap.Evolves (g a.machine.heap).2)
    (rest : ∀ b, a.Onward b → b.machine.heap = (g a.machine.heap).2 →
      Builds (f (g a.machine.heap).1) b Q) : Builds (silent (Run.change g) >>= f) a Q :=
  have onward : a.Onward ⟨{ a.machine with heap := (g a.machine.heap).2 }, a.register, a.moments⟩ :=
    .step stands rfl evolves
  after onward rfl (rest _ onward rfl)

theorem update {f : Heap → Heap} (stands : a.Stands)
    (evolves : a.machine.heap.Evolves (f a.machine.heap)) :
    Builds (silent (Run.update f)) a fun _ _ => True :=
  of_ok (v := ()) rfl (.step (m := { a.machine with heap := f a.machine.heap }) (l := a.register)
    stands rfl evolves) trivial

theorem print {f : Heap → String} (stands : a.Stands) :
    Builds (silent (do Run.print (f (← Run.heap)))) a fun _ _ => True :=
  of_ok (v := ()) rfl (.step (m := { a.machine with
    world := a.machine.world.print (f a.machine.heap) }) (l := a.register) stands rfl (.refl _))
    trivial

theorem time {f : Float → Chronicled α} (stands : a.Stands)
    (rest : ∀ now b, a.Onward b → b.machine.heap = a.machine.heap → Builds (f now) b Q) :
    Builds (silent Run.time >>= f) a Q :=
  have onward : a.Onward ⟨{ a.machine with world := a.machine.world.time.2 }, a.register,
      a.moments⟩ := .step stands rfl (.refl _)
  after onward rfl (rest _ _ onward rfl)

/-! What is noted, and what is looked up in the register. -/

theorem mark {f : Unit → Chronicled α} (stands : a.Stands)
    (rest : ∀ b, a.Onward b → b.machine = a.machine → Builds (f ()) b Q) :
    Builds (Chronicled.mark >>= f) a Q := by
  let here : Moment := ⟨a.machine, a.register⟩
  have onward : a.Onward ⟨a.machine, a.register, here :: a.moments⟩ := by
    refine ⟨rfl, .refl _, stands.machine, List.forall_mem_cons.mpr ⟨?_, stands.moments⟩, ?_⟩
    · exact ⟨stands.machine, .refl _⟩
    · exact List.pairwise_cons.mpr ⟨fun m member => (stands.moments m member).2, stands.ordered⟩
  exact after onward rfl (rest _ onward rfl)

theorem origin {f : Origin → Chronicled α} {g : FunctionId} (rest : ∀ o, Builds (f o) a Q) :
    Builds (Chronicled.origin g >>= f) a Q := ⟨(rest _).ok, (rest _).error⟩

theorem inner {f : Scopes → Chronicled α} {d : ClassId} (rest : ∀ Γ, Builds (f Γ) a Q) :
    Builds (Chronicled.inner d >>= f) a Q := ⟨(rest _).ok, (rest _).error⟩

theorem next {f : Nat → Chronicled α} (rest : ∀ n, Builds (f n) a Q) :
    Builds (Chronicled.next >>= f) a Q := ⟨(rest _).ok, (rest _).error⟩

theorem newFunction {o : Origin} {k : Closure} (stands : a.Stands)
    (alive : a.machine.heap.Alive k.scope) :
    Builds (Chronicled.newFunction o k) a fun f h => h.Leads (.function f) :=
  of_ok rfl (.step stands rfl (.one (.function alive))) (leads_newFunction a.machine.heap k)

theorem newClass {o : ClassOrigin} {s : ScopeId} (stands : a.Stands)
    (alive : a.machine.heap.Alive s)
    (leads : ∀ p, o.above = some p → a.machine.heap.Leads (.ofClass p)) :
    Builds (Chronicled.newClass o (Run.methodTable s o.methods)) a
      fun c h => h.Leads (.ofClass c) := by
  refine of_ok rfl (.step stands rfl (.one (.ofClass _ leads fun x m named => ?_)))
    (leads_newClass _ _ _ _)
  obtain ⟨rfl, -⟩ := methodTable_find named
  exact alive

theorem openRegion {execution : Execution} {activation : Option Nat} {around : ScopeId}
    {f : ScopeId → Chronicled α} (stands : a.Stands) (alive : a.machine.heap.Alive around)
    (rest : ∀ s b, a.Onward b → b.machine.heap.Alive s → Builds (f s) b Q) :
    Builds (Chronicled.openRegion execution activation around >>= f) a Q := by
  let made := a.machine.heap.newScope (some around)
  let l : Register :=
    { a.register with regions := a.register.regions.push ⟨execution, activation, around, made.1⟩ }
  have onward : a.Onward ⟨{ a.machine with heap := made.2 }, l, a.moments⟩ :=
    .step stands rfl (.one (.scope alive))
  exact after onward rfl (rest made.1 _ onward (Heap.alive_newScope_iff.mpr (.inl rfl)))

/-! Other scopes, the values of bodies, and loops. -/

theorem within {s : ScopeId} (stands : a.Stands)
    (builds : Builds x ⟨{ a.machine with active := s }, a.register, a.moments⟩ Q) :
    Builds (Chronicled.within s x) a Q := by
  let inner : Scene := ⟨{ a.machine with active := s }, a.register, a.moments⟩
  -- The scope that was active is still on the heap when it is active again.
  have back {b : Scene} (onward : inner.Onward b) :
      a.Onward ⟨{ b.machine with active := a.machine.active }, b.register, b.moments⟩ :=
    ⟨rfl, onward.evolves, onward.stands.activate (onward.grown.alive stands.machine.active)⟩
  cases same : x inner with
  | ok v b =>
      obtain ⟨onward, q⟩ := builds.ok v b same
      refine of_ok (v := v) ?_ (back onward) q
      simp only [Chronicled.within, same, inner]
  | error e b =>
      obtain ⟨onward, leads⟩ := builds.error e b same
      refine of_error (e := e) ?_ (back onward) leads
      simp only [Chronicled.within, same, inner]

theorem bodyValue {body : Chronicled Unit} (builds : Builds body a fun _ _ => True) :
    Builds (Chronicled.bodyValue body) a fun v h => h.Valid v := by
  cases same : body a with
  | ok v b =>
      exact of_ok (v := .nil) (by simp only [Chronicled.bodyValue, same]) (builds.ok v b same).1
        trivial
  | error e b =>
      obtain ⟨onward, leads⟩ := builds.error e b same
      cases e with
      | returned v => exact of_ok (by simp only [Chronicled.bodyValue, same]) onward leads
      | _ => exact of_error (by simp only [Chronicled.bodyValue, same]) onward leads

theorem repeatWhile {round : Chronicled Bool}
    (step : ∀ b, a.Onward b → Builds round b fun _ _ => True) (n : Nat) (stands : a.Stands) :
    Builds (Chronicled.repeatWhile round n) a fun _ _ => True := by
  suffices run : ∀ b, a.Onward b → Builds (Chronicled.repeatWhile round n) b fun _ _ => True from
    run a (.refl stands)
  induction n with
  | zero => exact fun b onward => throw onward.stands trivial
  | succ n ih =>
      intro b onward
      exact (step b onward).bind fun again c onward' _ =>
        .ite (ih c (onward.trans onward')) (pure onward'.stands trivial)

end Builds
end Chronicled
end LoxLang
