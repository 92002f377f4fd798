import LoxLang.Proofs.Running.Entering
import LoxLang.Proofs.Sessions.Chronicles
/-! Calls throughout a session. A call begins only with as many arguments as are taken, with
bindings for just these; and what is made by calling a class, or initialized, is what the call
yields. -/
namespace LoxLang

/-- How calls begin on a machine. At a call node nothing more happens than that callee and arguments
are evaluated, unless as many arguments are given as are taken. The body of a function or of an
initializer starts with these arguments alone. -/
structure Machine.CallsBegin (m : Machine) (rounds depth : Nat) : Prop where
  counted : ∀ callee close arguments c vs m₁ m₂ n,
    Run.evaluate (Run.invoke rounds depth) callee m = .ok (.callable c) m₁ →
    Run.evaluateAll (Run.invoke rounds depth) arguments m₁ = .ok vs m₂ → m₂.heap.Takes c n →
    Run.evaluate (Run.invoke rounds depth) (.call callee close arguments) m =
      if vs.length = n then Run.invoke rounds depth c vs m₂
      else .error (.fault ⟨.arity n vs.length, some ⟨.rightParen, ")", close⟩⟩) m₂
  function : ∀ f k vs, m.heap.function? f = some k → vs.length = k.declaration.params.length →
    ∃ n, k.Entered vs m n ∧ Run.invoke rounds (depth + 1) (.function f) vs m =
      Run.finish k m.active
        (Run.executeAll rounds (Run.invoke rounds depth) k.declaration.body n)
  initialized : ∀ c initializer vs, m.heap.findMethod c "init" = some initializer →
    vs.length = initializer.declaration.params.length →
    let made := m.heap.newInstance c
    let bound := made.2.bindReceiver initializer made.1
    ∃ n, bound.1.Entered vs ⟨bound.2, m.active, m.world⟩ n ∧
      Run.invoke rounds (depth + 1) (.ofClass c) vs m =
        match Run.finish bound.1 m.active
          (Run.executeAll rounds (Run.invoke rounds depth) initializer.declaration.body n) with
        | .ok _ m' => .ok (.object made.1) m'
        | .error e m' => .error e m'
  plain : ∀ c vs, m.heap.findMethod c "init" = none →
    Run.invoke rounds (depth + 1) (.ofClass c) vs m =
      .ok (.object (m.heap.newInstance c).1) { m with heap := (m.heap.newInstance c).2 }

theorem Machine.callsBegin (m : Machine) (rounds depth : Nat) : m.CallsBegin rounds depth := by
  refine ⟨?_, ?_, ?_, ?_⟩
  · intro callee close arguments c vs m₁ m₂ n first second takes
    simp only [Run.evaluate, Bind.bind, EStateM.bind, first, second, Run.callValue, Run.heap,
      takes.arity?, Run.follow, Pure.pure, EStateM.pure]
    split <;> rfl
  · intro f k vs found full
    obtain ⟨n, entered, runs⟩ := Run.activate_enters k m full
    refine ⟨n, entered, ?_⟩
    have called : Run.invoke rounds (depth + 1) (.function f) vs m =
        Run.activate rounds (Run.invoke rounds depth) k vs m := by
      simp only [Run.invoke, Bind.bind, EStateM.bind, Run.heap, found, Run.follow, Pure.pure,
        EStateM.pure]
    exact called.trans (runs rounds _)
  · intro c initializer vs found full
    obtain ⟨n, entered, runs⟩ := Run.instantiate_enters m found full
    exact ⟨n, entered, runs rounds _⟩
  · intro c vs missing
    have same : (m.heap.newInstance c).2.findMethod c "init" = none := missing
    simp only [Run.invoke, Run.instantiate, Bind.bind, EStateM.bind, Run.change, Run.heap, same]
    rfl

/-- What calls yield at a state. A class yields an instance that is new and its own. A function that
is the bound initializer of an instance yields that instance. -/
structure Moment.CallsYield (m : Moment) (rounds depth : Nat) : Prop where
  made : ∀ c vs v m', Run.invoke rounds depth (.ofClass c) vs m.machine = .ok v m' →
    ∃ i o, v = .object i ∧ m.machine.heap.instance? i = none ∧
      m'.heap.instance? i = some o ∧ o.ofClass = c
  initialized : ∀ f method d i Γ vs v m',
    m.register.functions[f.index]? = some ⟨.bound method d i, Γ⟩ →
    method.declaration.name.text = "init" →
    Run.invoke rounds depth (.function f) vs m.machine = .ok v m' → v = .object i

/-- The callee of a call node of the accepted sources takes some number of arguments. -/
def Moment.CalleesTake (inputs : List Session.Input) (m : Moment) (rounds depth : Nat) : Prop :=
  ∀ Γ inside i callee close arguments c vs m₁ m₂,
    (∀ n ∈ (Expr.call callee close arguments).nodes, Session.Holds inputs ⟨Γ, inside, i, n⟩) →
    Run.evaluate (Run.invoke rounds depth) callee m.machine = .ok (.callable c) m₁ →
    Run.evaluateAll (Run.invoke rounds depth) arguments m₁ = .ok vs m₂ → ∃ n, m₂.heap.Takes c n

namespace Register.Sound
variable {R : Regime} {l : Register}

/-- A call that completes answers as it ought to. -/
theorem answers {m m' : Machine} {rounds depth : Nat} {callee : Callable} {vs : List Value}
    {v : Value} (sound : l.Sound R m.heap) (leads : R.typed → m.heap.Leads callee)
    (valid : R.typed → ∀ v ∈ vs, m.heap.Valid v)
    (done : Run.invoke rounds depth callee vs m = .ok v m') :
    Chronicled.Answers m.heap m'.heap v callee := by
  let a : Scene := ⟨m, l, []⟩
  have right : a.Sound R := .momentless sound
  obtain ⟨b, ran, rfl⟩ := (Chronicled.invoke_does rounds depth callee vs).ok (a := a) done
  exact ((Chronicled.invoke_minds rounds depth callee vs a right leads valid).ok v b ran).2.2

/-- A method that is named so is an initializer, and bound it shows its receiver. -/
theorem bound_init {h : Heap} {f : FunctionId} {method : Closure} {d : ClassId} {i : InstanceId}
    {Γ : Scopes} (sound : l.Sound R h)
    (entered : l.functions[f.index]? = some ⟨.bound method d i, Γ⟩)
    (named : method.declaration.name.text = "init") :
    ∃ k, h.function? f = some k ∧ k.isInitializer = true ∧ h.Shows k.scope "this" (.object i) := by
  obtain ⟨bound, -⟩ := Array.getElem?_eq_some_iff.mp entered
  rw [sound.allFunctions] at bound
  have found : h.function? f = some h.functions[f.index] := Array.getElem?_eq_getElem bound
  obtain ⟨same, -, shows, c, x, here, held⟩ := (sound.functions f _ _ found entered).birth
  obtain ⟨o, -, made⟩ := sound.enteredClass here
  obtain ⟨s, table, -⟩ := made.methods
  rw [table, methodTable_find?, Option.map_eq_some_iff] at held
  obtain ⟨r, -, rfl⟩ := held
  refine ⟨_, found, ?_, shows⟩
  rw [same]
  exact decide_eq_true named

theorem callsYield {inputs : List Session.Input} {m : Moment}
    (sound : m.register.Sound (Session.regime False inputs) m.machine.heap) (rounds depth : Nat) :
    m.CallsYield rounds depth := by
  refine ⟨fun c vs v m' done => sound.answers False.elim False.elim done, ?_⟩
  intro f method d i Γ vs v m' entered named done
  obtain ⟨k, found, initializer, shows⟩ := sound.bound_init entered named
  exact sound.answers False.elim False.elim done k i found initializer shows

theorem calleesTake {inputs : List Session.Input} {m : Moment}
    (sound : m.register.Sound (Session.regime True inputs) m.machine.heap) (rounds depth : Nat) :
    m.CalleesTake inputs rounds depth := by
  intro Γ inside i callee close arguments c vs m₁ m₂ known first second
  obtain ⟨-, known₁, known₂⟩ := known_pair (R := Session.regime True inputs) known
  let a : Scene := ⟨m.machine, m.register, []⟩
  have right : a.Sound (Session.regime True inputs) := .momentless sound
  have does := Chronicled.invoke_does rounds depth
  have minds := Chronicled.invoke_minds (R := Session.regime True inputs) rounds depth
  obtain ⟨b, ran, rfl⟩ := (Chronicled.evaluate_does does callee).ok (a := a) first
  obtain ⟨later, valid⟩ := (Chronicled.evaluate_minds minds callee a right known₁).ok _ b ran
  obtain ⟨d, ran', rfl⟩ := (Chronicled.evaluateAll_does does arguments).ok second
  obtain ⟨later', -⟩ :=
    (Chronicled.evaluateAll_minds minds arguments b later.sound known₂).ok _ d ran'
  exact ((valid trivial).grow later'.keeps.grown).takes

end Register.Sound

namespace Session
variable (limits : Limits)

/-- Calls take as many arguments as are named, bind them, and yield what they make. That a callee
takes a number of arguments at all depends on the routines of the host, whose references have to
lead somewhere. -/
theorem calls_bind (now : Clock) (inputs : List Input) :
    let chronicle := (Chronicle.start now).feedAll limits inputs
    chronicle.session = feedAll limits (start now) inputs ∧
      (∀ (m : Machine) rounds depth, m.CallsBegin rounds depth) ∧
      ∀ m ∈ chronicle.states, ∀ rounds depth, m.CallsYield rounds depth ∧
        ((∀ n, .native n ∈ inputs → n.Sane) → m.CalleesTake inputs rounds depth) := by
  intro chronicle
  refine ⟨Chronicle.feedAll_session limits _ inputs, Machine.callsBegin, ?_⟩
  intro m member rounds depth
  constructor
  · have right : Scene.Sound (regime False inputs) _ :=
      (Chronicle.sound limits now False.elim).noted
    exact (right.moments m member).1.callsYield rounds depth
  · intro sane
    have right : Scene.Sound (regime True inputs) _ :=
      (Chronicle.sound limits now fun _ => sane).noted
    exact (right.moments m member).1.calleesTake rounds depth

end Session
end LoxLang
