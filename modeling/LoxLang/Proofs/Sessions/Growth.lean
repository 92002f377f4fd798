import LoxLang.Proofs.Chronicle.Evolving
import LoxLang.Proofs.Running.Restoring
import LoxLang.Proofs.Sessions.Inheritance
/-! Growth throughout a session. From every state that a session comes to, whatever is executed or
evaluated there, nothing is taken off the heap and no link of it is changed. -/
namespace LoxLang

/-- The second heap has come of the first by changes. It has all that the first has, and its links
lead to what was made before. -/
structure Heap.Precedes (h h' : Heap) : Prop where
  evolves : h.Evolves h'
  grown : h.Extends h'
  founded : h'.Founded

/-- Whatever is executed or evaluated on a machine, and whichever way it ends, the heap grows. -/
structure Machine.Grows (m : Machine) (rounds depth : Nat) : Prop where
  executed : ∀ s : Stmt Address,
    m.heap.Precedes ((Run.execute rounds (Run.invoke rounds depth) s).leaves m).heap
  evaluated : ∀ e : Expr Address,
    m.heap.Precedes ((Run.evaluate (Run.invoke rounds depth) e).leaves m).heap

theorem Heap.Precedes.of_evolves {h h' : Heap} (evolves : h.Evolves h')
    (evolved : Heap.start.Evolves h) : h.Precedes h' :=
  ⟨evolves, evolves.grown, (evolved.trans evolves).founded⟩

/-- What a run of any code leaves is what a chronicled run leaves. -/
theorem Chronicled.Builds.leaves {α : Type} {x : Chronicled α} {y : Run α} {a : Scene}
    {Q : α → Heap → Prop} (builds : Builds x a Q) (does : Does x y) :
    a.machine.heap.Evolves (y.leaves a.machine).heap := by
  have same := does a
  unfold Run.leaves
  cases ran : x a with
  | ok v b =>
      rw [same, ran]
      exact (builds.ok v b ran).1.evolves
  | error e b =>
      rw [same, ran]
      exact (builds.error e b ran).1.evolves

theorem Machine.Stands.grows {m : Machine} (stands : m.Stands) (rounds depth : Nat) :
    m.Grows rounds depth := by
  have alone : Scene.Stands ⟨m, Register.empty, []⟩ :=
    ⟨stands, fun _ member => absurd member List.not_mem_nil, .nil⟩
  have calls := Chronicled.invoke_builds rounds depth
  have does := Chronicled.invoke_does rounds depth
  refine ⟨fun s => .of_evolves ?_ stands.evolved, fun e => .of_evolves ?_ stands.evolved⟩
  · exact (Chronicled.execute_builds calls s .top _ alone).leaves
      (Chronicled.execute_does does s .top)
  · exact (Chronicled.evaluate_builds calls e _ alone).leaves (Chronicled.evaluate_does does e)

namespace Session
variable (limits : Limits)

namespace Chronicle
variable {b : Chronicle}

/-- Where a session is, its machine stands, as at all states before. -/
def Stands (b : Chronicle) : Prop := Scene.Stands ⟨b.session.machine, b.register, b.moments⟩

namespace Stands

theorem noted (stands : b.Stands) :
    Scene.Stands ⟨b.session.machine, b.register, b.states⟩ := by
  refine ⟨stands.machine, List.forall_mem_cons.mpr ⟨?_, stands.moments⟩, ?_⟩
  · exact ⟨stands.machine, .refl _⟩
  · exact List.pairwise_cons.mpr ⟨fun m member => (stands.moments m member).2, stands.ordered⟩

theorem register {s : Session} {l : Register} {moments : List Moment} {n : Native}
    (stands : Stands ⟨s, l, moments⟩) (sane : n.Sane) : Stands ⟨s.register n, l, moments⟩ := by
  have made : s.machine.heap.Change (s.machine.heap.newNative n).2 := .native sane
  have named : (s.machine.heap.newNative n).2.Change (s.register n).machine.heap := by
    refine .binding _ n.name fun w same => ?_
    cases same
    exact leads_newNative s.machine.heap n
  exact (Scene.Onward.step (m := (s.register n).machine) (l := l) stands rfl
    ((Heap.Evolves.one made).trans (.one named))).stands

theorem close {ran : EStateM.Result Exit Scene (Option Value)}
    (onward : Scene.Onward ⟨b.session.machine, b.register, b.states⟩ (left ran)) :
    (b.close ran).Stands :=
  ⟨⟨onward.stands.machine.evolved, onward.stands.machine.active⟩, onward.stands.moments,
    onward.stands.ordered⟩

theorem run (stands : b.Stands) (flags : Flags) (text : String) :
    (b.run limits flags text).Stands := by
  unfold Chronicle.run
  by_cases runs : b.session.Runs text
  · have builds := Chronicled.program_builds limits (resolve (spelled text)).program stands.noted
    rw [if_pos runs]
    refine close ?_
    unfold chronicled
    cases ran : Chronicled.program limits (resolve (spelled text)).program
        ⟨b.session.machine, b.register, b.states⟩ with
    | ok v a => exact (builds.ok v a ran).1
    | error e a => exact (builds.error e a ran).1
  · obtain ⟨-, ds, same⟩ := run_of_not_runs runs limits flags
    rw [if_neg runs, same]
    exact stands.noted

theorem feedAll (stands : b.Stands) {inputs : List Input}
    (sane : ∀ n, .native n ∈ inputs → n.Sane) : (b.feedAll limits inputs).Stands := by
  induction inputs generalizing b with
  | nil => exact stands
  | cons input rest ih =>
      refine ih ?_ fun n member => sane n (List.mem_cons_of_mem _ member)
      cases input with
      | source flags text => exact stands.run limits flags text
      | native n => exact register stands.noted (sane n List.mem_cons_self)
      | reset => exact stands.noted

end Stands

theorem start_stands (now : Clock) : (start now).Stands := by
  have empty : Stands ⟨⟨.start now, .start⟩, Register.empty, []⟩ :=
    ⟨⟨.refl _, rfl⟩, fun _ member => absurd member List.not_mem_nil, .nil⟩
  exact empty.register Native.clock_sane

end Chronicle

/-- The heap of a session only grows. Nothing that is executed or evaluated at any of its states
takes anything away, and what is there refers to what was made before. References of the routines of
the host have to lead somewhere. -/
theorem heap_grows (now : Clock) (inputs : List Input) (sane : ∀ n, .native n ∈ inputs → n.Sane) :
    let chronicle := (Chronicle.start now).feedAll limits inputs
    chronicle.session = feedAll limits (start now) inputs ∧
      (chronicle.states.Pairwise fun later earlier =>
        earlier.machine.heap.Precedes later.machine.heap) ∧
      ∀ m ∈ chronicle.states, Heap.start.Precedes m.machine.heap ∧
        ∀ rounds depth, m.machine.Grows rounds depth := by
  intro chronicle
  have stands := ((Chronicle.start_stands now).feedAll limits sane).noted
  have stood (m : Moment) (member : m ∈ chronicle.states) : m.machine.Stands :=
    (stands.moments m member).1
  refine ⟨Chronicle.feedAll_session limits _ inputs, ?_, fun m member => ?_⟩
  · exact stands.ordered.imp_of_mem fun _ earlier evolves =>
      .of_evolves evolves (stood _ earlier).evolved
  · exact ⟨.of_evolves (stood m member).evolved (.refl _), (stood m member).grows⟩

/-- The run fails behind a function that goes on holding the scope of a block, whose chain ends in
the global scope. -/
theorem heap_grows_failing :
    let inputs := [Input.native applying, .source ⟨false, false⟩
      "class A {} class B < A {} var get; { var y = B(); fun f() { return y; } get = f; } gone;"]
    let chronicle := (Chronicle.start 0).feedAll ⟨9, 9⟩ inputs
    (∀ n, .native n ∈ inputs → n.Sane) ∧
      (chronicle.now.machine.heap.function? ⟨0⟩).map (fun k => k.scope) = some ⟨2⟩ ∧
      chronicle.now.machine.heap.Descends ⟨2⟩ ∧
      chronicle.now.machine.heap.chain ⟨2⟩ = [⟨2⟩, Machine.globals] ∧
      ∀ rounds depth, chronicle.now.machine.Grows rounds depth := by
  intro inputs chronicle
  have sane : ∀ n, .native n ∈ inputs → n.Sane := fun n member => by
    obtain rfl : n = applying := by simpa [inputs] using member
    exact applying_sane
  obtain ⟨precedes, grows⟩ :=
    (heap_grows ⟨9, 9⟩ 0 inputs sane).2.2 chronicle.now List.mem_cons_self
  have alive : chronicle.now.machine.heap.Alive ⟨2⟩ := by
    show _ = true
    decide +kernel
  exact ⟨sane, by decide +kernel, precedes.founded.descends _ alive, by decide +kernel, grows⟩

end Session
end LoxLang
