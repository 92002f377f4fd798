import LoxLang.Proofs.Blame.Runs
import LoxLang.Proofs.Provenance.Sites
import LoxLang.Proofs.Sessions.Diaries
/-! Failures of sessions. Every failure of a run has a token of a source that the session has run,
and the node in which the run broke off is the one that the token belongs to. -/
namespace LoxLang
namespace Session

/-- The session has run the source text as one of its inputs. -/
def HasRun (limits : Limits) (now : Clock) (inputs : List Input) (text : String) : Prop :=
  ∃ before flags after, inputs = before ++ .source flags text :: after ∧
    (feedAll limits (start now) before).Runs text

/-- The code that the session has run. -/
def ranCode (limits : Limits) (now : Clock) (inputs : List Input) : Regime where
  sites := fun σ => ∃ text, HasRun limits now inputs text ∧ σ ∈ sitesOfSource text
  lawful := fun σ ⟨_, ⟨_, _, _, _, runs⟩, member⟩ => runs.2.lawful σ member
  typed := False
  tidy := False

/-- The run broke off at a node of a source that the session has run, which is to blame for the
failure, and the token of the failure is a token of that source. -/
structure BrokenAt (limits : Limits) (now : Clock) (inputs : List Input) (pending : List Node)
    (f : Fault) (text : String) (σ : Site) : Prop where
  ran : HasRun limits now inputs text
  site : σ ∈ sitesOfSource text
  innermost : pending.head? = some σ.node
  blames : σ.node.Blames f
  token : ∃ t ∈ (scan text).tokens, f.token = some t
  line : 1 ≤ f.line ∧ f.line ≤ text.toList.count '\n' + 1

variable {limits : Limits} {now : Clock} {inputs : List Input}

/-- A failure that is pinned on code of the session is one of the sources it has run. -/
theorem brokenAt_of_pinned {pending : List Node} {f : Fault}
    (pinned : Pinned (ranCode limits now inputs) pending f) :
    ∃ text σ, BrokenAt limits now inputs pending f text σ := by
  obtain ⟨σ, rest, ⟨text, ran, site⟩, rfl, blames⟩ := pinned
  have accepted : Accepted text := by
    obtain ⟨_, _, _, _, runs⟩ := ran
    exact runs.2
  obtain ⟨t, token, part⟩ := blames.token
  have here : t ∈ (scan text).tokens := accepted.stem σ site _ part
  refine ⟨text, σ, ran, site, rfl, blames, ⟨t, here, token⟩, ?_⟩
  rw [Fault.line, token]
  exact scan_lines text t here

namespace Diary
variable {R : Regime} {d : Diary}

/-- Between its runs a session holds only known code. -/
structure Held (R : Regime) (d : Diary) : Prop where
  coded : Coded R d.session.machine.heap
  alive : d.session.machine.heap.Alive Machine.globals
  active : d.session.machine.active = Machine.globals

namespace Held

theorem poised (held : d.Held R) : Poised R d.session.machine :=
  ⟨held.coded, held.active ▸ held.alive⟩

theorem register {s : Session} {j : Journal} {ns ms : List Node} {n : Native}
    (held : Held R ⟨s, j, ns⟩) (quiet : n.Quiet) : Held R ⟨s.register n, j, ms⟩ := by
  refine ⟨(held.coded.newNative quiet).write _ _ _, ?_, held.active⟩
  exact Heap.alive_define.mpr held.alive

/-- The journaled run of known code, and what it leaves. -/
theorem run (limits : Limits) (held : d.Held R) (flags : Flags) {text : String}
    (known : d.session.Runs text → ∀ σ ∈ sitesOfSource text, R.sites σ) :
    (d.run limits flags text).Held R := by
  unfold Diary.run
  by_cases runs : d.session.Runs text
  · have points := Journaled.program_points limits (a := ⟨d.session.machine, d.journal, []⟩)
      held.poised (runs.2.sites_eq ▸ known runs)
    have follows : Follows R d.session.machine
        (left (d.journaled limits (resolve (spelled text)).program)).machine := by
      unfold journaled
      cases ran : Journaled.program limits (resolve (spelled text)).program
          ⟨d.session.machine, d.journal, []⟩ with
      | ok v b => exact (points.ok v b ran).1.follows
      | error e b => exact (points.error e b ran).1
    rw [if_pos runs]
    exact ⟨follows.coded, follows.grown.alive held.alive, follows.active.trans held.active⟩
  · obtain ⟨-, ds, same⟩ := run_of_not_runs runs limits flags
    rw [if_neg runs, same]
    exact ⟨held.coded, held.alive, held.active⟩

/-- A session holds only code that it has run, if the host raises nothing. What is known may be more:
code of inputs that are still to come. -/
theorem feedAll (rest : List Input) (more : List Input) : ∀ (before : List Input) (d : Diary),
    inputs = before ++ (rest ++ more) →
    d.session = Session.feedAll limits (Session.start now) before →
    (∀ n, .native n ∈ rest → n.Quiet) → d.Held (ranCode limits now inputs) →
    (d.feedAll limits rest).Held (ranCode limits now inputs) := by
  induction rest with
  | nil => exact fun _ _ _ _ _ held => held
  | cons input rest ih =>
      intro before d whole same quiet held
      refine ih (before ++ [input]) (d.feed limits input) ?_ ?_ ?_ ?_
      · rw [whole, List.append_assoc, List.singleton_append, List.cons_append]
      · rw [feed_session, same, Session.feedAll, Session.feedAll, List.foldl_append]
        rfl
      · exact fun n member => quiet n (List.mem_cons_of_mem _ member)
      · cases input with
        | source flags text =>
            exact held.run limits flags fun runs σ site =>
              ⟨text, ⟨before, flags, rest ++ more, whole, same ▸ runs⟩, site⟩
        | native n => exact held.register (quiet n List.mem_cons_self)
        | reset => exact ⟨held.coded, held.alive, held.active⟩

theorem start (R : Regime) (now : Clock) : (Diary.start now).Held R := by
  have held : Held R ⟨⟨.start now, .start⟩, Journal.empty, []⟩ := by
    refine ⟨⟨fun _ _ found => (by cases found), fun _ _ found => (by cases found),
      fun _ _ found => (by cases found), fun s x _ => ?_⟩, rfl, rfl⟩
    change Heap.start.binding? s x ≠ some none
    rw [Heap.start, Heap.binding?_newScope]
    split
    · exact fun same => by cases same
    · simp [Heap.binding?, Heap.scope?, Heap.empty]
  exact held.register Native.clock_quiet

end Held
end Diary

/-- Failures point into the program. If the routines of the host raise nothing, every failure of a
run of a session has a token of a source that the session has run, in this run or before, and the
token belongs to the node in which the run broke off. -/
theorem failures_placed (limits : Limits) (now : Clock) {inputs : List Input}
    (quiet : ∀ n, .native n ∈ inputs → n.Quiet) (flags : Flags) (source : String) :
    let diary := (Diary.start now).feedAll limits inputs
    diary.session = feedAll limits (start now) inputs ∧
      ∀ f, (run limits flags diary.session source).outcome = .failed f →
        ∃ text σ, BrokenAt limits now (inputs ++ [.source flags source])
          (diary.run limits flags source).pending f text σ := by
  intro diary
  have same : diary.session = feedAll limits (start now) inputs :=
    (Diary.start now).feedAll_session limits inputs
  refine ⟨same, fun f failed => brokenAt_of_pinned ?_⟩
  have held : diary.Held (ranCode limits now (inputs ++ [.source flags source])) :=
    Diary.Held.feedAll inputs [.source flags source] [] (Diary.start now) rfl rfl quiet (.start _ now)
  by_cases runs : diary.session.Runs source
  · have known : ∀ σ ∈ sitesOfSource source,
        (ranCode limits now (inputs ++ [.source flags source])).sites σ := fun σ site =>
      ⟨source, ⟨inputs, flags, [], rfl, same ▸ runs⟩, site⟩
    have points := Journaled.program_points limits
      (a := ⟨diary.session.machine, diary.journal, []⟩) held.poised (runs.2.sites_eq ▸ known)
    rw [diary.run_outcome limits runs flags] at failed
    unfold Diary.run
    rw [if_pos runs]
    unfold Diary.close
    cases ran : diary.journaled limits (resolve (spelled source)).program with
    | ok v b =>
        rw [ran] at failed
        cases failed
    | error e b =>
        rw [ran] at failed
        cases e with
        | fault g =>
            cases failed
            exact (points.error _ b ran).2 f rfl
        | _ => cases failed
  · rw [(run_of_not_runs runs limits flags).1] at failed
    cases failed

/-- A routine of the host that calls its argument and raises nothing. -/
def calling : Native where
  name := "twice"
  arity := 1
  body
    | [.callable c] => .call c [] fun _ => .call c [] .done
    | _ => .done .nil

theorem calling_quiet : calling.Quiet := by
  intro arguments
  cases arguments with
  | nil => trivial
  | cons v rest =>
      cases v with
      | callable c =>
          cases rest with
          | nil => exact fun _ _ => trivial
          | cons _ _ => trivial
      | _ => trivial

/-- A closure kept from a run before fails when a routine of the host calls it. -/
theorem failures_placed_calling :
    let inputs := [Input.native calling, .source ⟨false, false⟩
      "\n\nfun make(n) { fun next() { return n - nil; } return next; } var f = make(1);"]
    let source := "twice(f);"
    let diary := (Diary.start 0).feedAll ⟨9, 9⟩ inputs
    (∀ n, .native n ∈ inputs → n.Quiet) ∧
      .remark (.failed 3 "Operands must be numbers.") ∈
        (run ⟨9, 9⟩ ⟨false, false⟩ diary.session source).events ∧
      ∀ f, (run ⟨9, 9⟩ ⟨false, false⟩ diary.session source).outcome = .failed f →
        ∃ text σ, BrokenAt ⟨9, 9⟩ 0 (inputs ++ [.source ⟨false, false⟩ source])
          (diary.run ⟨9, 9⟩ ⟨false, false⟩ source).pending f text σ := by
  intro inputs source diary
  have quiet : ∀ n, .native n ∈ inputs → n.Quiet := fun n member => by
    obtain rfl : n = calling := by simpa [inputs] using member
    exact calling_quiet
  exact ⟨quiet, by decide +kernel, (failures_placed ⟨9, 9⟩ 0 quiet ⟨false, false⟩ source).2⟩

end Session
end LoxLang
