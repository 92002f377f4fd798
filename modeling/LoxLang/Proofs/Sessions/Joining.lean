import LoxLang.Proofs.Relining.Phrases
import LoxLang.Proofs.Relining.Running
import LoxLang.Proofs.Relining.Scanning
import LoxLang.Proofs.Relining.Walking
import LoxLang.Proofs.Sessions.Lexical
/-! Source texts in one piece. Two texts that a session is given one after the other come to what
they come to as one text, in which the second one stands below the first. -/
namespace LoxLang

/-- The text with another one on the lines below it. -/
def below (first second : String) : String := first ++ "\n" ++ second

section
variable {first second : String}

theorem parse_below (accepted : Accepted first) (accepted' : Accepted second) :
    parse (scan (below first second)).tokens =
      ⟨spelled first ++ relineBody (· + lineCount first) (spelled second), []⟩ := by
  rw [below, scan_append accepted.scanned]
  exact parse_append (· + lineCount first) accepted.parsed accepted'.parsed

theorem spelled_below (accepted : Accepted first) (accepted' : Accepted second) :
    spelled (below first second) =
      spelled first ++ relineBody (· + lineCount first) (spelled second) := by
  rw [spelled, parse_below accepted accepted']

/-- Of two accepted texts one accepted text can be made. -/
theorem Accepted.below (accepted : Accepted first) (accepted' : Accepted second) :
    Accepted (below first second) := by
  refine ⟨?_, ?_, ?_⟩
  · rw [LoxLang.below, scan_append accepted.scanned]
    simp [Scan.followed, Scan.reline, accepted.scanned, accepted'.scanned]
  · rw [parse_below accepted accepted']
  · rw [spelled_below accepted accepted', (resolve_append _ accepted.plain).2]
    simp [accepted.resolved, accepted'.resolved]

theorem resolve_below (accepted : Accepted first) (accepted' : Accepted second) :
    (resolve (spelled (below first second))).program = (resolve (spelled first)).program ++
      relineBody (· + lineCount first) (resolve (spelled second)).program := by
  rw [spelled_below accepted accepted', (resolve_append _ accepted.plain).1]

end

/-! Lines of different origin: those of code that is there already, and those of a text that is
added. A line that is marked can be placed further down if it is one of the added text. -/

def markOld (line : Nat) : Nat := 2 * line

def markNew (line : Nat) : Nat := 2 * line + 1

/-- The line that was marked, so many lines further down if it was marked as new. -/
def placeNew (down line : Nat) : Nat := line / 2 + line % 2 * down

theorem placeNew_markOld (down : Nat) : placeNew down ∘ markOld = id := by
  funext line
  have even : markOld line % 2 = 0 := Nat.mul_mod_right 2 line
  rw [Function.comp, placeNew, even, Nat.zero_mul]
  exact Nat.mul_div_cancel_left line Nat.two_pos

theorem placeNew_markNew (down : Nat) : placeNew down ∘ markNew = (· + down) := by
  funext line
  have odd : markNew line % 2 = 1 := Nat.mul_add_mod 2 line 1
  have half : markNew line / 2 = line := Nat.mul_add_div Nat.two_pos line 1
  rw [Function.comp, placeNew, odd, half, Nat.one_mul]

namespace Run

theorem topLevel_append (limits : Limits) (first second : List (Stmt Address))
    (last : Option Value) : topLevel limits last (first ++ second) =
      topLevel limits last first >>= fun last => topLevel limits last second := by
  induction first generalizing last with
  | nil => simp [topLevel]
  | cons s rest ih => simp only [List.cons_append, topLevel_cons, ih, bind_assoc]

/-- The value before the first statement is forgotten. -/
theorem topLevel_of_ne_nil (limits : Limits) {ss : List (Stmt Address)} (some : ss ≠ [])
    (last : Option Value) : topLevel limits last ss = program limits ss := by
  cases ss with
  | nil => exact absurd rfl some
  | cons s rest => rw [program, topLevel_cons, topLevel_cons]

end Run

def Outcome.reline (f : Nat → Nat) : Outcome → Outcome
  | .failed x => .failed (x.reline f)
  | o => o

namespace Session

/-- The run of a text that is added to a session, with lines marked by their origin. -/
def marked (limits : Limits) (s : Session) (source : String) :
    EStateM.Result Exit Machine (Option Value) :=
  Run.program limits (relineBody markNew (resolve (spelled source)).program)
    (s.machine.reline markOld #[])

theorem concluded_moved (f : Nat → Nat) (before : Array String)
    (r : EStateM.Result Exit Machine (Option Value)) :
    concluded (Run.moved f before id r) = (concluded r).reline f := by
  cases r with
  | ok v m => rfl
  | error e m => cases e <;> rfl

theorem left_moved (f : Nat → Nat) (before : Array String)
    (r : EStateM.Result Exit Machine (Option Value)) :
    left (Run.moved f before id r) = (left r).reline f before := by
  cases r <;> rfl

variable {limits : Limits} {s : Session} {source : String}

/-- Placing the lines of a marked run gives the run of the text on these lines. -/
theorem moved_marked (limits : Limits) (s : Session) (source : String) (down : Nat)
    (before : Array String) : Run.moved (placeNew down) before id (marked limits s source) =
      Run.program limits (relineBody (· + down) (resolve (spelled source)).program)
        { s.machine with world := s.machine.world.after before } := by
  have relines : Run.Relines (placeNew down) before id _ _ :=
    Run.topLevel_relines limits (relineBody markNew (resolve (spelled source)).program) none
  have moved := relines (s.machine.reline markOld #[])
  rw [relineBody_relineBody, placeNew_markNew, Machine.reline_reline, placeNew_markOld] at moved
  rw [marked, Run.program, ← moved]
  simp [Machine.reline, Heap.reline_id, Run.program]

/-- The text below the other one does what it does alone, after the other one. -/
theorem program_below {first second : String} (accepted : Accepted first)
    (accepted' : Accepted second) (some : spelled second ≠ []) (limits : Limits) (s : Session) :
    Run.program limits (resolve (spelled (below first second))).program s.machine =
      match Run.program limits (resolve (spelled first)).program s.machine with
      | .ok _ m => Run.moved (placeNew (lineCount first)) m.world.printed id
          (marked limits ⟨m.flush, s.reporter⟩ second)
      | .error e m => .error e m := by
  have statements : relineBody (· + lineCount first) (resolve (spelled second)).program ≠ [] := by
    intro none
    have erased := erase_resolve (spelled second)
    rw [relineBody_eq_map, List.map_eq_nil_iff] at none
    rw [none] at erased
    exact some erased.symm
  rw [resolve_below accepted accepted', Run.program, Run.topLevel_append]
  simp only [Run.topLevel_of_ne_nil limits statements]
  cases same : Run.program limits (resolve (spelled first)).program s.machine with
  | ok v m =>
      rw [Run.program] at same
      simp [Bind.bind, EStateM.bind, same, moved_marked, Machine.flush]
  | error e m =>
      rw [Run.program] at same
      simp [Bind.bind, EStateM.bind, same]

/-- Nothing but the run is shown. -/
def noFlags : Flags := ⟨false, false⟩

/-- The lines of output of a run. -/
def Result.lines (r : Result) : List String := r.events.filterMap Event.line?

/-- All that comes of a text that is run. -/
theorem run_eq (runs : s.Runs source) (limits : Limits) :
    let ran := Run.program limits (resolve (spelled source)).program s.machine
    (run limits noFlags s source).outcome = concluded ran ∧
      (run limits noFlags s source).session =
        ⟨(left ran).flush, told s.reporter (concluded ran)⟩ ∧
      (run limits noFlags s source).lines = (left ran).world.printed.toList := by
  intro ran
  obtain ⟨session, outcome⟩ := run_of_runs runs limits noFlags
  obtain ⟨concludes, leaves⟩ := execute_eq limits s (resolve (spelled source)).program
  exact ⟨outcome.trans concludes, session.trans leaves, run_lines runs limits noFlags⟩

/-- The result is that of a marked run, with the new lines so much further down. -/
structure Places (down : Nat) (both : EStateM.Result Exit Machine (Option Value))
    (reporter : Reporter) (r : Result) : Prop where
  outcome : r.outcome = (concluded both).reline (placeNew down)
  heap : r.session.machine.heap = (left both).heap.reline (placeNew down)
  active : r.session.machine.active = (left both).active
  reporter : r.session.reporter = told reporter r.outcome

/-- Two texts come to the same one after the other and as one text. If the first one completes,
both ways differ in the lines of the second text alone, which are further down by the lines of
the first one; else the second one is not entered. -/
structure Joins (limits : Limits) (s : Session) (first second : String) : Prop where
  accepted : Accepted (below first second)
  completed : ∀ v, (run limits noFlags s first).outcome = .completed v →
    let before := run limits noFlags s first
    let apart := run limits noFlags before.session second
    let whole := run limits noFlags s (below first second)
    let both := marked limits before.session second
    whole.lines = before.lines ++ apart.lines ∧ whole.session.globals = apart.session.globals ∧
      Places 0 both s.reporter apart ∧ Places (lineCount first) both s.reporter whole
  stopped : (∀ v, (run limits noFlags s first).outcome ≠ .completed v) →
    let before := run limits noFlags s first
    let whole := run limits noFlags s (below first second)
    whole.lines = before.lines ∧ whole.outcome = before.outcome ∧ whole.session = before.session

/-- The lines of the marked run are placed in what comes of the text. -/
theorem places_of_moved {down : Nat} {before : Array String}
    {both ran : EStateM.Result Exit Machine (Option Value)}
    (same : ran = Run.moved (placeNew down) before id both) {r : Result} {reporter : Reporter}
    (outcome : r.outcome = concluded ran)
    (session : r.session = ⟨(left ran).flush, told reporter (concluded ran)⟩) :
    Places down both reporter r := by
  subst same
  rw [left_moved, concluded_moved] at session
  rw [concluded_moved] at outcome
  refine ⟨outcome, ?_, ?_, ?_⟩
  · rw [session]
    rfl
  · rw [session]
    rfl
  · rw [session, outcome]

/-- Lines placed where they were give the run of the text alone. -/
theorem program_eq_moved (limits : Limits) (m : Machine) (r : Reporter) (source : String) :
    Run.program limits (resolve (spelled source)).program m =
      Run.moved (placeNew 0) #[] id (marked limits ⟨m, r⟩ source) := by
  have here : relineBody (· + 0) (resolve (spelled source)).program =
      (resolve (spelled source)).program := relineBody_id _
  rw [moved_marked, here, World.after_nothing]

theorem concluded_completed {σ : Type} {r : EStateM.Result Exit σ (Option Value)}
    {v : Option Value} (complete : concluded r = .completed v) : ∃ m, r = .ok v m := by
  cases r with
  | ok w m =>
      cases complete
      exact ⟨m, rfl⟩
  | error e m => cases e <;> cases complete

/-- The global variables are the same on other lines, whatever was reported. -/
theorem globals_moved (m : Machine) (r r' : Reporter) (f : Nat → Nat) (before : Array String) :
    globals ⟨(m.reline f before).flush, r⟩ = globals ⟨m, r'⟩ := rfl

/-- A session and a script mean the same. -/
theorem run_joined (limits : Limits) (s : Session) {first second : String}
    (clean : s.reporter.hadError = false) (accepted : Accepted first)
    (accepted' : Accepted second) (some : spelled second ≠ []) : Joins limits s first second := by
  have joined := accepted.below accepted'
  obtain ⟨outcome, session, lines⟩ := run_eq (s := s) ⟨clean, joined⟩ limits
  obtain ⟨outcome₁, session₁, lines₁⟩ := run_eq (s := s) ⟨clean, accepted⟩ limits
  rw [program_below accepted accepted' some] at outcome session lines
  generalize Run.program limits (resolve (spelled first)).program s.machine = ran at *
  refine ⟨joined, fun v complete => ?_, fun other => ?_⟩
  · obtain ⟨m, rfl⟩ := concluded_completed (outcome₁.symm.trans complete)
    have between : (run limits noFlags s first).session = ⟨m.flush, s.reporter⟩ :=
      session₁
    obtain ⟨outcome₂, session₂, lines₂⟩ :=
      run_eq (s := ⟨m.flush, s.reporter⟩) ⟨clean, accepted'⟩ limits
    have alone := program_eq_moved limits m.flush s.reporter second
    dsimp only
    rw [between]
    refine ⟨?_, ?_, places_of_moved alone outcome₂ session₂, places_of_moved rfl outcome session⟩
    · rw [lines, lines₁, lines₂, alone, left_moved, left_moved]
      simp [Machine.reline, left]
    · rw [session, session₂, alone, left_moved, left_moved, globals_moved _ _ s.reporter,
        globals_moved _ _ s.reporter]
  · cases ran with
    | ok v m => exact absurd outcome₁ (other v)
    | error e m =>
        exact ⟨lines.trans lines₁.symm, outcome.trans outcome₁.symm, session.trans session₁.symm⟩

/-- A text that ends in a comment, and one that calls its function and then fails. -/
theorem run_joined_comment :
    let first := "fun show(x) { print x; } // shows"
    let second := "show(true);\nprint nil + true;"
    (start 0).reporter.hadError = false ∧ Accepted first ∧ Accepted second ∧ spelled second ≠ [] ∧
      Joins Limits.standard (start 0) first second := by
  intro first second
  have accepted : Accepted first := by decide +kernel
  have accepted' : Accepted second := by decide +kernel
  have some : spelled second ≠ [] := by decide +kernel
  exact ⟨rfl, accepted, accepted', some,
    run_joined Limits.standard (start 0) rfl accepted accepted' some⟩

end Session
end LoxLang
