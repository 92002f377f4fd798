import LoxLang.CommandLine.Console
import LoxLang.Proofs.Sessions.Lexical
/-! Rejected sources. A source that is not run leaves nothing behind but its messages, so that
the lines of an interaction that are rejected could as well be left out. -/
namespace LoxLang

namespace Reporter

theorem hadFault_reportAll (r : Reporter) (ds : List Diagnostic) :
    (r.reportAll ds).hadFault = r.hadFault := by
  induction ds generalizing r with
  | nil => rfl
  | cons d ds ih => exact ih (r.report d)

theorem messages_reportAll (r : Reporter) (ds : List Diagnostic) :
    (r.reportAll ds).messages.toList = r.messages.toList ++ ds.map Diagnostic.text := by
  induction ds generalizing r with
  | nil => simp [reportAll]
  | cons d ds ih =>
      rw [show r.reportAll (d :: ds) = (r.report d).reportAll ds from rfl, ih]
      simp [report]

end Reporter

/-- A message, if the event is one. -/
def Event.message? : Event → Option String
  | .message text => some text
  | _ => none

namespace Session
variable {limits : Limits} {flags : Flags} {s : Session} {source : String}

/-- What a session is told about a source that it does not run. The scopes are looked at only if
nothing was wrong by then. -/
def refusals (s : Session) (source : String) : List Diagnostic :=
  if s.reporter.hadError = false ∧ objections source = [] then scopeObjections source
  else objections source

/-- A source is not run: nothing is left of it but what the session is told. -/
structure Refused (s : Session) (flags : Flags) (source : String) (r : Result) : Prop where
  outcome : r.outcome = .rejected
  machine : r.session.machine = s.machine
  hadError : r.session.reporter.hadError = true
  hadFault : r.session.reporter.hadFault = s.reporter.hadFault
  messages : r.session.reporter.messages.toList =
    s.reporter.messages.toList ++ (refusals s source).map Diagnostic.text
  told : r.events.filterMap Event.message? = (refusals s source).map Diagnostic.text
  shown : r.events.filterMap Event.line? = if flags.tokens then listing (scan source) else []

/-- A source is run: its program is executed, and what that shows comes after what is shown of
the source itself. -/
structure Executed (limits : Limits) (s : Session) (flags : Flags) (source : String) (r : Result) :
    Prop where
  session : r.session = (execute limits s (resolve (spelled source)).program).session
  outcome : r.outcome = (execute limits s (resolve (spelled source)).program).outcome
  shown : r.events.filterMap Event.line? = preamble flags source ++
    (execute limits s (resolve (spelled source)).program).events.filterMap Event.line?

theorem executed_of_runs (runs : s.Runs source) (limits : Limits) (flags : Flags) :
    Executed limits s flags source (run limits flags s source) := by
  obtain ⟨session, outcome⟩ := run_of_runs runs limits flags
  refine ⟨session, outcome, ?_⟩
  rw [run_lines runs limits flags, execute_lines]

theorem lines_messages (ds : List Diagnostic) : (messages ds).filterMap Event.line? = [] := by
  simp [messages, List.filterMap_map, Function.comp_def, Event.line?]

theorem told_messages (ds : List Diagnostic) :
    (messages ds).filterMap Event.message? = ds.map Diagnostic.text := by
  simp [messages, List.filterMap_map, Function.comp_def, Event.message?]

theorem told_output (ls : List String) : (ls.map Event.output).filterMap Event.message? = [] := by
  simp [List.filterMap_map, Function.comp_def, Event.message?]

/-- What the two looks at a source show of it, if it is not run after them. -/
theorem shown_refused (flags : Flags) (source : String) :
    (if flags.tokens then (listing (scan source)).map Event.output else []).filterMap Event.line? =
      if flags.tokens then listing (scan source) else [] := by
  split
  · exact lines_output _
  · rfl

theorem told_refused (flags : Flags) (source : String) :
    (if flags.tokens then (listing (scan source)).map Event.output else []).filterMap
      Event.message? = [] := by
  split
  · exact told_output _
  · rfl

/-- Something is wrong before the scopes are looked at. -/
theorem refused_early (early : (s.reporter.reportAll (objections source)).hadError = true)
    (limits : Limits) (flags : Flags) : Refused s flags source (run limits flags s source) := by
  have split : objections source = (scan source).issues ++
    (parse (scan source).tokens).issues.map (Issue.diagnostic (scan source).stop.line) := rfl
  have told : refusals s source = objections source := by
    rw [Reporter.hadError_reportAll] at early
    refine if_neg fun quiet => ?_
    simp [quiet.1, quiet.2] at early
  simp only [run, Reporter.reportAll_append]
  rw [← split, if_pos early]
  refine ⟨rfl, rfl, early, Reporter.hadFault_reportAll _ _, ?_, ?_, ?_⟩
  · rw [told, Reporter.messages_reportAll]
  · simp [told, split, told_messages, told_refused, Event.message?, List.filterMap_append,
      List.filterMap_cons]
  · simp [lines_messages, shown_refused, Event.line?, List.filterMap_append, List.filterMap_cons]

/-- Nothing is wrong until the scopes are looked at. -/
theorem refused_late (clean : s.reporter.hadError = false) (quiet : objections source = [])
    (wrong : scopeObjections source ≠ []) (limits : Limits) (flags : Flags) :
    Refused s flags source (run limits flags s source) := by
  have told : refusals s source = scopeObjections source := if_pos ⟨clean, quiet⟩
  obtain ⟨scanned, parsed⟩ := List.append_eq_nil_iff.mp quiet
  have scopes : (resolve (parse (scan source).tokens).program).issues.map ScopeIssue.diagnostic =
    scopeObjections source := rfl
  have whole : (s.reporter.reportAll (scopeObjections source)).hadError = true := by
    rw [Reporter.hadError_reportAll]
    simpa using Or.inr wrong
  have fresh : s.reporter.reportAll [] = s.reporter := rfl
  have silent : messages [] = [] := rfl
  simp only [run, resolveAndRun, overdrawn_resolve, Bool.false_eq_true, if_false, scanned, parsed,
    fresh]
  rw [if_neg (by simp [clean]), scopes, if_pos whole]
  refine ⟨rfl, rfl, whole, Reporter.hadFault_reportAll _ _, ?_, ?_, ?_⟩
  · rw [told]
    exact Reporter.messages_reportAll _ _
  · simp [Result.after, told, silent, told_messages, told_refused, Event.message?,
      List.filterMap_append, List.filterMap_cons]
  · simp [Result.after, lines_messages, shown_refused, Event.line?, List.filterMap_append,
      List.filterMap_cons]

theorem refused_of_not_runs (stops : ¬s.Runs source) (limits : Limits) (flags : Flags) :
    Refused s flags source (run limits flags s source) := by
  by_cases early : (s.reporter.reportAll (objections source)).hadError = true
  · exact refused_early early limits flags
  · rw [Reporter.hadError_reportAll, Bool.or_eq_true, not_or] at early
    have clean : s.reporter.hadError = false := eq_false_of_ne_true early.1
    have quiet : objections source = [] := by simpa using early.2
    have wrong : scopeObjections source ≠ [] := fun none =>
      stops ⟨clean, accepted_iff.mpr ⟨quiet, none⟩⟩
    exact refused_late clean quiet wrong limits flags

/-! What was told before a run has no influence on it. -/

/-- Sessions that differ at most in what they were told, and not in whether there was any. -/
structure Resembles (s t : Session) : Prop where
  machine : t.machine = s.machine
  hadError : t.reporter.hadError = s.reporter.hadError
  hadFault : t.reporter.hadFault = s.reporter.hadFault

/-- Results that differ at most in what was told before. -/
structure Result.Resembles (r q : Result) : Prop where
  session : r.session.Resembles q.session
  outcome : q.outcome = r.outcome
  events : q.events = r.events

variable {t : Session}

theorem Resembles.reportAll (resembles : s.Resembles t) (ds : List Diagnostic) :
    Resembles { s with reporter := s.reporter.reportAll ds }
      { t with reporter := t.reporter.reportAll ds } := by
  refine ⟨resembles.machine, ?_, ?_⟩
  · simp only [Reporter.hadError_reportAll, resembles.hadError]
  · simp only [Reporter.hadFault_reportAll, resembles.hadFault]

theorem Result.Resembles.after {r q : Result} (resembles : r.Resembles q) (events : List Event) :
    (r.after events).Resembles (q.after events) :=
  ⟨resembles.session, resembles.outcome, congrArg (events ++ ·) resembles.events⟩

theorem Resembles.execute (resembles : s.Resembles t) (limits : Limits)
    (program : List (Stmt Address)) :
    (execute limits s program).Resembles (execute limits t program) := by
  obtain ⟨machine, hadError, hadFault⟩ := resembles
  unfold Session.execute
  rw [machine]
  cases Run.program limits program s.machine with
  | ok value m => exact ⟨⟨rfl, hadError, hadFault⟩, rfl, rfl⟩
  | error e m =>
      cases e with
      | fault f => exact ⟨⟨rfl, hadError, rfl⟩, rfl, rfl⟩
      | _ => exact ⟨⟨rfl, hadError, hadFault⟩, rfl, rfl⟩

theorem Resembles.resolveAndRun (resembles : s.Resembles t) (limits : Limits) (flags : Flags)
    (program : List RawStmt) :
    (resolveAndRun limits flags s program).Resembles (resolveAndRun limits flags t program) := by
  have told := resembles.reportAll ((resolve program).issues.map ScopeIssue.diagnostic)
  simp only [Session.resolveAndRun, overdrawn_resolve, Bool.false_eq_true, if_false]
  rw [told.hadError]
  split
  · exact ⟨told, rfl, rfl⟩
  · exact (told.execute limits _).after _

theorem Resembles.run (resembles : s.Resembles t) (limits : Limits) (flags : Flags)
    (source : String) :
    (run limits flags s source).Resembles (run limits flags t source) := by
  have told := resembles.reportAll (objections source)
  simp only [Session.run, Reporter.reportAll_append]
  rw [← objections, told.hadError]
  split
  · exact ⟨told, rfl, rfl⟩
  · exact (told.resolveAndRun limits flags _).after _

end Session

namespace CommandLine.Interaction
variable {limits : Limits} {i j k : Interaction} {input : String}

/-- The line is neither blank nor one that ends the interaction. -/
def IsSource (input : String) : Prop :=
  Text.trim input ≠ "" ∧ ¬(Text.trim input = "exit" ∨ Text.trim input = "quit")

instance (input : String) : Decidable (IsSource input) := inferInstanceAs (Decidable (_ ∧ _))

/-- The line is a source text with which something is wrong. -/
def IsRejected (input : String) : Prop := IsSource input ∧ ¬Accepted input

instance (input : String) : Decidable (IsRejected input) := inferInstanceAs (Decidable (_ ∧ _))

/-- What is known of a line of input after it was dealt with: what it wrote behind its prompt,
what came of its run, if it was run, and the state that it left. -/
structure Entry where
  input : String
  written : List Chunk
  outcome : Option Outcome
  machine : Machine
  hadFault : Bool

/-- What comes of the run of a line, if it is run. -/
def outcome? (limits : Limits) (i : Interaction) (input : String) : Option Outcome :=
  if IsSource input then some (i.session.run limits i.flags input).outcome else none

/-- The lines of an interaction, up to the one that ends it. -/
def entries (limits : Limits) (i : Interaction) : List String → List Entry
  | [] => []
  | input :: rest =>
    let (written, next) := i.line limits input
    let left := (next.getD i).session
    ⟨input, written, i.outcome? limits input, left.machine, left.reporter.hadFault⟩
      :: match next with
        | some j => entries limits j rest
        | none => []

/-- What is written behind all lines: nothing if one of them ends the interaction. -/
def ending (limits : Limits) (i : Interaction) : List String → List Chunk
  | [] => [prompt, farewell]
  | input :: rest =>
    match (i.line limits input).2 with
    | some j => ending limits j rest
    | none => []

/-- What an interaction writes is what its lines write, each behind a prompt. -/
theorem lines_eq_entries (limits : Limits) (i : Interaction) (inputs : List String) :
    i.lines limits inputs =
      (i.entries limits inputs).flatMap (fun e => prompt :: e.written) ++ i.ending limits inputs := by
  induction inputs generalizing i with
  | nil => rfl
  | cons input rest ih =>
      simp only [lines, entries, ending]
      cases (i.line limits input).2 with
      | none => simp
      | some j => simp [ih j]

/-- Interactions between two lines that differ at most in what was told. -/
structure Resembles (i j : Interaction) : Prop where
  session : i.session.Resembles j.session
  clean : i.session.reporter.hadError = false
  flags : j.flags = i.flags
  verbose : j.verbose = i.verbose

theorem line_of_source (source : IsSource input) (limits : Limits) (i : Interaction) :
    i.line limits input =
      let result := i.session.run limits i.flags input
      (chunks i.verbose result.events ++ echo result.session.machine.heap result.outcome,
        some { i with session := result.session.reset }) := by
  simp only [line, if_neg source.1, if_neg source.2]

/-- The lines that are no source write nothing and change nothing. -/
theorem line_of_not_source (other : ¬IsSource input) (limits : Limits) (i : Interaction) :
    i.line limits input = ([], if Text.trim input = "" then some i else none) := by
  unfold line
  by_cases blank : Text.trim input = ""
  · simp only [blank, if_true]
  · have last : Text.trim input = "exit" ∨ Text.trim input = "quit" :=
      Decidable.byContradiction fun goes => other ⟨blank, goes⟩
    simp only [if_neg blank, if_pos last]

/-- A rejected line leaves the interaction as it was, but for what was told. -/
theorem line_of_rejected (clean : i.session.reporter.hadError = false)
    (rejected : IsRejected input) (limits : Limits) :
    ∃ j, (i.line limits input).2 = some j ∧ i.Resembles j := by
  have stops : ¬i.session.Runs input := fun runs => rejected.2 runs.2
  have refused := Session.refused_of_not_runs stops limits i.flags
  rw [line_of_source rejected.1]
  exact ⟨_, rfl, ⟨refused.machine, clean.symm, refused.hadFault⟩, clean, rfl, rfl⟩

/-- A line does the same in interactions that resemble each other, and leaves such. -/
theorem Resembles.line (resembles : i.Resembles j) (limits : Limits) (input : String) :
    (j.line limits input).1 = (i.line limits input).1 ∧
      j.outcome? limits input = i.outcome? limits input ∧
      Option.Rel Resembles (i.line limits input).2 (j.line limits input).2 := by
  obtain ⟨session, clean, flags, verbose⟩ := resembles
  by_cases source : IsSource input
  · have ran := session.run limits i.flags input
    simp only [line_of_source source, outcome?, if_pos source, flags, verbose, ran.events,
      ran.outcome, ran.session.machine, true_and]
    exact .some ⟨⟨ran.session.machine, rfl, ran.session.hadFault⟩, rfl, rfl, rfl⟩
  · simp only [line_of_not_source source, outcome?, if_neg source, true_and]
    split
    · exact .some ⟨session, clean, flags, verbose⟩
    · exact .none

theorem Resembles.entries (resembles : i.Resembles j) (limits : Limits) (inputs : List String) :
    j.entries limits inputs = i.entries limits inputs := by
  induction inputs generalizing i j with
  | nil => rfl
  | cons input rest ih =>
      obtain ⟨written, outcome, next⟩ := resembles.line limits input
      simp only [Interaction.entries, written, outcome]
      generalize (i.line limits input).2 = i', (j.line limits input).2 = j' at next
      cases next with
      | none =>
          simp only [Option.getD_none, resembles.session.machine, resembles.session.hadFault]
      | some next =>
          simp only [Option.getD_some, next.session.machine, next.session.hadFault, ih next]

/-- A line that is not rejected leaves the interaction ready for the next one. -/
theorem clean_line (clean : i.session.reporter.hadError = false)
    (next : (i.line limits input).2 = some j) : j.session.reporter.hadError = false := by
  by_cases source : IsSource input
  · rw [line_of_source source] at next
    obtain rfl := Option.some.inj next
    rfl
  · rw [line_of_not_source source] at next
    dsimp only at next
    split at next
    · obtain rfl := Option.some.inj next
      exact clean
    · cases next

/-- Without its rejected lines an interaction comes to what it comes to with them. -/
theorem entries_filter (clean : i.session.reporter.hadError = false) (inputs : List String) :
    i.entries limits (inputs.filter fun input => ¬IsRejected input) =
      (i.entries limits inputs).filter fun e => ¬IsRejected e.input := by
  induction inputs generalizing i with
  | nil => rfl
  | cons input rest ih =>
      by_cases rejected : IsRejected input
      · obtain ⟨j, next, resembles⟩ := line_of_rejected clean rejected limits
        rw [List.filter_cons_of_neg (by simpa using rejected)]
        simp only [entries, next]
        rw [List.filter_cons_of_neg (by simpa using rejected), ← ih (clean_line clean next),
          resembles.entries]
      · rw [List.filter_cons_of_pos (by simpa using rejected)]
        simp only [entries]
        rw [List.filter_cons_of_pos (by simpa using rejected)]
        cases next : (i.line limits input).2 with
        | none => rfl
        | some j =>
            dsimp only
            rw [ih (clean_line clean next)]

end CommandLine.Interaction

open CommandLine in
/-- A rejected source has no effect. In an interaction the lines that are not rejected come to the
same without those that are. -/
theorem Session.rejection_inert (limits : Limits) :
    (∀ (s : Session) (flags : Flags) (source : String),
      if s.Runs source then Executed limits s flags source (run limits flags s source)
      else Refused s flags source (run limits flags s source)) ∧
    ∀ (now : Clock) (flags : Flags) (verbose : Bool) (inputs : List String),
      let i := Interaction.start now flags verbose
      i.lines limits inputs = (i.entries limits inputs).flatMap
          (fun e => Interaction.prompt :: e.written) ++ i.ending limits inputs ∧
        i.entries limits (inputs.filter fun input => ¬Interaction.IsRejected input) =
          (i.entries limits inputs).filter fun e => ¬Interaction.IsRejected e.input := by
  refine ⟨fun s flags source => ?_, fun now flags verbose inputs => ⟨?_, ?_⟩⟩
  · split
    · next runs => exact executed_of_runs runs limits flags
    · next stops => exact refused_of_not_runs stops limits flags
  · exact Interaction.lines_eq_entries limits _ inputs
  · exact Interaction.entries_filter rfl inputs

end LoxLang
