import LoxLang.Proofs.Sessions.Outcomes
import LoxLang.Proofs.Sessions.Rejection
/-! Scripts. The exit code of a script and all that it writes are told by what is wrong with its
source and, if nothing is, by the end of its run. -/
namespace LoxLang

/-- What is reported of a source by itself. The scopes are looked at only if nothing is wrong by
then. -/
def complaints (source : String) : List Diagnostic :=
  if Session.objections source = [] then Session.scopeObjections source
  else Session.objections source

theorem accepted_iff_complaints {source : String} : Accepted source ↔ complaints source = [] := by
  rw [Session.accepted_iff, complaints]
  split
  · next quiet => exact and_iff_right quiet
  · next noisy => exact iff_of_false (fun both => noisy both.1) noisy

/-- The messages with which an outcome is shown. -/
def Outcome.messages : Outcome → List String
  | .failed f => [f.text]
  | _ => []

namespace Session
variable {source : String}

theorem refusals_start (now : Clock) (source : String) :
    refusals (start now) source = complaints source := by
  have clean : (start now).reporter.hadError = false := rfl
  simp only [refusals, complaints, clean, true_and]

theorem runs_start (now : Clock) : (start now).Runs source ↔ complaints source = [] :=
  (and_iff_right rfl).trans accepted_iff_complaints

theorem execute_messages (limits : Limits) (s : Session) (program : List (Stmt Address)) :
    (execute limits s program).events.filterMap Event.message? =
      (concluded (Run.program limits program s.machine)).messages := by
  unfold execute
  cases Run.program limits program s.machine with
  | ok value m => simp only [concluded, Outcome.messages, List.append_nil, told_output]
  | error e m =>
      cases e <;> simp only [concluded, Outcome.messages, List.append_nil, List.filterMap_append,
        List.filterMap_cons, List.filterMap_nil, Event.message?, told_output, List.nil_append]

/-- A source that is run is shown the messages of its run only. -/
theorem run_messages {s : Session} (runs : s.Runs source) (limits : Limits) (flags : Flags) :
    (run limits flags s source).events.filterMap Event.message? =
      (concluded (Run.program limits (resolve (spelled source)).program s.machine)).messages := by
  rw [← execute_messages, run_events runs]
  simp only [List.filterMap_append, List.filterMap_cons, told_output]
  simp [Event.message?]

/-- The run of a program in a new session. -/
def programRun (limits : Limits) (now : Clock) (source : String) :
    EStateM.Result Exit Machine (Option Value) :=
  Run.program limits (resolve (spelled source)).program (start now).machine

/-- The run of a program, if it is run in a new session, does not go on forever. -/
def Ends (limits : Limits) (now : Clock) (source : String) : Prop :=
  complaints source = [] → concluded (programRun limits now source) ≠ .aborted .endless

/-- No run in a new session ends in a `return` or a reference to nothing. -/
theorem programRun_documented (limits : Limits) (now : Clock) (accepted : Accepted source) :
    concluded (programRun limits now source) ≠ .aborted .strayReturn ∧
      concluded (programRun limits now source) ≠ .aborted .illFormed := by
  have hosted : Hosted True [] := fun _ none => nomatch none
  have documented := (run_safe limits now hosted ⟨false, false⟩ source).outcome
  have same : (run limits ⟨false, false⟩ (start now) source).outcome =
      concluded (programRun limits now source) :=
    (run_of_runs ⟨rfl, accepted⟩ limits _).2.trans (execute_eq limits _ _).1
  simp only [feedAll, List.foldl_nil, same] at documented
  constructor <;>
  · intro ended
    rw [ended] at documented
    exact documented

end Session

namespace CommandLine

/-- Lines as a stream has them. -/
def lined (lines : List String) : String := String.join (lines.map (· ++ "\n"))

namespace Answer

theorem output_append (xs ys : List Chunk) (code : Nat) :
    output ⟨xs ++ ys, code⟩ = output ⟨xs, code⟩ ++ output ⟨ys, code⟩ := by
  simp only [output, List.filterMap_append, String.join_append]

theorem errors_append (xs ys : List Chunk) (code : Nat) :
    errors ⟨xs ++ ys, code⟩ = errors ⟨xs, code⟩ ++ errors ⟨ys, code⟩ := by
  simp only [errors, List.filterMap_append, String.join_append]

/-- Without remarks, lines and messages are all that is written. -/
theorem output_chunks (events : List Event) (code : Nat) :
    output ⟨CommandLine.chunks false events, code⟩ = lined (events.filterMap Event.line?) := by
  rw [output, lined, CommandLine.chunks, List.filterMap_filterMap, List.map_filterMap]
  refine congrArg (fun f => String.join (events.filterMap f)) (funext fun event => ?_)
  cases event <;> rfl

theorem errors_chunks (events : List Event) (code : Nat) :
    errors ⟨CommandLine.chunks false events, code⟩ = lined (events.filterMap Event.message?) := by
  rw [errors, lined, CommandLine.chunks, List.filterMap_filterMap, List.map_filterMap]
  refine congrArg (fun f => String.join (events.filterMap f)) (funext fun event => ?_)
  cases event <;> rfl

end Answer

/-- The exit code for an outcome. -/
def exitCode : Outcome → Nat
  | .rejected => ExitCode.rejected
  | .completed _ => ExitCode.success
  | .failed _ | .aborted .overflow => ExitCode.failed
  | .aborted _ => ExitCode.refused

/-- What is written of an outcome behind all that was shown before. -/
def lastWords : Outcome → List Chunk
  | .aborted a => [.err (abortText "[lox] Internal Error: " a)]
  | _ => []

variable {source : String}

/-- The two marks of the reporter and the ways to break off a run say what the outcome says. -/
theorem runScript_eq (limits : Limits) (now : Clock) (flags : Flags) (verbose : Bool)
    (source : String) :
    let result := (Session.start now).run limits flags source
    runScript limits now flags verbose source =
      ⟨chunks verbose (opening :: result.events) ++ lastWords result.outcome,
        exitCode result.outcome⟩ := by
  intro result
  by_cases runs : (Session.start now).Runs source
  · obtain ⟨session, outcome⟩ := Session.run_of_runs runs limits flags
    obtain ⟨concludes, leaves⟩ := Session.execute_eq limits (Session.start now)
      (resolve (spelled source)).program
    have same := outcome.trans concludes
    simp only [runScript, result, same, session, leaves]
    cases Run.program limits (resolve (spelled source)).program (Session.start now).machine with
    | ok value m => simp only [Session.concluded, lastWords, List.append_nil]; rfl
    | error e m => cases e <;> simp only [Session.concluded, lastWords, List.append_nil] <;> rfl
  · have refused := Session.refused_of_not_runs runs limits flags
    simp only [runScript, result, refused.outcome, reporterCode, refused.hadError, if_true,
      lastWords, List.append_nil, exitCode]

/-- An answer tells how a run ended, and shows what it printed. -/
structure Reflects (r : EStateM.Result Exit Machine (Option Value)) (a : Answer) : Prop where
  codes : a.code = 70 ∨ a.code = 2 ∨ a.code = 0
  failed : a.code = 70 ↔ (∃ f m, r = .error (.fault f) m) ∨ ∃ m, r = .error .overflow m
  unbound : a.code = 2 ↔ ∃ u m, r = .error (.unbound u) m
  completed : a.code = 0 ↔ ∃ value m, r = .ok value m
  printed : a.output = lined (Session.left r).world.printed.toList
  fault : ∀ f m, r = .error (.fault f) m →
    a.errors = f.message ++ "\n[line " ++ f.line.repr ++ "]\n"
  overflow : ∀ m, r = .error .overflow m → a.errors = overflowText
  quiet : ∀ value m, r = .ok value m → a.errors = ""

/-- The exit code of a script tells apart a source that is rejected and the ways in which the run
of any other ends. -/
structure Classified (limits : Limits) (now : Clock) (source : String) (a : Answer) : Prop where
  codes : a.code = 65 ∨ a.code = 70 ∨ a.code = 2 ∨ a.code = 0
  rejected : a.code = 65 ↔ complaints source ≠ []
  told : complaints source ≠ [] →
    a.output = "" ∧ a.errors = lined ((complaints source).map Diagnostic.text)
  run : complaints source = [] → Reflects (Session.programRun limits now source) a

/-- A source with which something is wrong is answered with what is wrong, and nothing else. -/
theorem classified_rejected (limits : Limits) (now : Clock) (wrong : complaints source ≠ []) :
    Classified limits now source (runScript limits now ⟨false, false⟩ false source) := by
  have refused := Session.refused_of_not_runs (mt (Session.runs_start now).mp wrong) limits
    ⟨false, false⟩
  rw [runScript_eq, refused.outcome]
  refine ⟨.inl rfl, iff_of_true rfl wrong, fun _ => ⟨?_, ?_⟩, (absurd · wrong)⟩
  · rw [Answer.output_append, opening, Answer.output_chunks, List.filterMap_cons_none rfl,
      refused.shown]
    rfl
  · rw [Answer.errors_append, opening, Answer.errors_chunks, List.filterMap_cons_none rfl,
      refused.told, Session.refusals_start]
    exact String.append_empty

/-- All that is written of an outcome. -/
def obituary : Outcome → String
  | .failed f => f.text ++ "\n"
  | .aborted a => abortText "[lox] Internal Error: " a
  | _ => ""

theorem output_lastWords (o : Outcome) (code : Nat) : Answer.output ⟨lastWords o, code⟩ = "" := by
  cases o <;> rfl

theorem errors_lastWords (o : Outcome) (code : Nat) :
    lined o.messages ++ Answer.errors ⟨lastWords o, code⟩ = obituary o := by
  cases o with
  | failed f =>
      have last : lined [f.text] = f.text ++ "\n" ++ "" := String.join_cons
      rw [Outcome.messages, last, String.append_empty]
      exact String.append_empty
  | aborted a => exact String.empty_append
  | rejected | completed value => rfl

/-- The exit code and what is written tell the ends of runs apart. -/
theorem reflects_of_concluded {r : EStateM.Result Exit Machine (Option Value)} {a : Answer}
    (caught : Session.concluded r ≠ .aborted .strayReturn)
    (formed : Session.concluded r ≠ .aborted .illFormed)
    (ends : Session.concluded r ≠ .aborted .endless)
    (code : a.code = exitCode (Session.concluded r))
    (output : a.output = lined (Session.left r).world.printed.toList)
    (errors : a.errors = obituary (Session.concluded r)) : Reflects r a := by
  cases r with
  | ok value m =>
      have zero : a.code = 0 := code
      constructor
      case codes | failed | unbound | completed => simp [zero]
      case printed => exact output
      case fault => rintro f m ⟨⟩
      case overflow => rintro m ⟨⟩
      case quiet => exact fun _ _ _ => errors
  | error e m =>
      cases e with
      | returned v => exact absurd rfl caught
      | fault f =>
          have failed : a.code = 70 := code
          constructor
          case codes | failed | unbound | completed => simp [failed]
          case printed => exact output
          case fault =>
            rintro f m ⟨⟩
            simp [errors, Session.concluded, obituary, Fault.text, String.append_assoc]
          case overflow => rintro m ⟨⟩
          case quiet => rintro value m ⟨⟩
      | unbound u =>
          have refused : a.code = 2 := code
          constructor
          case codes | failed | unbound | completed => simp [refused]
          case printed => exact output
          case fault => rintro f m ⟨⟩
          case overflow => rintro m ⟨⟩
          case quiet => rintro value m ⟨⟩
      | overflow =>
          have failed : a.code = 70 := code
          constructor
          case codes | failed | unbound | completed => simp [failed]
          case printed => exact output
          case fault => rintro f m ⟨⟩
          case overflow => exact fun _ _ => errors
          case quiet => rintro value m ⟨⟩
      | endless => exact absurd rfl ends
      | illFormed => exact absurd rfl formed

/-- A source that is accepted is answered with what its run came to. -/
theorem reflects_run {limits : Limits} {now : Clock} (ends : Session.Ends limits now source)
    (quiet : complaints source = []) : Reflects (Session.programRun limits now source)
      (runScript limits now ⟨false, false⟩ false source) := by
  have accepted : Accepted source := accepted_iff_complaints.mpr quiet
  have runs : (Session.start now).Runs source := ⟨rfl, accepted⟩
  obtain ⟨caught, formed⟩ := Session.programRun_documented limits now accepted
  have outcome : (Session.run limits ⟨false, false⟩ (Session.start now) source).outcome =
      Session.concluded (Session.programRun limits now source) :=
    (Session.run_of_runs runs limits _).2.trans (Session.execute_eq limits _ _).1
  refine reflects_of_concluded caught formed (ends quiet) ?_ ?_ ?_
  · rw [runScript_eq, outcome]
  · rw [runScript_eq, outcome, Answer.output_append, output_lastWords, opening,
      Answer.output_chunks, List.filterMap_cons_none rfl, Session.run_lines runs]
    exact String.append_empty
  · rw [runScript_eq, outcome, Answer.errors_append, opening, Answer.errors_chunks,
      List.filterMap_cons_none rfl, Session.run_messages runs]
    exact errors_lastWords _ _

theorem classified_runScript {limits : Limits} {now : Clock}
    (ends : Session.Ends limits now source) :
    Classified limits now source (runScript limits now ⟨false, false⟩ false source) := by
  by_cases quiet : complaints source = []
  · have reflects := reflects_run ends quiet
    have codes := reflects.codes
    exact ⟨.inr codes, iff_of_false (by omega) (· quiet), (absurd quiet ·), fun _ => reflects⟩
  · exact classified_rejected limits now quiet

/-- The answer to a script without options, once its file is found and is text, tells what became
of it, as long as its run ends. -/
theorem script_classified (limits : Limits) (now : Clock) {file? : String → Option ByteArray}
    (input : String) {arguments : List String} {path text : String} {bytes : ByteArray}
    (asked : parse arguments = .script path false false false) (found : file? path = some bytes)
    (decoded : String.fromUTF8? bytes = some text)
    (ends : Session.Ends limits now (String.ofList (normalizeNewlines text.toList))) :
    ∃ a, answer limits now file? input arguments = some a ∧
      Classified limits now (String.ofList (normalizeNewlines text.toList)) a := by
  have source : decode bytes = some (String.ofList (normalizeNewlines text.toList)) := by
    rw [decode, decoded, Option.map_some]
  refine ⟨_, ?_, classified_runScript ends⟩
  rw [answer, asked]
  simp only [found, source, Option.map_some]

/-- A script with the line ends of another system, which fails in its second line. -/
theorem script_classified_fault :
    let script := "print nil;\r\nprint nil + true;"
    let file? := fun path => if path = "a.lox" then some script.toUTF8 else none
    let source := String.ofList (normalizeNewlines script.toList)
    parse ["a.lox"] = .script "a.lox" false false false ∧ file? "a.lox" = some script.toUTF8 ∧
      String.fromUTF8? script.toUTF8 = some script ∧ Session.Ends ⟨9, 9⟩ 0 source ∧
      ∃ a, answer ⟨9, 9⟩ 0 file? "" ["a.lox"] = some a ∧ Classified ⟨9, 9⟩ 0 source a := by
  intro script file? source
  have asked : parse ["a.lox"] = .script "a.lox" false false false := by decide
  have decoded : String.fromUTF8? script.toUTF8 = some script := by decide +kernel
  have ends : Session.Ends ⟨9, 9⟩ 0 source := by
    intro _ endless
    have failed : exitCode (Session.concluded (Session.programRun ⟨9, 9⟩ 0 source)) = 70 := by
      decide +kernel
    rw [endless] at failed
    cases failed
  exact ⟨asked, if_pos rfl, decoded, ends,
    script_classified ⟨9, 9⟩ 0 "" asked (if_pos rfl) decoded ends⟩

end CommandLine
end LoxLang
