import LoxLang.Proofs.Journal.Erasure
import LoxLang.Proofs.Sessions
/-! Diaries of sessions. The journal is kept over all inputs, and after each run a diary has the
nodes in which the run broke off, if it did. -/
namespace LoxLang
namespace Session

/-- A session with the journal of its runs, and the nodes in which the last run broke off. -/
structure Diary where
  session : Session
  journal : Journal
  pending : List Node

namespace Diary

def start (now : Clock) : Diary := ⟨Session.start now, Journal.empty, []⟩

/-- A journaled run of a program on the machine of the session. -/
def journaled (limits : Limits) (d : Diary) (program : List (Stmt Address)) :
    EStateM.Result Exit Situation (Option Value) :=
  Journaled.program limits program ⟨d.session.machine, d.journal, []⟩

/-- What a journaled run leaves behind. -/
def close (d : Diary) (ran : EStateM.Result Exit Situation (Option Value)) : Diary where
  session := ⟨(left ran).machine.flush, told d.session.reporter (concluded ran)⟩
  journal := (left ran).journal
  pending := (left ran).pending

/-- Runs a source text and goes on with the journal. What is rejected is not run. -/
def run (limits : Limits) (flags : Flags) (d : Diary) (text : String) : Diary :=
  if d.session.Runs text then d.close (d.journaled limits (resolve (spelled text)).program)
  else ⟨(Session.run limits flags d.session text).session, d.journal, []⟩

def feed (limits : Limits) (d : Diary) : Input → Diary
  | .source flags text => d.run limits flags text
  | .native n => ⟨d.session.register n, d.journal, []⟩
  | .reset => ⟨d.session.reset, d.journal, []⟩

def feedAll (limits : Limits) (d : Diary) (inputs : List Input) : Diary :=
  inputs.foldl (feed limits) d

/-! The session of a diary is the session. -/

theorem left_struck (r : EStateM.Result Exit Situation (Option Value)) :
    left (Journaled.struck r) = (left r).machine := by
  cases r <;> rfl

theorem concluded_struck (r : EStateM.Result Exit Situation (Option Value)) :
    concluded (Journaled.struck r) = concluded r := by
  cases r with
  | ok v a => rfl
  | error e a => cases e <;> rfl

variable (limits : Limits)

theorem run_session (flags : Flags) (d : Diary) (text : String) :
    (d.run limits flags text).session = (Session.run limits flags d.session text).session := by
  unfold run
  by_cases runs : d.session.Runs text
  · have does := Journaled.program_does limits (resolve (spelled text)).program
      ⟨d.session.machine, d.journal, []⟩
    rw [if_pos runs, (run_of_runs runs limits flags).1, (execute_eq limits d.session _).2, does,
      left_struck, concluded_struck]
    rfl
  · rw [if_neg runs]

/-- A run of the session ends as the journaled run does. -/
theorem run_outcome {d : Diary} {text : String} (runs : d.session.Runs text) (flags : Flags) :
    (Session.run limits flags d.session text).outcome =
      concluded (d.journaled limits (resolve (spelled text)).program) := by
  have does := Journaled.program_does limits (resolve (spelled text)).program
    ⟨d.session.machine, d.journal, []⟩
  rw [(run_of_runs runs limits flags).2, (execute_eq limits d.session _).1, does, concluded_struck]
  rfl

theorem feed_session (d : Diary) (input : Input) :
    (d.feed limits input).session = d.session.feed limits input := by
  cases input with
  | source flags text => exact d.run_session limits flags text
  | native n => rfl
  | reset => rfl

theorem feedAll_session (d : Diary) (inputs : List Input) :
    (d.feedAll limits inputs).session = d.session.feedAll limits inputs := by
  induction inputs generalizing d with
  | nil => rfl
  | cons input rest ih =>
      refine (ih (d.feed limits input)).trans ?_
      rw [feed_session]
      rfl

end Diary
end Session
end LoxLang
