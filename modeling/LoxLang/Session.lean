import LoxLang.Token.Scan
import LoxLang.Tree.Statement
import LoxLang.Tree.Outline
import LoxLang.Scoping
import LoxLang.Execution
import LoxLang.Reporter
/-! Sessions: one machine and one reporter for any number of source texts. A source is run
only if nothing is wrong with it and nothing was wrong before. -/
namespace LoxLang

/-- What to print before a run: the tokens, and the tree. -/
structure Flags where
  tokens : Bool
  tree : Bool

/-- Remarks on the progress of a session. -/
inductive Remark where
  | registered (name : String) (arity : Nat)
  | scanned (tokens : Nat)
  | parsed (statements : Nat)
  | resolved (references : Nat)
  | failed (line : Nat) (message : String)
deriving DecidableEq

def Remark.text : Remark → String
  | registered name arity => "lox.runtime: registered native " ++ name ++ "/" ++ arity.repr
  | scanned tokens => "lox.driver: scanned " ++ tokens.repr ++ " tokens"
  | parsed statements => "lox.driver: parsed " ++ statements.repr ++ " statements"
  | resolved references => "lox.resolver: resolved " ++ references.repr ++ " local references"
  | failed line message =>
    "lox.runtime: runtime error at line " ++ line.repr ++ ": " ++ message

/-- What a session shows: lines of output, messages, and remarks. -/
inductive Event where
  | output (line : String)
  | message (text : String)
  | remark (r : Remark)
deriving DecidableEq

/-- How a run that is broken off ends. -/
inductive Abort where
  | unbound (u : Unbound)
  | overflow
  | endless
  /-- A `return` that no call catches. -/
  | strayReturn
  | illFormed
  /-- The walk over the program closed a scope where none was open. -/
  | overdrawn

/-- What becomes of a source text. A completed run has the value of its last statement, if
that is an expression. -/
inductive Outcome where
  | rejected
  | completed (value : Option Value)
  | failed (f : Fault)
  | aborted (a : Abort)

structure Session where
  machine : Machine
  reporter : Reporter

/-- What a run leaves behind: the session, the outcome, and all that was shown, in order. -/
structure Session.Result where
  session : Session
  outcome : Outcome
  events : List Event

namespace Session

/-- Makes a routine of the host a global variable. -/
def register (s : Session) (n : Native) : Session :=
  let (id, h) := s.machine.heap.newNative n
  let h := h.define Machine.globals n.name (some (.callable (.native id)))
  { s with machine := { s.machine with heap := h } }

/-- A new session with a clock. -/
def start (now : Clock) : Session := register ⟨.start now, .start⟩ .clock

def reset (s : Session) : Session := { s with reporter := s.reporter.reset }

def messages (ds : List Diagnostic) : List Event := ds.map fun d => .message d.text

/-- The listing of a scan, the end of the source included. -/
def listing (s : Scan) : List String := s.tokens.map Token.listing ++ [endLabel ++ " "]

/-- Runs a program on the machine of a session. -/
def execute (limits : Limits) (s : Session) (program : List (Stmt Address)) : Result :=
  let finish (m : Machine) (reporter : Reporter) (outcome : Outcome) (after : List Event) : Result :=
    ⟨⟨m.flush, reporter⟩, outcome, m.world.printed.toList.map .output ++ after⟩
  match Run.program limits program s.machine with
  | .ok value m => finish m s.reporter (.completed value) []
  | .error exit m =>
    match exit with
    | .fault f =>
      finish m (s.reporter.fault f) (.failed f)
        [.remark (.failed f.line f.message), .message f.text]
    | .returned _ => finish m s.reporter (.aborted .strayReturn) []
    | .unbound u => finish m s.reporter (.aborted (.unbound u)) []
    | .overflow => finish m s.reporter (.aborted .overflow) []
    | .endless => finish m s.reporter (.aborted .endless) []
    | .illFormed => finish m s.reporter (.aborted .illFormed) []

/-- Adds events that came before a result. -/
def Result.after (r : Result) (events : List Event) : Result :=
  { r with events := events ++ r.events }

/-- Resolves a program and runs it if that reports nothing. -/
def resolveAndRun (limits : Limits) (flags : Flags) (s : Session) (program : List RawStmt) :
    Result :=
  let resolution := resolve program
  let issues := resolution.issues.map ScopeIssue.diagnostic
  let reporter := s.reporter.reportAll issues
  let events := messages issues ++ [.remark (.resolved resolution.resolved)]
  if resolution.overdrawn then ⟨{ s with reporter }, .aborted .overdrawn, messages issues⟩
  else if reporter.hadError then ⟨{ s with reporter }, .rejected, events⟩
  else
    let tree := if flags.tree then [.output (programText resolution.program)] else []
    (execute limits { s with reporter } resolution.program).after (events ++ tree)

/-- Runs a source text: tokens, trees, addresses, effects. An error in the first two stages
or in the third keeps the later ones from being entered. -/
def run (limits : Limits) (flags : Flags) (s : Session) (source : String) : Result :=
  let scanned := scan source
  let parsed := parse scanned.tokens
  let issues := parsed.issues.map (Issue.diagnostic scanned.stop.line)
  let reporter := (s.reporter.reportAll scanned.issues).reportAll issues
  let events := messages scanned.issues
    ++ .remark (.scanned (scanned.tokens.length + 1))
    :: (if flags.tokens then (listing scanned).map .output else [])
    ++ messages issues ++ [.remark (.parsed parsed.program.length)]
  if reporter.hadError then ⟨{ s with reporter }, .rejected, events⟩
  else (resolveAndRun limits flags { s with reporter } parsed.program).after events

/-- Whether the global scope is active. -/
def atGlobals (s : Session) : Bool := s.machine.active = Machine.globals

/-- The global variables by name, with their values. -/
def globals (s : Session) : List (String × Option Value) :=
  let entries := ((s.machine.heap.scope? Machine.globals).map fun g => g.bindings.entries).getD []
  entries.mergeSort fun a b => !decide (b.1 < a.1)

end Session
end LoxLang
