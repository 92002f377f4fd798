import LoxLang.CommandLine.Arguments
import LoxLang.Session
import LoxLang.Text.Blank
/-! What the command line writes and with which code it ends: for scripts, and line by line in
the interactive mode. -/
namespace LoxLang.CommandLine

/-- Text for one of the two output streams. -/
inductive Chunk where
  | out (text : String)
  | err (text : String)
deriving DecidableEq

/-- All that is written, and the exit code. -/
structure Answer where
  chunks : List Chunk
  code : Nat

def Answer.output (a : Answer) : String :=
  String.join (a.chunks.filterMap fun c => match c with | .out t => some t | .err _ => none)

def Answer.errors (a : Answer) : String :=
  String.join (a.chunks.filterMap fun c => match c with | .err t => some t | .out _ => none)

namespace ExitCode

def success : Nat := 0
/-- The command line is refused, or the program and its addresses disagree. -/
def refused : Nat := 2
/-- The source is rejected. -/
def rejected : Nat := 65
/-- There is no such script. -/
def noScript : Nat := 66
/-- The run fails. -/
def failed : Nat := 70

end ExitCode

def versionText : String := "lox 0.1.0"

def usageText : String :=
  "usage: lox [-h] [--tokens] [--ast] [--verbose] [--repl] [--version] [file]\n"

def helpText : String :=
  usageText ++
  "\nTree-walking interpreter for the Lox scripting language\n" ++
  "\npositional arguments:\n" ++
  "  file           Script to execute\n" ++
  "\noptions:\n" ++
  "  -h, --help     show this help message and exit\n" ++
  "  --tokens       Print the token stream before running\n" ++
  "  --ast          Print the syntax tree before running\n" ++
  "  --verbose, -v  Debug logging to stderr\n" ++
  "  --repl         Force REPL mode\n" ++
  "  --version      show program's version number and exit\n"

def overflowText : String := "[lox] Fatal: stack overflow (recursion too deep).\n"

end CommandLine

/-- What is said about a run that is broken off for other reasons than its depth. -/
def Abort.message : Abort → String
  | unbound u => u.message
  | overflow => "calls nest too deep"
  | endless => "a loop takes too many rounds"
  | strayReturn => "a return outside of any call"
  | illFormed => "a reference to nothing"
  | overdrawn => "pop from empty list"

namespace CommandLine

/-- What an event writes. Remarks are written only on demand. -/
def chunk? (verbose : Bool) : Event → Option Chunk
  | .output line => some (.out (line ++ "\n"))
  | .message text => some (.err (text ++ "\n"))
  | .remark r => if verbose then some (.err ("[lox] DEBUG " ++ r.text ++ "\n")) else none

def chunks (verbose : Bool) (events : List Event) : List Chunk := events.filterMap (chunk? verbose)

/-- The remark with which every session starts. -/
def opening : Event := .remark (.registered "clock" 0)

/-- What a run that is broken off writes, given how other reasons than depth are introduced. -/
def abortText (intro : String) : Abort → String
  | .overflow => overflowText
  | a => intro ++ a.message ++ "\n"

/-- The exit code of a script that ran to its end, or was rejected or failed. -/
def reporterCode (r : Reporter) : Nat :=
  if r.hadError then ExitCode.rejected
  else if r.hadFault then ExitCode.failed
  else ExitCode.success

/-- Runs a script in a new session. -/
def runScript (limits : Limits) (now : Clock) (flags : Flags) (verbose : Bool) (source : String) :
    Answer :=
  let result := (Session.start now).run limits flags source
  let written := chunks verbose (opening :: result.events)
  match result.outcome with
  | .aborted a =>
    let code := match a with
      | .overflow => ExitCode.failed
      | _ => ExitCode.refused
    ⟨written ++ [.err (abortText "[lox] Internal Error: " a)], code⟩
  | _ => ⟨written, reporterCode result.session.reporter⟩

/-- Line ends in the file, whichever of the three usual ones, become newlines. -/
def normalizeNewlines : List Char → List Char
  | [] => []
  | '\r' :: '\n' :: rest => '\n' :: normalizeNewlines rest
  | '\r' :: rest => '\n' :: normalizeNewlines rest
  | c :: rest => c :: normalizeNewlines rest

/-- The source in a file, unless its bytes are no text. -/
def decode (bytes : ByteArray) : Option String :=
  (String.fromUTF8? bytes).map fun s => String.ofList (normalizeNewlines s.toList)

def missing (path : String) : Answer :=
  ⟨[.err ("[lox] File not found: " ++ path ++ "\n")], ExitCode.noScript⟩

def refusal (e : UsageError) : Answer :=
  ⟨[.err (usageText ++ "lox: error: " ++ e.message ++ "\n")], ExitCode.refused⟩

/-- The state of the interactive mode. -/
structure Interaction where
  session : Session
  flags : Flags
  verbose : Bool

namespace Interaction

def start (now : Clock) (flags : Flags) (verbose : Bool) : Interaction :=
  ⟨Session.start now, flags, verbose⟩

/-- The interaction with its clock set. -/
def setClock (now : Clock) (i : Interaction) : Interaction :=
  let m := i.session.machine
  { i with session.machine := { m with world := { m.world with clock := now } } }

/-- What is written before the first line is read. -/
def banner (verbose : Bool) : List Chunk :=
  [.out (versionText ++ "\nType 'exit' or press Ctrl-D to quit.\n\n")] ++ chunks verbose [opening]

def prompt : Chunk := .out "> "

/-- What is written where the input ends. -/
def farewell : Chunk := .out "\n"

/-- The value of a line is shown unless it is `nil`. -/
def echo (h : Heap) : Outcome → List Chunk
  | .completed (some .nil) => []
  | .completed (some v) => [.out ("=> " ++ h.display v ++ "\n")]
  | .aborted a => [.err (abortText "[Internal Error] " a)]
  | _ => []

/-- What one line of input writes and leaves; nothing is left after the last one. A rejected
line does not keep later ones from running. -/
def line (limits : Limits) (i : Interaction) (input : String) : List Chunk × Option Interaction :=
  let command := Text.trim input
  if command = "" then ([], some i)
  else if command = "exit" ∨ command = "quit" then ([], none)
  else
    let result := i.session.run limits i.flags input
    (chunks i.verbose result.events ++ echo result.session.machine.heap result.outcome,
      some { i with session := result.session.reset })

/-- Everything written for lines of input, each behind a prompt. -/
def lines (limits : Limits) (i : Interaction) : List String → List Chunk
  | [] => [prompt, farewell]
  | input :: rest =>
    let (written, next) := i.line limits input
    prompt :: written ++ match next with
      | some i => lines limits i rest
      | none => []

end Interaction

/-- The lines of an input; what follows the last newline is a line unless it is empty. -/
def inputLines (input : String) : List String :=
  let parts := input.splitOn "\n"
  if parts.getLast? = some "" then parts.dropLast else parts

/-- The interactive mode on a whole input. -/
def interact (limits : Limits) (now : Clock) (flags : Flags) (verbose : Bool) (input : String) :
    Answer :=
  let i := Interaction.start now flags verbose
  ⟨Interaction.banner verbose ++ i.lines limits (inputLines input), ExitCode.success⟩

/-- The program on given arguments, files and input. Without an answer the script is no text. -/
def answer (limits : Limits) (now : Clock) (file? : String → Option ByteArray) (input : String)
    (arguments : List String) : Option Answer :=
  match parse arguments with
  | .help => some ⟨[.out helpText], ExitCode.success⟩
  | .version => some ⟨[.out (versionText ++ "\n")], ExitCode.success⟩
  | .invalid e => some (refusal e)
  | .interactive tokens tree verbose => some (interact limits now ⟨tokens, tree⟩ verbose input)
  | .script path tokens tree verbose =>
    match file? path with
    | none => some (missing path)
    | some bytes => (decode bytes).map (runScript limits now ⟨tokens, tree⟩ verbose)

end CommandLine
end LoxLang
