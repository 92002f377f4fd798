import LoxLang.CommandLine.Console
/-! The program: reads files, input and the time, writes what the console answers. A script is given
the time at which it starts, a line of input the time at which it was read. -/
open LoxLang LoxLang.CommandLine

namespace LoxLang.CommandLine

def write (cs : List Chunk) : IO Unit := do
  let out ← IO.getStdout
  let err ← IO.getStderr
  for c in cs do
    match c with
    | .out text => out.putStr text
    | .err text => err.putStr text
  out.flush
  err.flush

/-- The seconds since the epoch, as a file bears them that is made now. -/
def epochSeconds : IO Float :=
  IO.FS.withTempFile fun _ path => do
    let made := (← path.metadata).modified
    return .ofInt made.sec + .ofNat made.nsec.toNat / 1e9

/-- Reads and runs lines until the input or the interaction ends. -/
partial def converse (i : Interaction) : IO Unit := do
  write [Interaction.prompt]
  let input ← (← IO.getStdin).getLine
  if input.isEmpty then write [Interaction.farewell]
  else
    let line := if input.endsWith "\n" then (input.dropEnd 1).toString else input
    let (written, next) := (i.setClock (← epochSeconds)).line Limits.standard line
    write written
    match next with
    | some i => converse i
    | none => pure ()

/-- The bytes of a file, if there is such a file. -/
def readScript (path : String) : IO (Option ByteArray) := do
  try
    return some (← IO.FS.readBinFile path)
  catch e =>
    match e with
    | .noFileOrDirectory .. => return none
    | e => throw e

def finish (a : Answer) : IO UInt32 := do
  write a.chunks
  return a.code.toUInt32

end LoxLang.CommandLine

def main (arguments : List String) : IO UInt32 := do
  let now ← epochSeconds
  match parse arguments with
  | .interactive tokens tree verbose =>
    write (Interaction.banner verbose)
    converse (Interaction.start now ⟨tokens, tree⟩ verbose)
    return ExitCode.success.toUInt32
  | .script path _ _ _ =>
    let bytes ← readScript path
    match answer Limits.standard now (fun _ => bytes) "" arguments with
    | some a => finish a
    | none =>
      write [.err ("[lox] Not a text: " ++ path ++ "\n")]
      return 1
  | _ =>
    match answer Limits.standard now (fun _ => none) "" arguments with
    | some a => finish a
    | none => return 1
