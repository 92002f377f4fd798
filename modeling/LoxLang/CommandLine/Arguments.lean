import LoxLang.Text.Digit
import LoxLang.Text.Quoted
/-! Command lines: options anywhere among the arguments, long options by any prefix that fits
one of them only, short options joined, and one argument that names a script. -/
namespace LoxLang.CommandLine

inductive Switch where
  | help | tokens | tree | verbose | repl | version
deriving DecidableEq

namespace Switch

/-- All spellings, in the order in which messages list them. -/
def spellings : List (String × Switch) :=
  [("-h", help), ("--help", help), ("--tokens", tokens), ("--ast", tree),
   ("--verbose", verbose), ("-v", verbose), ("--repl", repl), ("--version", version)]

/-- The spellings of one option, as messages name it. -/
def title (s : Switch) : String :=
  "/".intercalate ((spellings.filter fun (_, t) => t = s).map Prod.fst)

end Switch

/-- Why a command line is refused. -/
inductive UsageError where
  | ambiguous (argument : String) (candidates : List String)
  | ignoredValue (option : Switch) (value : String)
  | unrecognized (arguments : List String)
deriving DecidableEq

def UsageError.message : UsageError → String
  | ambiguous argument candidates =>
    "ambiguous option: " ++ argument ++ " could match " ++ ", ".intercalate candidates
  | ignoredValue option value =>
    "argument " ++ option.title ++ ": ignored explicit argument " ++ Text.quoted value
  | unrecognized arguments => "unrecognized arguments: " ++ " ".intercalate arguments

/-- An argument by its form. A long option may come with a value after `=`, a short one with
more letters, behind `=` or at once. -/
inductive Word where
  | plain (s : String)
  | long (option : Switch) (value : Option String)
  | short (option : Switch) (letters : Option (List Char))
  | unknown (s : String)
  /-- A double dash, behind which every argument is plain. -/
  | separator
deriving DecidableEq

/-- A dash and digits, perhaps with a point and more digits; a newline may end it. -/
def looksNegative (cs : List Char) : Bool :=
  let body := match cs.reverse with
    | '\n' :: rest => rest.reverse
    | _ => cs
  match body with
  | '-' :: ds =>
    match ds.dropWhile Text.isDigit with
    | [] => !ds.isEmpty
    | '.' :: places => !places.isEmpty && places.all Text.isDigit
    | _ => false
  | _ => false

/-- The part before the first `=`, and the part behind it if there is one. -/
def splitValue (cs : List Char) : List Char × Option (List Char) :=
  match cs.dropWhile (· ≠ '=') with
  | [] => (cs, none)
  | _ :: value => (cs.takeWhile (· ≠ '='), some value)

/-- An argument that starts like an option and is none: a plain one if it looks like a
negative number or contains a space. -/
def unknownWord (s : String) : Word :=
  if looksNegative s.toList || s.toList.contains ' ' then .plain s else .unknown s

/-- The spellings that an argument in long form abbreviates. -/
def candidates (head : List Char) : List (String × Switch) :=
  Switch.spellings.filter fun (spelling, _) => head.isPrefixOf spelling.toList

/-- What follows the first letter of a short option. An `=` in front of it is dropped. -/
def lettersAfter : List Char → Option (List Char)
  | [] => none
  | '=' :: letters => some letters
  | letters => some letters

/-- The form of an argument before any separator. -/
def classify (s : String) : Except UsageError Word :=
  match s.toList with
  | '-' :: '-' :: rest =>
    let (head, value) := splitValue ('-' :: '-' :: rest)
    match Switch.spellings.lookup (String.ofList head) with
    | some option => .ok (.long option (value.map String.ofList))
    | none =>
      match candidates head with
      | [] => .ok (unknownWord s)
      | [(_, option)] => .ok (.long option (value.map String.ofList))
      | many => .error (.ambiguous s (many.map Prod.fst))
  | '-' :: c :: tail =>
    match Switch.spellings.lookup (String.ofList ['-', c]) with
    | some option => .ok (.short option (lettersAfter tail))
    | none => .ok (unknownWord s)
  | _ => .ok (.plain s)

/-- The forms of all arguments. The first ambiguous one is reported before anything else. -/
def classifyAll : List String → Except UsageError (List Word)
  | [] => .ok []
  | s :: rest =>
    if s = "--" then .ok (.separator :: rest.map .plain)
    else do
      let word ← classify s
      let others ← classifyAll rest
      pure (word :: others)

/-- What a command line asks for. -/
inductive Command where
  | help
  | version
  | invalid (e : UsageError)
  | script (path : String) (tokens tree verbose : Bool)
  | interactive (tokens tree verbose : Bool)
deriving DecidableEq

/-- What has been gathered from the arguments so far. -/
structure Settings where
  file : Option String
  given : List Switch
  extras : List String

/-- The options that letters stand for, behind a first option. A letter that stands for none is
refused with all that follows it, as a value of the option before it. -/
def joined (option : Switch) : List Char → Except UsageError (List Switch)
  | [] => .ok [option]
  | c :: rest =>
    match Switch.spellings.lookup (String.ofList ['-', c]) with
    | none => .error (.ignoredValue option (String.ofList (c :: rest)))
    | some next => (option :: ·) <$> joined next rest

/-- The options in a short argument. An `=` with nothing behind it is an empty value. -/
def shortOptions (option : Switch) : Option (List Char) → Except UsageError (List Switch)
  | none => .ok [option]
  | some [] => .error (.ignoredValue option "")
  | some letters => joined option letters

/-- Of options taken in order, the first that shows something and ends the program. -/
def shows : List Switch → Option Command
  | [] => none
  | .help :: _ => some .help
  | .version :: _ => some .version
  | _ :: rest => shows rest

/-- The command that settings amount to. Without a script, or with an empty name for it, or if
asked for, it is the interactive mode. -/
def Settings.command (s : Settings) : Command :=
  if s.extras.isEmpty then
    let tokens := s.given.contains .tokens
    let tree := s.given.contains .tree
    let verbose := s.given.contains .verbose
    match s.file with
    | none => .interactive tokens tree verbose
    | some path =>
      if path.isEmpty || s.given.contains .repl then .interactive tokens tree verbose
      else .script path tokens tree verbose
  else .invalid (.unrecognized s.extras)

def Settings.take (s : Settings) (options : List Switch) : Settings :=
  { s with given := s.given ++ options }

/-- Goes through the arguments in order. The first plain one names the script, and a separator
next to it, or in its place, is dropped. -/
def gather (s : Settings) : List Word → Command
  | [] => s.command
  | .plain a :: rest =>
    match s.file, rest with
    | some _, rest => gather { s with extras := s.extras ++ [a] } rest
    | none, .separator :: rest => gather { s with file := some a } rest
    | none, rest => gather { s with file := some a } rest
  | .separator :: rest =>
    match s.file with
    | some _ => gather { s with extras := s.extras ++ ["--"] } rest
    | none => gather s rest
  | .unknown a :: rest => gather { s with extras := s.extras ++ [a] } rest
  | .long option (some value) :: _ => .invalid (.ignoredValue option value)
  | .long option none :: rest =>
    match shows [option] with
    | some command => command
    | none => gather (s.take [option]) rest
  | .short option letters :: rest =>
    match shortOptions option letters with
    | .error e => .invalid e
    | .ok options =>
      match shows options with
      | some command => command
      | none => gather (s.take options) rest

/-- The command that the arguments of a program ask for. -/
def parse (arguments : List String) : Command :=
  match classifyAll arguments with
  | .error e => .invalid e
  | .ok words => gather ⟨none, [], []⟩ words

end LoxLang.CommandLine
