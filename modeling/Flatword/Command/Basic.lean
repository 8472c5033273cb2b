import Flatword.Command.Argument

/-!
# Commands

`generate` compiles a program, `config` prints options. A command line that fits neither stops
with a hint at its usage.
-/

namespace Flatword

/-- What to generate, from what, and where to. -/
structure GenerateRequest where
  input : String
  output : Option String := none
  /-- A file with the options to start from. -/
  options : Option String := none
  /-- Pragmas to apply after those of the program. -/
  pragmas : List String := []
  /-- Whether the memory table is shown. -/
  memoryMap : Bool := false
  /-- Accepted for callers that ask for progress messages, of which there are none. -/
  verbose : Bool := false
  deriving DecidableEq, Repr

inductive Command where
  | generate (request : GenerateRequest)
  | config (input : Option String)
  deriving DecidableEq, Repr

namespace Command

/-- Why a command line leads to no command. -/
inductive Stop where
  | usage
  | help
  | version
  deriving DecidableEq, Repr

def topSwitches : List Switch :=
  [{ name := "help", letter := some 'h' }, { name := "version", letter := some 'V' }]

def generateSwitches : List Switch :=
  [{ name := "output", letter := some 'o', takesValue := true },
    { name := "config", letter := some 'c', takesValue := true },
    { name := "pragma", takesValue := true },
    { name := "memory-map" },
    { name := "verbose", letter := some 'v' },
    { name := "help", letter := some 'h' }]

def configSwitches : List Switch :=
  [{ name := "input", letter := some 'i', takesValue := true },
    { name := "help", letter := some 'h' }]

/-- A path that may be given once, and not as an empty text. -/
def setPath (before : Option String) (path : String) : Except Stop (Option String) :=
  if before.isNone ∧ path ≠ "" then .ok (some path) else .error .usage

/-- A flag that may be given once. -/
def setFlag (before : Bool) : Except Stop Bool :=
  if before then .error .usage else .ok true

/-- What has been read of a request, which has no input as long as `input` is `none`. -/
structure Draft where
  input : Option String := none
  request : GenerateRequest := { input := "" }

/-- Take in one argument of `generate`. -/
def Draft.add (d : Draft) : Argument → Except Stop Draft
  | .operand path => do return { d with input := ← setPath d.input path }
  | .setting "output" path => do
    return { d with request.output := ← setPath d.request.output path }
  | .setting "config" path => do
    return { d with request.options := ← setPath d.request.options path }
  | .setting "pragma" text =>
    .ok { d with request.pragmas := d.request.pragmas ++ [text] }
  | .flag "memory-map" => do return { d with request.memoryMap := ← setFlag d.request.memoryMap }
  | .flag "verbose" => do return { d with request.verbose := ← setFlag d.request.verbose }
  | .flag "help" => .error .help
  | _ => .error .usage

def parseGenerate (args : List String) : Except Stop Command := do
  let draft ← (Argument.scan generateSwitches none args).foldlM Draft.add {}
  match draft.input with
  | some input => return .generate { draft.request with input }
  | none => .error .usage

/-- Take in one argument of `config`. -/
def addConfig (input : Option String) : Argument → Except Stop (Option String)
  | .setting "input" path => setPath input path
  | .flag "help" => .error .help
  | _ => .error .usage

def parseConfig (args : List String) : Except Stop Command := do
  return .config (← (Argument.scan configSwitches none args).foldlM addConfig none)

/-- Why to stop at an argument before the name of a command. -/
def stopAt (text : String) : Stop :=
  match (Argument.readText topSwitches text).1 with
  | .flag "version" :: _ => .version
  | .flag "help" :: _ => .help
  | _ => .usage

/-- Why to stop at a call for help, which may name one command. -/
def stopForHelp : List String → Stop
  | [] => .help
  | [topic] => if topic ∈ ["generate", "config", "help"] then .help else .usage
  | _ => .usage

/-- Read a command line. -/
def parse : List String → Except Stop Command
  | [] => .error .usage
  | "generate" :: args => parseGenerate args
  | "config" :: args => parseConfig args
  | "help" :: args => .error (stopForHelp args)
  | text :: _ => .error (stopAt text)

/-- The forms of the command line. -/
def usage : String :=
  "Usage: scc generate INPUT [-o|--output FILE] [-c|--config FILE] [--pragma NAME=VALUE]... " ++
    "[--memory-map] [-v|--verbose]\n" ++
  "       scc config [-i|--input FILE]\n" ++
  "       scc --version\n"

def versionText : String :=
  "scc 0.1.0\n"

end Command

end Flatword
