import Flatword.Command.Basic
import Flatword.Compile
import Flatword.Json.Writer
import Flatword.Memory.Json
import Flatword.Options.Json

/-!
# Running commands

A command is run against any access to files. What it prints is kept apart by stream and given at
the end, with the exit status.
-/

namespace Flatword.Command

/-- Access to files by path; a failure has a reason in words. -/
structure Files (m : Type → Type) where
  read : String → m (Except String String)
  write : String → String → m (Except String Unit)

/-- What a run leaves behind, apart from files. -/
structure Outcome where
  status : UInt32 := 0
  stdout : String := ""
  stderr : String := ""
  deriving DecidableEq, Repr

namespace Outcome

/-- End with an error after what is on the error stream already. -/
def failed (stderr message : String) : Outcome :=
  { status := 1, stderr := stderr ++ s!"Error: {message}\n" }

/-- End on a failure. One that stops the generator has a status of its own. -/
def ofFailure (failure : Failure) : Outcome :=
  if failure.cause.category = .crash then { status := 101, stderr := failure.text ++ "\n" }
  else .failed "" failure.text

end Outcome

/-- The pragma of an argument `name=value`, or of a bare name. -/
def pragmaOf (text : String) : Except String Pragma :=
  let cs := text.toList
  let name := cs.takeWhile (· ≠ '=')
  if name.isEmpty then .error s!"invalid pragma '{text}': expected NAME=VALUE"
  else
    .ok { name := String.ofList name, value := String.ofList ((cs.dropWhile (· ≠ '=')).drop 1),
          line := 0 }

/-- Read a program from a text. -/
def programOf (path text : String) : Except String Program :=
  match Program.ofText? text with
  | some program => .ok program
  | none => .error s!"parsing {path}: the text does not hold a program"

/-- The options in a file, or the standard ones. -/
def loadOptions {m : Type → Type} [Monad m] (files : Files m) :
    Option String → m (Except String Options)
  | none => return .ok {}
  | some path => do
    let loaded : Except Failure Options :=
      match ← files.read path with
      | .ok text => Options.parse text
      | .error reason => .error ⟨.nowhere, .unreadableFile reason⟩
    return loaded.mapError fun failure => s!"loading configuration {path}: {failure.text}"

/-- The program of a request, with the pragmas of the command line after its own. -/
def loadProgram {m : Type → Type} [Monad m] (files : Files m) (request : GenerateRequest) :
    m (Except String Program) := do
  match ← files.read request.input with
  | .error reason => return .error s!"reading {request.input}: {reason}"
  | .ok text =>
    return do
      let program ← programOf request.input text
      let pragmas ← request.pragmas.mapM pragmaOf
      return { program with pragmas := program.pragmas ++ pragmas }

/-- What is written to the error stream about a compiled program. -/
def remarks (memoryMap : Bool) (compiled : Compiled) : String :=
  String.join (compiled.warnings.map fun w => w.text ++ "\n") ++
    if memoryMap then compiled.table.toJson.pretty 0 ++ "\n" else ""

/-- Hand out a compiled program. -/
def deliver {m : Type → Type} [Monad m] (files : Files m) (request : GenerateRequest)
    (compiled : Compiled) : m Outcome := do
  let stderr := remarks request.memoryMap compiled
  let text := compiled.assembly.text
  match request.output with
  | none => return { stdout := text, stderr }
  | some path =>
    match ← files.write path text with
    | .ok () => return { stderr }
    | .error reason => return .failed stderr s!"writing {path}: {reason}"

def runGenerate {m : Type → Type} [Monad m] (files : Files m) (request : GenerateRequest) :
    m Outcome := do
  match ← loadProgram files request with
  | .error message => return .failed "" message
  | .ok program =>
    match ← loadOptions files request.options with
    | .error message => return .failed "" message
    | .ok options =>
      match compile options program with
      | .error failure => return .ofFailure failure
      | .ok compiled => deliver files request compiled

def runConfig {m : Type → Type} [Monad m] (files : Files m) (input : Option String) :
    m Outcome := do
  match ← loadOptions files input with
  | .error message => return .failed "" message
  | .ok options => return { stdout := options.toJson.pretty 0 ++ "\n" }

/-- Run a command line. -/
def run {m : Type → Type} [Monad m] (files : Files m) (args : List String) : m Outcome :=
  match parse args with
  | .ok (.generate request) => runGenerate files request
  | .ok (.config input) => runConfig files input
  | .error .usage => return { status := 2, stderr := usage }
  | .error .help => return { stdout := usage }
  | .error .version => return { stdout := versionText }

end Flatword.Command
