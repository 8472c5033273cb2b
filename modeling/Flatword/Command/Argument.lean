/-!
# Arguments of a command line

A switch is written `--name` or, by its letter, `-n`; letters may be joined as in `-ab`. The value
of a switch follows as `--name=value`, `-nvalue`, `-n=value` or as the next argument. After `--`
every argument is an operand, and so is `-` alone.
-/

namespace Flatword.Command

/-- A switch that a command knows. -/
structure Switch where
  name : String
  letter : Option Char := none
  takesValue : Bool := false
  deriving DecidableEq, Repr

/-- What an argument says. -/
inductive Argument where
  | operand (text : String)
  | flag (name : String)
  | setting (name value : String)
  /-- A switch that is not known, has no value, or has one that it does not take. -/
  | unknown
  deriving DecidableEq, Repr

namespace Argument

/-- The arguments said by one text, and the switch whose value is still to come. -/
abbrev Reading := List Argument × Option String

/-- The letters of joined switches. -/
def readLetters (switches : List Switch) : List Char → Reading
  | [] => ([], none)
  | c :: rest =>
    match switches.find? (·.letter = some c) with
    | none => ([unknown], none)
    | some s =>
      if s.takesValue then
        match rest with
        | [] => ([], some s.name)
        | '=' :: value => ([setting s.name (String.ofList value)], none)
        | value => ([setting s.name (String.ofList value)], none)
      else
        let (said, pending) := readLetters switches rest
        (flag s.name :: said, pending)

/-- A switch by its name, with what stands after the first equals sign. -/
def readName (switches : List Switch) (text : List Char) : Reading :=
  let name := String.ofList (text.takeWhile (· ≠ '='))
  match switches.find? (·.name = name), text.dropWhile (· ≠ '=') with
  | none, _ => ([unknown], none)
  | some s, [] => if s.takesValue then ([], some s.name) else ([flag s.name], none)
  | some s, _ :: value =>
    if s.takesValue then ([setting s.name (String.ofList value)], none) else ([unknown], none)

/-- What one text says where no value is awaited. -/
def readText (switches : List Switch) (text : String) : Reading :=
  match text.toList with
  | '-' :: '-' :: name => readName switches name
  | '-' :: c :: letters => readLetters switches (c :: letters)
  | _ => ([operand text], none)

/-- Whether a text can not be the value of the switch before it. -/
def looksLikeSwitch (text : String) : Bool :=
  match text.toList with
  | '-' :: _ :: _ => true
  | _ => false

/-- Read arguments; `pending` is the switch whose value is awaited. -/
def scan (switches : List Switch) : (pending : Option String) → List String → List Argument
  | none, [] => []
  | some _, [] => [unknown]
  | some name, text :: rest =>
    if looksLikeSwitch text then [unknown] else setting name text :: scan switches none rest
  | none, text :: rest =>
    if text = "--" then rest.map operand
    else
      let (said, pending) := readText switches text
      said ++ scan switches pending rest

end Argument

end Flatword.Command
