import Flatword.Json.Value
import Flatword.Numeral

/-!
# Writing JSON text

One form on a single line, and one with a line for each item, indented by two blanks a level.
-/

namespace Flatword.Json

/-- A character inside a string. Only quotes, backslashes and control characters are escaped. -/
def escaped (c : Char) : List Char :=
  match c with
  | '"' => ['\\', '"']
  | '\\' => ['\\', '\\']
  | '\n' => ['\\', 'n']
  | '\r' => ['\\', 'r']
  | '\t' => ['\\', 't']
  | '\x08' => ['\\', 'b']
  | '\x0c' => ['\\', 'f']
  | _ =>
    if c.toNat < 0x20 then
      ['\\', 'u'] ++ (Numeral.fixedDigits 16 4 c.toNat).map Numeral.digitChar
    else [c]

def quoted (s : String) : String :=
  "\"" ++ String.ofList (s.toList.flatMap escaped) ++ "\""

/-- Values that stand on one line in either form. What is unreadable is written as `null`. -/
def scalarText : Json → String
  | null | unreadable => "null"
  | bool b => if b then "true" else "false"
  | int n => toString n
  | real literal => literal
  | str s => quoted s
  | arr _ => "[]"
  | obj _ => "\x7b\x7d"

mutual

def compact : Json → String
  | arr items => "[" ++ ",".intercalate (compactItems items) ++ "]"
  | obj entries => "\x7b" ++ ",".intercalate (compactEntries entries) ++ "\x7d"
  | j => j.scalarText

def compactItems : List Json → List String
  | [] => []
  | item :: rest => item.compact :: compactItems rest

def compactEntries : List (String × Json) → List String
  | [] => []
  | (key, value) :: rest => (quoted key ++ ":" ++ value.compact) :: compactEntries rest

end

/-- The start of a line at a level. -/
def newline (level : Nat) : String :=
  "\n" ++ String.ofList (List.replicate (2 * level) ' ')

/-- Parts between two brackets, each on a line of its own. -/
def block (opening closing : String) (level : Nat) (parts : List String) : String :=
  opening ++ newline (level + 1) ++ ("," ++ newline (level + 1)).intercalate parts
    ++ newline level ++ closing

mutual

/-- The form with a line for each item, for a value that starts at a level. -/
def pretty (level : Nat) : Json → String
  | arr (item :: rest) => block "[" "]" level (prettyItems (level + 1) (item :: rest))
  | obj (entry :: rest) => block "\x7b" "\x7d" level (prettyEntries (level + 1) (entry :: rest))
  | j => j.scalarText

def prettyItems (level : Nat) : List Json → List String
  | [] => []
  | item :: rest => item.pretty level :: prettyItems level rest

def prettyEntries (level : Nat) : List (String × Json) → List String
  | [] => []
  | (key, value) :: rest => (quoted key ++ ": " ++ value.pretty level) :: prettyEntries level rest

end

end Flatword.Json
