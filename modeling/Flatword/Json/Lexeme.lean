import Flatword.Json.Number
import Flatword.Json.Text

/-!
# Lexemes of JSON text

The pieces of a text between which blanks may stand.
-/

namespace Flatword.Json

inductive Lexeme where
  | openArray
  | closeArray
  | openObject
  | closeObject
  | comma
  | colon
  /-- A text, with its value if it has one. -/
  | text (value : Option String)
  /-- A value without parts that is not a text. -/
  | scalar (value : Json)
  deriving Repr

namespace Lexeme

def isBlank (c : Char) : Bool :=
  c = ' ' || c = '\n' || c = '\t' || c = '\r'

/-- The rest of a text that begins with `word`. -/
def word? (word : List Char) (cs : List Char) : Option (List Char) :=
  if word.isPrefixOf cs then some (cs.drop word.length) else none

/-- The lexeme at the front of a text without blanks before it, and what follows it. -/
def next? : List Char → Option (Lexeme × List Char)
  | '[' :: rest => some (openArray, rest)
  | ']' :: rest => some (closeArray, rest)
  | '\x7b' :: rest => some (openObject, rest)
  | '\x7d' :: rest => some (closeObject, rest)
  | ',' :: rest => some (comma, rest)
  | ':' :: rest => some (colon, rest)
  | '"' :: rest => (Text.read? true [] rest).map fun (value, rest) => (text value, rest)
  | 'n' :: rest => (word? ['u', 'l', 'l'] rest).map fun rest => (scalar .null, rest)
  | 't' :: rest => (word? ['r', 'u', 'e'] rest).map fun rest => (scalar (.bool true), rest)
  | 'f' :: rest => (word? ['a', 'l', 's', 'e'] rest).map fun rest => (scalar (.bool false), rest)
  | '-' :: rest => (Number.read? true rest).map fun (value, rest) => (scalar value, rest)
  | rest => (Number.read? false rest).map fun (value, rest) => (scalar value, rest)

/-- The lexemes of a text, after those of `done`, last first. Each takes a character at least. -/
def split? : (fuel : Nat) → (done : List Lexeme) → List Char → Option (List Lexeme)
  | 0, _, _ => none
  | fuel + 1, done, cs =>
    match cs.dropWhile isBlank with
    | [] => some done.reverse
    | c :: rest =>
      match next? (c :: rest) with
      | some (lexeme, rest) => split? fuel (lexeme :: done) rest
      | none => none

/-- The lexemes of a text. -/
def ofText? (text : String) : Option (List Lexeme) :=
  let cs := text.toList
  split? (cs.length + 1) [] cs

end Lexeme

end Flatword.Json
