import Flatword.Json.Lexeme

/-!
# Reading JSON text

A text is read from its lexemes with a stack of the arrays and objects that are still open, so
that nothing bounds how deep they are nested.
-/

namespace Flatword.Json

/-- An array or object of which a value is still to come; what it has so far is last first. -/
inductive Frame where
  | items (done : List Json)
  | entries (done : List (Option String × Json)) (key : Option String)
  deriving Repr

/-- The value of a text. -/
def ofText : Option String → Json
  | some s => .str s
  | none => .unreadable

/-- The object of some entries; a key without a value spoils it. -/
def ofEntries (entries : List (Option String × Json)) : Json :=
  match entries.mapM fun (key, value) => key.map fun key => (key, value) with
  | some entries => .obj entries
  | none => .unreadable

/-- The value that some lexemes make up, where `last` is a value that has just ended. -/
def assemble : List Frame → (last : Option Json) → List Lexeme → Option Json
  | [], some v, [] => some v
  | .items done :: stack, some v, .comma :: rest => assemble (.items (v :: done) :: stack) none rest
  | .items done :: stack, some v, .closeArray :: rest =>
    assemble stack (some (.arr (v :: done).reverse)) rest
  | .entries done key :: stack, some v, .comma :: .text next :: .colon :: rest =>
    assemble (.entries ((key, v) :: done) next :: stack) none rest
  | .entries done key :: stack, some v, .closeObject :: rest =>
    assemble stack (some (ofEntries ((key, v) :: done).reverse)) rest
  | stack, none, .scalar v :: rest => assemble stack (some v) rest
  | stack, none, .text value :: rest => assemble stack (some (ofText value)) rest
  | stack, none, .openArray :: .closeArray :: rest => assemble stack (some (.arr [])) rest
  | stack, none, .openArray :: rest => assemble (.items [] :: stack) none rest
  | stack, none, .openObject :: .closeObject :: rest => assemble stack (some (.obj [])) rest
  | stack, none, .openObject :: .text key :: .colon :: rest =>
    assemble (.entries [] key :: stack) none rest
  | _, _, _ => none

/-- Read a text that holds one value and nothing else but blanks. -/
def parse? (text : String) : Option Json :=
  (Lexeme.ofText? text).bind (assemble [] none)

end Flatword.Json
