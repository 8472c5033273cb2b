/-!
# JSON values

Objects keep their entries in order, and keep entries of the same key apart. Integers are told
from other numbers, of which only a literal is kept.
-/

namespace Flatword

inductive Json where
  | null
  | bool (b : Bool)
  | int (n : Int)
  | real (literal : String)
  | str (s : String)
  | arr (items : List Json)
  | obj (entries : List (String × Json))
  /-- What is well formed as a text and has no value: a number that is too large, a text with half
  of a surrogate pair, an object with such a text as a key. -/
  | unreadable
  deriving Repr, Inhabited

namespace Json

mutual

/-- How deep arrays and objects are nested; other values have depth zero. -/
def depth : Json → Nat
  | arr items => depthItems items + 1
  | obj entries => depthEntries entries + 1
  | _ => 0

def depthItems : List Json → Nat
  | [] => 0
  | item :: rest => max item.depth (depthItems rest)

def depthEntries : List (String × Json) → Nat
  | [] => 0
  | (_, value) :: rest => max value.depth (depthEntries rest)

end

/-- Whether a value is nested at most `depth` deep and nothing inside it is unreadable. -/
def fits : (depth : Nat) → Json → Bool
  | _, unreadable => false
  | 0, arr _ | 0, obj _ => false
  | depth + 1, arr items => items.all (fits depth)
  | depth + 1, obj entries => entries.all fun (_, value) => fits depth value
  | _, _ => true

/-- The values that an object holds under a key, in order. -/
def valuesOf (entries : List (String × Json)) (key : String) : List Json :=
  (entries.filter (·.1 = key)).map (·.2)

/-- The last value that an object holds under a key. -/
def get? (key : String) : Json → Option Json
  | obj entries => (valuesOf entries key).getLast?
  | _ => none

end Json

end Flatword
