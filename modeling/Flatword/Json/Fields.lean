import Flatword.Json.Value
import Flatword.Location

/-!
# Records as JSON

A record is an object, whose unknown keys do not matter and whose known keys occur once at most,
or an array that lists the fields in their order and may stop early. A record of several forms
names its form in the key `type`, or in the first place of the array. What stands inside such a
record may be spelt more loosely than what stands outside.
-/

namespace Flatword.Json

/-- How forms may be given. -/
inductive Spelling where
  /-- By name. A form without fields may also be an object with the value `null` at its name. -/
  | strict
  /-- Also by number, or, without fields, as an object with an empty object at its name. -/
  | loose
  deriving DecidableEq, Repr

/-- A number without sign as JSON. -/
def ofNat (n : Nat) : Json := .int n

/-- A line number as JSON. -/
def ofLine (line : Line) : Json := .ofNat line.toNat

/-- A value that may be missing as JSON. -/
def ofOption {α : Type} (write : α → Json) : Option α → Json
  | none => .null
  | some a => write a

def bool? : Json → Option Bool
  | bool b => some b
  | _ => none

def str? : Json → Option String
  | str s => some s
  | _ => none

/-- A natural number below a limit. -/
def nat? (limit : Nat) : Json → Option Nat
  | int (.ofNat n) => if n < limit then some n else none
  | _ => none

def uint32? (j : Json) : Option UInt32 :=
  (j.nat? UInt32.size).map UInt32.ofNat

def list? {α : Type} (read : Json → Option α) : Json → Option (List α)
  | arr items => items.mapM read
  | _ => none

/-- The name of a form without fields. -/
def case? : Spelling → Json → Option String
  | _, str s => some s
  | _, obj [(key, null)] => some key
  | .loose, obj [(key, obj [])] => some key
  | _, _ => none

/-- A form without fields, by its name in a table. -/
def caseIn? {α : Type} (table : List (String × α)) (spelling : Spelling) (j : Json) : Option α :=
  (j.case? spelling).bind fun name => table.lookup name

/-- The fields of a record, each if it is there. -/
def fields? (keys : List String) : Json → Option (List (Option Json))
  | obj entries => keys.mapM fun key =>
    match valuesOf entries key with
    | [] => some none
    | [value] => some (some value)
    | _ => none
  | arr items =>
    if items.length ≤ keys.length then
      some (items.map some ++ List.replicate (keys.length - items.length) none)
    else none
  | _ => none

/-- The name of a form with fields, where `names` has the names of all forms in their order. -/
def formName? (names : List String) : Spelling → Json → Option String
  | _, str name => some name
  | .loose, int (.ofNat n) => names[n]?
  | _, _ => none

/-- The form that a record names, and the record to read its fields from. -/
def form? (names : List String) (spelling : Spelling) : Json → Option (String × Json)
  | obj entries =>
    match valuesOf entries "type" with
    | [tag] => (formName? names spelling tag).map fun name => (name, obj entries)
    | _ => none
  | arr (tag :: rest) => (formName? names spelling tag).map fun name => (name, arr rest)
  | _ => none

/-- Read a value only if it is nested at most `depth` deep and has nothing unreadable in it. -/
def within {α : Type} (depth : Nat) (read : Json → Option α) (j : Json) : Option α :=
  if j.fits depth then read j else none

/-- A field that must be there. -/
def required {α : Type} (read : Json → Option α) : Option Json → Option α
  | some j => read j
  | none => none

/-- A field that has a value when it is absent. -/
def withDefault {α : Type} (absent : α) (read : Json → Option α) : Option Json → Option α
  | some j => read j
  | none => some absent

/-- A field that may be absent or `null`. -/
def optional {α : Type} (read : Json → Option α) : Option Json → Option (Option α)
  | none | some null => some none
  | some j => (read j).map some

end Flatword.Json
