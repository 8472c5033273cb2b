import Flatword.Location

/-!
# Warnings

Findings that do not stop the work. A `Journal` keeps them in the order in which they were raised.
-/

namespace Flatword

structure Warning where
  location : Location
  message : String
  deriving DecidableEq, Repr

namespace Warning

def text (w : Warning) : String :=
  s!"Warning: at line {w.location.text}. {w.message}"

end Warning

/-- Warnings, oldest first. -/
abbrev Journal := List Warning

namespace Journal

def add (j : Journal) (location : Location) (message : String) : Journal :=
  j ++ [⟨location, message⟩]

/-- How many warnings there are, in words. -/
def summary (j : Journal) : String :=
  match List.length j with
  | 0 => "No warnings"
  | 1 => "1 warning"
  | n => s!"{n} warnings"

end Journal

end Flatword
