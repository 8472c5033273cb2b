/-!
# Source locations
-/

namespace Flatword

/-- A source line, counted from one; zero stands for no line. -/
abbrev Line := UInt32

/-- A source line with a column; column zero means that the column is not known. -/
structure Location where
  line : Line
  column : UInt32 := 0
  deriving DecidableEq, Repr, Inhabited

namespace Location

/-- The location of things that have no place in the source. -/
def nowhere : Location := { line := 0 }

def atLine (line : Line) : Location := { line }

/-- `line`, or `line:column` where the column is known. -/
def text (l : Location) : String :=
  if l.column = 0 then toString l.line else s!"{l.line}:{l.column}"

end Location

end Flatword
