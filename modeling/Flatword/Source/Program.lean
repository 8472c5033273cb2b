import Flatword.Source.Stmt
import Flatword.ValueType

/-!
# Programs
-/

namespace Flatword

structure Function where
  name : String
  returnType : ValueType
  /-- The declarations of the arguments, as one phrase. -/
  arguments : List Token := []
  body : List Stmt := []
  line : Line
  deriving Repr

structure Pragma where
  name : String
  value : String := ""
  line : Line
  deriving DecidableEq, Repr

/-- A whole program as a parser leaves it. -/
structure Program where
  pragmas : List Pragma := []
  main : List Stmt := []
  functions : List Function := []
  /-- The source text by lines, for comments in the code. -/
  sourceLines : List String := []
  deriving Repr

namespace Function

/-- Whether a function is declared as `f()` or `f(void)`. -/
def takesNothing (f : Function) : Bool :=
  match f.arguments with
  | [] => true
  | [only] => only.kind = .keyword && only.value = "void"
  | _ => false

end Function

end Flatword
