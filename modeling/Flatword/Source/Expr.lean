import Flatword.Literal.Chars
import Flatword.Literal.Decimal
import Flatword.Operator

/-!
# Expressions

Trees of expressions, each node with its source line. `references` and `lookups` answer which
variables an expression looks at.
-/

namespace Flatword

mutual

inductive Expr where
  | constant (hex : String) (fixed : Bool) (line : Line)
  | lookup (name : String) (path : List Access) (line : Line)
  | call (name : String) (args : List Expr) (line : Line)
  | unary (op : UnaryOp) (operand : Expr) (line : Line)
  | binary (op : BinaryOp) (left right : Expr) (line : Line)
  | compare (op : Comparison) (left right : Expr) (line : Line)
  | logical (op : LogicalOp) (left right : Expr) (line : Line)
  /-- `target = value`, or `target op= value` with an operator. -/
  | assign (op : Option BinaryOp) (target value : Expr) (line : Line)
  /-- An increment or a decrement, before or after the value is taken. -/
  | step (up before : Bool) (target : Expr) (line : Line)

/-- What follows the name of a variable: `[index]`, `.member` or `->member`. -/
inductive Access where
  | index (index : Expr)
  | member (name : String)
  | arrow (name : String)

end

deriving instance Repr for Expr, Access

namespace Expr

def line : Expr → Line
  | constant _ _ line | lookup _ _ line | call _ _ line | unary _ _ line | binary _ _ _ line
  | compare _ _ _ line | logical _ _ _ line | assign _ _ _ line | step _ _ _ line => line

def var (name : String) (line : Line) : Expr :=
  lookup name [] line

def long (value : Word) (line : Line) : Expr :=
  constant (Hex.ofWord value) false line

/-- A decimal literal; with a point it is a fixed-point number. -/
def decimal (text : String) (line : Line) : Except Failure Expr :=
  match Literal.Decimal.read text with
  | .ok number => .ok (constant (Hex.ofWord number.value) number.isFixed line)
  | .error cause => .error (.atLine line cause)

/-- A string or character literal. -/
def string (text : String) (line : Line) : Except Failure Expr :=
  match Literal.encode text with
  | .ok hex => .ok (constant hex false line)
  | .error cause => .error (.atLine line cause)

mutual

/-- Whether the variable `x` is looked up anywhere inside. -/
def references (x : String) : Expr → Bool
  | constant _ _ _ => false
  | lookup name path _ => name == x || pathReferences x path
  | call _ args _ => argsReferences x args
  | unary _ operand _ => operand.references x
  | binary _ left right _ | compare _ left right _ | logical _ left right _ =>
    left.references x || right.references x
  | assign _ target value _ => target.references x || value.references x
  | step _ _ target _ => target.references x

def pathReferences (x : String) : List Access → Bool
  | [] => false
  | .index index :: rest => index.references x || pathReferences x rest
  | .member _ :: rest | .arrow _ :: rest => pathReferences x rest

def argsReferences (x : String) : List Expr → Bool
  | [] => false
  | arg :: rest => arg.references x || argsReferences x rest

end

mutual

/-- Every lookup inside, with what follows the name, in source order. -/
def lookups : Expr → List (String × List Access)
  | constant _ _ _ => []
  | lookup name path _ => (name, path) :: pathLookups path
  | call _ args _ => argsLookups args
  | unary _ operand _ => operand.lookups
  | binary _ left right _ | compare _ left right _ | logical _ left right _ =>
    left.lookups ++ right.lookups
  | assign _ target value _ => target.lookups ++ value.lookups
  | step _ _ target _ => target.lookups

def pathLookups : List Access → List (String × List Access)
  | [] => []
  | .index index :: rest => index.lookups ++ pathLookups rest
  | .member _ :: rest | .arrow _ :: rest => pathLookups rest

def argsLookups : List Expr → List (String × List Access)
  | [] => []
  | arg :: rest => arg.lookups ++ argsLookups rest

end

/-- Whether a lookup of `name` may touch what the target `name path` stores to. Only a lookup of
another member than the one member that the target names is harmless. -/
def pathsMeet : (target looked : List Access) → Bool
  | [.member mine], .member theirs :: _ => mine == theirs
  | _, _ => true

/-- Whether storing to the target early could change the value of the other expression. -/
def conflicts (target value : Expr) : Bool :=
  match target with
  | lookup name path _ =>
    value.lookups.any fun (looked, lookedPath) => looked == name && pathsMeet path lookedPath
  | _ => true

/-- An increment or decrement that stands alone: what it returns is not used, so it may as well
happen before the value is taken. -/
def asStatement : Expr → Expr
  | step up false target line => step up true target line
  | e => e

end Expr

end Flatword
