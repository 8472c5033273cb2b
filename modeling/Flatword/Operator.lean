/-!
# Operators

The operators of expressions, with the mnemonics of the instructions that carry them out.
-/

namespace Flatword

/-- Arithmetic and bitwise operators. -/
inductive BinaryOp where
  | add | sub | mul | div | mod | bitAnd | bitOr | bitXor | shl | shr
  deriving DecidableEq, Repr

namespace BinaryOp

def all : List BinaryOp :=
  [add, sub, mul, div, mod, bitAnd, bitOr, bitXor, shl, shr]

def name : BinaryOp → String
  | add => "add"
  | sub => "sub"
  | mul => "mul"
  | div => "div"
  | mod => "mod"
  | bitAnd => "bitAnd"
  | bitOr => "bitOr"
  | bitXor => "bitXor"
  | shl => "shl"
  | shr => "shr"

def mnemonic : BinaryOp → String
  | add => "ADD"
  | sub => "SUB"
  | mul => "MUL"
  | div => "DIV"
  | mod => "MOD"
  | bitAnd => "AND"
  | bitOr => "BOR"
  | bitXor => "XOR"
  | shl => "SHL"
  | shr => "SHR"

def isCommutative : BinaryOp → Bool
  | add | mul | bitAnd | bitOr | bitXor => true
  | sub | div | mod | shl | shr => false

end BinaryOp

inductive Comparison where
  | eq | ne | lt | le | gt | ge
  deriving DecidableEq, Repr

namespace Comparison

def all : List Comparison :=
  [eq, ne, lt, le, gt, ge]

def name : Comparison → String
  | eq => "eq"
  | ne => "ne"
  | lt => "lt"
  | le => "le"
  | gt => "gt"
  | ge => "ge"

def mnemonic : Comparison → String
  | eq => "BEQ"
  | ne => "BNE"
  | lt => "BLT"
  | le => "BLE"
  | gt => "BGT"
  | ge => "BGE"

/-- The comparison that holds exactly when this one does not. -/
def negate : Comparison → Comparison
  | eq => ne
  | ne => eq
  | lt => ge
  | ge => lt
  | gt => le
  | le => gt

end Comparison

/-- The operators that evaluate their right side only when the left one has not decided. -/
inductive LogicalOp where
  | and | or
  deriving DecidableEq, Repr

namespace LogicalOp

def all : List LogicalOp :=
  [and, or]

def name : LogicalOp → String
  | and => "and"
  | or => "or"

end LogicalOp

inductive UnaryOp where
  | neg | bitNot | not | deref | addressOf
  /-- The cast that throws a value away. -/
  | castVoid
  deriving DecidableEq, Repr

namespace UnaryOp

def all : List UnaryOp :=
  [neg, bitNot, not, deref, addressOf, castVoid]

def name : UnaryOp → String
  | neg => "neg"
  | bitNot => "bitNot"
  | not => "not"
  | deref => "deref"
  | addressOf => "addressOf"
  | castVoid => "castVoid"

end UnaryOp

end Flatword
