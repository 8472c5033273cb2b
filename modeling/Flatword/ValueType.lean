/-!
# Declared types
-/

namespace Flatword

/-- The declared type of a variable, a member or a function result. -/
inductive ValueType where
  | long | fixed | void | longPtr | fixedPtr | voidPtr | struct | structPtr
  deriving DecidableEq, Repr

namespace ValueType

def all : List ValueType :=
  [long, fixed, void, longPtr, fixedPtr, voidPtr, struct, structPtr]

def name : ValueType → String
  | long => "long"
  | fixed => "fixed"
  | void => "void"
  | longPtr => "long_ptr"
  | fixedPtr => "fixed_ptr"
  | voidPtr => "void_ptr"
  | struct => "struct"
  | structPtr => "struct_ptr"

def isPointer : ValueType → Bool
  | longPtr | fixedPtr | voidPtr | structPtr => true
  | long | fixed | void | struct => false

/-- The type of a pointer to this type; there are no pointers to pointers. -/
def pointer : ValueType → ValueType
  | long => longPtr
  | fixed => fixedPtr
  | void => voidPtr
  | struct => structPtr
  | t => t

/-- The type of what a pointer points to; other types stay. -/
def element : ValueType → ValueType
  | longPtr => long
  | fixedPtr => fixed
  | voidPtr => void
  | structPtr => struct
  | t => t

end ValueType

end Flatword
