import Flatword.Memory.Slot

/-!
# Shapes of arrays and structs

An array shape holds the size of each dimension and how many words one step in it skips. A struct
shape lists the members with their slots. A catalog keeps all shapes in the order in which they
were declared.
-/

namespace Flatword

structure ArrayShape where
  name : String
  dimensions : List Word
  /-- The words that one step in each dimension skips. -/
  strides : List Word
  template : Slot
  deriving DecidableEq, Repr

namespace ArrayShape

/-- The words that one step in each dimension skips: the size of an element times the dimensions
to the right. -/
def stridesOf (size : Word) : List Word → List Word
  | [] => []
  | _ :: rest => rest.foldr (fun d words => words * d) size :: stridesOf size rest

/-- The words of all elements, multiplied up from the last dimension, unless a product on the way is
too large for a word. -/
def words? (size : Nat) : List Word → Option Nat
  | [] => (some size).filter (· < wordLimit)
  | d :: rest => ((words? size rest).map (· * d.toNat)).filter (· < wordLimit)

/-- The shape of an array with this header, whose size is that of an element. -/
def ofHeader (header : Slot) (dimensions : List Word) : ArrayShape where
  name := header.shape.getD ""
  dimensions := dimensions
  strides := stridesOf (UInt64.ofNat header.size) dimensions
  template := header

/-- The shape of an array, if all products that make its strides fit a word. -/
def ofHeader? (header : Slot) (dimensions : List Word) : Option ArrayShape :=
  (words? header.size dimensions).map fun _ => ofHeader header dimensions

end ArrayShape

structure StructShape where
  name : String
  members : List Slot
  template : Slot
  deriving DecidableEq, Repr

namespace StructShape

/-- The first member of this name among `members`, with its distance in words when the first of
them is `offset` words from the start. -/
def findMember? (name : String) : (offset : Nat) → (members : List Slot) → Option (Nat × Slot)
  | _, [] => none
  | offset, m :: rest =>
    if m.name = name then some (offset, m) else findMember? name (offset + m.kind.width) rest

/-- A member by its name, with its distance in words from the start of the struct. -/
def member? (s : StructShape) (name : String) : Option (Nat × Slot) :=
  findMember? name 0 s.members

end StructShape

inductive Shape where
  | array (shape : ArrayShape)
  | struct (shape : StructShape)
  deriving DecidableEq, Repr

/-- Every shape declared so far, oldest first. -/
abbrev Catalog := List Shape

namespace Catalog

/-- The first array shape of this name. -/
def findArray? (c : Catalog) (name : String) : Option ArrayShape :=
  List.findSome? (fun
    | .array shape => if shape.name = name then some shape else none
    | .struct _ => none) c

def findStructExact? (c : Catalog) (name : String) : Option StructShape :=
  List.findSome? (fun
    | .struct shape => if shape.name = name then some shape else none
    | .array _ => none) c

/-- A struct shape as seen where names start with `stem`: one defined there comes before a global
one. -/
def findStruct? (c : Catalog) (name stem : String) : Option StructShape :=
  (findStructExact? c (stem ++ name)).or (findStructExact? c name)

end Catalog

end Flatword
