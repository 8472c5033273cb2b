import Flatword.ValueType
import Flatword.Word

/-!
# Memory slots

A slot describes a place in memory or a value. Slots of the memory table have an address; literals
have none. A slot with an offset stands for the word found by indirection from it.
-/

namespace Flatword

/-- What a slot is. -/
inductive Kind where
  | register
  | long
  | fixed
  | constant
  /-- The word before the cells of an array, which holds the address of the first cell. -/
  | array
  /-- The head of a struct value. It takes no word: the first member has the same address. -/
  | struct
  | structRef
  /-- No value at all. -/
  | void
  deriving DecidableEq, Repr

namespace Kind

def all : List Kind :=
  [register, long, fixed, constant, array, struct, structRef, void]

def name : Kind → String
  | register => "register"
  | long => "long"
  | fixed => "fixed"
  | constant => "constant"
  | array => "array"
  | struct => "struct"
  | structRef => "structRef"
  | void => "void"

/-- Whether a slot of this kind is one word that instructions read and write by its name. -/
def isRegular : Kind → Bool
  | register | long | fixed | structRef => true
  | constant | array | struct | void => false

/-- How many words a slot of this kind takes in memory. -/
def width : Kind → Nat
  | struct => 0
  | _ => 1

end Kind

/-- Words to go on from a base: a known number, or what the slot at an address holds. -/
inductive Offset where
  | known (words : Int64)
  | stored (address : Nat)
  deriving DecidableEq, Repr

/-- What the header of an array says about its elements. -/
structure ArrayItem where
  kind : Kind
  type : ValueType
  shape : String
  /-- The header and all words of the elements. -/
  totalSize : Nat
  deriving DecidableEq, Repr

structure Slot where
  address : Option Nat := none
  name : String := ""
  /-- The name in the assembly, unique in the whole program. -/
  asmName : String := ""
  /-- The function the slot belongs to; empty for global slots. -/
  scope : String := ""
  kind : Kind
  type : ValueType
  size : Nat := 1
  /-- A value known at compile time, as hexadecimal digits. -/
  content : Option String := none
  isSet : Bool := false
  isDeclared : Bool := false
  wantsRegister : Bool := false
  offset : Option Offset := none
  item : Option ArrayItem := none
  /-- The name of the shape of an array or struct. -/
  shape : Option String := none
  deriving DecidableEq, Repr

namespace Slot

/-- An anonymous constant of one or more words. -/
def constant (hex : String) : Slot :=
  let padded := Hex.padToWords hex
  { kind := .constant, type := .long, size := Hex.wordCount padded, content := some padded,
    isSet := true }

def ofWord (w : Word) : Slot :=
  constant (Hex.ofWord w)

/-- A fixed-point constant, given as its scaled value. -/
def ofFixed (w : Word) : Slot :=
  { ofWord w with type := .fixed }

/-- The absence of a value. -/
def void : Slot :=
  { kind := .void, type := .void }

/-- The word that the content stands for. -/
def value? (s : Slot) : Option Word :=
  s.content.bind Hex.value?

def isConstant (s : Slot) : Bool :=
  s.kind = .constant && s.offset.isNone

/-- Whether a slot is a constant of this value. -/
def isValue (s : Slot) (w : Word) : Bool :=
  s.isConstant && s.value? = some w

def withOffset (s : Slot) (offset : Option Offset) : Slot :=
  { s with offset }

/-- Whether a slot can be named in an instruction as it is. -/
def isPlain (s : Slot) : Bool :=
  s.kind.isRegular && s.offset.isNone

end Slot

/-- Whether a name is one of `r0` to `r9`. -/
def isRegisterName (name : String) : Bool :=
  match name.toList with
  | ['r', d] => '0' ≤ d && d ≤ '9'
  | _ => false

end Flatword
