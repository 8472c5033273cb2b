import Flatword.Memory.Slot

/-!
# The memory table

All slots of a program in the order of their addresses. The table only grows; afterwards only the
marks of a slot and the value of a constant change.
-/

namespace Flatword

structure Table where
  slots : List Slot := []
  /-- The address of the next word, which is the number of words so far. -/
  next : Nat := 0
  deriving DecidableEq, Repr, Inhabited

namespace Table

/-- Number of words in use. -/
def words (t : Table) : Nat := t.next

/-- The first slot with a name in the assembly. -/
def findAsm? (t : Table) (asmName : String) : Option Slot :=
  t.slots.find? (·.asmName = asmName)

/-- The first slot with a source name in a scope. -/
def findNamed? (t : Table) (name scope : String) : Option Slot :=
  t.slots.find? fun s => s.name = name && s.scope = scope

/-- The slot whose word is at an address; heads of structs have no word. -/
def findAt? (t : Table) (address : Nat) : Option Slot :=
  t.slots.find? fun s => s.address = some address && s.kind ≠ .struct

/-- The slot of this name that is known to hold exactly this content. -/
def findConstant? (t : Table) (asmName hex : String) : Option Slot :=
  t.slots.find? fun s => s.asmName = asmName && s.content = some hex

/-- The slots with the name of a register, lowest address first. -/
def registers (t : Table) : List Slot :=
  t.slots.filter (isRegisterName ·.asmName)

/-- A slot as it stands in the table at an address. The header of an array holds the address of
its first cell, which follows it. -/
def placed (s : Slot) (address : Nat) : Slot :=
  { s with
    address := some address
    content := if s.kind = .array then some (Hex.ofWord (UInt64.ofNat (address + 1)))
      else s.content }

def push (t : Table) (s : Slot) : Table :=
  { slots := t.slots ++ [placed s t.next], next := t.next + s.kind.width }

/-- Add slots one after the other, up to the first whose assembly name is taken. The second
component is that slot, if there is one. -/
def append (t : Table) : List Slot → Table × Option Slot
  | [] => (t, none)
  | s :: rest =>
    if (t.findAsm? s.asmName).isSome then (t, some s) else (t.push s).append rest

/-- Change the first slot with a name in the assembly. -/
def updateAsm (t : Table) (asmName : String) (change : Slot → Slot) : Table :=
  { t with slots := go t.slots }
where
  go : List Slot → List Slot
    | [] => []
    | s :: rest => if s.asmName = asmName then change s :: rest else s :: go rest

def markSet (t : Table) (asmName : String) : Table :=
  t.updateAsm asmName ({ · with isSet := true })

def markDeclared (t : Table) (asmName : String) : Table :=
  t.updateAsm asmName ({ · with isDeclared := true })

/-- Record the value that a slot has from the start. -/
def setContent (t : Table) (asmName hex : String) : Table :=
  t.updateAsm asmName ({ · with content := some hex, isSet := true })

end Table

end Flatword
