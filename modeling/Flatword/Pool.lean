import Flatword.Memory.Slot

/-!
# Scratch registers

A pool hands out the lowest register that is free. It is made anew for every statement, so that no
register carries a value from one statement to the next.
-/

namespace Flatword

structure Register where
  slot : Slot
  inUse : Bool := false
  deriving DecidableEq, Repr

structure Pool where
  registers : List Register := []
  deriving DecidableEq, Repr, Inhabited

namespace Pool

/-- A pool of these registers, all free. -/
def ofSlots (slots : List Slot) : Pool :=
  ⟨slots.map ({ slot := · })⟩

def capacity (p : Pool) : Nat :=
  p.registers.length

/-- Take the first free register of a list. -/
def takeFirst? : List Register → Option (Slot × List Register)
  | [] => none
  | r :: rest =>
    if r.inUse then (takeFirst? rest).map fun (slot, taken) => (slot, r :: taken)
    else some (r.slot, { r with inUse := true } :: rest)

/-- The lowest free register, and the pool without it. -/
def allocate? (p : Pool) : Option (Slot × Pool) :=
  (takeFirst? p.registers).map fun (slot, registers) => (slot, ⟨registers⟩)

/-- Set the first register at an address free. -/
def freeFirst (address : Nat) : List Register → List Register
  | [] => []
  | r :: rest =>
    if r.slot.address = some address then { r with inUse := false } :: rest
    else r :: freeFirst address rest

/-- Give a register back. Other addresses and free registers do not matter. -/
def release (p : Pool) : Option Nat → Pool
  | some address => ⟨freeFirst address p.registers⟩
  | none => p

/-- Whether an address is that of a register of the pool. -/
def contains (p : Pool) (address : Option Nat) : Bool :=
  address.isSome && p.registers.any (·.slot.address = address)

/-- The registers that hold a value, lowest first. -/
def inUse (p : Pool) : List Slot :=
  (p.registers.filter (·.inUse)).map (·.slot)

end Pool

end Flatword
