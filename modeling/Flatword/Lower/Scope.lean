import Flatword.Asm.Instr
import Flatword.Pool
import Flatword.Session

/-!
# The scope of a statement

Each statement, and each condition of a loop, is lowered in a scope of its own: with all registers
free and nothing left to do afterwards. The variable that a statement assigns to may serve as its
first scratch place; `Reuse` says how far that has come.
-/

namespace Flatword

/-- Whether the target of an assignment serves as a scratch place. -/
inductive Reuse where
  | forbidden
  /-- The next assignment may reserve its target. -/
  | allowed
  /-- The target will be handed out first. -/
  | reserved (target : Slot)
  /-- The target has been handed out. -/
  | taken (target : Slot)
  deriving DecidableEq, Repr

namespace Reuse

def allow : Reuse → Reuse
  | forbidden => allowed
  | r => r

def forbid : Reuse → Reuse
  | allowed => forbidden
  | r => r

/-- The target that has been handed out. -/
def taken? : Reuse → Option Slot
  | taken target => some target
  | _ => none

end Reuse

/-- What is fixed while a part of a statement is lowered. -/
structure Frame where
  function : Option String := none
  line : Line
  /-- Variables are looked up to be written: they need not have been set. -/
  leftSide : Bool := false
  /-- The statement gives a value known at compile time. -/
  constSentence : Bool := false
  deriving DecidableEq, Repr

/-- What lowering changes. -/
structure Scope where
  session : Session
  pool : Pool
  reuse : Reuse := .forbidden
  /-- Code to run after the statement. -/
  post : Code := []
  deriving Repr

namespace Scope

/-- The scope of a new statement. -/
def start (session : Session) : Scope :=
  { session, pool := .ofSlots session.table.registers }

/-- Whether a slot is a scratch place: a register, or the target that has been handed out. -/
def isTemp (s : Scope) (slot : Slot) : Bool :=
  slot.address.isSome &&
    (s.pool.contains slot.address || s.reuse.taken?.any (·.address = slot.address))

/-- The values that a call must keep: the target if it has been handed out, then the registers in
use. -/
def liveValues (s : Scope) : List Slot :=
  s.reuse.taken?.toList ++ s.pool.inUse

end Scope

/-- Lowering reads its frame and changes its scope, and what it changed before a failure stays. -/
abbrev Lower := ReaderT Frame (ExceptT Failure (StateM Scope))

namespace Lower

def fail {α : Type} (cause : Cause) : Lower α := do
  throw (.atLine (← read).line cause)

/-- The value, or a failure where there is none. -/
def orFail {α : Type} (a : Option α) (cause : Cause) : Lower α :=
  match a with
  | some a => pure a
  | none => fail cause

def modifySession (change : Session → Session) : Lower Unit :=
  modify fun s => { s with session := change s.session }

/-- Lower with variables looked up to be written, or not. -/
def onSide {α : Type} (leftSide : Bool) (step : Lower α) : Lower α :=
  withReader (fun frame => { frame with leftSide }) step

/-- Hand out the reserved target if there is one, and else the lowest free register. -/
def allocate : Lower Slot := do
  let s ← get
  match s.reuse with
  | .reserved target =>
    set { s with reuse := .taken target }
    return target
  | _ =>
    match s.pool.allocate? with
    | some (slot, pool) =>
      set { s with pool }
      return slot
    | none => fail (.registersExhausted s.pool.capacity)

def release (address : Option Nat) : Lower Unit :=
  modify fun s => { s with pool := s.pool.release address }

/-- Release the registers that an operand holds: its base and its stored index. -/
def releaseOperand (slot : Slot) : Lower Unit := do
  release slot.address
  match slot.offset with
  | some (.stored index) => release (some index)
  | _ => return ()

/-- Release a value, unless it lies at the address of a slot that is still needed. -/
def releaseBeside (kept value : Slot) : Lower Unit :=
  if value.address ≠ kept.address then releaseOperand value else return ()

def isTemp (slot : Slot) : Lower Bool :=
  return (← get).isTemp slot

def allowReuse : Lower Unit :=
  modify fun s => { s with reuse := s.reuse.allow }

def forbidReuse : Lower Unit :=
  modify fun s => { s with reuse := s.reuse.forbid }

/-- Reserve a target as first scratch place. This may be tried once after it was allowed, and
registers are not reserved. -/
def tryReserve (target : Slot) : Lower Bool := do
  let s ← get
  match s.reuse with
  | .allowed =>
    let accepted := !isRegisterName target.asmName
    set { s with reuse := if accepted then .reserved target else .forbidden }
    return accepted
  | _ => return false

def newJump : Lower String := do
  let s ← get
  let (id, session) := s.session.newJump
  set { s with session }
  return id

def pushPost (code : Code) : Lower Unit :=
  modify fun s => { s with post := s.post ++ code }

def takePost : Lower Code := do
  let s ← get
  set { s with post := [] }
  return s.post

/-- Note that a slot has been looked up. A variable that was never set gives one warning, unless
it is about to be written or has a known value; from then on it counts as set. The slot is given
as it was. -/
def noteUse (slot : Slot) : Lower Slot := do
  if slot.isSet then
    return slot
  let frame ← read
  if !frame.leftSide && slot.content.isNone then
    modifySession fun s => { s with
      journal := Journal.add s.journal (.atLine frame.line)
        s!"Variable '{slot.name}' is used but not initialized." }
  modifySession fun s => { s with table := s.table.markSet slot.asmName }
  return slot

/-- The variable of a name, first among those of the function. -/
def lookup (name : String) : Lower Slot := do
  let table := (← get).session.table
  let local? := (← read).function.bind (table.findNamed? name)
  match local?.or (table.findNamed? name "") with
  | some slot => noteUse slot
  | none => fail (.undeclaredVariable name)

def lookupAsm? (asmName : String) : Lower (Option Slot) := do
  match (← get).session.table.findAsm? asmName with
  | some slot => return some (← noteUse slot)
  | none => return none

def lookupAt (address : Nat) : Lower Slot := do
  match (← get).session.table.findAt? address with
  | some slot => noteUse slot
  | none => fail (.nothingAtAddress address)

/-- End a statement: all registers must have been given back. -/
def finish : Lower Unit := do
  match (← get).pool.inUse with
  | [] => return ()
  | leaked => fail (.registersInUse (leaked.map Slot.asmName))

end Lower

end Flatword
