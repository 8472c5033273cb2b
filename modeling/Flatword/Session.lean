import Flatword.Declare
import Flatword.Memory.Table
import Flatword.Options
import Flatword.Warning

/-!
# Sessions

What one compilation shares: the options, the memory table, the shapes, the functions that can be
called, the counter for labels and the warnings.
-/

namespace Flatword

/-- What a call needs to know about a function. -/
structure Signature where
  name : String
  returnType : ValueType
  /-- The assembly names of the arguments in order. -/
  arguments : List String
  deriving DecidableEq, Repr

structure Session where
  options : Options
  table : Table := {}
  catalog : Catalog := []
  functions : List Signature := []
  /-- The assembly names of the ready-made constants. -/
  autoConstants : List String := []
  jumps : UInt32 := 0
  journal : Journal := []
  deriving Repr

/-- A failing step of a session keeps what it has changed so far. -/
abbrev SessionM := ExceptT Failure (StateM Session)

namespace Session

/-- The scratch registers `r0`, `r1`, … -/
def registerSlots (count : Nat) : List Slot :=
  (List.range count).map fun i =>
    { name := s!"r{i}", asmName := s!"r{i}", kind := .register, type := .long, isSet := true,
      isDeclared := true }

/-- The ready-made constants `n1`, `n2`, … -/
def constantSlots (count : Nat) : List Slot :=
  (List.range count).map fun i =>
    { name := s!"n{i + 1}", asmName := s!"n{i + 1}", kind := .long, type := .long,
      content := some (Hex.ofWord (UInt64.ofNat (i + 1))), isSet := true, isDeclared := true }

/-- A session with its registers and constants in place. -/
def start (options : Options) : Except Failure Session := do
  options.validate .nowhere
  let constants := constantSlots options.constants
  let (table, _) := Table.append {} (registerSlots options.registers ++ constants)
  return { options, table, autoConstants := constants.map Slot.asmName }

def signature? (s : Session) (name : String) : Option Signature :=
  s.functions.find? (·.name = name)

/-- Take the next number for labels, in base 36. -/
def newJump (s : Session) : String × Session :=
  let jumps := s.jumps + 1
  (Numeral.base36 jumps, { s with jumps })

/-- Run a step of the layout on the catalog of the session. -/
def liftLayout {α : Type} (step : Layout α) : SessionM α := do
  let s ← get
  let (result, catalog) := step.run.run s.catalog
  set { s with catalog }
  match result with
  | .ok a => return a
  | .error failure => throw failure

/-- Lay out a phrase and add its slots to the table. The slots are given as they were before they
got their addresses. -/
def declare (place : Place) (tokens : List Token) : SessionM (List Slot) := do
  let slots ← liftLayout (Layout.declare place tokens)
  let s ← get
  let (table, refused) := s.table.append slots
  set { s with table }
  match refused with
  | none => return slots
  | some slot =>
    throw (.atLine ((tokens.head?.map Token.line).getD 0) (.alreadyDeclared slot.name))

end Session

end Flatword
