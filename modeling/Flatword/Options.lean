import Flatword.Failure
import Flatword.Text.Blank
import Flatword.Word

/-!
# Options

What a program's pragmas or an options file can set, and the ranges that are allowed.
-/

namespace Flatword

structure Options where
  /-- How much later passes may change the code; carried along only. -/
  level : Nat := 2
  /-- Number of scratch registers `r0`, `r1`, … -/
  registers : Nat := 3
  /-- Number of ready-made constants `n1`, `n2`, … -/
  constants : Nat := 0
  /-- Whether source lines stand as comments in the code. -/
  verbose : Bool := false
  deriving DecidableEq, Repr, Inhabited

namespace Options

/-- The first option out of its range. -/
def fault? (o : Options) : Option Cause :=
  if o.level > 3 then some .levelOutOfRange
  else if o.registers = 0 ∨ o.registers > 10 then some .registersOutOfRange
  else if o.constants > 10 then some .constantsOutOfRange
  else none

def validate (o : Options) (location : Location) : Except Failure Unit :=
  match o.fault? with
  | some cause => .error ⟨location, cause⟩
  | none => .ok ()

/-- The number a pragma gives, which must lie below `limit`. -/
def pragmaNumber (name value : String) (limit : Nat) : Except Cause Nat :=
  let digits := Text.trim value
  match (Numeral.read? 10 digits.toList).filter (· < limit) with
  | some n => .ok n
  | none => .error (.notANumber digits name)

/-- The options with one of them set as a pragma says, whatever its range. -/
def withPragma (o : Options) (name value : String) : Except Cause Options :=
  match name with
  | "optimizationLevel" => do return { o with level := ← pragmaNumber name value 256 }
  | "maxAuxVars" => do return { o with registers := ← pragmaNumber name value wordLimit }
  | "maxConstVars" => do return { o with constants := ← pragmaNumber name value wordLimit }
  | "verboseAssembly" =>
    match Text.trim value with
    | "" | "true" | "1" => .ok { o with verbose := true }
    | "false" | "0" => .ok { o with verbose := false }
    | other => .error (.unknownSwitch other)
  | _ => .error (.unknownPragma name)

/-- Apply one pragma. A number out of range is an error, and yet it stays set. -/
def applyPragma (name value : String) (location : Location) :
    ExceptT Failure (StateM Options) Unit := do
  match (← get).withPragma name value with
  | .error cause => throw ⟨location, cause⟩
  | .ok o =>
    set o
    match o.validate location with
    | .error failure => throw failure
    | .ok () => return ()

end Options

end Flatword
