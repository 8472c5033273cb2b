import Flatword.Lower.Assign

/-!
# Operands of computations

The steps that every computation is made of: bring an operand into a scratch place that may be
overwritten, change a place by an operator, and turn an operand into an index.
-/

namespace Flatword.Lower

/-- A value and the code that computes it. -/
structure Lowered where
  slot : Slot
  code : Code := []
  deriving Repr

/-- The word of a constant. -/
def constantWord (slot : Slot) : Lower Word :=
  orFail slot.value? .wordOverflow

/-- An increment or a decrement. -/
def stepInstr (up : Bool) (name : String) : Instr :=
  if up then .inc name else .dec name

/-- Load an operand that is a scratch place with an offset into that place. -/
def loadInPlace (slot : Slot) : Lower Lowered := do
  let base := slot.withOffset none
  let code ← assign base slot
  match slot.offset with
  | some (.stored index) =>
    if base.address ≠ some index then
      release (some index)
  | _ => pure ()
  return ⟨base, code⟩

/-- Copy an operand to a new scratch place. A register takes over the type of the operand. -/
def copyToScratch (slot : Slot) : Lower Lowered := do
  let scratch ← allocate
  let code ← assign scratch slot
  releaseOperand slot
  return ⟨if scratch.kind = .register then { scratch with type := slot.type } else scratch, code⟩

/-- Bring an operand into a scratch place that may be overwritten. -/
def own (slot : Slot) : Lower Lowered := do
  if slot.kind = .void then
    fail .voidInExpression
  else if !(← isTemp slot) then
    copyToScratch slot
  else if slot.offset.isNone then
    return ⟨slot, []⟩
  else
    loadInPlace slot

/-- The code for `dest op= value`, which uses the value up. -/
def update (op : BinaryOp) (dest value : Slot) : Lower Code := do
  if (op = .add ∨ op = .sub) ∧ value.isValue 1 then
    return [stepInstr (op = .add) dest.asmName]
  let flat ← flatten value
  flat.release
  releaseOperand value
  return flat.code ++ [.arith op dest.asmName flat.slot.asmName]

/-- Bring an operand into a variable or register that can serve as an index. -/
def plainIndex (slot : Slot) : Lower Lowered :=
  if slot.isPlain then return ⟨slot, []⟩ else own slot

/-- Carry out the offset of a slot, so that it can take another one. -/
def intoBase (slot : Slot) : Lower Lowered := do
  if slot.offset.isNone then
    return ⟨slot, []⟩
  let flat ← flatten slot
  releaseOperand slot
  return ⟨{ flat.slot with type := slot.type, shape := slot.shape }, flat.code⟩

end Flatword.Lower
