import Flatword.Lower.Branch
import Flatword.Lower.Path
import Flatword.Source.Expr

/-!
# Lowering of expressions

An expression is lowered in two ways, as a value and as a condition. Both are found together, by
recursion on the expression: where one of them is natural, the other is made from it.

Every register that a step takes is either held by the slot that it gives, to be released by the
one who uses the value, or released before the step ends.
-/

namespace Flatword

namespace Lower

/-- Bring an operand into a scratch place and step it up or down there. -/
def stepOperand (up : Bool) (slot : Slot) : Lower Lowered := do
  let temp ← own slot
  return ⟨temp.slot, temp.code ++ [stepInstr up temp.slot.asmName]⟩

/-- Bring an operand into a scratch place and change it there by another one. -/
def operate (op : BinaryOp) (dest value : Slot) : Lower Lowered := do
  let temp ← own dest
  let flat ← flatten value
  flat.release
  releaseBeside temp.slot value
  return ⟨temp.slot, temp.code ++ flat.code ++ [.arith op temp.slot.asmName flat.slot.asmName]⟩

/-- Apply an operator to two operands. Adding or subtracting 1 is a single step, and an operand that
is in a scratch place already is preferred as the one that is changed. -/
def combine (op : BinaryOp) (left right : Slot) : Lower Lowered := do
  let swapOne := op = .add ∧ left.isValue 1 ∧ !right.isConstant
  let (first, second) := if swapOne then (right, left) else (left, right)
  if (op = .add ∨ op = .sub) ∧ second.isValue 1 then
    stepOperand (op = .add) first
  else
    let firstTemp ← isTemp first
    let secondTemp ← isTemp second
    if op.isCommutative && !firstTemp && (secondTemp || second.isConstant) then
      operate op second first
    else operate op first second

/-- Apply an operator to two values. -/
def lowerBinary (op : BinaryOp) (left right : Lower Lowered) : Lower Lowered := do
  let left ← left
  let right ← right
  let result ← combine op left.slot right.slot
  return ⟨result.slot, left.code ++ right.code ++ result.code⟩

/-- Drop a value. -/
def lowerDiscard (operand : Lower Lowered) : Lower Lowered := do
  let value ← operand
  releaseOperand value.slot
  return ⟨.void, value.code⟩

/-- The word that a value points to. -/
def lowerDeref (operand : Lower Lowered) : Lower Lowered := do
  let ⟨slot, code⟩ ← operand
  if slot.kind = .array ∧ slot.offset.isNone then
    return ⟨← slotAt slot 0, code⟩
  let base ← intoBase slot
  return ⟨{ base.slot with
    offset := some (.known 0), type := slot.type.element, shape := slot.shape }, code ++ base.code⟩

/-- A constant computed from another one, of the same type. -/
def foldConstant (f : Word → Word) (operand : Lowered) : Lower Lowered := do
  let value ← constantWord operand.slot
  return ⟨{ Slot.ofWord (f value) with type := operand.slot.type }, operand.code⟩

def lowerComplement (operand : Lower Lowered) : Lower Lowered := do
  let value ← operand
  if value.slot.isConstant then
    foldConstant (~~~ ·) value
  else
    let temp ← own value.slot
    return ⟨temp.slot, value.code ++ temp.code ++ [.not temp.slot.asmName]⟩

/-- Subtract a value from zero. -/
def lowerNegate (operand : Lower Lowered) : Lower Lowered := do
  let value ← operand
  if value.slot.isConstant then
    foldConstant (0 - ·) value
  else
    let scratch ← allocate
    let flat ← flatten value.slot
    flat.release
    releaseOperand value.slot
    return ⟨scratch, value.code ++ [.clear scratch.asmName] ++ flat.code ++
      [.arith .sub scratch.asmName flat.slot.asmName]⟩

/-- The address of a variable, known at compile time. That of an array is the address of its first
cell. -/
def knownAddress (slot : Slot) : Lower Slot := do
  let address? := if slot.kind = .array then slot.value? else slot.address.map UInt64.ofNat
  let address ← orFail address? .addressOfValue
  let type := if slot.kind = .struct then .structPtr else slot.type.pointer
  return { Slot.ofWord address with type, shape := slot.shape }

/-- The slot of an index that is to be added to a base, if there is anything to add. -/
def offsetSlot? : Offset → Lower (Option Slot)
  | .known words => return if words = 0 then none else some (.ofWord words.toUInt64)
  | .stored index => return some (← lookupAt index)

/-- Add an index to an address in a scratch place. -/
def addOffset (scratch : Slot) : Option Slot → Lower Code
  | none => return []
  | some index => do
    let flat ← flatten index
    flat.release
    return flat.code ++ [.arith .add scratch.asmName flat.slot.asmName]

/-- The address of what a slot with an offset stands for, computed in a scratch place. -/
def computedAddress (slot : Slot) (offset : Offset) : Lower Lowered := do
  let scratch ← allocate
  let scratch :=
    if scratch.kind = .register then { scratch with type := slot.type.pointer } else scratch
  let base ← assign scratch (slot.withOffset none)
  let added ← addOffset scratch (← offsetSlot? offset)
  releaseOperand slot
  return ⟨scratch, base ++ added⟩

def lowerAddressOf (operand : Lower Lowered) : Lower Lowered := do
  let ⟨slot, code⟩ ← operand
  match slot.offset with
  | none => return ⟨← knownAddress slot, code⟩
  | some offset =>
    let address ← computedAddress slot offset
    return ⟨address.slot, code ++ address.code⟩

/-- Lower the left side of an assignment. The expression must be one that names a place, and what
it names must be one word or a whole array. -/
def lowerTarget (namesPlace : Bool) (target : Lower Lowered) : Lower Lowered := do
  if !namesPlace then
    fail .invalidTarget
  let place ← onSide true target
  match place.slot.kind, place.slot.offset with
  | .constant, none | .void, _ | .struct, _ => fail .invalidTarget
  | _, _ => return place

/-- Reserve the target of a plain assignment as first scratch place if that can not change the
value. After the first assignment of a statement this is over. -/
def reserveTarget (plain : Bool) (target : Slot) : Lower Unit := do
  let isVariable := target.kind = .long ∨ target.kind = .fixed ∨ target.kind = .structRef
  let reserved ←
    if plain && target.offset.isNone && isVariable then tryReserve target else pure false
  if !reserved then
    forbidReuse

/-- Store a value that has been computed. -/
def storeValue (target value : Slot) : Lower Code := do
  let code ← assign target value
  releaseBeside target value
  return code

/-- The code for `target op= value`; what can not be changed in place goes through a scratch
place. -/
def updateTarget (op : BinaryOp) (target value : Slot) : Lower Code := do
  if target.isPlain then
    update op target value
  else
    let scratch ← allocate
    let loaded ← assign scratch target
    let changed ← update op scratch value
    let stored ← assign target scratch
    release scratch.address
    return loaded ++ changed ++ stored

def lowerAssign (op : Option BinaryOp) (conflicts : Bool) (target value : Lower Lowered) :
    Lower Lowered := do
  let target ← target
  reserveTarget (op.isNone && !conflicts) target.slot
  let value ← value
  if value.slot.kind = .void then
    fail .voidInAssignment
  let code ←
    match op with
    | none => storeValue target.slot value.slot
    | some op => updateTarget op target.slot value.slot
  return ⟨target.slot, target.code ++ value.code ++ code⟩

/-- Increment or decrement. A step after the value is taken is left for the end of the statement. -/
def lowerStep (up before : Bool) (target : Lower Lowered) : Lower Lowered := do
  let ⟨slot, code⟩ ← target
  if slot.isPlain then
    let step := stepInstr up slot.asmName
    if before then
      return ⟨slot, code ++ [step]⟩
    pushPost [step]
    return ⟨slot, code⟩
  if !before then
    fail .indexedPostStep
  let scratch ← allocate
  let loaded ← assign scratch slot
  let stored ← assign slot scratch
  releaseOperand slot
  return ⟨scratch, code ++ loaded ++ [stepInstr up scratch.asmName] ++ stored⟩

/-- Compute an argument and store it to its variable. -/
def passArgument (value : Lower Lowered) (name : String) : Lower Code := do
  let value ← value
  let argument ← orFail (← onSide true (lookupAsm? name)) (.missingArgument name)
  let code ← assign argument value.slot
  releaseOperand value.slot
  return value.code ++ code

/-- Pass all arguments, the last one first. -/
def passArguments : List (Lower Lowered) → (names : List String) → Lower Code
  | value :: values, name :: names => do
    let later ← passArguments values names
    return later ++ (← passArgument value name)
  | _, _ => return []

/-- Fetch what a function has left in the first register. -/
def fetchResult (type : ValueType) : Lower Lowered := do
  if type = .void then
    return ⟨.void, []⟩
  let result ← allocate
  return ⟨if result.kind = .register then { result with type } else result,
    [.move result.asmName "r0"]⟩

/-- Call a function. Live values are saved on the stack around the call. -/
def lowerCall (name : String) (args : List (Lower Lowered)) : Lower Lowered := do
  let signature ← orFail ((← get).session.signature? name) (.undeclaredFunction name)
  if signature.arguments.length ≠ args.length then
    fail (.argumentCount name signature.arguments.length)
  let passed ← passArguments args signature.arguments
  let live := (← get).liveValues.map Slot.asmName
  let result ← fetchResult signature.returnType
  return ⟨result.slot, passed ++ live.reverse.map Instr.push ++ [.call s!"__fn_{name}"] ++
    result.code ++ live.map Instr.pop⟩

/-- The two ways to lower an expression. -/
structure Lowering where
  value : Lower Lowered
  /-- The code that jumps according to whether the value is zero. -/
  branch : Branch → Lower Code

namespace Lowering

/-- As a condition, a value is tested. -/
def ofValue (value : Lower Lowered) : Lowering :=
  ⟨value, branchValue value⟩

/-- As a value, a condition is 1 or 0. -/
def ofBranch (branch : Branch → Lower Code) : Lowering :=
  ⟨materialize branch, branch⟩

/-- A literal. As a condition it is decided at once; one of several words is not zero. -/
def ofConstant (hex : String) (fixed : Bool) : Lowering where
  value :=
    let slot := Slot.constant hex
    return ⟨if fixed then { slot with type := .fixed } else slot, []⟩
  branch b := return branchKnown (Hex.value? hex ≠ some 0) b

/-- An operator with one operand; only variables have an address. -/
def ofUnary (op : UnaryOp) (isLookup : Bool) (operand : Lowering) : Lowering :=
  match op with
  | .not => ofBranch fun b => operand.branch b.swap
  | .addressOf => ofValue (if isLookup then lowerAddressOf operand.value else fail .addressOfValue)
  | .castVoid => ofValue (lowerDiscard operand.value)
  | .deref => ofValue (lowerDeref operand.value)
  | .neg => ofValue (lowerNegate operand.value)
  | .bitNot => ofValue (lowerComplement operand.value)

end Lowering

end Lower

namespace Expr

open Lower

def isLookup : Expr → Bool
  | lookup _ _ _ => true
  | _ => false

/-- Whether an expression names a place that can be assigned to. -/
def namesPlace : Expr → Bool
  | lookup _ _ _ | unary .deref _ _ => true
  | _ => false

mutual

def lowering : Expr → Lowering
  | constant hex fixed _ => .ofConstant hex fixed
  | lookup name path _ => .ofValue (lowerLookup name (pathSteps path))
  | call name args _ => .ofValue (lowerCall name (argValues args))
  | unary op operand _ => .ofUnary op operand.isLookup operand.lowering
  | binary op left right _ => .ofValue (lowerBinary op left.lowering.value right.lowering.value)
  | compare op left right _ =>
    .ofBranch (branchCompare op left.lowering.value right.lowering.value)
  | logical op left right _ =>
    .ofBranch (branchLogical op left.lowering.branch right.lowering.branch)
  | assign op target value _ =>
    .ofValue (lowerAssign op (target.conflicts value)
      (lowerTarget target.namesPlace target.lowering.value) value.lowering.value)
  | step up before target _ =>
    .ofValue (lowerStep up before (lowerTarget target.namesPlace target.lowering.value))

def pathSteps : List Access → List Step
  | [] => []
  | .index index :: rest => .index index.lowering.value :: pathSteps rest
  | .member name :: rest => .member name :: pathSteps rest
  | .arrow name :: rest => .arrow name :: pathSteps rest

def argValues : List Expr → List (Lower Lowered)
  | [] => []
  | arg :: rest => arg.lowering.value :: argValues rest

end

/-- The value of an expression, with the code that computes it. -/
def lower (e : Expr) : Lower Lowered :=
  e.lowering.value

/-- The code that jumps according to whether an expression is zero. -/
def lowerCondition (e : Expr) (b : Branch) : Lower Code :=
  e.lowering.branch b

end Expr

end Flatword
