import Flatword.Lower.Operand

/-!
# Paths to array cells and struct members

A path leads from a variable to one word by indexes, members and arrows. Constant indexes lead to
the slot of the cell itself; other indexes are summed up in a register, each multiplied by the
stride of its dimension, and the result is the header of the array with that register as offset.
-/

namespace Flatword.Lower

/-- One part of a path. -/
inductive Step where
  | index (value : Lower Lowered)
  | member (name : String)
  | arrow (name : String)

/-- The indexes at the front of a path. -/
def leadingIndexes : List Step → List (Lower Lowered)
  | .index value :: rest => value :: leadingIndexes rest
  | _ => []

/-- The distance of a cell from the first one: a known part, and a part that is computed. -/
structure IndexSum where
  known : Word := 0
  stored : Option Slot := none
  code : Code := []
  deriving Repr

/-- An index changed by a known word, in a scratch place. -/
def shiftedIndex (op : BinaryOp) (index : Slot) (word : Word) : Lower Lowered := do
  let place ← own index
  let changed ← update op place.slot (.ofWord word)
  return ⟨place.slot, place.code ++ changed⟩

/-- A computed index times the words that one step skips. -/
def scaledIndex (stride : Word) (index : Slot) : Lower Lowered :=
  if stride = 1 then plainIndex index else shiftedIndex .mul index stride

/-- A computed index after a known distance. -/
def advancedIndex (distance : Word) (index : Slot) : Lower Lowered :=
  if distance = 0 then return ⟨index, []⟩ else shiftedIndex .add index distance

namespace IndexSum

/-- Add a computed index to the sum. -/
def addStored (sum : IndexSum) (stride : Word) (index : Slot) : Lower IndexSum := do
  let term ← scaledIndex stride index
  let code := sum.code ++ term.code
  match sum.stored with
  | none => return { sum with stored := some term.slot, code }
  | some total =>
    let total ← own total
    let added ← update .add total.slot term.slot
    return { sum with stored := some total.slot, code := code ++ total.code ++ added }

/-- Add the index of one dimension. A constant index must lie inside the dimension. -/
def addIndex (sum : IndexSum) (dimension stride : Word) (index : Lower Lowered) :
    Lower IndexSum := do
  let index ← index
  let sum := { sum with code := sum.code ++ index.code }
  if index.slot.isConstant then
    let value ← constantWord index.slot
    if value ≥ dimension then
      fail .indexOutOfRange
    return { sum with known := sum.known + value * stride }
  else
    sum.addStored stride index.slot

/-- Add one index for each dimension. -/
def addIndexes (sum : IndexSum) :
    (dimensions strides : List Word) → List (Lower Lowered) → Lower IndexSum
  | dimension :: dimensions, stride :: strides, index :: indexes => do
    (← sum.addIndex dimension stride index).addIndexes dimensions strides indexes
  | _, _, _ => return sum

end IndexSum

/-- The slot of a cell at a known distance. The cells of an array of structs are found by name. -/
def knownCell (leftSide : Bool) (header : Slot) (item : ArrayItem) (strides : List Word)
    (distance : Word) : Lower Slot := do
  if item.kind = .struct then
    let size := max ((strides.getLast?).getD 1) 1
    let cell ← onSide leftSide (lookupAsm? s!"{header.asmName}_{distance / size}")
    orFail cell .operandShape
  else
    let base ← orFail header.value? .operandShape
    onSide leftSide (lookupAt (base + distance).toNat)

/-- The header with an index as offset, after a known distance has been added to the index. -/
def computedCell (header : Slot) (item : ArrayItem) (index : Slot) (distance : Word) :
    Lower Lowered := do
  let total ← advancedIndex distance index
  let address ← orFail total.slot.address .operandShape
  return ⟨{ header with offset := some (.stored address), type := item.type }, total.code⟩

/-- The cell at the end of a sum of indexes. -/
def summedCell (leftSide : Bool) (header : Slot) (item : ArrayItem) (strides : List Word)
    (sum : IndexSum) : Lower Lowered := do
  match sum.stored with
  | none =>
    let cell ← knownCell leftSide header item strides sum.known
    return ⟨cell, sum.code⟩
  | some index =>
    let cell ← computedCell header item index sum.known
    return ⟨cell.slot, sum.code ++ cell.code⟩

/-- The cell of an array, and how many indexes led to it. There must be one for each dimension. -/
def indexArray (leftSide : Bool) (header : Slot) (indexes : List (Lower Lowered)) :
    Lower (Lowered × Nat) := do
  let catalog := (← get).session.catalog
  let shape ← orFail (header.shape.bind catalog.findArray?) (.unknownArrayShape header.name)
  let item ← orFail header.item .operandShape
  let needed := shape.dimensions.length
  if indexes.length < needed then
    fail (.missingIndexes header.name needed)
  let sum ← IndexSum.addIndexes {} shape.dimensions shape.strides indexes
  let cell ← summedCell leftSide header item shape.strides sum
  return (cell, needed)

/-- The word at an index from a pointer. -/
def indexPointer (slot : Slot) (index : Lower Lowered) : Lower Lowered := do
  if !slot.type.isPointer || slot.type = .structPtr then
    fail (.notIndexable slot.name)
  let base ← intoBase slot
  let index ← index
  if index.slot.isConstant then
    let value ← constantWord index.slot
    let cell := { base.slot with
      type := base.slot.type.element, offset := some (.known value.toInt64) }
    return ⟨cell, base.code ++ index.code⟩
  else
    let plain ← plainIndex index.slot
    let address ← orFail plain.slot.address .operandShape
    let cell := { base.slot with
      type := base.slot.type.element, offset := some (.stored address) }
    return ⟨cell, base.code ++ index.code ++ plain.code⟩

/-- A member of a struct with its distance from the start. It must be a single word. -/
def wordMember (struct member : String) : Lower (Nat × Slot) := do
  let catalog := (← get).session.catalog
  let shape ← orFail (catalog.findStruct? struct "") (.unknownStruct struct)
  let (distance, template) ← orFail (shape.member? member) (.missingMember member struct)
  if template.kind = .array ∨ template.kind = .struct then
    fail (.compositeMember member)
  return (distance, template)

/-- The member of a cell of an array of structs that was reached by a stored index. -/
def memberOfCell (cell : Slot) (struct : String) (index : Nat) (member : String) :
    Lower Lowered := do
  let (distance, template) ← wordMember struct member
  let indexSlot ← lookupAt index
  if distance = 0 then
    return ⟨{ cell with offset := some (.stored index), type := template.type }, []⟩
  let total ← shiftedIndex .add indexSlot (UInt64.ofNat distance)
  let address ← orFail total.slot.address .operandShape
  return ⟨{ cell with offset := some (.stored address), type := template.type }, total.code⟩

/-- The member of a struct, or of a cell of an array of structs. -/
def memberOf (leftSide : Bool) (slot : Slot) (member : String) : Lower Lowered := do
  match slot.kind, slot.offset, slot.item with
  | .struct, none, _ =>
    let found ← onSide leftSide (lookupAsm? s!"{slot.asmName}_{member}")
    return ⟨← orFail found (.missingMember member slot.name), []⟩
  | .array, some (.stored index), some item =>
    if item.kind = .struct then memberOfCell slot item.shape index member
    else fail (.notAStruct slot.name)
  | _, _, _ => fail (.notAStruct slot.name)

/-- The member of the struct that a pointer points to. -/
def arrowMember (slot : Slot) (member : String) : Lower Lowered := do
  if slot.type ≠ .structPtr ∨ slot.kind = .array then
    fail (.notAStructPointer slot.name)
  let (distance, template) ← wordMember (slot.shape.getD "") member
  let base ← intoBase slot
  return ⟨{ base.slot with
    offset := some (.known (Int64.ofNat distance)), type := template.type,
    shape := template.shape }, base.code⟩

/-- Follow a path whose first `skip` steps have been taken already. -/
def followAfter (leftSide : Bool) : (skip : Nat) → Lowered → List Step → Lower Lowered
  | _, here, [] => return here
  | skip + 1, here, _ :: rest => followAfter leftSide skip here rest
  | 0, here, .index value :: rest => do
    if here.slot.kind = .array ∧ here.slot.offset.isNone then
      let (cell, taken) ← indexArray leftSide here.slot (value :: leadingIndexes rest)
      followAfter leftSide (taken - 1) ⟨cell.slot, here.code ++ cell.code⟩ rest
    else
      let cell ← indexPointer here.slot value
      followAfter leftSide 0 ⟨cell.slot, here.code ++ cell.code⟩ rest
  | 0, here, .member name :: rest => do
    let member ← memberOf leftSide here.slot name
    followAfter leftSide 0 ⟨member.slot, here.code ++ member.code⟩ rest
  | 0, here, .arrow name :: rest => do
    let member ← arrowMember here.slot name
    followAfter leftSide 0 ⟨member.slot, here.code ++ member.code⟩ rest

/-- Look a variable up and follow a path from it. Only the end of the path is written to, so that
all on the way is looked up to be read. -/
def lowerLookup (name : String) (path : List Step) : Lower Lowered := do
  let leftSide := (← read).leftSide
  let slot ← lookup name
  if path.isEmpty then
    return ⟨slot, []⟩
  onSide false (followAfter leftSide 0 ⟨slot, []⟩ path)

end Flatword.Lower
