import Flatword.Lower.Scope

/-!
# Assignments between operands

`assign left right` is the code for `left = right`, where both are slots with or without an offset.
`flatten` brings an operand into a form that instructions can name. The two need each other: an
offset or a value that no instruction can carry goes through a scratch place, which is assigned to.
-/

namespace Flatword.Lower

/-- An operand that can be named in an instruction, with the code that computes it. -/
structure Flat where
  slot : Slot
  code : Code := []
  /-- The slot is a scratch place taken for this, which has to be released. -/
  isNew : Bool := false
  deriving Repr

/-- Release a scratch place taken by `flatten`. -/
def Flat.release (flat : Flat) : Lower Unit :=
  if flat.isNew then Lower.release flat.slot.address else return ()

/-- The slot a number of words after the address that a slot holds. -/
def slotAt (slot : Slot) (words : Int) : Lower Slot := do
  let base ← orFail slot.value? .operandsOfAssignment
  let address : Int := base.toNat + words
  if 0 ≤ address ∧ address < wordLimit then lookupAt address.toNat
  else fail .operandsOfAssignment

/-- A dereferenced constant is the variable at that address. -/
def resolveConstant (slot : Slot) : Lower Slot :=
  match slot.kind, slot.offset with
  | .constant, some (.known words) => slotAt slot words.toInt
  | .constant, some (.stored _) => fail .operandsOfAssignment
  | _, _ => return slot

/-- The variable that is known to hold the value of a constant, by its name `n…` or `f…`. -/
def namedConstant? (table : Table) (constant : Slot) : Option Slot := do
  let value ← constant.value?
  let letter := if constant.type = .fixed then "f" else "n"
  table.findConstant? s!"{letter}{value}" (Hex.ofWord value)

/-- The assembly name of the slot that holds an index. -/
def indexName (address : Nat) : Lower String :=
  return (← lookupAt address).asmName

/-- Bring an operand into a new scratch place. -/
def intoScratch (assign : Slot → Slot → Lower Code) (slot : Slot) : Lower Flat := do
  let scratch ← allocate
  let code ← assign scratch slot
  return { slot := scratch, code, isNew := true }

/-- Bring an operand into a form that can be named, given how to assign to a scratch place. -/
def flattenWith (assign : Slot → Slot → Lower Code) (slot : Slot) : Lower Flat :=
  match slot.kind, slot.offset with
  | .void, _ => fail .voidInExpression
  | .struct, _ => fail (.structAsValue slot.name)
  | .constant, none => do
    match namedConstant? (← get).session.table slot with
    | some named => return { slot := named }
    | none => intoScratch assign slot
  | .constant, some (.known words) | .array, some (.known words) => do
    return { slot := ← slotAt slot words.toInt }
  | .register, none | .long, none | .fixed, none | .structRef, none | .array, none =>
    return { slot }
  | _, _ => intoScratch assign slot

/-- Assign a constant to a variable. -/
def assignConstant (left right : Slot) : Lower Code := do
  let hex ← orFail right.content .operandsOfAssignment
  let value ← orFail (Hex.value? hex) .wordOverflow
  if (← read).constSentence then
    return [.setImmediate left.asmName (Hex.ofWord value)]
  if value = 0 then
    return [.clear left.asmName]
  match namedConstant? (← get).session.table right with
  | some named => return [.move left.asmName named.asmName]
  | none => return [.setImmediate left.asmName (Hex.ofWord value)]

/-- Assign a word, or what it points to, to a variable. A variable is not assigned to itself. -/
def assignWord (flatten : Slot → Lower Flat) (left right : Slot) : Lower Code :=
  match right.offset with
  | none => return if left.address = right.address then [] else [.move left.asmName right.asmName]
  | some (.known words) => do
    if words = 0 then
      return [.set (.var left.asmName) (.indirect right.asmName none)]
    let offset ← flatten (.ofWord words.toUInt64)
    offset.release
    return offset.code ++
      [.set (.var left.asmName) (.indirect right.asmName (some offset.slot.asmName))]
  | some (.stored index) => do
    let index ← indexName index
    return [.set (.var left.asmName) (.indirect right.asmName (some index))]

/-- Assign the address of an array, or one of its cells, to a variable. -/
def assignCell (left right : Slot) : Lower Code :=
  match right.offset with
  | none => return [.move left.asmName right.asmName]
  | some (.known words) => do
    let cell ← slotAt right words.toInt
    return [.move left.asmName cell.asmName]
  | some (.stored index) => do
    let index ← indexName index
    return [.set (.var left.asmName) (.indirect right.asmName (some index))]

/-- Assign to the word at a base plus what a slot holds. -/
def assignIndexed (flatten : Slot → Lower Flat) (base : Slot) (index : Nat) (right : Slot) :
    Lower Code := do
  let flat ← flatten right
  let index ← indexName index
  flat.release
  return flat.code ++
    [.set (.indirect base.asmName (some index)) (.var flat.slot.asmName)]

/-- Assign to the word at a base plus a known number of words. -/
def assignKnown (flatten : Slot → Lower Flat) (base : Slot) (words : Int64) (right : Slot) :
    Lower Code := do
  let flat ← flatten right
  if words = 0 then
    flat.release
    return flat.code ++ [.set (.indirect base.asmName none) (.var flat.slot.asmName)]
  let offset ← flatten (.ofWord words.toUInt64)
  offset.release
  flat.release
  return flat.code ++ offset.code ++
    [.set (.indirect base.asmName (some offset.slot.asmName)) (.var flat.slot.asmName)]

/-- Assign to a variable, or to what it points to. -/
def assignRegular (flatten : Slot → Lower Flat) (left right : Slot) : Lower Code :=
  match left.offset with
  | none =>
    match right.kind with
    | .constant => assignConstant left right
    | .register | .long | .fixed | .structRef => assignWord flatten left right
    | .array => assignCell left right
    | .struct | .void => fail .operandsOfAssignment
  | some (.known words) => assignKnown flatten left words right
  | some (.stored index) => assignIndexed flatten left index right

/-- Characters of exactly `count` bytes at the front of a text, and the rest. There are none if the
cut would go through a character. -/
def splitBytes? : (count : Nat) → List Char → Option (List Char × List Char)
  | 0, cs => some ([], cs)
  | _ + 1, [] => none
  | count + 1, c :: cs =>
    if c.utf8Size ≤ count + 1 then
      (splitBytes? (count + 1 - c.utf8Size) cs).map fun (front, rest) => (c :: front, rest)
    else none

/-- Assign words to `count` cells of an array, starting at cell `i`. The digits come last first,
so that each cell takes the next sixteen bytes of them. -/
def fillCells (assign : Slot → Slot → Lower Code) (header : Slot) :
    (count i : Nat) → (digits : List Char) → Lower Code
  | 0, _, _ => return []
  | count + 1, i, digits => do
    let cell ← slotAt header i
    match splitBytes? Hex.digitsPerWord digits with
    | none => fail .splitCharacter
    | some (word, rest) =>
      let code ← assign cell (.constant (String.ofList word.reverse))
      return code ++ (← fillCells assign header count (i + 1) rest)

/-- Assign a constant of several words to a whole array, the last word to its first cell. -/
def fillArray (assign : Slot → Slot → Lower Code) (header right : Slot) : Lower Code := do
  if !right.isConstant then
    fail .operandsOfAssignment
  let item ← orFail header.item .operandsOfAssignment
  let hex ← orFail right.content .operandsOfAssignment
  let count := item.totalSize - 1
  let digits := Hex.significant hex
  if right.size > count ∨ digits.utf8ByteSize > count * Hex.digitsPerWord then
    fail .arrayOverflow
  let padded := digits.toList.leftpad (count * Hex.digitsPerWord) '0'
  fillCells assign header count 0 padded.reverse

/-- Assign to a whole array or to a cell with a stored index. -/
def assignArray (assign : Slot → Slot → Lower Code) (left right : Slot) : Lower Code :=
  match left.offset with
  | none => fillArray assign left right
  | some (.known _) => fail .operandsOfAssignment
  | some (.stored index) => assignIndexed (flattenWith assign) left index right

/-- Assignment with at most `depth` assignments inside each other. -/
def assignWithin : (depth : Nat) → Slot → Slot → Lower Code
  | 0, _, _ => fail .endlessNesting
  | depth + 1, left, right => do
    let left ← resolveConstant left
    let right ← resolveConstant right
    match left.kind with
    | .register | .long | .fixed | .structRef =>
      assignRegular (flattenWith (assignWithin depth)) left right
    | .array => assignArray (assignWithin depth) left right
    | .constant | .struct | .void => fail .operandsOfAssignment

/-- How deep assignments nest at most. An operand goes through three scratch places at most: a
reserved target with an offset, a register, and a register for an offset. Cells that are arrays
themselves lie behind their array, so they nest no deeper than there are slots. -/
def nesting (s : Session) : Nat :=
  s.table.slots.length + 4

/-- The code for `left = right`. -/
def assign (left right : Slot) : Lower Code := do
  assignWithin (nesting (← get).session) left right

/-- Bring an operand into a form that instructions can name. -/
def flatten (slot : Slot) : Lower Flat := do
  flattenWith (assignWithin (nesting (← get).session)) slot

end Flatword.Lower
