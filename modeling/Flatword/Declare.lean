import Flatword.Failure
import Flatword.Memory.Shape
import Flatword.Source.Token

/-!
# Declarations

A phrase such as `long a, *p, t[4]` is walked from left to right. Each declarator in it gives the
slots that it declares: one for a variable or pointer, a header and its cells for an array, a head
and the members for a struct. New shapes go to the catalog.
-/

namespace Flatword

/-- Where a declaration stands. -/
structure Place where
  /-- The function, or the empty text for global declarations. -/
  scope : String := ""
  /-- What names in the assembly start with. -/
  stem : String := ""
  isArgument : Bool := false
  deriving DecidableEq, Repr

namespace Place

def global : Place := {}

def function (name : String) : Place :=
  { scope := name, stem := name ++ "_" }

def arguments (name : String) : Place :=
  { function name with isArgument := true }

end Place

/-- Laying out declarations adds to a catalog; what was added before a failure stays. -/
abbrev Layout := ExceptT Failure (StateM Catalog)

/-- The keywords that start a declaration of single words. -/
inductive BaseType where
  | long | fixed | void
  deriving DecidableEq, Repr

namespace BaseType

def template : BaseType → Slot
  | long => { kind := .long, type := .long }
  | fixed => { kind := .fixed, type := .fixed }
  | void => { kind := .long, type := .void }

end BaseType

/-- A name in a declaration with what stands around it. -/
structure Declarator where
  name : String
  line : Line
  isPointer : Bool
  /-- The brackets after the name. -/
  brackets : List Token
  deriving Repr

/-- The size between brackets, which must be one constant. -/
def arraySize (brackets : Token) : Except Failure Word :=
  let refused := Failure.atLine brackets.line .arraySizeNotConstant
  match brackets.params with
  | [size] =>
    if size.kind = .constant then
      match Hex.readWord? size.value with
      | some w => .ok w
      | none => .error refused
    else .error refused
  | _ => .error refused

/-- The words of an array with its header, unless some product on the way is too large. -/
def arrayTotal? (elementSize : Nat) (dimensions : List Word) : Option Nat := do
  let checked (n : Nat) : Option Nat := if n < wordLimit then some n else none
  let cells ← dimensions.foldlM (fun size d => checked (size * d.toNat)) elementSize
  checked (cells + 1)

/-- The slots that a declarator gives, and the shape if it is an array. -/
structure Declared where
  slots : List Slot
  shape : Option ArrayShape := none
  deriving Repr

/-- Where a phrase stands, with what the names of the shapes of member arrays start with. -/
structure PhraseFrame where
  place : Place
  shapeStem : String := ""
  deriving Repr

namespace Declarator

def dimensions (d : Declarator) : Except Failure (List Word) :=
  d.brackets.mapM arraySize

/-- A slot under the name of the declarator. -/
def named (d : Declarator) (place : Place) (template : Slot) : Slot :=
  { template with
    name := d.name
    asmName := place.stem ++ d.name
    scope := place.scope
    isDeclared := place.isArgument
    isSet := place.isArgument }

/-- The cells of an array of single words. They do not take part in the tracking of variables that
are read before they are set. -/
def cells (header : Slot) (element : Slot) (type : ValueType) (count : Nat) : List Slot :=
  (List.range count).map fun i =>
    { element with
      name := s!"{header.name}_{i}"
      asmName := s!"{header.asmName}_{i}"
      scope := header.scope
      type := type
      isSet := true }

/-- Declare a variable, a pointer, or an array of them. -/
def base (d : Declarator) (frame : PhraseFrame) (register : Bool) (base : BaseType) :
    Except Failure Declared := do
  let dimensions ← d.dimensions
  if base = .void && !d.isPointer then
    throw (.atLine d.line .voidVariable)
  let element := base.template
  let type := if d.isPointer then element.type.pointer else element.type
  let header := { d.named frame.place element with type, wantsRegister := register }
  if dimensions.isEmpty then
    return ⟨[header], none⟩
  if register then
    throw (.atLine ((d.brackets.getLast?.map Token.line).getD d.line) .registerArray)
  let shape := frame.shapeStem ++ header.asmName
  match arrayTotal? 1 dimensions with
  | none => throw (.atLine d.line .arrayTooLarge)
  | some totalSize =>
    let header := { header with
      kind := .array
      type := type.pointer
      shape := some shape
      item := some { kind := element.kind, type, shape, totalSize } }
    match ArrayShape.ofHeader? header dimensions with
    | none => throw (.atLine d.line .strideOverflow)
    | some shape => return ⟨header :: cells header element type (totalSize - 1), some shape⟩

/-- The slots of a struct value under a name: its head, then its members. -/
def instantiate (place : Place) (shape : StructShape) (name : String) : List Slot :=
  (shape.template :: shape.members).map fun s =>
    let full := if s.name.isEmpty then name else s!"{name}_{s.name}"
    { s with name := full, asmName := place.stem ++ full, scope := place.scope }

/-- Declare a struct value, a pointer to a struct, or an array of struct values. A pointer may name
a struct that is not defined yet. -/
def struct (d : Declarator) (frame : PhraseFrame) (structName : String) (keywordLine : Line)
    (shape? : Option StructShape) : Except Failure Declared := do
  let dimensions ← d.dimensions
  let unknown := Failure.atLine keywordLine (.unknownStruct structName)
  if dimensions.isEmpty then
    if d.isPointer then
      let template := match shape? with
        | some shape => shape.template
        | none => { kind := .structRef, type := .structPtr, shape := some structName }
      return ⟨[{ d.named frame.place template with
        kind := .structRef, type := .structPtr, size := 1 }], none⟩
    match shape? with
    | some shape => return ⟨instantiate frame.place shape d.name, none⟩
    | none => throw unknown
  match shape? with
  | none => throw unknown
  | some shape =>
    if d.isPointer then
      throw (.atLine keywordLine .structPointerArray)
    let elementSize := shape.template.size
    if elementSize = 0 then
      throw (.atLine keywordLine (.emptyStruct structName))
    match arrayTotal? elementSize dimensions with
    | none => throw (.atLine keywordLine .arrayTooLarge)
    | some totalSize =>
      let header := d.named frame.place shape.template
      let header := { header with
        kind := .array
        type := .structPtr
        shape := some (frame.shapeStem ++ header.asmName)
        item := some { kind := .struct, type := .struct, shape := shape.name, totalSize } }
      let elements := (List.range ((totalSize - 1) / elementSize)).flatMap fun i =>
        instantiate frame.place shape s!"{d.name}_{i}"
      match ArrayShape.ofHeader? header dimensions with
      | none => throw (.atLine d.line .strideOverflow)
      | some shape => return ⟨{ header with size := 1 } :: elements, some shape⟩

end Declarator

/-- What the walk over a phrase is in the middle of. -/
inductive PhraseMode where
  /-- No type yet: the phrase ends unless a keyword follows. -/
  | idle
  /-- After a keyword for single words; `expecting` until a name has come. -/
  | base (base : BaseType) (expecting : Bool)
  /-- After `struct name`; `starred` since a star until the next comma, `named` right after a
  name and its brackets. -/
  | struct (name : String) (keywordLine : Line) (starred named : Bool)
  deriving DecidableEq, Repr

/-- Keep the shape of a declarator in the catalog and give its slots. -/
def Declared.record (declared : Except Failure Declared) : Layout (List Slot) := do
  match declared with
  | .error failure => throw failure
  | .ok d =>
    modify (· ++ d.shape.toList.map Shape.array)
    return d.slots

/-- The slots that the rest of a phrase declares. `first` holds right after the keyword of a type,
`register` after the keyword `register`, and `previous` is the text of the token before. -/
def walkPhrase (frame : PhraseFrame) (mode : PhraseMode) (first register : Bool)
    (previous : String) : List Token → Layout (List Slot)
  | [] => return []
  | t :: rest => do
    let declarator : Declarator :=
      { name := t.value, line := t.line, isPointer := previous = "*",
        brackets := rest.takeWhile (·.kind = .brackets) }
    match t.kind, mode with
    | .keyword, _ =>
      match t.value with
      | "long" => walkPhrase frame (.base .long true) true register t.value rest
      | "fixed" => walkPhrase frame (.base .fixed true) true register t.value rest
      | "void" => walkPhrase frame (.base .void true) true register t.value rest
      | "struct" =>
        if t.structName.isEmpty then
          throw (.atLine t.line .unnamedStruct)
        walkPhrase frame (.struct t.structName t.line false false) true register t.value rest
      | "register" =>
        if frame.place.isArgument then
          throw (.atLine t.line .registerArgument)
        walkPhrase frame .idle false true t.value rest
      | _ => walkPhrase frame .idle false register t.value rest
    | _, .idle => return []
    | .delimiter, .base base _ =>
      if first then
        throw (.atLine t.line .unexpectedDelimiter)
      walkPhrase frame (.base base true) false register t.value rest
    | .ident, .base base true =>
      let slots ← Declared.record (declarator.base frame register base)
      return slots ++ (← walkPhrase frame (.base base false) false register t.value rest)
    | _, .base base expecting =>
      walkPhrase frame (.base base expecting) false register t.value rest
    | .delimiter, .struct name line _ _ =>
      if first then
        throw (.atLine t.line .unexpectedDelimiter)
      walkPhrase frame (.struct name line false false) false register t.value rest
    | .ident, .struct name line starred _ =>
      if frame.place.isArgument && !starred then
        throw (.atLine t.line .structArgument)
      let shape? := Catalog.findStruct? (← get) name frame.place.stem
      let slots ← Declared.record (declarator.struct frame name line shape?)
      let later ← walkPhrase frame (.struct name line starred true) false register t.value rest
      return slots ++ later
    | kind, .struct name line starred named =>
      if kind = .brackets && named then
        walkPhrase frame (.struct name line starred true) false register t.value rest
      else if (kind = .unaryOperator || kind = .operator) && t.value = "*" then
        walkPhrase frame (.struct name line true false) false register t.value rest
      else
        throw (.atLine t.line (.strayStructElement t.value))

namespace Layout

/-- The slots that a phrase declares at a place. -/
def declare (place : Place) (tokens : List Token) : Layout (List Slot) :=
  walkPhrase { place } .idle false false "" tokens

/-- Define a struct by the phrase of its members. -/
def defineStruct (place : Place) (name : String) (members : List Token) (line : Line) :
    Layout Unit := do
  let fullName := place.stem ++ name
  if (Catalog.findStruct? (← get) fullName "").isSome then
    throw (.atLine line (.structRedefined name))
  let frame : PhraseFrame := { place := { scope := place.scope }, shapeStem := fullName ++ "_" }
  let slots ← walkPhrase frame .idle false false "" members
  let template : Slot :=
    { kind := .struct, type := .struct, shape := some fullName,
      size := slots.foldr (·.kind.width + ·) 0, isSet := true }
  modify (· ++ [Shape.struct { name := fullName, members := slots, template }])

end Layout

end Flatword
