import Flatword.Location

/-!
# Failures

Every way in which laying out memory or generating code can fail is a `Cause`. A cause belongs to
one `Category` and has one wording; a `Failure` is a cause at a place in the source.
-/

namespace Flatword

/-- The classes of failures. Those of class `internal` point at a defect of an earlier stage. A failure
of class `crash` is no answer: the generator itself stops. -/
inductive Category where
  | declaration
  | addressing
  | overflow
  | controlFlow
  | resourceExhausted
  | invalidLiteral
  | options
  | internal
  | file
  | crash
  deriving DecidableEq, Repr

/-- Why a step failed. -/
inductive Cause where
  | alreadyDeclared (name : String)
  | undeclaredVariable (name : String)
  | undeclaredFunction (name : String)
  | functionRedefined (name : String)
  | structRedefined (name : String)
  | registerArgument
  | unexpectedDelimiter
  | voidVariable
  | registerArray
  | arrayTooLarge
  | arraySizeNotConstant
  | structArgument
  | strayStructElement (value : String)
  | unknownStruct (name : String)
  | structPointerArray
  | emptyStruct (name : String)
  | nothingAtAddress (address : Nat)
  | structAsValue (name : String)
  | addressOfValue
  | notIndexable (name : String)
  | missingIndexes (name : String) (needed : Nat)
  | missingMember (member owner : String)
  | notAStruct (name : String)
  | compositeMember (member : String)
  | notAStructPointer (name : String)
  | wordOverflow
  | arrayOverflow
  | indexOutOfRange
  | numberTooBig (text : String)
  | fixedTooBig (text : String)
  | voidInExpression
  | voidInAssignment
  | invalidTarget
  | indexedPostStep
  | argumentCount (name : String) (needed : Nat)
  | breakOutsideLoop
  | continueOutsideLoop
  | unknownLabel (name : String)
  | labelRedefined (name : String)
  | danglingLabel (name : String)
  | returnOutsideFunction
  | valueFromVoid (name : String)
  | missingReturnValue (name : String)
  | postStepInCondition
  | unusedValue
  | constSentenceForm
  | registersExhausted (capacity : Nat)
  | tooManyPoints (text : String)
  | tooManyDecimals (text : String)
  | invalidNumber (text : String)
  | hexEscape
  | unicodeEscape
  | unknownEscape (c : Char)
  | endsInEscape
  | levelOutOfRange
  | registersOutOfRange
  | constantsOutOfRange
  | notANumber (value name : String)
  | unknownSwitch (value : String)
  | unknownPragma (name : String)
  | malformedOptions (reason : String)
  | unnamedStruct
  | operandsOfAssignment
  | operandShape
  | unknownArrayShape (name : String)
  | missingArgument (name : String)
  | registersInUse (names : List String)
  | endlessNesting
  | unreadableFile (reason : String)
  | strideOverflow
  | splitCharacter
  deriving DecidableEq, Repr

namespace Cause

def category : Cause → Category
  | alreadyDeclared _ | undeclaredVariable _ | undeclaredFunction _ | functionRedefined _
  | structRedefined _ | registerArgument | unexpectedDelimiter | voidVariable | registerArray
  | arrayTooLarge | arraySizeNotConstant | structArgument | strayStructElement _ | unknownStruct _
  | structPointerArray | emptyStruct _ => .declaration
  | nothingAtAddress _ | structAsValue _ | addressOfValue | notIndexable _ | missingIndexes _ _
  | missingMember _ _ | notAStruct _ | compositeMember _ | notAStructPointer _ => .addressing
  | wordOverflow | arrayOverflow | indexOutOfRange | numberTooBig _ | fixedTooBig _ => .overflow
  | voidInExpression | voidInAssignment | invalidTarget | indexedPostStep | argumentCount _ _
  | breakOutsideLoop | continueOutsideLoop | unknownLabel _ | labelRedefined _ | danglingLabel _
  | returnOutsideFunction | valueFromVoid _ | missingReturnValue _ | postStepInCondition
  | unusedValue | constSentenceForm => .controlFlow
  | registersExhausted _ => .resourceExhausted
  | tooManyPoints _ | tooManyDecimals _ | invalidNumber _ | hexEscape | unicodeEscape
  | unknownEscape _ | endsInEscape => .invalidLiteral
  | levelOutOfRange | registersOutOfRange | constantsOutOfRange | notANumber _ _ | unknownSwitch _
  | unknownPragma _ | malformedOptions _ => .options
  | unnamedStruct | operandsOfAssignment | operandShape | unknownArrayShape _ | missingArgument _
  | registersInUse _ | endlessNesting => .internal
  | unreadableFile _ => .file
  | strideOverflow | splitCharacter => .crash

/-- The wording of a cause, without the place. -/
def message : Cause → String
  | alreadyDeclared name => s!"Variable '{name}' already declared."
  | undeclaredVariable name => s!"Using variable '{name}' before declaration."
  | undeclaredFunction name => s!"Function '{name}' not declared."
  | functionRedefined name => s!"Function '{name}' already defined."
  | structRedefined name => s!"Struct '{name}' already defined."
  | registerArgument => "Arguments for functions cannot be register type."
  | unexpectedDelimiter => "Delimiter ',' not expected."
  | voidVariable => "Can not declare variables as void."
  | registerArray => "'register' modifier on arrays is not implemented."
  | arrayTooLarge => "Array size is too large."
  | arraySizeNotConstant => "Wrong array declaration. Only constant size declarations allowed."
  | structArgument => "Passing struct by value as argument is not supported. Pass by reference."
  | strayStructElement value => s!"Invalid element (value: '{value}') found in struct definition."
  | unknownStruct name => s!"Could not find type definition for 'struct' '{name}'."
  | structPointerArray => "Arrays of struct pointers are not currently supported."
  | emptyStruct name => s!"Struct '{name}' has no members."
  | nothingAtAddress address => s!"No variable found at address '{address}'."
  | structAsValue name => s!"Struct '{name}' can not be used as a value. Use one of its members."
  | addressOfValue => "Address-of operator '&' can only be applied to variables."
  | notIndexable name => s!"Variable '{name}' is not an array or a pointer to long."
  | missingIndexes name needed => s!"Array '{name}' needs {needed} indexes to address one element."
  | missingMember member owner => s!"Member '{member}' not found in struct '{owner}'."
  | notAStruct name => s!"Variable '{name}' is not a struct. Use '->' for struct pointers."
  | compositeMember member =>
      s!"Member '{member}' is an array or struct and can not be reached " ++
        "through an index or pointer."
  | notAStructPointer name => s!"Variable '{name}' is not a struct pointer."
  | wordOverflow => "Overflow on long value assignment (value bigger than 64 bits)"
  | arrayOverflow => "Overflow on array value assignment (value bigger than array size)."
  | indexOutOfRange => "Array index is outside array range."
  | numberTooBig text => s!"Number '{text}' is bigger than 64 bits."
  | fixedTooBig text => s!"Fixed number '{text}' is bigger than 64 bits."
  | voidInExpression => "Function returning void value can not be used in expressions."
  | voidInAssignment => "Function returning void value can not be used in assignments."
  | invalidTarget => "Invalid left value for assignment."
  | indexedPostStep =>
      "Post increment or decrement of indexed values is only supported as a statement."
  | argumentCount name needed =>
      s!"Wrong number of arguments for function '{name}'. It must have '{needed}' args."
  | breakOutsideLoop => "'break' used outside of a loop."
  | continueOutsideLoop => "'continue' used outside of a loop."
  | unknownLabel name => s!"Label '{name}' not found in the current function."
  | labelRedefined name => s!"Label '{name}' already defined."
  | danglingLabel name => s!"Label '{name}' must be followed by a statement."
  | returnOutsideFunction => "'return' used outside of a function."
  | valueFromVoid name => s!"Function '{name}' returns void and can not return a value."
  | missingReturnValue name => s!"Function '{name}' must return a value."
  | postStepInCondition =>
      "Post increment or decrement are not allowed in conditions. Use pre increment or decrement."
  | unusedValue =>
      "Operation returning a value that is not being used. " ++
        "Use casting to (void) to avoid this error."
  | constSentenceForm => "'const' sentences must assign a constant value to a variable."
  | registersExhausted capacity =>
      s!"No more registers available. Increase the number with '#pragma maxAuxVars " ++
        s!"{capacity + 1}' or try to reduce nested operations."
  | tooManyPoints text => s!"Too many decimal points in number '{text}'."
  | tooManyDecimals text => s!"Fixed numbers can have at most 8 decimals. Found '{text}'."
  | invalidNumber text => s!"Invalid number '{text}'."
  | hexEscape => "Wrong hexadecimal escape code. Expected two hex digits."
  | unicodeEscape => "Wrong unicode escape code. Expected four hex digits."
  | unknownEscape c => s!"Unknown escape sequence '\\{c}'."
  | endsInEscape => "String ends with an escape character."
  | levelOutOfRange => "Value out of permitted range 0..3 for optimizationLevel."
  | registersOutOfRange => "Value out of permitted range 1..10 for maxAuxVars."
  | constantsOutOfRange => "Value out of permitted range 0..10 for maxConstVars."
  | notANumber value name => s!"Value '{value}' for pragma {name} is not a number."
  | unknownSwitch value => s!"Unknown value '{value}' for pragma verboseAssembly."
  | unknownPragma name => s!"Unknown pragma: '{name}'."
  | malformedOptions reason => s!"Invalid configuration: {reason}"
  | unnamedStruct => "Unknown struct type definition."
  | operandsOfAssignment => "Unexpected operands in assignment."
  | operandShape => "Unexpected operand shape."
  | unknownArrayShape name => s!"Array type definition not found for '{name}'."
  | missingArgument name => s!"Argument '{name}' not found."
  | registersInUse names =>
      "Registers still in use at end of statement: " ++ String.intercalate ", " names ++ "."
  | endlessNesting => "Array cells refer back to their own array."
  | unreadableFile reason => reason
  | strideOverflow => "attempt to multiply with overflow"
  | splitCharacter => "byte index is not a char boundary"

end Cause

/-- A message of some category about a place in the source. -/
structure Report where
  category : Category
  location : Location
  message : String
  deriving DecidableEq, Repr

namespace Report

def text (r : Report) : String :=
  match r.category with
  | .file => s!"IO error: {r.message}"
  | .internal => s!"Internal error at line: {r.location.text}. {r.message}"
  | _ => s!"At line: {r.location.text}. {r.message}"

/-- File failures have no place in the source. -/
def location? (r : Report) : Option Location :=
  if r.category = .file then none else some r.location

def isInternal (r : Report) : Bool :=
  r.category = .internal

end Report

/-- A cause at a place in the source. -/
structure Failure where
  location : Location
  cause : Cause
  deriving DecidableEq, Repr

namespace Failure

def atLine (line : Line) (cause : Cause) : Failure :=
  ⟨.atLine line, cause⟩

def report (f : Failure) : Report :=
  ⟨f.cause.category, f.location, f.cause.message⟩

def text (f : Failure) : String :=
  f.report.text

end Failure

end Flatword
