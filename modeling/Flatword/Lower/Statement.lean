import Flatword.Lower.Expression
import Flatword.Source.Block

/-!
# Lowering of statements

Each expression and condition of a statement is lowered in a scope of its own. Control structures
take one number for their labels.
-/

namespace Flatword

/-- What is fixed for the main code or for one function. -/
structure Routine where
  function : Option Function := none
  /-- The source text by lines, for comments. -/
  sourceLines : List String := []
  /-- The labels that can be jumped to. -/
  labels : List String := []
  deriving Repr

/-- How far the code of a routine has come. -/
structure Progress where
  session : Session
  /-- The last line that has got a comment. -/
  commented : Option Line := none
  deriving Repr

/-- Emitting statements reads the routine, and what was changed before a failure stays. -/
abbrev Emit := ReaderT Routine (ExceptT Failure (StateM Progress))

/-- The labels of a loop. -/
structure LoopLabels where
  start : String
  onContinue : String
  onBreak : String
  deriving DecidableEq, Repr

def LoopLabels.ofId (id : String) : LoopLabels where
  start := s!"__loop{id}_start"
  onContinue := s!"__loop{id}_continue"
  onBreak := s!"__loop{id}_break"

namespace Lower

/-- Whether an expression computes a value rather than naming a place, storing or calling. -/
def computes : Expr → Bool
  | .unary op _ _ => op ≠ .deref
  | .binary _ _ _ _ | .compare _ _ _ _ | .logical _ _ _ _ => true
  | _ => false

/-- Refuse a computed value in a register that nothing uses. -/
def checkUsed (e : Expr) (value : Slot) : Lower Unit :=
  if computes e ∧ value.kind = .register then fail .unusedValue else return ()

/-- An expression evaluated for its effects, with what is left for after it. -/
def effect (e : Expr) : Lower Code := do
  allowReuse
  let value ← e.lower
  checkUsed e value.slot
  releaseOperand value.slot
  let post ← takePost
  return value.code ++ post

/-- The value that a `const` sentence assigns; one of several words counts as 0. -/
def constValue? : Expr → Option Word
  | .assign none _ (.constant hex _ _) _ => some ((Hex.value? hex).getD 0)
  | _ => none

/-- Note the value of a variable that is set by a `const` sentence. -/
def recordConstant (target : Slot) (value : Word) : Lower Unit :=
  if target.offset.isNone ∧ (target.kind = .long ∨ target.kind = .fixed) then
    modifySession fun s =>
      { s with table := s.table.setContent target.asmName (Hex.ofWord value) }
  else return ()

/-- A `const` sentence: its code is done before the program starts. -/
def constEffect (e : Expr) : Lower Code := do
  let value ← orFail (constValue? e) .constSentenceForm
  let target ← e.lower
  recordConstant target.slot value
  releaseOperand target.slot
  let post ← takePost
  return target.code.map Instr.const ++ post

/-- A condition of a statement, where nothing may be left for after it. -/
def condition (e : Expr) (b : Branch) : Lower Code := do
  let code ← e.lowerCondition b
  if !(← get).post.isEmpty then
    fail .postStepInCondition
  return code

/-- Leave a value in the first register and return. -/
def returnValue (e : Expr) : Lower Code := do
  let value ← e.lower
  let flat ← flatten value.slot
  flat.release
  releaseOperand value.slot
  let post ← takePost
  return value.code ++ flat.code ++ [.move "r0" flat.slot.asmName] ++ post ++ [.ret]

/-- A whole statement: at its end all registers must have been given back. -/
def whole {α : Type} (step : Lower α) : Lower α := do
  let a ← step
  finish
  return a

end Lower

namespace Emit

def fail {α : Type} (line : Line) (cause : Cause) : Emit α :=
  throw (.atLine line cause)

def modifySession (change : Session → Session) : Emit Unit :=
  modify fun p => { p with session := change p.session }

def functionName? : Emit (Option String) :=
  return (← read).function.map Function.name

/-- Lower a whole statement in a new scope; what that does to the session stays, whether it fails or
not. -/
def inScope {α : Type} (line : Line) (step : Lower α) (constSentence : Bool := false) :
    Emit α := do
  let p ← get
  let frame : Frame := { function := ← functionName?, line, constSentence }
  let (result, scope) := (((Lower.whole step).run frame).run).run (.start p.session)
  set { p with session := scope.session }
  MonadExcept.ofExcept result

def newJump : Emit String := do
  let p ← get
  let (id, session) := p.session.newJump
  set { p with session }
  return id

/-- The comment for a source line: its number and its text, if there is any. -/
def lineComment (sourceLines : List String) (line : Line) : Instr :=
  let text := if line = 0 then "" else (sourceLines[line.toNat - 1]?).getD ""
  .comment (if text.isEmpty then s!"line {line}" else s!"line {line} {text}")

/-- With verbose options, a comment for a line that has not just had one. -/
def comment (line? : Option Line) : Emit Code := do
  let p ← get
  match line? with
  | some line =>
    if p.session.options.verbose ∧ p.commented ≠ some line then
      set { p with commented := some line }
      return [lineComment (← read).sourceLines line]
    return []
  | none => return []

/-- An expression that stands alone. -/
def expression (e : Expr) : Emit Code :=
  inScope e.line (Lower.effect e.asStatement)

def optionalExpression : Option Expr → Emit Code
  | some e => expression e
  | none => return []

def constSentence (e : Expr) : Emit Code :=
  inScope e.line (Lower.constEffect e) true

def condition (e : Expr) (b : Lower.Branch) : Emit Code :=
  inScope e.line (Lower.condition e b)

/-- A condition that holds if it is missing. -/
def optionalCondition (e : Option Expr) (b : Lower.Branch) : Emit Code :=
  match e with
  | some e => condition e b
  | none => return []

/-- Mark the variables of a phrase as declared from here on. -/
def declaration (tokens : List Token) : Emit Unit := do
  let stem := match ← functionName? with
    | some name => name ++ "_"
    | none => ""
  let names := (tokens.filter (·.kind = .ident)).map (stem ++ ·.value)
  modifySession fun s => { s with table := names.foldl Table.markDeclared s.table }

def returnStatement (value : Option Expr) (line : Line) : Emit Code := do
  match (← read).function, value with
  | none, _ => fail line .returnOutsideFunction
  | some f, none =>
    if f.returnType = .void then return [.ret] else fail line (.missingReturnValue f.name)
  | some f, some e =>
    if f.returnType = .void then fail line (.valueFromVoid f.name)
    else inScope line (Lower.returnValue e)

/-- A jump to a label of the innermost loop. -/
def jumpInLoop (loop : Option String) (label : LoopLabels → String) (line : Line)
    (cause : Cause) : Emit Code :=
  match loop with
  | some id => return [.jump (label (.ofId id))]
  | none => fail line cause

def goto (target : String) (line : Line) : Emit Code := do
  if target ∈ (← read).labels then return [.jump target]
  else fail line (.unknownLabel target)

/-- A conditional statement from its blocks; `otherwise` is missing without an else part. -/
def ifElse (e : Expr) (body : Emit Code) (otherwise : Option (Emit Code)) : Emit Code := do
  let id ← newJump
  let start := s!"__if{id}_start"
  let onElse := s!"__if{id}_else"
  let done := s!"__if{id}_endif"
  let test ← condition e
    { onFalse := if otherwise.isSome then onElse else done, onTrue := start }
  let body ← body
  let rest ←
    match otherwise with
    | some other => do
      let other ← other
      pure ([.jump done, .label onElse] ++ other)
    | none => pure []
  return test ++ [.label start] ++ body ++ rest ++ [.label done]

/-- A loop that tests before each round. The body is given the number of the loop. -/
def whileLoop (e : Expr) (body : String → Emit Code) : Emit Code := do
  let id ← newJump
  let labels := LoopLabels.ofId id
  let test ← condition e { onFalse := labels.onBreak, onTrue := labels.start }
  let body ← body id
  return [.label labels.onContinue] ++ test ++ [.label labels.start] ++ body ++
    [.jump labels.onContinue, .label labels.onBreak]

/-- A loop that tests after each round. -/
def doLoop (e : Expr) (body : String → Emit Code) : Emit Code := do
  let id ← newJump
  let labels := LoopLabels.ofId id
  let body ← body id
  let note ← comment (some e.line)
  let test ← condition e { onFalse := labels.onBreak, onTrue := labels.start, reversed := true }
  return [.label labels.start] ++ body ++ [.label labels.onContinue] ++ note ++ test ++
    [.label labels.onBreak]

def forLoop (init e step : Option Expr) (body : String → Emit Code) : Emit Code := do
  let id ← newJump
  let labels := LoopLabels.ofId id
  let onCondition := s!"__loop{id}_condition"
  let init ← optionalExpression init
  let test ← optionalCondition e { onFalse := labels.onBreak, onTrue := labels.start }
  let body ← body id
  let step ← optionalExpression step
  return init ++ [.label onCondition] ++ test ++ [.label labels.start] ++ body ++
    [.label labels.onContinue] ++ step ++ [.jump onCondition, .label labels.onBreak]

/-- Code after the comment for its line. -/
def commented (line? : Option Line) (code : Emit Code) : Emit Code := do
  let note ← comment line?
  return note ++ (← code)

end Emit

namespace Stmt

mutual

/-- The code of a statement inside the loop of a number, if there is one. -/
def emit (loop : Option String) : Stmt → Emit Code
  | expression e => Emit.commented (some e.line) (Emit.expression e)
  | const e => Emit.commented (some e.line) (Emit.constSentence e)
  | declaration tokens => do
    Emit.declaration tokens
    return []
  | structDefinition _ _ _ => return []
  | ifElse e thenBranch elseBranch line =>
    Emit.commented (some line)
      (Emit.ifElse e (emitBlock loop thenBranch) (emitElse loop elseBranch))
  | whileLoop e body line =>
    Emit.commented (some line) (Emit.whileLoop e fun id => emitBlock (some id) body)
  | doLoop body e line =>
    Emit.commented (some line) (Emit.doLoop e fun id => emitBlock (some id) body)
  | forLoop init e step body line =>
    Emit.commented (some line) (Emit.forLoop init e step fun id => emitBlock (some id) body)
  | breakLoop line =>
    Emit.commented (some line)
      (Emit.jumpInLoop loop LoopLabels.onBreak line .breakOutsideLoop)
  | continueLoop line =>
    Emit.commented (some line)
      (Emit.jumpInLoop loop LoopLabels.onContinue line .continueOutsideLoop)
  | goto target line => Emit.commented (some line) (Emit.goto target line)
  | label name line => Emit.commented (some line) (return [.label name])
  | ret value line => Emit.commented (some line) (Emit.returnStatement value line)
  | exit line => Emit.commented (some line) (return [.finish])
  | halt line => Emit.commented (some line) (return [.stop])
  | block body => emitBlock loop body

def emitBlock (loop : Option String) : List Stmt → Emit Code
  | [] => return []
  | stmt :: rest => do
    let first ← stmt.emit loop
    return first ++ (← emitBlock loop rest)

def emitElse (loop : Option String) : Option (List Stmt) → Option (Emit Code)
  | none => none
  | some body => some (emitBlock loop body)

end

end Stmt

namespace Session

/-- Emit from a session. -/
def runEmit {α : Type} (routine : Routine) (step : Emit α) : SessionM α := do
  let (result, progress) := ((step.run routine).run).run { session := ← get }
  set progress.session
  MonadExcept.ofExcept result

/-- The code of the main code or of a function, once its labels are found to be in order. -/
def emitUnit (function : Option Function) (sourceLines : List String) (body : List Stmt) :
    SessionM Code := do
  match Stmt.labelFault? body with
  | some failure => throw failure
  | none =>
    let labels := (Stmt.blockLabels body).map LabelAt.name
    runEmit { function, sourceLines, labels } (Stmt.emitBlock none body)

end Session

end Flatword
