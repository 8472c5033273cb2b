import Flatword.Lower.Statement

/-!
# Compilation of programs

All declarations are laid out first, the globals before those of each function. The code is then
lowered against the finished table, main code first.
-/

namespace Flatword

/-- A generated program in its parts. -/
structure Assembly where
  /-- The declarations of all words, with their initial values. -/
  header : Code
  main : Code
  /-- Each function with its name. -/
  functions : List (String × Code)
  deriving DecidableEq, Repr

namespace Assembly

/-- The label at which a function starts. -/
def entry (name : String) : String :=
  s!"__fn_{name}"

/-- The instructions of a function, its label included. -/
def functionCode (f : String × Code) : Code :=
  .label (entry f.1) :: f.2

/-- All instructions in order. -/
def code (a : Assembly) : Code :=
  a.header ++ a.main ++ a.functions.flatMap functionCode

/-- The text of a program, with an empty line between its parts. -/
def text (a : Assembly) : String :=
  a.header.text ++ "\n" ++ a.main.text ++
    String.join (a.functions.map fun f => "\n" ++ (functionCode f).text)

end Assembly

/-- What compilation gives. -/
structure Compiled where
  assembly : Assembly
  warnings : Journal
  table : Table
  deriving Repr

namespace Session

def define (place : Place) : Definition → SessionM Unit
  | .variables tokens => discard (declare place tokens)
  | .struct name members line => liftLayout (Layout.defineStruct place name members line)

def defineAll (place : Place) (body : List Stmt) : SessionM Unit :=
  (Stmt.blockDefinitions body).forM (define place)

/-- The signature of a function with these slots as arguments. -/
def signatureOf (f : Function) (arguments : List Slot) : Signature where
  name := f.name
  returnType := f.returnType
  arguments := (arguments.filter (·.kind ≠ .struct)).map Slot.asmName

/-- Lay out the arguments and the variables of a function. -/
def defineFunction (f : Function) : SessionM Unit := do
  if ((← get).signature? f.name).isSome then
    throw (.atLine f.line (.functionRedefined f.name))
  let arguments ← if f.takesNothing then pure [] else declare (.arguments f.name) f.arguments
  modify fun s => { s with functions := s.functions ++ [signatureOf f arguments] }
  defineAll (.function f.name) f.body

/-- Lay out all variables of a program. -/
def build (program : Program) : SessionM Unit := do
  defineAll .global program.main
  program.functions.forM defineFunction

/-- The lines that declare a slot. Arrays and ready-made constants have a value from the start. -/
def declareLines (s : Session) (slot : Slot) : Code :=
  if slot.kind = .struct then []
  else
    let isFilled := slot.kind = .array ∨ slot.asmName ∈ s.autoConstants
    match slot.content with
    | some hex =>
      if isFilled then
        [.declare slot.asmName, .const (.setImmediate slot.asmName hex)]
      else [.declare slot.asmName]
    | none => [.declare slot.asmName]

def header (s : Session) : Code :=
  s.table.slots.flatMap s.declareLines

/-- Code that ends in a return. -/
def returning (code : Code) : Code :=
  if code.getLast? = some .ret then code else code ++ [.ret]

def compileFunction (sourceLines : List String) (f : Function) : SessionM (String × Code) := do
  let code ← emitUnit (some f) sourceLines f.body
  return (f.name, returning code)

/-- Compile a program. The header is taken when the main code is done, before the functions. -/
def assemble (program : Program) : SessionM Assembly := do
  build program
  let main ← emitUnit none program.sourceLines program.main
  let header := (← get).header
  let functions ← program.functions.mapM (compileFunction program.sourceLines)
  return { header, main := main ++ [.finish], functions }

/-- Compile a program and take the warnings and the table out of the session. -/
def compile (s : Session) (program : Program) : Except Failure Compiled :=
  let (result, session) := (assemble program).run.run s
  result.map fun assembly =>
    { assembly, warnings := session.journal, table := session.table }

end Session

/-- Apply pragmas one after the other. -/
def Options.applyPragmas (pragmas : List Pragma) : ExceptT Failure (StateM Options) Unit :=
  pragmas.forM fun p => applyPragma p.name p.value (.atLine p.line)

/-- Compile a program, starting from options that its pragmas change. -/
def compile (options : Options) (program : Program) : Except Failure Compiled := do
  let (result, options) := (Options.applyPragmas program.pragmas).run.run options
  result
  (← Session.start options).compile program

end Flatword
