import Flatword.Operator

/-!
# Instructions and their text

The target has two-operand instructions over named words, with one level of indirection in `SET`.
In the text `@name` is written, `$name` is read, `#` starts an immediate word and `:` a label.
-/

namespace Flatword

/-- Where an instruction writes: a variable, or the word at `base`, or at `base + index`. -/
inductive Dest where
  | var (name : String)
  | indirect (base : String) (index : Option String)
  deriving DecidableEq, Repr

/-- What an instruction reads: a variable, an immediate word, or the word at `base`, or at
`base + index`. -/
inductive Src where
  | var (name : String)
  | immediate (hex : String)
  | indirect (base : String) (index : Option String)
  deriving DecidableEq, Repr

/-- One line of assembly. -/
inductive Instr where
  | declare (name : String)
  /-- An initialisation done before the program starts. -/
  | const (instr : Instr)
  | comment (text : String)
  | label (name : String)
  | set (dest : Dest) (src : Src)
  | clear (name : String)
  | inc (name : String)
  | dec (name : String)
  | not (name : String)
  | arith (op : BinaryOp) (dest src : String)
  | push (name : String)
  | pop (name : String)
  | call (target : String)
  | jump (target : String)
  | ifZero (name target : String)
  | ifNonzero (name target : String)
  | ifCompare (op : Comparison) (left right target : String)
  | ret
  | finish
  | stop
  deriving DecidableEq, Repr

/-- Instructions in order. -/
abbrev Code := List Instr

namespace Instr

/-- Copy one variable to another. -/
def move (dest src : String) : Instr :=
  set (.var dest) (.var src)

def setImmediate (dest hex : String) : Instr :=
  set (.var dest) (.immediate hex)

end Instr

/-- The text of an indirection after its sign. -/
def indirectText (base : String) : Option String → String
  | some index => "($" ++ base ++ " + $" ++ index ++ ")"
  | none => "($" ++ base ++ ")"

def Dest.text : Dest → String
  | var name => "@" ++ name
  | indirect base index => "@" ++ indirectText base index

def Src.text : Src → String
  | var name => "$" ++ name
  | immediate hex => "#" ++ hex
  | indirect base index => "$" ++ indirectText base index

def Instr.text : Instr → String
  | declare name => "^declare " ++ name
  | const instr => "^const " ++ instr.text
  | comment text => "^comment " ++ text
  | label name => name ++ ":"
  | set dest src => "SET " ++ dest.text ++ " " ++ src.text
  | clear name => "CLR @" ++ name
  | inc name => "INC @" ++ name
  | dec name => "DEC @" ++ name
  | not name => "NOT @" ++ name
  | arith op dest src => op.mnemonic ++ " @" ++ dest ++ " $" ++ src
  | push name => "PSH $" ++ name
  | pop name => "POP @" ++ name
  | call target => "JSR :" ++ target
  | jump target => "JMP :" ++ target
  | ifZero name target => "BZR $" ++ name ++ " :" ++ target
  | ifNonzero name target => "BNZ $" ++ name ++ " :" ++ target
  | ifCompare op left right target =>
    op.mnemonic ++ " $" ++ left ++ " $" ++ right ++ " :" ++ target
  | ret => "RET"
  | finish => "FIN"
  | stop => "STP"

/-- The text of code, each instruction on a line of its own. -/
def Code.text (code : Code) : String :=
  String.join (List.map (fun instr => instr.text ++ "\n") code)

end Flatword
