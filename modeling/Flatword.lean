import Flatword.Numeral
import Flatword.Word
import Flatword.Location
import Flatword.Failure
import Flatword.Warning
import Flatword.Text.Blank
import Flatword.Literal.Decimal
import Flatword.Literal.Chars
import Flatword.Options
import Flatword.Json.Value
import Flatword.Json.Fields
import Flatword.Json.Number
import Flatword.Json.Text
import Flatword.Json.Lexeme
import Flatword.Json.Reader
import Flatword.Json.Writer
import Flatword.Operator
import Flatword.ValueType
import Flatword.Source.Token
import Flatword.Source.Expr
import Flatword.Source.Stmt
import Flatword.Source.Program
import Flatword.Source.Json
import Flatword.Options.Json
import Flatword.Warning.Json
import Flatword.Asm.Instr
import Flatword.Memory.Slot
import Flatword.Memory.Table
import Flatword.Memory.Shape
import Flatword.Memory.Json
import Flatword.Declare
import Flatword.Pool
import Flatword.Session
import Flatword.Lower.Scope
import Flatword.Lower.Assign
import Flatword.Lower.Operand
import Flatword.Lower.Path
import Flatword.Lower.Branch
import Flatword.Lower.Expression
import Flatword.Source.Block
import Flatword.Lower.Statement
import Flatword.Compile
import Flatword.Command.Argument
import Flatword.Command.Basic
import Flatword.Command.Run
import Flatword.Command.Folder
import Flatword.Main
import Flatword.Proofs.Run
import Flatword.Proofs.Moves
import Flatword.Proofs.Table
import Flatword.Proofs.Ground
import Flatword.Proofs.Place
import Flatword.Proofs.Registers
import Flatword.Proofs.Balance
import Flatword.Proofs.Layout
import Flatword.Proofs.Leak
import Flatword.Proofs.Blocks
import Flatword.Proofs.Label
import Flatword.Proofs.Operand
import Flatword.Proofs.Value
import Flatword.Proofs.Condition
import Flatword.Proofs.Pure
import Flatword.Proofs.Arguments
import Flatword.Proofs.Sentence
import Flatword.Proofs.Header
import Flatword.Proofs.Behaviour
import Flatword.Proofs.Structured
import Flatword.Proofs.Spared
import Flatword.Proofs.Constants
import Flatword.Proofs.Scratch
import Flatword.Proofs.Abandoned
import Flatword.Proofs.Straight
import Flatword.Proofs.Linked
import Flatword.Proofs.Fair
import Flatword.Proofs.Jumps
import Flatword.Proofs.Resolve
import Flatword.Proofs.Shapes
import Flatword.Proofs.Pointer
import Flatword.Proofs.Access
import Flatword.Proofs.Emission
import Flatword.Proofs.Mirror
import Flatword.Proofs.Enlarged
import Flatword.Proofs.Confined
import Flatword.Proofs.Footing
import Flatword.Proofs.Cells
import Flatword.Proofs.Stored
import Flatword.Proofs.Subscript
import Flatword.Proofs.Saved
import Flatword.Proofs.Series
import Flatword.Proofs.Literal
import Flatword.Proofs.Filled
import Flatword.Proofs.Early
import Flatword.Proofs.Initial
import Flatword.Proofs.Surround
import Flatword.Proofs.Enclosed
import Flatword.Proofs.Guarded
import Flatword.Proofs.Stride
import Flatword.Proofs.Warned
import Flatword.Proofs.Comments
import Flatword.Proofs.Reuse
import Flatword.Proofs.Slices
import Flatword.Proofs.Decimal
import Flatword.Proofs.Reading
import Flatword.Proofs.Document
import Flatword.Proofs.Nesting
import Flatword.Proofs.Lookups
import Flatword.Proofs.Issued
