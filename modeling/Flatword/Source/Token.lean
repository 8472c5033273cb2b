import Flatword.Location
import Flatword.Numeral

/-!
# Tokens of declarations

Declarations reach the generator as phrases of classified tokens.
-/

namespace Flatword

inductive TokenKind where
  | keyword
  | ident
  | delimiter
  | operator
  | unaryOperator
  /-- A pair of brackets, whose content is in the parameters of the token. -/
  | brackets
  /-- A number, as hexadecimal digits. -/
  | constant
  deriving DecidableEq, Repr

structure Token where
  kind : TokenKind
  value : String
  line : Line
  params : List Token := []
  /-- The name of the struct after the keyword `struct`. -/
  structName : String := ""
  deriving Repr

namespace TokenKind

def all : List TokenKind :=
  [keyword, ident, delimiter, operator, unaryOperator, brackets, constant]

def name : TokenKind → String
  | keyword => "keyword"
  | ident => "variable"
  | delimiter => "delimiter"
  | operator => "operator"
  | unaryOperator => "unaryOperator"
  | brackets => "arr"
  | constant => "constant"

end TokenKind

namespace Token

def keyword (value : String) (line : Line) : Token :=
  { kind := .keyword, value, line }

def struct (name : String) (line : Line) : Token :=
  { kind := .keyword, value := "struct", line, structName := name }

def ident (name : String) (line : Line) : Token :=
  { kind := .ident, value := name, line }

def comma (line : Line) : Token :=
  { kind := .delimiter, value := ",", line }

def star (line : Line) : Token :=
  { kind := .unaryOperator, value := "*", line }

def constant (value : UInt64) (line : Line) : Token :=
  { kind := .constant, value := Numeral.shortest 16 16 value.toNat, line }

def bracketsOf (params : List Token) (line : Line) : Token :=
  { kind := .brackets, value := "[", line, params }

/-- Brackets around a constant size. -/
def array (size : UInt64) (line : Line) : Token :=
  bracketsOf [constant size line] line

end Token

end Flatword
