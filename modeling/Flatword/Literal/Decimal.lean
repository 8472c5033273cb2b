import Flatword.Failure
import Flatword.Word

/-!
# Decimal literals

`12`, `1_000`, `3.14`: digits with underscores anywhere among them. A decimal point makes the
literal a fixed-point number, which is stored multiplied by `10 ^ 8`.
-/

namespace Flatword.Literal

/-- Decimal places of fixed-point numbers. -/
def fixedPlaces : Nat := 8

/-- A literal after reading; fixed-point values are already scaled. -/
structure Decimal where
  value : Word
  isFixed : Bool
  deriving DecidableEq, Repr

/-- The parts of a text between its points; there is always at least one. -/
def splitPoints : List Char → List (List Char)
  | [] => [[]]
  | c :: rest =>
    match splitPoints rest with
    | [] => [[c]]
    | part :: parts => if c = '.' then [] :: part :: parts else (c :: part) :: parts

namespace Decimal

/-- A part of the literal `text` as a number that fits a word; an empty part is zero. -/
def readPart (text : String) (part : List Char) : Except Cause Nat :=
  if part.all fun c => '0' ≤ c && c ≤ '9' then
    let n := (Numeral.ofChars? 10 part).getD 0
    if n < wordLimit then .ok n else .error (.numberTooBig text)
  else .error (.invalidNumber text)

/-- Read a literal. The integer part is checked first, then the number of decimals, the decimals
and at last the scaled value. -/
def read (text : String) : Except Cause Decimal :=
  match splitPoints (text.toList.filter (· ≠ '_')) with
  | [] => .error (.invalidNumber text)
  | [whole] => do
    let n ← readPart text whole
    return ⟨UInt64.ofNat n, false⟩
  | [whole, decimals] => do
    let n ← readPart text whole
    if (String.ofList decimals).utf8ByteSize > fixedPlaces then
      throw (.tooManyDecimals text)
    let d ← readPart text (decimals.rightpad fixedPlaces '0')
    let scaled := n * Nat.pow 10 fixedPlaces + d
    if scaled < wordLimit then return ⟨UInt64.ofNat scaled, true⟩ else throw (.fixedTooBig text)
  | _ => .error (.tooManyPoints text)

end Decimal

end Flatword.Literal
