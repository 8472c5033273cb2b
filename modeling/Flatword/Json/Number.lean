import Flatword.Json.Value
import Flatword.Numeral

/-!
# Numbers in JSON text

A number keeps as many of its leading digits as stay below `2 ^ 64`, and a power of ten for the
others. It has a value as long as the product is finite in a floating point format with 53 bits
of precision, whose numbers end below `2 ^ 1024`.
-/

namespace Flatword.Json

/-- The number `significand * 10 ^ exponent`. -/
structure Magnitude where
  significand : Nat
  exponent : Int
  deriving DecidableEq, Repr

namespace Magnitude

/-- Where significands end. -/
def limit : Nat := UInt64.size

/-- Append a digit before the point. After the first digit without room all count as zeros. -/
def pushWhole (m : Magnitude) (digit : Nat) : Magnitude :=
  let next := 10 * m.significand + digit
  if m.exponent = 0 ∧ next < limit then ⟨next, 0⟩ else ⟨m.significand, m.exponent + 1⟩

/-- Append digits after the point, up to the first one without room. -/
def pushFraction (m : Magnitude) : List Nat → Magnitude
  | [] => m
  | digit :: rest =>
    let next := 10 * m.significand + digit
    if next < limit then pushFraction ⟨next, m.exponent - 1⟩ rest else m

/-- The number with the given digits before and after the point, times a power of ten. -/
def ofDigits (whole fraction : List Nat) (exponent : Int) : Magnitude :=
  let m := (whole.foldl pushWhole ⟨0, 0⟩).pushFraction fraction
  ⟨m.significand, m.exponent + exponent⟩

/-- The nearest number with 53 significant bits; a tie goes to the even one. -/
def nearest (n : Nat) : Nat :=
  let unit := 1 <<< (n.log2 - 52)
  let quotient := n / unit
  let remainder := n % unit
  if unit < 2 * remainder ∨ (unit = 2 * remainder ∧ quotient % 2 = 1) then (quotient + 1) * unit
  else quotient * unit

/-- The least product that is rounded to infinity. -/
def infinite : Nat := ((1 <<< 54) - 1) <<< 970

/-- Whether a number has a value. Powers of ten above `10 ^ 308` are infinite themselves. -/
def isFinite (m : Magnitude) : Bool :=
  m.significand = 0 || m.exponent < 0 || (m.exponent ≤ 308 &&
    nearest m.significand * nearest (Nat.pow 10 m.exponent.toNat) < infinite)

end Magnitude

namespace Number

/-- Digits at the front of a text, at least one. -/
def digits? (cs : List Char) : Option (List Char × List Char) :=
  match cs.span Char.isDigit with
  | ([], _) => none
  | (digits, rest) => some (digits, rest)

/-- Digits without a leading zero, unless zero is the only one. -/
def whole? : List Char → Option (List Char × List Char)
  | '0' :: rest => if rest.head?.any Char.isDigit then none else some (['0'], rest)
  | cs => digits? cs

/-- The decimals after a point, if there is a point. -/
def fraction? : List Char → Option (List Char × List Char)
  | '.' :: rest => digits? rest
  | cs => some ([], cs)

/-- The sign and the digits of an exponent, if there is one. -/
def exponent? : List Char → Option (List Char × List Char)
  | e :: sign :: rest =>
    if e ≠ 'e' ∧ e ≠ 'E' then some ([], e :: sign :: rest)
    else if sign = '+' ∨ sign = '-' then
      (digits? rest).map fun (ds, rest) => (sign :: ds, rest)
    else (digits? (sign :: rest)).map fun (ds, rest) => ('+' :: ds, rest)
  | [e] => if e = 'e' ∨ e = 'E' then none else some ([], [e])
  | [] => some ([], [])

def digitValues (digits : List Char) : List Nat :=
  digits.filterMap (Numeral.digitValue? 10)

/-- The value of a sign with digits after it. -/
def signed : List Char → Int
  | '-' :: digits => -(Numeral.ofDigits 10 (digitValues digits))
  | digits => Numeral.ofDigits 10 (digitValues digits)

/-- The literal of a number in parts. -/
def literal (negative : Bool) (whole fraction exponent : List Char) : String :=
  String.ofList ((if negative then ['-'] else []) ++ whole ++
    (if fraction.isEmpty then [] else '.' :: fraction) ++
    (if exponent.isEmpty then [] else 'e' :: exponent))

/-- The value of a number in parts. A minus zero is not an integer. -/
def value (negative : Bool) (whole fraction exponent : List Char) : Json :=
  let n := Numeral.ofDigits 10 (digitValues whole)
  let magnitude := Magnitude.ofDigits (digitValues whole) (digitValues fraction) (signed exponent)
  if !magnitude.isFinite then .unreadable
  else if fraction.isEmpty && exponent.isEmpty && !(negative && n = 0) then
    .int (if negative then -n else n)
  else .real (literal negative whole fraction exponent)

/-- A number after its sign. -/
def read? (negative : Bool) (cs : List Char) : Option (Json × List Char) := do
  let (whole, rest) ← whole? cs
  let (fraction, rest) ← fraction? rest
  let (exponent, rest) ← exponent? rest
  return (value negative whole fraction exponent, rest)

end Number

end Flatword.Json
