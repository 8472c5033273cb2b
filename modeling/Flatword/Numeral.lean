/-!
# Positional numerals

Numbers written as digits in a base of at most 36: digits `0` to `9`, then the letters.
Writing uses lower-case letters, reading takes both cases.
-/

namespace Flatword.Numeral

/-- The character of a digit below 36. -/
def digitChar (d : Nat) : Char :=
  if d < 10 then Char.ofNat (48 + d) else Char.ofNat (87 + d)

/-- The value of a digit character, if it is a digit of the base. -/
def digitValue? (base : Nat) (c : Char) : Option Nat :=
  let n := c.toNat
  let value? :=
    if 48 ≤ n ∧ n ≤ 57 then some (n - 48)
    else if 97 ≤ n ∧ n ≤ 122 then some (n - 87)
    else if 65 ≤ n ∧ n ≤ 90 then some (n - 55)
    else none
  value?.filter (· < base)

/-- The last `width` digits of `n`, most significant first. -/
def fixedDigits (base width n : Nat) : List Nat :=
  (List.range width).reverse.map fun i => n / base.pow i % base

/-- The value of a list of digits, most significant first. -/
def ofDigits (base : Nat) (digits : List Nat) : Nat :=
  digits.foldl (fun n d => n * base + d) 0

/-- The value of a text that consists of digits only; the empty text is zero. -/
def ofChars? (base : Nat) (text : List Char) : Option Nat :=
  (text.mapM (digitValue? base)).map (ofDigits base)

/-- An unsigned numeral: one optional plus sign, then at least one digit. -/
def read? (base : Nat) : List Char → Option Nat
  | '+' :: d :: rest => ofChars? base (d :: rest)
  | '+' :: [] => none
  | [] => none
  | text => ofChars? base text

/-- A numeral of `width` digits at most, without leading zeros; zero is one digit. -/
def shortest (base width n : Nat) : String :=
  match (fixedDigits base width n).dropWhile (· = 0) with
  | [] => "0"
  | digits => String.ofList (digits.map digitChar)

/-- A 32-bit number in base 36, which takes seven digits at most. -/
def base36 (n : UInt32) : String :=
  shortest 36 7 n.toNat

end Flatword.Numeral
