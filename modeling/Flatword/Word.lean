import Flatword.Numeral

/-!
# Words and their hexadecimal texts

Memory holds 64-bit words. Compile-time values are texts of hexadecimal digits, most significant
first; a text of several words is a multiple of sixteen digits long.
-/

namespace Flatword

/-- One cell of memory. -/
abbrev Word := UInt64

/-- The number of words, one above the largest. -/
def wordLimit : Nat := UInt64.size

namespace Hex

/-- Digits of one word. -/
def digitsPerWord : Nat := 16

/-- A word as sixteen lower-case digits. -/
def ofWord (w : Word) : String :=
  String.ofList ((Numeral.fixedDigits 16 digitsPerWord w.toNat).map Numeral.digitChar)

/-- Number of words a text occupies: one for each sixteen bytes begun, and at least one. -/
def wordCount (hex : String) : Nat :=
  max 1 ((hex.utf8ByteSize + (digitsPerWord - 1)) / digitsPerWord)

/-- A text filled up with leading zeros to as many characters as its words have digits. -/
def padToWords (hex : String) : String :=
  String.ofList (hex.toList.leftpad (wordCount hex * digitsPerWord) '0')

/-- A text without its leading zeros. -/
def significant (hex : String) : String :=
  String.ofList (hex.toList.dropWhile (· = '0'))

/-- A base-16 numeral that fits one word. -/
def readWord? (text : String) : Option Word :=
  ((Numeral.read? 16 text.toList).filter (· < wordLimit)).map UInt64.ofNat

/-- The value of a hexadecimal text of any length, if it is a numeral that fits one word. -/
def value? (hex : String) : Option Word :=
  let digits := significant hex
  if digits.isEmpty then some 0
  else if digits.utf8ByteSize > digitsPerWord then none
  else readWord? digits

end Hex

end Flatword
