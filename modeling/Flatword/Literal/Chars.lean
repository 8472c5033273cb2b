import Flatword.Failure
import Flatword.Word

/-!
# Character and string literals

A literal is a sequence of bytes: the UTF-8 bytes of plain characters, one byte for an escape of
one letter or of two hexadecimal digits, and the UTF-8 bytes of the code point that an escape of
four hexadecimal digits names. The bytes are packed into words, the first byte lowest, and written
as a hexadecimal text.
-/

namespace Flatword.Literal

/-- The value of exactly these hexadecimal digits. -/
def escapeCode? (digits : List Char) : Option Nat :=
  Numeral.ofChars? 16 digits

/-- The character with a code, unless the code is a surrogate or out of range. -/
def scalar? (code : Nat) : Option Char :=
  if code.isValidChar then some (Char.ofNat code) else none

/-- The byte an escape of one letter stands for. -/
def simpleEscape? : Char → Option UInt8
  | 'n' => some 10
  | 'r' => some 13
  | 't' => some 9
  | '\\' => some 92
  | '\'' => some 39
  | '"' => some 34
  | _ => none

/-- The bytes of a literal, first to last. -/
def bytes : List Char → Except Cause (List UInt8)
  | [] => .ok []
  | ['\\'] => .error .endsInEscape
  | '\\' :: 'x' :: a :: b :: rest =>
    match escapeCode? [a, b] with
    | some code => (UInt8.ofNat code :: ·) <$> bytes rest
    | none => .error .hexEscape
  | '\\' :: 'x' :: _ => .error .hexEscape
  | '\\' :: 'u' :: a :: b :: c :: d :: rest =>
    match (escapeCode? [a, b, c, d]).bind scalar? with
    | some ch => (String.utf8EncodeChar ch ++ ·) <$> bytes rest
    | none => .error .unicodeEscape
  | '\\' :: 'u' :: _ => .error .unicodeEscape
  | '\\' :: c :: rest =>
    match simpleEscape? c with
    | some byte => (byte :: ·) <$> bytes rest
    | none => .error (.unknownEscape c)
  | c :: rest => (String.utf8EncodeChar c ++ ·) <$> bytes rest

/-- The two digits of a byte. -/
def byteHex (b : UInt8) : List Char :=
  (Numeral.fixedDigits 16 2 b.toNat).map Numeral.digitChar

/-- The hexadecimal text of a literal: its last byte first, filled up to whole words. -/
def encode (text : String) : Except Cause String := do
  let content ← bytes text.toList
  return Hex.padToWords (String.ofList (content.reverse.flatMap byteHex))

end Flatword.Literal
