import Flatword.Numeral

/-!
# Texts in JSON

A text stands between quotes. It may be well formed and still have no value: an escape may give
half of a surrogate pair where the other half is missing.
-/

namespace Flatword.Json.Text

/-- The character that an escape of one letter stands for. -/
def escape? : Char → Option Char
  | '"' => some '"'
  | '\\' => some '\\'
  | '/' => some '/'
  | 'b' => some '\x08'
  | 'f' => some '\x0c'
  | 'n' => some '\n'
  | 'r' => some '\r'
  | 't' => some '\t'
  | _ => none

def unit? (digits : List Char) : Option Nat :=
  Numeral.ofChars? 16 digits

/-- The code point of a pair of surrogates. -/
def pairCode? (high low : Nat) : Option Nat :=
  if 0xD800 ≤ high ∧ high < 0xDC00 ∧ 0xDC00 ≤ low ∧ low < 0xE000 then
    some (0x10000 + (high - 0xD800) * 0x400 + (low - 0xDC00))
  else none

/-- The rest of a text after its opening quote, as its value if it has one and what follows it.
`done` holds its characters so far, last first, and `whole` says whether no half pair occurred. -/
def read? (whole : Bool) (done : List Char) : List Char → Option (Option String × List Char)
  | [] => none
  | '"' :: rest => some (if whole then some (String.ofList done.reverse) else none, rest)
  | '\\' :: 'u' :: a :: b :: c :: d :: '\\' :: 'u' :: e :: f :: g :: h :: rest => do
    let first ← unit? [a, b, c, d]
    let second ← unit? [e, f, g, h]
    match pairCode? first second with
    | some code => read? whole (Char.ofNat code :: done) rest
    | none =>
      read? (whole && first.isValidChar) (Char.ofNat first :: done)
        ('\\' :: 'u' :: e :: f :: g :: h :: rest)
  | '\\' :: 'u' :: a :: b :: c :: d :: rest => do
    let code ← unit? [a, b, c, d]
    read? (whole && code.isValidChar) (Char.ofNat code :: done) rest
  | '\\' :: c :: rest => do read? whole ((← escape? c) :: done) rest
  | c :: rest => if c.toNat < 0x20 then none else read? whole (c :: done) rest

end Flatword.Json.Text
