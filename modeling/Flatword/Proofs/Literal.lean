import Mathlib.Algebra.BigOperators.Group.Finset.Basic
import Mathlib.Data.Nat.Digits.Defs
import Flatword.Proofs.Numeral
import Flatword.Source.Expr

/-!
# Literals and their bytes

`Spells` is the grammar of literals: which texts stand for which bytes. A literal is encoded exactly if it is
in the grammar. From the end on, each sixteen digits of the code are a word of eight bytes with the first byte
lowest.
-/

namespace Flatword

namespace Numeral

theorem fixedDigits_add (base high low n : Nat) :
    fixedDigits base (high + low) n =
      fixedDigits base high (n / base ^ low) ++ fixedDigits base low n := by
  induction high with
  | zero => simp [fixedDigits]
  | succ high ih =>
    rw [Nat.succ_add, fixedDigits_succ, fixedDigits_succ, ih, List.cons_append, Nat.div_div_eq_div_mul,
      ← Nat.pow_add, Nat.add_comm low high]

theorem fixedDigits_mod (base width n k : Nat) :
    fixedDigits base width (n + base ^ width * k) = fixedDigits base width n := by
  induction width generalizing k with
  | zero => rfl
  | succ width ih =>
    have hhigh : n + base ^ (width + 1) * k = n + base ^ width * (base * k) := by
      rw [Nat.pow_succ, Nat.mul_assoc]
    rw [fixedDigits_succ, fixedDigits_succ, hhigh, ih]
    congr 1
    rcases Nat.eq_zero_or_pos (base ^ width) with hzero | hpos
    · simp [hzero]
    · rw [Nat.add_mul_div_left _ _ hpos, Nat.add_mul_mod_self_left]

end Numeral

namespace Literal

variable {code count : Nat}

open Numeral

/-! ## The grammar -/

def letters : List (Char × UInt8) :=
  [('n', 10), ('r', 13), ('t', 9), ('\\', 92), ('\'', 39), ('"', 34)]

/-- A text stands for bytes: a plain character for its UTF-8 bytes, an escape of one letter or of two
hexadecimal digits for one byte, and an escape of four hexadecimal digits for the UTF-8 bytes of the
character that they name. -/
inductive Spells : List Char → List UInt8 → Prop
  | nil : Spells [] []
  | plain {c rest bytes} (hc : c ≠ '\\') (h : Spells rest bytes) :
      Spells (c :: rest) (String.utf8EncodeChar c ++ bytes)
  | letter {c byte rest bytes}
      (hc : (c, byte) ∈ letters) (h : Spells rest bytes) : Spells ('\\' :: c :: rest) (byte :: bytes)
  | hex {a b high low rest bytes}
      (ha : digitValue? 16 a = some high) (hb : digitValue? 16 b = some low) (h : Spells rest bytes) :
      Spells ('\\' :: 'x' :: a :: b :: rest) (UInt8.ofNat (high * 16 + low) :: bytes)
  | unicode {a b c d ch p q r s rest bytes}
      (ha : digitValue? 16 a = some p) (hb : digitValue? 16 b = some q)
      (hc : digitValue? 16 c = some r) (hd : digitValue? 16 d = some s)
      (hch : ch.toNat = ((p * 16 + q) * 16 + r) * 16 + s) (h : Spells rest bytes) :
      Spells ('\\' :: 'u' :: a :: b :: c :: d :: rest) (String.utf8EncodeChar ch ++ bytes)

theorem simpleEscape?_eq_some {c : Char} {byte : UInt8} :
    simpleEscape? c = some byte ↔ (c, byte) ∈ letters := by
  unfold simpleEscape?
  split <;> simp_all [letters, eq_comm]

theorem escapeCode?_pair {a b : Char} :
    escapeCode? [a, b] = some code ↔
      ∃ high low, digitValue? 16 a = some high ∧ digitValue? 16 b = some low ∧
        code = high * 16 + low := by
  rcases ha : digitValue? 16 a <;> rcases hb : digitValue? 16 b <;>
    simp [escapeCode?, ofChars?, ofDigits, ha, hb, eq_comm]

theorem escapeCode?_four {a b c d : Char} :
    escapeCode? [a, b, c, d] = some code ↔
      ∃ p q r s, digitValue? 16 a = some p ∧ digitValue? 16 b = some q ∧
        digitValue? 16 c = some r ∧ digitValue? 16 d = some s ∧
        code = ((p * 16 + q) * 16 + r) * 16 + s := by
  rcases ha : digitValue? 16 a <;> rcases hb : digitValue? 16 b <;> rcases hc : digitValue? 16 c <;>
    rcases hd : digitValue? 16 d <;>
    simp [escapeCode?, ofChars?, ofDigits, ha, hb, hc, hd, eq_comm]

theorem scalar?_eq_some {ch : Char} : scalar? code = some ch ↔ ch.toNat = code := by
  unfold scalar?
  constructor
  · intro h
    split at h
    · next hvalid =>
      obtain rfl := Option.some.inj h
      rw [Char.ofNat, dif_pos hvalid]
      rfl
    · simp at h
  · rintro rfl
    have hvalid : ch.toNat.isValidChar := ch.valid
    rw [if_pos hvalid, Char.ofNat_toNat]

theorem map_eq_ok {ε α β : Type} {g : α → β} {x : Except ε α} {b : β} :
    g <$> x = .ok b ↔ ∃ a, x = .ok a ∧ g a = b := by
  cases x <;> simp [Functor.map, Except.map]

theorem bytes_eq_ok_iff {text : List Char} {content : List UInt8} :
    bytes text = .ok content ↔ Spells text content := by
  constructor
  · intro h
    fun_induction bytes text generalizing content with
    | case1 =>
      obtain rfl := Except.ok.inj h
      exact .nil
    | case2 => simp at h
    | case3 a b rest code hcode ih =>
      obtain ⟨later, hlater, rfl⟩ := map_eq_ok.mp h
      obtain ⟨high, low, ha, hb, rfl⟩ := escapeCode?_pair.mp hcode
      exact .hex ha hb (ih hlater)
    | case4 => simp at h
    | case5 => simp at h
    | case6 a b c d rest ch hcode ih =>
      obtain ⟨later, hlater, rfl⟩ := map_eq_ok.mp h
      obtain ⟨code, hcode, hch⟩ := Option.bind_eq_some_iff.mp hcode
      obtain ⟨p, q, r, s, ha, hb, hc, hd, rfl⟩ := escapeCode?_four.mp hcode
      exact .unicode ha hb hc hd (scalar?_eq_some.mp hch) (ih hlater)
    | case7 => simp at h
    | case8 => simp at h
    | case9 c rest _ _ _ _ byte hbyte ih =>
      obtain ⟨later, hlater, rfl⟩ := map_eq_ok.mp h
      exact .letter (simpleEscape?_eq_some.mp hbyte) (ih hlater)
    | case10 => simp at h
    | case11 c rest hend _ _ _ _ hescape ih =>
      obtain ⟨later, hlater, rfl⟩ := map_eq_ok.mp h
      refine .plain (fun hc => ?_) (ih hlater)
      rcases rest with _ | ⟨d, rest⟩
      · exact hend hc rfl
      · exact hescape d rest hc rfl
  · intro h
    induction h with
    | nil => rfl
    | @plain c rest content hc _ ih =>
      rw [bytes.eq_8 c rest (by simp [hc]) (by simp [hc]) (by simp [hc]) (by simp [hc]) (by simp [hc])
        (by simp [hc]), ih]
      rfl
    | @letter c byte rest content hc _ ih =>
      have hletter : c ≠ 'x' ∧ c ≠ 'u' := by
        constructor <;> rintro rfl <;> simp [letters] at hc
      rw [bytes.eq_7 c rest (by simp [hletter]) (by simp [hletter]) (by simp [hletter])
        (by simp [hletter]), simpleEscape?_eq_some.mpr hc, ih]
      rfl
    | hex ha hb _ ih =>
      rw [bytes, escapeCode?_pair.mpr ⟨_, _, ha, hb, rfl⟩, ih]
      rfl
    | unicode ha hb hc hd hch _ ih =>
      rw [bytes, escapeCode?_four.mpr ⟨_, _, _, _, ha, hb, hc, hd, rfl⟩, Option.bind_some,
        scalar?_eq_some.mpr hch, ih]
      rfl

/-! ## The digits of bytes -/

theorem flatMap_byteHex (content : List UInt8) :
    content.reverse.flatMap byteHex =
      (fixedDigits 16 (2 * content.length) (Nat.ofDigits 256 (content.map UInt8.toNat))).map
        digitChar := by
  induction content with
  | nil => rfl
  | cons b rest ih =>
    have hhigh : (b.toNat + 256 * Nat.ofDigits 256 (rest.map UInt8.toNat)) / 16 ^ 2 =
        Nat.ofDigits 256 (rest.map UInt8.toNat) := by
      have hb := b.toNat_lt
      omega
    have hlow : fixedDigits 16 2 (b.toNat + 256 * Nat.ofDigits 256 (rest.map UInt8.toNat)) =
        fixedDigits 16 2 b.toNat := fixedDigits_mod 16 2 _ _
    rw [List.reverse_cons, List.flatMap_append, ih, List.flatMap_singleton, List.length_cons,
      Nat.mul_succ, fixedDigits_add, List.map_cons, Nat.ofDigits_cons, List.map_append, hhigh, hlow]
    rfl

/-- The bytes of a word of a content, which is filled up with zeros. -/
def chunk (content : List UInt8) (i : Nat) : List UInt8 :=
  (List.range 8).map fun j => content.getD (8 * i + j) 0

def wordAt (content : List UInt8) (i : Nat) : Word :=
  UInt64.ofNat (∑ j ∈ Finset.range 8, (content.getD (8 * i + j) 0).toNat * 256 ^ j)

theorem ofDigits_chunk (content : List UInt8) (i : Nat) :
    Nat.ofDigits 256 ((chunk content i).map UInt8.toNat) =
      ∑ j ∈ Finset.range 8, (content.getD (8 * i + j) 0).toNat * 256 ^ j := by
  have hrange : List.range 8 = [0, 1, 2, 3, 4, 5, 6, 7] := rfl
  simp only [chunk, hrange, List.map_cons, List.map_nil, Nat.ofDigits_cons, Nat.ofDigits_nil,
    Finset.sum_range_succ, Finset.sum_range_zero]
  ring

theorem reverse_chunk_flatMap (content : List UInt8) (i : Nat) :
    (chunk content i).reverse.flatMap byteHex = (Hex.ofWord (wordAt content i)).toList := by
  have hlength : (chunk content i).length = 8 := by simp [chunk]
  have hlt : ∑ j ∈ Finset.range 8, (content.getD (8 * i + j) 0).toNat * 256 ^ j < wordLimit := by
    rw [← ofDigits_chunk]
    refine Nat.lt_of_lt_of_eq (Nat.ofDigits_lt_base_pow_length (by decide) fun d hd => ?_) ?_
    · obtain ⟨b, -, rfl⟩ := List.mem_map.mp hd
      exact b.toNat_lt
    · rw [List.length_map, hlength]
      rfl
  rw [flatMap_byteHex, hlength, ofDigits_chunk, Hex.ofWord, String.toList_ofList, wordAt,
    UInt64.toNat_ofNat_of_lt' hlt]
  rfl

theorem flatMap_chunk {content : List UInt8} (h : content.length ≤ 8 * count) :
    (List.range count).flatMap (chunk content) =
      content ++ List.replicate (8 * count - content.length) 0 := by
  have hrange : (List.range count).flatMap (chunk content) =
      (List.range (8 * count)).map (content.getD · 0) := by
    clear h
    induction count with
    | zero => rfl
    | succ count ih =>
      rw [List.range_succ, List.flatMap_append, ih, List.flatMap_singleton, Nat.mul_succ,
        List.range_add, List.map_append, List.map_map]
      rfl
  rw [hrange]
  refine List.ext_getElem (by simp; omega) fun i hi _ => ?_
  simp only [List.getElem_map, List.getElem_range]
  by_cases hlt : i < content.length
  · rw [List.getElem_append_left hlt, List.getD_eq_getElem?_getD, List.getElem?_eq_getElem hlt,
      Option.getD_some]
  · rw [List.getElem_append_right (by omega), List.getElem_replicate, List.getD_eq_getElem?_getD,
      List.getElem?_eq_none (by omega), Option.getD_none]

theorem length_flatMap_byteHex (content : List UInt8) :
    (content.reverse.flatMap byteHex).length = 2 * content.length := by
  rw [flatMap_byteHex, List.length_map, length_fixedDigits]

theorem leftpad_flatMap_byteHex {content : List UInt8} (h : content.length ≤ 8 * count) :
    (content.reverse.flatMap byteHex).leftpad (count * 16) '0' =
      (content ++ List.replicate (8 * count - content.length) 0).reverse.flatMap byteHex := by
  have hzeros (k : Nat) : (List.replicate k (0 : UInt8)).flatMap byteHex = List.replicate (2 * k) '0' := by
    induction k with
    | zero => rfl
    | succ k ih => rw [List.replicate_succ, List.flatMap_cons, ih, Nat.mul_succ, Nat.add_comm,
        List.replicate_add]; rfl
  have hlength : count * 16 - 2 * content.length = 2 * (8 * count - content.length) := by omega
  rw [List.leftpad, length_flatMap_byteHex, List.reverse_append, List.flatMap_append,
    List.reverse_replicate, hzeros, hlength]

theorem reverse_leftpad {content : List UInt8} (h : content.length ≤ 8 * count) :
    ((content.reverse.flatMap byteHex).leftpad (count * 16) '0').reverse =
      (List.range count).flatMap fun i => (Hex.ofWord (wordAt content i)).toList.reverse := by
  rw [leftpad_flatMap_byteHex h, ← flatMap_chunk h, List.reverse_flatMap, List.reverse_reverse,
    List.flatMap_assoc]
  refine congrArg (fun f => (List.range count).flatMap f) (funext fun i => ?_)
  rw [← reverse_chunk_flatMap, List.reverse_flatMap, List.reverse_reverse]

/-! ## Constants of several words -/

/-- How many words a content takes; no bytes still take one. -/
def words (content : List UInt8) : Nat :=
  max 1 ((content.length + 7) / 8)

theorem leftpad_digitChar (n : Nat) (digits : List Nat) :
    (digits.map digitChar).leftpad n '0' = (digits.leftpad n 0).map digitChar := by
  simp [List.leftpad, show digitChar 0 = '0' from rfl]

theorem leftpad_dropWhile {digits : List Char} {n : Nat} (h : digits.length ≤ n) :
    (digits.dropWhile (· = '0')).leftpad n '0' = digits.leftpad n '0' := by
  induction digits generalizing n with
  | nil => rfl
  | cons c digits ih =>
    by_cases hc : c = '0'
    · rw [List.dropWhile_cons_of_pos (by simpa using hc), ih (Nat.le_of_succ_le h), List.leftpad,
        List.leftpad, hc, List.length_cons]
      obtain ⟨k, rfl⟩ := Nat.exists_eq_add_of_le h
      rw [List.length_cons, Nat.add_sub_cancel_left,
        show digits.length + 1 + k - digits.length = k + 1 by omega, List.replicate_succ',
        List.append_assoc, List.singleton_append]
    · rw [List.dropWhile_cons_of_neg (by simpa using hc)]

theorem lt_of_mem_hexDigits (width n : Nat) : ∀ d ∈ fixedDigits 16 width n, d < 36 :=
  fun _ hd => Nat.lt_trans (lt_of_mem_fixedDigits (by decide) hd) (by decide)

theorem padToWords_digits {digits : List Nat} (h : ∀ d ∈ digits, d < 36) :
    ∃ padded : List Nat, Hex.padToWords (String.ofList (digits.map digitChar)) = String.ofList (padded.map digitChar) ∧
      (∀ d ∈ padded, d < 36) ∧
      Hex.wordCount (String.ofList (padded.map digitChar)) =
        Hex.wordCount (String.ofList (digits.map digitChar)) := by
  have hsize := Hex.utf8ByteSize_digits h
  let count := Hex.wordCount (String.ofList (digits.map digitChar)) * Hex.digitsPerWord
  have hpadded : ∀ d ∈ digits.leftpad count 0, d < 36 := by
    intro d hd
    rcases List.mem_append.mp hd with hd | hd
    · simp [List.eq_of_mem_replicate hd]
    · exact h d hd
  refine ⟨digits.leftpad count 0, ?_, hpadded, ?_⟩
  · rw [Hex.padToWords, String.toList_ofList, leftpad_digitChar]
  · have hcount : count = max 1 ((digits.length + 15) / 16) * 16 := by
      simp only [count, Hex.wordCount, hsize]
      rfl
    rw [Hex.wordCount, Hex.utf8ByteSize_digits hpadded, List.length_leftpad, hcount, Hex.wordCount, hsize,
      Hex.digitsPerWord]
    omega

def hexText (content : List UInt8) : String :=
  Hex.padToWords (String.ofList (content.reverse.flatMap byteHex))

theorem size_constant_hexText (content : List UInt8) :
    (Slot.constant (hexText content)).size = words content := by
  have hdigits := lt_of_mem_hexDigits (2 * content.length) (Nat.ofDigits 256 (content.map UInt8.toNat))
  obtain ⟨padded, hpadded, hlt, hcount⟩ := padToWords_digits hdigits
  obtain ⟨again, hagain, -, hcount'⟩ := padToWords_digits hlt
  show Hex.wordCount (Hex.padToWords (hexText content)) = _
  rw [hexText, flatMap_byteHex, hpadded, hagain, hcount', hcount, Hex.wordCount,
    Hex.utf8ByteSize_digits hdigits, length_fixedDigits, words, Hex.digitsPerWord]
  omega

theorem significant_hexText (content : List UInt8) :
    Hex.significant (Hex.padToWords (hexText content)) =
      String.ofList ((content.reverse.flatMap byteHex).dropWhile (· = '0')) := by
  rw [hexText, Hex.significant_padToWords, Hex.significant_padToWords, Hex.significant,
    String.toList_ofList]

theorem utf8ByteSize_significant_le (content : List UInt8) :
    (Hex.significant (Hex.padToWords (hexText content))).utf8ByteSize ≤ 2 * content.length := by
  have hdigits := lt_of_mem_hexDigits (2 * content.length) (Nat.ofDigits 256 (content.map UInt8.toNat))
  have hsublist := List.dropWhile_sublist (l := fixedDigits 16 (2 * content.length)
    (Nat.ofDigits 256 (content.map UInt8.toNat))) (· = 0)
  rw [significant_hexText, flatMap_byteHex, Hex.dropWhile_digitChar hdigits,
    Hex.utf8ByteSize_digits fun d hd => hdigits d (hsublist.mem hd)]
  simpa using hsublist.length_le

/-! ## Encoded texts -/

theorem encode_eq_ok_iff {text hex : String} :
    encode text = .ok hex ↔ ∃ content, Spells text.toList content ∧
      hex = hexText content := by
  unfold encode hexText
  rcases hbytes : bytes text.toList with _ | content
  · simp [bind, Except.bind, ← bytes_eq_ok_iff, hbytes]
  · simp [bind, Except.bind, pure, Except.pure, ← bytes_eq_ok_iff, hbytes, eq_comm]

theorem exists_string_iff {text : String} {line : Line} :
    (∃ e, Expr.string text line = .ok e) ↔ ∃ content, Spells text.toList content := by
  unfold Expr.string
  constructor
  · rintro ⟨e, he⟩
    rcases hencode : encode text with _ | hex
    · simp [hencode] at he
    · obtain ⟨content, hspells, -⟩ := encode_eq_ok_iff.mp hencode
      exact ⟨content, hspells⟩
  · rintro ⟨content, hspells⟩
    rw [encode_eq_ok_iff.mpr ⟨content, hspells, rfl⟩]
    exact ⟨_, rfl⟩

end Literal

end Flatword
