import Mathlib.Data.Nat.Digits.Lemmas
import Mathlib.Tactic.Ring
import Flatword.Memory.Slot

/-!
# Numerals are read back

A number written in digits is read back as it was, leading zeros do not matter, and no two numbers have
the same text. A text of hexadecimal digits stands for a word if its value fits one, and the text of a word is
every shorter text of the same value, filled up.
-/

namespace Flatword

namespace Numeral

variable {base : Nat} {digits : List Nat}

theorem foldl_digits (base n : Nat) (digits : List Nat) :
    digits.foldl (fun n d => n * base + d) n =
      n * base ^ digits.length + ofDigits base digits := by
  induction digits generalizing n with
  | nil => simp [ofDigits]
  | cons d digits ih =>
    have hvalue : ofDigits base (d :: digits) = d * base ^ digits.length + ofDigits base digits := by
      rw [ofDigits, List.foldl_cons, Nat.zero_mul, Nat.zero_add, ih]
    rw [List.foldl_cons, ih, hvalue, List.length_cons]
    ring

theorem ofDigits_cons (base d : Nat) (digits : List Nat) :
    ofDigits base (d :: digits) = d * base ^ digits.length + ofDigits base digits := by
  rw [ofDigits, List.foldl_cons, Nat.zero_mul, Nat.zero_add, foldl_digits]

theorem fixedDigits_succ (base width n : Nat) :
    fixedDigits base (width + 1) n = n / base ^ width % base :: fixedDigits base width n := by
  simp [fixedDigits, List.range_succ]

@[simp]
theorem length_fixedDigits (base width n : Nat) : (fixedDigits base width n).length = width := by
  simp [fixedDigits]

theorem ofDigits_fixedDigits (base width n : Nat) :
    ofDigits base (fixedDigits base width n) = n % base ^ width := by
  induction width with
  | zero => simp [fixedDigits, ofDigits, Nat.mod_one]
  | succ width ih =>
    rw [fixedDigits_succ, ofDigits_cons, length_fixedDigits, ih, Nat.pow_succ, Nat.mod_mul]
    ring

theorem ofDigits_dropWhile (base : Nat) (digits : List Nat) :
    ofDigits base (digits.dropWhile (· = 0)) = ofDigits base digits := by
  induction digits with
  | nil => rfl
  | cons d digits ih =>
    by_cases hd : d = 0
    · rw [List.dropWhile_cons_of_pos (by simpa using hd), ih, ofDigits_cons, hd, Nat.zero_mul,
        Nat.zero_add]
    · rw [List.dropWhile_cons_of_neg (by simpa using hd)]

theorem lt_of_mem_fixedDigits {width n d : Nat} (hb : 0 < base)
    (h : d ∈ fixedDigits base width n) : d < base := by
  simp only [fixedDigits, List.mem_map] at h
  obtain ⟨i, -, rfl⟩ := h
  exact Nat.mod_lt _ hb

/-! ## Characters of digits -/

theorem digitValue?_digitChar {d : Nat} (hb : base ≤ 36) (hd : d < base) :
    digitValue? base (digitChar d) = some d := by
  have h36 : ∀ d < 36, digitValue? 36 (digitChar d) = some d := by decide
  have h := h36 d (by omega)
  simp only [digitValue?, Option.filter_eq_some_iff] at h ⊢
  exact ⟨h.1, by simpa using hd⟩

theorem ofChars?_digitChar (hb : base ≤ 36) (h : ∀ d ∈ digits, d < base) :
    ofChars? base (digits.map digitChar) = some (ofDigits base digits) := by
  have hmap : (digits.map digitChar).mapM (digitValue? base) = some digits := by
    induction digits with
    | nil => rfl
    | cons d digits ih =>
      rw [List.map_cons, List.mapM_cons, digitValue?_digitChar hb (h d (by simp)),
        ih fun x hx => h x (by simp [hx])]
      rfl
  rw [ofChars?, hmap]
  rfl

/-- The number that a text of digits stands for in a base, each digit by its value. -/
def textValue (base : Nat) (value : Char → Nat) (text : List Char) : Nat :=
  Nat.ofDigits base (text.reverse.map value)

theorem textValue_cons (base : Nat) (value : Char → Nat) (c : Char) (text : List Char) :
    textValue base value (c :: text) = value c * base ^ text.length + textValue base value text := by
  rw [textValue, List.reverse_cons, List.map_append, Nat.ofDigits_append, List.length_map,
    List.length_reverse, List.map_singleton, Nat.ofDigits_singleton, textValue]
  ring

theorem ofChars?_eq_textValue {value : Char → Nat} {text : List Char}
    (h : ∀ c ∈ text, digitValue? base c = some (value c)) :
    ofChars? base text = some (textValue base value text) := by
  have hmap : text.mapM (digitValue? base) = some (text.map value) := by
    induction text with
    | nil => rfl
    | cons c text ih =>
      rw [List.mapM_cons, h c (by simp), ih fun d hd => h d (by simp [hd])]
      rfl
  rw [ofChars?, hmap, textValue, Nat.ofDigits_eq_foldr, List.map_reverse, List.foldr_reverse]
  simp [ofDigits, Nat.mul_comm, Nat.add_comm]

theorem digitChar_ne {d : Nat} (hd : d < 36) :
    digitChar d ≠ '+' ∧ digitChar d ≠ '_' ∧ (digitChar d = '0' ↔ d = 0) ∧
      (digitChar d).utf8Size = 1 := by
  have h36 : ∀ d < 36, digitChar d ≠ '+' ∧ digitChar d ≠ '_' ∧ (digitChar d = '0' ↔ d = 0) ∧
      (digitChar d).utf8Size = 1 := by decide
  exact h36 d hd

/-! ## Numbers in base 36 -/

theorem toList_base36 (n : UInt32) :
    ∃ digits, (base36 n).toList = digits.map digitChar ∧ (∀ d ∈ digits, d < 36) ∧
      ofDigits 36 digits = n.toNat ∧ digits ≠ [] ∧ (digits.head? = some 0 → n = 0) := by
  have hvalue : ofDigits 36 ((fixedDigits 36 7 n.toNat).dropWhile (· = 0)) = n.toNat := by
    rw [ofDigits_dropWhile, ofDigits_fixedDigits]
    exact Nat.mod_eq_of_lt (Nat.lt_trans n.toNat_lt (by decide))
  have hdigits : ∀ d ∈ (fixedDigits 36 7 n.toNat).dropWhile (· = 0), d < 36 := fun d hd =>
    lt_of_mem_fixedDigits (by decide) ((List.dropWhile_sublist _).mem hd)
  have hhead := List.head?_dropWhile_not (· = 0) (fixedDigits 36 7 n.toNat)
  unfold base36 shortest
  split
  · next hnil =>
    rw [hnil] at hvalue
    exact ⟨[0], rfl, by simp, hvalue ▸ rfl, by simp, fun _ => UInt32.toNat_inj.mp hvalue.symm⟩
  · next hcons =>
    refine ⟨_, by rw [String.toList_ofList], hdigits, hvalue, hcons, fun hzero => ?_⟩
    simp [hzero] at hhead

theorem base36_injective {m n : UInt32} (h : base36 m = base36 n) : m = n := by
  obtain ⟨digits, hdigits, hlt, hm, -⟩ := toList_base36 m
  obtain ⟨digits', hdigits', hlt', hn, -⟩ := toList_base36 n
  have hvalue := ofChars?_digitChar (le_refl 36) hlt
  rw [← hdigits, h, hdigits', ofChars?_digitChar (le_refl 36) hlt', hm, hn] at hvalue
  exact UInt32.toNat_inj.mp (Option.some.inj hvalue).symm

theorem not_mem_base36 (n : UInt32) : '_' ∉ (base36 n).toList := by
  obtain ⟨digits, hdigits, hlt, -⟩ := toList_base36 n
  rw [hdigits, List.mem_map]
  rintro ⟨d, hd, heq⟩
  exact (digitChar_ne (hlt d hd)).2.1 heq

end Numeral

namespace Hex

variable {c : Char} {digits : List Nat} {hex : String} {text : List Char}

open Numeral

theorem significant_padToWords (hex : String) : significant (padToWords hex) = significant hex := by
  have hzeros (k : Nat) (text : List Char) :
      (List.replicate k '0' ++ text).dropWhile (· = '0') = text.dropWhile (· = '0') := by
    induction k with
    | zero => rfl
    | succ k ih =>
      rw [List.replicate_succ, List.cons_append, List.dropWhile_cons_of_pos (by simp), ih]
  rw [significant, padToWords, String.toList_ofList, List.leftpad, hzeros, significant]

@[simp]
theorem value?_padToWords (hex : String) : value? (padToWords hex) = value? hex := by
  simp only [value?, significant_padToWords]

theorem dropWhile_digitChar (h : ∀ d ∈ digits, d < 36) :
    (digits.map digitChar).dropWhile (· = '0') = (digits.dropWhile (· = 0)).map digitChar := by
  induction digits with
  | nil => rfl
  | cons d digits ih =>
    have hzero := (digitChar_ne (h d (by simp))).2.2.1
    have ih := ih fun x hx => h x (by simp [hx])
    by_cases hd : d = 0
    · rw [List.map_cons, List.dropWhile_cons_of_pos (by simpa [hzero] using hd),
        List.dropWhile_cons_of_pos (by simpa using hd), ih]
    · rw [List.map_cons, List.dropWhile_cons_of_neg (by simpa [hzero] using hd),
        List.dropWhile_cons_of_neg (by simpa using hd), List.map_cons]

theorem utf8ByteSize_ofList (h : ∀ c ∈ text, c.utf8Size = 1) :
    (String.ofList text).utf8ByteSize = text.length := by
  induction text with
  | nil => rfl
  | cons c text ih =>
    rw [String.ofList_cons, String.utf8ByteSize_append, String.utf8ByteSize_singleton, h c (by simp),
      ih fun d hd => h d (by simp [hd]), List.length_cons, Nat.add_comm]

theorem utf8ByteSize_digits (h : ∀ d ∈ digits, d < 36) :
    (String.ofList (digits.map digitChar)).utf8ByteSize = digits.length := by
  rw [utf8ByteSize_ofList, List.length_map]
  intro c hc
  obtain ⟨d, hd, rfl⟩ := List.mem_map.mp hc
  exact (digitChar_ne (h d hd)).2.2.2

/-! ## Hexadecimal digits -/

/-- The sixteen digits in order. -/
def alphabet : List Char :=
  "0123456789abcdef".toList

/-- A text of hexadecimal digits of either case. -/
def IsDigits (text : List Char) : Prop :=
  ∀ c ∈ text, c.toLower ∈ alphabet

/-- The number that a text of digits stands for, each digit by its place in the alphabet. -/
def digitsValue (text : List Char) : Nat :=
  textValue 16 (fun c => alphabet.idxOf c.toLower) text

theorem toNat_lt_of_mem_alphabet (h : c.toLower ∈ alphabet) : c.toNat < 128 := by
  have hsmall : alphabet.all (·.toNat < 128) := by decide
  by_cases hupper : c.toNat < 91
  · omega
  · have hlower : c.toLower = c := dif_neg fun hle => hupper (Nat.lt_succ_of_le hle.2)
    exact of_decide_eq_true (List.all_eq_true.mp hsmall c (hlower ▸ h))

theorem digitValue?_alphabet (h : c.toLower ∈ alphabet) :
    digitValue? 16 c = some (alphabet.idxOf c.toLower) ∧ c.utf8Size = 1 ∧ c ≠ '+' ∧
      (alphabet.idxOf c.toLower = 0 ↔ c = '0') := by
  have hascii : ∀ n < 128, (Char.ofNat n).toLower ∈ alphabet →
      digitValue? 16 (Char.ofNat n) = some (alphabet.idxOf (Char.ofNat n).toLower) ∧
        (Char.ofNat n).utf8Size = 1 ∧ Char.ofNat n ≠ '+' ∧
        (alphabet.idxOf (Char.ofNat n).toLower = 0 ↔ Char.ofNat n = '0') := by
    decide +kernel
  have hc := hascii c.toNat (toNat_lt_of_mem_alphabet h)
  rw [Char.ofNat_toNat] at hc
  exact hc h

theorem digitChar_idxOf (h : c ∈ alphabet) :
    digitChar (alphabet.idxOf c.toLower) = c ∧ c.toLower = c := by
  have hall : alphabet.all fun c => digitChar (alphabet.idxOf c.toLower) = c ∧ c.toLower = c := by
    decide +kernel
  exact of_decide_eq_true (List.all_eq_true.mp hall c h)

theorem digitChar_mem_alphabet {d : Nat} (h : d < 16) :
    digitChar d ∈ alphabet ∧ alphabet.idxOf (digitChar d).toLower = d := by
  have hall : ∀ d < 16, digitChar d ∈ alphabet ∧ alphabet.idxOf (digitChar d).toLower = d := by
    decide +kernel
  exact hall d h

theorem isDigits_of_lower (h : ∀ c ∈ text, c ∈ alphabet) : IsDigits text :=
  fun c hc => (digitChar_idxOf (h c hc)).2.symm ▸ h c hc

theorem IsDigits.zeros (h : IsDigits text) (count : Nat) :
    IsDigits (List.replicate count '0' ++ text) := by
  intro c hc
  rcases List.mem_append.mp hc with hc | hc
  · rw [List.eq_of_mem_replicate hc]
    decide
  · exact h c hc

variable {text : List Char}

theorem digitsValue_cons (c : Char) (text : List Char) :
    digitsValue (c :: text) = alphabet.idxOf c.toLower * 16 ^ text.length + digitsValue text :=
  textValue_cons ..

theorem digitsValue_digitChar (h : ∀ d ∈ digits, d < 16) :
    digitsValue (digits.map digitChar) = Numeral.ofDigits 16 digits := by
  induction digits with
  | nil => rfl
  | cons d digits ih =>
    rw [List.map_cons, digitsValue_cons, (digitChar_mem_alphabet (h d (by simp))).2, List.length_map,
      ih fun x hx => h x (by simp [hx]), ofDigits_cons]

theorem digitsValue_zeros (count : Nat) (text : List Char) :
    digitsValue (List.replicate count '0' ++ text) = digitsValue text := by
  induction count with
  | zero => rfl
  | succ count ih =>
    have hzero : alphabet.idxOf '0'.toLower = 0 := by decide
    rw [List.replicate_succ, List.cons_append, digitsValue_cons, hzero, Nat.zero_mul, Nat.zero_add, ih]

theorem digitsValue_dropWhile (text : List Char) :
    digitsValue (text.dropWhile (· = '0')) = digitsValue text := by
  induction text with
  | nil => rfl
  | cons c text ih =>
    by_cases hc : c = '0'
    · rw [List.dropWhile_cons_of_pos (by simpa using hc), ih, hc]
      exact (digitsValue_zeros 1 text).symm
    · rw [List.dropWhile_cons_of_neg (by simpa using hc)]

theorem digitsValue_lt (h : IsDigits text) : digitsValue text < 16 ^ text.length := by
  have hlt : ∀ d ∈ text.reverse.map fun c => alphabet.idxOf c.toLower, d < 16 := by
    intro d hd
    obtain ⟨c, hc, rfl⟩ := List.mem_map.mp hd
    exact List.idxOf_lt_length_of_mem (h c (List.mem_reverse.mp hc))
  have hvalue := Nat.ofDigits_lt_base_pow_length (by decide) hlt
  rwa [List.length_map, List.length_reverse] at hvalue

theorem IsDigits.utf8ByteSize (h : IsDigits text) : (String.ofList text).utf8ByteSize = text.length :=
  utf8ByteSize_ofList fun c hc => (digitValue?_alphabet (h c hc)).2.1

theorem IsDigits.ofChars? (h : IsDigits text) : ofChars? 16 text = some (digitsValue text) :=
  ofChars?_eq_textValue fun c hc => (digitValue?_alphabet (h c hc)).1

theorem value?_eq_some_iff (h : IsDigits hex.toList) {v : Word} :
    value? hex = some v ↔ digitsValue hex.toList = v.toNat := by
  have hrest : IsDigits (hex.toList.dropWhile (· = '0')) := fun c hc =>
    h c ((List.dropWhile_sublist _).mem hc)
  have hhead := List.head?_dropWhile_not (· = '0') hex.toList
  rw [← digitsValue_dropWhile, value?, significant]
  generalize hex.toList.dropWhile (· = '0') = rest at hrest hhead
  cases rest with
  | nil =>
    show some 0 = some v ↔ 0 = v.toNat
    rw [Option.some.injEq, ← UInt64.toNat_inj]
    rfl
  | cons c rest =>
    have hc := digitValue?_alphabet (hrest c (by simp))
    have hfirst : alphabet.idxOf c.toLower ≠ 0 := fun hzero => by simp [hc.2.2.2.mp hzero] at hhead
    have hempty : (String.ofList (c :: rest)).isEmpty = false := by
      rw [Bool.eq_false_iff, ne_eq, String.isEmpty_iff, String.ofList_eq_empty_iff]
      simp
    simp only [hempty, Bool.false_eq_true, if_false, hrest.utf8ByteSize]
    split
    · next hlong =>
      -- The first digit counts for more than any word.
      have hlarge : 16 ^ 16 ≤ digitsValue (c :: rest) :=
        calc 16 ^ 16 ≤ 16 ^ rest.length := Nat.pow_le_pow_right (by decide) (Nat.le_of_lt_succ hlong)
          _ ≤ alphabet.idxOf c.toLower * 16 ^ rest.length :=
            Nat.le_mul_of_pos_left _ (Nat.pos_of_ne_zero hfirst)
          _ ≤ digitsValue (c :: rest) := by
            rw [digitsValue_cons]
            exact Nat.le_add_right ..
      have hv := v.toNat_lt
      simp only [reduceCtorEq, false_iff]
      omega
    · next hshort =>
      have hread : read? 16 (c :: rest) = some (digitsValue (c :: rest)) := by
        rw [← hrest.ofChars?]
        unfold read?
        split <;> simp_all
      have hlt : digitsValue (c :: rest) < wordLimit :=
        Nat.lt_of_lt_of_le (digitsValue_lt hrest)
          (Nat.pow_le_pow_right (by decide) (Nat.le_of_not_lt hshort))
      rw [readWord?, String.toList_ofList, hread, Option.filter_some, if_pos (by simpa using hlt),
        Option.map_some, Option.some.injEq, ← UInt64.toNat_inj, UInt64.toNat_ofNat_of_lt' hlt]

theorem mem_alphabet_of_mem_ofWord {w : Word} (h : c ∈ (ofWord w).toList) : c ∈ alphabet := by
  rw [ofWord, String.toList_ofList] at h
  obtain ⟨d, hd, rfl⟩ := List.mem_map.mp h
  exact (digitChar_mem_alphabet (lt_of_mem_fixedDigits (by decide) hd)).1

@[simp]
theorem length_ofWord (w : Word) : (ofWord w).toList.length = 16 := by
  simp [ofWord, digitsPerWord]

theorem digitsValue_ofWord (w : Word) : digitsValue (ofWord w).toList = w.toNat := by
  rw [ofWord, String.toList_ofList,
    digitsValue_digitChar fun d hd => lt_of_mem_fixedDigits (by decide) hd, ofDigits_fixedDigits]
  exact Nat.mod_eq_of_lt w.toNat_lt

@[simp]
theorem value?_ofWord (w : Word) : value? (ofWord w) = some w :=
  (value?_eq_some_iff (isDigits_of_lower fun _ => mem_alphabet_of_mem_ofWord)).mpr (digitsValue_ofWord w)

/-! ## Whole words -/

theorem padToWords_eq (h : IsDigits hex.toList) : ∃ count,
    padToWords hex = String.ofList (List.replicate count '0' ++ hex.toList) ∧
      count + hex.toList.length = 16 * wordCount hex := by
  have hsize := h.utf8ByteSize
  rw [String.ofList_toList] at hsize
  refine ⟨_, rfl, ?_⟩
  rw [wordCount, hsize, digitsPerWord]
  omega

theorem wordCount_of_length (h : IsDigits hex.toList) {count : Nat} (hcount : 0 < count)
    (hlength : hex.toList.length = 16 * count) : wordCount hex = count := by
  have hsize := h.utf8ByteSize
  rw [String.ofList_toList] at hsize
  rw [wordCount, hsize, hlength, digitsPerWord]
  omega

theorem eq_of_digitsValue {text text' : List Char} (h : ∀ c ∈ text, c ∈ alphabet)
    (h' : ∀ c ∈ text', c ∈ alphabet) (hlength : text.length = text'.length)
    (hvalue : digitsValue text = digitsValue text') : text = text' := by
  induction text generalizing text' with
  | nil => exact (List.length_eq_zero_iff.mp hlength.symm).symm
  | cons c text ih =>
    obtain _ | ⟨c', text'⟩ := text'
    · simp at hlength
    have hrest := fun d hd => h d (List.mem_cons_of_mem c hd)
    have hrest' := fun d hd => h' d (List.mem_cons_of_mem c' hd)
    have hlength : text.length = text'.length := Nat.succ.inj hlength
    have hlt := digitsValue_lt (isDigits_of_lower hrest)
    have hlt' := digitsValue_lt (isDigits_of_lower hrest')
    rw [digitsValue_cons, digitsValue_cons, ← hlength] at hvalue
    rw [← hlength] at hlt'
    have hdigit : alphabet.idxOf c.toLower = alphabet.idxOf c'.toLower := by
      have hdiv := congrArg (· / 16 ^ text.length) hvalue
      simpa [Nat.add_div_of_dvd_right, Nat.div_eq_of_lt, hlt, hlt'] using hdiv
    rw [hdigit, Nat.add_left_cancel_iff] at hvalue
    rw [ih hrest hrest' hlength hvalue, ← (digitChar_idxOf (h c (by simp))).1,
      ← (digitChar_idxOf (h' c' (by simp))).1, hdigit]

/-- A text of digits, long or short, of either case and with any zeros in front, is read as the word of its
value, and not read if its value is too large for a word. Filled up to whole words, it keeps its value and
is not filled up any further. A word is written in sixteen lower-case digits, which are read as that
word, and which are any other lower-case text of its value with zeros put in front. -/
theorem words_and_texts :
    (∀ hex : String, IsDigits hex.toList →
      (∀ v : Word, value? hex = some v ↔ digitsValue hex.toList = v.toNat) ∧
      (padToWords hex).length = 16 * wordCount hex ∧
      (padToWords hex).utf8ByteSize = 16 * wordCount hex ∧
      digitsValue (padToWords hex).toList = digitsValue hex.toList ∧
      padToWords (padToWords hex) = padToWords hex) ∧
    ∀ v : Word, (ofWord v).length = 16 ∧ (∀ c ∈ (ofWord v).toList, c ∈ alphabet) ∧
      value? (ofWord v) = some v ∧
      ∀ hex : String, (∀ c ∈ hex.toList, c ∈ alphabet) → hex.length ≤ 16 →
        digitsValue hex.toList = v.toNat → ofWord v = padToWords hex := by
  refine ⟨fun hex hhex => ?_, fun v => ?_⟩
  · obtain ⟨count, hpadded, hcount⟩ := padToWords_eq hhex
    have hdigits : IsDigits (padToWords hex).toList := by
      rw [hpadded, String.toList_ofList]
      exact hhex.zeros count
    have hlength : (padToWords hex).toList.length = 16 * wordCount hex := by
      rw [hpadded, String.toList_ofList, List.length_append, List.length_replicate, hcount]
    refine ⟨fun v => value?_eq_some_iff hhex, hlength, ?_, ?_, ?_⟩
    · rw [← hlength, ← hdigits.utf8ByteSize, String.ofList_toList]
    · rw [hpadded, String.toList_ofList, digitsValue_zeros]
    · obtain ⟨more, hagain, hmore⟩ := padToWords_eq hdigits
      have hpos : 0 < wordCount hex := Nat.le_max_left ..
      rw [wordCount_of_length hdigits hpos hlength] at hmore
      obtain rfl : more = 0 := by omega
      rw [hagain, List.replicate_zero, List.nil_append, String.ofList_toList]
  · refine ⟨length_ofWord v, fun _ => mem_alphabet_of_mem_ofWord, value?_ofWord v, fun hex hhex hshort hv => ?_⟩
    have hdigits := isDigits_of_lower hhex
    obtain ⟨count, hpadded, hcount⟩ := padToWords_eq hdigits
    have hone : wordCount hex = 1 := by
      have hsize := hdigits.utf8ByteSize
      rw [String.ofList_toList] at hsize
      have hshort : hex.toList.length ≤ 16 := hshort
      rw [wordCount, hsize, digitsPerWord]
      omega
    rw [hone] at hcount
    rw [hpadded, ← String.toList_inj, String.toList_ofList]
    refine eq_of_digitsValue (fun _ => mem_alphabet_of_mem_ofWord) (fun c hc => ?_) ?_ ?_
    · rcases List.mem_append.mp hc with hc | hc
      · rw [List.eq_of_mem_replicate hc]
        decide
      · exact hhex c hc
    · rw [length_ofWord, List.length_append, List.length_replicate, hcount]
    · rw [digitsValue_ofWord, digitsValue_zeros, hv]

end Hex

end Flatword
