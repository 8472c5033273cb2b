import Mathlib.Data.Nat.Digits.Defs
import Mathlib.Data.Rat.Defs
import Mathlib.Tactic.FieldSimp
import Flatword.Literal.Decimal
import Flatword.Proofs.Numeral

/-!
# The value of a decimal literal

A literal is read exactly: it is a number, or a number with a point in it that counts units of `10 ^ -8`,
and it is refused if the value is no such number of units or too large for a word.
-/

namespace Flatword.Literal

variable {text : List Char}

/-- A text of decimal digits only, of any length. -/
def IsDigits (text : List Char) : Prop :=
  ∀ c ∈ text, '0' ≤ c ∧ c ≤ '9'

/-- The number that a text of digits stands for. -/
def digitsValue (text : List Char) : Nat :=
  Numeral.textValue 10 (fun c => c.toNat - '0'.toNat) text

/-- What a literal without underscores stands for: whether it has a point, and its exact value. -/
@[mk_iff]
inductive Exact : (text : List Char) → (isFixed : Bool) → (value : ℚ) → Prop
  | whole {digits} (h : IsDigits digits) : Exact digits false (digitsValue digits)
  | fixed {digits decimals} (h : IsDigits digits) (hdecimals : IsDigits decimals)
      (hplaces : decimals.length ≤ 8) :
      Exact (digits ++ '.' :: decimals) true
        ((digitsValue digits + digitsValue decimals / 10 ^ decimals.length) * 10 ^ 8)

theorem IsDigits.not_point (h : IsDigits text) : '.' ∉ text :=
  fun hmem => absurd (h '.' hmem) (by decide)

theorem isDigits_rightpad {n : Nat} : IsDigits (text.rightpad n '0') ↔ IsDigits text := by
  refine ⟨fun h c hc => h c (List.mem_append_left _ hc), fun h c hc => ?_⟩
  rcases List.mem_append.mp hc with hc | hc
  · exact h c hc
  · obtain rfl := List.eq_of_mem_replicate hc
    decide

theorem digitsValue_rightpad (text : List Char) (n : Nat) :
    digitsValue (text.rightpad n '0') = digitsValue text * 10 ^ (n - text.length) := by
  rw [digitsValue, Numeral.textValue, List.rightpad, List.reverse_append, List.map_append,
    Nat.ofDigits_append, List.reverse_replicate, List.map_replicate, List.length_replicate, Nat.mul_comm]
  simp [Nat.ofDigits_replicate_zero, digitsValue, Numeral.textValue]

theorem digitValue?_decimal {c : Char} (h : '0' ≤ c ∧ c ≤ '9') :
    Numeral.digitValue? 10 c = some (c.toNat - '0'.toNat) ∧ c.utf8Size = 1 := by
  have hlow : 48 ≤ c.toNat := h.1
  have hhigh : c.toNat ≤ 57 := h.2
  refine ⟨?_, if_pos (Nat.le_trans hhigh (by decide))⟩
  rw [Numeral.digitValue?, if_pos ⟨hlow, hhigh⟩, Option.filter_some, if_pos (decide_eq_true (by omega))]
  rfl

theorem IsDigits.ofChars? (h : IsDigits text) : Numeral.ofChars? 10 text = some (digitsValue text) :=
  Numeral.ofChars?_eq_textValue fun c hc => (digitValue?_decimal (h c hc)).1

theorem IsDigits.utf8ByteSize (h : IsDigits text) : (String.ofList text).utf8ByteSize = text.length :=
  Hex.utf8ByteSize_ofList fun c hc => (digitValue?_decimal (h c hc)).2

/-! ## Exact values -/

variable {text : List Char} {isFixed : Bool} {value : ℚ}

theorem exact_whole_iff (h : '.' ∉ text) :
    Exact text isFixed value ↔ isFixed = false ∧ IsDigits text ∧ value = digitsValue text := by
  rw [exact_iff]
  constructor
  · rintro (⟨hdigits, rfl, hvalue⟩ | ⟨w, d, -, -, -, rfl, -⟩)
    · exact ⟨rfl, hdigits, hvalue⟩
    · simp at h
  · rintro ⟨rfl, hdigits, hvalue⟩
    exact .inl ⟨hdigits, rfl, hvalue⟩

theorem exact_fixed_iff {whole decimals : List Char} (h : '.' ∉ whole) (hdecimals : '.' ∉ decimals) :
    Exact (whole ++ '.' :: decimals) isFixed value ↔
      isFixed = true ∧ IsDigits whole ∧ IsDigits decimals ∧ decimals.length ≤ 8 ∧
        value = (digitsValue whole * 10 ^ 8 + digitsValue (decimals.rightpad 8 '0') : Nat) := by
  have hunits (hplaces : decimals.length ≤ 8) :
      ((digitsValue whole + digitsValue decimals / 10 ^ decimals.length) * 10 ^ 8 : ℚ) =
        (digitsValue whole * 10 ^ 8 + digitsValue (decimals.rightpad 8 '0') : Nat) := by
    have hpow : (10 : ℚ) ^ 8 = 10 ^ (8 - decimals.length) * 10 ^ decimals.length := by
      rw [← pow_add, Nat.sub_add_cancel hplaces]
    rw [digitsValue_rightpad, Nat.cast_add, Nat.cast_mul, Nat.cast_mul, Nat.cast_pow, Nat.cast_pow,
      Nat.cast_ofNat, hpow]
    field_simp
  rw [exact_iff]
  constructor
  · rintro (⟨hdigits, -, -⟩ | ⟨w, d, hw, hd, hplaces, heq, rfl, rfl⟩)
    · exact absurd (by simp) hdigits.not_point
    · obtain ⟨rfl, -, rfl⟩ := (List.append_cons_inj_of_notMem h hdecimals).mp heq
      exact ⟨rfl, hw, hd, hplaces, hunits hplaces⟩
  · rintro ⟨rfl, hdigits, hdecimals, hplaces, hvalue⟩
    exact .inr ⟨whole, decimals, hdigits, hdecimals, hplaces, rfl, rfl, by rw [hvalue, hunits hplaces]⟩

theorem not_exact_points (whole decimals rest : List Char) :
    ¬ Exact (whole ++ '.' :: (decimals ++ '.' :: rest)) isFixed value := by
  rw [exact_iff]
  rintro (⟨hdigits, -, -⟩ | ⟨w, d, hw, hd, -, heq, -⟩)
  · exact absurd (by simp) hdigits.not_point
  · obtain ⟨-, -, rfl⟩ := (List.append_cons_inj_of_notMem hw.not_point hd.not_point).mp heq.symm
    exact absurd (by simp) hd.not_point

theorem Exact.natural (h : Exact text isFixed value) : ∃ n : Nat, value = n := by
  cases h with
  | whole => exact ⟨_, rfl⟩
  | fixed hw hd hplaces =>
    exact ⟨_, ((exact_fixed_iff hw.not_point hd.not_point).mp (.fixed hw hd hplaces)).2.2.2.2⟩

theorem Exact.isFixed_iff (h : Exact text isFixed value) : isFixed = true ↔ '.' ∈ text := by
  cases h with
  | whole hdigits => simp [hdigits.not_point]
  | fixed => simp

/-! ## Points -/

theorem splitPoints_of_not_mem (h : '.' ∉ text) : splitPoints text = [text] := by
  induction text with
  | nil => rfl
  | cons c text ih =>
    rw [splitPoints, ih (List.not_mem_of_not_mem_cons h)]
    exact if_neg (List.ne_of_not_mem_cons h).symm

theorem splitPoints_ne_nil (text : List Char) : splitPoints text ≠ [] := by
  cases text with
  | nil => simp [splitPoints]
  | cons c text =>
    rw [splitPoints]
    split
    · simp
    · split <;> simp

theorem splitPoints_append {front : List Char} (h : '.' ∉ front) (rest : List Char) :
    splitPoints (front ++ '.' :: rest) = front :: splitPoints rest := by
  induction front with
  | nil =>
    obtain ⟨part, parts, hparts⟩ := List.exists_cons_of_ne_nil (splitPoints_ne_nil rest)
    rw [List.nil_append, splitPoints, hparts]
    rfl
  | cons c front ih =>
    rw [List.cons_append, splitPoints, ih (List.not_mem_of_not_mem_cons h)]
    exact if_neg (List.ne_of_not_mem_cons h).symm

namespace Decimal

variable {decimals whole : List Char} {number : Decimal} {α β ε : Type}

theorem bind_eq_ok {x : Except ε α} {f : α → Except ε β} {b : β} :
    x >>= f = .ok b ↔ ∃ a, x = .ok a ∧ f a = .ok b := by
  cases x with
  | ok a => exact ⟨fun h => ⟨a, rfl, h⟩, fun ⟨_, ha, h⟩ => Except.ok.inj ha ▸ h⟩
  | error e => exact ⟨nofun, nofun⟩

theorem except_ok_bind {f : α → Except ε β} {a : α} : (Except.ok a >>= f) = f a := rfl

theorem readPart_eq_ok_iff {text : String} {part : List Char} {n : Nat} :
    readPart text part = .ok n ↔ IsDigits part ∧ digitsValue part = n ∧ n < wordLimit := by
  have hall : (part.all fun c => '0' ≤ c && c ≤ '9') = true ↔ IsDigits part := by simp [IsDigits]
  rw [readPart]
  split
  · next h =>
    have hdigits := hall.mp h
    rw [hdigits.ofChars?, Option.getD_some]
    dsimp only
    constructor
    · intro hread
      split at hread <;> cases hread
      exact ⟨hdigits, rfl, by assumption⟩
    · rintro ⟨-, rfl, hlt⟩
      exact if_pos hlt
  · next h => exact ⟨nofun, fun hread => absurd (hall.mpr hread.1) h⟩

theorem read_whole {text : String} {digits : List Char} (htext : text.toList.filter (· ≠ '_') = digits)
    (hpoint : '.' ∉ digits) :
    read text = .ok number ↔ Exact digits number.isFixed number.value.toNat := by
  rw [exact_whole_iff hpoint, Nat.cast_inj]
  have hread : read text = readPart text digits >>= fun n => pure ⟨UInt64.ofNat n, false⟩ := by
    rw [read, htext, splitPoints_of_not_mem hpoint]
  constructor
  · intro h
    obtain ⟨n, hpart, h⟩ := bind_eq_ok.mp (hread.symm.trans h)
    obtain rfl := Except.ok.inj h
    obtain ⟨hdigits, rfl, hlt⟩ := readPart_eq_ok_iff.mp hpart
    exact ⟨rfl, hdigits, UInt64.toNat_ofNat_of_lt' hlt⟩
  · rintro ⟨hfixed, hdigits, hvalue⟩
    obtain ⟨word, isFixed⟩ := number
    obtain rfl : isFixed = false := hfixed
    rw [hread, readPart_eq_ok_iff.mpr ⟨hdigits, hvalue.symm, word.toNat_lt⟩]
    rw [except_ok_bind, UInt64.ofNat_toNat]
    rfl

theorem read_fixed {text : String} (htext : text.toList.filter (· ≠ '_') = whole ++ '.' :: decimals)
    (hwhole : '.' ∉ whole) (hdecimals : '.' ∉ decimals) :
    read text = .ok number ↔
      Exact (whole ++ '.' :: decimals) number.isFixed number.value.toNat := by
  rw [exact_fixed_iff hwhole hdecimals, Nat.cast_inj]
  have hread : read text = readPart text whole >>= fun n =>
      if (String.ofList decimals).utf8ByteSize > fixedPlaces then throw (.tooManyDecimals text)
      else readPart text (decimals.rightpad fixedPlaces '0') >>= fun d =>
        if n * Nat.pow 10 fixedPlaces + d < wordLimit then
          pure ⟨UInt64.ofNat (n * Nat.pow 10 fixedPlaces + d), true⟩
        else throw (.fixedTooBig text) := by
    rw [read, htext, splitPoints_append hwhole, splitPoints_of_not_mem hdecimals]
    rfl
  constructor
  · intro h
    obtain ⟨n, hpart, h⟩ := bind_eq_ok.mp (hread.symm.trans h)
    split at h
    · cases h
    next hplaces =>
    obtain ⟨d, hpart', h⟩ := bind_eq_ok.mp h
    split at h
    · next hlt =>
      obtain rfl := Except.ok.inj h
      obtain ⟨hdigits, rfl, -⟩ := readPart_eq_ok_iff.mp hpart
      obtain ⟨hpadded, rfl, -⟩ := readPart_eq_ok_iff.mp hpart'
      have hdigits' := isDigits_rightpad.mp hpadded
      rw [hdigits'.utf8ByteSize] at hplaces
      exact ⟨rfl, hdigits, hdigits', Nat.le_of_not_lt hplaces, UInt64.toNat_ofNat_of_lt' hlt⟩
    · cases h
  · rintro ⟨hfixed, hdigits, hdigits', hplaces, hvalue⟩
    obtain ⟨word, isFixed⟩ := number
    obtain rfl : isFixed = true := hfixed
    dsimp only at hvalue
    have hlt : word.toNat < wordLimit := word.toNat_lt
    have hwhole : readPart text whole = .ok (digitsValue whole) :=
      readPart_eq_ok_iff.mpr ⟨hdigits, rfl, by omega⟩
    have hpadded : readPart text (decimals.rightpad fixedPlaces '0') =
        .ok (digitsValue (decimals.rightpad 8 '0')) :=
      readPart_eq_ok_iff.mpr ⟨isDigits_rightpad.mpr hdigits', rfl, by omega⟩
    have hsize : ¬ (String.ofList decimals).utf8ByteSize > fixedPlaces := by
      rw [hdigits'.utf8ByteSize]
      exact Nat.not_lt_of_le hplaces
    have hscaled : digitsValue whole * Nat.pow 10 fixedPlaces + digitsValue (decimals.rightpad 8 '0') =
        word.toNat := hvalue.symm
    rw [hread, hwhole, except_ok_bind, if_neg hsize, hpadded, except_ok_bind, hscaled, if_pos hlt,
      UInt64.ofNat_toNat]
    rfl

theorem read_points {text : String} {whole decimals rest : List Char}
    (htext : text.toList.filter (· ≠ '_') = whole ++ '.' :: (decimals ++ '.' :: rest)) (hwhole : '.' ∉ whole)
    (hdecimals : '.' ∉ decimals) : read text = .error (.tooManyPoints text) := by
  obtain ⟨part, parts, hparts⟩ := List.exists_cons_of_ne_nil (splitPoints_ne_nil rest)
  rw [read, htext, splitPoints_append hwhole, splitPoints_append hdecimals, hparts]

theorem read_eq_ok_iff {text : String} :
    read text = .ok number ↔
      Exact (text.toList.filter (· ≠ '_')) number.isFixed number.value.toNat := by
  by_cases hpoint : '.' ∈ text.toList.filter (· ≠ '_')
  · obtain ⟨whole, decimals, htext, hwhole⟩ := List.eq_append_cons_of_mem hpoint
    rw [htext]
    by_cases hsecond : '.' ∈ decimals
    · obtain ⟨decimals, rest, rfl, hdecimals⟩ := List.eq_append_cons_of_mem hsecond
      rw [read_points htext hwhole hdecimals]
      exact ⟨nofun, fun h => absurd h (not_exact_points whole decimals rest)⟩
    · exact read_fixed htext hwhole hsecond
  · exact read_whole rfl hpoint

/-- A literal is read if and only if, without its underscores, it has an exact value and this fits a word.
What is read is that value, as a fixed-point number if and only if there is a point. -/
theorem read_exactly (text : String) :
    ((∃ number, read text = .ok number) ↔ ∃ isFixed value,
      Exact (text.toList.filter (· ≠ '_')) isFixed value ∧ value < wordLimit) ∧
    ∀ number, read text = .ok number ↔
      Exact (text.toList.filter (· ≠ '_')) number.isFixed number.value.toNat ∧
        (number.isFixed = true ↔ '.' ∈ text.toList) := by
  constructor
  · constructor
    · rintro ⟨number, hread⟩
      exact ⟨_, _, read_eq_ok_iff.mp hread, Nat.cast_lt.mpr number.value.toNat_lt⟩
    · rintro ⟨isFixed, value, hexact, hlt⟩
      obtain ⟨n, rfl⟩ := hexact.natural
      have hword := UInt64.toNat_ofNat_of_lt' (Nat.cast_lt.mp hlt)
      exact ⟨⟨UInt64.ofNat n, isFixed⟩, read_eq_ok_iff.mpr (by rwa [hword])⟩
  · intro number
    rw [read_eq_ok_iff]
    refine ⟨fun h => ⟨h, h.isFixed_iff.trans ?_⟩, And.left⟩
    simp

end Decimal

end Flatword.Literal
