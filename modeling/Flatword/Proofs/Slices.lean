import Flatword.Compile

/-!
# Slices of constants for arrays

A constant that is assigned to a whole array is cut into words from its end, sixteen bytes at a time. Its
text is filled up by characters, so there are always enough bytes, but a cut may go through a character
of several bytes.
-/

namespace Flatword

/-- Why there is no result. -/
def cause? {α : Type} : Except Failure α → Option Cause
  | .error e => some e.cause
  | .ok _ => none

/-- The length of a text in bytes. -/
def Hex.bytes : List Char → Nat
  | [] => 0
  | c :: text => c.utf8Size + bytes text

/-- A text can be cut this many bytes before its end. -/
def Hex.Cuts (text : List Char) (count : Nat) : Prop :=
  ∃ front back, text = front ++ back ∧ Hex.bytes back = count

namespace Lower

variable {count : Nat} {text : List Char}

open Hex

theorem length_le_bytes (text : List Char) : text.length ≤ bytes text := by
  induction text with
  | nil => simp
  | cons c text ih =>
    have hpos := c.utf8Size_pos
    rw [bytes, List.length_cons]
    omega

theorem bytes_append (text text' : List Char) : bytes (text ++ text') = bytes text + bytes text' := by
  induction text with
  | nil => simp [bytes]
  | cons c text ih => simp [bytes, ih, Nat.add_assoc]

theorem bytes_reverse (text : List Char) : bytes text.reverse = bytes text := by
  induction text with
  | nil => rfl
  | cons c text ih => simp [bytes, bytes_append, ih, Nat.add_comm]

theorem splitBytes?_eq_some {text front rest : List Char}
    (h : splitBytes? count text = some (front, rest)) : text = front ++ rest ∧ bytes front = count := by
  fun_induction splitBytes? count text generalizing front with
  | case1 =>
    obtain ⟨rfl, rfl⟩ : [] = front ∧ _ = rest := by simpa using h
    simp [bytes]
  | case2 => simp at h
  | case3 count c text hc ih =>
    obtain ⟨back, hback, rfl⟩ : ∃ back, splitBytes? (count + 1 - c.utf8Size) text = some (back, rest) ∧
        c :: back = front := by simpa using h
    obtain ⟨rfl, hbytes⟩ := ih hback
    refine ⟨rfl, ?_⟩
    rw [bytes]
    omega
  | case4 => simp at h

theorem splitBytes?_eq_none (h : splitBytes? count text = none) {front rest : List Char}
    (hsplit : text = front ++ rest) : bytes front ≠ count := by
  fun_induction splitBytes? count text generalizing front with
  | case1 => simp at h
  | case2 => simp_all [bytes]
  | case3 count c text hc ih =>
    cases front with
    | nil => simp [bytes]
    | cons d front =>
      obtain ⟨rfl, htext⟩ := List.cons.inj hsplit
      have hbytes := ih (by simpa using h) htext
      rw [bytes]
      omega
  | case4 count c text hc =>
    cases front with
    | nil => simp [bytes]
    | cons d front =>
      obtain ⟨rfl, -⟩ := List.cons.inj hsplit
      rw [bytes]
      omega

def storeWords (assign : Slot → Slot → Lower Code) (header : Slot) :
    (i : Nat) → (words : List (List Char)) → Lower Code
  | _, [] => return []
  | i, word :: words => do
    let cell ← slotAt header i
    let code ← assign cell (.constant (String.ofList word))
    return code ++ (← storeWords assign header (i + 1) words)

/-- The words that a text is cut into from its end, until all cells are filled or a cut would go through
a character. -/
structure Sliced (assign : Slot → Slot → Lower Code) (header : Slot) (count i : Nat) (text : List Char)
    (fill : Lower Code) (words : List (List Char)) (rest : List Char) : Prop where
  text_eq : text = rest ++ words.reverse.flatten
  bytes : ∀ word ∈ words, Hex.bytes word = digitsPerWord
  le : words.length ≤ count
  complete : words.length = count → fill = storeWords assign header i words
  broken : words.length < count → ¬ Cuts rest digitsPerWord ∧ fill = (do
    let _ ← storeWords assign header i words
    let _ ← slotAt header (i + words.length : Nat)
    fail .splitCharacter)

theorem fillCells_sliced (assign : Slot → Slot → Lower Code) (header : Slot) (count i : Nat)
    (text : List Char) : ∃ words rest,
      Sliced assign header count i text (fillCells assign header count i text.reverse) words rest := by
  induction count generalizing i text with
  | zero => exact ⟨[], text, by simp, by simp, by simp, fun _ => rfl, by simp⟩
  | succ count ih =>
    rw [fillCells]
    cases hsplit : splitBytes? digitsPerWord text.reverse with
    | none =>
      refine ⟨[], text, by simp, by simp, by simp, by simp, fun _ => ⟨?_, rfl⟩⟩
      rintro ⟨front, back, rfl, hback⟩
      refine splitBytes?_eq_none hsplit (List.reverse_append ..) ?_
      rw [bytes_reverse, hback]
    | some parts =>
      obtain ⟨word, rest⟩ := parts
      obtain ⟨htext, hword⟩ := splitBytes?_eq_some hsplit
      obtain ⟨words, last, h⟩ := ih (i + 1) rest.reverse
      rw [List.reverse_reverse] at h
      refine ⟨word.reverse :: words, last, ?_, ?_, ?_, fun hcount => ?_, fun hcount => ?_⟩
      · rw [← List.reverse_reverse text, htext, List.reverse_append, h.text_eq]
        simp
      · simpa [bytes_reverse, hword] using h.bytes
      · simpa using h.le
      · simp only [h.complete (by simpa using hcount), storeWords]
      · obtain ⟨hcut, hfill⟩ := h.broken (by simpa using hcount)
        refine ⟨hcut, ?_⟩
        simp only [hfill, storeWords, bind_assoc, List.length_cons, Nat.add_assoc, Nat.add_comm 1]
        rfl

theorem bytes_flatten {words : List (List Char)} (h : ∀ word ∈ words, bytes word = digitsPerWord) :
    bytes words.reverse.flatten = words.length * digitsPerWord := by
  induction words with
  | nil => simp [bytes]
  | cons word words ih =>
    obtain ⟨hword, hwords⟩ := List.forall_mem_cons.mp h
    simp [bytes_append, ih hwords, hword, Nat.add_mul]

theorem bytes_eq_length (h : ∀ c ∈ text, c.utf8Size = 1) : bytes text = text.length := by
  induction text with
  | nil => rfl
  | cons c text ih =>
    obtain ⟨hc, htext⟩ := List.forall_mem_cons.mp h
    rw [bytes, hc, ih htext, List.length_cons, Nat.add_comm]

theorem cuts_of_oneByte (h : ∀ c ∈ text, c.utf8Size = 1) (hcount : count ≤ bytes text) :
    Cuts text count := by
  rw [bytes_eq_length h] at hcount
  refine ⟨text.take (text.length - count), text.drop (text.length - count), by simp, ?_⟩
  rw [bytes_eq_length fun c hc => h c (List.mem_of_mem_drop hc), List.length_drop]
  omega

/-- A constant is assigned to a whole array: it is refused if it is too long, or its filled up text is
cut into words of sixteen bytes, which are assigned one after the other. There are enough bytes for all
cells. But a cut that would go through a character, which then has several bytes, ends it. -/
theorem fillArray_slices (assign : Slot → Slot → Lower Code) {header right : Slot} {item : ArrayItem}
    {hex : String} (hitem : header.item = some item) (hright : right.isConstant = true)
    (hcontent : right.content = some hex) {count : Nat} (hcount : count = item.totalSize - 1) :
    (count < right.size ∨ count * digitsPerWord < (significant hex).utf8ByteSize) ∧
      fillArray assign header right = fail .arrayOverflow ∨
    (right.size ≤ count ∧ (significant hex).utf8ByteSize ≤ count * digitsPerWord) ∧
      ∃ words rest, Sliced assign header count 0
          ((significant hex).toList.leftpad (count * digitsPerWord) '0')
          (fillArray assign header right) words rest ∧
        (count - words.length) * digitsPerWord ≤ bytes rest ∧
        (words.length < count → ∃ c ∈ hex.toList, c.utf8Size ≠ 1) := by
  by_cases hlong : right.size > count ∨ (significant hex).utf8ByteSize > count * digitsPerWord
  · refine .inl ⟨hlong, ?_⟩
    subst hcount
    simp only [fillArray, hright, hitem, hcontent, orFail, pure_bind, hlong]
    rfl
  refine .inr ⟨by omega, ?_⟩
  have hfill : fillArray assign header right = fillCells assign header count 0
      ((significant hex).toList.leftpad (count * digitsPerWord) '0').reverse := by
    subst hcount
    simp only [fillArray, hright, hitem, hcontent, orFail, pure_bind, hlong]
    rfl
  obtain ⟨words, rest, h⟩ := fillCells_sliced assign header count 0
    ((significant hex).toList.leftpad (count * digitsPerWord) '0')
  rw [← hfill] at h
  have hlength : count * digitsPerWord ≤ bytes rest + words.length * digitsPerWord := by
    have hwords := bytes_flatten h.bytes
    have htext := length_le_bytes ((significant hex).toList.leftpad (count * digitsPerWord) '0')
    rw [h.text_eq, bytes_append, hwords, ← h.text_eq, List.length_leftpad] at htext
    omega
  have hbytes : (count - words.length) * digitsPerWord ≤ bytes rest := by
    rw [Nat.sub_mul]
    omega
  refine ⟨words, rest, h, hbytes, fun hbroken => Classical.byContradiction fun hone => ?_⟩
  refine (h.broken hbroken).1 (cuts_of_oneByte (fun c hc => ?_) ?_)
  · have hc : c ∈ (significant hex).toList.leftpad (count * digitsPerWord) '0' := by
      rw [h.text_eq]
      exact List.mem_append_left _ hc
    rw [List.leftpad, List.mem_append] at hc
    rcases hc with hzero | hc
    · rw [List.eq_of_mem_replicate hzero]
      rfl
    · rw [significant, String.toList_ofList] at hc
      exact Decidable.byContradiction fun hsize =>
        hone ⟨c, (List.dropWhile_sublist _).subset hc, hsize⟩
  · refine Nat.le_trans ?_ hbytes
    exact Nat.le_mul_of_pos_left _ (by omega)

/-- `long a[3]; a = ...`, where the constant is `é` with fifteen zeros behind it. -/
def accented : Program where
  main := [
    .declaration [.keyword "long" 1, .ident "a" 1,
      ⟨.brackets, "[", 1, [⟨.constant, "3", 1, [], ""⟩], ""⟩],
    .expression (.assign none (.var "a" 1) (.constant "é000000000000000" false 1) 1)]

/-- An array of three words. -/
def threeCells : Slot where
  kind := .array
  type := .long
  item := some ⟨.long, .long, "", 4⟩

/-- The text has seventeen bytes and fits three words. The first cut goes through the `é`. -/
theorem accented_splits : cause? (compile {} accented) = some .splitCharacter ∧
    ∃ words rest, Sliced (assignWithin 1) threeCells 3 0 ("é000000000000000".toList.leftpad 48 '0')
      (fillArray (assignWithin 1) threeCells (.constant "é000000000000000")) words rest := by
  refine ⟨by decide +kernel, ?_⟩
  have hitem : threeCells.item = some ⟨.long, .long, "", 4⟩ := rfl
  have hright : (Slot.constant "é000000000000000").isConstant = true := rfl
  obtain ⟨hlong, -⟩ | ⟨-, words, rest, h, -⟩ :=
    fillArray_slices (assignWithin 1) hitem hright rfl rfl
  · exact absurd hlong (by decide +kernel)
  · exact ⟨words, rest, h⟩

end Lower

end Flatword
