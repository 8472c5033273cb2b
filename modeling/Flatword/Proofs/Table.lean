import Mathlib.Data.List.Nodup
import Mathlib.Data.Nat.Find
import Flatword.Memory.Table

/-!
# The memory table as a layout

Words are numbered in the order in which they are added, and the head of a struct takes no number.
This is so after any history of changes to a table, including those that were refused halfway: so
each number below the number of words belongs to one slot.
-/

namespace Flatword

variable {i j : Nat} {kinds : List Kind}

/-! ## Numbering -/

/-- How many of these slots are words. -/
def wordCount (kinds : List Kind) : Nat :=
  kinds.countP (· ≠ .struct)

/-- The addresses of slots of these kinds, when the first is `first`. -/
def addressesFrom (first : Nat) : List Kind → List (Option Nat)
  | [] => []
  | kind :: rest => some first :: addressesFrom (first + kind.width) rest

@[simp]
theorem wordCount_nil : wordCount [] = 0 := rfl

@[simp]
theorem wordCount_append (front back : List Kind) :
    wordCount (front ++ back) = wordCount front + wordCount back :=
  List.countP_append

@[simp]
theorem wordCount_cons (kind : Kind) (rest : List Kind) :
    wordCount (kind :: rest) = kind.width + wordCount rest := by
  cases kind <;> simp [wordCount, Kind.width, Nat.add_comm]

@[simp]
theorem length_addressesFrom (first : Nat) (kinds : List Kind) :
    (addressesFrom first kinds).length = kinds.length := by
  induction kinds generalizing first with
  | nil => rfl
  | cons kind rest ih => simp [addressesFrom, ih]

theorem addressesFrom_append (first : Nat) (front back : List Kind) :
    addressesFrom first (front ++ back) =
      addressesFrom first front ++ addressesFrom (first + wordCount front) back := by
  induction front generalizing first with
  | nil => rfl
  | cons kind front ih => simp [addressesFrom, ih, Nat.add_assoc]

theorem getElem_addressesFrom (first : Nat) (kinds : List Kind) (i : Nat)
    (h : i < (addressesFrom first kinds).length) :
    (addressesFrom first kinds)[i] = some (first + wordCount (kinds.take i)) := by
  induction kinds generalizing first i with
  | nil => simp [addressesFrom] at h
  | cons kind rest ih =>
    cases i with
    | zero => rfl
    | succ i => simp [addressesFrom, ih, Nat.add_assoc]

theorem wordCount_take_lt (hi : i < kinds.length) (hkind : kinds[i] ≠ .struct) (hij : i < j) :
    wordCount (kinds.take i) < wordCount (kinds.take j) := by
  have hwidth : kinds[i].width = 1 := by
    revert hkind
    cases kinds[i] <;> simp [Kind.width]
  have hsucc : wordCount (kinds.take (i + 1)) = wordCount (kinds.take i) + 1 := by
    rw [List.take_add_one, List.getElem?_eq_getElem hi, wordCount_append, Option.toList_some,
      wordCount_cons, hwidth, wordCount_nil]
  have hle : wordCount (kinds.take (i + 1)) ≤ wordCount (kinds.take j) :=
    (List.take_prefix_take_left (Nat.succ_le_of_lt hij)).sublist.countP_le
  omega

theorem exists_word {a : Nat} (ha : a < wordCount kinds) :
    ∃ (i : Nat) (h : i < kinds.length), kinds[i] ≠ .struct ∧ wordCount (kinds.take i) = a := by
  induction kinds generalizing a with
  | nil => simp at ha
  | cons kind rest ih =>
    by_cases hfirst : a < kind.width
    · refine ⟨0, by simp, fun hkind => ?_, ?_⟩
      · rw [show kind = .struct from hkind] at hfirst
        exact absurd hfirst (Nat.not_lt_zero a)
      · have : kind.width ≤ 1 := by cases kind <;> simp [Kind.width]
        simp only [List.take_zero, wordCount_nil]
        omega
    · rw [wordCount_cons] at ha
      obtain ⟨i, hi, hkind, hcount⟩ := ih (a := a - kind.width) (by omega)
      refine ⟨i + 1, by simpa using hi, by simpa using hkind, ?_⟩
      rw [List.take_succ_cons, wordCount_cons, hcount]
      omega

theorem word_unique (hi : i < kinds.length) (hj : j < kinds.length) (hik : kinds[i] ≠ .struct)
    (hjk : kinds[j] ≠ .struct) (h : wordCount (kinds.take i) = wordCount (kinds.take j)) : i = j := by
  rcases Nat.lt_trichotomy i j with hlt | heq | hgt
  · exact absurd h (Nat.ne_of_lt (wordCount_take_lt hi hik hlt))
  · exact heq
  · exact absurd h.symm (Nat.ne_of_lt (wordCount_take_lt hj hjk hgt))

namespace Table

variable {a i : Nat} {rest slots : List Slot} {s : Slot}

/-! ## Laid out tables -/

/-- A table whose slots have names of their own and stand in the order of their addresses. -/
structure LaidOut (t : Table) : Prop where
  names : (t.slots.map Slot.asmName).Nodup
  addresses : t.slots.map Slot.address = addressesFrom 0 (t.slots.map Slot.kind)
  next : t.next = wordCount (t.slots.map Slot.kind)

variable {t : Table}

theorem laidOut_empty : LaidOut {} := by
  constructor <;> simp [addressesFrom]

theorem LaidOut.push (h : t.LaidOut) (hname : s.asmName ∉ t.slots.map Slot.asmName) :
    (t.push s).LaidOut where
  names := by
    have hname' : (placed s t.next).asmName ∉ t.slots.map Slot.asmName := hname
    rw [Table.push, List.map_append, List.map_singleton]
    exact List.nodup_append.mpr ⟨h.names, List.nodup_singleton _, by
      rintro x hx y hy rfl
      exact hname' (List.mem_singleton.mp hy ▸ hx)⟩
  addresses := by
    simp [Table.push, addressesFrom_append, h.addresses, h.next, addressesFrom, placed]
  next := by simp [Table.push, h.next, placed]

theorem LaidOut.append (h : t.LaidOut) (slots : List Slot) : (t.append slots).1.LaidOut := by
  fun_induction Table.append t slots with
  | case1 => exact h
  | case2 => exact h
  | case3 t s rest hfree ih => exact ih (h.push (by simpa [findAsm?] using hfree))

theorem map_updateAsm {α : Type} (view : Slot → α) (change : Slot → Slot) (t : Table)
    (asmName : String) (h : ∀ s ∈ t.slots, s.asmName = asmName → view (change s) = view s) :
    (t.updateAsm asmName change).slots.map view = t.slots.map view := by
  have hgo (slots : List Slot) (h : ∀ s ∈ slots, s.asmName = asmName → view (change s) = view s) :
      (updateAsm.go asmName change slots).map view = slots.map view := by
    fun_induction updateAsm.go asmName change slots <;> simp_all
  exact hgo t.slots h

theorem LaidOut.congr {u : Table} (h : t.LaidOut)
    (hnames : u.slots.map Slot.asmName = t.slots.map Slot.asmName)
    (hkinds : u.slots.map Slot.kind = t.slots.map Slot.kind)
    (haddresses : u.slots.map Slot.address = t.slots.map Slot.address) (hnext : u.next = t.next) :
    u.LaidOut :=
  ⟨hnames ▸ h.names, by rw [haddresses, hkinds, h.addresses], by rw [hnext, hkinds, h.next]⟩

theorem LaidOut.updateAsm (h : t.LaidOut) (change : Slot → Slot)
    (hname : ∀ s, (change s).asmName = s.asmName) (hkind : ∀ s, (change s).kind = s.kind)
    (haddress : ∀ s, (change s).address = s.address) (asmName : String) :
    (t.updateAsm asmName change).LaidOut :=
  h.congr (map_updateAsm _ change t asmName fun s _ _ => hname s)
    (map_updateAsm _ change t asmName fun s _ _ => hkind s)
    (map_updateAsm _ change t asmName fun s _ _ => haddress s) rfl

theorem LaidOut.markSet (h : t.LaidOut) (asmName : String) : (t.markSet asmName).LaidOut :=
  h.updateAsm ({ · with isSet := true }) (fun _ => rfl) (fun _ => rfl) (fun _ => rfl) asmName

theorem LaidOut.markDeclared (h : t.LaidOut) (asmName : String) :
    (t.markDeclared asmName).LaidOut :=
  h.updateAsm ({ · with isDeclared := true }) (fun _ => rfl) (fun _ => rfl) (fun _ => rfl) asmName

theorem LaidOut.setContent (h : t.LaidOut) (asmName hex : String) :
    (t.setContent asmName hex).LaidOut :=
  h.updateAsm ({ · with content := some hex, isSet := true }) (fun _ => rfl) (fun _ => rfl)
    (fun _ => rfl) asmName

theorem LaidOut.address_getElem (h : t.LaidOut) (hi : i < t.slots.length) :
    t.slots[i].address = some (wordCount ((t.slots.map Slot.kind).take i)) := by
  have hi' : i < (addressesFrom 0 (t.slots.map Slot.kind)).length := by simpa using hi
  have hget := getElem_addressesFrom 0 (t.slots.map Slot.kind) i hi'
  simp only [← h.addresses, List.getElem_map, Nat.zero_add] at hget
  exact hget

theorem LaidOut.findAt?_eq_some (h : t.LaidOut) (ha : a < t.words) :
    ∃ (i : Nat) (hi : i < t.slots.length), t.findAt? a = some t.slots[i] ∧
      ∀ (j : Nat) (hj : j < t.slots.length),
        t.slots[j].address = some a ∧ t.slots[j].kind ≠ .struct ↔ j = i := by
  rw [words, h.next] at ha
  obtain ⟨i, hi, hkind, hcount⟩ := exists_word ha
  have hi' : i < t.slots.length := by simpa using hi
  rw [List.getElem_map] at hkind
  have haddress : t.slots[i].address = some a := by rw [h.address_getElem hi', hcount]
  have honly (j : Nat) (hj : j < t.slots.length) :
      t.slots[j].address = some a ∧ t.slots[j].kind ≠ .struct ↔ j = i := by
    constructor
    · rintro ⟨hja, hjk⟩
      rw [h.address_getElem hj, Option.some.injEq] at hja
      exact word_unique (by simpa using hj) hi (by simpa using hjk) (by simpa using hkind)
        (hja.trans hcount.symm)
    · rintro rfl
      exact ⟨haddress, hkind⟩
  refine ⟨i, hi', List.find?_eq_some_iff_getElem.mpr ⟨by simp [haddress, hkind], i, hi', rfl, ?_⟩,
    honly⟩
  intro j hj
  have hother := (honly j (Nat.lt_trans hj hi')).not.mpr (Nat.ne_of_lt hj)
  simpa [Decidable.imp_iff_not_or] using hother

theorem LaidOut.findAt?_eq_none (h : t.LaidOut) (ha : t.words ≤ a) : t.findAt? a = none := by
  refine List.find?_eq_none.mpr fun s hs => ?_
  obtain ⟨i, hi, rfl⟩ := List.getElem_of_mem hs
  simp only [h.address_getElem hi, Option.some.injEq, ne_eq, Bool.and_eq_true, decide_eq_true_eq,
    not_and, Decidable.not_not]
  rintro rfl
  by_contra hkind
  have hi' : i < (t.slots.map Slot.kind).length := by simpa using hi
  have hlast := wordCount_take_lt hi' (by simpa using hkind) hi
  rw [List.take_of_length_le (i := t.slots.length) (by simp), ← h.next] at hlast
  exact absurd ha (Nat.not_le_of_lt hlast)

/-! ## What is added -/

/-- Slots as they stand in a table when the first of them gets a given address. -/
def placedFrom (first : Nat) : List Slot → List Slot
  | [] => []
  | s :: rest => placed s first :: placedFrom (first + s.kind.width) rest

theorem placedFrom_eq_mapIdx (first : Nat) (slots : List Slot) :
    placedFrom first slots = slots.mapIdx fun i s =>
      placed s (first + wordCount ((slots.take i).map Slot.kind)) := by
  induction slots generalizing first with
  | nil => rfl
  | cons s rest ih => simp [placedFrom, List.mapIdx_cons, ih, Nat.add_assoc]

/-- The name of the slot at this position is taken, by the table or by a slot before it. -/
def Clashes (t : Table) (slots : List Slot) (i : Nat) : Prop :=
  ∃ h : i < slots.length, slots[i].asmName ∈ t.slots.map Slot.asmName ∨
    slots[i].asmName ∈ (slots.take i).map Slot.asmName

theorem clashes_zero : t.Clashes (s :: rest) 0 ↔ s.asmName ∈ t.slots.map Slot.asmName := by
  simp [Clashes]

theorem clashes_succ : t.Clashes (s :: rest) (i + 1) ↔ (t.push s).Clashes rest i := by
  simp only [Clashes, List.length_cons, Nat.add_lt_add_iff_right, List.getElem_cons_succ,
    List.take_succ_cons, List.map_cons, List.mem_cons, Table.push, List.map_append, List.mem_append,
    List.map_nil, List.not_mem_nil, or_false]
  exact exists_congr fun _ => or_assoc.symm

/-- The table and the clash that `append` gives, if there are `count` slots before the first clash,
or if there is no clash among `count` slots. -/
theorem append_eq {count : Nat} (hcount : count ≤ slots.length)
    (hfree : ∀ i < count, ¬ t.Clashes slots i) (hclash : count < slots.length → t.Clashes slots count) :
    t.append slots =
      ({ slots := t.slots ++ placedFrom t.next (slots.take count),
         next := t.next + wordCount ((slots.take count).map Slot.kind) }, slots[count]?) := by
  fun_induction Table.append t slots generalizing count with
  | case1 t =>
    simp [placedFrom]
  | case2 t s rest htaken =>
    have htaken : t.Clashes (s :: rest) 0 := by simpa [clashes_zero, findAsm?] using htaken
    obtain rfl : count = 0 := by
      by_contra hne
      exact hfree 0 (Nat.pos_of_ne_zero hne) htaken
    simp [placedFrom]
  | case3 t s rest hname ih =>
    have hname : ¬ t.Clashes (s :: rest) 0 := by simpa [clashes_zero, findAsm?] using hname
    cases count with
    | zero => exact absurd (hclash (by simp)) hname
    | succ count =>
      rw [ih (show count ≤ rest.length by simpa using hcount)
        (fun i hi => clashes_succ.not.mp (hfree (i + 1) (by simpa using hi)))
        fun hlt => clashes_succ.mp (hclash (by simpa using hlt))]
      simp [Table.push, placedFrom, Nat.add_assoc]

theorem exists_first_clash (t : Table) (slots : List Slot) :
    ∃ count ≤ slots.length, (∀ i < count, ¬ t.Clashes slots i) ∧
      (count < slots.length → t.Clashes slots count) := by
  classical
  by_cases hclash : ∃ i, t.Clashes slots i
  · refine ⟨Nat.find hclash, ?_, fun i hi => Nat.find_min hclash hi, fun _ => Nat.find_spec hclash⟩
    obtain ⟨hlt, -⟩ := Nat.find_spec hclash
    exact Nat.le_of_lt hlt
  · exact ⟨slots.length, Nat.le_refl _, fun i _ hi => hclash ⟨i, hi⟩,
      fun hlt => absurd hlt (Nat.lt_irrefl _)⟩

theorem append_eq_none_iff : (t.append slots).2 = none ↔ ∀ i, ¬ t.Clashes slots i := by
  obtain ⟨count, hcount, hfree, hclash⟩ := exists_first_clash t slots
  rw [append_eq hcount hfree hclash, List.getElem?_eq_none_iff]
  constructor
  · rintro hle i hi
    obtain ⟨hlt, -⟩ := id hi
    exact hfree i (Nat.lt_of_lt_of_le hlt hle) hi
  · intro hnone
    by_contra hlt
    exact hnone count (hclash (Nat.lt_of_not_le hlt))

theorem append_eq_of_none (h : (t.append slots).2 = none) :
    (t.append slots).1 =
      { slots := t.slots ++ placedFrom t.next slots,
        next := t.next + wordCount (slots.map Slot.kind) } := by
  rw [append_eq (Nat.le_refl slots.length) (fun i _ => append_eq_none_iff.mp h i)
    fun hlt => absurd hlt (Nat.lt_irrefl _), List.take_length]

/-! ## Histories -/

/-- What can be done to a table. -/
inductive Edit where
  | append (slots : List Slot)
  | markSet (asmName : String)
  | markDeclared (asmName : String)
  | setContent (asmName hex : String)
  deriving DecidableEq, Repr

/-- The table after a change; slots that were added before a clash stay. -/
def edit (t : Table) : Edit → Table
  | .append slots => (t.append slots).1
  | .markSet asmName => t.markSet asmName
  | .markDeclared asmName => t.markDeclared asmName
  | .setContent asmName hex => t.setContent asmName hex

theorem LaidOut.afterEdit (h : t.LaidOut) (change : Edit) : (t.edit change).LaidOut := by
  cases change with
  | append slots => exact h.append slots
  | markSet asmName => exact h.markSet asmName
  | markDeclared asmName => exact h.markDeclared asmName
  | setContent asmName hex => exact h.setContent asmName hex

theorem LaidOut.afterEdits (h : t.LaidOut) (edits : List Edit) :
    (edits.foldl edit t).LaidOut := by
  induction edits generalizing t with
  | nil => exact h
  | cons change edits ih => exact ih (h.afterEdit change)

/-- After any history, the names in a table differ and its words are numbered in order. So each
address below the number of words belongs to one slot, and no other address to any. Slots are added
up to the first whose name is taken, and if there is none, all of them. -/
theorem laid_out_by_edits (edits : List Edit) :
    let t := edits.foldl edit {}
    (t.slots.map Slot.asmName).Nodup ∧
    (∀ (i : Nat) (hi : i < t.slots.length),
      t.slots[i].address = some (((t.slots.take i).countP (·.kind ≠ .struct)))) ∧
    t.words = t.slots.countP (·.kind ≠ .struct) ∧
    (∀ a < t.words, ∃ (i : Nat) (hi : i < t.slots.length), t.findAt? a = some t.slots[i] ∧
      ∀ (j : Nat) (hj : j < t.slots.length),
        t.slots[j].address = some a ∧ t.slots[j].kind ≠ .struct ↔ j = i) ∧
    (∀ a, t.words ≤ a → t.findAt? a = none) ∧
    ∀ slots : List Slot,
      ((t.append slots).2 = none ↔ ∀ i, ¬ t.Clashes slots i) ∧
      ∀ count ≤ slots.length, (∀ i < count, ¬ t.Clashes slots i) →
        (count < slots.length → t.Clashes slots count) →
        (t.append slots).2 = slots[count]? ∧
        (t.append slots).1.words = t.words + (slots.take count).countP (·.kind ≠ .struct) ∧
        (t.append slots).1.slots = t.slots ++ (slots.take count).mapIdx fun i s =>
          placed s (t.words + ((slots.take count).take i).countP (·.kind ≠ .struct)) := by
  intro t
  have h : t.LaidOut := laidOut_empty.afterEdits edits
  have hwords (slots : List Slot) :
      wordCount (slots.map Slot.kind) = slots.countP (·.kind ≠ .struct) := by
    simp [wordCount, List.countP_map, Function.comp_def]
  refine ⟨h.names, fun i hi => ?_, h.next.trans (hwords t.slots), fun a ha => h.findAt?_eq_some ha,
    fun a ha => h.findAt?_eq_none ha,
    fun slots => ⟨append_eq_none_iff, fun count hcount hfree hclash => ?_⟩⟩
  · rw [h.address_getElem hi, ← hwords, List.map_take]
  · rw [append_eq hcount hfree hclash]
    simp only [placedFrom_eq_mapIdx, hwords, words, and_self]

end Table

end Flatword
