import Mathlib.Data.List.Nodup
import Flatword.Proofs.Machine
import Flatword.Proofs.Numeral
import Flatword.Session

/-!
# Labels of generated code

Labels of different numbers differ, and so do the labels of one number. `Numbered` follows which numbers the
labels of code were made from, so that code put together from parts has no label twice.
-/

namespace Flatword

namespace Label

/-- All labels that are made from one number. -/
def family (id : String) : List String :=
  [s!"__AND_{id}_next", s!"__OR_{id}_next", s!"__CMP_{id}_true", s!"__CMP_{id}_false",
    s!"__CMP_{id}_end", s!"__if{id}_start", s!"__if{id}_else", s!"__if{id}_endif",
    s!"__loop{id}_start", s!"__loop{id}_continue", s!"__loop{id}_break", s!"__loop{id}_condition"]

/-- The number in a label, found by the first letter of the label. -/
def number (label : String) : List Char :=
  let rest :=
    match label.toList with
    | '_' :: '_' :: 'A' :: rest | '_' :: '_' :: 'C' :: rest | '_' :: '_' :: 'l' :: rest => rest.drop 3
    | '_' :: '_' :: 'O' :: rest => rest.drop 2
    | '_' :: '_' :: 'i' :: rest => rest.drop 1
    | rest => rest
  rest.takeWhile (· ≠ '_')

theorem takeWhile_number {id rest : List Char} (h : '_' ∉ id) :
    (id ++ '_' :: rest).takeWhile (fun c => !decide (c = '_')) = id := by
  rw [List.takeWhile_append_of_pos]
  · simp
  · intro c hc
    simpa using fun heq : c = '_' => h (heq ▸ hc)

theorem number_of_mem_family {id label : String} (hid : '_' ∉ id.toList) (h : label ∈ family id) :
    number label = id.toList := by
  simp only [family, List.mem_cons, List.not_mem_nil, or_false] at h
  rcases h with rfl | rfl | rfl | rfl | rfl | rfl | rfl | rfl | rfl | rfl | rfl | rfl <;>
    simp [number, toString, takeWhile_number hid]

theorem eq_of_mem_family {m n : UInt32} {label : String}
    (hm : label ∈ family (Numeral.base36 m)) (hn : label ∈ family (Numeral.base36 n)) : m = n := by
  have h := number_of_mem_family (Numeral.not_mem_base36 m) hm
  rw [number_of_mem_family (Numeral.not_mem_base36 n) hn] at h
  exact (Numeral.base36_injective (String.toList_inj.mp h)).symm

theorem distance_unique {j : UInt32} {i k : Nat} {label : String}
    (hi : label ∈ family (Numeral.base36 (j + UInt32.ofNat i)))
    (hk : label ∈ family (Numeral.base36 (j + UInt32.ofNat k)))
    (hi' : i < UInt32.size) (hk' : k < UInt32.size) : i = k := by
  have heq : UInt32.ofNat i = UInt32.ofNat k :=
    (UInt32.add_right_inj j).mp (eq_of_mem_family hi hk)
  have hnat := congrArg UInt32.toNat heq
  rwa [UInt32.toNat_ofNat_of_lt' hi', UInt32.toNat_ofNat_of_lt' hk'] at hnat

end Label

/-- The labels of code are made from the `n` numbers after `j`, each of them once. -/
structure Code.Numbered (j : UInt32) (n : Nat) (code : Code) : Prop where
  own : ∀ label ∈ code.labels, ∃ i, 0 < i ∧ i ≤ n ∧
    label ∈ Label.family (Numeral.base36 (j + UInt32.ofNat i))
  nodup : n < UInt32.size → code.labels.Nodup

namespace Code

@[simp]
theorem labels_nil : labels [] = [] := rfl

@[simp]
theorem labels_append (code code' : Code) : labels (code ++ code') = code.labels ++ code'.labels :=
  List.filterMap_append

@[simp]
theorem labels_label (name : String) (code : Code) :
    labels (.label name :: code) = name :: code.labels := rfl

@[simp]
theorem labels_jump (target : String) (code : Code) :
    labels (.jump target :: code) = code.labels := rfl

@[simp]
theorem labels_comment (text : String) (code : Code) :
    labels (.comment text :: code) = code.labels := rfl

variable {j : UInt32} {n k : Nat} {code code' inner : Code}

theorem Numbered.of_labels_eq_nil (h : code.labels = []) : code.Numbered j 0 :=
  ⟨by simp [h], by simp [h]⟩

theorem Numbered.append (h : code.Numbered j n) (h' : code'.Numbered (j + UInt32.ofNat n) k) :
    (code ++ code').Numbered j (n + k) where
  own label hmem := by
    rw [labels_append, List.mem_append] at hmem
    rcases hmem with hmem | hmem
    · obtain ⟨i, hpos, hle, hi⟩ := h.own label hmem
      exact ⟨i, hpos, by omega, hi⟩
    · obtain ⟨i, hpos, hle, hi⟩ := h'.own label hmem
      rw [UInt32.add_assoc, ← UInt32.ofNat_add] at hi
      exact ⟨n + i, by omega, by omega, hi⟩
  nodup hsize := by
    rw [labels_append, List.nodup_append]
    refine ⟨h.nodup (by omega), h'.nodup (by omega), ?_⟩
    rintro label hmem _ hmem' rfl
    obtain ⟨i, hpos, hle, hi⟩ := h.own label hmem
    obtain ⟨i', hpos', hle', hi'⟩ := h'.own label hmem'
    rw [UInt32.add_assoc, ← UInt32.ofNat_add] at hi'
    have := Label.distance_unique hi hi' (by omega) (by omega)
    omega

theorem Numbered.not_mem (h : code.Numbered j n) {label : String}
    (hlabel : label ∈ Label.family (Numeral.base36 j)) (hn : n < UInt32.size) :
    label ∉ code.labels := by
  intro hmem
  obtain ⟨i, hpos, hle, hi⟩ := h.own label hmem
  rw [← UInt32.add_zero j] at hlabel
  have := Label.distance_unique (i := 0) hlabel hi (by decide) (by omega)
  omega

theorem Numbered.enclose {own : List String} (h : inner.Numbered (j + 1) n)
    (hperm : code.labels.Perm (own ++ inner.labels))
    (hown : ∀ label ∈ own, label ∈ Label.family (Numeral.base36 (j + 1))) (hnodup : own.Nodup) :
    code.Numbered j (n + 1) where
  own label hmem := by
    rw [hperm.mem_iff, List.mem_append] at hmem
    rcases hmem with hmem | hmem
    · exact ⟨1, by omega, by omega, hown label hmem⟩
    · obtain ⟨i, hpos, hle, hi⟩ := h.own label hmem
      have hone : j + UInt32.ofNat (i + 1) = j + 1 + UInt32.ofNat i := by
        rw [Nat.add_comm, UInt32.ofNat_add, ← UInt32.add_assoc]
        rfl
      exact ⟨i + 1, by omega, by omega, hone ▸ hi⟩
  nodup hsize := by
    rw [hperm.nodup_iff, List.nodup_append]
    refine ⟨hnodup, h.nodup (by omega), ?_⟩
    rintro label hmem _ hmem' rfl
    exact h.not_mem (hown label hmem) (by omega) hmem'

end Code

end Flatword
