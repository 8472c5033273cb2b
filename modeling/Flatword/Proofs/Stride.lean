import Mathlib.Algebra.BigOperators.Ring.List
import Mathlib.Data.List.Infix
import Mathlib.Data.List.Lex
import Mathlib.Data.Set.Function
import Flatword.Proofs.Access
import Flatword.Proofs.Slices

/-!
# Strides that fit a word

The size of an array is checked from the first dimension on, and its strides are computed from the last
one on. A dimension of no cells makes the size small, but not the strides of the dimensions before it.
Where every dimension has cells, the strides number the cells of the array.
-/

namespace Flatword.ArrayShape

variable {dimensions indexes rest : List Word} {size : Nat}

/-- The dimensions behind the last one that has no cells. -/
def behindEmpty : List Word → List Word
  | [] => []
  | d :: rest => if 0 ∈ d :: rest then behindEmpty rest else d :: rest

theorem behindEmpty_of_not_mem (h : 0 ∉ dimensions) : behindEmpty dimensions = dimensions := by
  cases dimensions with
  | nil => rfl
  | cons d rest => rw [behindEmpty, if_neg h]

theorem behindEmpty_suffix (dimensions : List Word) : behindEmpty dimensions <:+ dimensions := by
  induction dimensions with
  | nil => exact List.suffix_refl _
  | cons d rest ih =>
    rw [behindEmpty]
    split
    · exact ih.trans (List.suffix_cons d rest)
    · exact List.suffix_refl _

theorem suffix_behindEmpty (h : rest <:+ dimensions) (hrest : 0 ∉ rest) :
    rest <:+ behindEmpty dimensions := by
  induction dimensions with
  | nil => exact h
  | cons d dimensions ih =>
    rw [behindEmpty]
    split
    · next hempty =>
      rcases List.suffix_cons_iff.mp h with rfl | h
      · exact absurd hempty hrest
      · exact ih h
    · exact h

theorem cellCount_eq_zero (h : 0 ∈ dimensions) : cellCount dimensions = 0 :=
  List.prod_eq_zero (List.mem_map.mpr ⟨0, h, rfl⟩)

theorem cellCount_le (h : rest <:+ dimensions) (hnot : 0 ∉ dimensions) :
    cellCount rest ≤ cellCount dimensions := by
  obtain ⟨front, rfl⟩ := h
  have hfront : 0 < cellCount front := by
    refine Nat.pos_of_ne_zero fun hzero => ?_
    obtain ⟨d, hd, hd0⟩ := List.mem_map.mp (List.prod_eq_zero_iff.mp hzero)
    obtain rfl : d = 0 := UInt64.toNat_inj.mp hd0
    exact hnot (List.mem_append_left rest hd)
  rw [show cellCount (front ++ rest) = cellCount front * cellCount rest by simp [cellCount]]
  exact Nat.le_mul_of_pos_left (cellCount rest) hfront

theorem not_mem_behindEmpty (dimensions : List Word) : 0 ∉ behindEmpty dimensions := by
  induction dimensions with
  | nil => simp [behindEmpty]
  | cons d rest ih =>
    rw [behindEmpty]
    split
    · exact ih
    · assumption

theorem products_lt_iff :
    (∀ rest, rest <:+ dimensions → size * cellCount rest < wordLimit) ↔
      size * cellCount (behindEmpty dimensions) < wordLimit := by
  refine ⟨fun h => h _ (behindEmpty_suffix dimensions), fun h rest hrest => ?_⟩
  by_cases hempty : 0 ∈ rest
  · rw [cellCount_eq_zero hempty, Nat.mul_zero]
    decide
  · have hle := cellCount_le (suffix_behindEmpty hrest hempty) (not_mem_behindEmpty dimensions)
    exact Nat.lt_of_le_of_lt (Nat.mul_le_mul_left size hle) h

theorem toNat_stridesOf (size : Nat) (dimensions : List Word) :
    (stridesOf (UInt64.ofNat size) dimensions).map UInt64.toNat =
      dimensions.tails.tail.map fun rest => size * cellCount rest % wordLimit := by
  induction dimensions with
  | nil => rfl
  | cons d rest ih =>
    have htails : (d :: rest).tails.tail = rest :: rest.tails.tail := by cases rest <;> rfl
    rw [stridesOf, List.map_cons, ih, htails, List.map_cons, foldr_mul_eq, ← UInt64.ofNat_mul,
      UInt64.toNat_ofNat']
    rfl

theorem words?_eq_some_iff {words : Nat} :
    words? size dimensions = some words ↔ words = size * cellCount dimensions ∧
      ∀ rest, rest <:+ dimensions → size * cellCount rest < wordLimit := by
  induction dimensions generalizing words with
  | nil =>
    simp only [words?, Option.filter_eq_some_iff, Option.some.injEq, decide_eq_true_eq, List.suffix_nil,
      forall_eq, cellCount, List.map_nil, List.prod_nil, Nat.mul_one]
    grind
  | cons d rest ih =>
    have hcells : cellCount (d :: rest) = d.toNat * cellCount rest := by simp [cellCount]
    simp only [words?, Option.filter_eq_some_iff, Option.map_eq_some_iff, ih, decide_eq_true_eq,
      List.suffix_cons_iff, forall_eq_or_imp, hcells]
    constructor
    · rintro ⟨⟨_, ⟨rfl, hrest⟩, rfl⟩, hlt⟩
      exact ⟨by ring, by rwa [Nat.mul_left_comm, Nat.mul_comm], hrest⟩
    · rintro ⟨rfl, hlt, hrest⟩
      exact ⟨⟨_, ⟨rfl, hrest⟩, by ring⟩, hlt⟩

theorem ofHeader?_eq_some_iff {header : Slot} {shape : ArrayShape} :
    ofHeader? header dimensions = some shape ↔
      (∀ rest, rest <:+ dimensions → header.size * cellCount rest < wordLimit) ∧
        ofHeader header dimensions = shape := by
  simp [ofHeader?, words?_eq_some_iff]

/-- An accepted array has a shape if and only if the dimensions behind the last empty one fit a word, as
they do if none is empty. Otherwise there is no result at all. In a shape no product on the way was too
large, and the strides are the exact products of the size of an element and the dimensions to the right. -/
theorem shape_iff_products_fit {header : Slot} {dimensions : List Word} {total : Nat}
    (htotal : arrayTotal? header.size dimensions = some total) :
    (ofHeader? header dimensions = none ↔
      wordLimit ≤ header.size * cellCount (behindEmpty dimensions)) ∧
    (∀ shape, ofHeader? header dimensions = some shape →
      (∀ rest, rest <:+ dimensions → header.size * cellCount rest < wordLimit) ∧
      shape.strides.map UInt64.toNat = dimensions.tails.tail.map (header.size * cellCount ·)) ∧
    (0 ∉ dimensions → ∃ shape, ofHeader? header dimensions = some shape) := by
  refine ⟨?_, fun shape hshape => ?_, fun hnot => ?_⟩
  · rw [Option.eq_none_iff_forall_not_mem, ← Nat.not_lt, ← products_lt_iff]
    simp [ofHeader?_eq_some_iff]
  · obtain ⟨hlt, rfl⟩ := ofHeader?_eq_some_iff.mp hshape
    refine ⟨hlt, ?_⟩
    rw [ofHeader, toNat_stridesOf, List.map_inj_left]
    intro rest hrest
    exact Nat.mod_eq_of_lt (hlt rest ((List.mem_tails ..).mp (List.mem_of_mem_tail hrest)))
  · obtain ⟨heq, hlt⟩ := arrayTotal?_eq_cellCount htotal
    refine ⟨_, ofHeader?_eq_some_iff.mpr ⟨products_lt_iff.mpr ?_, rfl⟩⟩
    rw [behindEmpty_of_not_mem hnot]
    omega

/-- `long t[0][0x8000000000000000][4]` -/
def emptyGrid : Program where
  main := [.declaration ([.keyword "long" 1, .ident "t" 1] ++
    ["0", "8000000000000000", "4"].map fun size =>
      ⟨.brackets, "[", 1, [⟨.constant, size, 1, [], ""⟩], ""⟩)]

/-- An array without cells, whose first stride would be 2 ^ 65. -/
theorem emptyGrid_crashes : cause? (compile {} emptyGrid) = some .strideOverflow ∧
    arrayTotal? 1 [0, 0x8000000000000000, 4] = some 1 ∧
    ofHeader? BaseType.long.template [0, 0x8000000000000000, 4] = none :=
  have htotal : arrayTotal? BaseType.long.template.size [0, 0x8000000000000000, 4] = some 1 := by decide
  ⟨rfl, htotal, (shape_iff_products_fit htotal).1.mpr (by decide)⟩

/-! ## Strides number the cells -/

/-- The words that indexes skip in all. -/
def distance (strides indexes : List Word) : Nat :=
  (List.zipWith (fun i stride => i.toNat * stride.toNat) indexes strides).sum

/-- Whether each index lies inside its dimension. -/
def InRange (dimensions indexes : List Word) : Prop :=
  List.Forall₂ (· < ·) indexes dimensions

theorem distance_eq_position (hlt : ∀ rest, rest <:+ dimensions → size * cellCount rest < wordLimit)
    (hin : InRange dimensions indexes) :
    distance (stridesOf (UInt64.ofNat size) dimensions) indexes = size * position dimensions indexes := by
  induction hin with
  | nil => rfl
  | @cons i d indexes dimensions _ _ ih =>
    have hstride : (dimensions.foldr (fun d words => words * d) (UInt64.ofNat size)).toNat =
        size * cellCount dimensions := by
      rw [foldr_mul_eq, ← UInt64.ofNat_mul]
      exact UInt64.toNat_ofNat_of_lt' (hlt dimensions (List.suffix_cons d dimensions))
    have ih := ih fun rest hrest => hlt rest (hrest.trans (List.suffix_cons d dimensions))
    rw [distance] at ih
    rw [distance, stridesOf, List.zipWith_cons_cons, List.sum_cons, ih, hstride, position]
    ring

theorem position_lt_position {dimensions indexes indexes' : List Word}
    (hin : InRange dimensions indexes) (hin' : InRange dimensions indexes') (h : indexes < indexes') :
    position dimensions indexes < position dimensions indexes' := by
  induction hin generalizing indexes' with
  | nil =>
    cases hin'
    exact absurd h (List.lt_irrefl [])
  | @cons i d indexes dimensions _ hin ih =>
    obtain _ | ⟨-, hin'⟩ := hin'
    rename_i i' indexes'
    rw [position, position]
    rcases List.cons_lt_cons_iff.mp h with hi | ⟨rfl, hrest⟩
    · have hi : i.toNat + 1 ≤ i'.toNat := UInt64.lt_iff_toNat_lt.mp hi
      calc i.toNat * cellCount dimensions + position dimensions indexes
          < (i.toNat + 1) * cellCount dimensions := by
            rw [Nat.succ_mul]
            exact Nat.add_lt_add_left (position_lt hin) _
        _ ≤ i'.toNat * cellCount dimensions := Nat.mul_le_mul_right _ hi
        _ ≤ _ := Nat.le_add_right ..
    · exact Nat.add_lt_add_left (ih hin' hrest) _

/-- Every number below that of the cells is the position of some indexes: the first one is found by
division, the others from the remainder. -/
theorem exists_position {n : Nat} (h : n < cellCount dimensions) :
    ∃ indexes, InRange dimensions indexes ∧ position dimensions indexes = n := by
  induction dimensions generalizing n with
  | nil => exact ⟨[], .nil, by simpa [cellCount, position, eq_comm] using h⟩
  | cons d dimensions ih =>
    rw [cellCount_cons] at h
    have hcells : 0 < cellCount dimensions := Nat.pos_of_mul_pos_left (Nat.zero_lt_of_lt h)
    have hfirst : n / cellCount dimensions < d.toNat := Nat.div_lt_of_lt_mul (Nat.mul_comm .. ▸ h)
    have hword : (UInt64.ofNat (n / cellCount dimensions)).toNat = n / cellCount dimensions :=
      UInt64.toNat_ofNat_of_lt' (Nat.lt_trans hfirst d.toNat_lt)
    obtain ⟨indexes, hin, hposition⟩ := ih (Nat.mod_lt n hcells)
    refine ⟨UInt64.ofNat (n / cellCount dimensions) :: indexes,
      .cons (UInt64.lt_iff_toNat_lt.mpr (hword.symm ▸ hfirst)) hin, ?_⟩
    rw [position, hword, hposition]
    exact Nat.div_add_mod' ..

/-- The strides of an array whose dimensions all have cells number its cells: indexes inside the dimensions
and multiples of the size of an element below the size of the array correspond to each other, indexes that
come later in lexicographic order lead further, and the sum in words does not overflow. -/
theorem strides_mixed_radix {header : Slot} {dimensions : List Word} {total : Nat} (hsize : 1 ≤ header.size)
    (hpos : ∀ d ∈ dimensions, 0 < d) (htotal : arrayTotal? header.size dimensions = some total) :
    Set.BijOn (distance (ofHeader header dimensions).strides) {indexes | InRange dimensions indexes}
      {n | header.size ∣ n ∧ n < total - 1} ∧
    (∀ indexes indexes', InRange dimensions indexes → InRange dimensions indexes' → indexes < indexes' →
      distance (ofHeader header dimensions).strides indexes <
        distance (ofHeader header dimensions).strides indexes') ∧
    ∀ indexes, InRange dimensions indexes →
      (Lower.strideSum (ofHeader header dimensions).strides indexes).toNat =
        distance (ofHeader header dimensions).strides indexes := by
  obtain ⟨hcells, hlimit⟩ := arrayTotal?_eq_cellCount htotal
  have hnot : 0 ∉ dimensions := fun h => absurd (hpos 0 h) (by decide)
  have hexact : ∀ rest, rest <:+ dimensions → header.size * cellCount rest < wordLimit :=
    products_lt_iff.mpr (by rw [behindEmpty_of_not_mem hnot]; omega)
  have hdistance : ∀ indexes, InRange dimensions indexes →
      distance (ofHeader header dimensions).strides indexes = header.size * position dimensions indexes :=
    fun indexes hin => distance_eq_position hexact hin
  have hmono : ∀ indexes indexes', InRange dimensions indexes → InRange dimensions indexes' →
      indexes < indexes' → distance (ofHeader header dimensions).strides indexes <
        distance (ofHeader header dimensions).strides indexes' := by
    intro indexes indexes' hin hin' hlt
    rw [hdistance indexes hin, hdistance indexes' hin']
    exact Nat.mul_lt_mul_of_pos_left (position_lt_position hin hin' hlt) hsize
  refine ⟨⟨?_, ?_, ?_⟩, hmono, ?_⟩
  · intro indexes hin
    rw [Set.mem_ofPred_eq, hdistance indexes hin, hcells, Nat.add_sub_cancel]
    exact ⟨Nat.dvd_mul_right .., Nat.mul_lt_mul_of_pos_left (position_lt hin) hsize⟩
  · intro indexes hin indexes' hin' heq
    refine List.le_antisymm (fun hlt => ?_) (fun hlt => ?_)
    · exact Nat.ne_of_lt (hmono _ _ hin' hin hlt) heq.symm
    · exact Nat.ne_of_lt (hmono _ _ hin hin' hlt) heq
  · rintro _ ⟨⟨n, rfl⟩, hn⟩
    rw [hcells, Nat.add_sub_cancel] at hn
    obtain ⟨indexes, hin, rfl⟩ := exists_position (Nat.lt_of_mul_lt_mul_left hn)
    exact ⟨indexes, hin, hdistance indexes hin⟩
  · intro indexes hin
    have hlt : position dimensions indexes * header.size < wordLimit := by
      rw [Nat.mul_comm]
      exact Nat.lt_trans (Nat.mul_lt_mul_of_pos_left (position_lt hin) hsize)
        (hexact dimensions (List.suffix_refl _))
    rw [hdistance indexes hin, Nat.mul_comm, ← UInt64.toNat_ofNat_of_lt' hlt]
    exact congrArg UInt64.toNat (strideSum_stridesOf hin.length_eq)

/-- Pairs in three rows of four. -/
theorem pairGrid_numbered :
    (ofHeader { BaseType.long.template with size := 2 } [3, 4]).strides = [8, 2] ∧
      arrayTotal? 2 [3, 4] = some 25 ∧
      Set.BijOn (distance [8, 2]) {indexes | InRange [3, 4] indexes} {n | 2 ∣ n ∧ n < 24} :=
  have htotal : arrayTotal? { BaseType.long.template with size := 2 }.size [3, 4] = some 25 := by decide
  ⟨by decide, htotal, (strides_mixed_radix (by decide) (by simp) htotal).1⟩

end Flatword.ArrayShape
