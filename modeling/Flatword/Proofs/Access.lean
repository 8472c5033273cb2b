import Flatword.Proofs.Index
import Flatword.Proofs.Leak
import Flatword.Proofs.Shapes

/-!
# The ways to a member

A member of a struct value is reached by its name, through a pointer to the value, or, in an array of
structs, by indexes that may be computed.
-/

namespace Flatword

/-- The address of the word that is fetched. -/
def Fetch.place (μ : Memory) : Fetch → Option Word
  | constant _ => none
  | word a => some (UInt64.ofNat a)
  | behind a words => some (μ a + words.toUInt64)
  | indexed a b => some (μ a + μ b)

namespace Lower

variable {es : List Expr} {head arr : Slot} {member : String} {taken : Nat} {item : ArrayItem}
  {leftSide : Bool} {shape : ArrayShape} {m : Machine} {f : Frame} {s t : Scope} {v : Lowered}

/-- An operand stands for the word at an address. Its code changes spare places only. -/
def Lowered.Designates (m : Machine) (s : Scope) (μ : Memory) (v : Lowered) (address : Word) : Prop :=
  ∃ o μ', v.slot.Fetches m o ∧ m.Runs v.code μ μ' ∧ AgreeOutside s.spare μ μ' ∧
    o.place μ' = some address

/-! ## Paths by indexes -/

theorem lookupAsm?_name {asmName : String} {x : Slot} (h : Gives (lookupAsm? asmName) f s (some x) t) :
    x.asmName = asmName := by
  rw [lookupAsm?, gives_get_bind] at h
  split at h
  · next slot hfound =>
    simp only [gives_bind, gives_pure] at h
    obtain ⟨y, _, hnote, hsome, rfl⟩ := h
    obtain rfl := Option.some.inj hsome
    obtain ⟨rfl, -⟩ := noteUse_notes hnote
    simpa using List.find?_some hfound
  · simp at h

theorem leadingIndexes_pathSteps (es : List Expr) (member : String) :
    leadingIndexes (Expr.pathSteps (es.map Access.index ++ [.member member])) = es.map Expr.lower := by
  induction es with
  | nil => rfl
  | cons e es ih => exact congrArg (e.lower :: ·) ih

theorem followAfter_pathSteps (leftSide : Bool) (here : Lowered) (es : List Expr) (member : String) :
    followAfter leftSide es.length here (Expr.pathSteps (es.map Access.index ++ [.member member])) =
      followAfter leftSide 0 here [.member member] := by
  induction es with
  | nil => rfl
  | cons e es ih => exact ih

theorem IndexSum.Adds.known_eq {sum : IndexSum} {value : Memory → Word} {safe : Memory → Prop}
    (h : sum.Adds m s value safe t) (hnone : sum.stored = none) {μ : Memory} (hμ : s.ground.HoldIn μ)
    (hsafe : safe μ) :
    value μ = sum.known ∧ ∃ μ', m.Runs sum.code μ μ' ∧ AgreeOutside s.spare μ μ' := by
  obtain ⟨o, ho, hruns⟩ := h.pending.operand
  obtain ⟨μ', hruns, hagree, hvalue, -⟩ := hruns μ hμ hsafe
  have hzero : sum.total = .ofWord 0 := by simp [IndexSum.total, hnone]
  have hread : o.read μ' = 0 := ho.eq_of_isValue (hzero ▸ isValue_ofWord 0) μ'
  refine ⟨?_, μ', hruns, hagree⟩
  rw [hread] at hvalue
  grind

theorem memberOf_struct (hkind : head.kind = .struct) (ho : head.offset = none)
    (h : Gives (memberOf leftSide head member) f s v t) :
    v.code = [] ∧ s.Knows v.slot ∧ v.slot.asmName = head.asmName ++ "_" ++ member := by
  simp only [memberOf, hkind, ho, gives_bind, gives_onSide, gives_orFail, gives_pure] at h
  obtain ⟨found, s₁, hfound, x, _, ⟨rfl, rfl⟩, rfl, rfl⟩ := h
  exact ⟨rfl, (lookupAsm?_notes hfound).1 x rfl, lookupAsm?_name hfound⟩

theorem indexArray_gives {indexes : List (Lower Lowered)} {cell : Lowered}
    (hitem : arr.item = some item) (hshape : arr.shape.bind s.session.catalog.findArray? = some shape)
    (h : Gives (indexArray leftSide arr indexes) f s (cell, taken) t) :
    taken = shape.dimensions.length ∧ ∃ sum u,
      Gives (IndexSum.addIndexes {} shape.dimensions shape.strides indexes) f s sum u ∧
      Gives (summedCell leftSide arr item shape.strides sum) f u cell t := by
  simp only [indexArray, gives_bind, gives_get, gives_orFail] at h
  obtain ⟨_, _, ⟨rfl, rfl⟩, found, _, ⟨hfound, rfl⟩, item', _, ⟨hitem', rfl⟩, h⟩ := h
  obtain rfl : found = shape := Option.some.inj (hfound.symm.trans hshape)
  obtain rfl : item' = item := Option.some.inj (hitem'.symm.trans hitem)
  split at h
  · simp at h
  simp only [gives_bind, gives_pure, Prod.mk.injEq] at h
  obtain ⟨sum, u, hsum, _, _, hcell, ⟨rfl, rfl⟩, rfl⟩ := h
  exact ⟨rfl, sum, u, hsum, hcell⟩

/-- How indexes lead to a cell of an array: by an offset of the header, or, where all of them are
known, to the slot of the cell. -/
inductive CellAt (m : Machine) (f : Frame) (s : Scope) (leftSide : Bool) (arr : Slot) (item : ArrayItem)
    (strides : List Word) (value : Memory → Word) (safe : Memory → Prop) (v : Lowered) (t : Scope) : Prop
  | computed (h : Displaced m s arr value safe v t)
  | known (distance : Word) (u : Scope) (hground : u.ground = s.ground)
      (hcell : Gives (knownCell leftSide arr item strides distance) f u v.slot t)
      (h : ∀ μ, s.ground.HoldIn μ → safe μ →
        value μ = distance ∧ ∃ μ', m.Runs v.code μ μ' ∧ AgreeOutside s.spare μ μ')

theorem cellAt_of_gives (hs : s.Ready m) (hmul : ∀ a b, m.alu.apply .mul a b = a * b)
    (hitem : arr.item = some item) (hshape : arr.shape.bind s.session.catalog.findArray? = some shape)
    (hes : ∀ e ∈ es, e.IsPointed (s.ground.plain? f.function) s.scratch)
    (hlength : es.length = shape.dimensions.length)
    (h : Gives (indexArray leftSide arr (es.map Expr.lower)) f s (v, taken) t) :
    taken = shape.dimensions.length ∧ CellAt m f s leftSide arr item shape.strides
      (fun μ => strideSum shape.strides (es.map (Expr.worth m.alu (s.ground.plain? f.function) μ)))
      (fun μ => ∀ e ∈ es, e.Lands m (s.ground.plain? f.function) s.scratch μ) v t := by
  obtain ⟨htaken, sum, u, hsum, hcell⟩ := indexArray_gives hitem hshape h
  refine ⟨htaken, ?_⟩
  have hsum := (IndexSum.adds_empty s).addIndexes hs hmul hes hlength (.refl s) hsum
  have hadds := hsum.congr (fun μ hμ => ⟨trivial, hμ⟩) fun μ _ => (UInt64.zero_add
    (strideSum shape.strides (es.map (Expr.worth m.alu (s.ground.plain? f.function) μ)))).symm
  unfold summedCell at hcell
  split at hcell
  · next hnone =>
    simp only [gives_bind, gives_pure] at hcell
    obtain ⟨cell, _, hcell, rfl, rfl⟩ := hcell
    exact .known sum.known u hsum.pending.rests.continues.ground hcell fun μ hμ hsafe =>
      hadds.known_eq hnone hμ hsafe
  · next index hsome =>
    simp only [gives_bind, gives_pure] at hcell
    obtain ⟨place, _, hplace, rfl, rfl⟩ := hcell
    have htotal : sum.total = index := by simp [IndexSum.total, hsome]
    obtain ⟨y, b, hy, hb, hslot, hpending⟩ :=
      (computedCell_displaced hs (hadds.plain index hsome) (htotal ▸ hadds.pending) hplace).1
    exact .computed ⟨y, b, hy, hb, hslot, hpending.congr (fun _ => id) fun μ _ => by grind⟩

/-- How a member of an element is reached by indexes: by an offset of the header, or by the name of
the element where all indexes are known. -/
inductive MemberOfElement (m : Machine) (s : Scope) (arr : Slot) (item : ArrayItem) (strides : List Word)
    (member : String) (value : Memory → Word) (safe : Memory → Prop) (v : Lowered) (t : Scope) : Prop
  | computed (S : StructShape) (distance : Nat) (template : Slot)
      (hS : s.session.catalog.findStruct? item.shape "" = some S)
      (hmember : S.member? member = some (distance, template))
      (h : Displaced m s arr (fun μ => value μ + UInt64.ofNat distance) safe v t)
  | known (distance : Word) (head : Slot) (hhead : s.Knows head) (hkind : head.kind = .struct)
      (hname : head.asmName =
        arr.asmName ++ "_" ++ toString (distance / max (strides.getLast?.getD 1) 1).toNat)
      (hknows : s.Knows v.slot) (hasm : v.slot.asmName = head.asmName ++ "_" ++ member)
      (h : ∀ μ, s.ground.HoldIn μ → safe μ →
        value μ = distance ∧ ∃ μ', m.Runs v.code μ μ' ∧ AgreeOutside s.spare μ μ')

theorem knownCell_struct {arr head : Slot} {strides : List Word} {distance : Word}
    (hstruct : item.kind = .struct)
    (h : Gives (knownCell leftSide arr item strides distance) f s head t) :
    s.Knows head ∧ s.Notes t ∧ head.asmName =
      arr.asmName ++ "_" ++ toString (distance / max (strides.getLast?.getD 1) 1).toNat := by
  simp only [knownCell, hstruct, if_true, gives_bind, gives_onSide, gives_orFail] at h
  obtain ⟨found, _, hfound, rfl, rfl⟩ := h
  obtain ⟨hknows, hnotes⟩ := lookupAsm?_notes hfound
  exact ⟨hknows head rfl, hnotes, lookupAsm?_name hfound⟩

theorem memberOfElement_of_gives (hs : s.Ready m) (hmul : ∀ a b, m.alu.apply .mul a b = a * b)
    (hheaders : ∀ x, s.Knows x → x.kind = .array → ∀ a, x.address = some a → a ∉ s.scratch)
    (hkind : arr.kind = .array) (ho : arr.offset = none) (hitem : arr.item = some item)
    (hstruct : item.kind = .struct) (hshape : arr.shape.bind s.session.catalog.findArray? = some shape)
    (hes : ∀ e ∈ es, e.IsPointed (s.ground.plain? f.function) s.scratch)
    (hlength : es.length = shape.dimensions.length)
    (h : Gives (followAfter leftSide 0 ⟨arr, []⟩ (Expr.pathSteps (es.map .index ++ [.member member])))
      f s v t) :
    MemberOfElement m s arr item shape.strides member
      (fun μ => strideSum shape.strides (es.map (Expr.worth m.alu (s.ground.plain? f.function) μ)))
      (fun μ => ∀ e ∈ es, e.Lands m (s.ground.plain? f.function) s.scratch μ) v t := by
  obtain _ | ⟨e, es⟩ := es
  · simp [Expr.pathSteps, followAfter, memberOf, hkind, ho] at h
  have hsteps : Expr.pathSteps ((e :: es).map .index ++ [.member member]) =
      .index e.lower :: Expr.pathSteps (es.map .index ++ [.member member]) := rfl
  rw [hsteps, followAfter, if_pos ⟨hkind, by simp [ho]⟩, leadingIndexes_pathSteps] at h
  obtain ⟨⟨cell, taken⟩, s₁, hcell, h⟩ := gives_bind.mp h
  have hcell : Gives (indexArray leftSide arr ((e :: es).map Expr.lower)) f s (cell, taken) s₁ := hcell
  obtain ⟨rfl, hat⟩ := cellAt_of_gives hs hmul hitem hshape hes hlength hcell
  have hskip : shape.dimensions.length - 1 = es.length := by rw [← hlength, List.length_cons, Nat.add_sub_cancel]
  dsimp only at h
  rw [hskip, followAfter_pathSteps] at h
  simp only [followAfter, List.nil_append, gives_bind, gives_pure] at h
  obtain ⟨last, _, hlast, rfl, rfl⟩ := h
  cases hat with
  | known distance u hground hknown hruns =>
    obtain ⟨hknows, hnotes, hname⟩ := knownCell_struct hstruct hknown
    have hhead : s.Knows cell.slot := hknows.congr hground.symm
    have hground₁ := hnotes.ground.trans hground
    obtain ⟨hkind', ho'⟩ : cell.slot.kind = .struct ∧ cell.slot.offset = none := by
      by_contra hnot
      have hoffset : cell.slot.kind ≠ .struct → cell.slot.offset = none := fun hk =>
        (hs.slots cell.slot.unmarked hhead hk).1
      unfold memberOf at hlast
      split at hlast
      · next hk ho => exact hnot ⟨hk, ho⟩
      · next hk hstored _ => simp [hoffset (by simp [hk])] at hstored
      · simp at hlast
    obtain ⟨hcode, hlastKnows, hlastName⟩ := memberOf_struct hkind' ho' hlast
    refine .known distance cell.slot hhead hkind' hname (hlastKnows.congr hground₁.symm) hlastName
      fun μ hμ hsafe => ?_
    rw [hcode, List.append_nil]
    exact hruns μ hμ hsafe
  | computed hplaced =>
    have hplaced' := hplaced
    obtain ⟨y, b, -, -, hslot, hpending⟩ := hplaced'
    have hoffset : cell.slot.offset = some (.stored b) := by rw [hslot]
    have hcellKind : cell.slot.kind = .array := by rw [hslot]; exact hkind
    have hcellItem : cell.slot.item = some item := by rw [hslot]; exact hitem
    simp only [memberOf, hcellKind, hoffset, hcellItem, hstruct, if_true] at hlast
    obtain ⟨S, distance, template, hS, hfound, hdisplaced⟩ :=
      memberOfCell_displaced hs hheaders hplaced hoffset hlast
    have hcatalog : s₁.session.catalog = s.session.catalog :=
      congrArg Ground.catalog hpending.rests.continues.ground
    exact .computed S distance template (hcatalog ▸ hS) hfound hdisplaced

end Lower

/-! ## Positions of elements -/

namespace ArrayShape

variable {dimensions indexes : List Word} {words : Nat}

/-- How many cells an array of some dimensions has. -/
def cellCount (dimensions : List Word) : Nat :=
  (dimensions.map UInt64.toNat).prod

theorem cellCount_cons (d : Word) (dimensions : List Word) :
    cellCount (d :: dimensions) = d.toNat * cellCount dimensions := by
  simp [cellCount]

/-- The number of the cell at some indexes, where the last index runs fastest. -/
def position : (dimensions indexes : List Word) → Nat
  | _ :: dimensions, i :: indexes => i.toNat * cellCount dimensions + position dimensions indexes
  | _, _ => 0

/-- A shape is that of an array whose elements have some number of words. -/
structure Fits (shape : ArrayShape) (words total : Nat) : Prop where
  strides : shape.strides = stridesOf (UInt64.ofNat words) shape.dimensions
  total : arrayTotal? words shape.dimensions = some total

theorem arrayTotal?_eq_cellCount {words total : Nat} (h : arrayTotal? words dimensions = some total) :
    total = words * cellCount dimensions + 1 ∧ total < wordLimit := by
  obtain ⟨cells, hcells, htotal⟩ := Option.bind_eq_some_iff.mp h
  have hprod : cells = words * cellCount dimensions := by
    clear h htotal
    induction dimensions generalizing words with
    | nil => simpa [cellCount, eq_comm] using hcells
    | cons d dimensions ih =>
      rw [List.foldlM_cons] at hcells
      obtain ⟨next, hnext, hcells⟩ := Option.bind_eq_some_iff.mp hcells
      dsimp only at hnext
      split at hnext
      · obtain rfl := Option.some.inj hnext
        rw [ih hcells, cellCount_cons, Nat.mul_assoc]
      · simp at hnext
  dsimp only at htotal
  split at htotal
  · next hlt =>
    obtain rfl := Option.some.inj htotal
    exact ⟨by rw [hprod], hlt⟩
  · simp at htotal

theorem position_lt (h : List.Forall₂ (· < ·) indexes dimensions) :
    position dimensions indexes < cellCount dimensions := by
  induction h with
  | nil => simp [position, cellCount]
  | @cons i d indexes dimensions hi _ ih =>
    have hi : i.toNat + 1 ≤ d.toNat := UInt64.lt_iff_toNat_lt.mp hi
    calc i.toNat * cellCount dimensions + position dimensions indexes
        < i.toNat * cellCount dimensions + cellCount dimensions := Nat.add_lt_add_left ih _
      _ = (i.toNat + 1) * cellCount dimensions := (Nat.succ_mul ..).symm
      _ ≤ d.toNat * cellCount dimensions := Nat.mul_le_mul_right _ hi
      _ = cellCount (d :: dimensions) := (cellCount_cons d dimensions).symm

theorem foldr_mul_eq (size : Word) (dimensions : List Word) :
    dimensions.foldr (fun d words => words * d) size = size * UInt64.ofNat (cellCount dimensions) := by
  induction dimensions with
  | nil => simp [cellCount]
  | cons d dimensions ih =>
    rw [List.foldr_cons, ih, cellCount_cons, UInt64.ofNat_mul, UInt64.ofNat_toNat, UInt64.mul_assoc,
      UInt64.mul_comm _ d]

theorem strideSum_stridesOf (h : indexes.length = dimensions.length) :
    Lower.strideSum (stridesOf (UInt64.ofNat words) dimensions) indexes =
      UInt64.ofNat (position dimensions indexes * words) := by
  induction dimensions generalizing indexes with
  | nil =>
    simp [Lower.strideSum, stridesOf, position]
  | cons d dimensions ih =>
    obtain _ | ⟨i, indexes⟩ := indexes
    · simp at h
    rw [stridesOf, position, Lower.strideSum, ih (by simpa using h), foldr_mul_eq, Nat.add_mul,
      UInt64.ofNat_add, UInt64.ofNat_mul, UInt64.ofNat_mul, UInt64.ofNat_mul, UInt64.ofNat_toNat]
    grind

theorem getLast?_stridesOf {size : Word} (h : dimensions ≠ []) :
    (stridesOf size dimensions).getLast? = some size := by
  induction dimensions with
  | nil => exact absurd rfl h
  | cons d dimensions ih =>
    obtain _ | ⟨d', dimensions⟩ := dimensions
    · rfl
    · rw [stridesOf, List.getLast?_cons, ih (by simp)]
      rfl

theorem toNat_div_max {words k : Nat} (hwords : words ≠ 0) (hlt : k * words < wordLimit)
    (hwordsLt : words < wordLimit) :
    (UInt64.ofNat (k * words) / max (UInt64.ofNat words) 1).toNat = k := by
  have hmax : max (UInt64.ofNat words) 1 = UInt64.ofNat words := by
    refine ite_eq_right_iff.mpr fun hle => ?_
    rw [UInt64.le_iff_toNat_le, UInt64.toNat_ofNat_of_lt' hwordsLt] at hle
    have hone : words = 1 := Nat.le_antisymm hle (Nat.one_le_iff_ne_zero.mpr hwords)
    rw [hone]
    rfl
  rw [hmax, UInt64.toNat_div, UInt64.toNat_ofNat_of_lt' hlt, UInt64.toNat_ofNat_of_lt' hwordsLt,
    Nat.mul_div_cancel _ (Nat.pos_of_ne_zero hwords)]

/-- Indexes inside the dimensions lead as many elements on as their position says, which is the number
of an element. -/
theorem Fits.number {shape : ArrayShape} {words total count : Nat} (h : shape.Fits words total)
    (hne : shape.dimensions ≠ []) (hwords : words ≠ 0) (htotal : total = count * words + 1)
    (hin : List.Forall₂ (· < ·) indexes shape.dimensions) :
    position shape.dimensions indexes < count ∧
      Lower.strideSum shape.strides indexes = UInt64.ofNat (position shape.dimensions indexes * words) ∧
      (Lower.strideSum shape.strides indexes / max (shape.strides.getLast?.getD 1) 1).toNat =
        position shape.dimensions indexes := by
  obtain ⟨hcells, hlimit⟩ := arrayTotal?_eq_cellCount h.total
  have hcount : cellCount shape.dimensions = count := by
    rw [htotal, Nat.mul_comm, Nat.add_right_cancel_iff] at hcells
    exact (Nat.eq_of_mul_eq_mul_left (Nat.pos_of_ne_zero hwords) hcells).symm
  have hlt : position shape.dimensions indexes < count := hcount ▸ position_lt hin
  have hsum : Lower.strideSum shape.strides indexes =
      UInt64.ofNat (position shape.dimensions indexes * words) := by
    rw [h.strides]
    exact strideSum_stridesOf hin.length_eq
  -- All words of the array have addresses, so that no product overflows.
  have hbound : count * words < wordLimit := by
    rw [htotal] at hlimit
    exact Nat.lt_of_succ_lt hlimit
  have hplace : position shape.dimensions indexes * words < wordLimit :=
    Nat.lt_of_le_of_lt (Nat.mul_le_mul_right _ (Nat.le_of_lt hlt)) hbound
  have hword : words < wordLimit :=
    Nat.lt_of_le_of_lt (Nat.le_mul_of_pos_left _ (Nat.zero_lt_of_lt hlt)) hbound
  refine ⟨hlt, hsum, ?_⟩
  rw [hsum, h.strides, getLast?_stridesOf hne, Option.getD_some, toNat_div_max hwords hplace hword]

end ArrayShape

/-! ## Tables -/

theorem Table.map_of_bare {t u : Table} (h : u.bare = t.bare) {α : Type} (view : Slot → α)
    (hview : ∀ x, view x.bare = view x) : u.slots.map view = t.slots.map view := by
  have hslots := congrArg (fun table => table.slots.map view) h
  simpa [Table.bare, Function.comp_def, hview] using hslots

theorem Table.LaidOut.of_bare {t u : Table} (ht : t.LaidOut) (h : u.bare = t.bare) : u.LaidOut :=
  ht.congr (map_of_bare h _ fun _ => rfl) (map_of_bare h _ fun _ => rfl) (map_of_bare h _ fun _ => rfl)
    (show u.bare.next = t.bare.next from congrArg Table.next h)

theorem Session.Arrayed.of_bare {s t : Session} (hs : s.Arrayed) (h : t.table.bare = s.table.bare)
    (hcatalog : t.catalog = s.catalog) : t.Arrayed where
  table := by
    rw [hcatalog, Table.map_of_bare h _ fun _ => rfl]
    exact hs.table
  structs := hcatalog ▸ hs.structs
  separate := hcatalog ▸ hs.separate

theorem Catalog.Separate.findStruct?_eq {c : Catalog} (h : c.Separate) {S : StructShape}
    (hS : Shape.struct S ∈ c) : c.findStruct? S.name "" = some S := by
  simp [Catalog.findStruct?, h S hS]

/-! ## One word by all ways -/

namespace Lower

variable {m : Machine} {s : Scope}

theorem gives_noteUse (x : Slot) (f : Frame) (s : Scope) : ∃ t, Gives (noteUse x) f s x t :=
  ⟨_, outcome_noteUse x f s⟩

theorem gives_memberOf (f : Frame) (leftSide : Bool) {o x : Slot} {member : String}
    (hkind : o.kind = .struct) (ho : o.offset = none)
    (h : s.session.table.findAsm? (o.asmName ++ "_" ++ member) = some x) :
    ∃ t, Gives (memberOf leftSide o member) f s ⟨x, []⟩ t := by
  have h : s.session.table.findAsm? s!"{o.asmName}_{member}" = some x := h
  obtain ⟨t, ht⟩ := gives_noteUse x { f with leftSide } s
  refine ⟨t, ?_⟩
  simp only [memberOf, hkind, ho, lookupAsm?, gives_bind, gives_onSide, gives_get, gives_orFail, gives_pure]
  refine ⟨some x, t, ⟨s, s, ⟨rfl, rfl⟩, ?_⟩, x, t, ⟨rfl, rfl⟩, rfl, rfl⟩
  rw [h]
  simp only [gives_bind, gives_pure]
  exact ⟨x, t, ht, rfl, rfl⟩

theorem gives_knownAddress (f : Frame) (s : Scope) {o : Slot} {a : Nat} (hkind : o.kind = .struct)
    (ha : o.address = some a) :
    ∃ y, Gives (knownAddress o) f s y s ∧ y.isValue (UInt64.ofNat a) = true ∧ y.type = .structPtr ∧
      y.shape = o.shape := by
  simp only [knownAddress, hkind, ha, reduceCtorEq, if_false, if_true, Option.map_some, gives_bind,
    gives_orFail, gives_pure]
  refine ⟨_, ⟨UInt64.ofNat a, s, ⟨rfl, rfl⟩, rfl, rfl⟩, ?_, rfl, rfl⟩
  exact isValue_ofWord (UInt64.ofNat a)

theorem gives_arrowMember (f : Frame) {p : Slot} {S : StructShape} {member : String} {distance : Nat}
    {template : Slot} (hp : p.isPlain = true) (htype : p.type = .structPtr) (hshape : p.shape = some S.name)
    (hS : s.session.catalog.findStruct? S.name "" = some S)
    (hmember : S.member? member = some (distance, template)) (hk : template.kind.isRegular = true) :
    ∃ y, Gives (arrowMember p member) f s ⟨y, []⟩ s ∧ ∀ {m b μ a}, p.IsAt m b → μ b = UInt64.ofNat a →
      Lowered.Designates m s μ ⟨y, []⟩ (UInt64.ofNat (a + distance)) := by
  obtain ⟨hregular, hoffset⟩ := Bool.and_eq_true_iff.mp hp
  have hkind : p.kind ≠ .array := fun hk => by simp [hk, Kind.isRegular] at hregular
  have hword : ¬ (template.kind = .array ∨ template.kind = .struct) := by
    rintro (h | h) <;> simp [h, Kind.isRegular] at hk
  refine ⟨{ p with
    offset := some (.known (Int64.ofNat distance)), type := template.type, shape := template.shape },
    ?_, fun {m b μ a} hb ha => ?_⟩
  · simp only [arrowMember, htype, hkind, ne_eq, not_true_eq_false, or_self, if_false, wordMember, hshape,
      Option.getD_some, intoBase, hoffset, if_true, gives_bind, gives_get, gives_orFail, gives_pure]
    refine ⟨(distance, template), s, ⟨s, s, ⟨rfl, rfl⟩, S, s, ⟨hS, rfl⟩, (distance, template), s,
      ⟨hmember, rfl⟩, ?_⟩, ⟨p, []⟩, s, ⟨rfl, rfl⟩, rfl, rfl⟩
    dsimp only
    rw [if_neg hword]
    exact gives_pure.mpr ⟨rfl, rfl⟩
  · refine ⟨.behind b (Int64.ofNat distance), μ, ?_, .nil, .refl _ μ, ?_⟩
    · refine .behind ?_ ?_ ?_
      · exact hregular
      · rfl
      · exact hb
    · rw [Fetch.place, ha, Int64.toUInt64_ofNat', UInt64.ofNat_add]

end Lower

namespace Session

variable {options : Options} {defined : List (Place × Definition)} {s : Session}

theorem Defined.offset_eq_none (h : Defined options defined s) :
    s.catalog.Sound ∧ ∀ x ∈ s.table.slots, x.offset = none := by
  induction h with
  | start h =>
    have hsound := sound_start h
    exact ⟨hsound.catalog, fun x hx => (hsound.table.fits x hx).offset⟩
  | @define defined s t hs place definition h ih =>
    rcases definition with tokens | ⟨name, members, line⟩
    · obtain ⟨slots, u, hdeclare, hpure⟩ := result_bind_eq_ok.mp h
      obtain ⟨-, rfl⟩ := Prod.mk.inj hpure
      unfold Session.declare at hdeclare
      obtain ⟨declared, u, hlift, hdeclare⟩ := result_bind_eq_ok.mp hdeclare
      rw [result_liftLayout] at hlift
      obtain ⟨hdeclared, rfl⟩ := Prod.mk.inj hlift
      obtain ⟨hcatalog, hslots⟩ := keeps_walkPhrase { place } .idle false false "" tokens _ ih.1
      simp only [result_bind, result_get, result_set] at hdeclare
      have hall := Table.forall_append (P := fun x => x.offset = none) ih.2
        fun x hx _ => (hslots _ hdeclared x hx).1.offset
      split at hdeclare
      · obtain ⟨-, rfl⟩ := Prod.mk.inj hdeclare
        exact ⟨hcatalog, hall⟩
      · simp at hdeclare
    · change result (liftLayout (Layout.defineStruct place name members line)) s = (.ok (), t) at h
      rw [result_liftLayout] at h
      obtain ⟨-, rfl⟩ := Prod.mk.inj h
      exact ⟨(keeps_defineStruct place name members line _ ih.1).1, ih.2⟩

theorem Arrayed.findAsm?_member (hs : s.Arrayed) (hlayout : s.table.LaidOut) {o : Slot}
    (ho : o ∈ s.table.slots) (hkind : o.kind = .struct) :
    ∃ S a, o.shape = some S.name ∧ s.catalog.findStruct? S.name "" = some S ∧ o.address = some a ∧
      ∀ {member : String} {distance : Nat} {template : Slot},
        S.member? member = some (distance, template) →
        ∃ x, s.table.findAsm? (o.asmName ++ "_" ++ member) = some x ∧ o.Carries template x ∧
          x.address = some (a + distance) := by
  obtain ⟨S, a, hshape, hS, ha, hmembers⟩ := hs.exists_member hlayout ho hkind
  refine ⟨S, a, hshape, hs.separate.findStruct?_eq hS, ha, fun {member distance template} hmember => ?_⟩
  obtain ⟨x, hx, hcarries, hname, hxa⟩ := hmembers hmember
  refine ⟨x, ?_, hcarries, hxa⟩
  rw [← hname, ← hcarries.asmName]
  exact hlayout.findAsm?_eq_some hx

end Session

namespace Lower

variable {A : Nat} {arr : Slot} {safe : Memory → Prop} {μ : Memory} {m : Machine} {s t : Scope}
  {v : Lowered}

/-- A scope in which indexes can be computed: no header of an array is a scratch place, and the
machine multiplies words. -/
structure Indexable (m : Machine) (s : Scope) : Prop where
  ready : s.Ready m
  headers : ∀ x, s.Knows x → x.kind = .array → ∀ a, x.address = some a → a ∉ s.scratch
  mul : ∀ a b, m.alu.apply .mul a b = a * b

theorem Indexable.of_ready (hs : s.Ready m) (hreuse : s.reuse.target? = none)
    (hmul : ∀ a b, m.alu.apply .mul a b = a * b) : Indexable m s := by
  refine ⟨hs, fun x hx hk a ha hscratch => ?_, hmul⟩
  rw [Scope.scratch_of_target hreuse] at hscratch
  exact (hs.regular.suits hx).array hk (ha ▸ hscratch)

theorem Indexable.isAt (hs : Indexable m s) (harr : arr ∈ s.session.table.slots)
    (hkind : arr.kind = .array) (haddress : arr.address = some A) : arr.IsAt m A := by
  obtain ⟨-, a, hat⟩ := hs.ready.slots arr.unmarked (Scope.knows_of_mem harr) (by simp [Slot.unmarked, hkind])
  obtain rfl : a = A := Option.some.inj (hat.1.symm.trans haddress)
  exact hat

theorem Displaced.designates {value : Memory → Word} (h : Displaced m s arr value safe v t)
    (hkind : arr.kind = .array) (hA : arr.IsAt m A) (hheader : A ∉ s.scratch) (hμ : s.ground.HoldIn μ)
    (hsafe : safe μ) : v.Designates m s μ (μ A + value μ) := by
  obtain ⟨y, b, hy, hb, hslot, hpending⟩ := h
  obtain ⟨o, ho, hruns⟩ := hpending.operand
  have ho : y.Fetches m o := ho
  obtain rfl := ho.eq_word hy hb
  obtain ⟨μ', hruns, hagree, hvalue, -⟩ := hruns μ hμ hsafe
  have hbase : μ' A = μ A := hagree A fun hspare => hheader (s.spare_subset_scratch hspare)
  have hindex : μ' b = value μ := hvalue
  refine ⟨.indexed A b, μ', ?_, hruns, hagree, ?_⟩
  · rw [hslot]
    refine .indexed ?_ ?_ ?_
    · exact .inr hkind
    · rfl
    · exact hA
  · rw [Fetch.place, hbase, hindex]

theorem unmarked_eq_of_asmName {x y : Slot} (hlayout : s.session.table.LaidOut) (hx : s.Knows x)
    (hy : y ∈ s.session.table.slots) (hname : x.asmName = y.asmName) : x.unmarked = y.unmarked := by
  obtain ⟨z, hz, hzx⟩ := List.mem_map.mp hx
  have hzname := congrArg Slot.asmName hzx
  obtain rfl := List.inj_on_of_nodup_map hlayout.names hz hy (hzname.trans hname)
  exact hzx.symm

/-- Indexes lead to the member of the element that they number, where the shape that is used is that
of the array. -/
theorem MemberOfElement.designates {item : ArrayItem} {shape : ArrayShape} {member : String}
    {indexes : Memory → List Word} {S : StructShape} {A count distance : Nat} {template : Slot}
    (hs : Indexable m s) (harrayed : s.session.Arrayed) (hlayout : s.session.table.LaidOut)
    (harr : arr ∈ s.session.table.slots) (hkind : arr.kind = .array) (haddress : arr.address = some A)
    (hname : S.name = item.shape) (hS : s.session.catalog.findStruct? S.name "" = some S)
    (hpos : S.template.size ≠ 0) (htotal : item.totalSize = count * S.template.size + 1)
    (helements : ∀ i < count, ∃ o ∈ s.session.table.slots, o.kind = .struct ∧ o.shape = some S.name ∧
      o.asmName = arr.asmName ++ "_" ++ toString i ∧ o.address = some (A + 1 + i * S.template.size))
    (hmember : S.member? member = some (distance, template)) (hk : template.kind.isRegular = true)
    (hfits : shape.Fits S.template.size item.totalSize) (hne : shape.dimensions ≠ [])
    (h : MemberOfElement m s arr item shape.strides member
      (fun μ => strideSum shape.strides (indexes μ)) safe v t) (hμ : s.ground.HoldIn μ) (hsafe : safe μ)
    (hheader : μ A = UInt64.ofNat (A + 1)) (hin : List.Forall₂ (· < ·) (indexes μ) shape.dimensions) :
    ArrayShape.position shape.dimensions (indexes μ) < count ∧ v.Designates m s μ (UInt64.ofNat
      (A + 1 + ArrayShape.position shape.dimensions (indexes μ) * S.template.size + distance)) := by
  obtain ⟨hk', hsum, hnumbered⟩ := hfits.number hne hpos htotal hin
  generalize ArrayShape.position shape.dimensions (indexes μ) = k at hk' hsum hnumbered ⊢
  refine ⟨hk', ?_⟩
  cases h with
  | computed S' distance' template' hS' hmember' h =>
    obtain rfl : S' = S := Option.some.inj (hS'.symm.trans (hname ▸ hS))
    obtain ⟨rfl, rfl⟩ := Prod.mk.inj (Option.some.inj (hmember'.symm.trans hmember))
    have hdesignates := h.designates hkind (hs.isAt harr hkind haddress)
      (hs.headers arr (Scope.knows_of_mem harr) hkind A haddress) hμ hsafe
    rw [hheader, hsum, ← UInt64.ofNat_add, ← UInt64.ofNat_add, ← Nat.add_assoc] at hdesignates
    exact hdesignates
  | known known head hhead hheadKind hnumber hknows hasm h =>
    obtain ⟨hvalue, μ', hruns, hagree⟩ := h μ hμ hsafe
    obtain ⟨o, ho, hokind, hoshape, honame, hoaddress⟩ := helements k hk'
    have hheadName : head.asmName = o.asmName := by
      rw [hnumber, honame, ← hvalue, hnumbered]
    obtain ⟨S', a, hS'name, hS', ha, hmembers⟩ := harrayed.findAsm?_member hlayout ho hokind
    obtain rfl : a = A + 1 + k * S.template.size := Option.some.inj (ha.symm.trans hoaddress)
    have hsameName : S'.name = S.name := Option.some.inj (hS'name.symm.trans hoshape)
    obtain rfl : S' = S := Option.some.inj (hS'.symm.trans (hsameName ▸ hS))
    obtain ⟨x, hx, hcarries, hxaddress⟩ := hmembers hmember
    have hxname : v.slot.asmName = x.asmName := by
      have hfound : x.asmName = o.asmName ++ "_" ++ member := by simpa using List.find?_some hx
      rw [hasm, hheadName, hfound]
    have hsame := unmarked_eq_of_asmName hlayout hknows (List.mem_of_find?_eq_some hx) hxname
    have hvkind := congrArg Slot.kind hsame
    have hvkind : v.slot.kind = template.kind := hvkind.trans hcarries.kind
    have hvaddress := congrArg Slot.address hsame
    have hvaddress : v.slot.address = some (A + 1 + k * S'.template.size + distance) :=
      hvaddress.trans hxaddress
    have hstruct : v.slot.kind ≠ .struct := by
      rintro hstruct
      rw [hstruct] at hvkind
      simp [← hvkind, Kind.isRegular] at hk
    obtain ⟨hoffset, b, hb⟩ := hs.ready.slots v.slot.unmarked hknows hstruct
    obtain rfl := Option.some.inj (hb.1.symm.trans hvaddress)
    refine ⟨.word _, μ', .word (.inl ?_) hb, hruns, hagree, rfl⟩
    simp [Slot.isPlain, hvkind, hk, show v.slot.offset = none from hoffset]

/-- A member of the struct value whose head `o` is at `a`: the slot of its name is there by its
distance, and so is what a pointer to the value leads to. -/
structure Reaches (u : Scope) (o : Slot) (a : Nat) (member : String) (distance : Nat)
    (template x : Slot) : Prop where
  found : u.session.table.findAsm? (o.asmName ++ "_" ++ member) = some x
  carries : o.Carries template x
  address : x.address = some (a + distance)
  byName : ∀ f leftSide, ∃ t, Gives (memberOf leftSide o member) f u ⟨x, []⟩ t
  pointer : ∀ f, ∃ y, Gives (knownAddress o) f u y u ∧ y.isValue (UInt64.ofNat a) = true ∧
    y.type = .structPtr ∧ y.shape = o.shape
  byPointer : template.kind.isRegular = true → ∀ f (p : Slot), p.isPlain = true → p.type = .structPtr →
    p.shape = o.shape → ∃ y, Gives (arrowMember p member) f u ⟨y, []⟩ u ∧ ∀ m b μ, p.IsAt m b →
      μ b = UInt64.ofNat a → Lowered.Designates m u μ ⟨y, []⟩ (UInt64.ofNat (a + distance))

/-- The operand `v` is what indexes and a member lead to from the header of an array at `A`, which is
found with a shape; in the memory `μ` the header holds the address of the first element. -/
structure IndexPath (m : Machine) (f : Frame) (u : Scope) (arr : Slot) (A : Nat) (shape : ArrayShape)
    (es : List Expr) (member : String) (v : Lowered) (μ : Memory) : Prop where
  found : arr.shape.bind u.session.catalog.findArray? = some shape
  indexable : Indexable m u
  pointed : ∀ e ∈ es, e.IsPointed (u.ground.plain? f.function) u.scratch
  length : es.length = shape.dimensions.length
  gives : ∃ leftSide t, Gives
    (followAfter leftSide 0 ⟨arr, []⟩ (Expr.pathSteps (es.map .index ++ [.member member]))) f u v t
  constants : u.ground.HoldIn μ
  lands : ∀ e ∈ es, e.Lands m (u.ground.plain? f.function) u.scratch μ
  header : μ A = UInt64.ofNat (A + 1)

end Lower

open Lower in
/-- All ways to a member lead to the same word, but for indexes that are computed with the shape of
another array. After any definitions, each member of a struct value is reached by its name and through
a pointer, at its distance from the head. Indexes of an array of structs lead as far from its first
element as the strides of the shape say that is found for the array; if this shape is that of the
array, they lead to the member of the element that they number. -/
theorem Session.Defined.members_reached_alike {options : Options}
    {defined : List (Place × Definition)} {s : Session} (h : Session.Defined options defined s)
    {u : Scope} (htable : u.session.table.bare = s.table.bare) (hcatalog : u.session.catalog = s.catalog) :
    (∀ o ∈ u.session.table.slots, o.kind = .struct → ∃ S a, o.shape = some S.name ∧
      u.session.catalog.findStruct? S.name "" = some S ∧ o.address = some a ∧
      ∀ member distance template, S.member? member = some (distance, template) →
        ∃ x, Reaches u o a member distance template x) ∧
    ∀ arr ∈ u.session.table.slots, ∀ item, arr.kind = .array → arr.item = some item →
      item.kind = .struct → ∃ S A count, u.session.catalog.findStruct? item.shape "" = some S ∧
        arr.address = some A ∧ item.totalSize = count * S.template.size + 1 ∧
        (∀ i < count, ∃ o ∈ u.session.table.slots, o.kind = .struct ∧ o.shape = some S.name ∧
          o.asmName = arr.asmName ++ "_" ++ toString i ∧
          o.address = some (A + 1 + i * S.template.size)) ∧
        ∀ {m f shape es member v μ distance template}, IndexPath m f u arr A shape es member v μ →
          S.member? member = some (distance, template) → template.kind.isRegular = true →
          ∀ indexes, indexes = es.map (Expr.worth m.alu (u.ground.plain? f.function) μ) →
            (v.slot.offset ≠ none → v.Designates m u μ
              (UInt64.ofNat (A + 1) + (strideSum shape.strides indexes + UInt64.ofNat distance))) ∧
            (shape.Fits S.template.size item.totalSize →
              List.Forall₂ (· < ·) indexes shape.dimensions →
              ∃ k < count, k = ArrayShape.position shape.dimensions indexes ∧
                v.Designates m u μ (UInt64.ofNat (A + 1 + k * S.template.size + distance))) := by
  obtain ⟨notes, hnotes, -⟩ := h.exists_accounted
  have harrayed : u.session.Arrayed := hnotes.arrayed.of_bare htable hcatalog
  have hlayout : u.session.table.LaidOut := hnotes.laidOut.of_bare htable
  have hoffset : ∀ x ∈ u.session.table.slots, x.offset = none := by
    intro x hx
    have hmem : x.offset ∈ u.session.table.slots.map Slot.offset := List.mem_map_of_mem hx
    rw [Table.map_of_bare htable _ fun _ => rfl] at hmem
    obtain ⟨y, hy, hyx⟩ := List.mem_map.mp hmem
    exact hyx.symm.trans (h.offset_eq_none.2 y hy)
  constructor
  · intro o ho hkind
    obtain ⟨S, a, hshape, hS, ha, hmembers⟩ := harrayed.findAsm?_member hlayout ho hkind
    refine ⟨S, a, hshape, hS, ha, fun member distance template hmember => ?_⟩
    obtain ⟨x, hx, hcarries, hxa⟩ := hmembers hmember
    refine ⟨x, hx, hcarries, hxa, fun f leftSide => gives_memberOf f leftSide hkind (hoffset o ho) hx,
      fun f => gives_knownAddress f u hkind ha, fun hk f p hp htype hpshape => ?_⟩
    obtain ⟨y, hy, hdesignates⟩ := gives_arrowMember f hp htype (hpshape.trans hshape) hS hmember hk
    exact ⟨y, hy, fun m b μ hb hμ => hdesignates hb hμ⟩
  · intro arr harr item hkind hitem hstruct
    obtain ⟨S, A, count, hname, hS, haddress, hpos, htotal, helements⟩ :=
      harrayed.exists_element hlayout harr hkind hitem hstruct
    have hS := harrayed.separate.findStruct?_eq hS
    refine ⟨S, A, count, hname ▸ hS, haddress, htotal, helements, ?_⟩
    rintro m f shape es member v μ distance template hpath hmember hk _ rfl
    obtain ⟨leftSide, t, hgives⟩ := hpath.gives
    have hu := hpath.indexable
    have helement := memberOfElement_of_gives hu.ready hu.mul hu.headers hkind (hoffset arr harr) hitem
      hstruct hpath.found hpath.pointed hpath.length hgives
    refine ⟨fun hv => ?_, fun hfits hin => ?_⟩
    · cases helement with
      | computed S' distance' template' hS' hmember' hdisplaced =>
        obtain rfl : S' = S := Option.some.inj (hS'.symm.trans (hname ▸ hS))
        obtain ⟨rfl, rfl⟩ := Prod.mk.inj (Option.some.inj (hmember'.symm.trans hmember))
        have hdesignates := hdisplaced.designates hkind (hu.isAt harr hkind haddress)
          (hu.headers arr (Scope.knows_of_mem harr) hkind A haddress) hpath.constants hpath.lands
        rwa [hpath.header] at hdesignates
      | known known head hhead hheadKind hnumber hknows hasm hruns =>
        obtain ⟨y, hy, hyv⟩ := List.mem_map.mp hknows
        have hyv := congrArg Slot.offset hyv
        exact absurd (hyv.symm.trans (hoffset y hy)) hv
    · have hne : shape.dimensions ≠ [] := by
        intro hnil
        have hes : es = [] := by simpa [hnil] using hpath.length
        rw [hes] at hgives
        simp [Expr.pathSteps, followAfter, memberOf, hkind, hoffset arr harr] at hgives
      obtain ⟨hlt, hdesignates⟩ := helement.designates hu harrayed hlayout harr hkind haddress hname hS hpos
        htotal helements hmember hk hfits hne hpath.constants hpath.lands hpath.header hin
      exact ⟨_, hlt, rfl, hdesignates⟩

/-! ## An array that is indexed with the shape of another one -/

theorem Session.Defined.sound {options : Options} {defined : List (Place × Definition)} {s : Session}
    (h : Session.Defined options defined s)
    (havoids : ∀ place tokens, (place, Definition.variables tokens) ∈ defined →
      Session.Avoids place tokens) : s.Sound := by
  induction h with
  | start h => exact sound_start h
  | @define defined s t hs place definition h ih =>
    have hs := ih fun place tokens hmem => havoids place tokens (List.mem_append_left _ hmem)
    have hkeeps : Keeps Sound (Session.define place definition) fun _ => True := by
      rcases definition with tokens | ⟨name, members, line⟩
      · exact keeps_bind (keeps_declare (havoids place tokens (by simp))) fun _ _ => keeps_pure trivial
      · rw [Session.define]
        exact keeps_liftLayout (keeps_defineStruct place name members line)
    have ht := (hkeeps s hs).1
    rwa [h] at ht

theorem Lower.indexable_start {s : Session} (h : s.Sound) :
    Lower.Indexable (s.table.machine .unsigned) (Scope.start s) := by
  have hready : (Scope.start s).Ready (s.table.machine .unsigned) := by
    refine Scope.ready_start h.table (h.table.has_machine .unsigned) fun slot hslot hcontent => ?_
    rcases h.filled slot hslot hcontent with hk | ⟨-, hk⟩ <;> simp [hk]
  exact .of_ready hready rfl fun _ _ => rfl

/-- A struct `Q` with an array `ps` of three words, and an array `Q_ps` of structs of two words. -/
def sharedStructArray : List (Place × Definition) :=
  [(.global, .struct "Q" [.keyword "long" 1, .ident "ps" 1, .array 3 1] 1),
    (.global, .struct "P" [.keyword "long" 2, .ident "x" 2, .comma 2, .ident "y" 2] 2),
    (.global, Definition.variables [.struct "P" 3, .ident "Q_ps" 3, .array 4 3]),
    (.global, Definition.variables [.keyword "long" 4, .ident "i" 4])]

/-- The member of the element at 2 is at 9, but with 2 as computed index its word is looked for at 7,
since the indexes of single words are not multiplied. -/
theorem sharedStructArray_misplaced : ∃ (s : Session) (m : Machine) (μ : Memory) (arr : Slot)
    (shape : ArrayShape) (v : Lower.Lowered), Session.Defined {} sharedStructArray s ∧
      Lower.IndexPath m { line := 5 } (Scope.start s) arr 3 shape [.var "i" 5] "y" v μ ∧ μ 12 = 2 ∧
      v.Designates m (Scope.start s) μ 7 ∧
      ∃ o ∈ s.table.slots, ∃ template x, o.asmName = "Q_ps_2" ∧
        Lower.Reaches (Scope.start s) o 8 "y" 1 template x := by
  let path (arr : Slot) : Lower Lower.Lowered :=
    Lower.followAfter false 0 ⟨arr, []⟩ (Expr.pathSteps ([Expr.var "i" 5].map .index ++ [.member "y"]))
  have hfound : (Session.after? {} sharedStructArray).any fun s => (s.table.slots.any fun arr =>
      (arr.kind = .array && arr.address = some 3 && arr.item.any (fun item => item.kind = .struct &&
        (s.catalog.findStruct? item.shape "").any fun S =>
          (S.member? "y").any fun found => found.1 = 1 && found.2.kind.isRegular)) &&
      ((arr.shape.bind s.catalog.findArray?).any (fun shape =>
        shape.dimensions.length = 1 && shape.strides = [1]) &&
      (outcome (path arr) { line := 5 } (Scope.start s)).1.toOption.any (·.slot.offset.isSome))) &&
      ((s.table.slots.any fun o => o.kind = .struct && o.asmName = "Q_ps_2" && o.address = some 8 &&
        o.shape.any fun name => (s.catalog.findStruct? name "").any fun S =>
          (S.member? "y").any (·.1 = 1)) &&
      ((Scope.start s).ground.plain? none "i" = some 12 &&
      (!(((Scope.start s).ground.registers.map Slot.address).contains (some 12)) &&
      s.table.slots.all fun x => x.content = none || x.asmName = "Q_ps"))) := by
    decide +kernel
  obtain ⟨s, hs, hfound⟩ := (Option.any_eq_true _ _).mp hfound
  simp only [Bool.and_eq_true, List.any_eq_true, Option.any_eq_true, decide_eq_true_eq, Bool.not_eq_true',
    List.all_eq_true, Bool.or_eq_true] at hfound
  obtain ⟨⟨arr, harr, ⟨⟨hkind, hA⟩, item, hitem, hstruct, S, hS, ⟨distance, template⟩, hmember, hone, hregular⟩,
    ⟨shape, hshape, hlength, hstrides⟩, v, hv, hoffset⟩, ⟨o, ho, ⟨⟨hokind, honame⟩, hoaddress⟩, name, hoshape,
      S', hS', ⟨distance', template'⟩, hmember', hone'⟩, hi, hregister, hcontent⟩ := hfound
  have hs := Session.defined_of_after? hs
  obtain ⟨hvalues, harrays⟩ := hs.members_reached_alike (u := Scope.start s) rfl rfl
  have havoids : ∀ d ∈ sharedStructArray, d.1.stem = "" ∧ d.2.avoidsRegisters = true := by decide
  have hsound : s.Sound := hs.sound fun place tokens hmem t ht hk => by
    obtain ⟨hstem, havoids⟩ := havoids _ hmem
    rw [show place.stem = "" from hstem, String.empty_append]
    exact Definition.avoidsRegisters_variables.mp havoids t ht hk
  let μ : Memory := fun a => if a = 3 then 4 else if a = 12 then 2 else 0
  have hscratch : 12 ∉ (Scope.start s).scratch := by
    rw [Scope.scratch_of_target rfl]
    simpa [Scope.registers] using hregister
  have hconstants : (Scope.start s).ground.HoldIn μ := Scope.holdIn_start "Q_ps" (by decide) hcontent μ
  have hpath : Lower.IndexPath (s.table.machine .unsigned) { line := 5 } (Scope.start s) arr 3 shape
      [.var "i" 5] "y" v μ := by
    refine ⟨hshape, Lower.indexable_start hsound, ?_, hlength.symm, ⟨false, _, gives_of_toOption hv⟩,
      hconstants, ?_, rfl⟩
    · intro e he
      obtain rfl := List.mem_singleton.mp he
      exact .word hi hscratch
    · intro e he
      obtain rfl := List.mem_singleton.mp he
      simp [Expr.Lands, Expr.var, Expr.reached, Expr.pathReached]
  refine ⟨s, _, μ, arr, shape, v, hs, hpath, rfl, ?_, o, ho, template', ?_⟩
  · obtain ⟨S₀, A, count, hS₀, hA₀, -, -, hindexed⟩ := harrays arr harr item hkind hitem hstruct
    obtain rfl : S₀ = S := Option.some.inj (hS₀.symm.trans hS)
    obtain rfl : A = 3 := Option.some.inj (hA₀.symm.trans hA)
    have hdesignates := (hindexed hpath hmember hregular _ rfl).1 (Option.isSome_iff_ne_none.mp hoffset)
    have hworth : Expr.worth Alu.unsigned ((Scope.start s).ground.plain? none) μ (.var "i" 5) = 2 := by
      simp only [Expr.var, Expr.worth, Expr.pathWorth, hi]
      rfl
    have hplace : UInt64.ofNat (3 + 1) + (Lower.strideSum [1] [2] + UInt64.ofNat 1) = 7 := by decide
    rw [hstrides, List.map_singleton, show distance = 1 from hone] at hdesignates
    rw [← hplace, ← hworth]
    exact hdesignates
  · obtain ⟨S₁, a, hname, hS₁, ha, hmembers⟩ := hvalues o ho hokind
    obtain rfl : name = S₁.name := Option.some.inj (hoshape.symm.trans hname)
    obtain rfl : S₁ = S' := Option.some.inj (hS₁.symm.trans hS')
    obtain rfl : a = 8 := Option.some.inj (ha.symm.trans hoaddress)
    obtain ⟨x, hx⟩ := hmembers "y" distance' template' hmember'
    exact ⟨x, honame, (show distance' = 1 from hone') ▸ hx⟩

end Flatword
