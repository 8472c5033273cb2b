import Flatword.Proofs.Widening

/-!
# Lowering with more registers

Each lowering step follows itself: from a scope with more registers it gives the same code, and the
same value moved up.
-/

namespace Flatword.Widening

variable {flat flat' : Flat} {index : Lower Lowered} {indexes : List (Lower Lowered)} {path : List Step}

open Lower

variable {w : Widening} {c d : Bool} {x y : Slot} {f : Frame} {s t : Scope}

/-! ## Assignments -/

theorem Shifts.values (h : w.Shifts x) (hk : x.kind = .array) :
    ∃ a, w.count ≤ a ∧ a < w.words ∧ x.value? = some (UInt64.ofNat (a + 1)) ∧
      (w.slot x).value? = some (UInt64.ofNat (a + w.more + 1)) := by
  obtain ⟨-, a, ha, hcount, hwords, hcontent⟩ := h.array hk
  refine ⟨a, hcount, hwords, ?_, ?_⟩
  · rw [Slot.value?, hcontent, Option.bind_some, Hex.value?_ofWord]
  · simp only [Slot.value?, slot, hk, if_true, ha, Option.map_some, Option.bind_some,
      Hex.value?_ofWord, place_of_le hcount]

theorem follows_slotAt (h : w.Slots c x y) (hk : x.kind = .array) (i : Nat) :
    Follows w.Twins (w.Slots false) (slotAt x i) (slotAt y i) := by
  obtain ⟨hshifts, -, rfl⟩ := h
  obtain ⟨a, hcount, hwords, hvalue, hvalue'⟩ := hshifts.values hk
  rintro f s _ z t ⟨hs, rfl⟩ hm
  have hroom : w.words + w.more < wordLimit := hs.covers.room
  have htoNat {n : Nat} (hn : n < wordLimit) : (UInt64.ofNat n).toNat = n :=
    UInt64.toNat_ofNat_of_lt' hn
  simp only [slotAt, gives_bind, gives_orFail, hvalue] at hm
  obtain ⟨base, _, ⟨⟨⟩, rfl⟩, hm⟩ := hm
  rw [htoNat (by omega)] at hm
  split at hm
  · next hrange =>
    have haddress : ((a + 1 : Nat) + (i : Int)).toNat = a + 1 + i := by omega
    rw [haddress] at hm
    have hlt : a + 1 + i < w.words := lookupAt_lt hs hm
    obtain ⟨z', t', hz', hslots, ht⟩ := follows_lookupAt (a + 1 + i) ⟨hs, rfl⟩ hm
    refine ⟨z', t', ?_, hslots, ht⟩
    simp only [slotAt, gives_bind, gives_orFail, hvalue']
    refine ⟨_, _, ⟨rfl, rfl⟩, ?_⟩
    rw [htoNat (by omega), if_pos (by omega)]
    have hmoved : (((a + w.more + 1 : Nat) : Int) + (i : Int)).toNat = w.place (a + 1 + i) := by
      rw [place_of_le (by omega)]
      omega
    rw [hmoved]
    exact hz'
  · simp at hm

theorem resolveConstant_eq (h : w.Shifts x) : resolveConstant x = pure x := by
  unfold resolveConstant
  split
  · next hk ho => simp [(h.constant hk).1] at ho
  · next hk ho => simp [(h.constant hk).1] at ho
  · rfl

theorem Slots.resolveConstant_eq (h : w.Slots c x y) : resolveConstant y = pure y := by
  obtain ⟨hshifts, -, rfl⟩ := h
  unfold resolveConstant
  split
  · next hk ho => simp [slot, (hshifts.constant hk).1] at ho
  · next hk ho => simp [slot, (hshifts.constant hk).1] at ho
  · rfl

theorem follows_indexName (address : Nat) :
    Follows w.Twins Eq (indexName address) (indexName (w.place address)) :=
  (follows_lookupAt address).bind fun h => follows_pure (h.eq ▸ rfl)

/-- Operands that can be named. One that comes from behind an offset is in a scratch place. -/
structure Flats (w : Widening) (x : Slot) (flat flat' : Flat) : Prop where
  slot : w.Slots false flat.slot flat'.slot
  code : flat'.code = flat.code
  isNew : flat'.isNew = flat.isNew
  loaded : x.offset ≠ none → flat.slot.kind.isRegular = true

theorem Flats.release (h : w.Flats x flat flat') : Follows w.Twins Eq flat.release flat'.release := by
  obtain ⟨hslot, -, hnew, -⟩ := h
  unfold Flat.release
  refine .ite (by rw [hnew]) (fun _ => ?_) fun _ => follows_pure rfl
  rw [hslot.eq]
  exact follows_release flat.slot.address

theorem Flats.asmName (h : w.Flats x flat flat') : flat'.slot.asmName = flat.slot.asmName := by
  rw [h.slot.eq]
  rfl

def Assigns (w : Widening) (assign assign' : Slot → Slot → Lower Code) : Prop :=
  ∀ ⦃c d : Bool⦄ ⦃l l' r r' : Slot⦄, w.Slots c l l' → w.Slots d r r' →
    Follows w.Twins Eq (assign l r) (assign' l' r')

/-- Two ways to name an operand, of which the second follows the first. -/
def Flattens (w : Widening) (flatten flatten' : Slot → Lower Flat) : Prop :=
  ∀ ⦃c : Bool⦄ ⦃x x' : Slot⦄, w.Slots c x x' → Follows w.Twins (w.Flats x) (flatten x) (flatten' x')

section Assign

variable {assign assign' : Slot → Slot → Lower Code} {flatten flatten' : Slot → Lower Flat}
  {l l' r r' : Slot}

theorem follows_intoScratch (hassign : w.Assigns assign assign') (h : w.Slots c x y) :
    Follows w.Twins (w.Flats x) (intoScratch assign x) (intoScratch assign' y) := by
  unfold intoScratch
  refine follows_allocate.bind fun {scratch scratch'} hscratch => ?_
  refine (hassign (hscratch.slots false) h).bind fun {code code'} hcode => ?_
  exact follows_pure ⟨hscratch.slots false, hcode.symm, rfl, fun _ => hscratch.1⟩

theorem flattens_flattenWith (hassign : w.Assigns assign assign') :
    w.Flattens (flattenWith assign) (flattenWith assign') := by
  intro c x y h
  have hscratch := follows_intoScratch hassign h
  obtain ⟨hshifts, -, rfl⟩ := h
  have hkind : (w.slot x).kind = x.kind := rfl
  have hoffset : (w.slot x).offset = x.offset.map w.offset := rfl
  have hsame (hnone : x.offset = none) (hc : x.kind ≠ .constant) :
      w.Flats x { slot := x } { slot := w.slot x } :=
    ⟨⟨hshifts, fun hk => absurd hk hc, rfl⟩, rfl, rfl, fun h => absurd hnone h⟩
  rcases hk : x.kind <;> rcases ho : x.offset with _ | words | index <;>
    simp only [flattenWith, hk, ho, hkind, hoffset, Option.map, offset]
  case constant.none =>
    rintro f s _ flat t ⟨hs, rfl⟩ hm
    rw [gives_get_bind] at hm
    have hnamed := namedConstant?_scope hs (x := x) (by simp [hk])
    rcases hn : namedConstant? s.session.table x with _ | named <;> simp only [hn] at hm
    · obtain ⟨flat', t', hflat', hflats, ht⟩ := hscratch ⟨hs, rfl⟩ hm
      refine ⟨flat', t', gives_bind.mpr ⟨_, _, gives_get.mpr ⟨rfl, rfl⟩, ?_⟩, hflats, ht⟩
      rw [hnamed, hn]
      exact hflat'
    · obtain ⟨rfl, rfl⟩ := gives_pure.mp hm
      refine ⟨{ slot := w.slot named }, w.scope s,
        gives_bind.mpr ⟨_, _, gives_get.mpr ⟨rfl, rfl⟩, ?_⟩,
        ⟨hs.slots_of_mem (namedConstant?_mem hn), rfl, rfl, fun h => absurd ho h⟩, hs, rfl⟩
      rw [hnamed, hn]
      exact gives_pure.mpr ⟨rfl, rfl⟩
  case constant.some.known => simp [(hshifts.constant hk).1] at ho
  case constant.some.stored => simp [(hshifts.constant hk).1] at ho
  case array.some.known => exact absurd ho ((hshifts.array hk).1 words)
  case register.none | long.none | fixed.none | structRef.none | array.none =>
    exact follows_pure (hsame ho (by simp [hk]))
  case void.none | void.some.known | void.some.stored | struct.none | struct.some.known |
    struct.some.stored => exact follows_fail
  all_goals exact hscratch

theorem Slots.asmName (h : w.Slots c x y) : y.asmName = x.asmName := by
  rw [h.eq]
  rfl

theorem slots_ofWord (word : Word) : w.Slots true (.ofWord word) (.ofWord word) :=
  ⟨⟨fun _ => ⟨rfl, rfl⟩, nofun⟩, fun _ => rfl, rfl⟩

theorem slots_constant (hex : String) : w.Slots true (.constant hex) (.constant hex) :=
  ⟨⟨fun _ => ⟨rfl, rfl⟩, nofun⟩, fun _ => rfl, rfl⟩

theorem follows_assignConstant (hl : w.Slots c l l') (hr : w.Slots d r r') (hk : r.kind = .constant) :
    Follows w.Twins Eq (assignConstant l r) (assignConstant l' r') := by
  obtain ⟨-, -, rfl⟩ := hl
  obtain ⟨-, -, rfl⟩ := hr
  have harray : r.kind ≠ .array := by simp [hk]
  unfold assignConstant
  rw [slot_content harray]
  refine follows_orFail_eq.bindSame fun hex => ?_
  refine follows_orFail_eq.bindSame fun value => ?_
  refine follows_read.bindSame fun frame => ?_
  refine .ite Iff.rfl (fun _ => follows_pure rfl) fun _ => ?_
  refine .ite Iff.rfl (fun _ => follows_pure rfl) fun _ => ?_
  refine follows_get.bind fun {s _} hs => ?_
  obtain ⟨hs, rfl⟩ := hs
  rw [namedConstant?_scope hs harray]
  cases namedConstant? s.session.table r <;> exact follows_pure rfl

theorem follows_assignWord (hflatten : w.Flattens flatten flatten') (hl : w.Slots c l l')
    (hr : w.Slots d r r') : Follows w.Twins Eq (assignWord flatten l r) (assignWord flatten' l' r') := by
  obtain ⟨-, -, rfl⟩ := hl
  obtain ⟨-, -, rfl⟩ := hr
  unfold assignWord
  rcases ho : r.offset with _ | words | index <;> simp only [slot, ho, Option.map_none, Option.map_some, offset]
  · exact follows_pure (by simp)
  · refine .ite Iff.rfl (fun _ => follows_pure rfl) fun _ => ?_
    refine (hflatten (slots_ofWord words.toUInt64)).bind fun {flat flat'} hflat => ?_
    refine hflat.release.bind fun _ => follows_pure ?_
    rw [hflat.asmName, hflat.code]
  · refine (follows_indexName index).bind fun {name _} hname => ?_
    exact follows_pure (hname ▸ rfl)

theorem follows_assignCell (hl : w.Slots c l l') (hr : w.Slots d r r') (hk : r.kind = .array) :
    Follows w.Twins Eq (assignCell l r) (assignCell l' r') := by
  obtain ⟨-, -, rfl⟩ := hl
  obtain ⟨hshifts, -, rfl⟩ := hr
  unfold assignCell
  rcases ho : r.offset with _ | words | index <;> simp only [slot, ho, Option.map_none, Option.map_some, offset]
  · exact follows_pure rfl
  · exact absurd ho ((hshifts.array hk).1 words)
  · refine (follows_indexName index).bind fun {name _} hname => ?_
    exact follows_pure (hname ▸ rfl)

theorem follows_assignIndexed (hflatten : w.Flattens flatten flatten') (hl : w.Slots c l l')
    (hr : w.Slots d r r') (index : Nat) :
    Follows w.Twins Eq (assignIndexed flatten l index r)
      (assignIndexed flatten' l' (w.place index) r') := by
  unfold assignIndexed
  refine (hflatten hr).bind fun {flat flat'} hflat => ?_
  refine (follows_indexName index).bind fun {name _} hname => ?_
  refine hflat.release.bind fun _ => follows_pure ?_
  rw [hflat.asmName, hflat.code, hname, hl.asmName]

theorem follows_assignKnown (hflatten : w.Flattens flatten flatten') (hl : w.Slots c l l')
    (hr : w.Slots d r r') (words : Int64) :
    Follows w.Twins Eq (assignKnown flatten l words r) (assignKnown flatten' l' words r') := by
  unfold assignKnown
  refine (hflatten hr).bind fun {flat flat'} hflat => ?_
  refine .ite Iff.rfl (fun _ => ?_) fun _ => ?_
  · refine hflat.release.bind fun _ => follows_pure ?_
    rw [hflat.asmName, hflat.code, hl.asmName]
  · refine (hflatten (slots_ofWord words.toUInt64)).bind fun {offset offset'} hoffset => ?_
    refine hoffset.release.bind fun _ => hflat.release.bind fun _ => follows_pure ?_
    rw [hflat.asmName, hflat.code, hoffset.asmName, hoffset.code, hl.asmName]

theorem follows_assignRegular (hflatten : w.Flattens flatten flatten') (hl : w.Slots c l l')
    (hr : w.Slots d r r') :
    Follows w.Twins Eq (assignRegular flatten l r) (assignRegular flatten' l' r') := by
  have hoffset : l'.offset = l.offset.map w.offset := by rw [hl.eq]; rfl
  have hkind : r'.kind = r.kind := by rw [hr.eq]; rfl
  unfold assignRegular
  rw [hoffset, hkind]
  rcases l.offset with _ | words | index
  · rcases hk : r.kind
    case constant => exact follows_assignConstant hl hr hk
    case array => exact follows_assignCell hl hr hk
    case struct | void => exact follows_fail
    all_goals exact follows_assignWord hflatten hl hr
  · exact follows_assignKnown hflatten hl hr words
  · exact follows_assignIndexed hflatten hl hr index

theorem follows_fillCells (hassign : w.Assigns assign assign') (hl : w.Slots c l l')
    (hk : l.kind = .array) (count i : Nat) (digits : List Char) :
    Follows w.Twins Eq (fillCells assign l count i digits) (fillCells assign' l' count i digits) := by
  induction count generalizing i digits with
  | zero => exact follows_pure rfl
  | succ count ih =>
    unfold fillCells
    refine (follows_slotAt hl hk i).bind fun {cell cell'} hcell => ?_
    cases splitBytes? Hex.digitsPerWord digits with
    | none => exact follows_fail
    | some parts =>
      refine (hassign hcell (slots_constant _)).bindSame fun code => ?_
      refine (ih (i + 1) parts.2).bind fun {rest _} hrest => ?_
      exact follows_pure (hrest ▸ rfl)

theorem follows_fillArray (hassign : w.Assigns assign assign') (hl : w.Slots c l l')
    (hk : l.kind = .array) (hr : w.Slots d r r') :
    Follows w.Twins Eq (fillArray assign l r) (fillArray assign' l' r') := by
  have hitem : l'.item = l.item := by rw [hl.eq]; rfl
  have hsize : r'.size = r.size := by rw [hr.eq]; rfl
  have hconstant : r'.isConstant = r.isConstant := by rw [hr.eq, slot_isConstant]
  unfold fillArray
  rw [hitem, hsize, hconstant]
  refine .ite Iff.rfl (fun _ => follows_fail_bind) fun hc => ?_
  have hcontent : r'.content = r.content := by
    rw [hr.eq, slot_content (by rintro harray; simp [Slot.isConstant, harray] at hc)]
  rw [hcontent]
  refine follows_orFail_eq.bindSame fun item => ?_
  refine follows_orFail_eq.bindSame fun hex => ?_
  refine .ite Iff.rfl (fun _ => follows_fail_bind) fun _ => ?_
  exact follows_fillCells hassign hl hk _ _ _

theorem follows_assignArray (hassign : w.Assigns assign assign') (hl : w.Slots c l l')
    (hk : l.kind = .array) (hr : w.Slots d r r') :
    Follows w.Twins Eq (assignArray assign l r) (assignArray assign' l' r') := by
  have hoffset : l'.offset = l.offset.map w.offset := by rw [hl.eq]; rfl
  unfold assignArray
  rw [hoffset]
  rcases l.offset with _ | words | index
  · exact follows_fillArray hassign hl hk hr
  · exact follows_fail
  · exact follows_assignIndexed (flattens_flattenWith hassign) hl hr index

theorem assigns_assignWithin {depth depth' : Nat} (h : depth ≤ depth') :
    w.Assigns (assignWithin depth) (assignWithin depth') := by
  induction depth generalizing depth' with
  | zero =>
    intro c d l l' r r' hl hr
    exact follows_fail
  | succ depth ih =>
    obtain _ | depth' := depth'
    · omega
    intro c d l l' r r' hl hr
    have hassign := ih (Nat.le_of_succ_le_succ h)
    have hkind : l'.kind = l.kind := by rw [hl.eq]; rfl
    unfold assignWithin
    rw [resolveConstant_eq hl.shifts, resolveConstant_eq hr.shifts, hl.resolveConstant_eq,
      hr.resolveConstant_eq]
    simp only [pure_bind, hkind]
    rcases hk : l.kind
    case array => exact follows_assignArray hassign hl hk hr
    case constant | struct | void => exact follows_fail
    all_goals exact follows_assignRegular (flattens_flattenWith hassign) hl hr

end Assign

theorem nesting_le (s : Scope) : nesting s.session ≤ nesting (w.scope s).session := by
  have hlength (n : Nat) (slots : List Slot) : slots.length ≤ (w.splice n slots).length := by
    fun_induction splice w n slots <;> simp_all
  exact Nat.add_le_add_right (hlength w.count s.session.table.slots) 4

theorem assigns_assign : w.Assigns assign assign := by
  intro c d l l' r r' hl hr
  refine follows_get.bind fun {s _} hs => ?_
  obtain ⟨-, rfl⟩ := hs
  exact assigns_assignWithin (nesting_le s) hl hr

theorem flattens_flatten : w.Flattens flatten flatten := by
  intro c x y h
  refine follows_get.bind fun {s _} hs => ?_
  obtain ⟨-, rfl⟩ := hs
  exact flattens_flattenWith (assigns_assignWithin (nesting_le s)) h

/-! ## Operands -/

theorem Slots.withOffset_none (h : w.Slots c x y) : w.Slots c (x.withOffset none) (y.withOffset none) := by
  obtain ⟨hshifts, hvalue, rfl⟩ := h
  refine ⟨⟨fun hk => ⟨rfl, (hshifts.constant hk).2⟩, fun hk => ⟨nofun, (hshifts.array hk).2⟩⟩, hvalue, rfl⟩

theorem Slots.of_address (h : w.Slots c x y) (ha : x.address ≠ none) : w.Slots false x y :=
  ⟨h.shifts, fun hk => absurd (h.shifts.constant hk).2 ha, h.eq⟩

theorem Slots.of_isPlain (h : w.Slots c x y) (hx : x.isPlain = true) : w.Slots d x y :=
  ⟨h.shifts, fun hk => absurd hk (Slot.kind_ne_of_isPlain hx), h.eq⟩

theorem Scratch.retyped {scratch scratch' : Slot} (h : w.Scratch scratch scratch') (type : ValueType) :
    w.Scratch (if scratch.kind = .register then { scratch with type } else scratch)
      (if scratch'.kind = .register then { scratch' with type } else scratch') := by
  obtain ⟨hregular, rfl⟩ := h
  have hkind : (w.slot scratch).kind = scratch.kind := rfl
  rw [hkind]
  split <;> exact ⟨hregular, rfl⟩

theorem follows_loadInPlace (h : w.Slots c x y) :
    Follows w.Twins (w.Values c) (loadInPlace x) (loadInPlace y) := by
  unfold loadInPlace
  refine (assigns_assign h.withOffset_none h).bindSame fun code => ?_
  have hdone : w.Values c ⟨x.withOffset none, code⟩ ⟨y.withOffset none, code⟩ := ⟨h.withOffset_none, rfl⟩
  obtain ⟨-, -, rfl⟩ := h
  rcases ho : x.offset with _ | words | index <;>
    simp only [slot, ho, Option.map_none, Option.map_some, offset]
  · exact follows_pure hdone
  · exact follows_pure hdone
  · refine .ite ?_ (fun _ => (follows_release (some index)).bind fun _ => follows_pure hdone)
      fun _ => follows_pure hdone
    exact map_place_eq_some_place.not.symm

theorem follows_copyToScratch (h : w.Slots c x y) :
    Follows w.Twins (w.Values false) (copyToScratch x) (copyToScratch y) := by
  unfold copyToScratch
  refine follows_allocate.bind fun {scratch scratch'} hscratch => ?_
  refine (assigns_assign (hscratch.slots false) h).bindSame fun code => ?_
  have htype : y.type = x.type := by rw [h.eq]; rfl
  rw [htype, h.eq]
  refine (follows_releaseOperand x).bind fun _ => follows_pure ⟨?_, rfl⟩
  exact (hscratch.retyped x.type).slots false

theorem follows_own (h : w.Slots c x y) : Follows w.Twins (w.Values false) (own x) (own y) := by
  have hkind : y.kind = x.kind := by rw [h.eq]; rfl
  have hnone : y.offset.isNone = x.offset.isNone := by rw [h.eq]; simp [slot]
  unfold own
  rw [hkind, hnone]
  refine .ite Iff.rfl (fun _ => follows_fail) fun _ => ?_
  have htemp := follows_isTemp (w := w) x
  rw [← h.eq] at htemp
  refine htemp.bind fun {temp _} htemp => ?_
  obtain ⟨rfl, haddress⟩ := htemp
  refine .ite Iff.rfl (fun _ => follows_copyToScratch h) fun ht => ?_
  have h := h.of_address (haddress (by simpa using ht))
  exact .ite Iff.rfl (fun _ => follows_pure ⟨h, rfl⟩) fun _ => follows_loadInPlace h

theorem follows_update (op : BinaryOp) {dest dest' : Slot} (hdest : dest'.asmName = dest.asmName)
    (h : w.Slots c x y) : Follows w.Twins Eq (update op dest x) (update op dest' y) := by
  have hone : y.isValue 1 = x.isValue 1 := by rw [h.eq, slot_isValue]
  unfold update
  rw [hdest, hone]
  refine .ite Iff.rfl (fun _ => follows_pure rfl) fun _ => ?_
  refine (flattens_flatten h).bind fun {flat flat'} hflat => ?_
  refine hflat.release.bind fun _ => ?_
  rw [h.eq]
  refine (follows_releaseOperand x).bind fun _ => follows_pure ?_
  rw [hflat.asmName, hflat.code]

theorem follows_plainIndex (h : w.Slots c x y) :
    Follows w.Twins (w.Values false) (plainIndex x) (plainIndex y) := by
  have hplain : y.isPlain = x.isPlain := by rw [h.eq, slot_isPlain]
  unfold plainIndex
  rw [hplain]
  exact .ite Iff.rfl (fun hx => follows_pure ⟨h.of_isPlain hx, rfl⟩) fun _ => follows_own h

theorem follows_intoBase (h : w.Slots c x y) :
    Follows w.Twins (fun v v' => w.Values c v v' ∧
      (x.offset = none ∧ v.slot = x ∨ v.slot.kind.isRegular = true)) (intoBase x) (intoBase y) := by
  have hnone : y.offset.isNone = x.offset.isNone := by rw [h.eq]; simp [slot]
  have htype : y.type = x.type := by rw [h.eq]; rfl
  have hshape : y.shape = x.shape := by rw [h.eq]; rfl
  unfold intoBase
  rw [hnone, htype, hshape]
  refine .ite Iff.rfl (fun ho => follows_pure ⟨⟨h, rfl⟩, .inl ⟨by simpa using ho, rfl⟩⟩) fun ho => ?_
  refine (flattens_flatten h).bind fun {flat flat'} hflat => ?_
  have hregular := hflat.loaded (by simpa using ho)
  rw [h.eq]
  refine (follows_releaseOperand x).bind fun _ => follows_pure ⟨⟨?_, hflat.code⟩, .inr hregular⟩
  have hscratch : w.Scratch { flat.slot with type := x.type, shape := x.shape }
      { flat'.slot with type := x.type, shape := x.shape } := ⟨hregular, by rw [hflat.slot.eq]; rfl⟩
  exact hscratch.slots c

/-! ## Indexes -/

theorem follows_shiftedIndex (op : BinaryOp) (h : w.Slots c x y) (word : Word) :
    Follows w.Twins (w.Values false) (shiftedIndex op x word) (shiftedIndex op y word) := by
  unfold shiftedIndex
  refine (follows_own h).bind fun {place place'} hplace => ?_
  refine (follows_update op hplace.slot.asmName (slots_ofWord word)).bindSame fun code => ?_
  exact follows_pure ⟨hplace.slot, by rw [hplace.code]⟩

theorem follows_scaledIndex (stride : Word) (h : w.Slots c x y) :
    Follows w.Twins (w.Values false) (scaledIndex stride x) (scaledIndex stride y) :=
  .ite Iff.rfl (fun _ => follows_plainIndex h) fun _ => follows_shiftedIndex .mul h stride

theorem follows_advancedIndex (distance : Word) (h : w.Slots false x y) :
    Follows w.Twins (w.Values false) (advancedIndex distance x) (advancedIndex distance y) :=
  .ite Iff.rfl (fun _ => follows_pure ⟨h, rfl⟩) fun _ => follows_shiftedIndex .add h distance

structure Sums (w : Widening) (sum sum' : IndexSum) : Prop where
  known : sum'.known = sum.known
  stored : Option.Rel (w.Slots false) sum.stored sum'.stored
  code : sum'.code = sum.code

variable {sum sum' : IndexSum}

theorem follows_addStored (hsum : w.Sums sum sum') (stride : Word) (h : w.Slots c x y) :
    Follows w.Twins (fun total total' => w.Sums total total' ∧ total.stored ≠ none)
      (sum.addStored stride x) (sum'.addStored stride y) := by
  unfold IndexSum.addStored
  refine (follows_scaledIndex stride h).bind fun {term term'} hterm => ?_
  obtain ⟨known, stored, code⟩ := sum
  obtain ⟨known', stored', code'⟩ := sum'
  obtain ⟨hknown, hstored, hcode⟩ := hsum
  dsimp only at hknown hstored hcode ⊢
  cases hstored with
  | none =>
    refine follows_pure ⟨⟨hknown, .some hterm.slot, ?_⟩, by simp⟩
    rw [hcode, hterm.code]
  | some htotal =>
    refine (follows_own htotal).bind fun {total total'} htotal => ?_
    refine (follows_update .add htotal.slot.asmName hterm.slot).bindSame fun added => ?_
    refine follows_pure ⟨⟨hknown, .some htotal.slot, ?_⟩, by simp⟩
    rw [hcode, hterm.code, htotal.code]

theorem follows_constantWord (h : w.Slots c x y) (hx : x.isConstant = true) :
    Follows w.Twins Eq (constantWord x) (constantWord y) := by
  have hvalue : y.value? = x.value? := by
    rw [h.eq, slot_value? (by rintro hk; simp [Slot.isConstant, hk] at hx)]
  unfold constantWord
  rw [hvalue]
  exact follows_orFail fun a ha => ⟨a, ha, rfl⟩

theorem follows_addIndex (hsum : w.Sums sum sum') (dimension stride : Word)
    {index index' : Lower Lowered} (h : Follows w.Twins (w.Values true) index index') :
    Follows w.Twins (fun total total' => w.Sums total total' ∧ (total.stored = none →
        sum.stored = none ∧ ∃ value < dimension, total.known = sum.known + value * stride))
      (sum.addIndex dimension stride index) (sum'.addIndex dimension stride index') := by
  unfold IndexSum.addIndex
  refine h.bind fun {v v'} hv => ?_
  have hconstant : v'.slot.isConstant = v.slot.isConstant := by rw [hv.slot.eq, slot_isConstant]
  have hsum' : w.Sums { sum with code := sum.code ++ v.code } { sum' with code := sum'.code ++ v'.code } :=
    ⟨hsum.known, hsum.stored, by rw [hsum.code, hv.code]⟩
  dsimp only
  rw [hconstant]
  refine .ite Iff.rfl (fun hc => ?_) fun _ => ?_
  · refine (follows_constantWord hv.slot hc).bindSame fun value => ?_
    refine .ite Iff.rfl (fun _ => follows_fail_bind) fun hlt => ?_
    refine follows_pure ⟨⟨?_, hsum.stored, hsum'.code⟩, fun hnone => ⟨hnone, value, ?_, rfl⟩⟩
    · rw [hsum.known]
    · simpa using hlt
  · refine (follows_addStored hsum' stride hv.slot).mono fun h => ⟨h.1, fun hnone => absurd hnone h.2⟩

theorem follows_addIndexes (hsum : w.Sums sum sum') {dimensions strides : List Word}
    (h : ∀ index ∈ indexes, Follows w.Twins (w.Values true) index index)
    (hstrides : strides.length = dimensions.length) (hindexes : dimensions.length ≤ indexes.length) :
    Follows w.Twins (fun total total' => w.Sums total total' ∧ (total.stored = none →
        sum.stored = none ∧ ∃ values, List.Forall₂ (· < ·) values dimensions ∧
          total.known = sum.known + strideSum strides values))
      (sum.addIndexes dimensions strides indexes) (sum'.addIndexes dimensions strides indexes) := by
  induction dimensions generalizing sum sum' strides indexes with
  | nil =>
    refine follows_pure ⟨hsum, fun hnone => ⟨hnone, [], .nil, ?_⟩⟩
    simp [strideSum]
  | cons dimension dimensions ih =>
    obtain _ | ⟨stride, strides⟩ := strides
    · simp at hstrides
    obtain _ | ⟨index, indexes⟩ := indexes
    · simp at hindexes
    unfold IndexSum.addIndexes
    refine (follows_addIndex hsum dimension stride (h index (by simp))).bind fun {first first'} hfirst => ?_
    refine (ih hfirst.1 (fun index hindex => h index (by simp [hindex])) (by simpa using hstrides)
      (by simpa using hindexes)).mono fun {total total'} htotal => ⟨htotal.1, fun hnone => ?_⟩
    obtain ⟨hnone, values, hvalues, hknown⟩ := htotal.2 hnone
    obtain ⟨hnone, value, hvalue, hfirstKnown⟩ := hfirst.2 hnone
    refine ⟨hnone, value :: values, .cons hvalue hvalues, ?_⟩
    rw [hknown, hfirstKnown, strideSum, UInt64.add_assoc]

/-! ## Cells and members -/

theorem follows_knownCell (leftSide : Bool) (h : w.Slots c x y) (hk : x.kind = .array)
    (item : ArrayItem) (strides : List Word) {distance : Word}
    (hroom : w.words + w.more + distance.toNat < wordLimit) :
    Follows w.Twins (w.Slots false) (knownCell leftSide x item strides distance)
      (knownCell leftSide y item strides distance) := by
  have hname := h.asmName
  obtain ⟨hshifts, -, rfl⟩ := h
  obtain ⟨a, hcount, hwords, hvalue, hvalue'⟩ := hshifts.values hk
  unfold knownCell
  refine .ite Iff.rfl (fun _ => ?_) fun _ => ?_
  · rw [hname]
    refine follows_lookupAsm? (by simp) fun hx => follows_orFail fun _ h => ⟨_, rfl, ?_⟩
    obtain rfl := Option.some.inj h
    exact hx
  have hsum {n : Nat} (hn : n + distance.toNat < wordLimit) :
      (UInt64.ofNat n + distance).toNat = n + distance.toNat := by
    have hn' : n < wordLimit := by omega
    rw [UInt64.toNat_add, UInt64.toNat_ofNat_of_lt' hn']
    exact Nat.mod_eq_of_lt hn
  rw [hvalue, hvalue']
  have hmoved : (UInt64.ofNat (a + w.more + 1) + distance).toNat =
      w.place (UInt64.ofNat (a + 1) + distance).toNat := by
    rw [hsum (by omega), hsum (by omega), place_of_le (by omega)]
    omega
  simp only [orFail, pure_bind, hmoved]
  exact (follows_lookupAt _).onSide

theorem Slots.stored (h : w.Slots false x y) (address : Nat) (type : ValueType) :
    w.Slots false { x with offset := some (.stored address), type }
      { y with offset := some (.stored (w.place address)), type } := by
  obtain ⟨hshifts, hvalue, rfl⟩ := h
  exact ⟨⟨fun hk => absurd (hvalue hk) (by simp), fun hk => ⟨by simp, (hshifts.array hk).2⟩⟩, hvalue, rfl⟩

theorem Slots.known (h : w.Slots false x y) (hk : x.kind ≠ .array) (words : Int64) (type : ValueType)
    (shape : Option String) :
    w.Slots false { x with offset := some (.known words), type, shape }
      { y with offset := some (.known words), type, shape } := by
  obtain ⟨hshifts, hvalue, rfl⟩ := h
  exact ⟨⟨fun hk => absurd (hvalue hk) (by simp), fun harray => absurd harray hk⟩, hvalue, rfl⟩

theorem Slots.follows_address (h : w.Slots c x y) (cause : Cause) :
    Follows w.Twins (fun a b => b = w.place a) (orFail x.address cause) (orFail y.address cause) := by
  rw [h.eq]
  refine follows_orFail fun a ha => ⟨w.place a, ?_, rfl⟩
  simp [slot, Option.mem_def.mp ha]

theorem follows_computedCell (h : w.Slots false x y) (item : ArrayItem) {index index' : Slot}
    (hindex : w.Slots false index index') (distance : Word) :
    Follows w.Twins (w.Values false) (computedCell x item index distance)
      (computedCell y item index' distance) := by
  unfold computedCell
  refine (follows_advancedIndex distance hindex).bind fun {total total'} htotal => ?_
  refine (htotal.slot.follows_address _).bind fun {a b} hab => follows_pure ⟨?_, htotal.code⟩
  rw [hab]
  exact h.stored a item.type

theorem follows_summedCell (leftSide : Bool) (h : w.Slots false x y) (hk : x.kind = .array)
    (item : ArrayItem) (strides : List Word) (hsum : w.Sums sum sum')
    (hroom : sum.stored = none → w.words + w.more + sum.known.toNat < wordLimit) :
    Follows w.Twins (w.Values false) (summedCell leftSide x item strides sum)
      (summedCell leftSide y item strides sum') := by
  obtain ⟨known, stored, code⟩ := sum
  obtain ⟨known', stored', code'⟩ := sum'
  obtain ⟨rfl, hstored, rfl⟩ := hsum
  unfold summedCell
  dsimp only at hstored hroom ⊢
  cases hstored with
  | none =>
    refine (follows_knownCell leftSide h hk item strides (hroom rfl)).bind fun hcell => ?_
    exact follows_pure ⟨hcell, rfl⟩
  | some hindex =>
    refine (follows_computedCell h item hindex known').bind fun {cell cell'} hcell => ?_
    exact follows_pure ⟨hcell.slot, by rw [hcell.code]⟩

theorem known_le {dimensions values : List Word} {size : Nat} {known : Word}
    (hvalues : List.Forall₂ (· < ·) values dimensions)
    (hknown : known = 0 + strideSum (ArrayShape.stridesOf (UInt64.ofNat size) dimensions) values) :
    known.toNat ≤ ArrayShape.cellCount dimensions * size := by
  have hposition := Nat.le_of_lt (ArrayShape.position_lt hvalues)
  rw [hknown, UInt64.zero_add, ArrayShape.strideSum_stridesOf hvalues.length_eq]
  calc (UInt64.ofNat (ArrayShape.position dimensions values * size)).toNat
      ≤ ArrayShape.position dimensions values * size := Nat.mod_le _ _
    _ ≤ ArrayShape.cellCount dimensions * size := Nat.mul_le_mul_right size hposition

theorem follows_indexArray (leftSide : Bool) (h : w.Slots false x y) (hk : x.kind = .array)
    (hindexes : ∀ index ∈ indexes, Follows w.Twins (w.Values true) index index) :
    Follows w.Twins (fun p p' => w.Values false p.1 p'.1 ∧ p'.2 = p.2)
      (indexArray leftSide x indexes) (indexArray leftSide y indexes) := by
  have hshape : y.shape = x.shape := by rw [h.eq]; rfl
  have hitem : y.item = x.item := by rw [h.eq]; rfl
  have hname : y.name = x.name := by rw [h.eq]; rfl
  unfold indexArray
  rw [hshape, hitem, hname]
  refine follows_get.bind fun {s _} hs => ?_
  obtain ⟨hs, rfl⟩ := hs
  have hcatalog : (w.scope s).session.catalog = s.session.catalog := rfl
  dsimp only
  rw [hcatalog]
  refine (follows_orFail (R := fun shape shape' => shape' = shape ∧
    Shape.array shape ∈ s.session.catalog) fun shape hfound =>
      ⟨shape, hfound, rfl, Catalog.mem_of_bind_findArray? hfound⟩).bind fun {_ shape} hshape => ?_
  obtain ⟨rfl, hmem⟩ := hshape
  obtain ⟨hstrides, hroom⟩ := hs.covers.shapes shape hmem
  refine follows_orFail_eq.bindSame fun item => ?_
  refine .ite Iff.rfl (fun _ => follows_fail_bind) fun hlength => ?_
  have hempty : w.Sums {} {} := ⟨rfl, .none, rfl⟩
  refine (follows_addIndexes hempty hindexes ?_ (by simpa using hlength)).bind
    fun {sum sum'} hsum => ?_
  · rw [hstrides, ArrayShape.length_stridesOf]
  refine (follows_summedCell leftSide h hk item _ hsum.1 fun hnone => ?_).bind fun hcell => ?_
  · obtain ⟨-, values, hvalues, hknown⟩ := hsum.2 hnone
    exact Nat.lt_of_le_of_lt (Nat.add_le_add_left (known_le hvalues (hstrides ▸ hknown)) _) hroom
  · exact follows_pure ⟨hcell, rfl⟩

theorem base_ne_array {v : Lowered} (hx : ¬ (x.kind = .array ∧ x.offset = none))
    (h : x.offset = none ∧ v.slot = x ∨ v.slot.kind.isRegular = true) : v.slot.kind ≠ .array := by
  rcases h with ⟨ho, rfl⟩ | h
  · exact fun hk => hx ⟨hk, ho⟩
  · intro hk
    simp [hk, Kind.isRegular] at h

theorem follows_indexPointer (h : w.Slots false x y) (hx : ¬ (x.kind = .array ∧ x.offset = none))
    (hindex : Follows w.Twins (w.Values true) index index) :
    Follows w.Twins (w.Values false) (indexPointer x index) (indexPointer y index) := by
  have htype : y.type = x.type := by rw [h.eq]; rfl
  unfold indexPointer
  rw [htype]
  refine .ite Iff.rfl (fun _ => follows_fail_bind) fun _ => ?_
  refine (follows_intoBase h).bind fun {base base'} hbase => ?_
  obtain ⟨hbase, hbaseKind⟩ := hbase
  have harray := base_ne_array hx hbaseKind
  have hbaseType : base'.slot.type = base.slot.type := by rw [hbase.slot.eq]; rfl
  refine hindex.bind fun {v v'} hv => ?_
  have hconstant : v'.slot.isConstant = v.slot.isConstant := by rw [hv.slot.eq, slot_isConstant]
  rw [hconstant, hbaseType]
  refine .ite Iff.rfl (fun hc => ?_) fun _ => ?_
  · refine (follows_constantWord hv.slot hc).bindSame fun value => ?_
    refine follows_pure ⟨?_, by rw [hbase.code, hv.code]⟩
    have hslot : w.Slots false base.slot (w.slot base.slot) := hbase.slot.eq ▸ hbase.slot
    rw [hbase.slot.eq]
    exact hslot.known harray value.toInt64 base.slot.type.element base.slot.shape
  · refine (follows_plainIndex hv.slot).bind fun {plain plain'} hplain => ?_
    refine (hplain.slot.follows_address _).bind fun {a b} hab => follows_pure ⟨?_, ?_⟩
    · rw [hab]
      exact hbase.slot.stored a base.slot.type.element
    · rw [hbase.code, hv.code, hplain.code]

theorem follows_wordMember (struct member : String) :
    Follows w.Twins Eq (wordMember struct member) (wordMember struct member) := by
  unfold wordMember
  refine follows_get.bind fun {s _} hs => ?_
  obtain ⟨-, rfl⟩ := hs
  refine follows_orFail_eq.bindSame fun shape => ?_
  refine follows_orFail_eq.bindSame fun found => ?_
  exact .ite Iff.rfl (fun _ => follows_fail_bind) fun _ => follows_pure rfl

theorem follows_memberOfCell (h : w.Slots false x y) (struct : String) (index : Nat)
    (member : String) :
    Follows w.Twins (w.Values false) (memberOfCell x struct index member)
      (memberOfCell y struct (w.place index) member) := by
  unfold memberOfCell
  refine (follows_wordMember struct member).bindSame fun found => ?_
  refine (follows_lookupAt index).bind fun {i i'} hi => ?_
  refine .ite Iff.rfl (fun _ => follows_pure ⟨h.stored index _, rfl⟩) fun _ => ?_
  refine (follows_shiftedIndex .add hi _).bind fun {total total'} htotal => ?_
  refine (htotal.slot.follows_address _).bind fun {a b} hab => follows_pure ⟨?_, htotal.code⟩
  rw [hab]
  exact h.stored a _

theorem follows_memberOf (leftSide : Bool) (h : w.Slots false x y) (member : String) :
    Follows w.Twins (w.Values false) (memberOf leftSide x member) (memberOf leftSide y member) := by
  have hkind : y.kind = x.kind := by rw [h.eq]; rfl
  have hoffset : y.offset = x.offset.map w.offset := by rw [h.eq]; rfl
  have hitem : y.item = x.item := by rw [h.eq]; rfl
  have hname : y.asmName = x.asmName := h.asmName
  unfold memberOf
  rw [hkind, hoffset, hitem, hname]
  rcases hk : x.kind <;> rcases x.offset with _ | words | index <;> rcases x.item with _ | item <;>
    simp only [Option.map_none, Option.map_some, offset]
  case struct.none.none | struct.none.some =>
    refine follows_lookupAsm? (by simp [orFail]) fun hx => ?_
    simp only [orFail, pure_bind]
    exact follows_pure ⟨hx, rfl⟩
  case array.some.stored.some =>
    refine .ite Iff.rfl (fun _ => follows_memberOfCell h item.shape index member) fun _ => follows_fail
  all_goals exact follows_fail

theorem follows_arrowMember (h : w.Slots false x y) (member : String) :
    Follows w.Twins (w.Values false) (arrowMember x member) (arrowMember y member) := by
  have hkind : y.kind = x.kind := by rw [h.eq]; rfl
  have htype : y.type = x.type := by rw [h.eq]; rfl
  have hshape : y.shape = x.shape := by rw [h.eq]; rfl
  unfold arrowMember
  rw [hkind, htype, hshape]
  refine .ite Iff.rfl (fun _ => follows_fail_bind) fun hx => ?_
  refine (follows_wordMember _ member).bindSame fun found => ?_
  refine (follows_intoBase h).bind fun {base base'} hbase => ?_
  have harray : base.slot.kind ≠ .array :=
    base_ne_array (fun harray => hx (.inr harray.1)) hbase.2
  exact follows_pure ⟨hbase.1.slot.known harray _ _ _, hbase.1.code⟩

/-! ## Paths -/

def FollowsStep (w : Widening) (step : Step) : Prop :=
  ∀ value, step = .index value → Follows w.Twins (w.Values true) value value

theorem follows_of_mem_leadingIndexes (h : ∀ step ∈ path, w.FollowsStep step) :
    ∀ value ∈ leadingIndexes path, Follows w.Twins (w.Values true) value value := by
  fun_induction leadingIndexes path with
  | case1 value rest ih =>
    intro v hv
    rcases List.mem_cons.mp hv with rfl | hv
    · exact h _ (by simp) v rfl
    · exact ih (fun step hstep => h step (List.mem_cons_of_mem _ hstep)) v hv
  | case2 => simp

theorem follows_followAfter (leftSide : Bool) (skip : Nat) {here here' : Lowered}
    (hhere : w.Values false here here') (h : ∀ step ∈ path, w.FollowsStep step) :
    Follows w.Twins (w.Values false) (followAfter leftSide skip here path)
      (followAfter leftSide skip here' path) := by
  induction path generalizing skip here here' with
  | nil =>
    rw [followAfter, followAfter]
    exact follows_pure hhere
  | cons step rest ih =>
    have hrest : ∀ step ∈ rest, w.FollowsStep step := fun step hs => h step (by simp [hs])
    have hkind : here'.slot.kind = here.slot.kind := by rw [hhere.slot.eq]; rfl
    have hnone : here'.slot.offset.isNone = here.slot.offset.isNone := by
      rw [hhere.slot.eq]
      simp [slot]
    -- The rest of the path goes on from the value that the step leads to.
    have hnext (skip : Nat) {v v' : Lowered} (hv : w.Values false v v') :
        Follows w.Twins (w.Values false)
          (followAfter leftSide skip ⟨v.slot, here.code ++ v.code⟩ rest)
          (followAfter leftSide skip ⟨v'.slot, here'.code ++ v'.code⟩ rest) :=
      ih skip ⟨hv.slot, by rw [hhere.code, hv.code]⟩ hrest
    obtain _ | skip := skip
    · rcases step with value | name | name <;> rw [followAfter, followAfter]
      · have hvalue := h (.index value) (by simp) value rfl
        have hindexes : ∀ index ∈ value :: leadingIndexes rest,
            Follows w.Twins (w.Values true) index index :=
          List.forall_mem_cons.mpr ⟨hvalue, follows_of_mem_leadingIndexes hrest⟩
        rw [hkind, hnone]
        refine .ite Iff.rfl (fun hx => ?_) fun hx => ?_
        · refine (follows_indexArray leftSide hhere.slot hx.1 hindexes).bind fun {p p'} hp => ?_
          obtain ⟨cell, _⟩ := p
          obtain ⟨cell', taken⟩ := p'
          obtain ⟨hcell, rfl⟩ := hp
          exact hnext (taken - 1) hcell
        · refine (follows_indexPointer hhere.slot (by simpa using hx) hvalue).bind fun hcell => ?_
          exact hnext 0 hcell
      · exact (follows_memberOf leftSide hhere.slot name).bind fun hv => hnext 0 hv
      · exact (follows_arrowMember hhere.slot name).bind fun hv => hnext 0 hv
    · rw [followAfter, followAfter]
      exact ih skip hhere hrest

theorem follows_lowerLookup (name : String) (h : ∀ step ∈ path, w.FollowsStep step) :
    Follows w.Twins (w.Values false) (lowerLookup name path) (lowerLookup name path) := by
  unfold lowerLookup
  refine follows_read.bindSame fun frame => ?_
  refine (follows_lookup name).bind fun {x y} hx => ?_
  have hhere : w.Values false ⟨x, []⟩ ⟨y, []⟩ := ⟨hx, rfl⟩
  exact .ite Iff.rfl (fun _ => follows_pure hhere) fun _ => (follows_followAfter _ 0 hhere h).onSide

end Flatword.Widening
