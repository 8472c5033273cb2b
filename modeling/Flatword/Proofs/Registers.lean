import Flatword.Proofs.Ground

/-!
# Registers in use

For each step that works on operands: a register that is in use afterwards was in use before, or is
held by what the step gives. Nothing is assumed about which registers an operand holds, so the
lemmas apply to any operand.
-/

namespace Flatword

/-- Whether a slot holds the register at an address, as its base or as its index. -/
def Slot.Holds (slot : Slot) (a : Nat) : Prop :=
  slot.address = some a ∨ slot.offset = some (.stored a)

namespace Slot

theorem offset_of_isPlain {slot : Slot} (h : slot.isPlain = true) : slot.offset = none := by
  simp only [isPlain, Bool.and_eq_true, Option.isNone_iff_eq_none] at h
  exact h.2

theorem kind_ne_of_isPlain {slot : Slot} {kind : Kind} (h : slot.isPlain = true)
    (hkind : kind.isRegular = false := by rfl) : slot.kind ≠ kind := by
  rintro rfl
  simp [isPlain, hkind] at h

theorem holds_iff_of_isPlain {slot : Slot} (h : slot.isPlain = true) {a : Nat} :
    slot.Holds a ↔ slot.address = some a := by
  simp [Holds, offset_of_isPlain h]

end Slot

namespace Ground

variable {g : Ground} {slot : Slot}

/-- What is true of every operand: an array header is no register, and a constant has no place. -/
structure Suits (g : Ground) (slot : Slot) : Prop where
  array : slot.kind = .array → slot.address ∉ g.registers.map Slot.address
  constant : slot.kind = .constant → slot.address = none

/-- The registers are plain words with addresses of their own, and no array is among them. -/
structure Regular (g : Ground) : Prop where
  plain : ∀ r ∈ g.registers, r.isPlain = true
  placed : ∀ r ∈ g.registers, r.address ≠ none
  distinct : (g.registers.map Slot.address).Nodup
  suits : ∀ slot ∈ g.slots, g.Suits slot

theorem Suits.of_isPlain (g : Ground) (h : slot.isPlain = true) : g.Suits slot := by
  constructor <;> (intro hk; simp [Slot.isPlain, hk, Kind.isRegular] at h)

theorem Suits.of_constant (g : Ground) (hk : slot.kind = .constant) (ha : slot.address = none) :
    g.Suits slot :=
  ⟨by simp [hk], fun _ => ha⟩

theorem Suits.congr {slot slot' : Slot} (h : g.Suits slot) (hk : slot'.kind = slot.kind)
    (ha : slot'.address = slot.address) : g.Suits slot' :=
  ⟨by rw [hk, ha]; exact h.array, by rw [hk, ha]; exact h.constant⟩

theorem Suits.not_holds (h : g.Suits slot) (hc : slot.isConstant = true) {a : Nat} :
    ¬ slot.Holds a := by
  simp only [Slot.isConstant, Bool.and_eq_true, decide_eq_true_eq, Option.isNone_iff_eq_none] at hc
  simp [Slot.Holds, h.constant hc.1, hc.2]

end Ground

namespace Reuse

/-- The target that is reserved or has been handed out. -/
def target? : Reuse → Option Slot
  | reserved target | taken target => some target
  | _ => none

end Reuse

namespace Scope

variable {s t : Scope}

/-- A scope as it is met while a program is lowered: regular, with a plain variable as target. -/
structure Regular (s : Scope) : Prop where
  ground : s.ground.Regular
  target : ∀ target ∈ s.reuse.target?, target.isPlain = true

theorem isPlain_of_reservable {target : Slot} {plain : Bool} (h : target.Reservable plain) :
    target.isPlain = true := by
  obtain ⟨-, ho, hk | hk | hk, -⟩ := h <;> simp [Slot.isPlain, ho, hk, Kind.isRegular]

/-- A target is the first one or one that may be reserved. -/
theorem Leads.target {P : Slot → Prop} (hP : ∀ target : Slot, target.Reservable true → P target)
    (h : s.Leads t) (htarget : ∀ target ∈ s.reuse.target?, P target) :
    ∀ target ∈ t.reuse.target?, P target := by
  refine h.preserves (P := fun s => ∀ target ∈ s.reuse.target?, P target) (fun {s t} hmove hs => ?_) htarget
  cases hmove with
  | handOut h => simpa [Reuse.target?, h] using hs
  | reserve h ht => simpa [Reuse.target?] using hP _ ht
  | allow | forbid =>
    revert hs
    cases s.reuse <;> simp [Reuse.target?, Reuse.allow, Reuse.forbid]
  | _ => exact hs

theorem Leads.regular (h : s.Leads t) (hs : s.Regular) : t.Regular :=
  ⟨h.ground ▸ hs.ground, h.target (fun _ => isPlain_of_reservable) hs.target⟩

theorem Notes.regular (h : s.Notes t) (hs : s.Regular) : t.Regular :=
  ⟨h.ground ▸ hs.ground, h.reuse ▸ hs.target⟩

theorem Regular.distinct (hs : s.Regular) : s.pool.Distinct := by
  have h := hs.ground.distinct
  simp only [Scope.ground, Pool.slots, List.map_map] at h
  exact h

theorem Regular.suits (hs : s.Regular) {slot : Slot} (h : s.Knows slot) : s.ground.Suits slot :=
  (hs.ground.suits slot.unmarked h).congr rfl rfl

end Scope

namespace Lower

variable {header left right slot : Slot} {op : BinaryOp} {u s t : Scope} {code : Code} {flat : Flat}
  {v : Lowered} {x : Unit} {α : Type} {f : Frame} {a : Nat}

theorem regular_of_gives {m : Lower α} [Orderly m] {x : α} (h : Gives m f s x t)
    (hs : s.Regular) : t.Regular :=
  (leads_of_gives h).regular hs

/-! ## Taking and giving back -/

theorem allocate_cases (h : Gives allocate f s slot t) :
    s.reuse = .reserved slot ∧ t = { s with reuse := .taken slot } ∨
      (∀ target, s.reuse ≠ .reserved target) ∧
        ∃ pool, s.pool.allocate? = some (slot, pool) ∧ t = { s with pool } := by
  rw [allocate, gives_get_bind] at h
  split at h
  · next target hr =>
    simp only [gives_bind, gives_set, gives_pure] at h
    obtain ⟨_, _, rfl, rfl, rfl⟩ := h
    exact .inl ⟨hr, rfl⟩
  · next hr =>
    split at h
    · next slot' pool hp =>
      simp only [gives_bind, gives_set, gives_pure] at h
      obtain ⟨_, _, rfl, rfl, rfl⟩ := h
      exact .inr ⟨hr, pool, hp, rfl⟩
    · simp at h

theorem allocate_isPlain (hs : s.Regular) (h : Gives allocate f s slot t) :
    slot.isPlain = true := by
  rcases allocate_cases h with ⟨hr, -⟩ | ⟨-, pool, hp, -⟩
  · exact hs.target slot (by simp [hr, Reuse.target?])
  · exact hs.ground.plain slot (Pool.mem_slots_of_allocate? hp)

theorem allocate_busy (h : Gives allocate f s slot t) (ha : t.pool.Busy a) :
    s.pool.Busy a ∨ slot.address = some a := by
  rcases allocate_cases h with ⟨-, rfl⟩ | ⟨-, pool, hp, rfl⟩
  · exact .inl ha
  · exact (Pool.busy_allocate? hp).mp ha

theorem release_busy (hs : s.Regular) {address : Option Nat} (h : Gives (Lower.release address) f s x t)
    (ha : t.pool.Busy a) : s.pool.Busy a ∧ address ≠ some a := by
  simp only [Lower.release, gives_modify] at h
  subst h
  cases address with
  | none => exact ⟨ha, by simp⟩
  | some b =>
      obtain ⟨hb, hne⟩ := (Pool.busy_release hs.distinct).mp ha
      exact ⟨hb, by simpa using hne.symm⟩

theorem releaseOperand_busy (hs : s.Regular) (h : Gives (releaseOperand slot) f s x t)
    (ha : t.pool.Busy a) : s.pool.Busy a ∧ ¬ slot.Holds a := by
  simp only [releaseOperand, gives_bind] at h
  obtain ⟨_, s₁, hbase, h⟩ := h
  have hs₁ := regular_of_gives hbase hs
  split at h
  · next index ho =>
    obtain ⟨ha, hindex⟩ := release_busy hs₁ h ha
    obtain ⟨ha, haddress⟩ := release_busy hs hbase ha
    exact ⟨ha, by simp_all [Slot.Holds]⟩
  · next ho =>
    obtain ⟨-, rfl⟩ := gives_pure.mp h
    obtain ⟨ha, haddress⟩ := release_busy hs hbase ha
    exact ⟨ha, by simp_all [Slot.Holds]⟩

/-- What a flattened operand has taken, until it is released. -/
def Flat.Holds (flat : Flat) (a : Nat) : Prop :=
  flat.isNew = true ∧ flat.slot.address = some a

theorem flatRelease_busy (hs : s.Regular) (h : Gives flat.release f s x t) (ha : t.pool.Busy a) :
    s.pool.Busy a ∧ ¬ flat.Holds a := by
  unfold Flat.release at h
  split at h
  · obtain ⟨ha, haddress⟩ := release_busy hs h ha
    exact ⟨ha, fun hf => haddress hf.2⟩
  · next hn =>
    obtain ⟨-, rfl⟩ := gives_pure.mp h
    exact ⟨ha, fun hf => hn hf.1⟩

theorem isTemp_same {temp : Bool} (h : Gives (isTemp slot) f s temp t) : s = t := by
  simp only [isTemp, gives_bind, gives_get, gives_pure] at h
  obtain ⟨_, _, ⟨rfl, rfl⟩, -, rfl⟩ := h
  rfl

/-- Operands are combined in their order, or the other way round where the operator allows it: the
second one is applied to the first or, where it is a one, the first is stepped. -/
theorem combine_cases (h : Gives (combine op left right) f s v t) :
    ∃ first second, ((first, second) = (left, right) ∨
        op.isCommutative = true ∧ (first, second) = (right, left)) ∧
      (((op = .add ∨ op = .sub) ∧ second.isValue 1 = true) ∧
          Gives (stepOperand (op = .add) first) f s v t ∨
        Gives (operate op first second) f s v t) := by
  unfold combine at h
  dsimp only at h
  obtain ⟨first, second, hpair, horder⟩ : ∃ first second,
      (if op = .add ∧ left.isValue 1 = true ∧ (!right.isConstant) = true then (right, left)
        else (left, right)) = (first, second) ∧ ((first, second) = (left, right) ∨
          op.isCommutative = true ∧ (first, second) = (right, left)) := by
    split
    · next hadd => exact ⟨right, left, rfl, .inr ⟨by simp [hadd.1, BinaryOp.isCommutative], rfl⟩⟩
    · exact ⟨left, right, rfl, .inl rfl⟩
  rw [hpair] at h
  dsimp only at h
  split at h
  · next hone => exact ⟨first, second, horder, .inl ⟨hone, h⟩⟩
  · obtain ⟨_, s₁, htemp₁, h⟩ := gives_bind.mp h
    obtain ⟨_, s₂, htemp₂, h⟩ := gives_bind.mp h
    obtain rfl := isTemp_same htemp₁
    obtain rfl := isTemp_same htemp₂
    split at h
    · next hcomm =>
      simp only [Bool.and_eq_true] at hcomm
      refine ⟨second, first, ?_, .inr h⟩
      rcases horder with horder | ⟨-, horder⟩
      · exact .inr ⟨hcomm.1.1, by simpa [and_comm] using horder⟩
      · exact .inl (by simpa [and_comm] using horder)
    · exact ⟨first, second, horder, .inr h⟩

/-! ## Assignments

An assignment gives back all that it takes. -/

def Returns (assign : Slot → Slot → Lower Code) : Prop :=
  ∀ ⦃left right : Slot⦄ ⦃f : Frame⦄ ⦃s t : Scope⦄ ⦃code : Code⦄, s.Regular →
    Gives (assign left right) f s code t → ∀ ⦃a : Nat⦄, t.pool.Busy a → s.pool.Busy a

/-- A way to flatten operands that holds at most the new scratch place. -/
def Flattens (flatten : Slot → Lower Flat) : Prop :=
  ∀ ⦃slot : Slot⦄ ⦃f : Frame⦄ ⦃s t : Scope⦄ ⦃flat : Flat⦄, s.Regular →
    Gives (flatten slot) f s flat t →
      (s.ground.Suits slot → s.ground.Suits flat.slot) ∧
        ∀ ⦃a : Nat⦄, t.pool.Busy a → s.pool.Busy a ∨ flat.Holds a

section Assign

variable {assign : Slot → Slot → Lower Code}

theorem intoScratch_busy (hassign : Returns assign) (hs : s.Regular)
    (h : Gives (intoScratch assign slot) f s flat t) :
    flat.slot.isPlain = true ∧ (t.pool.Busy a → s.pool.Busy a ∨ flat.Holds a) := by
  simp only [intoScratch, gives_bind, gives_pure] at h
  obtain ⟨x, s₁, htake, code, s₂, hcode, rfl, rfl⟩ := h
  refine ⟨allocate_isPlain hs htake, fun ha => ?_⟩
  rcases allocate_busy htake (hassign (regular_of_gives htake hs) hcode ha) with ha | ha
  · exact .inl ha
  · exact .inr ⟨rfl, ha⟩

theorem namedConstant?_mem {table : Table} {constant named : Slot}
    (h : namedConstant? table constant = some named) : named ∈ table.slots := by
  simp only [namedConstant?, Option.bind_eq_bind, Option.bind_eq_some_iff] at h
  obtain ⟨value, -, h⟩ := h
  exact List.mem_of_find?_eq_some h

theorem flattens_flattenWith (hassign : Returns assign) : Flattens (flattenWith assign) := by
  intro slot f s t flat hs h
  cases flattenWith_cases h with
  | named named _ hn hf ht =>
    subst hf ht
    exact ⟨fun _ => hs.suits (Scope.knows_of_mem (namedConstant?_mem hn)), fun _ => .inl⟩
  | cell words x _ _ hx hf =>
    obtain ⟨hknown, hnotes⟩ := slotAt_notes hx
    subst hf
    exact ⟨fun _ => hs.suits hknown, fun _ ha => .inl (hnotes.pool ▸ ha)⟩
  | word _ hf ht =>
    subst hf ht
    exact ⟨id, fun _ => .inl⟩
  | literal _ _ h | load _ _ h =>
    have hplain := (intoScratch_busy (a := 0) hassign hs h).1
    exact ⟨fun _ => .of_isPlain _ hplain, fun _ => (intoScratch_busy hassign hs h).2⟩

theorem flatten_release_busy {flatten : Slot → Lower Flat} (hflatten : Flattens flatten)
    (hs : s.Regular) (ht : t.Regular) (h : Gives (flatten slot) f s flat t)
    (hrel : Gives flat.release f t x u) (ha : u.pool.Busy a) : s.pool.Busy a := by
  obtain ⟨ha, hnot⟩ := flatRelease_busy ht hrel ha
  exact ((hflatten hs h).2 ha).resolve_right hnot

theorem fillCells_busy (hassign : Returns assign) [∀ l r, Orderly (assign l r)] {count i : Nat}
    {digits : List Char} (hs : s.Regular)
    (h : Gives (fillCells assign header count i digits) f s code t) (ha : t.pool.Busy a) :
    s.pool.Busy a := by
  induction count generalizing i digits code s with
  | zero =>
    obtain ⟨-, rfl⟩ := gives_pure.mp h
    exact ha
  | succ count ih =>
    simp only [fillCells, gives_bind] at h
    obtain ⟨cell, s₁, hcell, h⟩ := h
    have hnotes := (slotAt_notes hcell).2
    split at h
    · simp at h
    · simp only [gives_bind, gives_pure] at h
      obtain ⟨first, s₂, hfirst, rest, s₃, hrest, -, rfl⟩ := h
      have hs₁ := hnotes.regular hs
      exact hnotes.pool ▸ hassign hs₁ hfirst (ih (regular_of_gives hfirst hs₁) hrest)

theorem fillArray_busy (hassign : Returns assign) [∀ l r, Orderly (assign l r)] (hs : s.Regular)
    (h : Gives (fillArray assign header right) f s code t) (ha : t.pool.Busy a) : s.pool.Busy a := by
  simp only [fillArray] at h
  split at h
  · simp at h
  · simp only [gives_bind, gives_orFail] at h
    obtain ⟨item, _, ⟨-, rfl⟩, hex, _, ⟨-, rfl⟩, h⟩ := h
    split at h
    · simp at h
    · exact fillCells_busy hassign hs h ha

end Assign

theorem assignConstant_same (h : Gives (assignConstant left right) f s code t) : t = s := by
  simp only [assignConstant, gives_bind, gives_orFail, gives_read] at h
  obtain ⟨hex, _, ⟨-, rfl⟩, value, _, ⟨-, rfl⟩, frame, _, ⟨-, rfl⟩, h⟩ := h
  split at h
  · exact (gives_pure.mp h).2.symm
  split at h
  · exact (gives_pure.mp h).2.symm
  rw [gives_get_bind] at h
  split at h <;> exact (gives_pure.mp h).2.symm

section Flatten

variable {flatten : Slot → Lower Flat} [∀ slot, Orderly (flatten slot)] {left right base : Slot}
  {code : Code}

theorem assignWord_busy (hflatten : Flattens flatten) (hs : s.Regular)
    (h : Gives (assignWord flatten left right) f s code t) (ha : t.pool.Busy a) :
    s.pool.Busy a := by
  unfold assignWord at h
  split at h
  · obtain ⟨-, rfl⟩ := gives_pure.mp h
    exact ha
  · split at h
    · obtain ⟨-, rfl⟩ := gives_pure.mp h
      exact ha
    · simp only [gives_bind, gives_pure] at h
      obtain ⟨offset, s₁, hoffset, _, s₂, hrelease, -, rfl⟩ := h
      exact flatten_release_busy hflatten hs (regular_of_gives hoffset hs) hoffset hrelease ha
  · simp only [gives_bind, gives_pure] at h
    obtain ⟨name, s₁, hname, -, rfl⟩ := h
    exact (indexName_notes hname).pool ▸ ha

theorem assignCell_notes (h : Gives (assignCell left right) f s code t) : s.Notes t := by
  unfold assignCell at h
  split at h
  · obtain ⟨-, rfl⟩ := gives_pure.mp h
    exact .refl s
  · simp only [gives_bind, gives_pure] at h
    obtain ⟨cell, s₁, hcell, -, rfl⟩ := h
    exact (slotAt_notes hcell).2
  · simp only [gives_bind, gives_pure] at h
    obtain ⟨name, s₁, hname, -, rfl⟩ := h
    exact indexName_notes hname

theorem assignIndexed_busy (hflatten : Flattens flatten) (hs : s.Regular) {index : Nat}
    (h : Gives (assignIndexed flatten base index right) f s code t) (ha : t.pool.Busy a) :
    s.pool.Busy a := by
  simp only [assignIndexed, gives_bind, gives_pure] at h
  obtain ⟨flat, s₁, hflat, name, s₂, hname, _, s₃, hrelease, -, rfl⟩ := h
  have hnotes := indexName_notes hname
  have hs₁ := regular_of_gives hflat hs
  obtain ⟨ha, hnot⟩ := flatRelease_busy (hnotes.regular hs₁) hrelease ha
  exact ((hflatten hs hflat).2 (hnotes.pool ▸ ha)).resolve_right hnot

theorem assignKnown_busy (hflatten : Flattens flatten) (hs : s.Regular) {words : Int64}
    (h : Gives (assignKnown flatten base words right) f s code t) (ha : t.pool.Busy a) :
    s.pool.Busy a := by
  simp only [assignKnown, gives_bind] at h
  obtain ⟨flat, s₁, hflat, h⟩ := h
  have hs₁ := regular_of_gives hflat hs
  split at h <;> simp only [gives_bind, gives_pure] at h
  · obtain ⟨_, s₂, hrelease, -, rfl⟩ := h
    exact flatten_release_busy hflatten hs hs₁ hflat hrelease ha
  · obtain ⟨offset, s₂, hoffset, _, s₃, hfirst, _, s₄, hsecond, -, rfl⟩ := h
    have hs₂ := regular_of_gives hoffset hs₁
    obtain ⟨ha, hnot⟩ := flatRelease_busy (regular_of_gives hfirst hs₂) hsecond ha
    have ha := flatten_release_busy hflatten hs₁ hs₂ hoffset hfirst ha
    exact ((hflatten hs hflat).2 ha).resolve_right hnot

theorem assignRegular_busy (hflatten : Flattens flatten) (hs : s.Regular)
    (h : Gives (assignRegular flatten left right) f s code t) (ha : t.pool.Busy a) :
    s.pool.Busy a := by
  unfold assignRegular at h
  split at h
  · split at h
    case h_1 => exact assignConstant_same h ▸ ha
    case h_6 => exact (assignCell_notes h).pool ▸ ha
    case h_7 | h_8 => simp at h
    all_goals exact assignWord_busy hflatten hs h ha
  · exact assignKnown_busy hflatten hs h ha
  · exact assignIndexed_busy hflatten hs h ha

end Flatten

theorem returns_assignWithin (depth : Nat) : Returns (assignWithin depth) := by
  induction depth with
  | zero =>
    intro left right f s t code _ h
    simp [assignWithin] at h
  | succ depth ih =>
    intro left right f s t code hs h a ha
    simp only [assignWithin, gives_bind] at h
    obtain ⟨left', s₁, hleft, right', s₂, hright, h⟩ := h
    have hnotes := (resolveConstant_notes hleft).2.trans (resolveConstant_notes hright).2
    have hs₂ := hnotes.regular hs
    have hflatten := flattens_flattenWith ih
    rw [← hnotes.pool]
    split at h
    case h_5 =>
      unfold assignArray at h
      split at h
      · exact fillArray_busy ih hs₂ h ha
      · simp at h
      · exact assignIndexed_busy hflatten hs₂ h ha
    case h_6 | h_7 | h_8 => simp at h
    all_goals exact assignRegular_busy hflatten hs₂ h ha

theorem assign_busy (hs : s.Regular) (h : Gives (assign left right) f s code t) (ha : t.pool.Busy a) :
    s.pool.Busy a := by
  rw [assign, gives_get_bind] at h
  exact returns_assignWithin _ hs h ha

theorem flattens_flatten : Flattens flatten := by
  intro slot f s t flat hs h
  rw [flatten, gives_get_bind] at h
  exact flattens_flattenWith (returns_assignWithin _) hs h

/-! ## Operands

An operand that is used up gives back what it holds, and the result holds the rest. -/

theorem busy_or_address (ho : slot.offset = none) (ha : s.pool.Busy a) :
    s.pool.Busy a ∧ ¬ slot.Holds a ∨ slot.address = some a := by
  by_cases h : slot.address = some a
  · exact .inr h
  · exact .inl ⟨ha, by simp [Slot.Holds, h, ho]⟩

theorem isPlain_typed {scratch : Slot} (h : scratch.isPlain = true) (type : ValueType) :
    (if scratch.kind = .register then { scratch with type } else scratch).isPlain = true ∧
      (if scratch.kind = .register then { scratch with type } else scratch).address =
        scratch.address := by
  split
  · exact ⟨h, rfl⟩
  · exact ⟨h, rfl⟩

theorem copyToScratch_busy (hs : s.Regular) (h : Gives (copyToScratch slot) f s v t) :
    v.slot.isPlain = true ∧
      (t.pool.Busy a → s.pool.Busy a ∧ ¬ slot.Holds a ∨ v.slot.address = some a) := by
  simp only [copyToScratch, gives_bind, gives_pure] at h
  obtain ⟨x, s₁, htake, code, s₂, hcode, _, s₃, hrelease, rfl, rfl⟩ := h
  have hs₁ := regular_of_gives htake hs
  obtain ⟨hplain, haddress⟩ := isPlain_typed (allocate_isPlain hs htake) slot.type
  refine ⟨hplain, fun ha => ?_⟩
  obtain ⟨ha, hnot⟩ := releaseOperand_busy (regular_of_gives hcode hs₁) hrelease ha
  rcases allocate_busy htake (assign_busy hs₁ hcode ha) with ha | ha
  · exact .inl ⟨ha, hnot⟩
  · exact .inr (haddress.trans ha)

theorem loadInPlace_busy (hs : s.Regular) (h : Gives (loadInPlace slot) f s v t) :
    v.slot = slot.withOffset none ∧
      (t.pool.Busy a → s.pool.Busy a ∧ ¬ slot.Holds a ∨ v.slot.address = some a) := by
  simp only [loadInPlace, gives_bind] at h
  obtain ⟨code, s₁, hcode, h⟩ := h
  have hs₁ := regular_of_gives hcode hs
  have hbase (ha : s.pool.Busy a) (hindex : slot.offset = some (.stored a) →
      (slot.withOffset none).address = some a) :
      s.pool.Busy a ∧ ¬ slot.Holds a ∨ (slot.withOffset none).address = some a := by
    by_cases hslot : slot.Holds a
    · exact .inr (hslot.elim id hindex)
    · exact .inl ⟨ha, hslot⟩
  split at h
  · next index ho =>
    split at h
    · simp only [gives_bind, gives_pure] at h
      obtain ⟨_, s₂, hrelease, rfl, rfl⟩ := h
      refine ⟨rfl, fun ha => ?_⟩
      obtain ⟨ha, hne⟩ := release_busy hs₁ hrelease ha
      exact hbase (assign_busy hs hcode ha) fun h => absurd (by simpa [ho] using h) hne
    · next hsame =>
      obtain ⟨rfl, rfl⟩ := gives_pure.mp h
      refine ⟨rfl, fun ha => hbase (assign_busy hs hcode ha) fun h => ?_⟩
      simp_all
  · next ho =>
    obtain ⟨rfl, rfl⟩ := gives_pure.mp h
    exact ⟨rfl, fun ha => hbase (assign_busy hs hcode ha) fun h => absurd h (ho a)⟩

theorem own_busy (hs : s.Regular) (hslot : s.ground.Suits slot) (h : Gives (own slot) f s v t) :
    s.ground.Suits v.slot ∧ v.slot.offset = none ∧
      (t.pool.Busy a → s.pool.Busy a ∧ ¬ slot.Holds a ∨ v.slot.address = some a) := by
  unfold own at h
  split at h
  · simp at h
  · simp only [isTemp, gives_bind, gives_get, gives_pure] at h
    obtain ⟨temp, s₁, ⟨_, _, ⟨rfl, rfl⟩, rfl, rfl⟩, h⟩ := h
    split at h
    · obtain ⟨hplain, hbusy⟩ := copyToScratch_busy hs h
      exact ⟨.of_isPlain _ hplain, Slot.offset_of_isPlain hplain, hbusy⟩
    split at h
    · next ho =>
      obtain ⟨rfl, rfl⟩ := gives_pure.mp h
      rw [Option.isNone_iff_eq_none] at ho
      exact ⟨hslot, ho, busy_or_address ho⟩
    · obtain ⟨hv, hbusy⟩ := loadInPlace_busy hs h
      exact ⟨hv ▸ hslot.congr rfl rfl, hv ▸ rfl, hbusy⟩

theorem flatten_releaseOperand_busy {u w : Scope} {x y : Unit} (hs : s.Regular)
    (hflat : Gives (flatten slot) f s flat t) (hrelease : Gives flat.release f t x u)
    (hoperand : Gives (releaseOperand slot) f u y w) (ha : w.pool.Busy a) :
    s.pool.Busy a ∧ ¬ slot.Holds a := by
  have ht := regular_of_gives hflat hs
  obtain ⟨ha, hnot⟩ := releaseOperand_busy (regular_of_gives hrelease ht) hoperand ha
  exact ⟨flatten_release_busy flattens_flatten hs ht hflat hrelease ha, hnot⟩

theorem update_busy (hs : s.Regular) {dest value : Slot} (hvalue : s.ground.Suits value)
    (h : Gives (update op dest value) f s code t) (ha : t.pool.Busy a) :
    s.pool.Busy a ∧ ¬ value.Holds a := by
  unfold update at h
  split at h
  · next hone =>
    obtain ⟨-, rfl⟩ := gives_pure.mp h
    simp only [Slot.isValue, Bool.and_eq_true] at hone
    exact ⟨ha, hvalue.not_holds hone.2.1⟩
  · simp only [gives_bind, gives_pure] at h
    obtain ⟨flat, s₁, hflat, _, s₂, hrelease, _, s₃, hoperand, -, rfl⟩ := h
    exact flatten_releaseOperand_busy hs hflat hrelease hoperand ha

theorem plainIndex_busy (hs : s.Regular) (hslot : s.ground.Suits slot)
    (h : Gives (plainIndex slot) f s v t) :
    s.ground.Suits v.slot ∧ v.slot.offset = none ∧
      (t.pool.Busy a → s.pool.Busy a ∧ ¬ slot.Holds a ∨ v.slot.address = some a) := by
  unfold plainIndex at h
  split at h
  · next hplain =>
    obtain ⟨rfl, rfl⟩ := gives_pure.mp h
    have ho := Slot.offset_of_isPlain hplain
    exact ⟨hslot, ho, busy_or_address ho⟩
  · exact own_busy hs hslot h

theorem intoBase_busy (hs : s.Regular) (hslot : s.ground.Suits slot) (h : Gives (intoBase slot) f s v t) :
    s.ground.Suits v.slot ∧
      (t.pool.Busy a → s.pool.Busy a ∧ ¬ slot.Holds a ∨ v.slot.address = some a) := by
  unfold intoBase at h
  split at h
  · next ho =>
    obtain ⟨rfl, rfl⟩ := gives_pure.mp h
    exact ⟨hslot, busy_or_address (Option.isNone_iff_eq_none.mp ho)⟩
  · simp only [gives_bind, gives_pure] at h
    obtain ⟨flat, s₁, hflat, _, s₂, hoperand, rfl, rfl⟩ := h
    obtain ⟨hsuits, hbusy⟩ := flattens_flatten hs hflat
    refine ⟨(hsuits hslot).congr rfl rfl, fun ha => ?_⟩
    obtain ⟨ha, hnot⟩ := releaseOperand_busy (regular_of_gives hflat hs) hoperand ha
    rcases hbusy ha with ha | ha
    · exact .inl ⟨ha, hnot⟩
    · exact .inr ha.2

theorem shiftedIndex_busy (hs : s.Regular) (hslot : s.ground.Suits slot) {word : Word}
    (h : Gives (shiftedIndex op slot word) f s v t) :
    s.ground.Suits v.slot ∧ v.slot.offset = none ∧
      (t.pool.Busy a → s.pool.Busy a ∧ ¬ slot.Holds a ∨ v.slot.address = some a) := by
  simp only [shiftedIndex, gives_bind, gives_pure] at h
  obtain ⟨place, s₁, hplace, changed, s₂, hchanged, rfl, rfl⟩ := h
  obtain ⟨hsuits, hoffset, hbusy⟩ := own_busy (a := a) hs hslot hplace
  refine ⟨hsuits, hoffset, fun ha => hbusy ?_⟩
  exact (update_busy (regular_of_gives hplace hs) (.of_constant _ rfl rfl) hchanged ha).1

theorem scaledIndex_busy (hs : s.Regular) (hslot : s.ground.Suits slot) {stride : Word}
    (h : Gives (scaledIndex stride slot) f s v t) :
    s.ground.Suits v.slot ∧ v.slot.offset = none ∧
      (t.pool.Busy a → s.pool.Busy a ∧ ¬ slot.Holds a ∨ v.slot.address = some a) := by
  unfold scaledIndex at h
  split at h
  · exact plainIndex_busy hs hslot h
  · exact shiftedIndex_busy hs hslot h

theorem advancedIndex_busy (hs : s.Regular) (hslot : s.ground.Suits slot) (ho : slot.offset = none)
    {distance : Word} (h : Gives (advancedIndex distance slot) f s v t) :
    t.pool.Busy a → s.pool.Busy a ∧ ¬ slot.Holds a ∨ v.slot.address = some a := by
  unfold advancedIndex at h
  split at h
  · obtain ⟨rfl, rfl⟩ := gives_pure.mp h
    exact busy_or_address ho
  · exact (shiftedIndex_busy hs hslot h).2.2

end Lower

end Flatword
