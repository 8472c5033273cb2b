import Flatword.Proofs.Lookups
import Flatword.Proofs.Registers

/-!
# Register balance

Every register that lowering takes is held by the slot it gives or has been released, with one exception: a
value is not released when it lies at the address of the slot that is kept, and then a register that holds
its index stays in use. `Expr.Strands` says that this happens inside an expression.
-/

namespace Flatword

/-- A value is not released beside what is kept, although the register at `a` holds its index. -/
def Scope.Leaves (s : Scope) (kept value : Slot) (a : Nat) : Prop :=
  value.address = kept.address ∧ value.offset = some (.stored a) ∧ s.pool.Busy a ∧ ¬ kept.Holds a

namespace Lower

variable {index : Lower Lowered} {member struct name : String} {offset : Offset} {code : Code}
  {header slot x : Slot} {item : ArrayItem} {leftSide : Bool} {op : BinaryOp} {path : List Step}
  {o u s t : Scope} {v : Lowered} {α β : Type} {f g : Frame} {a : Nat}

theorem releaseBeside_busy (hs : s.Regular) {kept value : Slot} {x : Unit}
    (hkept : ¬ s.Leaves kept value a) (h : Gives (releaseBeside kept value) f s x t)
    (ha : t.pool.Busy a) : s.pool.Busy a ∧ (value.Holds a → kept.Holds a) := by
  unfold releaseBeside at h
  split at h
  · obtain ⟨ha, hnot⟩ := releaseOperand_busy hs h ha
    exact ⟨ha, fun hv => absurd hv hnot⟩
  · next hsame =>
    obtain ⟨-, rfl⟩ := gives_pure.mp h
    have hsame : value.address = kept.address := by simpa using hsame
    refine ⟨ha, fun hv => ?_⟩
    rcases hv with hv | hv
    · exact .inl (hsame ▸ hv)
    · by_contra hnot
      exact hkept ⟨hsame, hv, ha, hnot⟩

/-- A step succeeds, and `P` holds of what it gives and of the scope that it leads to. -/
abbrev After (m : Lower α) (f : Frame) (s : Scope) (P : α → Scope → Prop) : Prop :=
  ∃ a t, Gives m f s a t ∧ P a t

/-! ## Balanced steps -/

/-- While a sentence is lowered from the frame `g` and the scope `o`, parts of it are lowered from frames and
scopes on the way. -/
structure Meets (g : Frame) (o : Scope) (f : Frame) (s : Scope) : Prop where
  frame : { f with leftSide := true } = { g with leftSide := true }
  leads : o.Leads s

theorem Meets.after {m : Lower α} [Orderly m] {x : α} (h : Meets g o f s) (hm : Gives m f s x t) :
    Meets g o f t :=
  ⟨h.frame, h.leads.trans (leads_of_gives hm)⟩

theorem Meets.onSide (h : Meets g o f s) (leftSide : Bool) : Meets g o { f with leftSide } s :=
  ⟨h.frame, h.leads⟩

/-- If the register at `a` is in use afterwards, it was in use before or is held by the value. -/
def Balanced (a : Nat) (g : Frame) (o : Scope) (m : Lower Lowered) : Prop :=
  ∀ ⦃f s⦄, Meets g o f s → s.Regular → ∀ ⦃v t⦄, Gives m f s v t →
    s.ground.Suits v.slot ∧ (t.pool.Busy a → s.pool.Busy a ∨ v.slot.Holds a)

/-- If the register at `a` is in use after a condition, it was in use before. -/
def Settled (a : Nat) (g : Frame) (o : Scope) (m : Lower Code) : Prop :=
  ∀ ⦃f s⦄, Meets g o f s → s.Regular → ∀ ⦃code t⦄, Gives m f s code t → t.pool.Busy a → s.pool.Busy a

/-! ## Paths -/

namespace IndexSum

variable {stride : Word} {sum sum' : IndexSum}

/-- The register that holds the computed part of a sum. -/
def Holds (sum : IndexSum) (a : Nat) : Prop :=
  ∃ x ∈ sum.stored, x.address = some a

/-- The computed part of a sum is in a place that can serve as an index. -/
def Suits (g : Ground) (sum : IndexSum) : Prop :=
  ∀ x ∈ sum.stored, g.Suits x ∧ x.offset = none

theorem busy_or_holds (sum : IndexSum) (ha : s.pool.Busy a) :
    s.pool.Busy a ∧ ¬ sum.Holds a ∨ sum.Holds a := by
  by_cases h : sum.Holds a
  · exact .inr h
  · exact .inl ⟨ha, h⟩

theorem addStored_busy (hs : s.Regular) {index : Slot} (hsum : sum.Suits s.ground)
    (hindex : s.ground.Suits index) (h : Gives (sum.addStored stride index) f s sum' t) :
    sum'.Suits s.ground ∧
      (t.pool.Busy a → s.pool.Busy a ∧ ¬ index.Holds a ∧ ¬ sum.Holds a ∨ sum'.Holds a) := by
  simp only [addStored, gives_bind] at h
  obtain ⟨term, s₁, hscaled, h⟩ := h
  obtain ⟨hterm, hoffset, hbusy⟩ := scaledIndex_busy (a := a) hs hindex hscaled
  have hs₁ := regular_of_gives hscaled hs
  have hground := (leads_of_gives hscaled).ground
  split at h
  · next hnone =>
    obtain ⟨rfl, rfl⟩ := gives_pure.mp h
    refine ⟨by simpa [Suits] using ⟨hterm, hoffset⟩, fun ha => ?_⟩
    rcases hbusy ha with ⟨ha, hnot⟩ | ha
    · exact .inl ⟨ha, hnot, by simp [Holds, hnone]⟩
    · exact .inr ⟨term.slot, rfl, ha⟩
  · next total hsome =>
    simp only [gives_bind, gives_pure] at h
    obtain ⟨total', s₂, htotal, added, s₃, hadded, rfl, rfl⟩ := h
    obtain ⟨hsuits, hoff⟩ := hsum total hsome
    obtain ⟨hsuits', hoff', hbusy'⟩ := own_busy (a := a) hs₁ (hground ▸ hsuits) htotal
    have hground₂ := (leads_of_gives htotal).ground.trans hground
    refine ⟨by simpa [Suits] using ⟨hground ▸ hsuits', hoff'⟩, fun ha => ?_⟩
    obtain ⟨ha, hterm'⟩ := update_busy (regular_of_gives htotal hs₁) (hground₂ ▸ hterm) hadded ha
    rcases hbusy' ha with ⟨ha, hnot⟩ | ha
    · rcases hbusy ha with ⟨ha, hindex⟩ | ha
      · refine .inl ⟨ha, hindex, ?_⟩
        rintro ⟨x, hx, hxa⟩
        rw [hsome, Option.mem_some_iff] at hx
        exact hnot (.inl (hx ▸ hxa))
      · exact absurd (.inl ha) hterm'
    · exact .inr ⟨total'.slot, rfl, ha⟩

theorem addIndex_busy (ho : Meets g o f s) (hs : s.Regular) {dimension stride : Word}
    {index : Lower Lowered} [Orderly index] (hindex : Balanced a g o index) (hsum : sum.Suits s.ground)
    (h : Gives (sum.addIndex dimension stride index) f s sum' t) :
    sum'.Suits s.ground ∧
      (t.pool.Busy a → s.pool.Busy a ∧ ¬ sum.Holds a ∨ sum'.Holds a) := by
  obtain ⟨v, s₁, hv, h⟩ := gives_bind.mp h
  obtain ⟨hsuits, hbusy⟩ := hindex ho hs hv
  have hleads := leads_of_gives hv
  split at h
  · next hc =>
    simp only [constantWord, gives_bind, gives_orFail] at h
    obtain ⟨value, _, ⟨-, rfl⟩, h⟩ := h
    split at h
    · simp at h
    · obtain ⟨rfl, rfl⟩ := gives_pure.mp h
      exact ⟨hsum, fun ha => busy_or_holds sum ((hbusy ha).resolve_right (hsuits.not_holds hc))⟩
  · obtain ⟨hsum', hbusy'⟩ := addStored_busy (a := a) (hleads.regular hs)
      (hleads.ground ▸ hsum) (hleads.ground ▸ hsuits) h
    refine ⟨hleads.ground ▸ hsum', fun ha => ?_⟩
    rcases hbusy' ha with ⟨ha, hnot, hsum⟩ | ha
    · exact .inl ⟨(hbusy ha).resolve_right hnot, hsum⟩
    · exact .inr ha

theorem addIndexes_busy (ho : Meets g o f s) (hs : s.Regular) {dimensions strides : List Word}
    {indexes : List (Lower Lowered)} (horderly : ∀ index ∈ indexes, Orderly index)
    (hindexes : ∀ index ∈ indexes, Balanced a g o index)
    (hsum : sum.Suits s.ground) (h : Gives (sum.addIndexes dimensions strides indexes) f s sum' t) :
    sum'.Suits s.ground ∧
      (t.pool.Busy a → s.pool.Busy a ∧ ¬ sum.Holds a ∨ sum'.Holds a) := by
  fun_induction IndexSum.addIndexes sum dimensions strides indexes generalizing s with
  | case1 sum dimension dimensions stride strides index indexes ih =>
    obtain ⟨sum₁, s₁, hfirst, h⟩ := gives_bind.mp h
    have := horderly index (by simp)
    obtain ⟨hsum₁, hbusy₁⟩ := addIndex_busy (a := a) ho hs (hindexes index (by simp)) hsum hfirst
    have hleads := leads_of_gives hfirst
    obtain ⟨hsum', hbusy'⟩ := ih sum₁ (ho.after hfirst) (hleads.regular hs)
      (fun i hi => horderly i (by simp [hi])) (fun i hi => hindexes i (by simp [hi])) (hleads.ground ▸ hsum₁) h
    refine ⟨hleads.ground ▸ hsum', fun ha => ?_⟩
    rcases hbusy' ha with ⟨ha, hnot⟩ | ha
    · exact .inl ((hbusy₁ ha).resolve_right hnot)
    · exact .inr ha
  | case2 =>
    obtain ⟨rfl, rfl⟩ := gives_pure.mp h
    exact ⟨hsum, busy_or_holds _⟩

end IndexSum

theorem computedCell_busy (hs : s.Regular) {header index : Slot} {distance : Word}
    (hindex : s.ground.Suits index) (ho : index.offset = none)
    (h : Gives (computedCell header item index distance) f s v t) :
    v.slot.kind = header.kind ∧ v.slot.address = header.address ∧
      (t.pool.Busy a → s.pool.Busy a ∧ ¬ index.Holds a ∨ v.slot.offset = some (.stored a)) := by
  simp only [computedCell, gives_bind, gives_orFail, gives_pure] at h
  obtain ⟨total, s₁, htotal, address, _, ⟨haddress, rfl⟩, rfl, rfl⟩ := h
  refine ⟨rfl, rfl, fun ha => ?_⟩
  rcases advancedIndex_busy hs hindex ho htotal ha with ha | ha
  · exact .inl ha
  · exact .inr (by simpa [haddress] using ha)

theorem summedCell_busy (hs : s.Regular) {strides : List Word} {sum : IndexSum}
    (hheader : s.ground.Suits header) (hsum : sum.Suits s.ground)
    (h : Gives (summedCell leftSide header item strides sum) f s v t) :
    s.ground.Suits v.slot ∧
      (t.pool.Busy a → s.pool.Busy a ∧ ¬ sum.Holds a ∨ v.slot.offset = some (.stored a)) := by
  unfold summedCell at h
  split at h <;> simp only [gives_bind, gives_pure] at h
  · next hnone =>
    obtain ⟨x, s₁, hcell, rfl, rfl⟩ := h
    obtain ⟨hknows, hnotes⟩ := knownCell_notes hcell
    refine ⟨hs.suits hknows, fun ha => .inl ⟨hnotes.pool ▸ ha, ?_⟩⟩
    simp [IndexSum.Holds, hnone]
  · next index hsome =>
    obtain ⟨x, s₁, hcell, rfl, rfl⟩ := h
    obtain ⟨hindex, ho⟩ := hsum index hsome
    obtain ⟨hkind, haddress, hbusy⟩ := computedCell_busy (a := a) hs hindex ho hcell
    refine ⟨hheader.congr hkind haddress, fun ha => ?_⟩
    rcases hbusy ha with ⟨ha, hnot⟩ | ha
    · refine .inl ⟨ha, ?_⟩
      rintro ⟨y, hy, hya⟩
      rw [hsome, Option.mem_some_iff] at hy
      exact hnot (.inl (hy ▸ hya))
    · exact .inr ha

theorem indexArray_busy (ho : Meets g o f s) (hs : s.Regular) {indexes : List (Lower Lowered)}
    (horderly : ∀ index ∈ indexes, Orderly index) (hindexes : ∀ index ∈ indexes, Balanced a g o index)
    (hheader : s.ground.Suits header) {cell : Lowered} {taken : Nat}
    (h : Gives (indexArray leftSide header indexes) f s (cell, taken) t) :
    s.ground.Suits cell.slot ∧
      (t.pool.Busy a → s.pool.Busy a ∨ cell.slot.offset = some (.stored a)) := by
  simp only [indexArray, gives_bind, gives_get, gives_orFail] at h
  obtain ⟨_, _, ⟨rfl, rfl⟩, shape, _, ⟨-, rfl⟩, item, _, ⟨-, rfl⟩, h⟩ := h
  split at h
  · simp at h
  simp only [gives_bind, gives_pure] at h
  obtain ⟨sum, s₁, hsum, v, s₂, hcell, heq, rfl⟩ := h
  obtain ⟨rfl, -⟩ := Prod.mk.inj heq
  obtain ⟨hsuits, hbusy⟩ := IndexSum.addIndexes_busy (a := a) ho hs horderly hindexes
    (by simp [IndexSum.Suits]) hsum
  have := orderly_addIndexes horderly {} shape.dimensions shape.strides
  have hleads := leads_of_gives hsum
  obtain ⟨hsuitsCell, hbusyCell⟩ := summedCell_busy (a := a) (hleads.regular hs)
    (hleads.ground ▸ hheader) (hleads.ground ▸ hsuits) hcell
  refine ⟨hleads.ground ▸ hsuitsCell, fun ha => ?_⟩
  rcases hbusyCell ha with ⟨ha, hnot⟩ | ha
  · exact .inl ((hbusy ha).resolve_right hnot).1
  · exact .inr ha

theorem indexPointer_busy (ho : Meets g o f s) (hs : s.Regular) [Orderly index]
    (hindex : Balanced a g o index) (hslot : s.ground.Suits slot) (h : Gives (indexPointer slot index) f s v t) :
    s.ground.Suits v.slot ∧ v.slot.offset ≠ none ∧
      (t.pool.Busy a → s.pool.Busy a ∧ ¬ slot.Holds a ∨ v.slot.Holds a) := by
  unfold indexPointer at h
  dsimp only at h
  split at h
  · exact absurd h (by simp)
  obtain ⟨base, s₁, hbase, h⟩ := gives_bind.mp h
  obtain ⟨hsuits, hbusy⟩ := intoBase_busy (a := a) hs hslot hbase
  have hleads₁ := leads_of_gives hbase
  have hs₁ := hleads₁.regular hs
  obtain ⟨i, s₂, hi, h⟩ := gives_bind.mp h
  obtain ⟨hsuitsI, hbusyI⟩ := hindex (ho.after hbase) hs₁ hi
  have hleads₂ := leads_of_gives hi
  split at h
  · next hc =>
    simp only [constantWord, gives_bind, gives_orFail, gives_pure] at h
    obtain ⟨value, _, ⟨-, rfl⟩, rfl, rfl⟩ := h
    refine ⟨hsuits.congr rfl rfl, by simp, fun ha => ?_⟩
    rcases hbusy ((hbusyI ha).resolve_right (hsuitsI.not_holds hc)) with ha | ha
    · exact .inl ha
    · exact .inr (.inl ha)
  · simp only [gives_bind, gives_orFail, gives_pure] at h
    obtain ⟨plain, s₃, hplain, address, _, ⟨haddress, rfl⟩, rfl, rfl⟩ := h
    obtain ⟨-, -, hbusyP⟩ := plainIndex_busy (a := a) (hleads₂.regular hs₁)
      (hleads₂.ground ▸ hsuitsI) hplain
    refine ⟨hsuits.congr rfl rfl, by simp, fun ha => ?_⟩
    rcases hbusyP ha with ⟨ha, hnot⟩ | ha
    · rcases hbusy ((hbusyI ha).resolve_right hnot) with ha | ha
      · exact .inl ha
      · exact .inr (.inl ha)
    · exact .inr (.inr (by simpa [haddress] using ha))

theorem wordMember_same {x : Nat × Slot} (h : Gives (wordMember struct member) f s x t) : s = t := by
  simp only [wordMember, gives_bind, gives_get, gives_orFail] at h
  obtain ⟨_, _, ⟨rfl, rfl⟩, shape, _, ⟨-, rfl⟩, found, _, ⟨-, rfl⟩, h⟩ := h
  split at h
  · simp at h
  · exact (gives_pure.mp h).2

theorem memberOfCell_busy (hs : s.Regular) {cell : Slot} {index : Nat} (hcell : s.ground.Suits cell)
    (ho : cell.offset = some (.stored index))
    (h : Gives (memberOfCell cell struct index member) f s v t) :
    s.ground.Suits v.slot ∧ v.slot.offset ≠ none ∧
      (t.pool.Busy a → s.pool.Busy a ∧ ¬ cell.Holds a ∨ v.slot.Holds a) := by
  simp only [memberOfCell, gives_bind] at h
  obtain ⟨⟨distance, template⟩, s₁, hmember, slot, s₂, hat, h⟩ := h
  obtain rfl := wordMember_same hmember
  obtain ⟨hknows, hnotes⟩ := lookupAt_notes hat
  have haddress := (lookupAt_found hat).1
  have hkeep (ha : s.pool.Busy a) (hne : some index ≠ some a) (x : Slot)
      (hx : x.address = cell.address) : s.pool.Busy a ∧ ¬ cell.Holds a ∨ x.Holds a := by
    by_cases hc : cell.address = some a
    · exact .inr (.inl (hx.trans hc))
    · exact .inl ⟨ha, by rw [Slot.Holds, ho]; simp_all⟩
  split at h
  · obtain ⟨rfl, rfl⟩ := gives_pure.mp h
    refine ⟨hcell.congr rfl rfl, by simp, fun ha => ?_⟩
    by_cases hi : some index = some a
    · exact .inr (.inr (by simpa using hi))
    · exact hkeep (hnotes.pool ▸ ha) hi _ rfl
  · simp only [gives_bind, gives_orFail, gives_pure] at h
    obtain ⟨total, s₃, htotal, address, _, ⟨htotalAddress, rfl⟩, rfl, rfl⟩ := h
    refine ⟨hcell.congr rfl rfl, by simp, fun ha => ?_⟩
    have hs₂ := hnotes.regular hs
    obtain ⟨-, -, hbusy⟩ := shiftedIndex_busy (a := a) hs₂
      (hnotes.ground ▸ hs.suits hknows) htotal
    rcases hbusy ha with ⟨ha, hnot⟩ | ha
    · exact hkeep (hnotes.pool ▸ ha) (fun hi => hnot (.inl (haddress.trans hi))) _ rfl
    · exact .inr (.inr (by simpa [htotalAddress] using ha))

/-! A place on a path that has no offset is a slot of the table, so nothing is held there. -/

/-- What a place on a path holds beyond the registers in use at the start. -/
def Reached (a : Nat) (s t : Scope) (slot : Slot) : Prop :=
  s.ground.Suits slot ∧
    (t.pool.Busy a → s.pool.Busy a ∨ slot.offset ≠ none ∧ slot.Holds a)

theorem Reached.known (hs : s.Regular) (hx : s.Knows x) (ht : t.pool.Busy a → s.pool.Busy a) :
    Reached a s t x :=
  ⟨hs.suits hx, fun ha => .inl (ht ha)⟩

theorem Reached.busy (h : Reached a s t slot) (ho : slot.offset = none) (ha : t.pool.Busy a) :
    s.pool.Busy a :=
  (h.2 ha).resolve_right fun hh => hh.1 ho

theorem Reached.step {slot slot' : Slot} (h : Reached a s t slot) (hsuits : s.ground.Suits slot')
    (ho : slot'.offset ≠ none) (hbusy : u.pool.Busy a → t.pool.Busy a ∧ ¬ slot.Holds a ∨ slot'.Holds a) :
    Reached a s u slot' := by
  refine ⟨hsuits, fun ha => ?_⟩
  rcases hbusy ha with ⟨ha, hnot⟩ | ha
  · exact .inl ((h.2 ha).resolve_right fun hh => hnot hh.2)
  · exact .inr ⟨ho, ha⟩

theorem memberOf_reached (hs : s.Regular) (ht : t.Regular) (hg : t.ground = s.ground)
    (hslot : Reached a s t slot) (h : Gives (memberOf leftSide slot member) f t v u) :
    Reached a s u v.slot := by
  unfold memberOf at h
  split at h
  · next hk ho =>
    simp only [gives_bind, gives_onSide, gives_orFail, gives_pure] at h
    obtain ⟨found, _, hfound, x, _, ⟨rfl, rfl⟩, rfl, rfl⟩ := h
    obtain ⟨hknows, hnotes⟩ := lookupAsm?_notes hfound
    refine .known hs ?_ fun ha => hslot.busy ho (hnotes.pool ▸ ha)
    exact (hknows x rfl).congr hg.symm
  · next index item hk ho hi =>
    split at h
    · obtain ⟨hsuits, hoffset, hbusy⟩ := memberOfCell_busy (a := a) ht (hg ▸ hslot.1) ho h
      exact hslot.step (hg ▸ hsuits) hoffset hbusy
    · simp at h
  · simp at h

theorem arrowMember_reached (ht : t.Regular) (hg : t.ground = s.ground) (hslot : Reached a s t slot)
    (h : Gives (arrowMember slot member) f t v u) : Reached a s u v.slot := by
  unfold arrowMember at h
  dsimp only at h
  split at h
  · simp at h
  simp only [gives_bind, gives_pure] at h
  obtain ⟨⟨distance, template⟩, t₁, hmember, base, t₂, hbase, rfl, rfl⟩ := h
  obtain rfl := wordMember_same hmember
  obtain ⟨hsuits, -⟩ := intoBase_busy (a := a) ht (hg ▸ hslot.1) hbase
  refine hslot.step ((hg ▸ hsuits).congr rfl rfl) (by simp) fun ha => ?_
  rcases (intoBase_busy ht (hg ▸ hslot.1) hbase).2 ha with ha | ha
  · exact .inl ha
  · exact .inr (.inl ha)

theorem mem_of_mem_leadingIndexes (h : index ∈ leadingIndexes path) : Step.index index ∈ path := by
  fun_induction leadingIndexes path <;> simp_all
  grind

theorem followAfter_reached {skip : Nat} {here v : Lowered} (horderly : ∀ step ∈ path, step.Orderly)
    (hpath : ∀ index, Step.index index ∈ path → Balanced a g o index) (hs : s.Regular)
    (ho : Meets g o f t) (hleads : s.Leads t) (hhere : Reached a s t here.slot)
    (h : Gives (followAfter leftSide skip here path) f t v u) : Reached a s u v.slot := by
  induction path generalizing skip here t with
  | nil =>
    cases skip <;> (obtain ⟨rfl, rfl⟩ := gives_pure.mp h; exact hhere)
  | cons step rest ih =>
    have hrest : ∀ step ∈ rest, step.Orderly := fun step hstep => horderly step (by simp [hstep])
    have ih {t : Scope} {skip : Nat} {here : Lowered} :=
      @ih t skip here hrest fun index hindex => hpath index (by simp [hindex])
    have ht := hleads.regular hs
    have hg := hleads.ground
    cases skip with
    | succ skip => exact ih ho hleads hhere h
    | zero =>
      cases step with
      | index value =>
        have := (horderly (.index value) (by simp)).index rfl
        unfold followAfter at h
        dsimp only at h
        split at h
        · next harray =>
          obtain ⟨⟨cell, taken⟩, t₁, hcell, h⟩ := gives_bind.mp h
          have hmem {index : Lower Lowered} (h : index ∈ value :: leadingIndexes rest) :
              .index index ∈ .index value :: rest := mem_of_mem_leadingIndexes h
          have hindexes : ∀ index ∈ value :: leadingIndexes rest, Orderly index := fun index hindex =>
            (horderly _ (hmem hindex)).index rfl
          have := orderly_indexArray hindexes leftSide here.slot
          have hcellBusy := indexArray_busy (a := a) ho ht hindexes
            (fun index hindex => hpath index (hmem hindex)) (hg ▸ hhere.1) hcell
          refine ih (ho.after hcell) (hleads.trans (leads_of_gives hcell)) ?_ h
          refine ⟨hg ▸ hcellBusy.1, fun ha => ?_⟩
          rcases hcellBusy.2 ha with ha | ha
          · exact .inl (hhere.busy (Option.isNone_iff_eq_none.mp harray.2) ha)
          · exact .inr ⟨by simp [ha], .inr ha⟩
        · obtain ⟨cell, t₁, hcell, h⟩ := gives_bind.mp h
          obtain ⟨hsuits, hoffset, hbusy⟩ := indexPointer_busy ho ht (hpath value (by simp))
            (hg ▸ hhere.1) hcell
          refine ih (ho.after hcell) (hleads.trans (leads_of_gives hcell)) ?_ h
          exact hhere.step (hg ▸ hsuits) hoffset hbusy
      | member name =>
        obtain ⟨member, t₁, hmember, h⟩ := gives_bind.mp h
        have hreached := memberOf_reached hs ht hg hhere hmember
        exact ih (ho.after hmember) (hleads.trans (leads_of_gives hmember)) (by exact hreached) h
      | arrow name =>
        obtain ⟨member, t₁, hmember, h⟩ := gives_bind.mp h
        have hreached := arrowMember_reached ht hg hhere hmember
        exact ih (ho.after hmember) (hleads.trans (leads_of_gives hmember)) (by exact hreached) h

/-- A step comes to a place on a path. -/
def Arrives (a : Nat) (g : Frame) (o : Scope) (m : Lower Lowered) : Prop :=
  ∀ ⦃f s⦄, Meets g o f s → s.Regular → ∀ ⦃v t⦄, Gives m f s v t → Reached a s t v.slot

theorem arrives_lowerLookup (horderly : ∀ step ∈ path, step.Orderly)
    (hpath : ∀ index, Step.index index ∈ path → Balanced a g o index) :
    Arrives a g o (lowerLookup name path) := by
  intro f s ho hs v t h
  simp only [lowerLookup, gives_bind, gives_read] at h
  obtain ⟨_, _, ⟨rfl, rfl⟩, slot, s₁, hslot, h⟩ := h
  obtain ⟨hknows, hnotes⟩ := lookup_notes hslot
  have hreached : Reached a s s₁ slot := .known hs hknows fun ha => hnotes.pool ▸ ha
  split at h
  · obtain ⟨rfl, rfl⟩ := gives_pure.mp h
    exact hreached
  · exact followAfter_reached horderly hpath hs ((ho.after hslot).onSide false)
      (leads_of_gives hslot) (by exact hreached) (gives_onSide.mp h)

theorem Arrives.balanced {m : Lower Lowered} (h : Arrives a g o m) : Balanced a g o m := by
  intro f s ho hs v t hm
  obtain ⟨hsuits, hbusy⟩ := h ho hs hm
  exact ⟨hsuits, fun ha => (hbusy ha).imp_right And.right⟩

/-! ## Conditions -/

theorem settled_branchValue {value : Lower Lowered} [Orderly value] (hvalue : Balanced a g o value)
    (b : Branch) : Settled a g o (branchValue value b) := by
  intro f s ho hs code t h ha
  simp only [branchValue, gives_bind, gives_pure] at h
  obtain ⟨v, s₁, hv, flat, s₂, hflat, _, s₃, hrelease, _, s₄, hoperand, -, rfl⟩ := h
  obtain ⟨-, hbusy⟩ := hvalue ho hs hv
  obtain ⟨ha, hnot⟩ := flatten_releaseOperand_busy (regular_of_gives hv hs) hflat hrelease
    hoperand ha
  exact (hbusy ha).resolve_right hnot

theorem settled_branchCompare {op : Comparison} {left right : Lower Lowered} [Orderly left]
    [Orderly right] (hleft : Balanced a g o left) (hright : Balanced a g o right) (b : Branch) :
    Settled a g o (branchCompare op left right b) := by
  intro f s ho hs code t h ha
  simp only [branchCompare, gives_bind] at h
  obtain ⟨l, s₁, hl, r, s₂, hr, flatL, s₃, hflatL, h⟩ := h
  have hs₁ := regular_of_gives hl hs
  have hs₂ := regular_of_gives hr hs₁
  have hbusy (ha : s₂.pool.Busy a) (hnl : ¬ l.slot.Holds a) (hnr : ¬ r.slot.Holds a) :
      s.pool.Busy a :=
    ((hleft ho hs hl).2 (((hright (ho.after hl) hs₁ hr).2 ha).resolve_right hnr)).resolve_right hnl
  have hs₃ := regular_of_gives hflatL hs₂
  split at h <;> simp only [gives_bind, gives_pure] at h
  · obtain ⟨_, s₄, hreleaseL, _, s₅, hoperandL, _, s₆, hoperandR, -, rfl⟩ := h
    have hs₅ := regular_of_gives hoperandL (regular_of_gives hreleaseL hs₃)
    obtain ⟨ha, hnr⟩ := releaseOperand_busy hs₅ hoperandR ha
    obtain ⟨ha, hnl⟩ := flatten_releaseOperand_busy hs₂ hflatL hreleaseL hoperandL ha
    exact hbusy ha hnl hnr
  · obtain ⟨flatR, s₄, hflatR, _, s₅, hreleaseR, _, s₆, hreleaseL, _, s₇, hoperandL, _, s₈,
      hoperandR, -, rfl⟩ := h
    have hs₄ := regular_of_gives hflatR hs₃
    have hs₅ := regular_of_gives hreleaseR hs₄
    have hs₆ := regular_of_gives hreleaseL hs₅
    obtain ⟨ha, hnr⟩ := releaseOperand_busy (regular_of_gives hoperandL hs₆) hoperandR ha
    obtain ⟨ha, hnl⟩ := releaseOperand_busy hs₆ hoperandL ha
    obtain ⟨ha, hnflat⟩ := flatRelease_busy hs₅ hreleaseL ha
    have ha := flatten_release_busy flattens_flatten hs₃ hs₄ hflatR hreleaseR ha
    exact hbusy (((flattens_flatten hs₂ hflatL).2 ha).resolve_right hnflat) hnl hnr

theorem newJump_pool {id : String} (h : Gives newJump f s id t) : t.pool = s.pool := by
  simp only [newJump, gives_bind, gives_get, gives_set, gives_pure] at h
  obtain ⟨_, _, ⟨rfl, rfl⟩, _, _, rfl, -, rfl⟩ := h
  rfl

theorem settled_branchLogical {op : LogicalOp} {left right : Branch → Lower Code}
    [∀ b, Orderly (left b)] [∀ b, Orderly (right b)] (hleft : ∀ b, Settled a g o (left b))
    (hright : ∀ b, Settled a g o (right b)) (b : Branch) :
    Settled a g o (branchLogical op left right b) := by
  intro f s ho hs code t h ha
  obtain ⟨id, s₁, hid, h⟩ := gives_bind.mp h
  have hs₁ := regular_of_gives hid hs
  have hboth {b₁ b₂ : Branch} {join : Code → Code → Code}
      (h : Gives (left b₁ >>= fun c => right b₂ >>= fun d => pure (join c d)) f s₁ code t) :
      s₁.pool.Busy a := by
    simp only [gives_bind, gives_pure] at h
    obtain ⟨first, s₂, hfirst, second, s₃, hsecond, -, rfl⟩ := h
    exact hleft _ (ho.after hid) hs₁ hfirst
      (hright _ ((ho.after hid).after hfirst) (regular_of_gives hfirst hs₁) hsecond ha)
  rw [← newJump_pool hid]
  split at h <;> exact hboth h

theorem balanced_materialize {condition : Branch → Lower Code} [∀ b, Orderly (condition b)]
    (hcondition : ∀ b, Settled a g o (condition b)) : Balanced a g o (materialize condition) := by
  intro f s ho hs v t h
  simp only [materialize, gives_bind, gives_pure] at h
  obtain ⟨id, s₁, hid, code, s₂, hcode, scratch, s₃, htake, one, s₄, hone, rfl, rfl⟩ := h
  have hs₁ := regular_of_gives hid hs
  have hs₂ := regular_of_gives hcode hs₁
  refine ⟨.of_isPlain _ (allocate_isPlain hs₂ htake), fun ha => ?_⟩
  have ha := assign_busy (regular_of_gives htake hs₂) hone ha
  rcases allocate_busy htake ha with ha | ha
  · exact .inl (newJump_pool hid ▸ hcondition _ (ho.after hid) hs₁ hcode ha)
  · exact .inr (.inl ha)

/-! ## Expressions -/

/-- An operand is changed by a value that is not released, so that the register of its index stays in
use. -/
def OperateLeaves (a : Nat) (dest value : Slot) (f : Frame) (s : Scope) : Prop :=
  After (own dest) f s fun temp t => After (flatten value) f t fun flat u =>
    After flat.release f u fun _ v => v.Leaves temp.slot value a

/-- Two operands are combined by changing one of them, and the other one is not released. -/
def CombineLeaves (a : Nat) (op : BinaryOp) (left right : Slot) (f : Frame) (s : Scope) : Prop :=
  ∃ dest value v t, ((dest, value) = (left, right) ∨ (dest, value) = (right, left)) ∧
    Gives (combine op left right) f s v t ∧ Gives (operate op dest value) f s v t ∧
    OperateLeaves a dest value f s

/-- A value is stored and not released. -/
def StoreLeaves (a : Nat) (target value : Slot) (f : Frame) (s : Scope) : Prop :=
  After (assign target value) f s fun _ t => t.Leaves target value a

theorem operate_busy (hs : s.Regular) {dest value : Slot} (hdest : s.ground.Suits dest)
    (hkept : ¬ OperateLeaves a dest value f s) (h : Gives (operate op dest value) f s v t) :
    s.ground.Suits v.slot ∧
      (t.pool.Busy a → s.pool.Busy a ∧ ¬ dest.Holds a ∧ ¬ value.Holds a ∨ v.slot.Holds a) := by
  simp only [operate, gives_bind, gives_pure] at h
  obtain ⟨temp, s₁, htemp, flat, s₂, hflat, _, s₃, hrelease, _, s₄, hbeside, rfl, rfl⟩ := h
  obtain ⟨hsuits, -, hbusy⟩ := own_busy (a := a) hs hdest htemp
  have hs₁ := regular_of_gives htemp hs
  have hs₂ := regular_of_gives hflat hs₁
  refine ⟨hsuits, fun ha => ?_⟩
  obtain ⟨ha, hvalue⟩ := releaseBeside_busy (regular_of_gives hrelease hs₂)
    (fun hleaves => hkept ⟨temp, s₁, htemp, flat, s₂, hflat, _, s₃, hrelease, hleaves⟩) hbeside ha
  have ha := flatten_release_busy flattens_flatten hs₁ hs₂ hflat hrelease ha
  by_cases htemp : temp.slot.Holds a
  · exact .inr htemp
  · rcases hbusy ha with ⟨ha, hnot⟩ | ha
    · exact .inl ⟨ha, hnot, fun hv => htemp (hvalue hv)⟩
    · exact absurd (.inl ha) htemp

theorem combine_busy (hs : s.Regular) {left right : Slot} (hleft : s.ground.Suits left)
    (hright : s.ground.Suits right) (hkept : ¬ CombineLeaves a op left right f s)
    (h : Gives (combine op left right) f s v t) :
    s.ground.Suits v.slot ∧
      (t.pool.Busy a → s.pool.Busy a ∧ ¬ left.Holds a ∧ ¬ right.Holds a ∨ v.slot.Holds a) := by
  obtain ⟨first, second, horder, hcase⟩ := combine_cases h
  have hpair := horder.imp_right And.right
  -- Which operand comes first does not matter for what they hold.
  obtain ⟨hfirst, hsecond, hboth⟩ : s.ground.Suits first ∧ s.ground.Suits second ∧
      (¬ first.Holds a ∧ ¬ second.Holds a → ¬ left.Holds a ∧ ¬ right.Holds a) := by
    rcases hpair with heq | heq <;> cases heq
    · exact ⟨hleft, hright, id⟩
    · exact ⟨hright, hleft, And.symm⟩
  rcases hcase with ⟨hone, hstep⟩ | hoperate
  · simp only [stepOperand, gives_bind, gives_pure] at hstep
    obtain ⟨temp, s₁, htemp, rfl, rfl⟩ := hstep
    obtain ⟨hsuits, -, hbusy⟩ := own_busy (a := a) hs hfirst htemp
    refine ⟨hsuits, fun ha => ?_⟩
    simp only [Slot.isValue, Bool.and_eq_true] at hone
    rcases hbusy ha with ⟨ha, hnot⟩ | ha
    · exact .inl ⟨ha, hboth ⟨hnot, hsecond.not_holds hone.2.1⟩⟩
    · exact .inr (.inl ha)
  · have hleaves : ¬ OperateLeaves a first second f s := fun hleaves =>
      hkept ⟨first, second, v, t, hpair, h, hoperate, hleaves⟩
    obtain ⟨hsuits, hbusy⟩ := operate_busy (a := a) hs hfirst hleaves hoperate
    exact ⟨hsuits, fun ha => (hbusy ha).imp_left fun hh => ⟨hh.1, hboth hh.2⟩⟩

section Values

variable {left right operand value target : Lower Lowered} [Orderly left] [Orderly right]
  [Orderly operand] [Orderly value] [Orderly target]

theorem balanced_lowerBinary (hleft : Balanced a g o left) (hright : Balanced a g o right)
    (hkept : ∀ f s, Meets g o f s → ¬ After left f s fun x u => After right f u fun y v =>
      CombineLeaves a op x.slot y.slot f v) : Balanced a g o (lowerBinary op left right) := by
  intro f s ho hs v t h
  simp only [lowerBinary, gives_bind, gives_pure] at h
  obtain ⟨l, s₁, hl, r, s₂, hr, result, s₃, hresult, rfl, rfl⟩ := h
  have hleads₁ := leads_of_gives hl
  have hs₁ := hleads₁.regular hs
  have hleads₂ := hleads₁.trans (leads_of_gives hr)
  obtain ⟨hsuitsL, hbusyL⟩ := hleft ho hs hl
  obtain ⟨hsuitsR, hbusyR⟩ := hright (ho.after hl) hs₁ hr
  have hcombine := combine_busy (a := a) (hleads₂.regular hs)
    (hleads₂.ground ▸ hsuitsL) (by rw [hleads₂.ground, ← hleads₁.ground]; exact hsuitsR)
    (fun hleaves => hkept f s ho ⟨l, s₁, hl, r, s₂, hr, hleaves⟩) hresult
  refine ⟨hleads₂.ground ▸ hcombine.1, fun ha => ?_⟩
  rcases hcombine.2 ha with ⟨ha, hnl, hnr⟩ | ha
  · exact .inl ((hbusyL ((hbusyR ha).resolve_right hnr)).resolve_right hnl)
  · exact .inr ha

theorem balanced_lowerDiscard (hoperand : Balanced a g o operand) :
    Balanced a g o (lowerDiscard operand) := by
  intro f s ho hs v t h
  simp only [lowerDiscard, gives_bind, gives_pure] at h
  obtain ⟨x, s₁, hx, _, s₂, hrelease, rfl, rfl⟩ := h
  refine ⟨⟨by simp [Slot.void], by simp [Slot.void]⟩, fun ha => .inl ?_⟩
  obtain ⟨ha, hnot⟩ := releaseOperand_busy (regular_of_gives hx hs) hrelease ha
  exact ((hoperand ho hs hx).2 ha).resolve_right hnot

theorem address_mem_of_busy (ha : s.pool.Busy a) : some a ∈ s.ground.registers.map Slot.address := by
  obtain ⟨r, hr, -, hra⟩ := ha
  exact List.mem_map.mpr ⟨r.slot, List.mem_map_of_mem hr, hra⟩

theorem balanced_lowerDeref (hoperand : Balanced a g o operand) :
    Balanced a g o (lowerDeref operand) := by
  intro f s ho hs v t h
  unfold lowerDeref at h
  obtain ⟨⟨slot, code⟩, s₁, hx, h⟩ := gives_bind.mp h
  obtain ⟨hsuits, hbusy⟩ := hoperand ho hs hx
  have hleads := leads_of_gives hx
  have hs₁ := hleads.regular hs
  dsimp only at h hsuits hbusy
  split at h
  · next harray =>
    simp only [gives_bind, gives_pure] at h
    obtain ⟨cell, s₂, hcell, rfl, rfl⟩ := h
    obtain ⟨hknows, hnotes⟩ := slotAt_notes hcell
    refine ⟨hleads.ground ▸ hs₁.suits hknows, fun ha => .inl ?_⟩
    replace ha := hnotes.pool ▸ ha
    -- The header of an array is no register, so it holds none.
    refine (hbusy ha).resolve_right fun hh => hsuits.array harray.1 ?_
    rcases hh with hh | hh
    · rw [hh, ← hleads.ground]
      exact address_mem_of_busy ha
    · simp [Option.isNone_iff_eq_none.mp harray.2] at hh
  · simp only [gives_bind, gives_pure] at h
    obtain ⟨base, s₂, hbase, rfl, rfl⟩ := h
    have hbaseBusy := intoBase_busy (a := a) hs₁ (hleads.ground ▸ hsuits) hbase
    refine ⟨(hleads.ground ▸ hbaseBusy.1).congr rfl rfl, fun ha => ?_⟩
    rcases hbaseBusy.2 ha with ⟨ha, hnot⟩ | ha
    · exact .inl ((hbusy ha).resolve_right hnot)
    · exact .inr (.inl ha)

theorem foldConstant_gives {g : Word → Word} {x v : Lowered}
    (h : Gives (foldConstant g x) f s v t) :
    s = t ∧ v.slot.kind = .constant ∧ v.slot.address = none := by
  simp only [foldConstant, constantWord, gives_bind, gives_orFail, gives_pure] at h
  obtain ⟨value, _, ⟨-, rfl⟩, rfl, rfl⟩ := h
  exact ⟨rfl, rfl, rfl⟩

theorem balanced_lowerComplement (hoperand : Balanced a g o operand) :
    Balanced a g o (lowerComplement operand) := by
  intro f s ho hs v t h
  unfold lowerComplement at h
  obtain ⟨x, s₁, hx, h⟩ := gives_bind.mp h
  obtain ⟨hsuits, hbusy⟩ := hoperand ho hs hx
  have hleads := leads_of_gives hx
  split at h
  · next hc =>
    obtain ⟨rfl, hkind, haddress⟩ := foldConstant_gives h
    exact ⟨.of_constant _ hkind haddress,
      fun ha => .inl ((hbusy ha).resolve_right (hsuits.not_holds hc))⟩
  · simp only [gives_bind, gives_pure] at h
    obtain ⟨temp, s₂, htemp, rfl, rfl⟩ := h
    have hown := own_busy (a := a) (hleads.regular hs) (hleads.ground ▸ hsuits) htemp
    refine ⟨hleads.ground ▸ hown.1, fun ha => ?_⟩
    rcases hown.2.2 ha with ⟨ha, hnot⟩ | ha
    · exact .inl ((hbusy ha).resolve_right hnot)
    · exact .inr (.inl ha)

theorem balanced_lowerNegate (hoperand : Balanced a g o operand) :
    Balanced a g o (lowerNegate operand) := by
  intro f s ho hs v t h
  unfold lowerNegate at h
  obtain ⟨x, s₁, hx, h⟩ := gives_bind.mp h
  obtain ⟨hsuits, hbusy⟩ := hoperand ho hs hx
  have hs₁ := regular_of_gives hx hs
  split at h
  · next hc =>
    obtain ⟨rfl, hkind, haddress⟩ := foldConstant_gives h
    exact ⟨.of_constant _ hkind haddress,
      fun ha => .inl ((hbusy ha).resolve_right (hsuits.not_holds hc))⟩
  · simp only [gives_bind, gives_pure] at h
    obtain ⟨scratch, s₂, htake, flat, s₃, hflat, _, s₄, hrelease, _, s₅, hoperand, rfl, rfl⟩ := h
    refine ⟨.of_isPlain _ (allocate_isPlain hs₁ htake), fun ha => ?_⟩
    obtain ⟨ha, hnot⟩ := flatten_releaseOperand_busy (regular_of_gives htake hs₁) hflat hrelease
      hoperand ha
    rcases allocate_busy htake ha with ha | ha
    · exact .inl ((hbusy ha).resolve_right hnot)
    · exact .inr (.inl ha)

theorem knownAddress_gives (h : Gives (knownAddress slot) f s x t) :
    s = t ∧ x.kind = .constant ∧ x.address = none := by
  simp only [knownAddress, gives_bind, gives_orFail, gives_pure] at h
  obtain ⟨address, _, ⟨-, rfl⟩, rfl, rfl⟩ := h
  exact ⟨rfl, rfl, rfl⟩

theorem offsetSlot?_notes {o : Option Slot} (h : Gives (offsetSlot? offset) f s o t) : s.Notes t := by
  cases offset with
  | known words =>
    obtain ⟨-, rfl⟩ := gives_pure.mp h
    exact .refl s
  | stored index =>
    simp only [offsetSlot?, gives_bind, gives_pure] at h
    obtain ⟨x, _, hx, -, rfl⟩ := h
    exact (lookupAt_notes hx).2

theorem addOffset_busy (hs : s.Regular) {scratch : Slot} {index : Option Slot}
    (h : Gives (addOffset scratch index) f s code t) (ha : t.pool.Busy a) : s.pool.Busy a := by
  cases index with
  | none =>
    obtain ⟨-, rfl⟩ := gives_pure.mp h
    exact ha
  | some index =>
    simp only [addOffset, gives_bind, gives_pure] at h
    obtain ⟨flat, s₁, hflat, _, s₂, hrelease, -, rfl⟩ := h
    exact flatten_release_busy flattens_flatten hs (regular_of_gives hflat hs) hflat hrelease ha

theorem computedAddress_busy (hs : s.Regular) (h : Gives (computedAddress slot offset) f s v t) :
    v.slot.isPlain = true ∧
      (t.pool.Busy a → s.pool.Busy a ∧ ¬ slot.Holds a ∨ v.slot.Holds a) := by
  simp only [computedAddress, gives_bind, gives_pure] at h
  obtain ⟨scratch, s₁, htake, base, s₂, hbase, o, s₃, ho, added, s₄, hadded, _, s₅, hoperand, rfl,
    rfl⟩ := h
  have hs₁ := regular_of_gives htake hs
  have hs₂ := regular_of_gives hbase hs₁
  have hs₃ := regular_of_gives ho hs₂
  obtain ⟨hplain, haddress⟩ := isPlain_typed (allocate_isPlain hs htake) slot.type.pointer
  refine ⟨hplain, fun ha => ?_⟩
  obtain ⟨ha, hnot⟩ := releaseOperand_busy (regular_of_gives hadded hs₃) hoperand ha
  have ha := (offsetSlot?_notes ho).pool ▸ addOffset_busy hs₃ hadded ha
  rcases allocate_busy htake (assign_busy hs₁ hbase ha) with ha | ha
  · exact .inl ⟨ha, hnot⟩
  · exact .inr (.inl (haddress.trans ha))

theorem balanced_lowerAddressOf (hoperand : Arrives a g o operand) :
    Balanced a g o (lowerAddressOf operand) := by
  intro f s ho hs v t h
  unfold lowerAddressOf at h
  obtain ⟨⟨slot, code⟩, s₁, hx, h⟩ := gives_bind.mp h
  have hreached := hoperand ho hs hx
  have hs₁ := regular_of_gives hx hs
  dsimp only at h hreached
  split at h
  · next ho =>
    simp only [gives_bind, gives_pure] at h
    obtain ⟨x, _, hknown, rfl, rfl⟩ := h
    obtain ⟨rfl, hkind, haddress⟩ := knownAddress_gives hknown
    exact ⟨.of_constant _ hkind haddress, fun ha => .inl (hreached.busy ho ha)⟩
  · next offset ho =>
    simp only [gives_bind, gives_pure] at h
    obtain ⟨address, s₂, hcomputed, rfl, rfl⟩ := h
    have hbusy := computedAddress_busy (a := a) hs₁ hcomputed
    refine ⟨.of_isPlain _ hbusy.1, fun ha => ?_⟩
    rcases hbusy.2 ha with ⟨ha, hnot⟩ | ha
    · exact .inl ((hreached.2 ha).resolve_right fun hh => hnot hh.2)
    · exact .inr ha

omit [Orderly target] in
theorem balanced_lowerTarget {namesPlace : Bool} (htarget : Balanced a g o target) :
    Balanced a g o (lowerTarget namesPlace target) := by
  intro f s ho hs v t h
  exact htarget (ho.onSide true) hs (lowerTarget_gives h).2.1

theorem reserveTarget_pool {plain : Bool} {x : Unit} (h : Gives (reserveTarget plain slot) f s x t) :
    t.pool = s.pool := by
  rw [Gives, outcome_reserveTarget] at h
  rw [← (Prod.mk.inj h).2]

theorem storeValue_busy (hs : s.Regular) {slot value : Slot} (hkept : ¬ StoreLeaves a slot value f s)
    (h : Gives (storeValue slot value) f s code t) (ha : t.pool.Busy a) :
    s.pool.Busy a ∧ (value.Holds a → slot.Holds a) := by
  simp only [storeValue, gives_bind, gives_pure] at h
  obtain ⟨assigned, s₁, hassign, _, s₂, hbeside, -, rfl⟩ := h
  obtain ⟨ha, hvalue⟩ := releaseBeside_busy (regular_of_gives hassign hs)
    (fun hleaves => hkept ⟨assigned, s₁, hassign, hleaves⟩) hbeside ha
  exact ⟨assign_busy hs hassign ha, hvalue⟩

theorem updateTarget_busy (hs : s.Regular) {slot value : Slot} (hvalue : s.ground.Suits value)
    (h : Gives (updateTarget op slot value) f s code t) (ha : t.pool.Busy a) :
    s.pool.Busy a ∧ ¬ value.Holds a := by
  unfold updateTarget at h
  split at h
  · exact update_busy hs hvalue h ha
  · simp only [gives_bind, gives_pure] at h
    obtain ⟨scratch, s₁, htake, loaded, s₂, hloaded, changed, s₃, hchanged, stored, s₄, hstored, _,
      s₅, hrelease, -, rfl⟩ := h
    have hs₁ := regular_of_gives htake hs
    have hs₂ := regular_of_gives hloaded hs₁
    have hs₃ := regular_of_gives hchanged hs₂
    have hground := ((leads_of_gives htake).trans (leads_of_gives hloaded)).ground
    obtain ⟨ha, hne⟩ := release_busy (regular_of_gives hstored hs₃) hrelease ha
    obtain ⟨ha, hnot⟩ := update_busy hs₂ (hground ▸ hvalue) hchanged (assign_busy hs₃ hstored ha)
    exact ⟨(allocate_busy htake (assign_busy hs₁ hloaded ha)).resolve_right hne, hnot⟩

theorem balanced_lowerAssign {op : Option BinaryOp} {conflicts : Bool} (htarget : Balanced a g o target)
    (hvalue : Balanced a g o value)
    (hkept : op = none → ∀ f s, Meets g o f s → ¬ After target f s fun place t =>
      After (reserveTarget (!conflicts) place.slot) f t fun _ u => After value f u fun x v =>
        StoreLeaves a place.slot x.slot f v) :
    Balanced a g o (lowerAssign op conflicts target value) := by
  intro f s ho hs v t h
  simp only [lowerAssign, gives_bind] at h
  obtain ⟨place, s₁, hplace, _, s₂, hreserve, x, s₃, hx, h⟩ := h
  have hs₁ := regular_of_gives hplace hs
  have hs₂ := regular_of_gives hreserve hs₁
  have hs₃ := regular_of_gives hx hs₂
  obtain ⟨hsuits, hbusy⟩ := htarget ho hs hplace
  obtain ⟨hsuits', hbusy'⟩ := hvalue ((ho.after hplace).after hreserve) hs₂ hx
  have hstart (ha : s₃.pool.Busy a) (hx : x.slot.Holds a → place.slot.Holds a) :
      s.pool.Busy a ∨ place.slot.Holds a := by
    rcases hbusy' ha with ha | ha
    · exact hbusy (reserveTarget_pool hreserve ▸ ha)
    · exact .inr (hx ha)
  split at h
  · exact absurd h (by simp)
  cases op with
  | none =>
    simp only [gives_bind, gives_pure] at h
    obtain ⟨code, s₄, hcode, rfl, rfl⟩ := h
    refine ⟨hsuits, fun ha => ?_⟩
    obtain ⟨ha, hheld⟩ := storeValue_busy hs₃ (fun hleaves => hkept rfl f s ho
      ⟨place, s₁, hplace, _, s₂, hreserve, x, s₃, hx, hleaves⟩) hcode ha
    exact hstart ha hheld
  | some op =>
    simp only [gives_bind, gives_pure] at h
    obtain ⟨code, s₄, hcode, rfl, rfl⟩ := h
    refine ⟨hsuits, fun ha => ?_⟩
    obtain ⟨ha, hnot⟩ := updateTarget_busy hs₃
      ((leads_of_gives hx).ground ▸ hsuits') hcode ha
    exact hstart ha fun hh => absurd hh hnot

theorem balanced_lowerStep {up before : Bool} (htarget : Balanced a g o target) :
    Balanced a g o (lowerStep up before target) := by
  intro f s ho hs v t h
  unfold lowerStep at h
  obtain ⟨⟨slot, code⟩, s₁, hx, h⟩ := gives_bind.mp h
  obtain ⟨hsuits, hbusy⟩ := htarget ho hs hx
  have hs₁ := regular_of_gives hx hs
  dsimp only at h hsuits hbusy
  split at h
  · split at h
    · obtain ⟨rfl, rfl⟩ := gives_pure.mp h
      exact ⟨hsuits, hbusy⟩
    · simp only [pushPost, gives_bind, gives_modify, gives_pure] at h
      obtain ⟨_, _, rfl, rfl, rfl⟩ := h
      exact ⟨hsuits, hbusy⟩
  · split at h
    · simp at h
    · simp only [gives_bind, gives_pure] at h
      obtain ⟨scratch, s₂, htake, loaded, s₃, hloaded, stored, s₄, hstored, _, s₅, hoperand, rfl,
        rfl⟩ := h
      have hs₂ := regular_of_gives htake hs₁
      have hs₃ := regular_of_gives hloaded hs₂
      refine ⟨.of_isPlain _ (allocate_isPlain hs₁ htake), fun ha => ?_⟩
      obtain ⟨ha, hnot⟩ := releaseOperand_busy (regular_of_gives hstored hs₃) hoperand ha
      rcases allocate_busy htake (assign_busy hs₂ hloaded (assign_busy hs₃ hstored ha)) with ha | ha
      · exact .inl ((hbusy ha).resolve_right hnot)
      · exact .inr (.inl ha)

theorem passArgument_busy (hvalue : Balanced a g o value) (ho : Meets g o f s) (hs : s.Regular)
    (h : Gives (passArgument value name) f s code t) (ha : t.pool.Busy a) : s.pool.Busy a := by
  simp only [passArgument, gives_bind, gives_onSide, gives_orFail, gives_pure] at h
  obtain ⟨x, s₁, hx, found, s₂, hfound, argument, _, ⟨-, rfl⟩, stored, s₃, hstored, _, s₄, hoperand, -, rfl⟩ := h
  have hs₁ := regular_of_gives hx hs
  have hnotes := (lookupAsm?_notes hfound).2
  have hs₂ := hnotes.regular hs₁
  obtain ⟨ha, hnot⟩ := releaseOperand_busy (regular_of_gives hstored hs₂) hoperand ha
  have ha := hnotes.pool ▸ assign_busy hs₂ hstored ha
  exact ((hvalue ho hs hx).2 ha).resolve_right hnot

end Values

theorem passArguments_busy {values : List (Lower Lowered)} {names : List String}
    (horderly : ∀ value ∈ values, Orderly value)
    (hvalues : ∀ value ∈ values, Balanced a g o value) (ho : Meets g o f s)
    (hs : s.Regular) (h : Gives (passArguments values names) f s code t) (ha : t.pool.Busy a) :
    s.pool.Busy a := by
  fun_induction passArguments values names generalizing code t with
  | case1 value values name names ih =>
    simp only [gives_bind, gives_pure] at h
    obtain ⟨later, s₁, hlater, first, s₂, hfirst, -, rfl⟩ := h
    have hrest : ∀ value ∈ values, Orderly value := fun value hv => horderly value (by simp [hv])
    have := horderly value (by simp)
    have := orderly_passArguments hrest names
    have ha := passArgument_busy (hvalues value (by simp)) (ho.after hlater) (regular_of_gives hlater hs)
      hfirst ha
    exact ih hrest (fun value hv => hvalues value (by simp [hv])) hlater ha
  | case2 =>
    obtain ⟨-, rfl⟩ := gives_pure.mp h
    exact ha

theorem fetchResult_busy {type : ValueType} (hs : s.Regular) (h : Gives (fetchResult type) f s v t) :
    s.ground.Suits v.slot ∧ (t.pool.Busy a → s.pool.Busy a ∨ v.slot.Holds a) := by
  unfold fetchResult at h
  split at h
  · obtain ⟨rfl, rfl⟩ := gives_pure.mp h
    exact ⟨⟨by simp [Slot.void], by simp [Slot.void]⟩, .inl⟩
  · simp only [gives_bind, gives_pure] at h
    obtain ⟨result, s₁, htake, rfl, rfl⟩ := h
    obtain ⟨hplain, haddress⟩ := isPlain_typed (allocate_isPlain hs htake) type
    refine ⟨.of_isPlain _ hplain, fun ha => ?_⟩
    exact (allocate_busy htake ha).imp_right fun ha => .inl (haddress.trans ha)

theorem balanced_lowerCall {args : List (Lower Lowered)} (horderly : ∀ arg ∈ args, Orderly arg)
    (hargs : ∀ arg ∈ args, Balanced a g o arg) : Balanced a g o (lowerCall name args) := by
  intro f s ho hs v t h
  simp only [lowerCall, gives_bind, gives_get, gives_orFail] at h
  obtain ⟨_, _, ⟨rfl, rfl⟩, signature, _, ⟨-, rfl⟩, h⟩ := h
  split at h
  · simp at h
  simp only [gives_bind, gives_get, gives_pure] at h
  obtain ⟨passed, s₁, hpassed, _, _, ⟨rfl, rfl⟩, result, s₂, hresult, rfl, rfl⟩ := h
  have := orderly_passArguments horderly signature.arguments
  have hleads := leads_of_gives hpassed
  obtain ⟨hsuits, hbusy⟩ := fetchResult_busy (a := a) (hleads.regular hs) hresult
  refine ⟨hleads.ground ▸ hsuits, fun ha => (hbusy ha).imp_left fun ha => ?_⟩
  exact passArguments_busy horderly hargs ho hs hpassed ha

/-! ## Both ways to lower an expression -/

/-- Neither way leaves the register at `a` in use unless the value holds it. -/
structure Lowering.Balanced (a : Nat) (g : Frame) (o : Scope) (l : Lowering) : Prop where
  value : Lower.Balanced a g o l.value
  branch : ∀ b, Settled a g o (l.branch b)

namespace Lowering.Balanced

theorem ofValue {value : Lower Lowered} [Lower.Orderly value] (h : Lower.Balanced a g o value) :
    (Lowering.ofValue value).Balanced a g o :=
  ⟨h, settled_branchValue h⟩

theorem ofBranch {branch : Branch → Lower Code} [∀ b, Lower.Orderly (branch b)]
    (h : ∀ b, Settled a g o (branch b)) : (Lowering.ofBranch branch).Balanced a g o :=
  ⟨balanced_materialize h, h⟩

theorem ofConstant (hex : String) (fixed : Bool) : (Lowering.ofConstant hex fixed).Balanced a g o := by
  constructor
  · intro f s ho hs v t h
    obtain ⟨rfl, rfl⟩ := gives_pure.mp h
    refine ⟨.of_constant _ ?_ ?_, .inl⟩ <;> split <;> rfl
  · intro b f s ho hs code t h ha
    obtain ⟨-, rfl⟩ := gives_pure.mp h
    exact ha

theorem ofUnary {op : UnaryOp} {isLookup : Bool} {operand : Lowering} [operand.Orderly]
    (h : operand.Balanced a g o) (harrives : isLookup = true → Arrives a g o operand.value) :
    (Lowering.ofUnary op isLookup operand).Balanced a g o := by
  cases op with
  | not => exact ofBranch fun b => h.branch b.swap
  | castVoid => exact ofValue (balanced_lowerDiscard h.value)
  | deref => exact ofValue (balanced_lowerDeref h.value)
  | neg => exact ofValue (balanced_lowerNegate h.value)
  | bitNot => exact ofValue (balanced_lowerComplement h.value)
  | addressOf =>
    refine ofValue ?_
    split
    · next hlookup => exact balanced_lowerAddressOf (harrives hlookup)
    · exact fun f s ho hs v t h => absurd h gives_fail

end Lowering.Balanced

end Lower

namespace Expr

open Lower

variable {a : Nat} {e : Expr} {g : Frame} {o : Scope}

/-- Lowering an operator or a plain assignment leaves out the release of a value, and the register at `a`
stays in use although it holds an index that nothing needs any more. -/
def Leaves (a : Nat) (f : Frame) (s : Scope) : Expr → Prop
  | binary op left right _ => After left.lower f s fun x u => After right.lower f u fun y v =>
    CombineLeaves a op x.slot y.slot f v
  | assign none target value _ => After (lowerTarget target.namesPlace target.lower) f s fun place t =>
    After (reserveTarget (!target.conflicts value) place.slot) f t fun _ u =>
      After value.lower f u fun x v => StoreLeaves a place.slot x.slot f v
  | _ => False

/-- An operator or an assignment inside the expression leaves the register at `a` behind, where it is lowered
from a scope on the way. -/
def Strands (a : Nat) (e : Expr) (g : Frame) (o : Scope) : Prop :=
  ∃ (part : Expr) (f : Frame) (s : Scope), part.Inside e ∧ Meets g o f s ∧ part.Leaves a f s

theorem Strands.of_part {part : Expr} (h : part.Strands a g o) (hpart : part ∈ e.parts) :
    e.Strands a g o := by
  obtain ⟨last, f, s, hinside, hmeets, hleaves⟩ := h
  exact ⟨last, f, s, hinside.tail hpart, hmeets, hleaves⟩

theorem exists_of_mem_argValues {args : List Expr} {value : Lower Lowered} (h : value ∈ argValues args) :
    ∃ arg ∈ args, value = arg.lower := by
  induction args with
  | nil => simp [argValues] at h
  | cons arg rest ih =>
    rw [argValues, List.mem_cons] at h
    rcases h with rfl | h
    · exact ⟨arg, List.mem_cons_self, rfl⟩
    · obtain ⟨arg, harg, rfl⟩ := ih h
      exact ⟨arg, List.mem_cons_of_mem _ harg, rfl⟩

theorem exists_of_mem_pathSteps {path : List Access} {index : Lower Lowered}
    (h : Step.index index ∈ pathSteps path) : ∃ e ∈ path.filterMap Access.index?, index = e.lower := by
  induction path with
  | nil => simp [pathSteps] at h
  | cons access rest ih =>
    cases access with
    | index e =>
      rw [pathSteps, List.mem_cons] at h
      rcases h with h | h
      · exact ⟨e, List.mem_cons_self, Step.index.inj h⟩
      · obtain ⟨e, he, rfl⟩ := ih h
        exact ⟨e, List.mem_cons_of_mem _ he, rfl⟩
    | member | arrow =>
      rw [pathSteps, List.mem_cons] at h
      exact ih (h.resolve_left (by simp))

theorem arrives_of_isLookup (hparts : ∀ part ∈ e.parts, part.lowering.Balanced a g o)
    (he : e.isLookup = true) : Arrives a g o e.lowering.value := by
  cases e with
  | lookup name path =>
    unfold lowering
    refine arrives_lowerLookup (orderly_pathSteps path) fun index hindex => ?_
    obtain ⟨e, hpart, rfl⟩ := exists_of_mem_pathSteps hindex
    exact (hparts e hpart).value
  | _ => simp [isLookup] at he

theorem balanced_parts (e : Expr) (he : ¬ e.Strands a g o) :
    e.lowering.Balanced a g o ∧ ∀ part ∈ e.parts, part.lowering.Balanced a g o := by
  induction e using induction_parts with
  | h e ih =>
    have ih : ∀ part ∈ e.parts, part.lowering.Balanced a g o ∧ _ := fun part hpart =>
      ih part hpart fun h => he (h.of_part hpart)
    have hparts : ∀ part ∈ e.parts, part.lowering.Balanced a g o := fun part hpart => (ih part hpart).1
    have hkept (f : Frame) (s : Scope) (hmeets : Meets g o f s) : ¬ e.Leaves a f s := fun hleaves =>
      he ⟨e, f, s, .refl, hmeets, hleaves⟩
    refine ⟨?_, hparts⟩
    cases e with
    | constant hex fixed =>
      unfold lowering
      exact .ofConstant hex fixed
    | lookup name path =>
      have := orderly_lowerLookup name (orderly_pathSteps path)
      have harrives := arrives_of_isLookup hparts rfl
      unfold lowering at harrives ⊢
      exact .ofValue harrives.balanced
    | call name args =>
      have := orderly_lowerCall name (orderly_argValues args)
      unfold lowering
      refine .ofValue (balanced_lowerCall (orderly_argValues args) fun value hvalue => ?_)
      obtain ⟨arg, hpart, rfl⟩ := exists_of_mem_argValues hvalue
      exact (hparts arg hpart).value
    | unary op operand =>
      unfold lowering
      obtain ⟨hoperand, hinner⟩ := ih operand (by simp [parts])
      exact .ofUnary hoperand (arrives_of_isLookup hinner)
    | binary op left right =>
      unfold lowering
      exact .ofValue (balanced_lowerBinary (hparts left (by simp [parts])).value
        (hparts right (by simp [parts])).value hkept)
    | compare op left right =>
      unfold lowering
      exact .ofBranch (settled_branchCompare (hparts left (by simp [parts])).value
        (hparts right (by simp [parts])).value)
    | logical op left right =>
      unfold lowering
      exact .ofBranch (settled_branchLogical (hparts left (by simp [parts])).branch
        (hparts right (by simp [parts])).branch)
    | assign op target value =>
      unfold lowering
      refine .ofValue (balanced_lowerAssign (balanced_lowerTarget (hparts target (by simp [parts])).value)
        (hparts value (by simp [parts])).value ?_)
      rintro rfl
      exact hkept
    | step up before target =>
      unfold lowering
      exact .ofValue (balanced_lowerStep (balanced_lowerTarget (hparts target (by simp [parts])).value))

end Expr

end Flatword
