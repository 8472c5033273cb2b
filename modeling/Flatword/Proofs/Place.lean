import Flatword.Proofs.Ground

/-!
# What a path leads to

A path ends at a slot of the table, unless it ends behind a pointer or a computed index. So the
target of an assignment that has no offset is always a slot of the table.
-/

namespace Flatword.Lower

variable {header slot : Slot} {item : ArrayItem} {leftSide : Bool} {member : String} {v : Lowered}
  {f : Frame} {s t : Scope}

def Anchored (s : Scope) (slot : Slot) : Prop :=
  slot.offset = none → s.Knows slot

theorem Anchored.congr (h : Anchored s slot) (hg : t.ground = s.ground) : Anchored t slot :=
  fun hoffset => (h hoffset).congr hg

theorem anchored_of_ne (h : slot.offset ≠ none) : Anchored s slot :=
  fun hnone => absurd hnone h

theorem computedCell_offset {index : Slot} {distance : Word}
    (h : Gives (computedCell header item index distance) f s v t) : v.slot.offset ≠ none := by
  simp only [computedCell, gives_bind, gives_pure] at h
  obtain ⟨total, s₁, -, address, s₂, -, rfl, -⟩ := h
  simp

theorem summedCell_anchored {strides : List Word} {sum : IndexSum}
    (h : Gives (summedCell leftSide header item strides sum) f s v t) : Anchored s v.slot := by
  unfold summedCell at h
  split at h <;> simp only [gives_bind, gives_pure] at h
  · obtain ⟨cell, s₁, hcell, rfl, -⟩ := h
    exact fun _ => (knownCell_notes hcell).1
  · obtain ⟨cell, s₁, hcell, rfl, -⟩ := h
    have hoffset := computedCell_offset hcell
    exact anchored_of_ne hoffset

theorem indexArray_anchored {indexes : List (Lower Lowered)}
    (hindexes : ∀ index ∈ indexes, Orderly index) {count : Nat}
    (h : Gives (indexArray leftSide header indexes) f s (v, count) t) : Anchored s v.slot := by
  simp only [indexArray, gives_bind, gives_get, gives_orFail] at h
  obtain ⟨_, _, ⟨rfl, rfl⟩, shape, _, ⟨-, rfl⟩, item, _, ⟨-, rfl⟩, h⟩ := h
  split at h
  · simp at h
  simp only [gives_bind, gives_pure, Prod.mk.injEq] at h
  obtain ⟨sum, s₁, hsum, cell, s₂, hcell, ⟨rfl, -⟩, -⟩ := h
  have := orderly_addIndexes hindexes {} shape.dimensions shape.strides
  exact (summedCell_anchored hcell).congr (leads_of_gives hsum).ground.symm

theorem indexPointer_offset {index : Lower Lowered} (h : Gives (indexPointer slot index) f s v t) :
    v.slot.offset ≠ none := by
  unfold indexPointer at h
  split at h
  · simp at h
  simp only [gives_bind] at h
  obtain ⟨base, _, -, index, _, -, h⟩ := h
  split at h
  · simp only [gives_bind, gives_pure] at h
    obtain ⟨value, _, -, rfl, -⟩ := h
    simp
  · simp only [gives_bind, gives_pure] at h
    obtain ⟨plain, _, -, address, _, -, rfl, -⟩ := h
    simp

theorem memberOfCell_offset {cell : Slot} {struct member : String} {index : Nat}
    (h : Gives (memberOfCell cell struct index member) f s v t) : v.slot.offset ≠ none := by
  unfold memberOfCell at h
  obtain ⟨⟨distance, template⟩, s₁, -, h⟩ := gives_bind.mp h
  obtain ⟨indexSlot, s₂, -, h⟩ := gives_bind.mp h
  split at h
  · obtain ⟨rfl, -⟩ := gives_pure.mp h
    simp
  · simp only [gives_bind, gives_pure] at h
    obtain ⟨total, s₃, -, address, s₄, -, rfl, -⟩ := h
    simp

theorem memberOf_anchored (h : Gives (memberOf leftSide slot member) f s v t) : Anchored s v.slot := by
  unfold memberOf at h
  split at h
  · simp only [gives_bind, gives_onSide, gives_orFail, gives_pure] at h
    obtain ⟨found, s₁, hfound, x, _, ⟨rfl, rfl⟩, rfl, -⟩ := h
    exact fun _ => (lookupAsm?_notes hfound).1 x rfl
  · split at h
    · exact anchored_of_ne (memberOfCell_offset h)
    · simp at h
  · simp at h

theorem arrowMember_offset (h : Gives (arrowMember slot member) f s v t) : v.slot.offset ≠ none := by
  unfold arrowMember at h
  split at h
  · simp at h
  simp only [gives_bind, gives_pure] at h
  obtain ⟨_, _, -, _, _, -, rfl, -⟩ := h
  simp

theorem followAfter_anchored {skip : Nat} {here v : Lowered} {path : List Step}
    (hpath : ∀ step ∈ path, step.Orderly) (hhere : Anchored s here.slot)
    (h : Gives (followAfter leftSide skip here path) f s v t) : Anchored s v.slot := by
  induction path generalizing skip here s with
  | nil =>
    rw [followAfter] at h
    obtain ⟨rfl, -⟩ := gives_pure.mp h
    exact hhere
  | cons step rest ih =>
    have hrest : ∀ step ∈ rest, step.Orderly := fun step hs => hpath step (by simp [hs])
    -- No step changes the ground, so the rest of the path starts from a slot of the same table.
    have hnext {skip : Nat} {u : Scope} {slot : Slot} {code : Code} (hu : s.Leads u)
        (hslot : Anchored s slot)
        (h : Gives (followAfter leftSide skip ⟨slot, code⟩ rest) f u v t) : Anchored s v.slot := by
      have hslot : Anchored u (Lowered.mk slot code).slot := hslot.congr hu.ground
      exact (ih hrest hslot h).congr hu.ground.symm
    cases skip with
    | succ skip =>
      rw [followAfter] at h
      exact ih hrest hhere h
    | zero =>
      cases step with
      | index value =>
        have hvalue : Orderly value := (hpath _ (by simp)).index rfl
        have hindexes : ∀ index ∈ value :: leadingIndexes rest, Orderly index := by
          simpa using ⟨hvalue, orderly_of_mem_leadingIndexes hrest⟩
        have := orderly_indexArray hindexes leftSide
        rw [followAfter] at h
        split at h
        · obtain ⟨⟨cell, taken⟩, s₁, hcell, h⟩ := gives_bind.mp h
          exact hnext (leads_of_gives hcell) (indexArray_anchored hindexes hcell) h
        · obtain ⟨cell, s₁, hcell, h⟩ := gives_bind.mp h
          exact hnext (leads_of_gives hcell) (anchored_of_ne (indexPointer_offset hcell)) h
      | member name =>
        rw [followAfter] at h
        obtain ⟨member, s₁, hmember, h⟩ := gives_bind.mp h
        exact hnext (leads_of_gives hmember) (memberOf_anchored hmember) h
      | arrow name =>
        rw [followAfter] at h
        obtain ⟨member, s₁, hmember, h⟩ := gives_bind.mp h
        exact hnext (leads_of_gives hmember) (anchored_of_ne (arrowMember_offset hmember)) h

theorem lowerLookup_anchored {name : String} {path : List Step} (hpath : ∀ step ∈ path, step.Orderly)
    (h : Gives (lowerLookup name path) f s v t) : Anchored s v.slot := by
  simp only [lowerLookup, gives_bind, gives_read] at h
  obtain ⟨_, _, ⟨rfl, rfl⟩, slot, s₁, hslot, h⟩ := h
  obtain ⟨hknows, hnotes⟩ := lookup_notes hslot
  split at h
  · obtain ⟨rfl, -⟩ := gives_pure.mp h
    exact fun _ => hknows
  · rw [gives_onSide] at h
    have hhere : Anchored s₁ slot := fun _ => hknows.congr hnotes.ground
    exact (followAfter_anchored hpath hhere h).congr hnotes.ground.symm

theorem lowerDeref_anchored {operand : Lower Lowered} [Orderly operand]
    (h : Gives (lowerDeref operand) f s v t) : Anchored s v.slot := by
  unfold lowerDeref at h
  obtain ⟨⟨slot, code⟩, s₁, hoperand, h⟩ := gives_bind.mp h
  dsimp only at h
  split at h
  · simp only [gives_bind, gives_pure] at h
    obtain ⟨x, s₂, hx, rfl, -⟩ := h
    exact fun _ => (slotAt_notes hx).1.congr (leads_of_gives hoperand).ground.symm
  · simp only [gives_bind, gives_pure] at h
    obtain ⟨base, s₂, -, rfl, -⟩ := h
    exact anchored_of_ne (by simp)

theorem lowerTarget_anchored {target : Expr}
    (h : Gives (lowerTarget target.namesPlace target.lowering.value) f s v t) : Anchored s v.slot := by
  obtain ⟨hplace, hvalue, -⟩ := lowerTarget_gives h
  cases target with
  | lookup name path line => exact lowerLookup_anchored (Expr.orderly_pathSteps path) hvalue
  | unary op operand line =>
    cases op with
    | deref =>
      have : Orderly operand.lowering.value := inferInstanceAs (Orderly operand.lower)
      exact lowerDeref_anchored hvalue
    | _ => simp [Expr.namesPlace] at hplace
  | _ => simp [Expr.namesPlace] at hplace

theorem lowerAssign_anchored {op : Option BinaryOp} {target value : Expr} {line : Line}
    (h : Gives (Expr.assign op target value line).lower f s v t) : Anchored s v.slot := by
  simp only [Expr.lower, Expr.lowering, Lowering.ofValue, lowerAssign, gives_bind] at h
  obtain ⟨place, s₁, hplace, _, s₂, -, w, s₃, -, h⟩ := h
  have hanchored := lowerTarget_anchored hplace
  split at h
  · simp at h
  cases op <;>
    · simp only [gives_bind, gives_pure] at h
      obtain ⟨code, s₄, -, rfl, -⟩ := h
      exact hanchored

end Flatword.Lower
