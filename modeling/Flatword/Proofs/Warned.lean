import Mathlib.Data.List.Forall2
import Mathlib.Data.List.Perm.Basic
import Flatword.Proofs.Fair
import Flatword.Proofs.Structured

/-!
# Warnings about variables that are not initialized

A warning is raised by a lookup that finds a slot unset, and the same lookup marks the slot. Marks are
never lost and names differ, so each slot causes one warning at most in a whole compilation.
-/

namespace Flatword

/-- The same slot later on: it may have got a mark or a value, and a mark that it is set is kept. -/
def Slot.Later (x y : Slot) : Prop :=
  y.bare = x.bare ∧ (x.isSet = true → y.isSet = true)

namespace Slot.Later

variable {x y z : Slot}

theorem refl (x : Slot) : x.Later x :=
  ⟨rfl, id⟩

theorem trans (h : x.Later y) (h' : y.Later z) : x.Later z :=
  ⟨h'.1.trans h.1, h'.2 ∘ h.2⟩

theorem asmName_eq (h : x.Later y) : y.asmName = x.asmName :=
  show y.bare.asmName = x.bare.asmName by rw [h.1]

end Slot.Later

def Table.Later (t u : Table) : Prop :=
  List.Forall₂ Slot.Later t.slots u.slots

namespace Table

variable {t u v : Table} {x y : Slot}

theorem Later.refl (t : Table) : t.Later t :=
  List.forall₂_same.mpr fun x _ => .refl x

theorem Later.trans (h : t.Later u) (h' : u.Later v) : t.Later v := by
  have hslots {xs ys zs : List Slot} (h : List.Forall₂ Slot.Later xs ys)
      (h' : List.Forall₂ Slot.Later ys zs) : List.Forall₂ Slot.Later xs zs := by
    induction h generalizing zs with
    | nil => exact h'
    | cons hx _ ih =>
      cases h' with
      | cons hy hrest => exact .cons (hx.trans hy) (ih hrest)
  exact hslots h h'

theorem Later.names (h : t.Later u) :
    u.slots.map Slot.asmName = t.slots.map Slot.asmName := by
  have hslots {xs ys : List Slot} (h : List.Forall₂ Slot.Later xs ys) :
      ys.map Slot.asmName = xs.map Slot.asmName := by
    induction h with
    | nil => rfl
    | cons hx _ ih => simp [hx.asmName_eq, ih]
  exact hslots h

theorem Later.later (h : t.Later u) (hx : x ∈ t.slots) : ∃ y ∈ u.slots, x.Later y := by
  obtain ⟨i, hi, rfl⟩ := List.getElem_of_mem hx
  have hlength := List.Forall₂.length_eq h
  exact ⟨u.slots[i], List.getElem_mem _, List.Forall₂.get h hi (hlength ▸ hi)⟩

end Table

namespace Session

variable {s t u : Session} {causes : List Slot}

def unsetWarning (location : Location) (x : Slot) : Warning :=
  ⟨location, s!"Variable '{x.name}' is used but not initialized."⟩

/-- The slots that the warnings of a run are about. -/
structure Warned (s t : Session) (causes : List Slot) : Prop where
  later : s.table.Later t.table
  nodup : (causes.map Slot.asmName).Nodup
  unset : ∀ x ∈ causes, x ∈ s.table.slots ∧ x.isSet = false
  set : ∀ x ∈ causes, ∃ y ∈ t.table.slots, x.Later y ∧ y.isSet = true
  journal : ∃ warnings, t.journal = s.journal ++ warnings ∧
    List.Forall₂ (fun x w => ∃ location, w = unsetWarning location x) causes warnings

theorem Warned.refl (s : Session) : s.Warned s [] :=
  ⟨.refl _, by simp, by simp, by simp, [], by simp, .nil⟩

theorem Warned.quiet (h : s.Warned t causes) (hlater : t.table.Later u.table)
    (hjournal : u.journal = t.journal) : s.Warned u causes := by
  refine ⟨h.later.trans hlater, h.nodup, h.unset, fun x hx => ?_, by rw [hjournal]; exact h.journal⟩
  obtain ⟨y, hy, hxy, hset⟩ := h.set x hx
  obtain ⟨z, hz, hyz⟩ := hlater.later hy
  exact ⟨z, hz, hxy.trans hyz, hyz.2 hset⟩

theorem Warned.length_le (h : s.Warned t causes) :
    causes.length ≤ (s.table.slots.filter fun x => !x.isSet).length := by
  have hnodup : causes.Nodup := h.nodup.of_map Slot.asmName
  refine (List.subperm_of_subset hnodup fun x hx => ?_).length_le
  obtain ⟨hmem, hunset⟩ := h.unset x hx
  simp [hmem, hunset]

/-! ## Whole compilations -/

end Session

end Flatword
