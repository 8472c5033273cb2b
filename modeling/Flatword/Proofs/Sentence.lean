import Flatword.Proofs.Condition
import Flatword.Proofs.Pure

/-!
# Sentences

What the code of an assignment to a plain variable does to the memory. The variable may serve as a
scratch place while the value is computed, because the value does not look at it then.
-/

namespace Flatword

variable {a : Nat} {function : Option String} {name : String}

/-- What a variable holds after `=` or `op=`, from what it held before and the value. -/
def Alu.assigned (alu : Alu) : Option BinaryOp → Word → Word → Word
  | none, _, w => w
  | some op, old, w => alu.apply op old w

namespace Expr

variable {a : Nat} {e : Expr} {line : Line} {name : String} {vars : String → Option Nat} {S : Set Nat}

/-- A plain variable outside of some places is assigned a pure expression, or stepped. -/
inductive IsAssignment (vars : String → Option Nat) (S : Set Nat) : Expr → Prop
  | assign {op name value line line' a}
      (h : vars name = some a) (ha : a ∉ S) (hvalue : value.IsPure vars S) :
      IsAssignment vars S (.assign op (.lookup name [] line') value line)
  | step {up before name line line' a}
      (h : vars name = some a) (ha : a ∉ S) :
      IsAssignment vars S (.step up before (.lookup name [] line') line)

/-- What an assignment makes of the memory. -/
def perform (alu : Alu) (vars : String → Option Nat) (μ : Memory) : Expr → Memory
  | assign op (lookup name _ _) value _ =>
    (vars name).elim μ fun a =>
      Function.update μ a (alu.assigned op (μ a) (value.eval alu vars μ))
  | step up _ (lookup name _ _) _ =>
    (vars name).elim μ fun a => Function.update μ a (if up then μ a + 1 else μ a - 1)
  | _ => μ

theorem IsPure.avoid (h : e.IsPure vars S) (ha : ∀ other, vars other = some a → other = name)
    (hlookups : ∀ looked ∈ e.lookups, looked.1 ≠ name) : e.IsPure vars (insert a S) := by
  induction h with
  | operand h =>
    refine .operand ?_
    cases h with
    | constant hw => exact .constant hw
    | @lookup other line b hb hbS =>
      refine .lookup hb ?_
      rintro (rfl | hmem)
      · exact hlookups (other, []) (by simp [lookups]) (ha other hb)
      · exact hbS hmem
  | neg _ ih => exact .neg (ih hlookups)
  | bitNot _ ih => exact .bitNot (ih hlookups)
  | binary _ _ ihl ihr =>
    simp only [lookups, List.mem_append] at hlookups
    exact .binary (ihl fun x hx => hlookups x (.inl hx)) (ihr fun x hx => hlookups x (.inr hx))

theorem IsPointed.mono {T : Set Nat} (h : e.IsPointed vars S) (hT : T ⊆ S) : e.IsPointed vars T := by
  induction h with
  | constant hw => exact .constant hw
  | word h ha => exact .word h fun hmem => ha (hT hmem)
  | index h ha _ ih => exact .index h (fun hmem => ha (hT hmem)) ih
  | deref h ha => exact .deref h fun hmem => ha (hT hmem)
  | neg _ ih => exact .neg ih
  | bitNot _ ih => exact .bitNot ih
  | binary _ _ ihl ihr => exact .binary ihl ihr

theorem lookups_of_conflicts {value : Expr} (h : (Expr.lookup name [] line).conflicts value = false) :
    ∀ looked ∈ value.lookups, looked.1 ≠ name := by
  intro looked hmem heq
  have hany : (value.lookups.any fun x => x.1 == name && pathsMeet [] x.2) = true :=
    List.any_eq_true.mpr ⟨looked, hmem, by simp [heq, pathsMeet]⟩
  have hconflicts : (Expr.lookup name [] line).conflicts value =
      value.lookups.any fun x => x.1 == name && pathsMeet [] x.2 := rfl
  rw [hconflicts, hany] at h
  simp at h

/-- A target that is known when the code is made: without code of its own it stands for the word at `a`. -/
def StandsFor (m : Machine) (g : Ground) (function : Option String) (a : Nat) (e : Expr) : Prop :=
  ∀ ⦃f : Frame⦄ ⦃s : Scope⦄ ⦃v : Lower.Lowered⦄ ⦃t : Scope⦄, f.function = function → s.Ready m →
    s.ground = g → Gives e.lower f s v t →
      v.code = [] ∧ v.slot.isPlain = true ∧ v.slot.IsAt m a ∧ s.Notes t

theorem standsFor_lookup {m : Machine} {g : Ground} {function : Option String}
    (h : g.plain? function name = some a) : (lookup name [] line).StandsFor m g function a := by
  rintro f s v t rfl hs rfl hv
  exact Lower.lookup_word hs h hv

/-- The words that may change while the value of an assignment to `a` is computed: the registers, and the
target where it may be reserved. -/
def scratchOf (op : Option BinaryOp) (target value : Expr) (a : Nat) (registers : Set Nat) : Set Nat :=
  if op.isNone && !target.conflicts value then insert a registers else registers

section Scratch

variable {op : Option BinaryOp} {target value : Expr} {registers : Set Nat}

theorem mem_scratchOf {b : Nat} (h : b ∈ scratchOf op target value a registers) :
    b = a ∨ b ∈ registers := by
  unfold scratchOf at h
  split at h
  · exact h
  · exact .inr h

/-- The target is not reserved if the value conflicts with it, nor in a compound assignment. -/
theorem scratchOf_of_conflicts (h : op ≠ none ∨ target.conflicts value = true) :
    scratchOf op target value a registers = registers := by
  refine if_neg fun hplain => ?_
  simp only [Bool.and_eq_true, Option.isNone_iff_eq_none, Bool.not_eq_true'] at hplain
  exact h.elim (· hplain.1) fun hconflicts => by simp [hplain.2] at hconflicts

end Scratch

end Expr

theorem Session.exists_long {s : Session} (h : (Scope.start s).ground.long? function name = some a) :
    ∃ x ∈ s.table.slots, x.name = name ∧ x.kind = .long ∧ x.address = some a := by
  obtain ⟨slot, hslot, hlong⟩ := Option.bind_eq_some_iff.mp h
  have hfound {scope : String} (hfind : (Scope.start s).ground.slots.find?
      (fun slot => slot.name = name && slot.scope = scope) = some slot) :
      slot ∈ (Scope.start s).ground.slots ∧ slot.name = name := by
    have hnamed := List.find?_some hfind
    simp only [Bool.and_eq_true, decide_eq_true_eq] at hnamed
    exact ⟨List.mem_of_find?_eq_some hfind, hnamed.1⟩
  obtain ⟨hmem, hnamed⟩ : slot ∈ (Scope.start s).ground.slots ∧ slot.name = name := by
    rcases Option.or_eq_some_iff.mp hslot with hlocal | ⟨-, hglobal⟩
    · obtain ⟨scope, -, hfind⟩ := Option.bind_eq_some_iff.mp hlocal
      exact hfound hfind
    · exact hfound hglobal
  obtain ⟨x, hx, rfl⟩ := List.mem_map.mp hmem
  split at hlong
  · next hk => exact ⟨x, hx, hnamed, hk, hlong⟩
  · simp at hlong

theorem Table.Sound.long?_injective {s : Session} (h : s.table.Sound) {name other : String}
    (hname : (Scope.start s).ground.long? function name = some a)
    (hother : (Scope.start s).ground.long? function other = some a) : other = name := by
  obtain ⟨x, hx, hxn, hxk, hxa⟩ := Session.exists_long hname
  obtain ⟨y, hy, hyn, hyk, hya⟩ := Session.exists_long hother
  have hxy := h.eq_of_address hx hy (by simp [hxk]) (by simp [hyk]) (hxa.trans hya.symm)
  rw [← hxn, ← hyn, hxy]

namespace Lower

variable {namesPlace : Bool} {op : Option BinaryOp} {target : Expr} {v : Lowered} {m : Machine}
  {f : Frame} {s t : Scope} {x : Slot} {a : Nat}

/-! ## Targets -/

theorem ready_reuse (hs : s.Ready m) {reuse : Reuse}
    (h : ∀ target ∈ reuse.target?, target.isPlain = true ∧ target.IsAt m a)
    (ha : a ∉ s.registers) (hconstants : ∀ slot w, s.ground.Names slot w → slot.address ≠ some a) :
    ({ s with reuse } : Scope).Ready m where
  regular := ⟨hs.regular.ground, fun target htarget => (h target htarget).1⟩
  slots := hs.slots
  registers := hs.registers
  target := fun target htarget => ⟨a, (h target htarget).2, ha⟩
  constants := by
    intro slot w hnames
    obtain ⟨b, hb, hscratch⟩ := hs.constants hnames
    refine ⟨b, hb, ?_⟩
    rintro (hregister | ⟨target, htarget, hat⟩)
    · exact hscratch (.inl hregister)
    · rw [(h target htarget).2.1] at hat
      exact hconstants slot w hnames (hat ▸ hb.1)

theorem target_reserved {namesPlace plain : Bool} {y : Unit} {u : Scope} (hs : s.Ready m)
    (hreuse : s.reuse.target? = none) (htarget : target.StandsFor m s.ground f.function a)
    (ha : a ∉ s.registers) (hconstants : ∀ slot w, s.ground.Names slot w → slot.address ≠ some a)
    (hv : Gives (lowerTarget namesPlace target.lower) f s v u)
    (h : Gives (reserveTarget plain v.slot) f u y t) :
    v.code = [] ∧ v.slot.isPlain = true ∧ v.slot.IsAt m a ∧ t.Ready m ∧ t.ground = s.ground ∧
      t.post = s.post ∧ t.session.jumps = s.session.jumps ∧
      t.scratch ⊆ if plain then insert a s.registers else s.registers := by
  obtain ⟨hcode, hplain, hat, hnotes⟩ :=
    htarget (f := { f with leftSide := true }) rfl hs rfl (lowerTarget_gives hv).2.1
  have hregisters : u.registers = s.registers := (Scope.Continues.of_notes hnotes).registers
  rw [Gives, outcome_reserveTarget] at h
  obtain ⟨-, rfl⟩ := Prod.mk.inj h
  have hreserved : ∀ target ∈ (if u.reuse = .allowed ∧ v.slot.Reservable plain then
      Reuse.reserved v.slot else u.reuse.forbid).target?, target = v.slot ∧ plain = true := by
    intro target
    split
    · next hr => simpa [Reuse.target?] using fun heq => ⟨heq.symm, hr.2.1⟩
    · rw [hnotes.reuse]
      revert hreuse
      cases s.reuse <;> simp [Reuse.forbid, Reuse.target?]
  have hready : u.Ready m := (Scope.Continues.of_notes hnotes).ready hs
  refine ⟨hcode, hplain, hat, ?_, hnotes.ground, hnotes.post, hnotes.jumps, ?_⟩
  · refine ready_reuse hready (fun target hmem => ?_) (hregisters ▸ ha) (hnotes.ground ▸ hconstants)
    obtain ⟨rfl, -⟩ := hreserved target hmem
    exact ⟨hplain, hat⟩
  · rintro b (hb | ⟨target, hmem, hb⟩)
    · have hb : b ∈ s.registers := hregisters ▸ hb
      split
      · exact .inr hb
      · exact hb
    · obtain ⟨rfl, hp⟩ := hreserved target hmem
      rw [if_pos hp]
      exact .inl (Option.some.inj (hb.symm.trans hat.1))

/-! ## Values that are stored -/

/-- Code that stores to one word, and that otherwise changes spare places only. -/
structure Stored (m : Machine) (s : Scope) (a : Nat) (o : Fetch) (value : Memory → Word) (code : Code)
    (t : Scope) : Prop where
  continues : s.Continues t
  jumps : t.session.jumps = s.session.jumps
  labels : code.labels = []
  runs : ∀ μ, s.ground.HoldIn μ → o.Lands m s.scratch μ →
    ∃ μ', m.Runs code μ μ' ∧ AgreeOutside (insert a s.spare) μ μ' ∧ μ' a = value μ

section

variable {value : Slot} {o : Fetch} {code : Code} (hs : s.Ready m) (ha : x.IsAt m a)
  (hvalue : value.Fetches m o) (hwaits : ∀ c, value.Holds c → c ∉ s.spare)
include hs ha hvalue hwaits

theorem storeValue_stored (hx : x.isPlain = true) (h : Gives (storeValue x value) f s code t) :
    Stored m s a o o.read code t := by
  simp only [storeValue, gives_bind, gives_pure] at h
  obtain ⟨code, s₁, hassign, _, s₂, hrelease, rfl, rfl⟩ := h
  have hfetched := assign_fetches hs.placed hx ha hvalue hwaits hassign
  have h₁ := hfetched.rests.continues
  have hback : s₁.Rests Set.univ s₂ := by
    unfold releaseBeside at hrelease
    split at hrelease
    · exact releaseOperand_rests (h₁.ready hs).regular (fun _ _ _ => trivial) (Set.subset_univ _) hrelease
    · obtain ⟨-, rfl⟩ := gives_pure.mp hrelease
      exact .refl (Set.subset_univ _)
  exact ⟨h₁.trans hback.continues, hback.jumps.trans hfetched.rests.jumps, hfetched.labels,
    fun μ hμ hlands => hfetched.runs μ hμ (hlands.mono s.spare_subset_scratch)⟩

theorem update_stored {op : BinaryOp} (hspare : a ∉ s.spare) (h : Gives (update op x value) f s code t) :
    Stored m s a o (fun μ => m.alu.apply op (μ a) (o.read μ)) code t := by
  unfold update at h
  split at h
  · next hone =>
    obtain ⟨rfl, rfl⟩ := gives_pure.mp h
    refine ⟨.refl s, rfl, by unfold stepInstr; split <;> rfl, fun μ _ _ => ⟨_,
      Machine.runs_stepInstr ha.2 _, (AgreeOutside.refl _ μ).update (Set.mem_insert a _) _, ?_⟩⟩
    rw [Function.update_self, hvalue.eq_of_isValue hone.2]
    rcases hone.1 with rfl | rfl
    · simp [m.alu.add]
    · simp [m.alu.sub]
  · simp only [gives_bind, gives_pure] at h
    obtain ⟨flat, s₁, hflat, _, s₂, hrelease, _, s₃, hoperand, rfl, rfl⟩ := h
    obtain ⟨b, hflat⟩ := flatten_fetches hs.placed hvalue hwaits hflat
    have h₁ := hflat.rests.continues
    have h₂ : s₁.Rests Set.univ s₂ := flatRelease_rests (h₁.ready hs).regular (fun _ _ _ => trivial)
      (Set.subset_univ _) hrelease
    have h₃ : s₂.Rests Set.univ s₃ := releaseOperand_rests ((h₁.trans h₂.continues).ready hs).regular
      (fun _ _ _ => trivial) (Set.subset_univ _) hoperand
    refine ⟨(h₁.trans h₂.continues).trans h₃.continues, ?_, ?_, fun μ hμ hlands => ?_⟩
    · rw [h₃.jumps, h₂.jumps, hflat.rests.jumps]
    · simp only [Code.labels_append, hflat.labels]
      rfl
    · obtain ⟨μ₁, hruns, hagree, hread⟩ := hflat.runs μ hμ (hlands.mono s.spare_subset_scratch)
      refine ⟨_, hruns.append (Machine.runs_arith op ha.2 hflat.isAt.2),
        (hagree.mono (Set.subset_insert a _)).update (Set.mem_insert a _) _, ?_⟩
      rw [Function.update_self, hagree a hspare, hread]

end

/-- A variable has been assigned to, by code that otherwise changes registers only. -/
structure Assigned (m : Machine) (s : Scope) (a : Nat) (value : Memory → Word) (safe : Memory → Prop)
    (v : Lowered) (t : Scope) : Prop where
  plain : v.slot.isPlain = true
  post : t.post = s.post
  jumps : t.session.jumps = s.session.jumps
  labels : v.code.labels = []
  runs : ∀ μ, s.ground.HoldIn μ → safe μ →
    ∃ μ', m.Runs v.code μ μ' ∧ AgreeOutside s.registers (Function.update μ a (value μ)) μ'

section

variable {name : String} {line line' : Line} {v : Lowered} (hs : s.Ready m)
include hs

theorem assign_assigned {target value : Expr} {S : Set Nat}
    (htarget : target.StandsFor m s.ground f.function a) (ha : a ∉ s.registers)
    (hreuse : s.reuse.target? = none)
    (hconstants : ∀ slot w, s.ground.Names slot w → slot.address ≠ some a)
    (hS : Expr.scratchOf op target value a s.registers ⊆ S)
    (hvalue : value.IsPointed (s.ground.plain? f.function) S)
    (h : Gives (Expr.assign op target value line).lower f s v t) :
    Assigned m s a
      (fun μ => m.alu.assigned op (μ a) (value.worth m.alu (s.ground.plain? f.function) μ))
      (value.Lands m (s.ground.plain? f.function) S) v t := by
  simp only [Expr.lower, Expr.lowering, Lowering.ofValue, lowerAssign, gives_bind] at h
  obtain ⟨x, s₁, hx, _, s₂, hreserve, w, s₃, hw, h⟩ := h
  obtain ⟨hcode, hplain, hat, hs₂, hground, hpost, hjumps,
      (hscratch : _ ⊆ Expr.scratchOf op target value a s.registers)⟩ :=
    target_reserved hs hreuse htarget ha hconstants hx hreserve
  have hsub := hscratch.trans hS
  have hw := pending_of_isPointed hs₂ (by rw [hground]; exact hvalue.mono hsub) rfl (.refl s₂) hw
  rw [hground] at hw
  obtain ⟨o, ho, hruns⟩ := hw.operand
  have hs₃ := hw.rests.continues.ready hs₂
  have houtside {b : Nat} (hb : b ∉ s.registers) (hne : b ≠ a) : b ∉ s₂.scratch := fun hmem =>
    (Expr.mem_scratchOf (hscratch hmem)).elim hne hb
  -- What the target held matters to a compound assignment only, and that does not reserve it.
  have hspare (hop : op ≠ none) : a ∉ s₂.spare := by
    intro hmem
    have hmem := hscratch (s₂.spare_subset_scratch hmem)
    rw [Expr.scratchOf_of_conflicts (.inl hop)] at hmem
    exact ha hmem
  split at h
  · simp at h
  obtain ⟨code, s₄, hstore, rfl, rfl⟩ : ∃ code s₄, Stored m s₃ a o
      (fun μ => m.alu.assigned op (μ a) (o.read μ)) code s₄ ∧
        (⟨x.slot, x.code ++ w.code ++ code⟩ : Lowered) = v ∧ s₄ = t := by
    cases op with
    | none =>
      simp only [gives_bind, gives_pure] at h
      obtain ⟨code, s₄, hstore, rfl, rfl⟩ := h
      exact ⟨code, s₄, storeValue_stored hs₃ hat ho hw.waits hplain hstore, rfl, rfl⟩
    | some op =>
      simp only [gives_bind, gives_pure, updateTarget, hplain, if_true] at h
      obtain ⟨code, s₄, hupdate, rfl, rfl⟩ := h
      refine ⟨code, s₄, update_stored hs₃ hat ho hw.waits (fun hmem => ?_) hupdate, rfl, rfl⟩
      exact hspare (by simp) (hw.rests.spare hmem)
  refine ⟨hplain, ?_, ?_, ?_, fun μ hμ hlands => ?_⟩
  · rw [hstore.continues.post, hw.rests.continues.post, hpost]
  · rw [hstore.jumps, hw.rests.jumps, hjumps]
  · simp only [hcode, Code.labels_append, hw.labels, hstore.labels, Code.labels_nil, List.append_nil]
  · obtain ⟨μ₁, hruns₁, hagree₁, hvalue₁, hlands₁⟩ := hruns μ (hground ▸ hμ)
      fun c hc => ⟨(hlands c hc).1, fun hmem => (hlands c hc).2 (hsub hmem)⟩
    have hμ₁ : s₃.ground.HoldIn μ₁ := hw.rests.continues.ground ▸
      hs₂.holdIn (hagree₁.mono s₂.spare_subset_scratch) (hground ▸ hμ)
    obtain ⟨μ₂, hruns₂, hagree₂, hvalue₂⟩ :=
      hstore.runs μ₁ hμ₁ (hw.rests.continues.scratch ▸ hlands₁)
    refine ⟨μ₂, by rw [hcode]; exact hruns₁.append hruns₂, fun b hb => ?_⟩
    by_cases hba : b = a
    · rw [hba, hvalue₂, hvalue₁, Function.update_self]
      cases op with
      | none => rfl
      | some op => rw [hagree₁ a (hspare (by simp))]
    · have hkept : b ∉ s₂.spare := fun hmem => houtside hb hba (s₂.spare_subset_scratch hmem)
      rw [Function.update_of_ne hba, hagree₂ b, hagree₁ b hkept]
      exact fun hmem => hmem.elim hba fun hmem => hkept (hw.rests.spare hmem)

theorem assign_assigned_of_isPure {value : Expr} (hname : s.ground.long? f.function name = some a)
    (ha : a ∉ s.registers) (hreuse : s.reuse.target? = none)
    (hconstants : ∀ slot w, s.ground.Names slot w → slot.address ≠ some a)
    (hinjective : ∀ other, s.ground.long? f.function other = some a → other = name)
    (hvalue : value.IsPure (s.ground.long? f.function) s.registers)
    (h : Gives (Expr.assign op (.lookup name [] line') value line).lower f s v t) :
    Assigned m s a
      (fun μ => m.alu.assigned op (μ a) (value.eval m.alu (s.ground.long? f.function) μ))
      (fun _ => True) v t := by
  have hpure : value.IsPure (s.ground.long? f.function)
      (Expr.scratchOf op (.lookup name [] line') value a s.registers) := by
    unfold Expr.scratchOf
    split
    · next hp =>
      simp only [Bool.and_eq_true, Bool.not_eq_true'] at hp
      exact hvalue.avoid hinjective (Expr.lookups_of_conflicts hp.2)
    · exact hvalue
  obtain ⟨hpointed, hsame⟩ := hpure.isPointed hs.plain?_of_long?
  have hassigned := assign_assigned hs (Expr.standsFor_lookup (hs.plain?_of_long? hname)) ha hreuse
    hconstants subset_rfl hpointed h
  refine { hassigned with runs := fun μ hμ _ => ?_ }
  rw [← (hsame m.alu μ).1]
  exact hassigned.runs μ hμ fun c hc => by simp [hsame] at hc

theorem step_assigned {up : Bool} (hname : s.ground.plain? f.function name = some a)
    (h : Gives (Expr.step up true (.lookup name [] line') line).lower f s v t) :
    Assigned m s a (fun μ => if up then μ a + 1 else μ a - 1) (fun _ => True) v t := by
  simp only [Expr.lower, Expr.lowering, Lowering.ofValue, Expr.namesPlace, lowerStep,
    gives_bind] at h
  obtain ⟨x, s₁, htarget, h⟩ := h
  have htarget : Gives (Expr.lookup name [] line').lower { f with leftSide := true } s x s₁ :=
    (lowerTarget_gives htarget).2.1
  obtain ⟨hcode, hplain, hat, hnotes⟩ :=
    lookup_word (f := { f with leftSide := true }) hs hname htarget
  simp only [hplain, if_true, gives_pure] at h
  obtain ⟨rfl, rfl⟩ := h
  refine ⟨hplain, hnotes.post, hnotes.jumps, ?_, fun μ _ _ => ⟨_, ?_, .refl _ _⟩⟩
  · rw [hcode]
    cases up <;> rfl
  · rw [hcode]
    exact Machine.runs_stepInstr hat.2 up

end

end Lower

end Flatword
