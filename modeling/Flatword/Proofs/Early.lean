import Flatword.Proofs.Footing
import Flatword.Proofs.Resolve

/-!
# Code that is done before the program starts

A value that is known before the program starts is a constant or a whole array. The code of a `const`
sentence gives known values to words of the table, unless its target lies behind a pointer or a computed
index, or is a scratch register.
-/

namespace Flatword

/-! ## Initialisations -/

namespace Ground

/-- An instruction that gives a known value to a word of the table that is no scratch register. -/
def Sets (g : Ground) (instr : Instr) : Prop :=
  ∃ x ∈ g.slots, x.kind ≠ .struct ∧ isRegisterName x.asmName = false ∧
    ∃ w : Word, instr = .setImmediate x.asmName (Hex.ofWord w)

/-- Code that does nothing else. -/
def Initialises (g : Ground) (code : Code) : Prop :=
  ∀ instr ∈ code, g.Sets instr

variable {g : Ground}

@[simp]
theorem initialises_nil : g.Initialises [] := by
  simp [Initialises]

@[simp]
theorem initialises_append {code code' : Code} :
    g.Initialises (code ++ code') ↔ g.Initialises code ∧ g.Initialises code' :=
  List.forall_mem_append

/-- The slots of a table as they are met in a program whose registers are words. -/
structure Tidy (g : Ground) : Prop where
  regular : g.Regular
  fair : g.Fair
  stored : ∀ x ∈ g.slots, x.kind ≠ .constant ∧ x.offset = none
  words : ∀ x ∈ g.slots, isRegisterName x.asmName = true → x.kind.isRegular = true
  places : ∀ y ∈ g.slots, ∀ z ∈ g.slots, y.kind ≠ .struct → z.kind ≠ .struct →
    y.address = z.address → y = z
  cells : ∀ x ∈ g.slots, x.kind = .array → ∀ item base, x.item = some item → x.value? = some base →
    ∀ i < item.totalSize - 1, ∀ y ∈ g.slots, y.kind ≠ .struct →
      y.address = some (base.toNat + i) → isRegisterName y.asmName = false

theorem Tidy.isRegisterName_of_array (hg : g.Tidy) {x : Slot} (hx : x.unmarked ∈ g.slots)
    (hk : x.kind = .array) : isRegisterName x.asmName = false := by
  by_contra hregister
  have hname : isRegisterName x.asmName = true := by simpa using hregister
  have hword : x.kind.isRegular = true := hg.words x.unmarked hx hname
  simp [hk, Kind.isRegular] at hword

/-- A scope on the way, in which only a plain variable can be handed out as a scratch place. -/
structure Supports (g : Ground) (s : Scope) : Prop where
  tracks : g.Tracks s
  regular : s.Regular

variable {s t : Scope}

theorem Supports.ground (hs : g.Supports s) : s.ground = g :=
  hs.tracks.ground

theorem Supports.notes (hs : g.Supports s) (h : s.Notes t) : g.Supports t where
  tracks :=
    have hrises : s.Rises t := ⟨h.ground, fun target ht => by rw [h.reuse]; exact ht⟩
    ⟨h.ground.trans hs.ground, h.reuse ▸ hs.tracks.target, fun z hz => by
      rw [h.post]
      exact hs.tracks.post z (hrises.trans hz)⟩
  regular := h.regular hs.regular

theorem Supports.quiet {α : Type} {m : Lower α} [Lower.Orderly m] {Q : Scope → α → Prop}
    (hs : g.Supports s) (hm : (Leave.all g).Quiet m Q) {f : Frame} {v : α} (h : Gives m f s v t) : g.Supports t :=
  ⟨(hm s.session.jumps trivial (Leave.tracks_all hs.tracks) rfl h).1.toTracks,
    Lower.regular_of_gives h hs.regular⟩

end Ground

def Slot.IsFixed (x : Slot) : Prop :=
  x.offset = none ∧ (x.kind = .constant ∨ x.kind = .array)

theorem Slot.not_isFixed_of_isPlain {x : Slot} (h : x.isPlain = true) : ¬ x.IsFixed := by
  rintro ⟨-, hk | hk⟩ <;> simp [Slot.isPlain, hk, Kind.isRegular] at h

namespace Lower

variable {count depth skip : Nat} {dimensions strides : List Word} {header x : Slot} {here : Lowered}
  {index operand m : Lower Lowered} {stride : Word} {up : Bool} {code : Code}
  {indexes : List (Lower Lowered)} {name : String} {op : BinaryOp} {path : List Step}
  {sum sum' : IndexSum}

open Ground

variable {g : Ground} {f : Frame} {s t : Scope} {slot : Slot} {v : Lowered}

/-! ## Constants that are stored -/

theorem slotAt_gives {words : Int} (h : Gives (slotAt slot words) f s x t) :
    s.Knows x ∧ x.kind ≠ .struct ∧
      ∃ base, slot.value? = some base ∧ x.address = some (base.toNat + words).toNat := by
  have hknows := (slotAt_notes h).1
  simp only [slotAt, gives_bind, gives_orFail] at h
  obtain ⟨base, _, ⟨hbase, rfl⟩, h⟩ := h
  split at h
  · exact ⟨hknows, (lookupAt_found h).2, base, hbase, (lookupAt_found h).1⟩
  · simp at h

theorem assignConstant_writes {left right : Slot} (hf : f.constSentence = true)
    (h : Gives (assignConstant left right) f s code t) :
    ∃ w : Word, code = [.setImmediate left.asmName (Hex.ofWord w)] := by
  simp only [assignConstant, gives_bind, gives_orFail, gives_read] at h
  obtain ⟨hex, _, -, w, _, -, _, _, ⟨rfl, -⟩, h⟩ := h
  rw [if_pos hf] at h
  exact ⟨w, (gives_pure.mp h).1.symm⟩

theorem assignWithin_constant {left right : Slot} (hf : f.constSentence = true)
    (hleft : left.isPlain = true) (hright : right.isConstant = true)
    (h : Gives (assignWithin depth left right) f s code t) :
    ∃ w : Word, code = [.setImmediate left.asmName (Hex.ofWord w)] := by
  have hright : right.kind = .constant ∧ right.offset = none := by
    simpa [Slot.isConstant] using hright
  cases depth with
  | zero => simp [assignWithin] at h
  | succ depth =>
    simp only [assignWithin, resolveConstant_of_offset (Slot.offset_of_isPlain hleft),
      resolveConstant_of_offset hright.2, gives_bind, gives_pure] at h
    obtain ⟨_, _, ⟨rfl, rfl⟩, _, _, ⟨rfl, rfl⟩, h⟩ := h
    have hregular := (Bool.and_eq_true_iff.mp hleft).1
    split at h
    case h_1 | h_2 | h_3 | h_4 =>
      simp only [assignRegular, Slot.offset_of_isPlain hleft, hright.1] at h
      exact assignConstant_writes hf h
    all_goals simp_all [Kind.isRegular]

theorem assignWithin_array {left right : Slot} (hk : left.kind = .array) (ho : left.offset = none)
    (hg : s.ground.Tidy) (h : Gives (assignWithin (depth + 1) left right) f s code t) :
    right.isConstant = true ∧ Gives (fillArray (assignWithin depth) left right) f s code t := by
  simp only [assignWithin, resolveConstant_of_offset ho, gives_bind, gives_pure] at h
  obtain ⟨_, _, ⟨rfl, rfl⟩, resolved, u, hresolved, h⟩ := h
  simp only [hk, assignArray, ho] at h
  have hconstant : resolved.isConstant = true := by
    by_contra hnot
    rw [fillArray, if_pos (by simpa using hnot)] at h
    simp [gives_bind] at h
  unfold resolveConstant at hresolved
  split at hresolved
  · have hstored := hg.stored _ (slotAt_gives hresolved).1
    have hkind : resolved.kind = .constant ∧ resolved.offset = none := by
      simpa [Slot.isConstant] using hconstant
    exact absurd hkind.1 hstored.1
  · simp at hresolved
  · obtain ⟨rfl, rfl⟩ := gives_pure.mp hresolved
    exact ⟨hconstant, h⟩

/-- How a constant is assigned to a word or to a whole array, so that words are initialised. -/
def Fills (g : Ground) (f : Frame) (assign : Slot → Slot → Lower Code) : Prop :=
  ∀ ⦃left right : Slot⦄ ⦃s t : Scope⦄ ⦃code : Code⦄, s.ground = g → s.Knows left →
    left.kind ≠ .struct → isRegisterName left.asmName = false → right.isConstant = true →
    Gives (assign left right) f s code t → g.Initialises code

theorem initialises_fillCells (hg : g.Tidy) {assign : Slot → Slot → Lower Code}
    [∀ l r, Orderly (assign l r)] (hassign : Fills g f assign) {item : ArrayItem}
    (hmem : header.unmarked ∈ g.slots) (hk : header.kind = .array) (hitem : header.item = some item)
    {count i : Nat} {digits : List Char} (hcount : i + count ≤ item.totalSize - 1) (hs : s.ground = g)
    (h : Gives (fillCells assign header count i digits) f s code t) : g.Initialises code := by
  induction count generalizing i digits s code with
  | zero => simp [(gives_pure.mp h).1.symm]
  | succ count ih =>
    simp only [fillCells, gives_bind] at h
    obtain ⟨cell, s₁, hcell, h⟩ := h
    obtain ⟨hknows, hstruct, base, hbase, ha⟩ := slotAt_gives hcell
    have hs₁ := (slotAt_notes hcell).2.ground
    have hcell : cell.unmarked ∈ g.slots := hs ▸ hknows
    have ha : cell.unmarked.address = some (base.toNat + i) := by
      rw [show cell.unmarked.address = _ from ha]
      congr 1
    have hname := hg.cells _ hmem hk item base hitem hbase i (by omega) _ hcell hstruct ha
    split at h
    · simp at h
    · simp only [gives_bind, gives_pure] at h
      obtain ⟨first, s₂, hfirst, rest, s₃, hrest, rfl, rfl⟩ := h
      have hs₂ := (leads_of_gives hfirst).ground.trans (hs₁.trans hs)
      refine initialises_append.mpr ⟨?_, ih (by omega) hs₂ hrest⟩
      exact hassign (hs₁.trans hs) (hknows.congr hs₁) hstruct hname rfl hfirst

theorem fills_assignWithin (hg : g.Tidy) (hf : f.constSentence = true) (depth : Nat) :
    Fills g f (assignWithin depth) := by
  induction depth with
  | zero => exact fun _ _ _ _ _ _ _ _ _ _ h => by simp [assignWithin] at h
  | succ depth ih =>
    intro left right s t code hs hleft hkind hname hright h
    have hmem : left.unmarked ∈ g.slots := hs ▸ hleft
    have ho : left.offset = none := (hg.stored _ hmem).2
    by_cases hk : left.kind = .array
    · obtain ⟨-, h⟩ := assignWithin_array hk ho (hs ▸ hg) h
      rw [fillArray, if_neg (by simp [hright])] at h
      simp only [gives_bind, gives_orFail] at h
      obtain ⟨item, _, ⟨hitem, rfl⟩, hex, _, ⟨-, rfl⟩, h⟩ := h
      split at h
      · simp at h
      · exact initialises_fillCells hg ih hmem hk hitem (by omega) hs h
    · have hconstant : left.kind ≠ .constant := (hg.stored _ hmem).1
      have hvoid : left.kind ≠ .void := by
        intro hvoid
        simp [assignWithin, resolveConstant_of_offset ho, gives_bind, hvoid] at h
      have hplain : left.isPlain = true := by
        rw [Slot.isPlain, ho]
        cases hkind' : left.kind <;> simp_all [Kind.isRegular]
      obtain ⟨w, rfl⟩ := assignWithin_constant hf hplain hright h
      simpa [Initialises] using ⟨_, hmem, hkind, hname, w, rfl⟩

/-! ## Values that are known -/

theorem isTemp_eq_false (hg : g.Tidy) (hs : g.Supports s) (hslot : g.Backs slot)
    (hk : slot.kind = .constant ∨ slot.kind = .array) : s.isTemp slot = false := by
  by_contra htemp
  rw [Bool.not_eq_false] at htemp
  obtain ⟨y, hy, -, hkind, ha⟩ := hslot.lists_of_isTemp htemp
  have harray : y.kind = .array := by
    rw [hkind]
    exact hk.resolve_left fun hconstant => (hg.stored y hy).1 (hkind.trans hconstant)
  obtain ⟨a, hslotAt⟩ : ∃ a, slot.address = some a :=
    Option.isSome_iff_exists.mp (Bool.and_eq_true_iff.mp htemp).1
  simp only [Scope.isTemp, hslotAt, Option.isSome_some, Bool.true_and, Bool.or_eq_true] at htemp
  rcases htemp with hregister | htaken
  · obtain ⟨r, hr, hra⟩ := Pool.contains_iff.mp hregister
    have hr : r ∈ g.registers := hs.ground ▸ hr
    have hyr : y.address = r.address := (ha.trans hslotAt).trans hra.symm
    exact (hg.regular.suits y hy).array harray (hyr ▸ List.mem_map_of_mem hr)
  · obtain ⟨target, htarget, htargetAt⟩ := (Option.any_eq_true _ _).mp htaken
    have htarget : target ∈ s.reuse.target? := by
      revert htarget
      cases s.reuse <;> simp [Reuse.taken?, Reuse.target?]
    obtain ⟨⟨z, hz, -, hzkind, hza⟩, hstruct⟩ := hs.tracks.target target htarget
    have hplain := hs.regular.target target htarget
    have hzy : z = y := by
      refine hg.places z hz y hy (hzkind.trans_ne hstruct) (by simp [harray]) ?_
      rw [hza, ha, hslotAt]
      exact of_decide_eq_true htargetAt
    rw [Slot.isPlain, ← hzkind, hzy, harray] at hplain
    simp [Kind.isRegular] at hplain

theorem own_not_isFixed (hg : g.Tidy) (hs : g.Supports s) (hslot : g.Backs slot)
    (h : Gives (own slot) f s v t) : ¬ v.slot.IsFixed := by
  unfold own at h
  split at h
  · simp at h
  simp only [isTemp, gives_bind, gives_get, gives_pure] at h
  obtain ⟨temp, s₁, ⟨_, _, ⟨rfl, rfl⟩, rfl, rfl⟩, h⟩ := h
  split at h
  · exact Slot.not_isFixed_of_isPlain (copyToScratch_busy (a := 0) hs.regular h).1
  next htemp =>
  have hnot : ¬ (slot.kind = .constant ∨ slot.kind = .array) := fun hk =>
    htemp (by simp [isTemp_eq_false hg hs hslot hk])
  split at h
  · obtain ⟨rfl, -⟩ := gives_pure.mp h
    exact fun hfixed => hnot hfixed.2
  · rw [(loadInPlace_busy (a := 0) hs.regular h).1]
    exact fun hfixed => hnot hfixed.2

def Known (g : Ground) (m : Lower Lowered) : Prop :=
  ∀ ⦃f : Frame⦄ ⦃s : Scope⦄ ⦃v : Lowered⦄ ⦃t : Scope⦄, f.constSentence = true → g.Supports s →
    Gives m f s v t → v.slot.IsFixed → g.Initialises v.code

theorem known_of_not_isFixed (h : ∀ ⦃f s v t⦄, g.Supports s → Gives m f s v t → ¬ v.slot.IsFixed) :
    Known g m :=
  fun _ _ _ _ _ hs hm hfixed => absurd hfixed (h hs hm)

structure Static (g : Ground) (m : Lower Lowered) : Prop where
  orderly : Orderly m
  values : ∃ n, Values (.all g) n m
  known : Known g m

theorem Static.supports (hm : Static g m) (hs : g.Supports s) (h : Gives m f s v t) :
    g.Supports t ∧ g.Backs v.slot := by
  obtain ⟨n, hvalues⟩ := hm.values
  obtain ⟨ht, -, -, hv⟩ := hvalues s.session.jumps trivial (Leave.tracks_all hs.tracks) rfl h
  have := hm.orderly
  exact ⟨⟨ht.toTracks, regular_of_gives h hs.regular⟩, (hv t (.refl t)).1⟩

section Operators

variable {left right operand : Lower Lowered}

theorem known_materialize (condition : Branch → Lower Code) [∀ b, Orderly (condition b)] :
    Known g (materialize condition) := by
  refine known_of_not_isFixed fun f s v t hs h => ?_
  simp only [materialize, gives_bind, gives_pure] at h
  obtain ⟨id, s₁, hid, code, s₂, hcode, scratch, s₃, hscratch, one, s₄, -, rfl, -⟩ := h
  have hs₂ := regular_of_gives hcode (regular_of_gives hid hs.regular)
  exact Slot.not_isFixed_of_isPlain (allocate_isPlain hs₂ hscratch)

theorem stepOperand_not_isFixed (hg : g.Tidy) (hs : g.Supports s) (hslot : g.Backs slot)
    (h : Gives (stepOperand up slot) f s v t) : ¬ v.slot.IsFixed := by
  simp only [stepOperand, gives_bind, gives_pure] at h
  obtain ⟨temp, s₁, htemp, rfl, -⟩ := h
  have hnot := own_not_isFixed hg hs hslot htemp
  exact hnot

theorem operate_not_isFixed (hg : g.Tidy) (hs : g.Supports s) {dest value : Slot} (hdest : g.Backs dest)
    (h : Gives (operate op dest value) f s v t) : ¬ v.slot.IsFixed := by
  simp only [operate, gives_bind, gives_pure] at h
  obtain ⟨temp, s₁, htemp, flat, s₂, -, _, s₃, -, _, s₄, -, rfl, -⟩ := h
  have hnot := own_not_isFixed hg hs hdest htemp
  exact hnot

theorem combine_not_isFixed (hg : g.Tidy) (hs : g.Supports s) {x y : Slot} (hx : g.Backs x)
    (hy : g.Backs y) (h : Gives (combine op x y) f s v t) : ¬ v.slot.IsFixed := by
  obtain ⟨first, second, horder, hcase⟩ := combine_cases h
  have hfirst : g.Backs first := by
    rcases horder with heq | ⟨-, heq⟩ <;> cases heq
    exacts [hx, hy]
  rcases hcase with ⟨-, h⟩ | h
  · exact stepOperand_not_isFixed hg hs hfirst h
  · exact operate_not_isFixed hg hs hfirst h

theorem known_lowerBinary (hg : g.Tidy) (hleft : Static g left) (hright : Static g right) :
    Known g (lowerBinary op left right) := by
  refine known_of_not_isFixed fun f s v t hs h => ?_
  simp only [lowerBinary, gives_bind, gives_pure] at h
  obtain ⟨x, s₁, hx, y, s₂, hy, result, s₃, hresult, rfl, -⟩ := h
  obtain ⟨hs₁, hbacks⟩ := hleft.supports hs hx
  obtain ⟨hs₂, hbacks'⟩ := hright.supports hs₁ hy
  have hnot := combine_not_isFixed hg hs₂ hbacks hbacks' hresult
  exact hnot

theorem known_lowerDiscard : Known g (lowerDiscard operand) := by
  refine known_of_not_isFixed fun f s v t _ h => ?_
  simp only [lowerDiscard, gives_bind, gives_pure] at h
  obtain ⟨x, s₁, -, _, s₂, -, rfl, -⟩ := h
  rintro ⟨-, hk | hk⟩ <;> simp [Slot.void] at hk

theorem initialises_foldConstant (hoperand : Static g operand) {x : Lowered} (hf : f.constSentence = true)
    (hs : g.Supports s) {u : Scope} (hx : Gives operand f s x u) (hc : x.slot.isConstant = true)
    {op : Word → Word} (h : Gives (foldConstant op x) f u v t) : g.Initialises v.code := by
  simp only [foldConstant, constantWord, gives_bind, gives_orFail, gives_pure] at h
  obtain ⟨value, _, -, rfl, -⟩ := h
  have hfixed : x.slot.kind = .constant ∧ x.slot.offset = none := by
    simpa [Slot.isConstant] using hc
  have hcode : g.Initialises x.code := hoperand.known hf hs hx ⟨hfixed.2, .inl hfixed.1⟩
  exact hcode

theorem known_lowerComplement (hg : g.Tidy) (hoperand : Static g operand) :
    Known g (lowerComplement operand) := by
  intro f s v t hf hs h hfixed
  simp only [lowerComplement, gives_bind] at h
  obtain ⟨x, s₁, hx, h⟩ := h
  obtain ⟨hs₁, hbacks⟩ := hoperand.supports hs hx
  split at h
  · next hc => exact initialises_foldConstant hoperand hf hs hx hc h
  · simp only [gives_bind, gives_pure] at h
    obtain ⟨temp, s₂, htemp, rfl, -⟩ := h
    have hnot := own_not_isFixed hg hs₁ hbacks htemp
    exact absurd hfixed hnot

theorem known_lowerNegate (hoperand : Static g operand) : Known g (lowerNegate operand) := by
  intro f s v t hf hs h hfixed
  simp only [lowerNegate, gives_bind] at h
  obtain ⟨x, s₁, hx, h⟩ := h
  split at h
  · next hc => exact initialises_foldConstant hoperand hf hs hx hc h
  · simp only [gives_bind, gives_pure] at h
    obtain ⟨scratch, s₂, hscratch, flat, s₃, -, _, s₄, -, _, s₅, -, rfl, -⟩ := h
    have hplain := allocate_isPlain (hoperand.supports hs hx).1.regular hscratch
    exact absurd hfixed (Slot.not_isFixed_of_isPlain hplain)

theorem known_lowerStep {up before : Bool} {target : Lower Lowered} [Orderly target] :
    Known g (lowerStep up before target) := by
  refine known_of_not_isFixed fun f s v t hs h => ?_
  unfold lowerStep at h
  obtain ⟨⟨slot, code⟩, s₁, htarget, h⟩ := gives_bind.mp h
  dsimp only at h
  split at h
  · next hplain =>
    have hslot : v.slot = slot := by
      split at h
      · rw [← (gives_pure.mp h).1]
      · simp only [gives_bind, gives_pure] at h
        obtain ⟨_, _, -, rfl, -⟩ := h
        rfl
    rw [hslot]
    exact Slot.not_isFixed_of_isPlain hplain
  · split at h
    · simp [gives_bind] at h
    · simp only [gives_bind, gives_pure] at h
      obtain ⟨scratch, s₂, hscratch, _, _, -, _, _, -, _, _, -, rfl, -⟩ := h
      exact Slot.not_isFixed_of_isPlain (allocate_isPlain (regular_of_gives htarget hs.regular) hscratch)

theorem known_lowerCall {args : List (Lower Lowered)} (hargs : ∀ arg ∈ args, Orderly arg) :
    Known g (lowerCall name args) := by
  refine known_of_not_isFixed fun f s v t hs h => ?_
  simp only [lowerCall, gives_bind, gives_get, gives_orFail] at h
  obtain ⟨_, _, ⟨rfl, rfl⟩, signature, _, ⟨-, rfl⟩, h⟩ := h
  split at h
  · simp [gives_bind] at h
  have := orderly_passArguments hargs
  simp only [gives_bind, gives_get, gives_pure] at h
  obtain ⟨passed, s₁, hpassed, _, _, ⟨rfl, rfl⟩, result, s₂, hresult, rfl, -⟩ := h
  unfold fetchResult at hresult
  split at hresult
  · rw [← (gives_pure.mp hresult).1]
    rintro ⟨-, hk | hk⟩ <;> simp [Slot.void] at hk
  · simp only [gives_bind, gives_pure] at hresult
    obtain ⟨scratch, s₃, hscratch, rfl, -⟩ := hresult
    have hplain := allocate_isPlain (regular_of_gives hpassed hs.regular) hscratch
    exact Slot.not_isFixed_of_isPlain (isPlain_typed hplain _).1

end Operators

/-! ## Paths -/

/-- A place that is found by its address only when the program runs. -/
structure Behind (x : Slot) : Prop where
  offset : x.offset ≠ none
  kind : x.kind ≠ .constant

structure Tabled (g : Ground) (v : Lowered) : Prop where
  mem : v.slot.unmarked ∈ g.slots
  code : g.Initialises v.code

theorem flatten_kind (hg : g.Tidy) (hs : s.Regular) (hground : s.ground = g) (ho : slot.offset ≠ none)
    {flat : Flat} (h : Gives (flatten slot) f s flat t) : flat.slot.kind ≠ .constant := by
  rw [flatten, gives_get_bind] at h
  cases flattenWith_cases h with
  | named _ hc | literal hc => simp_all [Slot.isConstant]
  | cell words x _ _ hx hflat =>
    subst hflat
    have hmem : x.unmarked ∈ g.slots := hground ▸ (slotAt_notes hx).1
    exact (hg.stored _ hmem).1
  | word hk => exact absurd (hk.elim Slot.offset_of_isPlain And.right) ho
  | load _ _ h =>
    exact Slot.kind_ne_of_isPlain (intoScratch_busy (a := 0) (returns_assignWithin _) hs h).1

theorem intoBase_kind (hg : g.Tidy) (hs : s.Regular) (hground : s.ground = g)
    (hk : slot.offset = none → slot.kind ≠ .constant) (h : Gives (intoBase slot) f s v t) :
    v.slot.kind ≠ .constant := by
  unfold intoBase at h
  split at h
  · next ho =>
    rw [← (gives_pure.mp h).1]
    exact hk (by simpa using ho)
  · next ho =>
    simp only [gives_bind, gives_pure] at h
    obtain ⟨flat, s₁, hflat, _, s₂, -, rfl, -⟩ := h
    exact flatten_kind hg hs hground (by simpa using ho) hflat

section Paths

variable {leftSide : Bool} {member : String}

theorem indexPointer_behind (hg : g.Tidy) (hs : s.Regular) (hground : s.ground = g)
    (hk : slot.kind ≠ .constant) (h : Gives (indexPointer slot index) f s v t) : Behind v.slot := by
  refine ⟨indexPointer_offset h, ?_⟩
  unfold indexPointer at h
  split at h
  · simp at h
  simp only [gives_bind] at h
  obtain ⟨base, s₁, hbase, i, s₂, -, h⟩ := h
  have hkind := intoBase_kind hg hs hground (fun _ => hk) hbase
  split at h <;> simp only [gives_bind, gives_pure] at h
  · obtain ⟨_, _, -, rfl, -⟩ := h
    exact hkind
  · obtain ⟨_, _, -, _, _, -, rfl, -⟩ := h
    exact hkind

theorem arrowMember_behind (hg : g.Tidy) (hs : s.Regular) (hground : s.ground = g)
    (hk : slot.kind ≠ .constant) (h : Gives (arrowMember slot member) f s v t) : Behind v.slot := by
  refine ⟨arrowMember_offset h, ?_⟩
  unfold arrowMember at h
  split at h
  · simp at h
  simp only [gives_bind, gives_pure] at h
  obtain ⟨_, s₁, hmember, base, s₂, hbase, rfl, -⟩ := h
  obtain rfl := wordMember_same hmember
  have hkind := intoBase_kind hg hs hground (fun _ => hk) hbase
  exact hkind

theorem memberOf_cases (h : Gives (memberOf leftSide slot member) f s v t) :
    slot.offset = none ∧ s.Knows v.slot ∧ v.code = [] ∧ s.Notes t ∨ Behind v.slot := by
  unfold memberOf at h
  split at h
  · next ho =>
    simp only [gives_bind, gives_onSide, gives_orFail, gives_pure] at h
    obtain ⟨found, s₁, hfound, x, _, ⟨rfl, rfl⟩, rfl, rfl⟩ := h
    obtain ⟨hknows, hnotes⟩ := lookupAsm?_notes hfound
    exact .inl ⟨ho, hknows x rfl, rfl, hnotes⟩
  · next hk _ _ =>
    split at h
    · refine .inr ⟨memberOfCell_offset h, ?_⟩
      unfold memberOfCell at h
      obtain ⟨⟨distance, template⟩, s₁, -, h⟩ := gives_bind.mp h
      obtain ⟨indexSlot, s₂, -, h⟩ := gives_bind.mp h
      split at h
      · rw [← (gives_pure.mp h).1]
        simp [hk]
      · simp only [gives_bind, gives_pure] at h
        obtain ⟨total, s₃, -, address, s₄, -, rfl, -⟩ := h
        simp [hk]
    · simp at h
  · simp at h

theorem followAfter_behind (hg : g.Tidy) (hpath : ∀ step ∈ path, step.Orderly) (hs : s.Regular)
    (hground : s.ground = g) (hhere : Behind here.slot)
    (h : Gives (followAfter leftSide skip here path) f s v t) : Behind v.slot := by
  induction path generalizing skip here s with
  | nil =>
    rw [followAfter] at h
    exact (gives_pure.mp h).1 ▸ hhere
  | cons step rest ih =>
    have hrest : ∀ step ∈ rest, step.Orderly := fun step hs => hpath step (by simp [hs])
    have hnext {slot : Slot} {code : Code} {u : Scope} (hu : s.Leads u) (hslot : Behind slot)
        (h : Gives (followAfter leftSide 0 ⟨slot, code⟩ rest) f u v t) : Behind v.slot := by
      have hslot : Behind (Lowered.mk slot code).slot := hslot
      exact ih hrest (hu.regular hs) (hu.ground.trans hground) hslot h
    cases skip with
    | succ skip =>
      rw [followAfter] at h
      exact ih hrest hs hground hhere h
    | zero =>
      cases step with
      | index value =>
        have : Orderly value := (hpath _ (by simp)).index rfl
        rw [followAfter, if_neg (by simp [hhere.offset])] at h
        obtain ⟨cell, s₁, hcell, h⟩ := gives_bind.mp h
        exact hnext (leads_of_gives hcell) (indexPointer_behind hg hs hground hhere.kind hcell) h
      | member name =>
        rw [followAfter] at h
        obtain ⟨member, s₁, hmember, h⟩ := gives_bind.mp h
        have hbehind := (memberOf_cases hmember).resolve_left fun hnone => hhere.offset hnone.1
        exact hnext (leads_of_gives hmember) hbehind h
      | arrow name =>
        rw [followAfter] at h
        obtain ⟨member, s₁, hmember, h⟩ := gives_bind.mp h
        exact hnext (leads_of_gives hmember) (arrowMember_behind hg hs hground hhere.kind hmember) h

theorem addStored_stored {index : Slot} (h : Gives (sum.addStored stride index) f s sum' t) :
    sum'.stored ≠ none := by
  unfold IndexSum.addStored at h
  obtain ⟨term, s₁, -, h⟩ := gives_bind.mp h
  dsimp only at h
  split at h
  · rw [← (gives_pure.mp h).1]
    simp
  · simp only [gives_bind, gives_pure] at h
    obtain ⟨total, s₂, -, added, s₃, -, rfl, -⟩ := h
    simp

theorem addIndex_cases {dimension stride : Word}
    (h : Gives (sum.addIndex dimension stride index) f s sum' t) :
    sum'.stored ≠ none ∨ ∃ v, Gives index f s v t ∧ v.slot.IsFixed ∧ sum'.stored = sum.stored ∧
      sum'.code = sum.code ++ v.code := by
  unfold IndexSum.addIndex at h
  obtain ⟨v, s₁, hv, h⟩ := gives_bind.mp h
  dsimp only at h
  split at h
  · next hc =>
    simp only [constantWord, gives_bind, gives_orFail] at h
    obtain ⟨value, _, ⟨-, rfl⟩, h⟩ := h
    split at h
    · simp at h
    · obtain ⟨rfl, rfl⟩ := gives_pure.mp h
      have hfixed : v.slot.kind = .constant ∧ v.slot.offset = none := by
        simpa [Slot.isConstant] using hc
      exact .inr ⟨v, hv, ⟨hfixed.2, .inl hfixed.1⟩, rfl, rfl⟩
  · exact .inl (addStored_stored h)

theorem addIndexes_stored (hstored : sum.stored ≠ none)
    (h : Gives (sum.addIndexes dimensions strides indexes) f s sum' t) : sum'.stored ≠ none := by
  fun_induction IndexSum.addIndexes sum dimensions strides indexes generalizing s with
  | case1 sum dimension dimensions stride strides index indexes ih =>
    obtain ⟨sum₁, s₁, hsum, h⟩ := gives_bind.mp h
    refine ih sum₁ ?_ h
    rcases addIndex_cases hsum with hsome | ⟨v, -, -, hsame, -⟩
    · exact hsome
    · exact hsame ▸ hstored
  | case2 => exact (gives_pure.mp h).1 ▸ hstored

theorem addIndexes_known (hindexes : ∀ index ∈ indexes, Static g index) (hf : f.constSentence = true)
    (hs : g.Supports s) (hcode : g.Initialises sum.code)
    (h : Gives (sum.addIndexes dimensions strides indexes) f s sum' t) (hstored : sum'.stored = none) :
    g.Supports t ∧ g.Initialises sum'.code := by
  fun_induction IndexSum.addIndexes sum dimensions strides indexes generalizing s with
  | case1 sum dimension dimensions stride strides index indexes ih =>
    obtain ⟨sum₁, s₁, hsum, h⟩ := gives_bind.mp h
    have hindex := hindexes index (by simp)
    rcases addIndex_cases hsum with hsome | ⟨v, hv, hfixed, -, hsum₁⟩
    · exact absurd hstored (addIndexes_stored hsome h)
    · refine ih sum₁ (fun index hindex => hindexes index (by simp [hindex])) (hindex.supports hs hv).1 ?_ h
      rw [hsum₁, initialises_append]
      exact ⟨hcode, hindex.known hf hs hv hfixed⟩
  | case2 =>
    obtain ⟨rfl, rfl⟩ := gives_pure.mp h
    exact ⟨hs, hcode⟩

theorem indexArray_cases (hk : header.kind = .array) (hindexes : ∀ index ∈ indexes, Static g index)
    (hf : f.constSentence = true) (hs : g.Supports s)
    (h : Gives (indexArray leftSide header indexes) f s (v, count) t) :
    Tabled g v ∧ g.Supports t ∨ Behind v.slot := by
  simp only [indexArray, gives_bind, gives_get, gives_orFail] at h
  obtain ⟨_, _, ⟨rfl, rfl⟩, shape, _, ⟨-, rfl⟩, item, _, ⟨-, rfl⟩, h⟩ := h
  split at h
  · simp [gives_bind] at h
  simp only [gives_bind, gives_pure, Prod.mk.injEq] at h
  obtain ⟨sum, s₁, hsum, cell, s₂, hcell, ⟨rfl, -⟩, rfl⟩ := h
  unfold summedCell at hcell
  split at hcell <;> simp only [gives_bind, gives_pure] at hcell
  · next hnone =>
    obtain ⟨x, s₃, hx, rfl, rfl⟩ := hcell
    obtain ⟨hs₁, hcode⟩ := addIndexes_known hindexes hf hs initialises_nil hsum hnone
    have hmem : x.unmarked ∈ g.slots := hs₁.ground ▸ (knownCell_notes hx).1
    exact .inl ⟨⟨hmem, hcode⟩, hs₁.notes (knownCell_notes hx).2⟩
  · obtain ⟨x, s₃, hx, rfl, -⟩ := hcell
    have hoffset := computedCell_offset hx
    simp only [computedCell, gives_bind, gives_pure] at hx
    obtain ⟨total, s₁, -, address, s₂, -, rfl, -⟩ := hx
    exact .inr ⟨hoffset, by simp [hk]⟩

def Step.Static (g : Ground) (step : Step) : Prop :=
  ∀ value, step = .index value → Lower.Static g value

theorem Step.Static.orderly {step : Step} (h : step.Static g) : step.Orderly :=
  ⟨fun hvalue => (h _ hvalue).orderly⟩

theorem followAfter_cases (hg : g.Tidy) (hpath : ∀ step ∈ path, step.Static g)
    (hf : f.constSentence = true) (hs : g.Supports s) (hhere : Tabled g here)
    (h : Gives (followAfter leftSide skip here path) f s v t) : Tabled g v ∨ Behind v.slot := by
  induction path generalizing skip here s with
  | nil =>
    rw [followAfter] at h
    exact .inl ((gives_pure.mp h).1 ▸ hhere)
  | cons step rest ih =>
    have hrest : ∀ step ∈ rest, step.Static g := fun step hs => hpath step (by simp [hs])
    have hstored := hg.stored _ hhere.mem
    have hkind : here.slot.kind ≠ .constant := hstored.1
    -- The rest of the path, from a place of the table or from behind one.
    have hnext {skip : Nat} {x : Lowered} {u : Scope} (hu : s.Leads u)
        (hx : Tabled g x ∧ g.Supports u ∨ Behind x.slot)
        (h : Gives (followAfter leftSide skip ⟨x.slot, here.code ++ x.code⟩ rest) f u v t) :
        Tabled g v ∨ Behind v.slot := by
      rcases hx with ⟨hx, hu⟩ | hx
      · have hx : Tabled g ⟨x.slot, here.code ++ x.code⟩ :=
          ⟨hx.mem, initialises_append.mpr ⟨hhere.code, hx.code⟩⟩
        exact ih hrest hu hx h
      · have hx : Behind (Lowered.mk x.slot (here.code ++ x.code)).slot := hx
        exact .inr (followAfter_behind hg (fun step hstep => (hrest step hstep).orderly)
          (hu.regular hs.regular) (hu.ground.trans hs.ground) hx h)
    cases skip with
    | succ skip =>
      rw [followAfter] at h
      exact ih hrest hs hhere h
    | zero =>
      cases step with
      | index value =>
        have hindexes : ∀ index ∈ value :: leadingIndexes rest, Static g index := fun index hindex =>
          have hmem : Step.index index ∈ Step.index value :: rest := mem_of_mem_leadingIndexes hindex
          hpath _ hmem _ rfl
        have := (hindexes value (by simp)).orderly
        have := orderly_indexArray (fun index hindex => (hindexes index hindex).orderly) leftSide
        rw [followAfter] at h
        split at h
        · next harray =>
          obtain ⟨⟨cell, taken⟩, s₁, hcell, h⟩ := gives_bind.mp h
          exact hnext (leads_of_gives hcell) (indexArray_cases harray.1 hindexes hf hs hcell) h
        · obtain ⟨cell, s₁, hcell, h⟩ := gives_bind.mp h
          exact hnext (leads_of_gives hcell)
            (.inr (indexPointer_behind hg hs.regular hs.ground hkind hcell)) h
      | member name =>
        rw [followAfter] at h
        obtain ⟨member, s₁, hmember, h⟩ := gives_bind.mp h
        refine hnext (leads_of_gives hmember) ?_ h
        rcases memberOf_cases hmember with ⟨_, hknows, hcode, hnotes⟩ | hbehind
        · exact .inl ⟨⟨hs.ground ▸ hknows, by simp [hcode]⟩, hs.notes hnotes⟩
        · exact .inr hbehind
      | arrow name =>
        rw [followAfter] at h
        obtain ⟨member, s₁, hmember, h⟩ := gives_bind.mp h
        exact hnext (leads_of_gives hmember)
          (.inr (arrowMember_behind hg hs.regular hs.ground hkind hmember)) h

theorem lowerLookup_cases (hg : g.Tidy) (hpath : ∀ step ∈ path, step.Static g)
    (hf : f.constSentence = true) (hs : g.Supports s) (h : Gives (lowerLookup name path) f s v t) :
    Tabled g v ∨ Behind v.slot := by
  simp only [lowerLookup, gives_bind, gives_read] at h
  obtain ⟨_, _, ⟨rfl, rfl⟩, slot, s₁, hslot, h⟩ := h
  obtain ⟨hknows, hnotes⟩ := lookup_notes hslot
  have hmem : slot.unmarked ∈ g.slots := hs.ground ▸ hknows
  split at h
  · obtain ⟨rfl, -⟩ := gives_pure.mp h
    exact .inl ⟨hmem, initialises_nil⟩
  · rw [gives_onSide] at h
    exact followAfter_cases hg hpath (f := { f with leftSide := false }) hf (hs.notes hnotes)
      ⟨hmem, initialises_nil⟩ h

end Paths

/-! ## Places -/

/-- What the target of an assignment can be: a place of the table, one that is given by its address, or
one that is found only when the program runs. -/
inductive Ends (g : Ground) (v : Lowered) : Prop
  | tabled (h : Tabled g v)
  | address (hk : v.slot.kind = .constant) (hcode : g.Initialises v.code)
  | behind (h : Behind v.slot)

def Places (g : Ground) (m : Lower Lowered) : Prop :=
  ∀ ⦃f : Frame⦄ ⦃s : Scope⦄ ⦃v : Lowered⦄ ⦃t : Scope⦄, f.constSentence = true → g.Supports s →
    Gives m f s v t → Ends g v

theorem places_lowerLookup (hg : g.Tidy) (hpath : ∀ step ∈ path, step.Static g) :
    Places g (lowerLookup name path) :=
  fun _ _ _ _ hf hs h => (lowerLookup_cases hg hpath hf hs h).elim .tabled .behind

theorem places_lowerDeref (hg : g.Tidy) (hoperand : Static g operand) :
    Places g (lowerDeref operand) := by
  intro f s v t hf hs h
  unfold lowerDeref at h
  obtain ⟨⟨slot, code⟩, s₁, hx, h⟩ := gives_bind.mp h
  have hs₁ := (hoperand.supports hs hx).1
  have hknown := hoperand.known hf hs hx
  dsimp only at h
  split at h
  · next harray =>
    simp only [gives_bind, gives_pure] at h
    obtain ⟨x, s₂, hcell, rfl, -⟩ := h
    have hmem : x.unmarked ∈ g.slots := hs₁.ground ▸ (slotAt_notes hcell).1
    exact .tabled ⟨hmem, hknown ⟨by simpa using harray.2, .inr harray.1⟩⟩
  · simp only [gives_bind, gives_pure] at h
    obtain ⟨base, s₂, hbase, rfl, -⟩ := h
    by_cases hk : base.slot.kind = .constant
    · by_cases ho : slot.offset = none
      · rw [intoBase, if_pos (by simp [ho])] at hbase
        obtain ⟨rfl, -⟩ := gives_pure.mp hbase
        exact .address hk (by simpa using hknown ⟨ho, .inl hk⟩)
      · exact absurd hk (intoBase_kind hg hs₁.regular hs₁.ground (fun h => absurd h ho) hbase)
    · exact .behind ⟨by simp, hk⟩

theorem Ends.initialises (h : Ends g v) (ho : v.slot.offset = none) : g.Initialises v.code := by
  cases h with
  | tabled h => exact h.code
  | address _ hcode => exact hcode
  | behind h => exact absurd ho h.offset

theorem Places.known (h : Places g m) : Known g m :=
  fun _ _ _ _ hf hs hm hfixed => (h hf hs hm).initialises hfixed.1

theorem known_lowerAddressOf [Orderly operand] (h : Places g operand) :
    Known g (lowerAddressOf operand) := by
  intro f s v t hf hs hv hfixed
  unfold lowerAddressOf at hv
  obtain ⟨⟨slot, code⟩, s₁, hx, hv⟩ := gives_bind.mp hv
  dsimp only at hv
  split at hv
  · next ho =>
    simp only [gives_bind, gives_pure] at hv
    obtain ⟨address, s₂, -, rfl, -⟩ := hv
    have hcode : g.Initialises code := (h hf hs hx).initialises ho
    exact hcode
  · simp only [gives_bind, gives_pure, computedAddress] at hv
    obtain ⟨address, s₂, ⟨scratch, s₃, hscratch, _, _, -, _, _, -, _, _, -, _, _, -, rfl, -⟩, rfl, -⟩ := hv
    have hplain := allocate_isPlain (regular_of_gives hx hs.regular) hscratch
    exact absurd hfixed (Slot.not_isFixed_of_isPlain (isPlain_typed hplain _).1)

section Targets

variable {namesPlace : Bool} {target : Lower Lowered}

theorem Static.lowerTarget (h : Static g target) : Static g (lowerTarget namesPlace target) where
  orderly := by
    have := h.orderly
    infer_instance
  values := h.values.imp fun _ hvalues => values_lowerTarget hvalues namesPlace
  known f _ _ _ hf hs hv := h.known (f := { f with leftSide := true }) hf hs (lowerTarget_gives hv).2.1

theorem lowerTarget_tabled (h : namesPlace = true → Places g target) (hf : f.constSentence = true)
    (hs : g.Supports s) (hv : Gives (lowerTarget namesPlace target) f s v t) (ho : v.slot.offset = none) :
    Tabled g v := by
  obtain ⟨hplace, hvalue, hconstant, -⟩ := lowerTarget_gives hv
  cases h hplace (f := { f with leftSide := true }) hf hs hvalue with
  | tabled h => exact h
  | address hk _ => exact absurd ⟨hk, ho⟩ hconstant
  | behind h => exact absurd ho h.offset

theorem assign_array {left right : Slot} (hg : g.Tidy) (hs : s.ground = g) (hk : left.kind = .array)
    (ho : left.offset = none) (h : Gives (assign left right) f s code t) :
    right.isConstant = true ∧ ∃ depth, Gives (assignWithin depth left right) f s code t := by
  rw [assign, gives_get_bind] at h
  exact ⟨(assignWithin_array hk ho (hs ▸ hg) h).1, _, h⟩

theorem known_lowerAssign (hg : g.Tidy) {op : Option BinaryOp} {conflicts : Bool} {value : Lower Lowered}
    (htarget : Static g target) (hplaces : namesPlace = true → Places g target)
    (hvalue : Static g value) :
    Known g (lowerAssign op conflicts (lowerTarget namesPlace target) value) := by
  intro f s v t hf hs h hfixed
  simp only [lowerAssign, gives_bind] at h
  obtain ⟨place, s₁, hplace, _, s₂, hreserve, w, s₃, hw, h⟩ := h
  obtain ⟨hs₁, hbacks⟩ := htarget.lowerTarget.supports hs hplace
  have hs₂ := hs₁.quiet (quiet_reserveTarget (target_all hbacks) _) hreserve
  obtain ⟨hs₃, -⟩ := hvalue.supports hs₂ hw
  split at h
  · simp at h
  have htabled (hfixed : place.slot.IsFixed) : Tabled g place ∧ place.slot.kind = .array := by
    have htabled := lowerTarget_tabled hplaces hf hs hplace hfixed.1
    exact ⟨htabled, hfixed.2.resolve_left (hg.stored _ htabled.mem).1⟩
  cases op with
  | none =>
    simp only [gives_bind, gives_pure, storeValue] at h
    obtain ⟨code, s₄, ⟨_, s₅, hstore, _, _, -, rfl, -⟩, rfl, -⟩ := h
    obtain ⟨hplaced, hk⟩ := htabled hfixed
    obtain ⟨hconstant, depth, hstore⟩ := assign_array hg hs₃.ground hk hfixed.1 hstore
    have hwfixed : w.slot.kind = .constant ∧ w.slot.offset = none := by
      simpa [Slot.isConstant] using hconstant
    have hknows : s₃.Knows place.slot := by
      rw [Scope.Knows, hs₃.ground]
      exact hplaced.mem
    have hcode := fills_assignWithin hg hf depth hs₃.ground hknows (by simp [hk])
      (hg.isRegisterName_of_array hplaced.mem hk) hconstant hstore
    simp only [initialises_append]
    exact ⟨⟨hplaced.code, hvalue.known hf hs₂ hw ⟨hwfixed.2, .inl hwfixed.1⟩⟩, hcode⟩
  | some op =>
    simp only [gives_bind, gives_pure] at h
    obtain ⟨code, s₄, hupdate, rfl, -⟩ := h
    obtain ⟨-, hk⟩ := htabled hfixed
    -- A scratch place is no constant.
    rw [updateTarget, if_neg (by simp [Slot.isPlain, hk, Kind.isRegular])] at hupdate
    simp only [gives_bind, gives_pure] at hupdate
    obtain ⟨scratch, s₅, hscratch, loaded, s₆, hloaded, changed, s₇, hchanged, stored, s₈, hstored, -⟩ :=
      hupdate
    have hplain := allocate_isPlain hs₃.regular hscratch
    have hground := ((leads_of_gives hscratch).trans (leads_of_gives hloaded)).trans
      (leads_of_gives hchanged)
    have hconstant := (assign_array hg (hground.ground.trans hs₃.ground) hk hfixed.1 hstored).1
    simp only [Slot.isConstant, Bool.and_eq_true, decide_eq_true_eq] at hconstant
    simp [Slot.isPlain, hconstant.1, Kind.isRegular] at hplain

end Targets

end Lower

/-! ## Expressions -/

namespace Expr

open Lower

variable {g : Ground}

theorem static_of_known (hg : g.Tidy) {e : Expr} (h : Known g e.lowering.value) :
    Static g e.lowering.value :=
  ⟨inferInstanceAs (Orderly e.lower), ⟨_, (e.links_lowering (Leave.fair_all hg.fair) passes_all).value⟩, h⟩

mutual

theorem static_lowering (hg : g.Tidy) : (e : Expr) → Static g e.lowering.value
  | constant hex fixed line => static_of_known hg fun f s v t _ _ h _ => by
    have hv := (gives_pure.mp h).1
    simp [← hv]
  | lookup name path line =>
    static_of_known hg (places_lowerLookup hg (static_pathSteps hg path)).known
  | call name args line => static_of_known hg (known_lowerCall (orderly_argValues args))
  | unary .not operand line =>
    static_of_known hg (known_materialize fun b => operand.lowering.branch b.swap)
  | unary .addressOf operand line => by
    refine static_of_known hg ?_
    simp only [lowering, Lowering.ofUnary, Lowering.ofValue]
    split
    · next hlookup =>
      cases operand <;> simp [isLookup] at hlookup
      next name path line =>
      exact known_lowerAddressOf (places_lowerLookup hg (static_pathSteps hg path))
    · exact fun _ _ _ _ _ _ h => absurd h gives_fail
  | unary .castVoid operand line => static_of_known hg known_lowerDiscard
  | unary .deref operand line => static_of_known hg (places_lowerDeref hg (static_lowering hg operand)).known
  | unary .neg operand line => static_of_known hg (known_lowerNegate (static_lowering hg operand))
  | unary .bitNot operand line => static_of_known hg (known_lowerComplement hg (static_lowering hg operand))
  | binary op left right line =>
    static_of_known hg (known_lowerBinary hg (static_lowering hg left) (static_lowering hg right))
  | compare op left right line => static_of_known hg (known_materialize _)
  | logical op left right line => static_of_known hg (known_materialize _)
  | assign op target value line => static_of_known hg (known_lowerAssign hg (static_lowering hg target)
      (places_lowering hg target) (static_lowering hg value))
  | step up before target line => static_of_known hg known_lowerStep

theorem places_lowering (hg : g.Tidy) : (e : Expr) → e.namesPlace = true → Places g e.lowering.value
  | lookup _ path _, _ => places_lowerLookup hg (static_pathSteps hg path)
  | unary .deref operand _, _ => places_lowerDeref hg (static_lowering hg operand)

theorem static_pathSteps (hg : g.Tidy) : (path : List Access) → ∀ step ∈ pathSteps path, step.Static g
  | [] => by simp [pathSteps]
  | .index index :: rest => by
    have hindex := static_lowering hg index
    have hrest := static_pathSteps hg rest
    simp only [pathSteps, List.forall_mem_cons]
    exact ⟨fun value hvalue => Step.index.inj hvalue ▸ hindex, hrest⟩
  | .member name :: rest | .arrow name :: rest => by
    have hrest := static_pathSteps hg rest
    simp only [pathSteps, List.forall_mem_cons]
    exact ⟨nofun, hrest⟩

end

end Expr

end Flatword
