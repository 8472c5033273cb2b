import Mathlib.Data.Set.Basic
import Flatword.Proofs.Label
import Flatword.Proofs.Registers

/-!
# What the code for operands does

The code that brings an operand, a constant or a plain word, into place changes nothing but places that were
spare: free registers and a reserved target. So a value that waits in another place stays there.
-/

namespace Flatword

variable {s t : Scope} {μ μ' : Memory} {m : Machine} {read : Memory → Word} {slot : Slot}

/-- Two memories are the same but for some places. -/
def AgreeOutside (S : Set Nat) (μ μ' : Memory) : Prop :=
  ∀ a, a ∉ S → μ' a = μ a

namespace AgreeOutside

variable {S T : Set Nat} {μ μ₁ μ₂ : Memory}

theorem refl (S : Set Nat) (μ : Memory) : AgreeOutside S μ μ :=
  fun _ _ => rfl

theorem trans (h : AgreeOutside S μ μ₁) (h' : AgreeOutside S μ₁ μ₂) : AgreeOutside S μ μ₂ :=
  fun a ha => (h' a ha).trans (h a ha)

theorem mono (h : AgreeOutside S μ μ₁) (hST : S ⊆ T) : AgreeOutside T μ μ₁ :=
  fun a ha => h a fun hS => ha (hST hS)

theorem update (h : AgreeOutside S μ μ₁) {a : Nat} (ha : a ∈ S) (w : Word) :
    AgreeOutside S μ (Function.update μ₁ a w) := by
  intro b hb
  have hne : b ≠ a := fun heq => hb (heq ▸ ha)
  rw [Function.update_of_ne hne]
  exact h b hb

end AgreeOutside

namespace Machine

variable {m : Machine} {code code' : Code} {μ μ₁ μ₂ : Memory} {dest src : String} {a b : Nat}

/-- Code without jumps takes one memory to another, whatever is on the stack. -/
def Runs (m : Machine) (code : Code) (μ μ' : Memory) : Prop :=
  ∀ stack, m.flow code (.falling ⟨μ, stack⟩) = .falling ⟨μ', stack⟩

theorem Runs.nil : m.Runs [] μ μ :=
  fun _ => rfl

theorem Runs.append (h : m.Runs code μ μ₁) (h' : m.Runs code' μ₁ μ₂) :
    m.Runs (code ++ code') μ μ₂ := by
  intro stack
  rw [flow_append, h, h']

theorem read_of_place (hb : m.place src = some b) : m.read μ src = some (μ b) := by
  rw [read, hb, Option.map_some]

theorem write_of_place (ha : m.place dest = some a) (w : Word) :
    m.write μ dest w = some (Function.update μ a w) := by
  rw [write, ha, Option.map_some]

theorem change_of_place (ha : m.place dest = some a) (g : Word → Word) :
    m.change μ dest g = some (Function.update μ a (g (μ a))) := by
  rw [change, read_of_place ha, Option.bind_eq_bind, Option.bind_some, write_of_place ha]

theorem runs_of_effect {instr : Instr} (hi : instr.isStraight = true)
    (h : m.effect μ instr = some μ₁) : m.Runs [instr] μ μ₁ := by
  intro stack
  have hact : m.act ⟨μ, stack⟩ instr = .next ⟨μ₁, stack⟩ := by
    cases instr <;> simp [Instr.isStraight] at hi <;> simp [act, h]
  rw [flow_cons, flow_nil, pass, hact]

theorem runs_move (ha : m.place dest = some a) (hb : m.place src = some b) :
    m.Runs [.move dest src] μ (Function.update μ a (μ b)) := by
  refine runs_of_effect rfl ?_
  show (m.read μ src).bind (m.write μ dest) = _
  rw [read_of_place hb, Option.bind_some, write_of_place ha]

theorem runs_setImmediate {hex : String} {w : Word} (ha : m.place dest = some a)
    (hw : Hex.value? hex = some w) :
    m.Runs [.setImmediate dest hex] μ (Function.update μ a w) := by
  refine runs_of_effect rfl ?_
  show (Hex.value? hex).bind (m.write μ dest) = _
  rw [hw, Option.bind_some, write_of_place ha]

theorem runs_clear (ha : m.place dest = some a) :
    m.Runs [.clear dest] μ (Function.update μ a 0) :=
  runs_of_effect rfl (write_of_place ha 0)

theorem runs_stepInstr (ha : m.place dest = some a) (up : Bool) :
    m.Runs [Lower.stepInstr up dest] μ
      (Function.update μ a (if up then μ a + 1 else μ a - 1)) := by
  cases up with
  | false => exact runs_of_effect rfl (change_of_place ha (· - 1))
  | true => exact runs_of_effect rfl (change_of_place ha (· + 1))

theorem runs_not (ha : m.place dest = some a) :
    m.Runs [.not dest] μ (Function.update μ a (~~~ μ a)) :=
  runs_of_effect rfl (change_of_place ha (~~~ ·))

theorem runs_arith (op : BinaryOp) (ha : m.place dest = some a) (hb : m.place src = some b) :
    m.Runs [.arith op dest src] μ (Function.update μ a (m.alu.apply op (μ a) (μ b))) := by
  refine runs_of_effect rfl ?_
  show ((m.read μ src).bind fun w => m.change μ dest (m.alu.apply op · w)) = _
  rw [read_of_place hb, Option.bind_some, change_of_place ha]

end Machine

/-! ## Places -/

namespace Scope

/-- The addresses of the registers. -/
def registers (s : Scope) : Set Nat :=
  {a | some a ∈ s.ground.registers.map Slot.address}

/-- The places that may be handed out next: free registers and a reserved target. -/
def spare (s : Scope) : Set Nat :=
  {a | s.pool.Free a ∨ ∃ target, s.reuse = .reserved target ∧ target.address = some a}

/-- The places that may still be handed out at some time. -/
def workspace (s : Scope) : Set Nat :=
  {a | a ∈ s.registers ∨ ∃ target, s.reuse = .reserved target ∧ target.address = some a}

/-- All scratch places: the registers and the target, handed out or not. -/
def scratch (s : Scope) : Set Nat :=
  {a | a ∈ s.registers ∨ ∃ target ∈ s.reuse.target?, target.address = some a}

theorem mem_registers_of_free {s : Scope} {a : Nat} (h : s.pool.Free a) : a ∈ s.registers := by
  obtain ⟨r, hr, -, ha⟩ := h
  exact List.mem_map.mpr ⟨r.slot, List.mem_map_of_mem hr, ha⟩

theorem spare_subset_workspace (s : Scope) : s.spare ⊆ s.workspace := by
  rintro a (ha | ha)
  · exact .inl (mem_registers_of_free ha)
  · exact .inr ha

theorem workspace_subset_scratch (s : Scope) : s.workspace ⊆ s.scratch := by
  rintro a (ha | ⟨target, hr, ha⟩)
  · exact .inl ha
  · exact .inr ⟨target, by simp [hr, Reuse.target?], ha⟩

/-- A later scope of the same statement, between which no assignment has reserved its target. -/
structure Continues (s t : Scope) : Prop where
  ground : t.ground = s.ground
  target : t.reuse.target? = s.reuse.target?
  reserved : ∀ {target}, t.reuse = .reserved target → s.reuse = .reserved target
  post : t.post = s.post

namespace Continues

variable {s t u : Scope}

theorem refl (s : Scope) : s.Continues s :=
  ⟨rfl, rfl, id, rfl⟩

theorem trans (h : s.Continues t) (h' : t.Continues u) : s.Continues u :=
  ⟨h'.ground.trans h.ground, h'.target.trans h.target, fun hr => h.reserved (h'.reserved hr),
    h'.post.trans h.post⟩

theorem of_notes (h : s.Notes t) : s.Continues t :=
  ⟨h.ground, by rw [h.reuse], by rw [h.reuse]; exact id, h.post⟩

theorem registers (h : s.Continues t) : t.registers = s.registers := by
  unfold Scope.registers
  rw [h.ground]

theorem scratch (h : s.Continues t) : t.scratch = s.scratch := by
  unfold Scope.scratch
  rw [h.registers, h.target]

theorem workspace (h : s.Continues t) : t.workspace ⊆ s.workspace := by
  rintro a (ha | ⟨target, hr, ha⟩)
  · exact .inl (h.registers ▸ ha)
  · exact .inr ⟨target, h.reserved hr, ha⟩

end Continues

theorem Notes.spare {s t : Scope} (h : s.Notes t) : t.spare = s.spare := by
  simp only [Scope.spare, h.pool, h.reuse]

end Scope

/-! ## Constants in memory -/

theorem ne_numbered_of_underscore {name : String} (h : '_' ∈ name.toList) (v : Word) :
    name ≠ s!"n{v}" ∧ name ≠ s!"f{v}" := by
  have hdigits : '_' ∉ (toString v).toList := by
    intro hmem
    have hmem : '_' ∈ v.toNat.repr.toList := hmem
    rw [Nat.toList_repr] at hmem
    exact absurd (Nat.isDigit_of_mem_toDigits (by decide) (by decide) hmem) (by decide)
  constructor <;>
  · rintro rfl
    simp only [String.toList_append, List.mem_append, hdigits, or_false] at h
    revert h
    decide

namespace Ground

/-- A slot that stands for a constant, by its name and its recorded content. -/
structure Names (g : Ground) (slot : Slot) (w : Word) : Prop where
  mem : slot ∈ g.slots
  content : slot.content = some (Hex.ofWord w)
  name : slot.asmName = s!"n{w}" ∨ slot.asmName = s!"f{w}"

/-- The slots that stand for constants hold them. -/
def HoldIn (g : Ground) (μ : Memory) : Prop :=
  ∀ slot w a, g.Names slot w → slot.address = some a → μ a = w

end Ground

/-- A machine has a slot at its address. -/
def Slot.IsAt (m : Machine) (slot : Slot) (a : Nat) : Prop :=
  slot.address = some a ∧ m.place slot.asmName = some a

/-- A scope that a machine suits: it has all words where the scope has them, and the scratch places
are not needed for the constants. -/
structure Scope.Ready (m : Machine) (s : Scope) : Prop where
  regular : s.Regular
  slots : ∀ slot ∈ s.ground.slots, slot.kind ≠ .struct →
    slot.offset = none ∧ ∃ a, slot.IsAt m a
  registers : ∀ r ∈ s.ground.registers, ∃ a, r.IsAt m a
  target : ∀ target ∈ s.reuse.target?, ∃ a, target.IsAt m a ∧ a ∉ s.registers
  constants : ∀ {slot w}, s.ground.Names slot w → ∃ a, slot.IsAt m a ∧ a ∉ s.scratch

theorem Scope.Continues.ready (h : s.Continues t) (hs : s.Ready m) :
    t.Ready m where
  regular := ⟨h.ground ▸ hs.regular.ground, h.target ▸ hs.regular.target⟩
  slots := h.ground ▸ hs.slots
  registers := h.ground ▸ hs.registers
  target := h.target ▸ h.registers ▸ hs.target
  constants := h.scratch ▸ h.ground ▸ hs.constants

/-- A scope that a machine suits as far as places are still to be handed out: a target that has been
handed out may be anywhere. -/
structure Scope.Placed (m : Machine) (s : Scope) : Prop where
  regular : s.Regular
  slots : ∀ slot ∈ s.ground.slots, slot.kind ≠ .struct →
    slot.offset = none ∧ ∃ a, slot.IsAt m a
  registers : ∀ r ∈ s.ground.registers, ∃ a, r.IsAt m a
  target : ∀ {target}, s.reuse = .reserved target → ∃ a, target.IsAt m a ∧ a ∉ s.registers
  constants : ∀ {slot w}, s.ground.Names slot w → ∃ a, slot.IsAt m a ∧ a ∉ s.workspace

theorem Scope.Ready.placed (hs : s.Ready m) : s.Placed m where
  regular := hs.regular
  slots := hs.slots
  registers := hs.registers
  target hr := hs.target _ (by simp [hr, Reuse.target?])
  constants hnames := by
    obtain ⟨a, ha, hscratch⟩ := hs.constants hnames
    exact ⟨a, ha, fun hmem => hscratch (s.workspace_subset_scratch hmem)⟩

theorem Scope.Continues.placed (h : s.Continues t) (hs : s.Placed m) :
    t.Placed m where
  regular := ⟨h.ground ▸ hs.regular.ground, h.target ▸ hs.regular.target⟩
  slots := h.ground ▸ hs.slots
  registers := h.ground ▸ hs.registers
  target hr := h.registers ▸ hs.target (h.reserved hr)
  constants hnames := by
    obtain ⟨a, ha, hspace⟩ := hs.constants (h.ground ▸ hnames)
    exact ⟨a, ha, fun hmem => hspace (h.workspace hmem)⟩

theorem Scope.Ready.holdIn (hs : s.Ready m) (h : AgreeOutside s.scratch μ μ') (hμ : s.ground.HoldIn μ) :
    s.ground.HoldIn μ' := by
  intro slot w a hnames ha
  obtain ⟨b, hb, hscratch⟩ := hs.constants hnames
  obtain rfl := Option.some.inj (ha.symm.trans hb.1)
  rw [h a hscratch]
  exact hμ slot w a hnames ha

theorem Scope.spare_subset_scratch (s : Scope) : s.spare ⊆ s.scratch :=
  s.spare_subset_workspace.trans s.workspace_subset_scratch

/-- What an operand stands for: a constant, or the word at its address. -/
inductive Slot.Denotes (m : Machine) (slot : Slot) : (Memory → Word) → Prop
  | constant (hc : slot.isConstant = true) (ha : slot.address = none) {w}
      (hw : slot.value? = some w) : slot.Denotes m fun _ => w
  | word (hp : slot.isPlain = true) {a} (ha : slot.IsAt m a) : slot.Denotes m (· a)

theorem Slot.Denotes.offset (h : slot.Denotes m read) : slot.offset = none := by
  cases h with
  | constant hc => simpa [Slot.isConstant] using (Bool.and_eq_true_iff.mp hc).2
  | word hp => exact Slot.offset_of_isPlain hp

theorem Slot.Denotes.stays (h : slot.Denotes m read) {S : Set Nat}
    (hS : ∀ a, slot.address = some a → a ∉ S) (hμ : AgreeOutside S μ μ') : read μ' = read μ := by
  cases h with
  | constant => rfl
  | word hp ha => exact hμ _ (hS _ ha.1)

theorem Slot.Denotes.eq_of_isValue (h : slot.Denotes m read) {w : Word} (hw : slot.isValue w = true)
    (μ : Memory) : read μ = w := by
  simp only [Slot.isValue, Bool.and_eq_true, decide_eq_true_eq] at hw
  cases h with
  | constant _ _ hw' => exact Option.some.inj (hw'.symm.trans hw.2)
  | word hp => simp_all [Slot.isPlain, Slot.isConstant, Kind.isRegular]

namespace Lower

variable {S : Set Nat} {u v s t : Scope} {a depth : Nat} {code : Code} {flat : Flat} {left x : Slot}
  {y : Unit} {m : Machine} {f : Frame} {read : Memory → Word}

/-! ## Scratch places -/

theorem allocate_spare (hs : s.Placed m) (h : Gives allocate f s x t) :
    ∃ a, x.isPlain = true ∧ x.IsAt m a ∧ a ∈ s.spare ∧ t.spare = s.spare \ {a} ∧
      s.Continues t ∧ t.session = s.session := by
  have hp := allocate_isPlain hs.regular h
  rcases allocate_cases h with ⟨hr, rfl⟩ | ⟨hreuse, pool, hpool, rfl⟩
  · obtain ⟨a, ha, hregister⟩ := hs.target hr
    refine ⟨a, hp, ha, .inr ⟨x, hr, ha.1⟩, ?_,
      ⟨rfl, by simp [hr, Reuse.target?], by simp, rfl⟩, rfl⟩
    ext b
    simp only [Scope.spare, hr, Set.mem_sdiff, Set.mem_ofPred_eq, Set.mem_singleton_iff]
    constructor
    · rintro (hfree | ⟨target, heq, -⟩)
      · refine ⟨.inl hfree, ?_⟩
        rintro rfl
        exact hregister (Scope.mem_registers_of_free hfree)
      · simp at heq
    · rintro ⟨hfree | ⟨target, heq, hb⟩, hne⟩
      · exact .inl hfree
      · obtain rfl := Reuse.reserved.inj heq
        rw [ha.1] at hb
        exact absurd (Option.some.inj hb).symm hne
  · obtain ⟨a, ha⟩ := hs.registers x (Pool.mem_slots_of_allocate? hpool)
    refine ⟨a, hp, ha, .inl (Pool.free_of_allocate? hpool ha.1), ?_,
      ⟨by simp [Scope.ground, Pool.slots_allocate? hpool], rfl, id, rfl⟩, rfl⟩
    ext b
    simp [Scope.spare, hreuse, Pool.free_allocate? hs.regular.distinct hpool, ha.1, eq_comm]

theorem release_spare (hs : s.Regular) {address : Option Nat} (h : Gives (release address) f s y t) :
    s.Continues t ∧ t.session = s.session ∧
      ∀ a ∈ t.spare, a ∈ s.spare ∨ address = some a ∧ a ∈ s.registers := by
  obtain rfl := gives_modify.mp h
  refine ⟨⟨by simp [Scope.ground], rfl, id, rfl⟩, rfl, ?_⟩
  rintro a (hfree | hr)
  · cases address with
    | none => exact .inl (.inl hfree)
    | some b =>
      rcases (Pool.free_release hs.distinct).mp hfree with hfree | ⟨rfl, hc⟩
      · exact .inl (.inl hfree)
      · obtain ⟨r, hr, hra⟩ := Pool.contains_iff.mp hc
        exact .inr ⟨rfl, List.mem_map.mpr ⟨r, hr, hra⟩⟩
  · exact .inl (.inr hr)

theorem releaseOperand_spare (hs : s.Regular) (ho : x.offset = none)
    (h : Gives (releaseOperand x) f s y t) :
    s.Continues t ∧ t.session = s.session ∧
      ∀ a ∈ t.spare, a ∈ s.spare ∨ x.address = some a ∧ a ∈ s.registers := by
  simp only [releaseOperand, ho, gives_bind, gives_pure] at h
  obtain ⟨y, u, h, -, rfl⟩ := h
  exact release_spare hs h

/-! ## Assigning and naming operands -/

theorem namedConstant?_names {constant named : Slot}
    (h : namedConstant? s.session.table constant = some named) :
    ∃ w, constant.value? = some w ∧ s.ground.Names named.unmarked w := by
  obtain ⟨w, hw, h⟩ := Option.bind_eq_some_iff.mp h
  have hmem := List.mem_of_find?_eq_some h
  have hfound := List.find?_some h
  simp only [Bool.and_eq_true, decide_eq_true_eq] at hfound
  refine ⟨w, hw, List.mem_map_of_mem hmem, hfound.2, ?_⟩
  have hname : named.unmarked.asmName = named.asmName := rfl
  rw [hname, hfound.1]
  split
  · exact .inr rfl
  · exact .inl rfl

theorem resolveConstant_of_offset (ho : x.offset = none) : resolveConstant x = pure x := by
  unfold resolveConstant
  rw [ho]
  cases x.kind <;> rfl

theorem resolveConstant_of_kind (hk : x.kind ≠ .constant) : resolveConstant x = pure x := by
  unfold resolveConstant
  split <;> simp_all

theorem assignWithin_plain (hleft : left.isPlain = true) (ho : x.offset = none) :
    assignWithin (depth + 1) left x = assignRegular (flattenWith (assignWithin depth)) left x := by
  rw [assignWithin, resolveConstant_of_offset (Slot.offset_of_isPlain hleft), pure_bind,
    resolveConstant_of_offset ho, pure_bind]
  rcases hk : left.kind <;> first | rfl | simp [Slot.isPlain, hk, Kind.isRegular] at hleft

theorem assignConstant_runs {w : Word}
    (hconstants : ∀ {slot w}, s.ground.Names slot w → ∃ a, slot.IsAt m a) (ha : left.IsAt m a)
    (hw : x.value? = some w) (h : Gives (assignConstant left x) f s code t) :
    t = s ∧ code.labels = [] ∧
      ∀ μ, s.ground.HoldIn μ → m.Runs code μ (Function.update μ a w) := by
  obtain ⟨hex, hhex, hvalue⟩ := Option.bind_eq_some_iff.mp hw
  have himmediate (μ : Memory) : m.Runs [.setImmediate left.asmName (Hex.ofWord w)] μ
      (Function.update μ a w) := Machine.runs_setImmediate ha.2 (by simp)
  simp only [assignConstant, gives_bind, gives_orFail, gives_read] at h
  obtain ⟨_, _, ⟨hhex', rfl⟩, _, _, ⟨hvalue', rfl⟩, _, _, ⟨rfl, rfl⟩, h⟩ := h
  obtain rfl := Option.some.inj (hhex.symm.trans hhex')
  obtain rfl := Option.some.inj (hvalue.symm.trans hvalue')
  split at h
  · obtain ⟨rfl, rfl⟩ := gives_pure.mp h
    exact ⟨rfl, rfl, fun μ _ => himmediate μ⟩
  · split at h
    · next hzero =>
      obtain ⟨rfl, rfl⟩ := gives_pure.mp h
      refine ⟨rfl, rfl, fun μ _ => ?_⟩
      rw [hzero]
      exact Machine.runs_clear ha.2
    · rw [gives_get_bind] at h
      split at h
      · next named hn =>
        obtain ⟨rfl, rfl⟩ := gives_pure.mp h
        obtain ⟨w', hw', hnames⟩ := namedConstant?_names hn
        obtain rfl := Option.some.inj (hw.symm.trans hw')
        obtain ⟨b, hb⟩ := hconstants hnames
        refine ⟨rfl, rfl, fun μ hμ => ?_⟩
        have hread : μ b = w := hμ _ w b hnames hb.1
        exact hread ▸ Machine.runs_move ha.2 hb.2
      · obtain ⟨rfl, rfl⟩ := gives_pure.mp h
        exact ⟨rfl, rfl, fun μ _ => himmediate μ⟩

theorem assignWithin_runs (hs : s.Placed m) (hleft : left.isPlain = true) (ha : left.IsAt m a)
    (hx : x.Denotes m read) (h : Gives (assignWithin (depth + 1) left x) f s code t) :
    t = s ∧ code.labels = [] ∧
      ∀ μ, s.ground.HoldIn μ → m.Runs code μ (Function.update μ a (read μ)) := by
  simp only [assignWithin_plain hleft hx.offset, assignRegular, Slot.offset_of_isPlain hleft] at h
  cases hx with
  | constant hc _ hw =>
    have hk : x.kind = .constant := of_decide_eq_true (Bool.and_eq_true_iff.mp hc).1
    simp only [hk] at h
    exact assignConstant_runs (fun hnames => (hs.constants hnames).imp fun _ h => h.1) ha hw h
  | word hp hb =>
    have hcode : t = s ∧
        code = if left.address = x.address then [] else [.move left.asmName x.asmName] := by
      rcases hk : x.kind <;>
        simp_all [Slot.isPlain, Kind.isRegular, assignWord]
    obtain ⟨rfl, rfl⟩ := hcode
    refine ⟨rfl, by split <;> rfl, fun μ hμ => ?_⟩
    split
    · next heq =>
      rw [ha.1, hb.1] at heq
      obtain rfl := Option.some.inj heq
      rw [Function.update_eq_self]
      exact .nil
    · exact Machine.runs_move ha.2 hb.2

theorem assign_runs (hs : s.Placed m) (hleft : left.isPlain = true) (ha : left.IsAt m a)
    (hx : x.Denotes m read) (h : Gives (assign left x) f s code t) :
    t = s ∧ code.labels = [] ∧
      ∀ μ, s.ground.HoldIn μ → m.Runs code μ (Function.update μ a (read μ)) := by
  rw [assign, gives_get_bind] at h
  exact assignWithin_runs hs hleft ha hx h

/-- An operand that has been brought to an address, by code that changes spare places only. -/
structure Flattened (m : Machine) (s : Scope) (read : Memory → Word) (flat : Flat) (t : Scope)
    (b : Nat) : Prop where
  isAt : flat.slot.IsAt m b
  continues : s.Continues t
  session : t.session = s.session
  spare : t.spare ⊆ s.spare
  waits : b ∉ t.spare
  new : flat.isNew = true → b ∈ s.spare
  labels : flat.code.labels = []
  runs : ∀ μ, s.ground.HoldIn μ →
    ∃ μ', m.Runs flat.code μ μ' ∧ AgreeOutside s.spare μ μ' ∧ μ' b = read μ

theorem flattenWith_runs (hs : s.Placed m) (hx : x.Denotes m read)
    (hspare : ∀ a, x.address = some a → a ∉ s.spare)
    (h : Gives (flattenWith (assignWithin depth) x) f s flat t) : ∃ b, Flattened m s read flat t b := by
  cases flattenWith_cases h with
  | named named hc hn hf ht =>
    subst hf ht
    obtain ⟨w, hw, hnames⟩ := namedConstant?_names hn
    obtain ⟨b, hb, hspace⟩ := hs.constants hnames
    have hwaits : b ∉ t.spare := fun hmem => hspace (t.spare_subset_workspace hmem)
    refine ⟨b, hb, .refl t, rfl, subset_rfl, hwaits, by simp, rfl, fun μ hμ => ?_⟩
    refine ⟨μ, .nil, .refl _ μ, ?_⟩
    cases hx with
    | constant _ _ hw' =>
      rw [hμ _ w b hnames hb.1]
      exact Option.some.inj (hw.symm.trans hw')
    | word hp => simp_all [Slot.isPlain, Slot.isConstant, Kind.isRegular]
  | cell words y hk ho => simp [hx.offset] at ho
  | word hk hf ht =>
    subst hf ht
    cases hx with
    | constant hc => simp_all [Slot.isPlain, Slot.isConstant, Kind.isRegular]
    | word hp hb =>
      exact ⟨_, hb, .refl t, rfl, subset_rfl, hspare _ hb.1, by simp, rfl,
        fun μ _ => ⟨μ, .nil, .refl _ μ, rfl⟩⟩
  | literal hc hn h =>
    simp only [intoScratch, gives_bind, gives_pure] at h
    obtain ⟨place, u, hplace, code, v, hassign, rfl, rfl⟩ := h
    obtain ⟨b, hp, hb, hmem, hu, hcontinues, hsession⟩ := allocate_spare hs hplace
    obtain _ | depth := depth
    · simp [assignWithin] at hassign
    obtain ⟨rfl, hlabels, hruns⟩ :=
      assignWithin_runs (hcontinues.placed hs) hp hb hx hassign
    refine ⟨b, hb, hcontinues, hsession, by simp [hu], by simp [hu], fun _ => hmem, hlabels,
      fun μ hμ => ?_⟩
    refine ⟨_, hruns μ (hcontinues.ground ▸ hμ), (AgreeOutside.refl _ μ).update hmem _, ?_⟩
    exact Function.update_self ..
  | load hk ho => exact absurd hx.offset ho

theorem flatten_runs (hs : s.Placed m) (hx : x.Denotes m read)
    (hspare : ∀ a, x.address = some a → a ∉ s.spare) (h : Gives (flatten x) f s flat t) :
    ∃ b, Flattened m s read flat t b := by
  rw [flatten, gives_get_bind] at h
  exact flattenWith_runs hs hx hspare h

theorem flatRelease_spare {b : Nat} (hu : u.Regular) (hflat : Flattened m s read flat t b)
    (hs : s.spare ⊆ S) (hS : u.spare ⊆ S) (h : Gives flat.release f u y v) :
    u.Continues v ∧ v.session = u.session ∧ v.spare ⊆ S := by
  unfold Flat.release at h
  split at h
  · next hnew =>
    obtain ⟨hcontinues, hsession, hback⟩ := release_spare hu h
    refine ⟨hcontinues, hsession, fun a ha => ?_⟩
    rcases hback a ha with ha | ⟨ha, -⟩
    · exact hS ha
    · rw [hflat.isAt.1] at ha
      exact Option.some.inj ha ▸ hs (hflat.new hnew)
  · obtain ⟨-, rfl⟩ := gives_pure.mp h
    exact ⟨.refl u, rfl, hS⟩

theorem releaseOperand_subset (hu : u.Regular) (ho : x.offset = none)
    (hx : ∀ a, x.address = some a → a ∈ u.registers → a ∈ S) (hS : u.spare ⊆ S)
    (h : Gives (releaseOperand x) f u y v) : u.Continues v ∧ v.session = u.session ∧ v.spare ⊆ S := by
  obtain ⟨hcontinues, hsession, hback⟩ := releaseOperand_spare hu ho h
  refine ⟨hcontinues, hsession, fun a ha => ?_⟩
  rcases hback a ha with ha | ⟨ha, hregister⟩
  · exact hS ha
  · exact hx a ha hregister

end Lower

end Flatword
