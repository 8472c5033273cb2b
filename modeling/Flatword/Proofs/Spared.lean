import Flatword.Proofs.Jumps

/-!
# Which words code writes by name

Code writes scratch places, and what its assignments, steps and calls store to. To see this, one word is
watched while a sentence is lowered: as long as no store leads to it, no instruction writes it.
-/

namespace Flatword

def Code.Spares (code : Code) (name : String) : Prop :=
  ∀ instr ∈ code, instr.written? ≠ some name

namespace Code

variable {name : String}

@[simp]
theorem spares_nil : Code.Spares [] name := by
  simp [Spares]

@[simp]
theorem spares_cons {instr : Instr} {code : Code} :
    Code.Spares (instr :: code) name ↔ instr.written? ≠ some name ∧ code.Spares name :=
  List.forall_mem_cons

@[simp]
theorem spares_append {code code' : Code} :
    Code.Spares (code ++ code') name ↔ code.Spares name ∧ code'.Spares name :=
  List.forall_mem_append

theorem Spares.const {code : Code} (h : code.Spares name) :
    Code.Spares (code.map Instr.const) name := by
  intro instr hinstr
  obtain ⟨x, hx, rfl⟩ := List.mem_map.mp hinstr
  exact h x hx

end Code

/-- A word that is watched while sentences of a unit are lowered. -/
structure Watch where
  ground : Ground
  function : Option String
  word : Slot
  mem : word ∈ ground.slots
  kind : word.kind ≠ .struct
  names : ∀ y ∈ ground.slots, ∀ z ∈ ground.slots, y.asmName = z.asmName → y = z
  places : ∀ y ∈ ground.slots, ∀ z ∈ ground.slots, y.kind ≠ .struct → z.kind ≠ .struct →
    y.address = z.address → y = z
  registers : ∀ r ∈ ground.registers, r.unmarked ∈ ground.slots ∧ r.isPlain = true ∧
    r.asmName ≠ word.asmName
  named : word.asmName ≠ "" ∧ word.asmName ≠ "r0"

namespace Watch

variable (w : Watch)

def name : String :=
  w.word.asmName

abbrev leave : Leave :=
  { w.ground with function := (· = w.function), writable := (· ≠ w.name) }

variable {w} {x : Slot}

theorem takes_of_isPlain (hplain : x.isPlain = true) (hname : x.asmName ≠ w.name) : w.leave.Takes x := by
  rw [Slot.isPlain, Bool.and_eq_true] at hplain
  intro name hwrites
  cases hwrites with
  | word => exact hname
  | resolved hk => simp [hk, Kind.isRegular] at hplain
  | cell hk => simp [hk, Kind.isRegular] at hplain

theorem spare_of_isPlain (hx : x.unmarked ∈ w.ground.slots) (hplain : x.isPlain = true)
    (hname : x.asmName ≠ w.name) : w.leave.Spare x.address := by
  have hkinds : x.unmarked.kind ≠ .struct ∧ x.unmarked.kind ≠ .array := by
    rw [Slot.isPlain, Bool.and_eq_true] at hplain
    have hkind : x.unmarked.kind = x.kind := rfl
    constructor <;> (intro hk; simp [← hkind, hk, Kind.isRegular] at hplain)
  rintro y ⟨z, hz, hzname, hzkind, hza⟩ ha ho name hwrites
  have haddress : z.address = x.unmarked.address := hza.trans ha
  cases hwrites with
  | word =>
    intro hword
    obtain rfl : z = w.word := w.names z hz _ w.mem (hzname.trans hword)
    have heq := w.places _ hz _ hx w.kind hkinds.1 haddress
    have hsame : w.word.asmName = x.unmarked.asmName := congrArg Slot.asmName heq
    exact hname hsame.symm
  | resolved _ hoffset => simp [ho] at hoffset
  | cell hk =>
    have hzarray : z.kind = .array := hzkind.trans hk
    have heq := w.places _ hz _ hx (by simp [hzarray]) hkinds.1 haddress
    exact absurd (heq ▸ hzarray) hkinds.2

theorem fair_leave (h : w.ground.Fair) : w.leave.Fair where
  toFair := h
  scratch r hr := by
    obtain ⟨hmem, hplain, hname⟩ := w.registers r hr
    exact ⟨takes_of_isPlain hplain hname, spare_of_isPlain hmem hplain hname⟩
  plain x hx hplain htakes :=
    spare_of_isPlain hx hplain (htakes.writable (Slot.offset_of_isPlain hplain))
  returned := w.named.2.symm

end Watch

theorem Code.spares_of_writes {name : String} {code : Code}
    (h : ∀ instr ∈ code, ∀ other ∈ instr.written?, other ≠ name) : code.Spares name :=
  fun instr hinstr hwritten => h instr hinstr name hwritten rfl

theorem Code.Made.spares {w : Watch} {z : Scope} {E : Instr → Prop} {j : UInt32} {n : Nat} {code : Code}
    (h : code.Made w.leave z E j n) : code.Spares w.name :=
  spares_of_writes fun instr hinstr => (h.sits instr hinstr).writes

namespace Expr

open Lower

/-- An assignment or a step inside has a target that leads to the variable of this name, or a call
inside passes an argument in it. -/
def StoresTo (g : Ground) (function : Option String) (e : Expr) (name : String) : Prop :=
  (∃ target ∈ e.targets, ∃ (f : Frame) (s : Scope) (place : Lowered) (t : Scope),
    f.function = function ∧ s.ground = g ∧
    Gives (lowerTarget target.namesPlace target.lowering.value) f s place t ∧
    g.Writes place.slot name) ∨
  ∃ callee ∈ e.callees, ∃ signature ∈ g.functions, signature.name = callee ∧
    ∃ y ∈ g.slots, y.asmName ∈ signature.arguments ∧ g.Writes y name

theorem passes_of_not_storesTo {w : Watch} {e : Expr} (h : ¬ e.StoresTo w.ground w.function w.name) :
    Passes w.leave e.targets e.callees where
  target target htarget f s place t hf hs hgives _ hwrites hname :=
    h (.inl ⟨target, htarget, f, s, place, t, hf, hs, hgives, hname ▸ hwrites⟩)
  callee callee hcallee signature hsignature hcalled y hy hargument _ hwrites hname :=
    h (.inr ⟨callee, hcallee, signature, hsignature, hcalled, y, hy, hargument, hname ▸ hwrites⟩)

end Expr

namespace Clause

open Lower

variable {w : Watch} {f : Frame} {s t : Scope} {code : Code}

theorem releaseOperand_post {slot : Slot} {x : Unit} (h : Gives (releaseOperand slot) f s x t) :
    t.post = s.post := by
  obtain ⟨pool, rfl⟩ := releaseOperand_pool h
  rfl

theorem spares (hg : w.ground.Fair) {clause : Clause}
    (h : ¬ clause.expr.StoresTo w.ground w.function w.name) (hf : f.function = w.function)
    (hs : w.leave.Tracks s) (hpost : s.post = []) (hgives : Gives (whole clause.step) f s code t) :
    code.Spares w.name := by
  have hg := Watch.fair_leave hg
  have hpasses := Expr.passes_of_not_storesTo h
  have hempty : ∀ instr ∈ s.post, ∀ name ∈ instr.written?, w.leave.writable name := by simp [hpost]
  have hgives := gives_whole hgives
  by_cases hconst : clause.isConst = true
  · cases clause <;> simp [isConst] at hconst
    simp only [step, constEffect, gives_bind, gives_orFail, gives_takePost, gives_pure] at hgives
    obtain ⟨value, _, ⟨-, rfl⟩, v, s₁, hv, _, s₂, hrecord, _, s₃, hrelease, _, _, ⟨rfl, rfl⟩, rfl, -⟩ :=
      hgives
    obtain ⟨-, hst, -, hmade⟩ :=
      (Expr.links_lowering hg _ hpasses).value s.session.jumps hf hs rfl hv
    have hpost₂ : s₂.post = s₁.post := by
      unfold recordConstant at hrecord
      split at hrecord
      · rw [← gives_modifySession.mp hrecord]
      · rw [(gives_pure.mp hrecord).2]
    refine Code.spares_append.mpr ⟨(hmade _ (.refl _)).2.spares.const, ?_⟩
    rw [releaseOperand_post hrelease, hpost₂]
    exact Code.spares_of_writes (hst.post hempty)
  · obtain ⟨-, -, hmade⟩ := ends_step hg (Bool.not_eq_true _ ▸ hconst) hpasses s.session.jumps hf hs
      hempty rfl hgives
    exact (hmade t (.refl t)).spares

end Clause

end Flatword
