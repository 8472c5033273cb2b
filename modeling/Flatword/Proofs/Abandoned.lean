import Flatword.Proofs.Jumps

/-!
# Registers left behind

A statement is refused when a register is still in use at the end of one of its sentences. Lowering is in
balance, so such a register was left behind while the sentence was lowered, by a value that was not
released.
-/

namespace Flatword

open Lower

namespace Clause

variable {a : Nat} {clause : Clause} {code : Code} {f : Frame} {s t : Scope}

/-- A clause is lowered from the start, and a register that was left behind on the way is in use at the
end. -/
def Abandons (clause : Clause) (f : Frame) (s : Session) : Prop :=
  ∃ a code t, Gives clause.step f (.start s) code t ∧ t.pool.Busy a ∧ clause.expr.Strands a f (.start s)

theorem busy (hs : s.Regular) (hclause : ¬ clause.expr.Strands a f s)
    (h : Gives clause.step f s code t) (ha : t.pool.Busy a) : s.pool.Busy a := by
  have hbalanced := (clause.expr.balanced_parts hclause).1
  cases clause with
  | effect e =>
    simp only [step, Lower.effect, gives_bind, gives_pure] at h
    obtain ⟨_, s₁, hallow, v, s₂, hv, _, s₃, hused, _, s₄, hrelease, post, s₅, hpost, -, rfl⟩ := h
    obtain rfl := gives_modify.mp hallow
    have hmove := Scope.Leads.move (.allow s)
    obtain rfl := gives_checkUsed hused
    rw [(gives_takePost.mp hpost).2] at ha
    obtain ⟨ha, hnot⟩ := releaseOperand_busy (regular_of_gives hv (hmove.regular hs)) hrelease ha
    exact ((hbalanced.value ⟨rfl, hmove⟩ (hmove.regular hs) hv).2 ha).resolve_right hnot
  | const e =>
    simp only [step, constEffect, gives_bind, gives_orFail, gives_pure] at h
    obtain ⟨_, _, ⟨-, rfl⟩, v, s₂, hv, _, s₃, hrecord, _, s₄, hrelease, post, s₅, hpost, -, rfl⟩ := h
    have hs₂ := regular_of_gives hv hs
    obtain ⟨hpool, hreuse⟩ := recordConstant_same hrecord
    have hs₃ := hs₂.congr hpool hreuse (bare_of_gives hrecord)
    rw [(gives_takePost.mp hpost).2] at ha
    obtain ⟨ha, hnot⟩ := releaseOperand_busy hs₃ hrelease ha
    exact ((hbalanced.value ⟨rfl, .refl _⟩ hs hv).2 (hpool ▸ ha)).resolve_right hnot
  | condition e b =>
    obtain ⟨code', s₁, hcode, h⟩ := gives_bind.mp h
    rw [gives_get_bind] at h
    split at h
    · simp at h
    · obtain ⟨-, rfl⟩ := gives_pure.mp h
      exact hbalanced.branch b ⟨rfl, .refl _⟩ hs hcode ha
  | value e =>
    simp only [step, returnValue, gives_bind, gives_pure] at h
    obtain ⟨v, s₁, hv, flat, s₂, hflat, _, s₃, hrelease, _, s₄, hoperand, post, s₅, hpost, -, rfl⟩ := h
    rw [(gives_takePost.mp hpost).2] at ha
    obtain ⟨ha, hnot⟩ := flatten_releaseOperand_busy (regular_of_gives hv hs) hflat hrelease hoperand ha
    exact ((hbalanced.value ⟨rfl, .refl _⟩ hs hv).2 ha).resolve_right hnot

theorem leaks_iff_abandons {s : Session} (hs : s.table.Sound) :
    Leaks (whole clause.step) f (.start s) ↔ clause.Abandons f s := by
  have := clause.sentence.steady
  rw [leaks_whole (Steady.leaks f _)]
  constructor
  · rintro ⟨code, t, h, hne⟩
    have hregular := Scope.regular_start hs
    have hslots : t.pool.slots = (Scope.start s).pool.slots := by
      have hslots := Steady.slots (m := clause.step) f (.start s)
      rwa [show outcome clause.step f (.start s) = _ from h] at hslots
    have hplaced : ∀ slot ∈ t.pool.slots, slot.address ≠ none := hslots ▸ hregular.ground.placed
    obtain ⟨a, ha⟩ : ∃ a, t.pool.Busy a := by
      by_contra hnone
      exact hne (Pool.inUse_eq_nil hplaced fun a ha => hnone ⟨a, ha⟩)
    refine ⟨a, code, t, h, ha, ?_⟩
    by_contra hclause
    exact Scope.not_busy_start s a (busy hregular hclause h ha)
  · rintro ⟨a, code, t, h, ha, -⟩
    exact ⟨code, t, h, fun hnil => Pool.not_busy_of_inUse_eq_nil hnil ha⟩

end Clause

/-- Registers are in balance but for those left behind. In a program that declares no variable under
the name of a register, a register in use after an expression was in use before, is held by its
value, or was left behind by an operator or an assignment inside the expression. A clause is refused because
of registers in use exactly when a register left behind in this way is still in use at its end, and a
statement only when one of its clauses is. -/
theorem Session.registers_balanced_or_left_behind {program : Program} (hprogram : program.AvoidsRegisters)
    {s : Session} (hs : s.Compiling program) :
    (∀ (e : Expr) (f : Frame) (u t : Scope) (v : Lowered) (a : Nat),
      (Scope.start s).Leads u → Gives e.lower f u v t → t.pool.Busy a →
        u.pool.Busy a ∨ v.slot.Holds a ∨ e.Strands a f u) ∧
    (∀ (e : Expr) (b : Branch) (f : Frame) (u t : Scope) (code : Code) (a : Nat),
      (Scope.start s).Leads u → Gives (e.lowerCondition b) f u code t → t.pool.Busy a →
        u.pool.Busy a ∨ e.Strands a f u) ∧
    (∀ (clause : Clause) (f : Frame) (t : Session), s.Leads t →
      (Leaks (whole clause.step) f (.start t) ↔ clause.Abandons f t)) ∧
    ∀ (stmt : Stmt) (loop : Option String) (r : Routine) (commented : Option Line),
      Leaks (stmt.emit loop) r ⟨s, commented⟩ → ∃ clause line t, stmt.Uses clause ∧ s.Leads t ∧
        clause.Abandons (clause.frame (r.function.map Function.name) line) t := by
  have hsound := hs.sound hprogram
  have hregular := Scope.regular_start hsound
  have hlater {t : Session} (ht : s.Leads t) : t.table.Sound :=
    Table.sound_bare.mp (ht.bare ▸ Table.sound_bare.mpr hsound)
  refine ⟨fun e f u t v a hu h ha => ?_, fun e b f u t code a hu h ha => ?_,
    fun clause f t ht => Clause.leaks_iff_abandons (hlater ht), fun stmt loop r commented h => ?_⟩
  · by_cases hstrands : e.Strands a f u
    · exact .inr (.inr hstrands)
    · have hbalanced := (e.balanced_parts hstrands).1.value
      rcases (hbalanced ⟨rfl, .refl u⟩ (hu.regular hregular) h).2 ha with ha | ha
      · exact .inl ha
      · exact .inr (.inl ha)
  · by_cases hstrands : e.Strands a f u
    · exact .inr hstrands
    · have hbalanced := (e.balanced_parts hstrands).1.branch b
      exact .inl (hbalanced ⟨rfl, .refl u⟩ (hu.regular hregular) h ha)
  · have := stmt.traced_emit loop fun _ h => h
    obtain ⟨clause, line, t, huses, ht, hleaks⟩ := Emit.Traced.leaks (K := stmt.Uses) r _ h
    exact ⟨clause, line, t, huses, ht, (Clause.leaks_iff_abandons (hlater ht)).mp hleaks⟩

/-- Whether a statement leaks right after the declarations of a program. -/
def Program.leaksAt (program : Program) (stmt : Stmt) : Bool :=
  match Session.start {} with
  | .error _ => false
  | .ok s =>
    match result (Session.build program) s with
    | (.error _, _) => false
    | (.ok (), t) =>
      match (outcome (stmt.emit none) {} ⟨t, none⟩).1 with
      | .error e => e.cause.isLeak
      | .ok _ => false

theorem Program.leaks_of_leaksAt {program : Program} {stmt : Stmt}
    (h : program.leaksAt stmt = true) :
    ∃ s : Session, s.Compiling program ∧ Leaks (stmt.emit none) {} ⟨s, none⟩ := by
  unfold leaksAt at h
  split at h
  · simp at h
  next hs =>
  split at h
  · simp at h
  next t ht =>
  split at h
  · next e he => exact ⟨t, .built hs ht, e, he, h⟩
  · simp at h

/-- A pointer `p` that is set to what it points to, `i * 2` words on. -/
def pointerReload : Stmt :=
  .expression (.assign none (.var "p" 2)
    (.lookup "p" [.index (.binary .mul (.var "i" 2) (.long 2 2) 2)] 2) 2)

def pointerProgram : Program where
  main := [.declaration [.keyword "long" 1, .star 1, .ident "p" 1, .comma 1, .ident "i" 1],
    pointerReload]

/-- The register of the index is left behind, because the value lies at the address of the target. -/
theorem pointerReload_abandons :
    pointerProgram.AvoidsRegisters ∧ ∃ s : Session, s.Compiling pointerProgram ∧
      ∃ clause line t, pointerReload.Uses clause ∧ s.Leads t ∧
        clause.Abandons (clause.frame none line) t := by
  have hprogram : pointerProgram.AvoidsRegisters := by decide
  obtain ⟨s, hs, hleaks⟩ := Program.leaks_of_leaksAt
    (show pointerProgram.leaksAt pointerReload = true by decide +kernel)
  exact ⟨hprogram, s, hs,
    (Session.registers_balanced_or_left_behind hprogram hs).2.2.2 pointerReload none {} none hleaks⟩

end Flatword
