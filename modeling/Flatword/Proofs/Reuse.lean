import Flatword.Proofs.Structured

/-!
# Targets as scratch places

The target of an assignment may serve as the first scratch place of a statement. This leaves the same
memory as long as the value is read from other words. The target is looked for in the value by its name only,
so a pointer to it reads what has been left there.
-/

namespace Flatword

/-- A word that is known when the code is made, and that stands for no constant, is assigned an
expression over words and pointers. What is read for it is no register, and not that word either unless it
cannot be reserved. -/
inductive Expr.StoresApart (m : Machine) (f : Frame) (s : Scope) (μ : Memory) : Expr → Prop
  | assign {op target value line a}
      (htarget : target.StandsFor m s.ground f.function a) (ha : a ∉ s.registers)
      (hconstants : ∀ slot w, s.ground.Names slot w → slot.address ≠ some a)
      (hvalue : value.IsPointed (s.ground.plain? f.function) (scratchOf op target value a s.registers))
      (hlands : value.Lands m (s.ground.plain? f.function) (scratchOf op target value a s.registers) μ) :
      StoresApart m f s μ (.assign op target value line)

namespace Lower

variable {m : Machine} {f : Frame} {s t t' : Scope} {e : Expr} {code code' : Code}

theorem plainEffect_eq_of_not_taken (hs : s.reuse = .forbidden) (h : Gives (effect e) f s code t)
    (h' : Gives (plainEffect e) f s code' t') (ht : t.reuse.taken? = none) : code' = code := by
  obtain ⟨_, u, hallow, h⟩ := gives_bind.mp h
  have hu : u.unreserved = s := by
    rw [← gives_modify.mp hallow, Scope.unreserved, ← hs]
  obtain ⟨v, w, hv, rfl, pool, rfl⟩ := gives_plainEffect h
  obtain ⟨v', w', hv', rfl, -⟩ := gives_plainEffect h'
  have hsame := Orderly.unreserved (m := e.lower) f u (by rw [hv]; exact ht)
  rw [hv, hu] at hsame
  obtain ⟨rfl, rfl⟩ := Gives.unique hv' hsame
  rfl

theorem plainEffect_of_storesApart {μ : Memory} (hs : s.Ready m) (hpost : s.post = [])
    (hμ : s.ground.HoldIn μ) (he : e.StoresApart m f s μ) :
    ∃ ν, ∀ reuse code t, reuse.target? = none → Gives (plainEffect e) f { s with reuse } code t →
      ∃ μ', (∀ stack, m.Steps code (.at 0 ⟨μ, stack⟩) (.at code.length ⟨μ', stack⟩)) ∧
        AgreeOutside s.registers ν μ' := by
  cases he with
  | @assign op target value line a htarget ha hconstants hvalue hlands =>
    refine ⟨Function.update μ a (m.alu.assigned op (μ a)
      (value.worth m.alu (s.ground.plain? f.function) μ)), fun reuse code t hreuse h => ?_⟩
    have hready : ({ s with reuse } : Scope).Ready m :=
      ready_reuse hs (by simp [hreuse]) ha hconstants
    obtain ⟨-, hlabels, hruns⟩ := effect_of_assigned (u := { s with reuse }) hpost
      (assign_assigned hready htarget ha hreuse hconstants subset_rfl hvalue) h
    obtain ⟨μ', hruns, hagree⟩ := hruns μ hμ hlands
    exact ⟨μ', hruns.steps hlabels, hagree⟩

end Lower

open Lower in
/-- Whether the target of an expression statement may serve as a scratch place makes no difference to
what its code does: if the target is not handed out the code is the same, and if the value is read from
words that are not reserved the memory is the same in the end, but for the registers. -/
theorem Expr.target_reuse_transparent {m : Machine} {f : Frame} {session : Session} {e : Expr}
    {code code' : Code} {t t' : Scope} (hs : (Scope.start session).Ready m)
    (h : Gives (effect e) f (.start session) code t)
    (h' : Gives (plainEffect e) f (.start session) code' t') :
    (t.reuse.taken? = none → code' = code) ∧
      ∀ μ, (Scope.start session).ground.HoldIn μ → e.StoresApart m f (.start session) μ →
        ∃ μ₁ μ₂, (∀ stack, m.Steps code (.at 0 ⟨μ, stack⟩) (.at code.length ⟨μ₁, stack⟩)) ∧
          (∀ stack, m.Steps code' (.at 0 ⟨μ, stack⟩) (.at code'.length ⟨μ₂, stack⟩)) ∧
          AgreeOutside (Scope.start session).registers μ₁ μ₂ := by
  refine ⟨plainEffect_eq_of_not_taken rfl h h', fun μ hμ he => ?_⟩
  obtain ⟨ν, hν⟩ := plainEffect_of_storesApart hs rfl hμ he
  obtain ⟨_, u, hallow, h⟩ := gives_bind.mp h
  obtain rfl : { Scope.start session with reuse := .allowed } = u := gives_modify.mp hallow
  obtain ⟨μ₁, hsteps₁, hagree₁⟩ := hν .allowed code t rfl h
  obtain ⟨μ₂, hsteps₂, hagree₂⟩ := hν .forbidden code' t' rfl h'
  exact ⟨μ₁, μ₂, hsteps₁, hsteps₂, fun b hb => (hagree₂ b hb).trans (hagree₁ b hb).symm⟩

/-- The statement `x = (y + 1) + *p`. -/
def readBack : Expr :=
  .assign none (.var "x" 1) (.binary .add (.binary .add (.var "y" 1) (.long 1 1) 1)
    (.unary .deref (.var "p" 1) 1) 1) 1

/-- A session with three registers and the words `x`, `y` and `p`. -/
abbrev Session.withTarget : Session :=
  .ofWords ["x", "y", "p"]

open Lower in
theorem readBack_codes : ∃ t t',
    Gives (effect readBack) { line := 1 } (.start .withTarget)
        [.move "x" "y", .inc "x", .set (.var "r0") (.indirect "p" none), .arith .add "x" "r0"] t ∧
      Gives (plainEffect readBack) { line := 1 } (.start .withTarget) [.move "r0" "y", .inc "r0",
        .set (.var "r1") (.indirect "p" none), .arith .add "r0" "r1", .move "x" "r0"] t' :=
  ⟨_, _, gives_of_toOption (by decide), gives_of_toOption (by decide +kernel)⟩

theorem Session.ready_withTarget :
    (Scope.start .withTarget).Ready (Session.withTarget.table.machine .unsigned) :=
  have hsound := sound_ofWords ["x", "y", "p"] (by decide)
  Scope.ready_start hsound (hsound.has_machine .unsigned)
    fun slot hslot h => absurd (content_ofWords _ slot hslot) h

/-- With `p` elsewhere, `x = (y + 1) + *p` does the same by two codes. -/
theorem readBack_transparent : ∃ (code code' : Code) (t t' : Scope) (μ μ₁ μ₂ : Memory),
    Gives (Lower.effect readBack) { line := 1 } (.start .withTarget) code t ∧
      Gives (Lower.plainEffect readBack) { line := 1 } (.start .withTarget) code' t' ∧ code ≠ code' ∧
      (Session.withTarget.table.machine .unsigned).Steps code (.at 0 ⟨μ, []⟩) (.at code.length ⟨μ₁, []⟩) ∧
      (Session.withTarget.table.machine .unsigned).Steps code' (.at 0 ⟨μ, []⟩)
        (.at code'.length ⟨μ₂, []⟩) ∧ μ₁ 3 = μ₂ 3 := by
  obtain ⟨t, t', h, h'⟩ := readBack_codes
  let μ : Memory := fun a => if a = 5 then 9 else 0
  have hnone {slot : Slot} {w : Word} : ¬ (Scope.start .withTarget).ground.Names slot w :=
    Scope.not_names_start (Session.content_ofWords _)
  have hapart {op : Option BinaryOp} {target value : Expr} {a : Nat} (hne : a ≠ 3)
      (ha : some a ∉ (Scope.start .withTarget).ground.registers.map Slot.address) :
      a ∉ Expr.scratchOf op target value 3 (Scope.start .withTarget).registers := fun hmem =>
    (Expr.mem_scratchOf hmem).elim hne ha
  have hp : (Scope.start .withTarget).ground.plain? none "p" = some 5 := by decide
  have hstores : readBack.StoresApart (Session.withTarget.table.machine .unsigned) { line := 1 }
      (.start .withTarget) μ := by
    refine .assign (a := 3) (Expr.standsFor_lookup (by decide)) ?_
      (fun _ _ hnames => absurd hnames hnone) ?_ fun c hc => ?_
    · show some 3 ∉ (Scope.start .withTarget).ground.registers.map Slot.address
      decide
    · refine .binary (.binary (.word (a := 4) (by decide) ?_) (.constant (w := 1) ?_))
        (.deref hp ?_)
      · exact hapart (by decide) (by decide)
      · decide
      · exact hapart (by decide) (by decide)
    · simp only [Expr.var, Expr.long, Expr.reached, Expr.pathReached, Expr.worth, Expr.pathWorth, hp,
        Option.map_some, Option.getD_some] at hc
      have hc : c ∈ [9] := hc
      obtain rfl := List.mem_singleton.mp hc
      exact ⟨rfl, hapart (by decide) (by decide)⟩
  obtain ⟨μ₁, μ₂, hsteps, hsteps', hagree⟩ := (Expr.target_reuse_transparent Session.ready_withTarget h
    h').2 μ (fun _ _ _ hnames => absurd hnames hnone) hstores
  refine ⟨_, _, t, t', μ, μ₁, μ₂, h, h', by decide, hsteps [], hsteps' [], (hagree 3 ?_).symm⟩
  show some 3 ∉ (Scope.start .withTarget).ground.registers.map Slot.address
  decide

/-- With `p` at `x`, the code that computes in `x` reads `y + 1` twice. -/
theorem readBack_reads_target : ∃ (code code' : Code) (t t' : Scope) (μ μ₁ μ₂ : Memory),
    Gives (Lower.effect readBack) { line := 1 } (.start .withTarget) code t ∧
      Gives (Lower.plainEffect readBack) { line := 1 } (.start .withTarget) code' t' ∧
      (Session.withTarget.table.machine .unsigned).Steps code (.at 0 ⟨μ, []⟩) (.at code.length ⟨μ₁, []⟩) ∧
      (Session.withTarget.table.machine .unsigned).Steps code' (.at 0 ⟨μ, []⟩)
        (.at code'.length ⟨μ₂, []⟩) ∧ μ₁ 3 = 14 ∧ μ₂ 3 = 8 := by
  obtain ⟨t, t', h, h'⟩ := readBack_codes
  have hplace : ((Session.withTarget.table.machine .unsigned).place "r0" = some 0 ∧
      (Session.withTarget.table.machine .unsigned).place "r1" = some 1) ∧
      (Session.withTarget.table.machine .unsigned).place "x" = some 3 ∧
      (Session.withTarget.table.machine .unsigned).place "y" = some 4 ∧
      (Session.withTarget.table.machine .unsigned).place "p" = some 5 := by
    decide
  obtain ⟨⟨hr0, hr1⟩, hx, hy, hp⟩ := hplace
  let μ : Memory := fun a => if a = 5 then 3 else if a = 4 then 6 else if a = 3 then 1 else 0
  have hruns := (((Machine.runs_move (μ := μ) hx hy).append (Machine.runs_stepInstr hx true)).append
    (Machine.runs_load hr0 (Machine.pointed_none hp rfl))).append (Machine.runs_arith .add hx hr0)
  have hruns' := ((((Machine.runs_move (μ := μ) hr0 hy).append (Machine.runs_stepInstr hr0 true)).append
    (Machine.runs_load hr1 (Machine.pointed_none hp rfl))).append
    (Machine.runs_arith .add hr0 hr1)).append (Machine.runs_move hx hr0)
  exact ⟨_, _, t, t', μ, _, _, h, h', hruns.steps rfl [], hruns'.steps rfl [], by decide,
    by decide⟩

end Flatword
