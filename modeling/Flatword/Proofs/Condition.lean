import Flatword.Proofs.Context
import Flatword.Proofs.Value

/-!
# How the code of a condition is left

`Expr.exit` says by which side a condition is left, and whether by a jump or by falling off its end. The
side is not always the truth of the condition: a reversed connective lets its left operand jump past the right
one.
-/

namespace Flatword

/-- How the code of a condition is left. -/
structure Exit where
  side : Bool
  jumped : Bool
  deriving DecidableEq, Repr

namespace Exit

/-- A single test jumps on one side and falls through on the other. -/
def test (holds reversed : Bool) : Exit :=
  ⟨holds, holds == reversed⟩

/-- A connective, from how its operands are left. A reversed one goes on to its right operand only
where the left operand falls through. -/
def logical : LogicalOp → (left right : Bool → Exit) → (reversed : Bool) → Exit
  | .and, left, right, false => ⟨(left false).side && (right false).side, true⟩
  | .or, left, right, false => ⟨(left true).side || (right false).side, true⟩
  | .and, left, right, true =>
    if (left false).side then if (left false).jumped then left false else right true
    else ⟨false, false⟩
  | .or, left, right, true =>
    if (left true).side || (left true).jumped then left true else right true

end Exit

namespace Expr

variable {reversed : Bool} (alu : Alu) (vars : String → Option Nat) (μ : Memory)

/-- The truth of a condition. -/
def holds : Expr → Bool
  | unary .not operand _ => !operand.holds
  | compare op left right _ => alu.holds op (left.eval alu vars μ) (right.eval alu vars μ)
  | logical .and left right _ => left.holds && right.holds
  | logical .or left right _ => left.holds || right.holds
  | e => e.eval alu vars μ != 0

/-- How the code of a condition is left. -/
def exit : Expr → (reversed : Bool) → Exit
  | unary .not operand _, reversed =>
    ⟨!(operand.exit (!reversed)).side, (operand.exit (!reversed)).jumped⟩
  | logical op left right _, reversed => .logical op left.exit right.exit reversed
  | e, reversed => .test (e.holds alu vars μ) reversed

/-- How many labels a condition takes numbers for. -/
def connectives : Expr → Nat
  | unary .not operand _ => operand.connectives
  | logical _ left right _ => left.connectives + right.connectives + 1
  | _ => 0

/-- Whether the code may jump to the side that it could fall through to as well. -/
def mayJumpAhead : Expr → (reversed : Bool) → Bool
  | unary .not operand _, reversed => operand.mayJumpAhead (!reversed)
  | logical _ _ _ _, false => true
  | logical .and _ right _, true => right.mayJumpAhead true
  | logical .or left right _, true => left.mayJumpAhead true || right.mayJumpAhead true
  | _, _ => false

/-- No left operand of a reversed connective can jump past the right one. -/
def isStraight : Expr → (reversed : Bool) → Bool
  | unary .not operand _, reversed => operand.isStraight (!reversed)
  | logical .and left right _, false => left.isStraight false && right.isStraight false
  | logical .or left right _, false => left.isStraight true && right.isStraight false
  | logical .and left right _, true =>
    left.isStraight false && !left.mayJumpAhead false && right.isStraight true
  | logical .or left right _, true =>
    left.isStraight true && !left.mayJumpAhead true && right.isStraight true
  | _, _ => true

/-- Conditions over values of one kind. -/
inductive IsCondition (Q : Expr → Prop) : Expr → Prop
  | value {e} (he : Q e) : IsCondition Q e
  | compare {op left right line} (hl : Q left) (hr : Q right) :
      IsCondition Q (.compare op left right line)
  | not {operand line} (h : IsCondition Q operand) :
      IsCondition Q (.unary .not operand line)
  | logical {op left right line} (hl : IsCondition Q left)
      (hr : IsCondition Q right) : IsCondition Q (.logical op left right line)

variable {alu vars μ} {Q : Expr → Prop} {e : Expr}

theorem holds_of_isValue (h : e.isValue = true) :
    e.holds alu vars μ = (e.eval alu vars μ != 0) := by
  cases e with
  | unary op operand line => cases op <;> first | rfl | simp [isValue] at h
  | constant | lookup | binary => rfl
  | _ => simp [isValue] at h

theorem exit_of_isValue (h : e.isValue = true) (reversed : Bool) :
    e.exit alu vars μ reversed = .test (e.eval alu vars μ != 0) reversed := by
  cases e with
  | unary op operand line => cases op <;> first | rfl | simp [isValue] at h
  | constant | lookup | binary => rfl
  | _ => simp [isValue] at h

section

variable (hQ : ∀ {e}, Q e → e.isValue = true)
include hQ

theorem side_of_not_jumped (he : IsCondition Q e) (h : (e.exit alu vars μ reversed).jumped = false) :
    (e.exit alu vars μ reversed).side = !reversed := by
  have htest {holds reversed : Bool} (h : (Exit.test holds reversed).jumped = false) :
      (Exit.test holds reversed).side = !reversed := by
    revert h
    cases holds <;> cases reversed <;> decide
  induction he generalizing reversed with
  | value he =>
    rw [exit_of_isValue (hQ he)] at h ⊢
    exact htest h
  | compare => exact htest h
  | not _ ih => simpa [exit] using ih h
  | @logical op left right line _ _ ihl ihr =>
    cases op <;> cases reversed <;> simp only [exit, Exit.logical] at h ⊢
    case and.false | or.false => simp at h
    case and.true =>
      split at h
      · split at h
        · simp_all
        · simp [*]
      · simp [*]
    case or.true =>
      split at h
      · next hor =>
        have := ihl h
        simp_all
      · simp [*]

theorem not_jumped_of_mayJumpAhead (he : IsCondition Q e) (h : e.mayJumpAhead reversed = false)
    (hside : (e.exit alu vars μ reversed).side = !reversed) :
    (e.exit alu vars μ reversed).jumped = false := by
  have htest {holds reversed : Bool} (h : (Exit.test holds reversed).side = !reversed) :
      (Exit.test holds reversed).jumped = false := by
    revert h
    cases holds <;> cases reversed <;> decide
  induction he generalizing reversed with
  | value he =>
    rw [exit_of_isValue (hQ he)] at hside ⊢
    exact htest hside
  | compare => exact htest hside
  | not _ ih => exact ih h (by simpa [exit] using hside)
  | @logical op left right line _ _ ihl ihr =>
    cases op <;> cases reversed <;> simp only [mayJumpAhead, exit, Exit.logical] at h hside ⊢
    case and.false | or.false => simp at h
    case and.true => split <;> [split; skip] <;> simp_all
    case or.true =>
      rw [Bool.or_eq_false_iff] at h
      split at hside
      · next hor =>
        have := ihl h.1 hside
        simp_all
      · simp_all

theorem side_eq_holds (he : IsCondition Q e) (h : e.isStraight reversed = true) :
    (e.exit alu vars μ reversed).side = e.holds alu vars μ := by
  induction he generalizing reversed with
  | value he => rw [exit_of_isValue (hQ he), holds_of_isValue (hQ he), Exit.test]
  | compare => simp [exit, Exit.test]
  | not _ ih => simpa [exit, holds] using ih h
  | @logical op left right line hl hr ihl ihr =>
    cases op <;> cases reversed <;>
      simp only [isStraight, Bool.and_eq_true, Bool.not_eq_true'] at h <;>
      simp only [exit, Exit.logical, holds]
    case and.false => rw [ihl h.1, ihr h.2]
    case or.false => rw [ihl h.1, ihr h.2]
    case and.true =>
      rw [← ihl h.1.1, ← ihr h.2]
      split
      · next hside =>
        rw [not_jumped_of_mayJumpAhead hQ hl h.1.2 hside]
        simp [hside]
      · next hside => simp [hside]
    case or.true =>
      rw [← ihl h.1.1, ← ihr h.2]
      cases hside : (left.exit alu vars μ true).side with
      | true => simp [hside]
      | false =>
        rw [not_jumped_of_mayJumpAhead hQ hl h.1.2 hside]
        simp

end

theorem exit_congr {μ' : Memory}
    (hQ : ∀ {e}, Q e → e.isValue = true ∧ e.eval alu vars μ' = e.eval alu vars μ)
    (he : IsCondition Q e) (reversed : Bool) :
    e.exit alu vars μ' reversed = e.exit alu vars μ reversed := by
  induction he generalizing reversed with
  | value he =>
    obtain ⟨hvalue, heq⟩ := hQ he
    rw [exit_of_isValue hvalue, exit_of_isValue hvalue, heq]
  | compare hl hr => simp [exit, holds, (hQ hl).2, (hQ hr).2]
  | not _ ih => simp [exit, ih]
  | @logical op left right line _ _ ihl ihr =>
    cases op <;> cases reversed <;> simp [exit, Exit.logical, ihl, ihr]

end Expr

namespace Lower

variable {a n : Nat} {e : Expr} {op : Comparison} {target : String}

namespace Branch

/-- The label of a side. -/
def label (b : Branch) (side : Bool) : String :=
  if side then b.onTrue else b.onFalse

/-- Where a pass stands that has come to the end of a condition. -/
def leave (b : Branch) (x : Exit) (s : Store) : Mode :=
  if x.jumped then .seeking (b.label x.side) s else .falling s

theorem leave_test (b : Branch) (holds : Bool) (s : Store) :
    b.leave (.test holds b.reversed) s =
      if holds = b.reversed then .seeking b.target s else .falling s := by
  cases holds <;> cases hr : b.reversed <;> simp [leave, Exit.test, label, target, hr]

end Branch

/-- The code of a condition is left as foretold. It changes spare places only, and its labels are
made from numbers taken for it. -/
structure Branched (m : Machine) (s : Scope) (b : Branch) (exit : Memory → Exit) (code : Code)
    (t : Scope) (n : Nat) : Prop where
  continues : s.Continues t
  jumps : t.session.jumps = s.session.jumps + UInt32.ofNat n
  spare : t.spare ⊆ s.spare
  numbered : code.Numbered s.session.jumps n
  leaves : n < UInt32.size → b.onFalse ∉ code.labels → b.onTrue ∉ code.labels →
    ∀ μ stack, s.ground.HoldIn μ → ∃ μ', AgreeOutside s.spare μ μ' ∧
      m.flow code (.falling ⟨μ, stack⟩) = b.leave (exit μ) ⟨μ', stack⟩

variable {m : Machine} {f : Frame} {o s t : Scope} {S : Set Nat} {b : Branch} {code : Code}

theorem Branched.congr {x y : Memory → Exit} (h : Branched m s b x code t n) (hxy : ∀ μ, y μ = x μ) :
    Branched m s b y code t n :=
  funext hxy ▸ h

theorem branched_branchKnown (holds : Bool) :
    Branched m s b (fun _ => .test holds b.reversed) (branchKnown holds b) s 0 where
  continues := .refl s
  jumps := by simp
  spare := subset_rfl
  numbered := .of_labels_eq_nil (by unfold branchKnown; split <;> rfl)
  leaves _ _ _ μ stack _ := by
    refine ⟨μ, .refl _ μ, ?_⟩
    rw [Branch.leave_test]
    unfold branchKnown
    split <;> rfl

theorem pass_branch {instr : Instr} {holds : Bool} {st : Store}
    (h : m.act st instr = Machine.branch (some holds) target st) :
    m.pass (.falling st) instr = if holds then .seeking target st else .falling st := by
  simp only [Machine.pass, h]
  cases holds <;> rfl

theorem pass_zeroTest {name target : String} (ha : m.place name = some a) (zero : Bool) (μ : Memory)
    (stack : List Word) :
    m.pass (.falling ⟨μ, stack⟩) (if zero then .ifZero name target else .ifNonzero name target) =
      if (μ a == 0) = zero then .seeking target ⟨μ, stack⟩ else .falling ⟨μ, stack⟩ := by
  have hzero : m.act ⟨μ, stack⟩ (.ifZero name target) =
      Machine.branch (some (μ a == 0)) target ⟨μ, stack⟩ := by
    simp [Machine.act, Machine.read, ha]
  have hnonzero : m.act ⟨μ, stack⟩ (.ifNonzero name target) =
      Machine.branch (some (μ a != 0)) target ⟨μ, stack⟩ := by
    simp [Machine.act, Machine.read, ha]
  cases zero with
  | true => exact pass_branch hzero
  | false =>
    refine (pass_branch hnonzero).trans ?_
    cases hw : μ a == 0 <;> simp [bne, hw]

theorem branched_branchValue {value : Lower Lowered} {val : Memory → Word} (hs : s.Ready m)
    (hS : s.registers ⊆ S) (hvalue : ∀ {v t}, Gives value f s v t → Computed m S s val v t)
    (h : Gives (branchValue value b) f s code t) :
    Branched m s b (fun μ => .test (val μ != 0) b.reversed) code t 0 := by
  simp only [branchValue, gives_bind, gives_pure] at h
  obtain ⟨v, s₁, hv, flat, s₂, hflat, _, s₃, hrelease, _, s₄, hoperand, rfl, rfl⟩ := h
  have hv := hvalue hv
  obtain ⟨read, hread, hcode⟩ := hv.operand
  have hs₁ := hv.continues.ready hs
  obtain ⟨a, hflat⟩ := flatten_runs hs₁.placed hread hv.waits hflat
  have hs₂ := hflat.continues.ready hs₁
  obtain ⟨h₃, hsession₃, hspare₃⟩ := flatRelease_spare hs₂.regular hflat hv.spare
    (hflat.spare.trans hv.spare) hrelease
  have hs₃ := h₃.ready hs₂
  have hregisters : s₃.registers = s.registers :=
    (hv.continues.trans (hflat.continues.trans h₃)).registers
  obtain ⟨h₄, hsession₄, hspare₄⟩ := releaseOperand_subset hs₃.regular hv.offset
    (fun a ha hmem => hv.held a ha (hS (hregisters ▸ hmem))) hspare₃ hoperand
  have hlabels : (v.code ++ flat.code ++
      [if b.reversed then Instr.ifNonzero flat.slot.asmName b.target
        else .ifZero flat.slot.asmName b.target]).labels = [] := by
    simp only [Code.labels_append, hv.labels, hflat.labels]
    split <;> rfl
  refine ⟨hv.continues.trans (hflat.continues.trans (h₃.trans h₄)), ?_, hspare₄,
    .of_labels_eq_nil hlabels, fun _ _ _ μ stack hμ => ?_⟩
  · rw [hsession₄, hsession₃, hflat.session, hv.jumps]
    simp
  · obtain ⟨μ₁, hruns₁, hagree₁, hvalue₁⟩ := hcode μ hμ
    have hμ₁ : s₁.ground.HoldIn μ₁ :=
      hv.continues.ground ▸ hs.holdIn (hagree₁.mono s.spare_subset_scratch) hμ
    obtain ⟨μ₂, hruns₂, hagree₂, hvalue₂⟩ := hflat.runs μ₁ hμ₁
    refine ⟨μ₂, hagree₁.trans (hagree₂.mono hv.spare), ?_⟩
    have hinstr : (if b.reversed then Instr.ifNonzero flat.slot.asmName b.target
        else .ifZero flat.slot.asmName b.target) =
          if !b.reversed then .ifZero flat.slot.asmName b.target
          else .ifNonzero flat.slot.asmName b.target := by
      cases b.reversed <;> rfl
    rw [hinstr, Machine.flow_append, hruns₁.append hruns₂, Machine.flow_cons, Machine.flow_nil,
      pass_zeroTest hflat.isAt.2, Branch.leave_test, hvalue₂, hvalue₁]
    cases b.reversed <;> cases hw : val μ == 0 <;> simp [hw, bne]

theorem zeroTest_eq (hop : op = .eq ∨ op = .ne) (name : String) :
    (if (op = .eq) = b.reversed then Instr.ifZero name b.target else .ifNonzero name b.target) =
      if (op == .eq) == b.reversed then .ifZero name b.target else .ifNonzero name b.target := by
  rcases hop with rfl | rfl <;> cases b.reversed <;> simp

theorem pass_ifCompare {left right : String} {a c : Nat} (ha : m.place left = some a)
    (hc : m.place right = some c) (μ : Memory) (stack : List Word) :
    m.pass (.falling ⟨μ, stack⟩)
        (.ifCompare (if b.reversed then op else op.negate) left right b.target) =
      b.leave (.test (m.alu.holds op (μ a) (μ c)) b.reversed) ⟨μ, stack⟩ := by
  have hact (op : Comparison) : m.act ⟨μ, stack⟩ (.ifCompare op left right b.target) =
      Machine.branch (some (m.alu.holds op (μ a) (μ c))) b.target ⟨μ, stack⟩ := by
    simp [Machine.act, Machine.read, ha, hc]
  rw [pass_branch (hact _), Branch.leave_test]
  cases b.reversed with
  | true => simp
  | false => cases hw : m.alu.holds op (μ a) (μ c) <;> simp [m.alu.negate, hw]

/-- Two operands that are given back leave no more places spare than there were before the first. -/
theorem Computed.giveBack {val₁ val₂ : Memory → Word} {v₁ v₂ : Lowered} {s₁ s₂ u w : Scope} {x y : Unit}
    (hs : s.Ready m) (hS : s.registers ⊆ S) (h₁ : Computed m S s val₁ v₁ s₁)
    (h₂ : Computed m S s₁ val₂ v₂ s₂) (hu : s.Continues u) (hspare : u.spare ⊆ s.spare)
    (hrelease₁ : Gives (releaseOperand v₁.slot) f u x w)
    (hrelease₂ : Gives (releaseOperand v₂.slot) f w y t) :
    s.Continues t ∧ t.session = u.session ∧ t.spare ⊆ s.spare := by
  obtain ⟨hw, hsession, hspare⟩ := releaseOperand_subset (hu.ready hs).regular h₁.offset
    (fun a ha hmem => h₁.held a ha (hS (hu.registers ▸ hmem))) hspare hrelease₁
  have hw := hu.trans hw
  obtain ⟨ht, hsession', hspare⟩ := releaseOperand_subset (hw.ready hs).regular h₂.offset
    (fun a ha hmem => h₁.spare (h₂.held a ha (hS (hw.registers ▸ hmem)))) hspare hrelease₂
  exact ⟨hw.trans ht, hsession'.trans hsession, hspare⟩

theorem branched_branchCompare {left right : Lower Lowered} {val₁ val₂ : Memory → Word} (hs : s.Ready m)
    (hS : s.registers ⊆ S) (hleft : ∀ {v t}, Gives left f s v t → Computed m S s val₁ v t)
    (hright : ∀ {u v t}, s.Continues u → Gives right f u v t → Computed m S u val₂ v t)
    (hsteady : ∀ {μ μ'}, AgreeOutside s.spare μ μ' → val₂ μ' = val₂ μ)
    (h : Gives (branchCompare op left right b) f s code t) :
    Branched m s b (fun μ => .test (m.alu.holds op (val₁ μ) (val₂ μ)) b.reversed) code t 0 := by
  simp only [branchCompare, gives_bind] at h
  obtain ⟨v₁, s₁, h₁, v₂, s₂, h₂, flat₁, s₃, hflat₁, h⟩ := h
  have h₁ := hleft h₁
  have h₂ := hright h₁.continues h₂
  have hcontinues₂ := h₁.continues.trans h₂.continues
  have hspare₂ := h₂.spare.trans h₁.spare
  have hs₂ := hcontinues₂.ready hs
  obtain ⟨read₁, read₂, hread₁, hread₂, hpair⟩ := h₁.pair hs h₂ hsteady
  obtain ⟨a, hflat₁⟩ := flatten_runs hs₂.placed hread₁
    (fun a ha hmem => h₁.waits a ha (h₂.spare hmem)) hflat₁
  have hcontinues₃ := hcontinues₂.trans hflat₁.continues
  have hspare₃ := hflat₁.spare.trans hspare₂
  have hs₃ := hcontinues₃.ready hs
  have hjumps₃ : s₃.session.jumps = s.session.jumps := by
    rw [hflat₁.session, h₂.jumps, h₁.jumps]
  have hrun (μ : Memory) (hμ : s.ground.HoldIn μ) : ∃ μ',
      m.Runs (v₁.code ++ v₂.code ++ flat₁.code) μ μ' ∧ AgreeOutside s.spare μ μ' ∧
        μ' a = val₁ μ ∧ read₂ μ' = val₂ μ := by
    obtain ⟨μ₂, hruns₂, hagree₂, hvalue₁, hvalue₂⟩ := hpair μ hμ
    have hμ₂ : s₂.ground.HoldIn μ₂ :=
      hcontinues₂.ground ▸ hs.holdIn (hagree₂.mono s.spare_subset_scratch) hμ
    obtain ⟨μ₃, hruns₃, hagree₃, hvalue₃⟩ := hflat₁.runs μ₂ hμ₂
    refine ⟨μ₃, hruns₂.append hruns₃, hagree₂.trans (hagree₃.mono hspare₂), ?_, ?_⟩
    · rw [hvalue₃, hvalue₁]
    · rw [hread₂.stays h₂.waits hagree₃, hvalue₂]
  simp only [gives_ite] at h
  rcases h with ⟨⟨hop, hzero⟩, h⟩ | ⟨-, h⟩
  · simp only [gives_bind, gives_pure] at h
    obtain ⟨_, s₄, hrelease, _, s₅, hback₁, _, s₆, hback₂, rfl, rfl⟩ := h
    obtain ⟨h₄, hsession₄, hspare₄⟩ :=
      flatRelease_spare hs₃.regular hflat₁ hspare₂ hspare₃ hrelease
    obtain ⟨ht, hsession, hspare⟩ :=
      h₁.giveBack hs hS h₂ (hcontinues₃.trans h₄) hspare₄ hback₁ hback₂
    refine ⟨ht, ?_, hspare, .of_labels_eq_nil ?_, fun _ _ _ μ stack hμ => ?_⟩
    · rw [hsession, hsession₄, hjumps₃]
      simp
    · simp only [Code.labels_append, h₁.labels, h₂.labels, hflat₁.labels]
      split <;> rfl
    · obtain ⟨μ', hruns, hagree, hvalue₁, hvalue₂⟩ := hrun μ hμ
      refine ⟨μ', hagree, ?_⟩
      rw [zeroTest_eq hop, Machine.flow_append, hruns, Machine.flow_cons, Machine.flow_nil,
        pass_zeroTest hflat₁.isAt.2, hvalue₁, Branch.leave_test, ← hvalue₂,
        hread₂.eq_of_isValue hzero, m.alu.holds_zero hop]
      cases op == .eq <;> cases val₁ μ == 0 <;> cases b.reversed <;> rfl
  · simp only [gives_bind, gives_pure] at h
    obtain ⟨flat₂, s₄, hflat₂, _, s₅, hrelease₂, _, s₆, hrelease₁, _, s₇, hback₁, _, s₈, hback₂,
      rfl, rfl⟩ := h
    obtain ⟨c, hflat₂⟩ := flatten_runs hs₃.placed hread₂
      (fun a ha hmem => h₂.waits a ha (hflat₁.spare hmem)) hflat₂
    have hcontinues₄ := hcontinues₃.trans hflat₂.continues
    obtain ⟨h₅, hsession₅, hspare₅⟩ := flatRelease_spare (hcontinues₄.ready hs).regular hflat₂
      hspare₃ (hflat₂.spare.trans hspare₃) hrelease₂
    have hcontinues₅ := hcontinues₄.trans h₅
    obtain ⟨h₆, hsession₆, hspare₆⟩ := flatRelease_spare (hcontinues₅.ready hs).regular hflat₁
      hspare₂ hspare₅ hrelease₁
    obtain ⟨ht, hsession, hspare⟩ :=
      h₁.giveBack hs hS h₂ (hcontinues₅.trans h₆) hspare₆ hback₁ hback₂
    refine ⟨ht, ?_, hspare, .of_labels_eq_nil ?_, fun _ _ _ μ stack hμ => ?_⟩
    · rw [hsession, hsession₆, hsession₅, hflat₂.session, hjumps₃]
      simp
    · simp only [Code.labels_append, h₁.labels, h₂.labels, hflat₁.labels, hflat₂.labels]
      rfl
    · obtain ⟨μ₃, hruns₃, hagree₃, hvalue₁, hvalue₂⟩ := hrun μ hμ
      have hμ₃ : s₃.ground.HoldIn μ₃ :=
        hcontinues₃.ground ▸ hs.holdIn (hagree₃.mono s.spare_subset_scratch) hμ
      obtain ⟨μ₄, hruns₄, hagree₄, hvalue₄⟩ := hflat₂.runs μ₃ hμ₃
      refine ⟨μ₄, hagree₃.trans (hagree₄.mono hspare₃), ?_⟩
      rw [Machine.flow_append, hruns₃.append hruns₄, Machine.flow_cons, Machine.flow_nil,
        pass_ifCompare hflat₁.isAt.2 hflat₂.isAt.2, hvalue₄, hvalue₂, hagree₄ a hflat₁.waits,
        hvalue₁]

/-! ## Connectives -/

theorem newJump_continues {id : String} (h : Gives newJump f s id t) :
    id = Numeral.base36 (s.session.jumps + 1) ∧ t.session.jumps = s.session.jumps + 1 ∧
      s.Continues t ∧ t.spare = s.spare := by
  simp only [newJump, Session.newJump, gives_bind, gives_get, gives_set, gives_pure] at h
  obtain ⟨_, _, ⟨rfl, rfl⟩, _, _, rfl, rfl, rfl⟩ := h
  exact ⟨rfl, rfl, ⟨rfl, rfl, id, rfl⟩, rfl⟩

section

variable {b₁ : Branch} {id next : String} {x₁ x₂ : Memory → Exit} {c₁ c₂ : Code} {s₁ s₂ : Scope}
  {n₁ n₂ : Nat} (hs : s.Ready m) (hid : Gives newJump f s id s₁)
  (h₁ : Branched m s₁ b₁ x₁ c₁ s₂ n₁) (h₂ : Branched m s₂ b x₂ c₂ t n₂)
  (hsteady : ∀ {μ μ'}, AgreeOutside s.spare μ μ' → x₂ μ' = x₂ μ)
include hid h₁ h₂

theorem Branched.append_numbered :
    (c₁ ++ c₂).Numbered (s.session.jumps + 1) (n₁ + n₂) := by
  obtain ⟨-, hjumps, -, -⟩ := newJump_continues hid
  exact (hjumps ▸ h₁.numbered).append (hjumps ▸ h₁.jumps ▸ h₂.numbered)

theorem Branched.next_not_mem (hnext : next ∈ Label.family id) (hn : n₁ + n₂ + 1 < UInt32.size) :
    next ∉ c₁.labels ∧ next ∉ c₂.labels := by
  obtain ⟨rfl, -⟩ := newJump_continues hid
  have := (h₁.append_numbered hid h₂).not_mem hnext (by omega)
  simpa using this

theorem Branched.connect {exit : Memory → Exit} (own : List String)
    (hperm : code.labels.Perm (own ++ (c₁ ++ c₂).labels))
    (hown : ∀ label ∈ own, label ∈ Label.family id) (hnodup : own.Nodup)
    (hleaves : n₁ + n₂ + 1 < UInt32.size → b.onFalse ∉ code.labels → b.onTrue ∉ code.labels →
      ∀ μ stack, s.ground.HoldIn μ → ∃ μ', AgreeOutside s.spare μ μ' ∧
        m.flow code (.falling ⟨μ, stack⟩) = b.leave (exit μ) ⟨μ', stack⟩) :
    Branched m s b exit code t (n₁ + n₂ + 1) := by
  have hnumbered := h₁.append_numbered hid h₂
  obtain ⟨rfl, hjumps, hcontinues, hspare⟩ := newJump_continues hid
  refine ⟨hcontinues.trans (h₁.continues.trans h₂.continues), ?_, ?_,
    hnumbered.enclose hperm hown hnodup, hleaves⟩
  · have hone : UInt32.ofNat 1 = 1 := rfl
    rw [h₂.jumps, h₁.jumps, hjumps, UInt32.ofNat_add, UInt32.ofNat_add, hone]
    ac_rfl
  · exact h₂.spare.trans (h₁.spare.trans hspare.subset)

include hs hsteady

theorem Branched.leave_both (hn : n₁ + n₂ < UInt32.size)
    (hfalse₁ : b₁.onFalse ∉ c₁.labels) (htrue₁ : b₁.onTrue ∉ c₁.labels)
    (hfalse₂ : b.onFalse ∉ c₂.labels) (htrue₂ : b.onTrue ∉ c₂.labels)
    {μ : Memory} (hμ : s.ground.HoldIn μ) (stack : List Word) :
    ∃ μ₁ μ₂, AgreeOutside s.spare μ μ₁ ∧ AgreeOutside s.spare μ μ₂ ∧
      m.flow c₁ (.falling ⟨μ, stack⟩) = b₁.leave (x₁ μ) ⟨μ₁, stack⟩ ∧
      m.flow c₂ (.falling ⟨μ₁, stack⟩) = b.leave (x₂ μ) ⟨μ₂, stack⟩ := by
  obtain ⟨-, -, hcontinues, hspare⟩ := newJump_continues hid
  obtain ⟨μ₁, hagree₁, hflow₁⟩ :=
    h₁.leaves (by omega) hfalse₁ htrue₁ μ stack (hcontinues.ground ▸ hμ)
  rw [hspare] at hagree₁
  have hμ₁ : s₂.ground.HoldIn μ₁ := by
    rw [(hcontinues.trans h₁.continues).ground]
    exact hs.holdIn (hagree₁.mono s.spare_subset_scratch) hμ
  obtain ⟨μ₂, hagree₂, hflow₂⟩ := h₂.leaves (by omega) hfalse₂ htrue₂ μ₁ stack hμ₁
  rw [hsteady hagree₁] at hflow₂
  exact ⟨μ₁, μ₂, hagree₁, hagree₁.trans (hagree₂.mono (hspare ▸ h₁.spare)), hflow₁, hflow₂⟩

/-- A connective that is not reversed: on one side the left operand goes on to the right one, by a
jump or not, and on the other side it jumps away. -/
theorem Branched.forward (go : Bool) (hnext : next ∈ Label.family id) (hgo : b₁.label go = next)
    (hother : b₁.label (!go) = b.label (!go))
    (hfalls₁ : ∀ {μ}, (x₁ μ).jumped = false → (x₁ μ).side = go)
    (hfalls₂ : ∀ {μ}, (x₂ μ).jumped = false → (x₂ μ).side = true) :
    Branched m s b (fun μ => ⟨if (x₁ μ).side = go then (x₂ μ).side else !go, true⟩)
      (c₁ ++ [.label next] ++ c₂ ++ [.jump b.onTrue]) t (n₁ + n₂ + 1) := by
  have hlabels : (c₁ ++ [Instr.label next] ++ c₂ ++ [Instr.jump b.onTrue]).labels =
      c₁.labels ++ next :: c₂.labels := by simp [Code.labels]
  refine h₁.connect hid h₂ [next] ?_ (by simpa using hnext) (by simp) ?_
  · rw [hlabels, Code.labels_append]
    exact List.perm_middle
  intro hn hfalse htrue μ stack hμ
  simp only [hlabels, List.mem_append, List.mem_cons, not_or] at hfalse htrue
  have hside (side : Bool) : b.label side ∉ c₁.labels ∧ b.label side ≠ next ∧
      b.label side ∉ c₂.labels := by
    cases side with
    | false => exact hfalse
    | true => exact htrue
  obtain ⟨hnext₁, -⟩ := h₁.next_not_mem hid h₂ hnext hn
  have hside₁ (side : Bool) : b₁.label side ∉ c₁.labels := by
    by_cases hs : side = go
    · rwa [hs, hgo]
    · rw [Bool.eq_not.mpr hs, hother]
      exact (hside _).1
  obtain ⟨μ₁, μ₂, hagree₁, hagree₂, hflow₁, hflow₂⟩ := h₁.leave_both hs hid h₂ hsteady
    (by omega) (hside₁ false) (hside₁ true) hfalse.2.2 htrue.2.2 hμ stack
  simp only [Machine.flow_append, hflow₁, Machine.flow_cons, Machine.flow_nil]
  by_cases hx₁ : (x₁ μ).side = go
  · refine ⟨μ₂, hagree₂, ?_⟩
    have hlabel : m.pass (b₁.leave (x₁ μ) ⟨μ₁, stack⟩) (.label next) = .falling ⟨μ₁, stack⟩ := by
      unfold Branch.leave
      rw [hx₁, hgo]
      split <;> simp
    rw [hlabel, hflow₂, if_pos hx₁]
    simp only [Branch.leave, if_true]
    split
    · rw [Machine.pass_seeking_of_ne (by simp)]
    · next hfall => rw [hfalls₂ (by simpa using hfall)]; rfl
  · refine ⟨μ₁, hagree₁, ?_⟩
    have hjumped : (x₁ μ).jumped = true := by
      by_contra hfall
      exact hx₁ (hfalls₁ (by simpa using hfall))
    have hleave : b₁.leave (x₁ μ) ⟨μ₁, stack⟩ = .seeking (b.label (!go)) ⟨μ₁, stack⟩ := by
      simp [Branch.leave, hjumped, Bool.eq_not.mpr hx₁, hother]
    obtain ⟨-, hne, hmem⟩ := hside (!go)
    rw [hleave, Machine.pass_seeking_of_ne (by simpa using hne.symm), Machine.flow_seeking hmem,
      Machine.pass_seeking_of_ne (by simp), if_neg hx₁]
    simp [Branch.leave]

theorem Branched.reversed_and (hnext : next ∈ Label.family id) (honFalse : b₁.onFalse = next)
    (honTrue : b₁.onTrue = b.onTrue)
    (hfalls₁ : ∀ {μ}, (x₁ μ).jumped = false → (x₁ μ).side = true) :
    Branched m s b (fun μ => if (x₁ μ).side then if (x₁ μ).jumped then x₁ μ else x₂ μ
        else ⟨false, false⟩)
      (c₁ ++ c₂ ++ [.label next]) t (n₁ + n₂ + 1) := by
  have hlabels : (c₁ ++ c₂ ++ [Instr.label next]).labels = c₁.labels ++ c₂.labels ++ [next] := by
    simp [Code.labels]
  refine h₁.connect hid h₂ [next] ?_ (by simpa using hnext) (by simp) ?_
  · rw [hlabels, Code.labels_append]
    exact List.perm_append_comm
  intro hn hfalse htrue μ stack hμ
  simp only [hlabels, List.mem_append, List.mem_singleton, not_or] at hfalse htrue
  obtain ⟨hnext₁, hnext₂⟩ := h₁.next_not_mem hid h₂ hnext hn
  obtain ⟨μ₁, μ₂, hagree₁, hagree₂, hflow₁, hflow₂⟩ := h₁.leave_both hs hid h₂ hsteady
    (by omega) (honFalse ▸ hnext₁) (honTrue ▸ htrue.1.1) hfalse.1.2 htrue.1.2 hμ stack
  simp only [Machine.flow_append, hflow₁, Machine.flow_cons, Machine.flow_nil]
  cases hside : (x₁ μ).side with
  | false =>
    refine ⟨μ₁, hagree₁, ?_⟩
    have hjumped : (x₁ μ).jumped = true := by
      by_contra hfall
      simp [hfalls₁ (by simpa using hfall)] at hside
    simp [Branch.leave, Branch.label, hside, hjumped, honFalse, Machine.flow_seeking hnext₂]
  | true =>
    cases hjumped : (x₁ μ).jumped with
    | true =>
      refine ⟨μ₁, hagree₁, ?_⟩
      simp [Branch.leave, Branch.label, hside, hjumped, honTrue, Machine.flow_seeking htrue.1.2,
        Machine.pass_seeking_of_ne, Ne.symm htrue.2]
    | false =>
      refine ⟨μ₂, hagree₂, ?_⟩
      have hfall : b₁.leave (x₁ μ) ⟨μ₁, stack⟩ = .falling ⟨μ₁, stack⟩ := by
        simp [Branch.leave, hjumped]
      rw [hfall, hflow₂]
      simp only [Bool.false_eq_true, if_true, if_false]
      unfold Branch.leave Branch.label
      split <;> [split; skip]
      · exact Machine.pass_seeking_of_ne (by simpa using Ne.symm htrue.2)
      · exact Machine.pass_seeking_of_ne (by simpa using Ne.symm hfalse.2)
      · rfl

theorem Branched.reversed_or (honFalse : b₁.onFalse = b.onFalse) (honTrue : b₁.onTrue = b.onTrue)
    (hfalls₁ : ∀ {μ}, (x₁ μ).jumped = false → (x₁ μ).side = false) :
    Branched m s b (fun μ => if (x₁ μ).side || (x₁ μ).jumped then x₁ μ else x₂ μ) (c₁ ++ c₂) t
      (n₁ + n₂ + 1) := by
  refine h₁.connect hid h₂ [] (.refl _) (by simp) (by simp) ?_
  intro hn hfalse htrue μ stack hμ
  simp only [Code.labels_append, List.mem_append, not_or] at hfalse htrue
  obtain ⟨μ₁, μ₂, hagree₁, hagree₂, hflow₁, hflow₂⟩ := h₁.leave_both hs hid h₂ hsteady
    (by omega) (honFalse ▸ hfalse.1) (honTrue ▸ htrue.1) hfalse.2 htrue.2 hμ stack
  simp only [Machine.flow_append, hflow₁]
  cases hjumped : (x₁ μ).jumped with
  | true =>
    refine ⟨μ₁, hagree₁, ?_⟩
    simp only [Branch.leave, hjumped, Bool.or_true, if_true]
    have hlabel : b₁.label (x₁ μ).side = b.label (x₁ μ).side := by
      simp [Branch.label, honFalse, honTrue]
    have hmem : b.label (x₁ μ).side ∉ c₂.labels := by
      unfold Branch.label
      split
      · exact htrue.2
      · exact hfalse.2
    rw [hlabel, Machine.flow_seeking hmem]
  | false =>
    refine ⟨μ₂, hagree₂, ?_⟩
    have hfall : b₁.leave (x₁ μ) ⟨μ₁, stack⟩ = .falling ⟨μ₁, stack⟩ := by
      simp [Branch.leave, hjumped]
    rw [hfall, hflow₂, hfalls₁ hjumped]
    rfl

end

theorem Branched.of_swap {x : Memory → Exit} (h : Branched m s b.swap x code t n) :
    Branched m s b (fun μ => ⟨!(x μ).side, (x μ).jumped⟩) code t n where
  continues := h.continues
  jumps := h.jumps
  spare := h.spare
  numbered := h.numbered
  leaves hn hfalse htrue μ stack hμ := by
    obtain ⟨μ', hagree, hflow⟩ := h.leaves hn htrue hfalse μ stack hμ
    refine ⟨μ', hagree, hflow.trans ?_⟩
    have hlabel (side : Bool) : b.swap.label side = b.label (!side) := by cases side <;> rfl
    simp [Branch.leave, hlabel]

variable {Q : Expr → Prop}

theorem branched_value (ho : o.Ready m) (hS : o.registers ⊆ S) (hvalue : e.isValue = true)
    (he : Reliable m f o S e) (hs : o.Continues s) (h : Gives (e.lowerCondition b) f s code t) :
    Branched m s b (fun μ => e.exit m.alu (o.ground.long? f.function) μ b.reversed) code t 0 := by
  simp only [Expr.exit_of_isValue hvalue]
  have hlower (h : Gives (branchValue e.lower b) f s code t) :=
    branched_branchValue (hs.ready ho) (hs.registers ▸ hS) (fun hv => he.computed hs hv) h
  cases e with
  | constant hex fixed line =>
    obtain ⟨w, hw⟩ := Option.isSome_iff_exists.mp hvalue
    simp only [Expr.lowerCondition, Expr.lowering, Lowering.ofConstant, gives_pure] at h
    obtain ⟨rfl, rfl⟩ := h
    have hholds (μ : Memory) : (Expr.eval m.alu (o.ground.long? f.function) μ
        (.constant hex fixed line) != 0) = decide (Hex.value? hex ≠ some 0) := by
      rw [Bool.eq_iff_iff]
      simp [Expr.eval, hw]
    simp only [hholds]
    exact branched_branchKnown _
  | unary op operand line => cases op <;> first | exact hlower h | simp [Expr.isValue] at hvalue
  | lookup | binary => exact hlower h
  | _ => simp [Expr.isValue] at hvalue

theorem branched_lowerCondition (ho : o.Ready m) (hS : o.workspace ⊆ S)
    (hQ : ∀ {e}, Q e → e.isValue = true ∧ Reliable m f o S e) (he : e.IsCondition Q)
    (hs : o.Continues s) (h : Gives (e.lowerCondition b) f s code t) :
    Branched m s b (fun μ => e.exit m.alu (o.ground.long? f.function) μ b.reversed) code t
      e.connectives := by
  have hvalue {e : Expr} (he : Q e) := (hQ he).1
  have hregisters : o.registers ⊆ S := fun a ha => hS (.inl ha)
  have hspare {s : Scope} (hs : o.Continues s) : s.spare ⊆ S :=
    s.spare_subset_workspace.trans (hs.workspace.trans hS)
  have hsteady {e : Expr} (he : e.IsCondition Q) {s : Scope} (hs : o.Continues s) {μ μ' : Memory}
      (hμ : AgreeOutside s.spare μ μ') (reversed : Bool) :=
    Expr.exit_congr (fun hq => ⟨(hQ hq).1, (hQ hq).2.steady (hμ.mono (hspare hs))⟩) he reversed
  induction he generalizing b s code t with
  | @value e he =>
    have hzero : e.connectives = 0 := by
      have := (hQ he).1
      cases e with
      | unary op operand line => cases op <;> first | rfl | simp [Expr.isValue] at this
      | constant | lookup | binary => rfl
      | _ => simp [Expr.isValue] at this
    rw [hzero]
    exact branched_value ho hregisters (hQ he).1 (hQ he).2 hs h
  | @compare op left right line hl hr =>
    refine branched_branchCompare (hs.ready ho) (hs.registers ▸ hregisters) (fun hv => (hQ hl).2.computed hs hv)
      (fun hu hv => (hQ hr).2.computed (hs.trans hu) hv) (fun hμ => ?_) h
    exact (hQ hr).2.steady (hμ.mono (hspare hs))
  | not he ih => exact (ih hs h).of_swap
  | @logical op left right line hl hr ihl ihr =>
    have h : Gives (branchLogical op left.lowerCondition right.lowerCondition b) f s code t := h
    simp only [branchLogical, gives_bind] at h
    obtain ⟨id, s₁, hid, h⟩ := h
    obtain ⟨-, -, hcontinues, -⟩ := newJump_continues hid
    have hs₁ := hs.trans hcontinues
    have hfalls {e : Expr} (he : e.IsCondition Q) {reversed : Bool} {μ : Memory}
        (h : (e.exit m.alu (o.ground.long? f.function) μ reversed).jumped = false) :=
      Expr.side_of_not_jumped hvalue he h
    have hand : s!"__AND_{id}_next" ∈ Label.family id := by simp [Label.family]
    have hor : s!"__OR_{id}_next" ∈ Label.family id := by simp [Label.family]
    cases op <;> rcases hb : b.reversed with _ | _ <;>
      simp only [hb, gives_bind, gives_pure] at h <;>
      obtain ⟨c₁, s₂, h₁, c₂, s₃, h₂, rfl, rfl⟩ := h <;>
      have h₁ := ihl hs₁ h₁ <;>
      have h₂ := hb ▸ ihr (hs₁.trans h₁.continues) h₂
    case and.false =>
      refine (h₁.forward (hs.ready ho) hid h₂ (hsteady hr hs · false) true hand rfl rfl (hfalls hl)
        (hfalls hr)).congr fun μ => ?_
      simp only [Expr.exit, Exit.logical]
      cases (Expr.exit m.alu (o.ground.long? f.function) μ left false).side <;> rfl
    case or.false =>
      refine (h₁.forward (hs.ready ho) hid h₂ (hsteady hr hs · false) false hor rfl rfl (hfalls hl)
        (hfalls hr)).congr fun μ => ?_
      simp only [Expr.exit, Exit.logical]
      cases (Expr.exit m.alu (o.ground.long? f.function) μ left true).side <;> rfl
    case and.true =>
      exact h₁.reversed_and (hs.ready ho) hid h₂ (hsteady hr hs · true) hand rfl rfl (hfalls hl)
    case or.true =>
      have h₁ := hb ▸ h₁
      exact h₁.reversed_or (hs.ready ho) hid h₂ (hsteady hr hs · true) rfl rfl (hfalls hl)

end Lower

/-! ## Runs through a condition -/

/-- A run leaves the code of a condition by a side: by a jump to the label of the side, or by
falling off the end, which is the true side unless the branch is reversed. -/
def Machine.LeavesBy (m : Machine) (code : Code) (b : Lower.Branch) (side : Bool) (s : Store) :
    Prop :=
  ∃ s', m.Steps code (.at 0 s) (.left (b.label side) s') ∨
    side ≠ b.reversed ∧ m.Steps code (.at 0 s) (.at code.length s')

theorem Machine.LeavesBy.unique {m : Machine} {code : Code} {b : Lower.Branch} {s : Store}
    {side side' : Bool} (hb : b.onFalse ≠ b.onTrue) (h : m.LeavesBy code b side s)
    (h' : m.LeavesBy code b side' s) : side = side' := by
  have hend (s : Store) : m.step code (.at code.length s) = none := by simp [step]
  have hlabel (h : b.label side = b.label side') : side = side' := by
    cases side <;> cases side' <;> simp_all [Lower.Branch.label]
  obtain ⟨s₁, h | ⟨hside, h⟩⟩ := h <;> obtain ⟨s₂, h' | ⟨hside', h'⟩⟩ := h'
  · exact hlabel (Run.left.inj (h.final_unique h' rfl rfl)).1
  · exact absurd (h.final_unique h' rfl (hend _)) (by simp)
  · exact absurd (h.final_unique h' (hend _) rfl) (by simp)
  · exact (Bool.eq_not.mpr hside).trans (Bool.eq_not.mpr hside').symm

/-- The code of a condition over constants and plain variables, which are not in the registers and
not in a reserved target, is always left by the side that `Expr.exit` gives. If no connective can
jump past its right operand, that is the side of its truth. -/
theorem Expr.leavesBy_iff_exit {m : Machine} {f : Frame} {s t : Scope} {e : Expr}
    {b : Lower.Branch} {code : Code} (hs : s.Ready m)
    (he : e.IsCondition (IsOperand (s.ground.long? f.function) s.workspace))
    (hsize : e.connectives < UInt32.size) (hb : b.onFalse ≠ b.onTrue)
    (hfalse : b.onFalse ∉ code.labels) (htrue : b.onTrue ∉ code.labels)
    (h : Gives (e.lowerCondition b) f s code t) {μ : Memory} (hμ : s.ground.HoldIn μ)
    (stack : List Word) :
    (∀ side, m.LeavesBy code b side ⟨μ, stack⟩ ↔
      (e.exit m.alu (s.ground.long? f.function) μ b.reversed).side = side) ∧
    (e.isStraight b.reversed = true →
      (e.exit m.alu (s.ground.long? f.function) μ b.reversed).side =
        e.holds m.alu (s.ground.long? f.function) μ) := by
  have hoperand {e : Expr} := @Lower.reliable_of_isOperand m f s s.workspace e hs subset_rfl
  have hvalue {e : Expr} (he : e.IsOperand (s.ground.long? f.function) s.workspace) :=
    (hoperand he).1
  have hbranched := Lower.branched_lowerCondition hs subset_rfl hoperand he (.refl s) h
  obtain ⟨μ', -, hflow⟩ := hbranched.leaves hsize hfalse htrue μ stack hμ
  have hsteps := Machine.steps_flow [] code [] (.falling ⟨μ, stack⟩) (m := m)
    (by simpa using hbranched.numbered.nodup hsize)
  simp only [List.nil_append, List.append_nil, List.length_nil, Nat.zero_add, hflow] at hsteps
  have hleaves : m.LeavesBy code b
      (e.exit m.alu (s.ground.long? f.function) μ b.reversed).side ⟨μ, stack⟩ := by
    refine ⟨⟨μ', stack⟩, ?_⟩
    unfold Lower.Branch.leave at hsteps
    split at hsteps
    · have hmem : .label (b.label (e.exit m.alu (s.ground.long? f.function) μ b.reversed).side)
          ∉ code := by
        rw [← Machine.mem_labels]
        unfold Lower.Branch.label
        split
        · exact htrue
        · exact hfalse
      simp only [Mode.run, Code.goto, if_neg hmem] at hsteps
      exact .inl hsteps
    · next hfall =>
      refine .inr ⟨?_, hsteps⟩
      rw [side_of_not_jumped hvalue he (by simpa using hfall)]
      exact Bool.not_ne_self _
  refine ⟨fun side => ⟨fun h => hleaves.unique hb h, fun h => h ▸ hleaves⟩, fun hstraight => ?_⟩
  exact side_eq_holds hvalue he hstraight

/-- The condition `(x && y) && z`. -/
def nestedAnd : Expr :=
  .logical .and (.logical .and (.var "x" 1) (.var "y" 1) 1) (.var "z" 1) 1

/-- The end of a loop that goes on at its start while a condition holds. -/
def loopBranch : Lower.Branch where
  onFalse := "stop"
  onTrue := "again"
  reversed := true

def threeWords : Scope :=
  .start (.ofWords ["x", "y", "z"])

/-- Reversed, `(x && y) && z` is left by its true side when `z` is zero: the inner `&&` jumps past
`z`. -/
theorem nestedAnd_leavesBy_true :
    ∃ (m : Machine) (s t : Scope) (code : Code) (μ : Memory), s.Ready m ∧ s.ground.HoldIn μ ∧
      Gives (nestedAnd.lowerCondition loopBranch) { line := 1 } s code t ∧
      nestedAnd.holds m.alu (s.ground.long? none) μ = false ∧
      m.LeavesBy code loopBranch true ⟨μ, []⟩ := by
  have hsound := Session.sound_ofWords ["x", "y", "z"] (by decide)
  have hcontent := Session.content_ofWords ["x", "y", "z"]
  have hready : threeWords.Ready _ := Scope.ready_start hsound (hsound.has_machine .unsigned)
    fun slot hslot h => absurd (hcontent slot hslot) h
  have hconstants (μ : Memory) : threeWords.ground.HoldIn μ :=
    fun _ _ _ hnames => absurd hnames (Scope.not_names_start hcontent)
  have hoperand (name : String) (a : Nat) (h : threeWords.ground.long? none name = some a)
      (ha : some a ∉ threeWords.ground.registers.map Slot.address) :
      (Expr.var name 1).IsOperand (threeWords.ground.long? none) threeWords.workspace :=
    .lookup h (Scope.workspace_start _ ▸ ha)
  have hx := hoperand "x" 3 (by decide +kernel) (by decide +kernel)
  have hy := hoperand "y" 4 (by decide +kernel) (by decide +kernel)
  have hz := hoperand "z" 5 (by decide +kernel) (by decide +kernel)
  have hcode : ((outcome (nestedAnd.lowerCondition loopBranch) { line := 1 }
      threeWords).1.toOption.any fun code =>
        "stop" ∉ code.labels ∧ "again" ∉ code.labels) = true := by decide +kernel
  obtain ⟨code, hcode, hlabels⟩ := (Option.any_eq_true _ _).mp hcode
  obtain ⟨hstop, hagain⟩ := of_decide_eq_true hlabels
  have hgives := gives_of_toOption hcode
  refine ⟨_, threeWords, _, code, fun a => if a = 5 then 0 else 1, hready, hconstants _, hgives,
    by decide +kernel, ?_⟩
  refine ((Expr.leavesBy_iff_exit hready (.logical (.logical (.value hx) (.value hy)) (.value hz))
    (by decide) (by decide) hstop hagain hgives (hconstants _) []).1 true).mpr ?_
  decide +kernel

end Flatword
