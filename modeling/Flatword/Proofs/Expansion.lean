import Flatword.Proofs.Mirror
import Flatword.Proofs.Weave

/-!
# Programs with more registers

An expression that shows no address is lowered to the same code with more registers, and so are all
statements of a program. If a program can be compiled, it can be compiled with more registers, and only
the header of the assembly changes.
-/

namespace Flatword

namespace Expr

/-- Whether the value of an expression is known from its literal alone. -/
def isLiteral : Expr → Bool
  | constant _ _ _ => true
  | unary .neg operand _ | unary .bitNot operand _ => operand.isLiteral
  | _ => false

mutual

/-- Whether no address is taken inside, and no constant followed to an address. -/
def hidesAddresses : Expr → Bool
  | constant _ _ _ => true
  | lookup _ path _ => pathHidesAddresses path
  | call _ args _ => argsHideAddresses args
  | unary .addressOf _ _ => false
  | unary .deref operand _ => !operand.isLiteral && operand.hidesAddresses
  | unary _ operand _ => operand.hidesAddresses
  | binary _ left right _ | compare _ left right _ | logical _ left right _ =>
    left.hidesAddresses && right.hidesAddresses
  | assign _ target value _ => target.hidesAddresses && value.hidesAddresses
  | step _ _ target _ => target.hidesAddresses

def pathHidesAddresses : List Access → Bool
  | [] => true
  | .index index :: rest => index.hidesAddresses && pathHidesAddresses rest
  | .member _ :: rest | .arrow _ :: rest => pathHidesAddresses rest

def argsHideAddresses : List Expr → Bool
  | [] => true
  | arg :: rest => arg.hidesAddresses && argsHideAddresses rest

end

theorem isLiteral_of_namesPlace (e : Expr) (h : e.namesPlace = true) : e.isLiteral = false := by
  unfold namesPlace at h
  split at h
  · rfl
  · rfl
  · simp at h

end Expr

namespace Widening

variable {left right operand target value : Lower Lowered} {v v' : Lowered}

open Lower

variable {w : Widening} {c d : Bool} {x y : Slot}

/-! ## Conditions -/

theorem follows_branchValue (h : Follows w.Twins (w.Values c) value value) (b : Branch) :
    Follows w.Twins Eq (branchValue value b) (branchValue value b) := by
  unfold branchValue
  refine h.bind fun {v v'} hv => ?_
  refine (flattens_flatten hv.slot).bind fun {flat flat'} hflat => ?_
  refine hflat.release.bind fun _ => ?_
  rw [hv.slot.eq]
  refine (follows_releaseOperand v.slot).bind fun _ => follows_pure ?_
  rw [hv.code, hflat.code, hflat.asmName]

theorem follows_branchCompare (op : Comparison) (hleft : Follows w.Twins (w.Values c) left left)
    (hright : Follows w.Twins (w.Values d) right right) (b : Branch) :
    Follows w.Twins Eq (branchCompare op left right b) (branchCompare op left right b) := by
  unfold branchCompare
  refine hleft.bind fun {l l'} hl => hright.bind fun {r r'} hr => ?_
  refine (flattens_flatten hl.slot).bind fun {flat flat'} hflat => ?_
  have hzero : r'.slot.isValue 0 = r.slot.isValue 0 := by rw [hr.slot.eq, slot_isValue]
  have hflattenRight := flattens_flatten hr.slot
  dsimp only
  rw [hflat.asmName, hzero, hl.code, hr.code, hflat.code, hl.slot.eq]
  rw [hr.slot.eq] at hflattenRight ⊢
  refine .ite Iff.rfl (fun _ => ?_) fun _ => ?_
  · refine hflat.release.bind fun _ => (follows_releaseOperand l.slot).bind fun _ => ?_
    exact (follows_releaseOperand r.slot).bind fun _ => follows_pure rfl
  · refine hflattenRight.bind fun {other other'} hother => ?_
    refine hother.release.bind fun _ => hflat.release.bind fun _ => ?_
    refine (follows_releaseOperand l.slot).bind fun _ => ?_
    refine (follows_releaseOperand r.slot).bind fun _ => follows_pure ?_
    rw [hother.code, hother.asmName]

theorem follows_branchLogical (op : LogicalOp) {left right : Branch → Lower Code}
    (hleft : ∀ b, Follows w.Twins Eq (left b) (left b))
    (hright : ∀ b, Follows w.Twins Eq (right b) (right b)) (b : Branch) :
    Follows w.Twins Eq (branchLogical op left right b) (branchLogical op left right b) := by
  unfold branchLogical
  refine follows_newJump.bindSame fun id => ?_
  cases op <;> cases b.reversed
  all_goals
    refine (hleft _).bindSame fun first => ?_
    refine (hright _).bindSame fun second => ?_
    exact follows_pure rfl

theorem follows_materialize {condition : Branch → Lower Code}
    (h : ∀ b, Follows w.Twins Eq (condition b) (condition b)) :
    Follows w.Twins (w.Values false) (materialize condition) (materialize condition) := by
  unfold materialize
  refine follows_newJump.bindSame fun id => ?_
  refine (h _).bindSame fun code => ?_
  refine follows_allocate.bind fun {scratch scratch'} hscratch => ?_
  refine (assigns_assign (hscratch.slots false) (slots_ofWord 1)).bindSame fun one => ?_
  refine follows_pure ⟨hscratch.slots false, ?_⟩
  rw [(hscratch.slots false).asmName]

/-! ## Operators -/

theorem follows_stepOperand (up : Bool) (h : w.Slots c x y) :
    Follows w.Twins (w.Values false) (stepOperand up x) (stepOperand up y) := by
  unfold stepOperand
  refine (follows_own h).bind fun {v v'} hv => follows_pure ⟨hv.slot, ?_⟩
  rw [hv.code, hv.slot.asmName]

theorem follows_operate (op : BinaryOp) {dest dest' : Slot} (hdest : w.Slots c dest dest')
    (h : w.Slots d x y) : Follows w.Twins (w.Values false) (operate op dest x) (operate op dest' y) := by
  unfold operate
  refine (follows_own hdest).bind fun {v v'} hv => ?_
  refine (flattens_flatten h).bind fun {flat flat'} hflat => ?_
  refine hflat.release.bind fun _ => ?_
  have hrelease := follows_releaseBeside (w := w) v.slot x
  rw [← hv.slot.eq, ← h.eq] at hrelease
  refine hrelease.bind fun _ => follows_pure ⟨hv.slot, ?_⟩
  rw [hv.code, hflat.code, hv.slot.asmName, hflat.asmName]

theorem follows_combine (op : BinaryOp) {l l' r r' : Slot} (hl : w.Slots c l l') (hr : w.Slots d r r') :
    Follows w.Twins (w.Values false) (combine op l r) (combine op l' r') := by
  -- With the operands in their order, the code depends on what both of them are.
  have hordered {c d : Bool} {first first' second second' : Slot} (hfirst : w.Slots c first first')
      (hsecond : w.Slots d second second') :
      Follows w.Twins (w.Values false)
        (if (op = .add ∨ op = .sub) ∧ second.isValue 1 then stepOperand (op = .add) first
        else do
          let firstTemp ← isTemp first
          let secondTemp ← isTemp second
          if op.isCommutative && !firstTemp && (secondTemp || second.isConstant) then
            operate op second first
          else operate op first second)
        (if (op = .add ∨ op = .sub) ∧ second'.isValue 1 then stepOperand (op = .add) first'
        else do
          let firstTemp ← isTemp first'
          let secondTemp ← isTemp second'
          if op.isCommutative && !firstTemp && (secondTemp || second'.isConstant) then
            operate op second' first'
          else operate op first' second') := by
    have hone : second'.isValue 1 = second.isValue 1 := by rw [hsecond.eq, slot_isValue]
    have hconstant : second'.isConstant = second.isConstant := by rw [hsecond.eq, slot_isConstant]
    rw [hone, hconstant]
    refine .ite Iff.rfl (fun _ => follows_stepOperand _ hfirst) fun _ => ?_
    have hfirstTemp := follows_isTemp (w := w) first
    have hsecondTemp := follows_isTemp (w := w) second
    rw [← hfirst.eq] at hfirstTemp
    rw [← hsecond.eq] at hsecondTemp
    refine hfirstTemp.bind fun {temp _} htemp => hsecondTemp.bind fun {temp' _} htemp' => ?_
    obtain ⟨rfl, -⟩ := htemp
    obtain ⟨rfl, -⟩ := htemp'
    exact .ite Iff.rfl (fun _ => follows_operate op hsecond hfirst)
      fun _ => follows_operate op hfirst hsecond
  have hone : l'.isValue 1 = l.isValue 1 := by rw [hl.eq, slot_isValue]
  have hconstant : r'.isConstant = r.isConstant := by rw [hr.eq, slot_isConstant]
  unfold combine
  rw [hone, hconstant]
  dsimp only
  by_cases hswap : op = .add ∧ l.isValue 1 = true ∧ (!r.isConstant) = true
  · rw [if_pos hswap, if_pos hswap]
    exact hordered hr hl
  · rw [if_neg hswap, if_neg hswap]
    exact hordered hl hr

theorem follows_lowerBinary (op : BinaryOp) (hleft : Follows w.Twins (w.Values c) left left)
    (hright : Follows w.Twins (w.Values d) right right) :
    Follows w.Twins (w.Values false) (lowerBinary op left right) (lowerBinary op left right) := by
  unfold lowerBinary
  refine hleft.bind fun {l l'} hl => hright.bind fun {r r'} hr => ?_
  refine (follows_combine op hl.slot hr.slot).bind fun {v v'} hv => follows_pure ⟨hv.slot, ?_⟩
  rw [hl.code, hr.code, hv.code]

theorem follows_lowerDiscard (h : Follows w.Twins (w.Values c) operand operand) :
    Follows w.Twins (w.Values false) (lowerDiscard operand) (lowerDiscard operand) := by
  unfold lowerDiscard
  refine h.bind fun {v v'} hv => ?_
  rw [hv.slot.eq]
  refine (follows_releaseOperand v.slot).bind fun _ => follows_pure ⟨⟨⟨nofun, nofun⟩, nofun, rfl⟩, hv.code⟩

theorem follows_lowerDeref (h : Follows w.Twins (w.Values false) operand operand) :
    Follows w.Twins (w.Values false) (lowerDeref operand) (lowerDeref operand) := by
  unfold lowerDeref
  refine h.bind fun {v v'} hv => ?_
  obtain ⟨x, code⟩ := v
  obtain ⟨y, code'⟩ := v'
  obtain ⟨hx, hcode⟩ := hv
  dsimp only at hx hcode ⊢
  have hkind : y.kind = x.kind := by rw [hx.eq]; rfl
  have hnone : y.offset.isNone = x.offset.isNone := by rw [hx.eq]; simp [slot]
  have htype : y.type = x.type := by rw [hx.eq]; rfl
  have hshape : y.shape = x.shape := by rw [hx.eq]; rfl
  rw [hkind, hnone, htype, hshape]
  refine .ite Iff.rfl (fun harray => ?_) fun harray => ?_
  · exact (follows_slotAt hx harray.1 0).bind fun hcell => follows_pure ⟨hcell, hcode⟩
  · refine (follows_intoBase hx).bind fun {base base'} hbase => follows_pure ⟨?_, ?_⟩
    · exact hbase.1.slot.known (base_ne_array (by simpa using harray) hbase.2) _ _ _
    · rw [hcode, hbase.1.code]

theorem follows_foldConstant (g : Word → Word) (hv : w.Values c v v') (hc : v.slot.isConstant = true) :
    Follows w.Twins (w.Values c) (foldConstant g v) (foldConstant g v') := by
  have htype : v'.slot.type = v.slot.type := by rw [hv.slot.eq]; rfl
  have hkind : v.slot.kind = .constant := by
    simp only [Slot.isConstant, Bool.and_eq_true, decide_eq_true_eq] at hc
    exact hc.1
  unfold foldConstant
  refine (follows_constantWord hv.slot hc).bindSame fun value => ?_
  rw [htype]
  have hword (type : ValueType) : ({ Slot.ofWord (g value) with type } : Slot).kind ≠ .array := by
    simp [Slot.ofWord, Slot.constant]
  exact follows_pure ⟨⟨⟨fun _ => ⟨rfl, rfl⟩, fun hk => absurd hk (hword _)⟩,
    fun _ => hv.slot.value hkind, rfl⟩, hv.code⟩

theorem follows_lowerComplement (h : Follows w.Twins (w.Values c) operand operand) :
    Follows w.Twins (w.Values c) (lowerComplement operand) (lowerComplement operand) := by
  unfold lowerComplement
  refine h.bind fun {v v'} hv => ?_
  have hconstant : v'.slot.isConstant = v.slot.isConstant := by rw [hv.slot.eq, slot_isConstant]
  rw [hconstant]
  refine .ite Iff.rfl (fun hc => follows_foldConstant _ hv hc) fun _ => ?_
  refine (follows_own hv.slot).bind fun {t t'} ht => follows_pure ⟨ht.slot.mono (by simp), ?_⟩
  rw [hv.code, ht.code, ht.slot.asmName]

theorem follows_lowerNegate (h : Follows w.Twins (w.Values c) operand operand) :
    Follows w.Twins (w.Values c) (lowerNegate operand) (lowerNegate operand) := by
  unfold lowerNegate
  refine h.bind fun {v v'} hv => ?_
  have hconstant : v'.slot.isConstant = v.slot.isConstant := by rw [hv.slot.eq, slot_isConstant]
  rw [hconstant]
  refine .ite Iff.rfl (fun hc => follows_foldConstant _ hv hc) fun _ => ?_
  refine follows_allocate.bind fun {scratch scratch'} hscratch => ?_
  refine (flattens_flatten hv.slot).bind fun {flat flat'} hflat => ?_
  refine hflat.release.bind fun _ => ?_
  rw [hv.slot.eq]
  refine (follows_releaseOperand v.slot).bind fun _ => follows_pure ⟨hscratch.slots c, ?_⟩
  rw [hv.code, hflat.code, hflat.asmName, (hscratch.slots c).asmName]

/-! ## Assignments and calls -/

theorem follows_lowerTarget {namesPlace : Bool}
    (h : namesPlace = true → Follows w.Twins (w.Values false) target target) :
    Follows w.Twins (w.Values false) (lowerTarget namesPlace target) (lowerTarget namesPlace target) := by
  unfold lowerTarget
  refine .ite Iff.rfl (fun _ => follows_fail_bind) fun hplace => ?_
  refine (h (by simpa using hplace)).onSide.bind fun {v v'} hv => ?_
  have hkind : v'.slot.kind = v.slot.kind := by rw [hv.slot.eq]; rfl
  have hoffset : v'.slot.offset = v.slot.offset.map w.offset := by rw [hv.slot.eq]; rfl
  rw [hkind, hoffset]
  rcases v.slot.kind <;> rcases v.slot.offset with _ | _ <;>
    first | exact follows_fail | exact follows_pure hv

theorem follows_storeValue {target target' : Slot} (htarget : w.Slots c target target')
    (h : w.Slots d x y) : Follows w.Twins Eq (storeValue target x) (storeValue target' y) := by
  unfold storeValue
  refine (assigns_assign htarget h).bindSame fun code => ?_
  rw [htarget.eq, h.eq]
  exact (follows_releaseBeside target x).bind fun _ => follows_pure rfl

theorem follows_updateTarget (op : BinaryOp) {target target' : Slot} (htarget : w.Slots c target target')
    (h : w.Slots d x y) : Follows w.Twins Eq (updateTarget op target x) (updateTarget op target' y) := by
  have hplain : target'.isPlain = target.isPlain := by rw [htarget.eq, slot_isPlain]
  unfold updateTarget
  rw [hplain]
  refine .ite Iff.rfl (fun _ => follows_update op htarget.asmName h) fun _ => ?_
  refine follows_allocate.bind fun {scratch scratch'} hscratch => ?_
  have hslots := hscratch.slots (w := w) false
  refine (assigns_assign hslots htarget).bindSame fun loaded => ?_
  refine (follows_update op hslots.asmName h).bindSame fun changed => ?_
  refine (assigns_assign htarget hslots).bindSame fun stored => ?_
  rw [hscratch.2]
  exact (follows_release scratch.address).bind fun _ => follows_pure rfl

theorem follows_lowerAssign (op : Option BinaryOp) (conflicts : Bool)
    (htarget : Follows w.Twins (w.Values false) target target)
    (hvalue : Follows w.Twins (w.Values d) value value) :
    Follows w.Twins (w.Values false) (lowerAssign op conflicts target value)
      (lowerAssign op conflicts target value) := by
  unfold lowerAssign
  refine htarget.bind fun {t t'} ht => ?_
  have hreserve := follows_reserveTarget (w := w) (op.isNone && !conflicts) t.slot
  rw [← ht.slot.eq] at hreserve
  refine hreserve.bind fun _ => hvalue.bind fun {v v'} hv => ?_
  have hkind : v'.slot.kind = v.slot.kind := by rw [hv.slot.eq]; rfl
  rw [hkind]
  refine .ite Iff.rfl (fun _ => follows_fail_bind) fun _ => ?_
  cases op with
  | none =>
    refine (follows_storeValue ht.slot hv.slot).bind fun {code _} hcode => ?_
    exact follows_pure ⟨ht.slot, by rw [ht.code, hv.code, hcode]⟩
  | some op =>
    refine (follows_updateTarget op ht.slot hv.slot).bind fun {code _} hcode => ?_
    exact follows_pure ⟨ht.slot, by rw [ht.code, hv.code, hcode]⟩

theorem follows_lowerStep (up before : Bool) (h : Follows w.Twins (w.Values false) target target) :
    Follows w.Twins (w.Values false) (lowerStep up before target) (lowerStep up before target) := by
  unfold lowerStep
  refine h.bind fun {v v'} hv => ?_
  obtain ⟨x, code⟩ := v
  obtain ⟨y, code'⟩ := v'
  obtain ⟨hx, rfl⟩ := hv
  dsimp only at hx ⊢
  have hplain : y.isPlain = x.isPlain := by rw [hx.eq, slot_isPlain]
  rw [hplain, hx.asmName]
  refine .ite Iff.rfl (fun _ => ?_) fun _ => ?_
  · refine .ite Iff.rfl (fun _ => follows_pure ⟨hx, rfl⟩) fun _ => ?_
    exact (follows_pushPost _ _).bind fun _ => follows_pure ⟨hx, rfl⟩
  · refine .ite Iff.rfl (fun _ => follows_fail_bind) fun _ => ?_
    refine follows_allocate.bind fun {scratch scratch'} hscratch => ?_
    have hslots := hscratch.slots (w := w) false
    refine (assigns_assign hslots hx).bindSame fun loaded => ?_
    refine (assigns_assign hx hslots).bindSame fun stored => ?_
    rw [hx.eq]
    refine (follows_releaseOperand x).bind fun _ => follows_pure ⟨hslots, ?_⟩
    rw [hslots.asmName]

theorem follows_passArgument (h : Follows w.Twins (w.Values c) value value) (name : String) :
    Follows w.Twins Eq (passArgument value name) (passArgument value name) := by
  unfold passArgument
  refine h.bind fun {v v'} hv => ?_
  refine follows_lookupAsm? (by simp [orFail]) fun hargument => ?_
  simp only [orFail, pure_bind]
  refine (assigns_assign hargument hv.slot).bindSame fun code => ?_
  rw [hv.slot.eq]
  refine (follows_releaseOperand v.slot).bind fun _ => follows_pure ?_
  rw [hv.code]

theorem follows_passArguments {values : List (Lower Lowered)}
    (h : ∀ value ∈ values, Follows w.Twins (w.Values true) value value) (names : List String) :
    Follows w.Twins Eq (passArguments values names) (passArguments values names) := by
  induction values generalizing names with
  | nil => exact follows_pure rfl
  | cons value values ih =>
    obtain _ | ⟨name, names⟩ := names
    · exact follows_pure rfl
    unfold passArguments
    refine (ih (fun value hvalue => h value (by simp [hvalue])) names).bind fun {later _} hlater => ?_
    refine (follows_passArgument (h value (by simp)) name).bind fun {code _} hcode => ?_
    exact follows_pure (by rw [hlater, hcode])

theorem follows_fetchResult (type : ValueType) :
    Follows w.Twins (w.Values false) (fetchResult type) (fetchResult type) := by
  unfold fetchResult
  refine .ite Iff.rfl (fun _ => follows_pure ⟨⟨⟨nofun, nofun⟩, nofun, rfl⟩, rfl⟩) fun _ => ?_
  refine follows_allocate.bind fun {result result'} hresult => follows_pure ⟨?_, ?_⟩
  · exact (hresult.retyped type).slots false
  · rw [(hresult.slots false).asmName]

theorem follows_lowerCall (name : String) {args : List (Lower Lowered)}
    (h : ∀ value ∈ args, Follows w.Twins (w.Values true) value value) :
    Follows w.Twins (w.Values false) (lowerCall name args) (lowerCall name args) := by
  unfold lowerCall
  refine follows_get.bind fun {s _} hs => ?_
  obtain ⟨-, rfl⟩ := hs
  refine follows_orFail_eq.bindSame fun signature => ?_
  refine .ite Iff.rfl (fun _ => follows_fail_bind) fun _ => ?_
  refine (follows_passArguments h signature.arguments).bindSame fun passed => ?_
  refine follows_get.bind fun {s _} hs => ?_
  obtain ⟨-, rfl⟩ := hs
  have hlive : (w.scope s).liveValues.map Slot.asmName = s.liveValues.map Slot.asmName := by
    rw [liveValues_scope, List.map_map]
    rfl
  rw [hlive]
  refine (follows_fetchResult signature.returnType).bind fun {v v'} hv => follows_pure ⟨hv.slot, ?_⟩
  rw [hv.code]

/-! ## Expressions -/

/-- The value of an expression and the jumps that it is tested by follow themselves. -/
structure Repeats (w : Widening) (c : Bool) (l : Lowering) : Prop where
  value : Follows w.Twins (w.Values c) l.value l.value
  branch : ∀ b, Follows w.Twins Eq (l.branch b) (l.branch b)

theorem repeats_ofValue (h : Follows w.Twins (w.Values c) value value) : w.Repeats c (.ofValue value) :=
  ⟨h, follows_branchValue h⟩

theorem repeats_ofBranch {branch : Branch → Lower Code}
    (h : ∀ b, Follows w.Twins Eq (branch b) (branch b)) : w.Repeats false (.ofBranch branch) :=
  ⟨follows_materialize h, h⟩

theorem repeats_ofConstant (hex : String) (fixed : Bool) : w.Repeats true (.ofConstant hex fixed) := by
  refine ⟨follows_pure ⟨?_, rfl⟩, fun b => follows_pure rfl⟩
  cases fixed
  · exact slots_constant hex
  · exact ⟨⟨fun _ => ⟨rfl, rfl⟩, nofun⟩, fun _ => rfl, rfl⟩

theorem Values.mono (h : w.Values c v v') (hc : c = true → d = true) : w.Values d v v' :=
  ⟨h.slot.mono hc, h.code⟩

mutual

theorem repeats_lowering (w : Widening) : (e : Expr) → e.hidesAddresses = true →
    w.Repeats e.isLiteral e.lowering
  | .constant hex fixed _, _ => repeats_ofConstant hex fixed
  | .lookup name path _, h => repeats_ofValue (follows_lowerLookup name (followsStep_pathSteps w path h))
  | .call name args _, h => repeats_ofValue (follows_lowerCall name (follows_argValues w args h))
  | .unary op operand _, h => by
    cases op with
    | addressOf => simp [Expr.hidesAddresses] at h
    | deref =>
      simp only [Expr.hidesAddresses, Bool.and_eq_true, Bool.not_eq_true'] at h
      have hoperand := (repeats_lowering w operand h.2).value
      rw [h.1] at hoperand
      exact repeats_ofValue (follows_lowerDeref hoperand)
    | not => exact repeats_ofBranch fun b => (repeats_lowering w operand h).branch b.swap
    | castVoid => exact repeats_ofValue (follows_lowerDiscard (repeats_lowering w operand h).value)
    | neg => exact repeats_ofValue (follows_lowerNegate (repeats_lowering w operand h).value)
    | bitNot => exact repeats_ofValue (follows_lowerComplement (repeats_lowering w operand h).value)
  | .binary op left right _, h => by
    simp only [Expr.hidesAddresses, Bool.and_eq_true] at h
    exact repeats_ofValue (follows_lowerBinary op (repeats_lowering w left h.1).value
      (repeats_lowering w right h.2).value)
  | .compare op left right _, h => by
    simp only [Expr.hidesAddresses, Bool.and_eq_true] at h
    exact repeats_ofBranch (follows_branchCompare op (repeats_lowering w left h.1).value
      (repeats_lowering w right h.2).value)
  | .logical op left right _, h => by
    simp only [Expr.hidesAddresses, Bool.and_eq_true] at h
    exact repeats_ofBranch (follows_branchLogical op (repeats_lowering w left h.1).branch
      (repeats_lowering w right h.2).branch)
  | .assign op target value _, h => by
    simp only [Expr.hidesAddresses, Bool.and_eq_true] at h
    have htarget := (repeats_lowering w target h.1).value
    exact repeats_ofValue (follows_lowerAssign op _ (follows_lowerTarget fun hplace =>
      htarget.mono fun hv => hv.mono (by simp [target.isLiteral_of_namesPlace hplace]))
      (repeats_lowering w value h.2).value)
  | .step up before target _, h => by
    have htarget := (repeats_lowering w target h).value
    exact repeats_ofValue (follows_lowerStep up before (follows_lowerTarget fun hplace =>
      htarget.mono fun hv => hv.mono (by simp [target.isLiteral_of_namesPlace hplace])))

theorem followsStep_pathSteps (w : Widening) : (path : List Access) →
    Expr.pathHidesAddresses path = true → ∀ step ∈ Expr.pathSteps path, w.FollowsStep step
  | [], _ => by simp [Expr.pathSteps]
  | .index index :: rest, h => by
    simp only [Expr.pathHidesAddresses, Bool.and_eq_true] at h
    have hindex := (repeats_lowering w index h.1).value
    refine List.forall_mem_cons.mpr ⟨?_, followsStep_pathSteps w rest h.2⟩
    rintro value ⟨⟩
    exact hindex.mono fun hv => hv.mono fun _ => rfl
  | .member name :: rest, h =>
    List.forall_mem_cons.mpr ⟨nofun, followsStep_pathSteps w rest h⟩
  | .arrow name :: rest, h =>
    List.forall_mem_cons.mpr ⟨nofun, followsStep_pathSteps w rest h⟩

theorem follows_argValues (w : Widening) : (args : List Expr) → Expr.argsHideAddresses args = true →
    ∀ value ∈ Expr.argValues args, Follows w.Twins (w.Values true) value value
  | [], _ => by simp [Expr.argValues]
  | arg :: rest, h => by
    simp only [Expr.argsHideAddresses, Bool.and_eq_true] at h
    have harg := (repeats_lowering w arg h.1).value
    exact List.forall_mem_cons.mpr ⟨harg.mono fun hv => hv.mono fun _ => rfl,
      follows_argValues w rest h.2⟩

end

end Widening

end Flatword
