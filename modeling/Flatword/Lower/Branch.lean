import Flatword.Lower.Operand

/-!
# Conditions as jumps

A condition is lowered straight into jumps, so that comparisons and short-circuit operators never
compute a truth value. Where one is needed after all, `materialize` gives it as 1 or 0.
-/

namespace Flatword.Lower

/-- Where a condition goes. As it stands, it falls through when it holds and jumps to `onFalse`
otherwise; reversed, it jumps to `onTrue` when it holds and falls through otherwise. Code inside the
condition may jump to either. -/
structure Branch where
  onFalse : String
  onTrue : String
  reversed : Bool := false
  deriving DecidableEq, Repr

namespace Branch

/-- The branch of the opposite condition. -/
def swap (b : Branch) : Branch where
  onFalse := b.onTrue
  onTrue := b.onFalse
  reversed := !b.reversed

/-- The label that is jumped to. -/
def target (b : Branch) : String :=
  if b.reversed then b.onTrue else b.onFalse

end Branch

/-- Jump if what is known to be zero or not goes the way of the branch. -/
def branchKnown (holds : Bool) (b : Branch) : Code :=
  if holds = b.reversed then [.jump b.target] else []

/-- Test whether a value is not zero. -/
def branchValue (value : Lower Lowered) (b : Branch) : Lower Code := do
  let value ← value
  let flat ← flatten value.slot
  flat.release
  releaseOperand value.slot
  let test : Instr :=
    if b.reversed then .ifNonzero flat.slot.asmName b.target
    else .ifZero flat.slot.asmName b.target
  return value.code ++ flat.code ++ [test]

/-- Compare two values. Equality with zero needs no second operand. -/
def branchCompare (op : Comparison) (left right : Lower Lowered) (b : Branch) : Lower Code := do
  let left ← left
  let right ← right
  let flatLeft ← flatten left.slot
  let name := flatLeft.slot.asmName
  if (op = .eq ∨ op = .ne) ∧ right.slot.isValue 0 then
    flatLeft.release
    releaseOperand left.slot
    releaseOperand right.slot
    let test : Instr :=
      if (op = .eq) = b.reversed then .ifZero name b.target else .ifNonzero name b.target
    return left.code ++ right.code ++ flatLeft.code ++ [test]
  let flatRight ← flatten right.slot
  flatRight.release
  flatLeft.release
  releaseOperand left.slot
  releaseOperand right.slot
  let test := Instr.ifCompare (if b.reversed then op else op.negate) name flatRight.slot.asmName
    b.target
  return left.code ++ right.code ++ flatLeft.code ++ flatRight.code ++ [test]

/-- Decide the left condition first, and the right one only where the left leaves it open. -/
def branchLogical (op : LogicalOp) (left right : Branch → Lower Code) (b : Branch) :
    Lower Code := do
  let id ← newJump
  match op, b.reversed with
  | .and, false =>
    let next := s!"__AND_{id}_next"
    let first ← left { b with onTrue := next }
    let second ← right b
    return first ++ [.label next] ++ second ++ [.jump b.onTrue]
  | .or, false =>
    let next := s!"__OR_{id}_next"
    let first ← left { b with onFalse := next, reversed := true }
    let second ← right b
    return first ++ [.label next] ++ second ++ [.jump b.onTrue]
  | .and, true =>
    let next := s!"__AND_{id}_next"
    let first ← left { b with onFalse := next, reversed := false }
    let second ← right b
    return first ++ second ++ [.label next]
  | .or, true =>
    let first ← left b
    let second ← right b
    return first ++ second

/-- The truth value of a condition, 1 or 0, in a scratch place. -/
def materialize (condition : Branch → Lower Code) : Lower Lowered := do
  let id ← newJump
  let onTrue := s!"__CMP_{id}_true"
  let onFalse := s!"__CMP_{id}_false"
  let done := s!"__CMP_{id}_end"
  let code ← condition { onFalse, onTrue }
  let scratch ← allocate
  let one ← assign scratch (.ofWord 1)
  return ⟨scratch, code ++ [.label onTrue] ++ one ++
    [.jump done, .label onFalse, .clear scratch.asmName, .label done]⟩

end Flatword.Lower
