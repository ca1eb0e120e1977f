import Fugue.Bv.Compare

/-!
# Scalar evaluation

`fugue-core/src/il/common/evaluate.rs`: what an IL operation computes from the bit vectors of its
operands. The outer option of `evaluate` is a panic, the inner one is the `Option` of the source;
`OptionT Option` is their monad.
-/

namespace Fugue.Il

open Fugue.Bv
open OptionT (lift)

/-- `IlScalarOp` (`evaluate.rs:6-42`). -/
inductive IlScalarOp where
  | add | and | arithmeticRightShift | boolAnd | boolNot | boolOr | boolXor | carry | copy
  | countLeadingZeros | countOnes | intEqual | intLess | intLessEqual | intNotEqual
  | intSignedLess | intSignedLessEqual | leftShift | logicalRightShift | mul | negate | not | or
  | signedBorrow | signedCarry | signedDiv | signedRem | signExtend | sub | truncate
  | unsignedDiv | unsignedRem | xor | zeroExtend
  deriving DecidableEq, Repr

namespace IlScalarOp

/-- `operand` (`evaluate.rs:49`). -/
def operand (operands : List BitVec) (index : Nat) : OptionT Option BitVec :=
  OptionT.mk (some operands[index]?)

/-- `cast_operand` (`evaluate.rs:50-57`). -/
def castOperand (width : Nat) (operands : List BitVec) (index : Nat) : OptionT Option BitVec := do
  let value ← operand operands index
  if value.bits = width then return value else lift (value.cast width)

/-- `BitVec::from_u64(value as u64, width)`. -/
def fromFlag (value : Bool) (width : Nat) : OptionT Option BitVec :=
  lift (BitVec.fromU64 value.toNat width)

/-- The comparisons and overflow tests, which want two operands of one width. -/
def compareOperands (test : BitVec → BitVec → Option Bool) (width : Nat) (operands : List BitVec) :
    OptionT Option BitVec := do
  let left ← operand operands 0
  let right ← operand operands 1
  if left.bits ≠ right.bits then failure
  fromFlag (← lift (test left right)) width

/-- The operators on two operands that are cast to the width of the result. -/
def castOperands (compute : BitVec → BitVec → OptionT Option BitVec) (width : Nat)
    (operands : List BitVec) : OptionT Option BitVec := do
  let left ← castOperand width operands 0
  let right ← castOperand width operands 1
  compute left right

/-- The comparison of `IntLess` and `IntLessEqual`, which takes the sign flags away. -/
def unsignedCmp (left right : BitVec) : Option Ordering :=
  if left.isSigned = false ∧ right.isSigned = false then left.cmp right
  else left.unsigned.cmp right.unsigned

/-- `evaluate` (`evaluate.rs:44-202`). -/
def evaluate (op : IlScalarOp) (width : Nat) (operands : List BitVec) : OptionT Option BitVec :=
  match op with
  | .copy | .truncate => do lift ((← operand operands 0).cast width)
  | .not => return (← castOperand width operands 0).not
  | .negate => return (← castOperand width operands 0).neg
  | .add => castOperands (fun left right => lift (left.add right)) width operands
  | .sub => castOperands (fun left right => lift (left.sub right)) width operands
  | .mul => castOperands (fun left right => lift (left.mul right)) width operands
  | .and => castOperands (fun left right => lift (left.and right)) width operands
  | .or => castOperands (fun left right => lift (left.or right)) width operands
  | .xor => castOperands (fun left right => lift (left.xor right)) width operands
  | .leftShift => castOperands (fun value amount => lift (value.shl amount)) width operands
  | .logicalRightShift =>
    castOperands (fun value amount =>
      if value.isSigned = false then lift (value.shr amount)
      else do
        let value ← lift (value.unsignedCast width)
        lift (value.shr amount)) width operands
  | .arithmeticRightShift =>
    castOperands (fun value amount => lift (value.signedShr amount)) width operands
  | .zeroExtend => do lift ((← operand operands 0).unsignedCast width)
  | .signExtend => do lift ((← operand operands 0).signedCast width)
  | .boolAnd => do
    let left ← operand operands 0
    -- `&&` looks at the second operand only if the first one is not zero
    if left.isZero then fromFlag false width
    else fromFlag (!(← operand operands 1).isZero) width
  | .boolOr => do
    let left ← operand operands 0
    if !left.isZero then fromFlag true width
    else fromFlag (!(← operand operands 1).isZero) width
  | .boolXor => do
    let left ← operand operands 0
    let right ← operand operands 1
    fromFlag (left.isZero != right.isZero) width
  | .boolNot => do fromFlag (← operand operands 0).isZero width
  | .countOnes => do lift (BitVec.fromU64 (← operand operands 0).countOnes width)
  | .countLeadingZeros => do
    lift (BitVec.fromU64 (← operand operands 0).leadingZeros width)
  | .unsignedDiv =>
    castOperands (fun left right =>
      if right.isZero then failure
      else if left.isSigned = false ∧ right.isSigned = false then lift (left.div right)
      else do
        let left ← lift (left.unsignedCast width)
        let right ← lift (right.unsignedCast width)
        lift (left.div right)) width operands
  | .signedDiv =>
    castOperands (fun left right =>
      if right.isZero then failure else lift (left.signedDiv right)) width operands
  | .unsignedRem =>
    castOperands (fun left right =>
      if right.isZero then failure
      else if left.isSigned = false ∧ right.isSigned = false then lift (left.rem right)
      else do
        let left ← lift (left.unsignedCast width)
        let right ← lift (right.unsignedCast width)
        lift (left.rem right)) width operands
  | .signedRem =>
    castOperands (fun left right =>
      if right.isZero then failure else lift (left.signedRem right)) width operands
  | .intEqual => compareOperands (fun left right => some (left.eq right)) width operands
  | .intNotEqual => compareOperands (fun left right => some (!left.eq right)) width operands
  | .intLess =>
    compareOperands (fun left right => do return (← unsignedCmp left right) == .lt) width operands
  | .intLessEqual =>
    compareOperands (fun left right => do return (← unsignedCmp left right) != .gt) width operands
  | .intSignedLess =>
    compareOperands (fun left right => do return (← left.signedCmp right) == .lt) width operands
  | .intSignedLessEqual =>
    compareOperands (fun left right => do return (← left.signedCmp right) != .gt) width operands
  | .carry =>
    compareOperands (fun left right =>
      if left.isSigned = false ∧ right.isSigned = false then left.carry right
      else left.unsigned.carry right.unsigned) width operands
  | .signedCarry => compareOperands BitVec.signedCarry width operands
  | .signedBorrow => compareOperands BitVec.signedBorrow width operands

end IlScalarOp

end Fugue.Il
