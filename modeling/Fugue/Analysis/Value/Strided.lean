import Fugue.Bv.Api
import Fugue.Bv.Compare

/-!
# Strided intervals

`StridedInterval` (`fugue-core/src/analysis/value/strided.rs`): the values from a lower to an upper
bound in steps of a stride. The operations panic (none) as the bit vectors they compute with do.
-/

namespace Fugue.Analysis.Value

open Fugue.Bv

/-- `Ord::min`. -/
def least (a b : BitVec) : Option BitVec := do return if (← a.cmp b) = .gt then b else a

/-- `Ord::max`. -/
def greatest (a b : BitVec) : Option BitVec := do return if (← a.cmp b) = .gt then a else b

/-- `StridedInterval` with its `StridedIntervalRepr` (`strided.rs:6-17`). -/
inductive StridedInterval where
  | empty (width : Nat)
  | interval (lo hi stride : BitVec)
  deriving DecidableEq, Repr

namespace StridedInterval

/-- `full` (`strided.rs:24-30`). -/
def full (width : Nat) : Option StridedInterval := do
  return .interval (← Bv.BitVec.zero width) (← BitVec.maxValueWith width false) (← BitVec.one width)

/-- `single` (`strided.rs:32-39`). -/
def single (value : BitVec) : Option StridedInterval := do
  return .interval value value (← Bv.BitVec.zero value.bits)

/-- The last part of `range`: the upper bound is rounded down to the stride. -/
def rounded (lo span stride : BitVec) : Option StridedInterval := do
  return .interval lo (← lo.add (← (← span.div stride).mul stride)) stride

/-- `range` (`strided.rs:41-56`). -/
def range (lo hi stride : BitVec) : Option StridedInterval := do
  if (← lo.cmp hi) = .gt then some (.empty lo.bits)
  else if lo.eq hi then single lo
  else do
    let span ← hi.sub lo
    rounded lo span (← if stride.isZero then BitVec.one lo.bits else least stride span)

/-- `masked` (`strided.rs:58-64`). -/
def masked (mask : BitVec) : Option StridedInterval :=
  if mask.isZero then single mask
  else do range (← Bv.BitVec.zero mask.bits) mask (← mask.and mask.neg)

/-- `is_empty` (`strided.rs:66-68`). -/
def isEmpty : StridedInterval → Bool
  | .empty _ => true
  | .interval .. => false

variable (i : StridedInterval)

/-- `contains` (`strided.rs:108-121`). -/
def contains (value : BitVec) : Option Bool :=
  match i with
  | .empty _ => some false
  | .interval lo hi stride => do
    if (← value.cmp lo) = .lt then some false
    else if (← value.cmp hi) = .gt then some false
    else if stride.isZero then some (value.eq lo)
    else do return (← (← value.sub lo).rem stride).isZero

/-- `width` (`strided.rs:123-128`). -/
def width : StridedInterval → Nat
  | .empty width => width
  | .interval lo _ _ => lo.bits

variable (i other : StridedInterval)

/-- `meet` (`strided.rs:140-163`). -/
def meet : Option StridedInterval :=
  match i, other with
  | .interval l1 h1 s1, .interval l2 h2 s2 => do
    let lo ← greatest l1 l2
    let hi ← least h1 h2
    if (← lo.cmp hi) = .gt then some (.empty i.width) else do range lo hi (← s1.gcd s2)
  | _, _ => some (.empty i.width)

/-- The offset that `join` takes between two lower bounds. -/
def distance (l1 l2 : BitVec) : Option BitVec := do
  if (← l1.cmp l2) = .lt then l2.sub l1 else l1.sub l2

/-- `join` (`strided.rs:165-188`). -/
def join : Option StridedInterval :=
  match i, other with
  | .interval l1 h1 s1, .interval l2 h2 s2 => do
    let lo ← least l1 l2
    let hi ← greatest h1 h2
    range lo hi (← (← s1.gcd s2).gcd (← distance l1 l2))
  | _, _ => some (if i.isEmpty then other else i)

/-- The lower bound of `widen`. -/
def widenedLower (l1 l2 : BitVec) : Option BitVec := do
  if (← l2.cmp l1) = .lt then Bv.BitVec.zero l1.bits else some l1

/-- The upper bound of `widen`; the bounds of an interval have one width. -/
def widenedUpper (h1 h2 : BitVec) : Option BitVec := do
  if (← h2.cmp h1) = .gt then BitVec.maxValueWith h1.bits false else some h1

/-- `widen` (`strided.rs:190-223`). -/
def widen : Option StridedInterval :=
  match i, other with
  | .interval l1 h1 s1, .interval l2 h2 s2 => do
    let lo ← widenedLower l1 l2
    let hi ← widenedUpper h1 h2
    range lo hi (← (← (← s1.gcd s2).gcd (← l1.sub lo)).gcd (← l2.sub lo))
  | _, _ => some (if i.isEmpty then other else i)

/-- `zero_extend` (`strided.rs:235-244`). -/
def zeroExtend (width : Nat) : Option StridedInterval :=
  match i with
  | .empty _ => some (.empty width)
  | .interval lo hi stride => do
    range (← lo.unsignedCast width) (← hi.unsignedCast width) (← stride.unsignedCast width)

/-- `sign_extend` (`strided.rs:246-259`). -/
def signExtend (width : Nat) : Option StridedInterval :=
  match i with
  | .empty _ => some (.empty width)
  | .interval lo hi stride => do
    let sign ← BitVec.minValueWith lo.bits true
    if decide ((← lo.cmp sign) = .lt) != decide ((← hi.cmp sign) = .lt) then full width
    else do
      range (← lo.signedCast width).unsigned (← hi.signedCast width).unsigned
        (← stride.unsignedCast width)

/-- `truncate` (`strided.rs:261-277`). -/
def truncate (width : Nat) : Option StridedInterval :=
  match i with
  | .empty _ => some (.empty width)
  | .interval lo hi stride =>
    if lo.bits ≤ width then i.zeroExtend width
    else do
      let limit ← (← BitVec.maxValueWith width false).unsignedCast lo.bits
      if (← hi.cmp limit) = .gt then full width
      else do range (← lo.cast width) (← hi.cast width) (← stride.cast width)

/-- `cast_to` (`strided.rs:225-233`). -/
def castTo (width : Nat) : Option StridedInterval :=
  if i.width = width then some i
  else if i.width < width then i.zeroExtend width
  else i.truncate width

/-- `scale` (`strided.rs:279-291`). -/
def scale (factor : BitVec) : Option StridedInterval :=
  match i with
  | .empty width => some (.empty width)
  | .interval lo hi stride =>
    if factor.isZero then do single (← Bv.BitVec.zero lo.bits)
    else do
      let headroom ← (← BitVec.maxValueWith lo.bits false).div factor
      if (← hi.cmp headroom) = .gt then full lo.bits
      else do range (← lo.mul factor) (← hi.mul factor) (← stride.mul factor)

/-- `to_value` (`strided.rs:293-300`). -/
def toValue : StridedInterval → Option BitVec
  | .empty _ => none
  | .interval lo _ stride => if stride.isZero then some lo else none

/-- `Add` (`strided.rs:303-328`). -/
def add : Option StridedInterval :=
  match i, other with
  | .interval l1 h1 s1, .interval l2 h2 s2 => do
    let headroom ← (← BitVec.maxValueWith l1.bits false).sub h2
    if (← h1.cmp headroom) = .gt then full l1.bits
    else do range (← l1.add l2) (← h1.add h2) (← s1.gcd s2)
  | _, _ => some (.empty i.width)

/-- `Sub` (`strided.rs:330-354`). -/
def sub : Option StridedInterval :=
  match i, other with
  | .interval l1 h1 s1, .interval l2 h2 s2 => do
    if (← l1.cmp h2) = .lt then full l1.bits
    else do range (← l1.sub h2) (← h1.sub l2) (← s1.gcd s2)
  | _, _ => some (.empty i.width)

/-- `Mul` (`strided.rs:356-366`). -/
def mul : Option StridedInterval :=
  match i.toValue, other.toValue with
  | some factor, _ => other.scale factor
  | none, some factor => i.scale factor
  | none, none => full i.width

/-- `Shl` (`strided.rs:368-380`). -/
def shl (i amount : StridedInterval) : Option StridedInterval :=
  match amount.toValue.bind BitVec.toU64 with
  | some shift =>
    if shift < i.width then do
      i.scale (← (← BitVec.one i.width).shl (← BitVec.fromU64 shift i.width))
    else full i.width
  | none => full i.width

/-- `Shr` (`strided.rs:382-398`). -/
def shr (i amount : StridedInterval) : Option StridedInterval :=
  match amount.toValue.bind BitVec.toU64 with
  | none => full i.width
  | some shift =>
    if i.width ≤ shift then do single (← Bv.BitVec.zero i.width)
    else
      match i with
      | .empty width => some (.empty width)
      | .interval lo hi _ => do
        let places ← BitVec.fromU64 shift i.width
        range (← lo.shr places) (← hi.shr places) (← BitVec.one i.width)

/-- `BitAnd` (`strided.rs:400-410`). -/
def and : Option StridedInterval :=
  match i.toValue, other.toValue with
  | some a, some b => do single (← a.and b)
  | some mask, none => masked mask
  | none, some mask => masked mask
  | none, none => full i.width

/-- `BitOr` (`strided.rs:412-421`). -/
def or : Option StridedInterval :=
  match i.toValue, other.toValue with
  | some a, some b => do single (← a.or b)
  | _, _ => full i.width

end StridedInterval

end Fugue.Analysis.Value
