import Mathlib.Data.Nat.Bitwise
import Mathlib.Data.Nat.GCD.Basic
import Mathlib.Data.Int.GCD

/-!
# Bit vectors

`fugue-bv/src/lib.rs`: a value of up to 64 bits is an inline `u64`, a wider one a boxed big
natural; the width selects the form. The low bit of the metadata word is the sign flag, which
`cast`, `>>`, `/` and `%` look at. Machine words are natural numbers, with the wrap-around of each
`u64` operation written out; `none` is a panic.
-/

namespace Fugue.Bv

/-- `MAX_BITS` (`lib.rs:26`). -/
def maxBits : Nat := 2 ^ 31 - 1

/-- The union `Value` (`lib.rs:33-36`); the width tells which member is in use. -/
inductive Value where
  | small (value : Nat)
  | large (value : Nat)
  deriving DecidableEq, Repr

/-- `BitVec` (`lib.rs:28-31`). -/
structure BitVec where
  value : Value
  metadata : Nat
  deriving DecidableEq, Repr

/-- `Natural::low_mask`. -/
def lowMask (bits : Nat) : Nat := 2 ^ bits - 1

/-- `value as u64` of an integer: its residue. -/
def wrapU64 (value : Int) : Nat := (value % 2 ^ 64).toNat

namespace BitVec

/-- `mask_u64` (`lib.rs:366-368`): `1u64.checked_shl(bits).unwrap_or(0).wrapping_sub(1)`. -/
def maskU64 (bits : Nat) : Nat :=
  ((if bits < 64 then 1 <<< bits else 0) + (2 ^ 64 - 1)) % 2 ^ 64

/-- `pack_meta` (`lib.rs:358-364`); widths outside `1..=MAX_BITS` are refused. -/
def packMeta (sign : Bool) (bits : Nat) : Option Nat :=
  if 1 ≤ bits ∧ bits ≤ maxBits then some (bits <<< 1 ||| sign.toNat) else none

/-- `from_small` (`lib.rs:108-116`). -/
def fromSmall (value metadata : Nat) : BitVec :=
  ⟨.small (value &&& maskU64 (metadata >>> 1)), metadata⟩

/-- `from_large` (`lib.rs:118-126`). -/
def fromLarge (value metadata : Nat) : BitVec :=
  ⟨.large (value % 2 ^ (metadata >>> 1)), metadata⟩

variable (b : BitVec)

/-- `bits` (`lib.rs:259-261`). -/
def bits : Nat := b.metadata >>> 1

/-- `is_signed` (`lib.rs:263-265`). -/
def isSigned : Bool := b.metadata &&& 1 != 0

/-- `is_small` (`lib.rs:281-283`). -/
def isSmall : Bool := b.bits ≤ 64

/-- The inline value; reading it in the other form is a violated assertion. -/
def small : Nat :=
  match b.value with
  | .small value => value
  | .large _ => 0

/-- The boxed value; reading it in the other form is a violated assertion. -/
def large : Nat :=
  match b.value with
  | .small _ => 0
  | .large value => value

/-- `set_small` (`lib.rs:305-308`). -/
def setSmall (value : Nat) : BitVec :=
  ⟨.small (value &&& maskU64 b.bits), b.metadata⟩

/-- `*self.large_mut() = value`. -/
def setLarge (value : Nat) : BitVec := ⟨.large value, b.metadata⟩

/-- `mask_large_assign` (`lib.rs:353-356`). -/
def maskLarge : BitVec := b.setLarge (b.large % 2 ^ b.bits)

/-- `from_bigint` (`lib.rs:140-151`). -/
def fromBigint (value : Int) (bits : Nat) : Option BitVec := do
  let metadata ← packMeta false bits
  let residue := (value % 2 ^ bits).toNat
  return if bits ≤ 64 then fromSmall residue metadata else fromLarge residue metadata

/-- The `from_i8` … `from_usize` (`lib.rs:1280-1287`), one for each primitive integer type. -/
def fromPrim (value : Int) (bits : Nat) : Option BitVec := do
  let metadata ← packMeta false bits
  return if bits ≤ 64 then fromSmall (wrapU64 value) metadata
    else fromLarge (value % 2 ^ bits).toNat metadata

/-- `from_u64`, the member that the crates call. -/
def fromU64 (value bits : Nat) : Option BitVec := fromPrim value bits

/-- `zero` (`lib.rs:153-155`). -/
def zero (bits : Nat) : Option BitVec := fromU64 0 bits

/-- `one` (`lib.rs:157-159`). -/
def one (bits : Nat) : Option BitVec := fromU64 1 bits

/-- `max_value_with` (`lib.rs:161-170`). -/
def maxValueWith (bits : Nat) (signed : Bool) : Option BitVec := do
  let metadata ← packMeta signed bits
  return if bits ≤ 64 then
      fromSmall (if signed then maskU64 bits >>> 1 else maskU64 bits) metadata
    else fromLarge (if signed then lowMask bits >>> 1 else lowMask bits) metadata

/-- `min_value_with` (`lib.rs:172-185`). -/
def minValueWith (bits : Nat) (signed : Bool) : Option BitVec := do
  let metadata ← packMeta signed bits
  return if !signed then
      if bits ≤ 64 then fromSmall 0 metadata else fromLarge 0 metadata
    else if bits ≤ 64 then fromSmall (1 <<< (bits - 1) % 2 ^ 64) metadata
    else fromLarge (2 ^ (bits - 1)) metadata

/-- The natural number whose little-endian base-256 digits are `bytes`. -/
def ofLeBytes (bytes : List UInt8) : Nat :=
  bytes.foldr (fun byte rest => byte.toNat + 256 * rest) 0

/-- `from_le_bytes_with` (`lib.rs:209-221`); the buffer must have exactly the bytes of the
width. -/
def fromLeBytesWith (buffer : List UInt8) (bits : Nat) : Option BitVec := do
  let metadata ← packMeta false bits
  if buffer.length ≠ (bits + 7) / 8 then none
  else return if bits ≤ 64 then fromSmall (ofLeBytes buffer) metadata
    else fromLarge (ofLeBytes buffer) metadata

/-- The first `length` little-endian base-256 digits. -/
def leBytes : Nat → Nat → List UInt8
  | 0, _ => []
  | length + 1, value => UInt8.ofNat value :: leBytes length (value / 256)

/-- `from_be_bytes_with` (`lib.rs:191-203`). -/
def fromBeBytesWith (buffer : List UInt8) (bits : Nat) : Option BitVec :=
  fromLeBytesWith buffer.reverse bits

/-- `bit` (`lib.rs:322-328`). -/
def bit (index : Nat) : Bool :=
  if b.isSmall then decide (index < 64) && ((b.small >>> index) &&& 1 != 0)
  else b.large.testBit index

/-- `set_bit` (`lib.rs:310-320`). -/
def setBit (index : Nat) : BitVec :=
  if b.bits ≤ index then b
  else if b.isSmall then b.setSmall (b.small ||| (1 <<< index) % 2 ^ 64)
  else b.setLarge (b.large ||| 2 ^ index)

/-- `msb` (`lib.rs:407-409`). -/
def msb : Bool := b.bit (b.bits - 1)

/-- `is_negative` (`lib.rs:301-303`). -/
def isNegative : Bool := b.isSigned && b.msb

/-- `is_zero` (`lib.rs:285-291`). -/
def isZero : Bool := if b.isSmall then b.small == 0 else b.large == 0

/-- `signed` (`lib.rs:335-342`). -/
def signed : BitVec := { b with metadata := b.metadata ||| 1 }

/-- `unsigned` (`lib.rs:344-351`): `meta & !1`. -/
def unsigned : BitVec := { b with metadata := b.metadata &&& (2 ^ 32 - 2) }

variable (a b : BitVec)

/-- `expect_same_bits` and `expect_comparable` (`lib.rs:443-461`). -/
def expectSameBits : Option Unit := if a.bits ≠ b.bits then none else some ()

/-- `PartialEq` (`lib.rs:931-942`): the sign flag does not count. -/
def eq : Bool :=
  if a.bits ≠ b.bits then false
  else if a.isSmall then a.small == b.small else a.large == b.large

/-- `neg_assign` (`lib.rs:826-837`). -/
def neg : BitVec :=
  if b.isSmall then b.setSmall (((b.small ^^^ maskU64 b.bits) + 1) % 2 ^ 64)
  else if b.large ≠ 0 then b.setLarge (2 ^ b.bits - b.large)
  else b

/-- `not_assign` (`lib.rs:839-848`). -/
def not : BitVec :=
  if b.isSmall then b.setSmall (b.small ^^^ maskU64 b.bits)
  else b.setLarge (lowMask b.bits - b.large)

/-- The shape of the operators that work on the residues: check the widths, then compute in the
form that the width selects. -/
def residueOp (smallOp : BitVec → BitVec → Nat) (largeOp : BitVec → BitVec → BitVec)
    (a b : BitVec) : Option BitVec := do
  expectSameBits a b
  return if a.isSmall then a.setSmall (smallOp a b) else largeOp a b

/-- `add_assign` (`lib.rs:1111-1121`). -/
def add : BitVec → BitVec → Option BitVec :=
  residueOp (fun a b => (a.small + b.small) % 2 ^ 64)
    (fun a b => (a.setLarge (a.large + b.large)).maskLarge)

/-- `sub_assign` (`lib.rs:1123-1138`). -/
def sub : BitVec → BitVec → Option BitVec :=
  residueOp (fun a b => wrapU64 ((a.small : Int) - b.small))
    (fun a b => if b.large ≤ a.large then a.setLarge (a.large - b.large)
      else a.setLarge (2 ^ a.bits - (b.large - a.large)))

/-- `mul_assign` (`lib.rs:1140-1150`). -/
def mul : BitVec → BitVec → Option BitVec :=
  residueOp (fun a b => (a.small * b.small) % 2 ^ 64)
    (fun a b => (a.setLarge (a.large * b.large)).maskLarge)

/-- `bitand_assign` (`lib.rs:1170-1179`). -/
def and : BitVec → BitVec → Option BitVec :=
  residueOp (fun a b => a.small &&& b.small) (fun a b => a.setLarge (a.large &&& b.large))

/-- `bitor_assign` (`lib.rs:1181-1190`). -/
def or : BitVec → BitVec → Option BitVec :=
  residueOp (fun a b => a.small ||| b.small) (fun a b => a.setLarge (a.large ||| b.large))

/-- `bitxor_assign` (`lib.rs:1192-1201`). -/
def xor : BitVec → BitVec → Option BitVec :=
  residueOp (fun a b => a.small ^^^ b.small) (fun a b => a.setLarge (a.large ^^^ b.large))

/-- `udiv_assign` (`lib.rs:748-754`). -/
def udiv : Option BitVec :=
  if a.isSmall then if b.small = 0 then none else some (a.setSmall (a.small / b.small))
  else if b.large = 0 then none else some (a.setLarge (a.large / b.large))

/-- `urem_assign` (`lib.rs:756-762`). -/
def urem : Option BitVec :=
  if a.isSmall then if b.small = 0 then none else some (a.setSmall (a.small % b.small))
  else if b.large = 0 then none else some (a.setLarge (a.large % b.large))

/-- `div_assign_with` (`lib.rs:764-781`). -/
def divWith (a : BitVec) (lneg rneg : Bool) (b : BitVec) : Option BitVec :=
  match lneg, rneg with
  | false, false => a.udiv b
  | true, false => (a.neg.udiv b).map neg
  | false, true => (a.udiv b.neg).map neg
  | true, true => a.neg.udiv b.neg

/-- `rem_assign_with` (`lib.rs:783-798`). -/
def remWith (a : BitVec) (lneg rneg : Bool) (b : BitVec) : Option BitVec :=
  match lneg, rneg with
  | false, false => a.urem b
  | true, false => (a.neg.urem b).map neg
  | false, true => a.urem b.neg
  | true, true => (a.neg.urem b.neg).map neg

/-- `div_assign` (`lib.rs:1152-1159`). -/
def div : Option BitVec := do
  expectSameBits a b
  a.divWith a.isNegative b.isNegative b

/-- `rem_assign` (`lib.rs:1161-1168`). -/
def rem : Option BitVec := do
  expectSameBits a b
  a.remWith a.isNegative b.isNegative b

/-- `signed_div_assign` (`lib.rs:806-811`). -/
def signedDiv : Option BitVec := do
  expectSameBits a b
  a.divWith a.msb b.msb b

/-- `signed_rem_assign` (`lib.rs:819-824`). -/
def signedRem : Option BitVec := do
  expectSameBits a b
  a.remWith a.msb b.msb b

/-- `shift_amount` (`lib.rs:697-704`): an amount that fits a `u32` and lies below the width. -/
def shiftAmount (width : Nat) : Option Nat :=
  let amount := if b.isSmall then b.small else b.large
  if amount < 2 ^ 32 then if amount < width then some amount else none else none

/-- `shr_assign_with` (`lib.rs:706-734`). -/
def shrWith (arithmetic : Bool) (rhs : Nat) : BitVec :=
  let fill := arithmetic && b.msb
  if b.bits ≤ rhs then
    if b.isSmall then b.setSmall (if fill then 2 ^ 64 - 1 else 0)
    else b.setLarge (if fill then lowMask b.bits else 0)
  else if b.isSmall then
    let mask := maskU64 b.bits
    let value := b.small >>> rhs
    b.setSmall (if fill then value ||| (mask ^^^ mask >>> rhs) else value)
  else
    let shifted := b.large >>> rhs
    b.setLarge (if fill then shifted ||| (lowMask b.bits ^^^ lowMask (b.bits - rhs)) else shifted)

/-- `ShlAssign<u32>` (`lib.rs:1219-1230`). -/
def shlBy (rhs : Nat) : BitVec :=
  if b.isSmall then b.setSmall (if rhs < 64 then b.small <<< rhs % 2 ^ 64 else 0)
  else if b.bits ≤ rhs then b.setLarge 0
  else (b.setLarge (b.large <<< rhs)).maskLarge

/-- `ShrAssign<u32>` (`lib.rs:1251-1255`). -/
def shrBy (rhs : Nat) : BitVec := b.shrWith b.isSigned rhs

/-- `ShlAssign<&BitVec>` (`lib.rs:1203-1209`). -/
def shl : Option BitVec := do
  expectSameBits a b
  return a.shlBy ((b.shiftAmount a.bits).getD a.bits)

/-- `ShrAssign<&BitVec>` (`lib.rs:1211-1217`): arithmetic for a value with the sign flag. -/
def shr : Option BitVec := do
  expectSameBits a b
  return a.shrWith a.isSigned ((b.shiftAmount a.bits).getD a.bits)

/-- `signed_shr_assign` (`lib.rs:742-746`). -/
def signedShr : Option BitVec := do
  expectSameBits a b
  return a.shrWith true ((b.shiftAmount a.bits).getD a.bits)

/-- `to_le_bytes` (`lib.rs:870-879`) into a buffer of `length` bytes, which must be those of the
width. -/
def toLeBytes (length : Nat) : Option (List UInt8) :=
  if length ≠ (b.bits + 7) / 8 then none
  else some (leBytes length (if b.isSmall then b.small else b.large))

/-- `cast` (`lib.rs:640-673`). -/
def cast (bits : Nat) : Option BitVec := do
  let metadata ← packMeta b.isSigned bits
  let extend := b.isSigned && decide (b.bits < bits) && b.msb
  return match b.isSmall, decide (bits ≤ 64) with
    | true, true =>
      fromSmall (if extend then b.small ||| (maskU64 bits ^^^ maskU64 b.bits) else b.small)
        metadata
    | true, false =>
      fromLarge (if extend then b.small ||| (lowMask bits - lowMask b.bits) else b.small) metadata
    | false, true => fromSmall (b.large % 2 ^ bits) metadata
    | false, false =>
      fromLarge (if extend then b.large ||| (lowMask bits - lowMask b.bits) else b.large) metadata

/-- `signed_cast` (`lib.rs:622-624`). -/
def signedCast (bits : Nat) : Option BitVec := b.signed.cast bits

/-- `unsigned_cast` (`lib.rs:626-628`). -/
def unsignedCast (bits : Nat) : Option BitVec := b.unsigned.cast bits

end BitVec

end Fugue.Bv
