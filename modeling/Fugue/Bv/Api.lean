import Fugue.Bv.Spec

/-!
# Bit vectors that the public interface can build

`Reachable` closes the public constructors of `BitVec` under its public operations. All of these
vectors satisfy the representation invariant, so the statements of `Fugue.Bv.Spec` hold of them,
whichever of the two forms they are stored in: `Computes` collects what the operators return on a
pair of them, and `Widens` that the wide form computes the same residues as the narrow one.
-/

namespace Fugue.Bv.BitVec

open Fugue.Lib Option

/-- `from_bytes_with` (`lib.rs:245-253`). -/
def fromBytesWith (bytes : List UInt8) (bits : Nat) (big signed : Bool) : Option BitVec :=
  (if big then fromBeBytesWith bytes bits else fromLeBytesWith bytes bits).map fun value =>
    if signed then value.signed else value

/-- `Deserialize` (`lib.rs:998-1018`) of the variant `Small`. -/
def deserializeSmall (value metadata : Nat) : Option BitVec :=
  if 1 ≤ metadata >>> 1 ∧ metadata >>> 1 ≤ 64 then some (fromSmall value metadata) else none

/-- `Deserialize` of the variant `Large`. -/
def deserializeLarge (value metadata : Nat) : Option BitVec :=
  if 65 ≤ metadata >>> 1 ∧ metadata >>> 1 ≤ maxBits then some (fromLarge value metadata) else none

/-- `incr` (`lib.rs:419-421`). -/
def incr (b : BitVec) (value : Nat) : Option BitVec := do b.add (← fromU64 value b.bits)

/-- `decr` (`lib.rs:427-429`). -/
def decr (b : BitVec) (value : Nat) : Option BitVec := do b.sub (← fromU64 value b.bits)

/-- `abs` (`lib.rs:435-441`). -/
def abs (b : BitVec) : BitVec := if b.isNegative then b.neg else b

/-- `small_signed` (`lib.rs:463-466`): the residue moved to the top of an `i64` and back. -/
def smallSigned (b : BitVec) : Int :=
  signedValue 64 (b.small <<< (64 - b.bits) % 2 ^ 64) / 2 ^ (64 - b.bits)

/-- `large_signed` (`lib.rs:468-475`). -/
def largeSigned (b : BitVec) : Int := if b.msb then (b.large : Int) - 2 ^ b.bits else b.large

/-- `small_magnitude` (`lib.rs:477-483`). -/
def smallMagnitude (b : BitVec) : Nat :=
  if b.msb then ((b.small ^^^ maskU64 b.bits) + 1) % 2 ^ 64 else b.small

/-- `large_magnitude` (`lib.rs:485-491`). -/
def largeMagnitude (b : BitVec) : Nat := if b.msb then 2 ^ b.bits - b.large else b.large

/-- `lcm` (`lib.rs:493-506`); on `u64` a result that does not fit is a panic. -/
def lcm (a b : BitVec) : Option BitVec := do
  expectSameBits a b
  if a.isSmall then
    let multiple := Nat.lcm a.smallMagnitude b.smallMagnitude
    if multiple < 2 ^ 64 then return fromSmall multiple a.metadata else none
  else return fromLarge (Nat.lcm a.largeMagnitude b.largeMagnitude) a.metadata

/-- `gcd` (`lib.rs:508-530`). -/
def gcd (a b : BitVec) : Option BitVec := do
  expectSameBits a b
  return if a.isZero then b
    else if b.isZero then a
    else if a.isSmall then fromSmall (Nat.gcd a.smallMagnitude b.smallMagnitude) a.metadata
    else fromLarge (Nat.gcd a.largeMagnitude b.largeMagnitude) a.metadata

/-- `gcd_ext` (`lib.rs:532-563`), with the coefficients that `extendedGcd` chooses. -/
def gcdExt (extendedGcd : Int → Int → Nat × Int × Int) (a b : BitVec) :
    Option (BitVec × BitVec × BitVec) := do
  expectSameBits a b
  if a.isZero then return (b, ← zero a.bits, ← one a.bits)
  else if b.isZero then return (a, ← one a.bits, ← zero a.bits)
  else if a.isSmall then
    let (gcd, x, y) := extendedGcd a.smallSigned b.smallSigned
    return (fromSmall gcd a.metadata, fromSmall (wrapU64 x) a.metadata,
      fromSmall (wrapU64 y) a.metadata)
  else
    let (gcd, x, y) := extendedGcd a.largeSigned b.largeSigned
    return (fromLarge gcd a.metadata, fromLarge (residue a.bits x) a.metadata,
      fromLarge (residue a.bits y) a.metadata)

/-- `rem_euclid` (`lib.rs:602-612`). -/
def remEuclid (a b : BitVec) : Option BitVec := do
  expectSameBits a b
  let r ← a.rem b
  if r.msb then r.add (if b.msb then b.neg else b) else return r

/-- The public functions that make a bit vector from other data. `from_str` and `from_str_radix`
end in `from_bigint`. -/
inductive Constructor where
  | fromBigint (value : Int) (bits : Nat)
  | fromPrim (value : Int) (bits : Nat)
  | maxValueWith (bits : Nat) (signed : Bool)
  | minValueWith (bits : Nat) (signed : Bool)
  | fromBytesWith (bytes : List UInt8) (bits : Nat) (big signed : Bool)
  | deserializeSmall (value metadata : Nat)
  | deserializeLarge (value metadata : Nat)

def Constructor.apply : Constructor → Option BitVec
  | .fromBigint value bits => BitVec.fromBigint value bits
  | .fromPrim value bits => BitVec.fromPrim value bits
  | .maxValueWith bits signed => BitVec.maxValueWith bits signed
  | .minValueWith bits signed => BitVec.minValueWith bits signed
  | .fromBytesWith bytes bits big signed => BitVec.fromBytesWith bytes bits big signed
  | .deserializeSmall value metadata => BitVec.deserializeSmall value metadata
  | .deserializeLarge value metadata => BitVec.deserializeLarge value metadata

/-- The public operations on one bit vector; `succ`, `pred`, `max_value`, `min_value` and the
`_assign` forms are among these with fixed arguments. -/
inductive UnaryOp where
  | neg | not | abs | signed | unsigned
  | incr (value : Nat) | decr (value : Nat)
  | setBit (index : Nat) | shlBy (rhs : Nat) | shrBy (rhs : Nat)
  | cast (bits : Nat) | signedCast (bits : Nat) | unsignedCast (bits : Nat)

def UnaryOp.apply (b : BitVec) : UnaryOp → Option BitVec
  | .neg => some b.neg
  | .not => some b.not
  | .abs => some b.abs
  | .signed => some b.signed
  | .unsigned => some b.unsigned
  | .incr value => b.incr value
  | .decr value => b.decr value
  | .setBit index => some (b.setBit index)
  | .shlBy rhs => some (b.shlBy rhs)
  | .shrBy rhs => some (b.shrBy rhs)
  | .cast bits => b.cast bits
  | .signedCast bits => b.signedCast bits
  | .unsignedCast bits => b.unsignedCast bits

/-- The public operations on two bit vectors. -/
inductive BinaryOp where
  | add | sub | mul | div | rem | and | or | xor | shl | shr
  | signedShr | signedDiv | signedRem | lcm | gcd | remEuclid

def BinaryOp.apply (a b : BitVec) : BinaryOp → Option BitVec
  | .add => a.add b
  | .sub => a.sub b
  | .mul => a.mul b
  | .div => a.div b
  | .rem => a.rem b
  | .and => a.and b
  | .or => a.or b
  | .xor => a.xor b
  | .shl => a.shl b
  | .shr => a.shr b
  | .signedShr => a.signedShr b
  | .signedDiv => a.signedDiv b
  | .signedRem => a.signedRem b
  | .lcm => a.lcm b
  | .gcd => a.gcd b
  | .remEuclid => a.remEuclid b

/-- The bit vectors that calls of the public interface can build, for whichever coefficients the
extended Euclidean algorithm of the big number library chooses. -/
inductive Reachable (extendedGcd : Int → Int → Nat × Int × Int) : BitVec → Prop where
  | construct {b : BitVec} (source : Constructor) :
      source.apply = some b → Reachable extendedGcd b
  | unary {a b : BitVec} (op : UnaryOp) :
      Reachable extendedGcd a → op.apply a = some b → Reachable extendedGcd b
  | binary {a b c : BitVec} (op : BinaryOp) : Reachable extendedGcd a → Reachable extendedGcd b →
      op.apply a b = some c → Reachable extendedGcd c
  | gcdExt {a b gcd x y : BitVec} : Reachable extendedGcd a → Reachable extendedGcd b →
      a.gcdExt extendedGcd b = some (gcd, x, y) → ∀ c ∈ [gcd, x, y], Reachable extendedGcd c

section Closure

variable {a b c : BitVec}

theorem bits_eq_of_expect {α : Type} {f : Unit → Option α} {c : α}
    (run : (expectSameBits a b).bind f = some c) : a.bits = b.bits ∧ f () = some c := by
  by_cases same : a.bits = b.bits
  · rw [expectSameBits_of_eq same] at run
    exact ⟨same, run⟩
  · simp [expectSameBits, same] at run

theorem fromSmall_valid (h : a.Valid) (le : a.bits ≤ 64) (value : Nat) :
    (fromSmall value a.metadata).Valid := (setSmall_stores h le rfl).valid

theorem fromLarge_valid (h : a.Valid) (gt : ¬ a.bits ≤ 64) (value : Nat) :
    (fromLarge value a.metadata).Valid := (maskLarge_stores h gt rfl).valid

theorem setSmall_valid (h : a.Valid) (small : a.isSmall = true) (value : Nat) :
    (a.setSmall value).Valid := fromSmall_valid h (isSmall_iff.mp small) value

theorem packMeta_bind {sign : Bool} {bits : Nat} {f : Nat → Option BitVec}
    (run : (packMeta sign bits).bind f = some b) :
    1 ≤ bits ∧ bits ≤ maxBits ∧ f (2 * bits + sign.toNat) = some b := by
  obtain ⟨metadata, packed, run⟩ := bind_eq_some_iff.mp run
  obtain ⟨⟨pos, le⟩, rfl⟩ := packMeta_eq_some.mp packed
  exact ⟨pos, le, run⟩

theorem construct_valid {sign : Bool} {bits value large : Nat}
    (run : (packMeta sign bits).bind (fun metadata =>
      some (if bits ≤ 64 then fromSmall value metadata else fromLarge large metadata)) = some b) :
    b.Valid := by
  obtain ⟨pos, le, run⟩ := packMeta_bind run
  cases run
  split
  · exact (fromSmall_stores pos le ‹_› rfl).valid
  · exact (fromLarge_stores pos le ‹_› rfl).valid

theorem fromLeBytesWith_valid {buffer : List UInt8} {bits : Nat}
    (run : fromLeBytesWith buffer bits = some b) : b.Valid := by
  by_cases length : buffer.length = (bits + 7) / 8
  · simp only [fromLeBytesWith, length, ne_eq, not_true_eq_false, if_false] at run
    exact construct_valid run
  · simp [fromLeBytesWith, length] at run

theorem exists_packed (metadata : Nat) :
    ∃ bits, ∃ sign : Bool, metadata = 2 * bits + sign.toNat :=
  ⟨_, _, metadata_eq (fromSmall 0 metadata)⟩

theorem Constructor.valid {source : Constructor} (run : source.apply = some b) : b.Valid := by
  cases source with
  | fromBigint value bits => exact construct_valid run
  | fromPrim value bits => exact construct_valid run
  | maxValueWith bits signed => exact construct_valid run
  | minValueWith bits signed =>
    cases signed <;> exact construct_valid run
  | fromBytesWith bytes bits big signed =>
    obtain ⟨value, read, rfl⟩ := map_eq_some_iff.mp run
    have valid : value.Valid := by
      cases big <;> exact fromLeBytesWith_valid read
    split
    · exact (signed_stores valid).valid
    · exact valid
  | deserializeSmall value metadata =>
    obtain ⟨bits, sign, rfl⟩ := exists_packed metadata
    simp only [Constructor.apply, BitVec.deserializeSmall, packed_bits] at run
    split at run
    · rename_i range
      cases run
      exact (fromSmall_stores range.1 (le_trans range.2 (by decide)) range.2 rfl).valid
    · cases run
  | deserializeLarge value metadata =>
    obtain ⟨bits, sign, rfl⟩ := exists_packed metadata
    simp only [Constructor.apply, BitVec.deserializeLarge, packed_bits] at run
    split at run
    · rename_i range
      cases run
      exact (fromLarge_stores (by omega) range.2 (by omega) rfl).valid
    · cases run

section

variable (ha : a.Valid)
include ha

theorem udiv_valid (run : a.udiv b = some c) : c.Valid := by
  unfold udiv at run
  split at run
  · split at run
    · cases run
    · cases run
      exact setSmall_valid ha ‹_› _
  · have gt := mt isSmall_iff.mpr ‹_›
    split at run
    · cases run
    · cases run
      refine (setLarge_stores ha gt rfl ?_).valid
      rw [ha.large_eq gt]
      exact lt_of_le_of_lt (Nat.div_le_self _ _) ha.toNat_lt

theorem urem_valid (run : a.urem b = some c) : c.Valid := by
  unfold urem at run
  split at run
  · split at run
    · cases run
    · cases run
      exact setSmall_valid ha ‹_› _
  · have gt := mt isSmall_iff.mpr ‹_›
    split at run
    · cases run
    · cases run
      refine (setLarge_stores ha gt rfl ?_).valid
      rw [ha.large_eq gt]
      exact lt_of_le_of_lt (Nat.mod_le _ _) ha.toNat_lt

theorem magnitude_valid (negative : Bool) : (magnitude negative a).Valid := by
  cases negative
  · exact ha
  · exact (neg_stores ha).valid

theorem divWith_valid {lneg rneg : Bool} (run : a.divWith lneg rneg b = some c) :
    c.Valid := by
  rw [divWith_eq] at run
  obtain ⟨q, quotient, rfl⟩ := map_eq_some_iff.mp run
  exact magnitude_valid (udiv_valid (magnitude_valid ha _) quotient) _

theorem remWith_valid {lneg rneg : Bool} (run : a.remWith lneg rneg b = some c) :
    c.Valid := by
  rw [remWith_eq] at run
  obtain ⟨r, remainder, rfl⟩ := map_eq_some_iff.mp run
  exact magnitude_valid (urem_valid (magnitude_valid ha _) remainder) _

omit ha in
theorem valid_of_spec {call : Option BitVec} {metadata residue : Nat}
    (spec : ∃ c, call = some c ∧ c.Stores metadata residue) (run : call = some c) : c.Valid := by
  obtain ⟨c', run', stores⟩ := spec
  exact Option.some.inj (run'.symm.trans run) ▸ stores.valid

theorem add_valid (hb : b.Valid) (run : a.add b = some c) : c.Valid :=
  valid_of_spec (add_spec ha hb (bits_eq_of_expect run).1) run

theorem sub_valid (hb : b.Valid) (run : a.sub b = some c) : c.Valid :=
  valid_of_spec (sub_spec ha hb (bits_eq_of_expect run).1) run

omit ha in
theorem fromU64_valid {value bits : Nat} (run : fromU64 value bits = some b) : b.Valid :=
  construct_valid run

theorem cast_valid {width : Nat} (run : a.cast width = some c) : c.Valid := by
  obtain ⟨pos, le, -⟩ := packMeta_bind run
  exact valid_of_spec (cast_spec ha pos le) run

theorem setBit_valid (index : Nat) : (a.setBit index).Valid := by
  unfold setBit
  split
  · exact ha
  · split
    · exact setSmall_valid ha ‹_› _
    · have gt := mt isSmall_iff.mpr ‹_›
      refine (setLarge_stores ha gt rfl ?_).valid
      rw [ha.large_eq gt]
      exact Nat.or_lt_two_pow ha.toNat_lt (Nat.pow_lt_pow_right (by decide) (by omega))

theorem UnaryOp.valid {op : UnaryOp} (run : op.apply a = some c) : c.Valid := by
  cases op with
  | neg => cases run; exact (neg_stores ha).valid
  | not => cases run; exact (not_stores ha).valid
  | abs =>
    cases run
    unfold BitVec.abs
    split
    · exact (neg_stores ha).valid
    · exact ha
  | signed => cases run; exact (signed_stores ha).valid
  | unsigned => cases run; exact (unsigned_stores ha).valid
  | incr value =>
    obtain ⟨step, found, run⟩ := bind_eq_some_iff.mp run
    exact add_valid ha (fromU64_valid found) run
  | decr value =>
    obtain ⟨step, found, run⟩ := bind_eq_some_iff.mp run
    exact sub_valid ha (fromU64_valid found) run
  | setBit index => cases run; exact setBit_valid ha index
  | shlBy rhs => cases run; exact (shlBy_stores ha _).valid
  | shrBy rhs => cases run; exact (shrWith_stores ha a.isSigned).valid
  | cast bits => exact cast_valid ha run
  | signedCast bits => exact cast_valid (signed_stores ha).valid run
  | unsignedCast bits => exact cast_valid (unsigned_stores ha).valid run

theorem lcm_valid (run : a.lcm b = some c) : c.Valid := by
  obtain ⟨-, run⟩ := bits_eq_of_expect run
  split at run
  · dsimp only at run
    split at run
    · cases run
      exact fromSmall_valid ha (isSmall_iff.mp ‹_›) _
    · cases run
  · cases run
    exact fromLarge_valid ha (mt isSmall_iff.mpr ‹_›) _

theorem gcd_valid (hb : b.Valid) (run : a.gcd b = some c) : c.Valid := by
  obtain ⟨-, run⟩ := bits_eq_of_expect run
  cases run
  split
  · exact hb
  · split
    · exact ha
    · split
      · exact fromSmall_valid ha (isSmall_iff.mp ‹_›) _
      · exact fromLarge_valid ha (mt isSmall_iff.mpr ‹_›) _

theorem remEuclid_valid (hb : b.Valid) (run : a.remEuclid b = some c) :
    c.Valid := by
  obtain ⟨-, run⟩ := bits_eq_of_expect run
  obtain ⟨r, remainder, run⟩ := bind_eq_some_iff.mp run
  have hr : r.Valid := remWith_valid ha (bits_eq_of_expect remainder).2
  split at run
  · refine add_valid hr ?_ run
    split
    · exact (neg_stores hb).valid
    · exact hb
  · cases run
    exact hr

theorem BinaryOp.valid {op : BinaryOp} (hb : b.Valid) (run : op.apply a b = some c) : c.Valid := by
  cases op with
  | add => exact add_valid ha hb run
  | sub => exact sub_valid ha hb run
  | mul => exact valid_of_spec (mul_spec ha hb (bits_eq_of_expect run).1) run
  | div => exact divWith_valid ha (bits_eq_of_expect run).2
  | rem => exact remWith_valid ha (bits_eq_of_expect run).2
  | and => exact valid_of_spec (and_spec ha hb (bits_eq_of_expect run).1) run
  | or => exact valid_of_spec (or_spec ha hb (bits_eq_of_expect run).1) run
  | xor => exact valid_of_spec (xor_spec ha hb (bits_eq_of_expect run).1) run
  | shl => exact valid_of_spec (shl_spec ha hb (bits_eq_of_expect run).1) run
  | shr => exact valid_of_spec (shr_spec ha hb (bits_eq_of_expect run).1) run
  | signedShr => exact valid_of_spec (signedShr_spec ha hb (bits_eq_of_expect run).1) run
  | signedDiv => exact divWith_valid ha (bits_eq_of_expect run).2
  | signedRem => exact remWith_valid ha (bits_eq_of_expect run).2
  | lcm => exact lcm_valid ha run
  | gcd => exact gcd_valid ha hb run
  | remEuclid => exact remEuclid_valid ha hb run

theorem gcdExt_valid {extendedGcd : Int → Int → Nat × Int × Int} {gcd x y : BitVec}
    (hb : b.Valid) (run : a.gcdExt extendedGcd b = some (gcd, x, y)) :
    ∀ c ∈ [gcd, x, y], c.Valid := by
  obtain ⟨-, run⟩ := bits_eq_of_expect run
  suffices gcd.Valid ∧ x.Valid ∧ y.Valid by simpa using this
  split at run
  · obtain ⟨zero, zeroRun, run⟩ := bind_eq_some_iff.mp run
    obtain ⟨one, oneRun, run⟩ := bind_eq_some_iff.mp run
    cases run
    exact ⟨hb, fromU64_valid zeroRun, fromU64_valid oneRun⟩
  · split at run
    · obtain ⟨one, oneRun, run⟩ := bind_eq_some_iff.mp run
      obtain ⟨zero, zeroRun, run⟩ := bind_eq_some_iff.mp run
      cases run
      exact ⟨ha, fromU64_valid oneRun, fromU64_valid zeroRun⟩
    · split at run
      · have le := isSmall_iff.mp ‹_›
        cases run
        exact ⟨fromSmall_valid ha le _, fromSmall_valid ha le _, fromSmall_valid ha le _⟩
      · have gt := mt isSmall_iff.mpr ‹_›
        cases run
        exact ⟨fromLarge_valid ha gt _, fromLarge_valid ha gt _, fromLarge_valid ha gt _⟩

end

theorem Reachable.valid {extendedGcd : Int → Int → Nat × Int × Int}
    (h : Reachable extendedGcd b) : b.Valid := by
  induction h with
  | construct source run => exact Constructor.valid run
  | unary op _ run ih => exact UnaryOp.valid ih run
  | binary op _ _ run ihA ihB => exact BinaryOp.valid ihA ihB run
  | gcdExt _ _ run c mem ihA ihB => exact gcdExt_valid ihA ihB run c mem

end Closure

section Results

variable {a b : BitVec} {n : Nat}

/-- `call` returns a vector of width `n` that stores `residue`. -/
def Returns (call : Option BitVec) (n residue : Nat) : Prop :=
  ∃ c, call = some c ∧ c.bits = n ∧ c.toNat = residue

theorem returns_of_spec {call : Option BitVec} {residue : Nat} (bits : a.bits = n)
    (spec : ∃ c, call = some c ∧ c.Stores a.metadata residue) : Returns call n residue := by
  obtain ⟨c, run, stores⟩ := spec
  exact ⟨c, run, stores.bits_eq.trans bits, stores.toNat_eq⟩

/-- What the operators compute on two vectors of width `n`, in either form. -/
structure Computes (n : Nat) (a b : BitVec) : Prop where
  toNat_lt : a.toNat < 2 ^ n
  form : a.value = if n ≤ 64 then .small a.toNat else .large a.toNat
  add : Returns (a.add b) n ((a.toNat + b.toNat) % 2 ^ n)
  sub : Returns (a.sub b) n (residue n ((a.toNat : Int) - b.toNat))
  mul : Returns (a.mul b) n (a.toNat * b.toNat % 2 ^ n)
  neg : Returns (some a.neg) n (residue n (-a.toNat))
  not : Returns (some a.not) n (residue n (-a.toNat - 1))
  and : Returns (a.and b) n (a.toNat &&& b.toNat)
  or : Returns (a.or b) n (a.toNat ||| b.toNat)
  xor : Returns (a.xor b) n (a.toNat ^^^ b.toNat)
  shl : Returns (a.shl b) n (a.toNat * 2 ^ min b.toNat n % 2 ^ n)
  shr : Returns (a.shr b) n (residue n (a.denote / 2 ^ min b.toNat n))
  signedShr : Returns (a.signedShr b) n (residue n (a.toInt / 2 ^ min b.toNat n))
  shlBy : ∀ rhs, Returns (some (a.shlBy rhs)) n (a.toNat * 2 ^ min rhs n % 2 ^ n)
  shrBy : ∀ rhs, Returns (some (a.shrBy rhs)) n (residue n (a.denote / 2 ^ min rhs n))
  div : b.toNat ≠ 0 → Returns (a.div b) n (residue n (a.denote.tdiv b.denote))
  rem : b.toNat ≠ 0 → Returns (a.rem b) n (residue n (a.denote.tmod b.denote))
  signedDiv : b.toNat ≠ 0 → Returns (a.signedDiv b) n (residue n (a.toInt.tdiv b.toInt))
  signedRem : b.toNat ≠ 0 → Returns (a.signedRem b) n (residue n (a.toInt.tmod b.toInt))

theorem mul_two_pow_min (x k n : Nat) : x * 2 ^ min k n % 2 ^ n = x * 2 ^ k % 2 ^ n := by
  rcases le_total k n with le | le
  · rw [min_eq_left le]
  · rw [min_eq_right le, Nat.mul_mod_left,
      Nat.mod_eq_zero_of_dvd (Dvd.dvd.mul_left (pow_dvd_pow 2 le) x)]

theorem valueWith_bounds (ha : a.Valid) (negative : Bool) :
    -2 ^ a.bits ≤ valueWith negative a ∧ valueWith negative a < 2 ^ a.bits := by
  have lt : (a.toNat : Int) < 2 ^ a.bits := by exact_mod_cast ha.toNat_lt
  cases negative with
  | false =>
    simp only [valueWith, Bool.false_eq_true, if_false]
    constructor <;> linarith
  | true =>
    simp only [valueWith, if_true]
    constructor <;> linarith

theorem Valid.computes (ha : a.Valid) (hb : b.Valid) (aBits : a.bits = n) (bBits : b.bits = n) :
    Computes n a b := by
  have same : a.bits = b.bits := aBits.trans bBits.symm
  have denoted : ∀ k : Nat, a.denote / 2 ^ min k n = a.denote / 2 ^ k := fun k => by
    rw [← valueWith_isNegative ha, ← aBits]
    exact div_two_pow_min (valueWith_bounds ha _).1 (valueWith_bounds ha _).2
  have signed : ∀ k : Nat, a.toInt / 2 ^ min k n = a.toInt / 2 ^ k := fun k => by
    rw [← valueWith_msb ha, ← aBits]
    exact div_two_pow_min (valueWith_bounds ha _).1 (valueWith_bounds ha _).2
  subst aBits
  refine ⟨ha.toNat_lt, ha.form, returns_of_spec rfl (add_spec ha hb same),
    returns_of_spec rfl (sub_spec ha hb same), returns_of_spec rfl (mul_spec ha hb same),
    returns_of_spec rfl ⟨_, rfl, ?_⟩, returns_of_spec rfl ⟨_, rfl, ?_⟩,
    returns_of_spec rfl (and_spec ha hb same), returns_of_spec rfl (or_spec ha hb same),
    returns_of_spec rfl (xor_spec ha hb same), ?_, ?_, ?_, fun rhs => ?_, fun rhs => ?_,
    fun ne => returns_of_spec rfl (div_spec ha hb same ne),
    fun ne => returns_of_spec rfl (rem_spec ha hb same ne),
    fun ne => returns_of_spec rfl (signedDiv_spec ha hb same ne),
    fun ne => returns_of_spec rfl (signedRem_spec ha hb same ne)⟩
  · rw [residue_neg ha.toNat_lt]
    exact neg_stores ha
  · rw [residue_not ha.toNat_lt]
    exact not_stores ha
  · rw [mul_two_pow_min]
    exact returns_of_spec rfl (shl_spec ha hb same)
  · rw [denoted]
    exact returns_of_spec rfl (shr_spec ha hb same)
  · rw [signed]
    exact returns_of_spec rfl (signedShr_spec ha hb same)
  · rw [mul_two_pow_min]
    exact returns_of_spec rfl ⟨_, rfl, shlBy_stores ha _⟩
  · rw [denoted, ← valueWith_isNegative ha]
    exact returns_of_spec rfl ⟨_, rfl, shrWith_stores ha a.isSigned⟩

end Results

section Widening

variable {a b c : BitVec} {n m : Nat}

inductive CastOp where
  | cast | signedCast | unsignedCast

def CastOp.apply (b : BitVec) (bits : Nat) : CastOp → Option BitVec
  | .cast => b.cast bits
  | .signedCast => b.signedCast bits
  | .unsignedCast => b.unsignedCast bits

/-- `d` stores, in width `m`, a number with the residue of `x` in the narrower width `n`. -/
structure Represents (n m : Nat) (d : BitVec) (x : Nat) : Prop where
  valid : d.Valid
  bits_eq : d.bits = m
  residue_eq : d.toNat % 2 ^ n = x

theorem denote_residue (h : b.Valid) (le : n ≤ b.bits) : residue n b.denote = b.toNat % 2 ^ n := by
  rw [residue_denote h, if_neg]
  simp [not_lt.mpr le]

theorem cast_represents (h : b.Valid) (pos : 1 ≤ m) (fits : m ≤ maxBits) (le : n ≤ m)
    (narrow : n ≤ b.bits) :
    ∃ d, b.cast m = some d ∧ Represents n m d (b.toNat % 2 ^ n) := by
  obtain ⟨d, run, stores⟩ := cast_spec h pos fits
  refine ⟨d, run, stores.valid, by rw [stores.bits_eq, packed_bits], ?_⟩
  rw [stores.toNat_eq, residue_residue le, denote_residue h narrow]

/-- A cast to a wider vector, or to a narrower one that keeps the low `n` bits, keeps those
bits. -/
theorem CastOp.represents (op : CastOp) (h : b.Valid) (pos : 1 ≤ m) (fits : m ≤ maxBits)
    (le : n ≤ m) (narrow : n ≤ b.bits) :
    ∃ d, op.apply b m = some d ∧ Represents n m d (b.toNat % 2 ^ n) := by
  cases op with
  | cast => exact cast_represents h pos fits le narrow
  | signedCast =>
    have signed := signed_stores h
    have bits : b.signed.bits = b.bits := by rw [signed.bits_eq]; exact packed_bits true b.bits
    exact cast_represents signed.valid pos fits le (bits ▸ narrow)
  | unsignedCast =>
    have unsigned := unsigned_stores h
    have bits : b.unsigned.bits = b.bits := by
      rw [unsigned.bits_eq]
      exact packed_bits false b.bits
    exact cast_represents unsigned.valid pos fits le (bits ▸ narrow)

/-- The operators whose low bits depend on the low bits of the operands only. -/
inductive LowBitsOp : BinaryOp → (Nat → Nat → Nat → Nat) → Prop
  | add : LowBitsOp .add fun n x y => (x + y) % 2 ^ n
  | sub : LowBitsOp .sub fun n x y => residue n ((x : Int) - y)
  | mul : LowBitsOp .mul fun n x y => x * y % 2 ^ n
  | and : LowBitsOp .and fun _ x y => x &&& y
  | or : LowBitsOp .or fun _ x y => x ||| y
  | xor : LowBitsOp .xor fun _ x y => x ^^^ y

section

variable {op : BinaryOp} {f : Nat → Nat → Nat → Nat} (low : LowBitsOp op f)
include low

theorem LowBitsOp.stores (ha : a.Valid) (hb : b.Valid) (same : a.bits = b.bits) :
    ∃ c, op.apply a b = some c ∧ c.Stores a.metadata (f a.bits a.toNat b.toNat) := by
  cases low with
  | add => exact add_spec ha hb same
  | sub => exact sub_spec ha hb same
  | mul => exact mul_spec ha hb same
  | and => exact and_spec ha hb same
  | or => exact or_spec ha hb same
  | xor => exact xor_spec ha hb same

theorem LowBitsOp.mod (le : n ≤ m) (x y : Nat) : f m x y % 2 ^ n = f n (x % 2 ^ n) (y % 2 ^ n) := by
  cases low with
  | add => rw [Nat.mod_mod_of_dvd _ (pow_dvd_pow 2 le), Nat.add_mod]
  | sub =>
    rw [residue_residue le]
    simp [residue]
  | mul => rw [Nat.mod_mod_of_dvd _ (pow_dvd_pow 2 le), Nat.mul_mod]
  | and => exact Nat.and_mod_two_pow
  | or => exact Nat.or_mod_two_pow
  | xor => exact Nat.xor_mod_two_pow

/-- Casting two vectors to a wider form, computing there and casting back gives what computing on
the narrow ones gives. -/
theorem LowBitsOp.widens
    (ha : a.Valid) (hb : b.Valid) (same : a.bits = b.bits) (le : a.bits ≤ m) (fits : m ≤ maxBits)
    (castA castB castBack : CastOp) :
    ∃ a' b' c' c d, castA.apply a m = some a' ∧ castB.apply b m = some b' ∧
      op.apply a' b' = some c' ∧ castBack.apply c' a.bits = some d ∧ op.apply a b = some c ∧
      d.eq c = true := by
  have pos := le_trans ha.bits_pos le
  obtain ⟨a', runA, repA⟩ := castA.represents ha pos fits le le_rfl
  obtain ⟨b', runB, repB⟩ := castB.represents hb pos fits (same ▸ le) le_rfl
  have same' : a'.bits = b'.bits := repA.bits_eq.trans repB.bits_eq.symm
  obtain ⟨c', runWide, wide⟩ := low.stores repA.valid repB.valid same'
  have wideBits : c'.bits = m := wide.bits_eq.trans repA.bits_eq
  obtain ⟨d, runBack, back⟩ := castBack.represents wide.valid ha.bits_pos ha.bits_le le_rfl
    (wideBits ▸ le)
  obtain ⟨c, runNarrow, narrow⟩ := low.stores ha hb same
  refine ⟨a', b', c', c, d, runA, runB, runWide, runBack, runNarrow, ?_⟩
  rw [eq_iff back.valid narrow.valid]
  have dLt := back.valid.toNat_lt
  rw [back.bits_eq] at dLt
  refine ⟨back.bits_eq.trans narrow.bits_eq.symm, ?_⟩
  have low' := back.residue_eq
  rw [Nat.mod_eq_of_lt dLt, wide.toNat_eq, repA.bits_eq, low.mod le, repA.residue_eq] at low'
  have repB' := repB.residue_eq
  rw [← same] at repB'
  rw [low', repB', narrow.toNat_eq, Nat.mod_eq_of_lt ha.toNat_lt,
    Nat.mod_eq_of_lt (same ▸ hb.toNat_lt)]

end

theorem unary_widens {op : UnaryOp} {f : Nat → Nat → Nat} (ha : a.Valid)
    (stores : ∀ {x : BitVec}, x.Valid →
      ∃ y, op.apply x = some y ∧ y.Stores x.metadata (f x.bits x.toNat))
    (mod : ∀ {n m x : Nat}, n ≤ m → x < 2 ^ m → f m x % 2 ^ n = f n (x % 2 ^ n))
    (le : a.bits ≤ m) (fits : m ≤ maxBits) (castA castBack : CastOp) :
    ∃ a' c' c d, castA.apply a m = some a' ∧ op.apply a' = some c' ∧
      castBack.apply c' a.bits = some d ∧ op.apply a = some c ∧ d.eq c = true := by
  have pos := le_trans ha.bits_pos le
  obtain ⟨a', runA, repA⟩ := castA.represents ha pos fits le le_rfl
  obtain ⟨c', runWide, wide⟩ := stores repA.valid
  have wideBits : c'.bits = m := wide.bits_eq.trans repA.bits_eq
  obtain ⟨d, runBack, back⟩ := castBack.represents wide.valid ha.bits_pos ha.bits_le le_rfl
    (wideBits ▸ le)
  obtain ⟨c, runNarrow, narrow⟩ := stores ha
  refine ⟨a', c', c, d, runA, runWide, runBack, runNarrow, ?_⟩
  rw [eq_iff back.valid narrow.valid]
  refine ⟨back.bits_eq.trans narrow.bits_eq.symm, ?_⟩
  have dLt := back.valid.toNat_lt
  have aLt := repA.valid.toNat_lt
  have low := back.residue_eq
  rw [back.bits_eq] at dLt
  rw [repA.bits_eq] at aLt
  rw [Nat.mod_eq_of_lt dLt, wide.toNat_eq, repA.bits_eq, mod le aLt, repA.residue_eq] at low
  rw [low, narrow.toNat_eq, Nat.mod_eq_of_lt ha.toNat_lt]

theorem neg_widens (ha : a.Valid) (le : a.bits ≤ m) (fits : m ≤ maxBits) (castA castBack : CastOp) :
    ∃ a' c' c d, castA.apply a m = some a' ∧ UnaryOp.neg.apply a' = some c' ∧
      castBack.apply c' a.bits = some d ∧ UnaryOp.neg.apply a = some c ∧ d.eq c = true := by
  refine unary_widens (f := fun n x => residue n (-x)) ha
    (fun {x} hx => ⟨x.neg, rfl, ?_⟩) (fun {n m x} le _ => ?_) le fits castA castBack
  · rw [residue_neg hx.toNat_lt]
    exact neg_stores hx
  · have := residue_neg_sub_mod n x 0
    rw [Int.sub_zero, Int.sub_zero] at this
    rw [residue_residue le, this]

theorem not_widens (ha : a.Valid) (le : a.bits ≤ m) (fits : m ≤ maxBits) (castA castBack : CastOp) :
    ∃ a' c' c d, castA.apply a m = some a' ∧ UnaryOp.not.apply a' = some c' ∧
      castBack.apply c' a.bits = some d ∧ UnaryOp.not.apply a = some c ∧ d.eq c = true := by
  refine unary_widens (f := fun n x => residue n (-x - 1)) ha
    (fun {x} hx => ⟨x.not, rfl, ?_⟩) (fun {n m x} le _ => ?_) le fits castA castBack
  · rw [residue_not hx.toNat_lt]
    exact not_stores hx
  · rw [residue_residue le, residue_neg_sub_mod]

end Widening

/-- Every pair of vectors of one width that the public interface builds is computed with modulo
`2 ^ n`, in the narrow form as in the wide one. -/
theorem arithmetic_modulo_two_pow (extendedGcd : Int → Int → Nat × Int × Int) (n : Nat)
    (a b : BitVec) (ha : Reachable extendedGcd a) (hb : Reachable extendedGcd b)
    (aBits : a.bits = n) (bBits : b.bits = n) :
    Computes n a b ∧
      ∀ m, n ≤ m → m ≤ maxBits → ∀ castA castB castBack : CastOp,
        (∀ op ∈ [BinaryOp.add, .sub, .mul, .and, .or, .xor],
          ∃ a' b' c' c d, castA.apply a m = some a' ∧ castB.apply b m = some b' ∧
            op.apply a' b' = some c' ∧ castBack.apply c' n = some d ∧ op.apply a b = some c ∧
            d.eq c = true) ∧
        ∀ op ∈ [UnaryOp.neg, .not],
          ∃ a' c' c d, castA.apply a m = some a' ∧ op.apply a' = some c' ∧
            castBack.apply c' n = some d ∧ op.apply a = some c ∧ d.eq c = true := by
  have validA := ha.valid
  have validB := hb.valid
  have same : a.bits = b.bits := aBits.trans bBits.symm
  refine ⟨validA.computes validB aBits bBits, fun m le fits castA castB castBack =>
    ⟨fun op mem => ?_, fun op mem => ?_⟩⟩
  · subst aBits
    have low : ∃ f, LowBitsOp op f := by
      simp only [List.mem_cons, List.not_mem_nil, or_false] at mem
      rcases mem with rfl | rfl | rfl | rfl | rfl | rfl
      · exact ⟨_, .add⟩
      · exact ⟨_, .sub⟩
      · exact ⟨_, .mul⟩
      · exact ⟨_, .and⟩
      · exact ⟨_, .or⟩
      · exact ⟨_, .xor⟩
    obtain ⟨f, low⟩ := low
    exact low.widens validA validB same le fits castA castB castBack
  · subst aBits
    simp only [List.mem_cons, List.not_mem_nil, or_false] at mem
    rcases mem with rfl | rfl
    · exact neg_widens validA le fits castA castBack
    · exact not_widens validA le fits castA castBack

/-- The minimum of eight bits, with the sign flag, and minus one. -/
theorem arithmetic_modulo_two_pow_min_value :
    Computes 8 ⟨.small 0x80, 17⟩ ⟨.small 0xff, 17⟩ := by
  have left : Reachable (fun x y => (Int.gcd x y, Int.gcdA x y, Int.gcdB x y))
      ⟨.small 0x80, 17⟩ :=
    .unary .signed (a := ⟨.small 0x80, 16⟩) (.construct (.fromPrim 0x80 8) (by decide)) (by decide)
  have right : Reachable (fun x y => (Int.gcd x y, Int.gcdA x y, Int.gcdB x y))
      ⟨.small 0xff, 17⟩ :=
    .unary .signed (a := ⟨.small 0xff, 16⟩) (.construct (.fromPrim 0xff 8) (by decide)) (by decide)
  exact (arithmetic_modulo_two_pow _ 8 ⟨.small 0x80, 17⟩ ⟨.small 0xff, 17⟩ left right
    (by decide) (by decide)).1

/-- `>>` is arithmetic on a value with the sign flag: the minimum of eight bits shifted by one
gives `0xc0`, where half of its unsigned value is `0x40`. -/
theorem shr_of_signed_is_arithmetic :
    (∀ extendedGcd, Reachable extendedGcd ⟨.small 0x80, 17⟩ ∧
      Reachable extendedGcd ⟨.small 1, 16⟩) ∧
    shr ⟨.small 0x80, 17⟩ ⟨.small 1, 16⟩ = some ⟨.small 0xc0, 17⟩ ∧
    toNat ⟨.small 0xc0, 17⟩ ≠ toNat ⟨.small 0x80, 17⟩ / 2 ^ toNat ⟨.small 1, 16⟩ := by
  refine ⟨fun extendedGcd => ⟨?_, ?_⟩, by decide, by decide⟩
  · exact .unary .signed (a := ⟨.small 0x80, 16⟩)
      (.construct (.fromPrim 0x80 8) (by decide)) (by decide)
  · exact .construct (.fromPrim 1 8) (by decide)

end Fugue.Bv.BitVec
