import Fugue.Bv.BitVec
import Fugue.Lib.TwosComplement

/-!
# What the bit vector operations compute

`Valid` is the representation invariant: the width lies in `1..=MAX_BITS`, the form is the one
that the width selects, and the stored value is a residue of that width. Each operation is shown
once to keep it and to store the residue that the arithmetic on natural numbers or on two's
complement values gives; callers use these statements and never look at the two forms again.
-/

namespace Fugue.Bv.BitVec

open Fugue.Lib Option
open Nat (pow_le_pow_right two_pow_pos shiftRight_eq_div_pow mod_lt mod_eq_of_lt sub_le)

/-- The stored value, in either form. -/
def toNat (b : BitVec) : Nat :=
  match b.value with
  | .small value => value
  | .large value => value

/-- The two's complement value. -/
def toInt (b : BitVec) : Int := signedValue b.bits b.toNat

/-- The value that an operand of `/`, `%` and `>>` stands for: its sign flag decides. -/
def denote (b : BitVec) : Int := if b.isSigned then b.toInt else b.toNat

structure Valid (b : BitVec) : Prop where
  bits_pos : 1 ≤ b.bits
  bits_le : b.bits ≤ maxBits
  toNat_lt : b.toNat < 2 ^ b.bits
  form : b.value = if b.bits ≤ 64 then .small b.toNat else .large b.toNat

/-- `b` is a valid vector with this metadata and this residue. -/
structure Stores (b : BitVec) (metadata residue : Nat) : Prop where
  valid : b.Valid
  metadata_eq : b.metadata = metadata
  toNat_eq : b.toNat = residue

theorem Stores.bits_eq {b : BitVec} {metadata residue : Nat} (h : b.Stores metadata residue) :
    b.bits = metadata >>> 1 := by rw [bits, h.metadata_eq]

theorem Valid.stores {b : BitVec} (h : b.Valid) : b.Stores b.metadata b.toNat := ⟨h, rfl, rfl⟩

section Metadata

variable {bits : Nat}

theorem maskU64_eq (le : bits ≤ 64) : maskU64 bits = 2 ^ bits - 1 := by
  unfold maskU64
  rcases Nat.lt_or_eq_of_le le with lt | rfl
  · have small : 2 ^ bits ≤ 2 ^ 63 := pow_le_pow_right (by decide) (by omega)
    have pos : 0 < 2 ^ bits := two_pow_pos bits
    rw [if_pos lt, Nat.one_shiftLeft]
    omega
  · decide

theorem and_maskU64 (le : bits ≤ 64) (value : Nat) :
    value &&& maskU64 bits = value % 2 ^ bits := by
  rw [maskU64_eq le, Nat.and_two_pow_sub_one_eq_mod]

theorem mod_mod_u64 (le : bits ≤ 64) (value : Nat) :
    value % 2 ^ 64 % 2 ^ bits = value % 2 ^ bits :=
  Nat.mod_mod_of_dvd value (pow_dvd_pow 2 le)

theorem packMeta_eq_some {sign : Bool} {bits metadata : Nat} :
    packMeta sign bits = some metadata ↔
      (1 ≤ bits ∧ bits ≤ maxBits) ∧ metadata = 2 * bits + sign.toNat := by
  have packed : bits <<< 1 ||| sign.toNat = 2 * bits + sign.toNat := by
    rw [Nat.shiftLeft_eq, mul_comm]
    exact (Nat.two_pow_add_eq_or_of_lt (by cases sign <;> decide) bits).symm
  unfold packMeta
  split
  · simp [*, eq_comm]
  · simp [*]

theorem packMeta_some {sign : Bool} (pos : 1 ≤ bits) (le : bits ≤ maxBits) :
    packMeta sign bits = some (2 * bits + sign.toNat) :=
  packMeta_eq_some.mpr ⟨⟨pos, le⟩, rfl⟩

theorem packed_bits (sign : Bool) (bits : Nat) : (2 * bits + sign.toNat) >>> 1 = bits := by
  rw [shiftRight_eq_div_pow]
  cases sign
  · simp
  · simp; omega

theorem packed_sign (sign : Bool) (bits : Nat) :
    ((2 * bits + sign.toNat) &&& 1 != 0) = sign := by
  cases sign
  · simp
  · simp

theorem metadata_eq (b : BitVec) : b.metadata = 2 * b.bits + b.isSigned.toNat := by
  rw [bits, isSigned, shiftRight_eq_div_pow, Nat.and_one_is_mod]
  rcases Nat.mod_two_eq_zero_or_one b.metadata with even | odd
  · simp [even]; omega
  · simp [odd]; omega

end Metadata

section Forms

variable {b : BitVec}

theorem isSmall_iff : b.isSmall = true ↔ b.bits ≤ 64 := by simp [isSmall]

theorem Valid.small_eq (h : b.Valid) (le : b.bits ≤ 64) : b.small = b.toNat := by
  have form := h.form
  rw [if_pos le] at form
  rw [small, form]

theorem Valid.large_eq (h : b.Valid) (gt : ¬ b.bits ≤ 64) : b.large = b.toNat := by
  have form := h.form
  rw [if_neg gt] at form
  rw [large, form]

theorem setSmall_stores (h : b.Valid) (le : b.bits ≤ 64) {value residue : Nat}
    (eq : value % 2 ^ b.bits = residue) : (b.setSmall value).Stores b.metadata residue := by
  subst eq
  have residue : (b.setSmall value).toNat = value % 2 ^ b.bits := and_maskU64 le value
  have bitsEq : (b.setSmall value).bits = b.bits := rfl
  refine ⟨⟨h.bits_pos, h.bits_le, ?_, ?_⟩, rfl, residue⟩
  · rw [residue, bitsEq]
    exact mod_lt _ (two_pow_pos _)
  · rw [bitsEq, if_pos le]
    rfl

theorem setLarge_stores (h : b.Valid) (gt : ¬ b.bits ≤ 64) {value residue : Nat}
    (eq : value = residue) (lt : residue < 2 ^ b.bits) :
    (b.setLarge value).Stores b.metadata residue := by
  subst eq
  have bitsEq : (b.setLarge value).bits = b.bits := rfl
  refine ⟨⟨h.bits_pos, h.bits_le, lt, ?_⟩, rfl, rfl⟩
  rw [bitsEq, if_neg gt]
  rfl

theorem maskLarge_stores (h : b.Valid) (gt : ¬ b.bits ≤ 64) {value residue : Nat}
    (eq : value % 2 ^ b.bits = residue) :
    (b.setLarge value).maskLarge.Stores b.metadata residue :=
  setLarge_stores h gt eq (eq ▸ mod_lt _ (two_pow_pos _))

section Constructors

variable {sign : Bool} {width value residue : Nat}

theorem fromSmall_stores (pos : 1 ≤ width) (le : width ≤ maxBits) (narrow : width ≤ 64)
    (eq : value % 2 ^ width = residue) :
    (fromSmall value (2 * width + sign.toNat)).Stores (2 * width + sign.toNat) residue := by
  have bitsEq : (fromSmall value (2 * width + sign.toNat)).bits = width := packed_bits sign width
  have stored : (fromSmall value (2 * width + sign.toNat)).toNat = residue := by
    show value &&& maskU64 _ = _
    rw [packed_bits, and_maskU64 narrow, eq]
  have lt : residue < 2 ^ width := eq ▸ mod_lt _ (two_pow_pos _)
  refine ⟨⟨by rwa [bitsEq], by rwa [bitsEq], by rwa [bitsEq, stored], ?_⟩, rfl, stored⟩
  rw [bitsEq, if_pos narrow]
  rfl

theorem fromLarge_stores (pos : 1 ≤ width) (le : width ≤ maxBits) (wide : ¬ width ≤ 64)
    (eq : value % 2 ^ width = residue) :
    (fromLarge value (2 * width + sign.toNat)).Stores (2 * width + sign.toNat) residue := by
  have bitsEq : (fromLarge value (2 * width + sign.toNat)).bits = width := packed_bits sign width
  have stored : (fromLarge value (2 * width + sign.toNat)).toNat = residue := by
    show value % 2 ^ _ = _
    rw [packed_bits, eq]
  have lt : residue < 2 ^ width := eq ▸ mod_lt _ (two_pow_pos _)
  refine ⟨⟨by rwa [bitsEq], by rwa [bitsEq], by rwa [bitsEq, stored], ?_⟩, rfl, stored⟩
  rw [bitsEq, if_neg wide]
  rfl

/-- The two forms of a constructor store one residue. -/
theorem construct_stores {large : Nat} (sign : Bool) (pos : 1 ≤ width) (le : width ≤ maxBits)
    (whenSmall : width ≤ 64 → value % 2 ^ width = residue)
    (whenLarge : ¬ width ≤ 64 → large % 2 ^ width = residue) :
    (if width ≤ 64 then fromSmall value (2 * width + sign.toNat)
      else fromLarge large (2 * width + sign.toNat)).Stores (2 * width + sign.toNat) residue := by
  split
  · exact fromSmall_stores pos le ‹_› (whenSmall ‹_›)
  · exact fromLarge_stores pos le ‹_› (whenLarge ‹_›)

theorem fromBigint_spec (z : Int) (pos : 1 ≤ width) (le : width ≤ maxBits) :
    ∃ b, fromBigint z width = some b ∧ b.Stores (2 * width) (Lib.residue width z) := by
  refine ⟨_, by rw [fromBigint, packMeta_some pos le]; rfl, ?_⟩
  have below : Lib.residue width z % 2 ^ width = Lib.residue width z :=
    mod_eq_of_lt (residue_lt width z)
  exact construct_stores false pos le (fun _ => below) fun _ => below

theorem fromPrim_spec (z : Int) (pos : 1 ≤ width) (le : width ≤ maxBits) :
    ∃ b, fromPrim z width = some b ∧ b.Stores (2 * width) (Lib.residue width z) := by
  refine ⟨_, by rw [fromPrim, packMeta_some pos le]; rfl, ?_⟩
  have below : Lib.residue width z % 2 ^ width = Lib.residue width z :=
    mod_eq_of_lt (residue_lt width z)
  exact construct_stores false pos le (residue_residue · z) fun _ => below

theorem fromU64_spec (value : Nat) (pos : 1 ≤ width) (le : width ≤ maxBits) :
    ∃ b, fromU64 value width = some b ∧ b.Stores (2 * width) (value % 2 ^ width) := by
  exact fromPrim_spec value pos le

end Constructors

section Flags

theorem stores_of_metadata {b c : BitVec} (h : b.Valid) (sign : Bool)
    (value : c.value = b.value) (metadata : c.metadata = 2 * b.bits + sign.toNat) :
    c.Stores (2 * b.bits + sign.toNat) b.toNat := by
  have bitsEq : c.bits = b.bits := by rw [bits, metadata, packed_bits]
  have toNatEq : c.toNat = b.toNat := by rw [toNat, toNat, value]
  refine ⟨⟨?_, ?_, ?_, ?_⟩, metadata, toNatEq⟩
  · rw [bitsEq]; exact h.bits_pos
  · rw [bitsEq]; exact h.bits_le
  · rw [bitsEq, toNatEq]; exact h.toNat_lt
  · rw [bitsEq, toNatEq, value]; exact h.form

theorem signed_stores {b : BitVec} (h : b.Valid) :
    b.signed.Stores (2 * b.bits + 1) b.toNat := by
  refine stores_of_metadata h true rfl ?_
  have odd : ∀ k, 2 * k ||| 1 = 2 * k + 1 := fun k =>
    (Nat.two_pow_add_eq_or_of_lt (by decide : 1 < 2 ^ 1) k).symm
  show b.metadata ||| 1 = _
  rw [metadata_eq b]
  cases b.isSigned
  · exact odd b.bits
  · show 2 * b.bits + 1 ||| 1 = _
    rw [← odd, Nat.or_assoc, Nat.or_self, odd]
    rfl

theorem unsigned_stores {b : BitVec} (h : b.Valid) :
    b.unsigned.Stores (2 * b.bits) b.toNat := by
  refine stores_of_metadata h false rfl ?_
  have lt : b.metadata < 2 ^ 32 := by
    have := h.bits_le
    have : maxBits = 2 ^ 31 - 1 := rfl
    have := metadata_eq b
    have : b.isSigned.toNat ≤ 1 := Bool.toNat_le _
    omega
  show b.metadata &&& (2 ^ 32 - 2) = 2 * b.bits
  rw [show 2 ^ 32 - 2 = 2 ^ 1 * (2 ^ 31 - 1) by decide, bits, shiftRight_eq_div_pow]
  apply Nat.eq_of_testBit_eq
  intro i
  have shifted : 2 * (b.metadata / 2 ^ 1) = 2 ^ 1 * (b.metadata / 2 ^ 1) := by simp
  rw [shifted, Nat.testBit_and, Nat.testBit_two_pow_mul, Nat.testBit_two_pow_mul,
    Nat.testBit_two_pow_sub_one, Nat.testBit_div_two_pow]
  by_cases low : 1 ≤ i
  · rw [Nat.sub_add_cancel low]
    by_cases high : i - 1 < 31
    · simp [low, high]
    · have : b.metadata.testBit i = false := Nat.testBit_lt_two_pow
        (lt_of_lt_of_le lt (pow_le_pow_right (by decide) (by omega)))
      simp [this]
  · simp [low]

end Flags

/-- Two vectors of one width are equal exactly when they store one residue. -/
theorem eq_iff {a b : BitVec} (ha : a.Valid) (hb : b.Valid) :
    a.eq b = true ↔ a.bits = b.bits ∧ a.toNat = b.toNat := by
  unfold eq
  by_cases same : a.bits = b.bits
  · by_cases le : a.bits ≤ 64
    · rw [if_neg (not_not.mpr same), if_pos (isSmall_iff.mpr le), ha.small_eq le,
        hb.small_eq (same ▸ le)]
      simp [same]
    · rw [if_neg (not_not.mpr same), if_neg (mt isSmall_iff.mp le), ha.large_eq le,
        hb.large_eq (same ▸ le)]
      simp [same]
  · simp [same]

/-- The top bit tells the sign of the two's complement value. -/
theorem msb_eq (h : b.Valid) : b.msb = decide (2 ^ (b.bits - 1) ≤ b.toNat) := by
  rw [← testBit_top h.bits_pos h.toNat_lt, msb, bit]
  by_cases le : b.bits ≤ 64
  · have inside : b.bits - 1 < 64 := by omega
    rw [if_pos (isSmall_iff.mpr le), h.small_eq le, Nat.testBit, Nat.and_comm]
    simp [inside]
  · rw [if_neg (mt isSmall_iff.mp le), h.large_eq le]

theorem toInt_eq (h : b.Valid) :
    b.toInt = if b.msb then (b.toNat : Int) - 2 ^ b.bits else b.toNat := by
  simp [toInt, signedValue, msb_eq h]

theorem denote_eq (h : b.Valid) :
    b.denote = if b.isNegative then (b.toNat : Int) - 2 ^ b.bits else b.toNat := by
  rw [denote, isNegative]
  cases b.isSigned
  · rfl
  · exact toInt_eq h

end Forms

section Arithmetic

variable {a b : BitVec}

theorem neg_stores (h : b.Valid) :
    b.neg.Stores b.metadata ((2 ^ b.bits - b.toNat) % 2 ^ b.bits) := by
  unfold neg
  have lt := h.toNat_lt
  split
  · have le := isSmall_iff.mp ‹_›
    apply setSmall_stores h le
    rw [mod_mod_u64 le, h.small_eq le, maskU64_eq le, xor_mask lt]
    congr 1
    omega
  · have gt := mt isSmall_iff.mpr ‹_›
    rw [h.large_eq gt]
    by_cases zero : b.toNat = 0
    · rw [if_neg (not_not.mpr zero), zero, Nat.sub_zero, Nat.mod_self]
      exact ⟨h, rfl, zero⟩
    · rw [if_pos zero, mod_eq_of_lt (by omega)]
      exact setLarge_stores h gt rfl (by omega)

theorem not_stores (h : b.Valid) : b.not.Stores b.metadata (2 ^ b.bits - 1 - b.toNat) := by
  unfold not
  have lt := h.toNat_lt
  split
  · have le := isSmall_iff.mp ‹_›
    apply setSmall_stores h le
    rw [h.small_eq le, maskU64_eq le, xor_mask lt, mod_eq_of_lt (by omega)]
  · have gt := mt isSmall_iff.mpr ‹_›
    exact setLarge_stores h gt (by rw [h.large_eq gt, lowMask]) (by omega)

theorem expectSameBits_of_eq (same : a.bits = b.bits) : expectSameBits a b = some () := by
  simp [expectSameBits, same]

theorem residueOp_spec {smallOp : BitVec → BitVec → Nat} {largeOp : BitVec → BitVec → BitVec}
    {residue : Nat} (same : a.bits = b.bits)
    (whenSmall : a.bits ≤ 64 → smallOp a b % 2 ^ a.bits = residue) (ha : a.Valid)
    (whenLarge : ¬ a.bits ≤ 64 → (largeOp a b).Stores a.metadata residue) :
    ∃ c, residueOp smallOp largeOp a b = some c ∧ c.Stores a.metadata residue := by
  refine ⟨if a.isSmall then a.setSmall (smallOp a b) else largeOp a b,
    by rw [residueOp, expectSameBits_of_eq same]; rfl, ?_⟩
  split
  · have le := isSmall_iff.mp ‹_›
    exact setSmall_stores ha le (whenSmall le)
  · exact whenLarge (mt isSmall_iff.mpr ‹_›)

theorem add_spec (ha : a.Valid) (hb : b.Valid) (same : a.bits = b.bits) :
    ∃ c, a.add b = some c ∧ c.Stores a.metadata ((a.toNat + b.toNat) % 2 ^ a.bits) := by
  refine residueOp_spec same (fun le => ?_) ha fun gt => maskLarge_stores ha gt ?_
  · rw [mod_mod_u64 le, ha.small_eq le, hb.small_eq (same ▸ le)]
  · rw [ha.large_eq gt, hb.large_eq (same ▸ gt)]

theorem mul_spec (ha : a.Valid) (hb : b.Valid) (same : a.bits = b.bits) :
    ∃ c, a.mul b = some c ∧ c.Stores a.metadata (a.toNat * b.toNat % 2 ^ a.bits) := by
  refine residueOp_spec same (fun le => ?_) ha fun gt => maskLarge_stores ha gt ?_
  · rw [mod_mod_u64 le, ha.small_eq le, hb.small_eq (same ▸ le)]
  · rw [ha.large_eq gt, hb.large_eq (same ▸ gt)]

theorem sub_spec (ha : a.Valid) (hb : b.Valid) (same : a.bits = b.bits) :
    ∃ c, a.sub b = some c ∧ c.Stores a.metadata (residue a.bits ((a.toNat : Int) - b.toNat)) := by
  have aLt := ha.toNat_lt
  have bLt := hb.toNat_lt
  rw [← same] at bLt
  rw [residue_sub bLt]
  refine residueOp_spec same (fun le => ?_) ha fun gt => ?_
  · have fits : 2 ^ a.bits ≤ 2 ^ 64 := pow_le_pow_right (by decide) le
    have wrapped : wrapU64 ((a.small : Int) - b.small) =
        (a.toNat + (2 ^ 64 - b.toNat)) % 2 ^ 64 := by
      rw [ha.small_eq le, hb.small_eq (same ▸ le), wrapU64]
      omega
    have shifted : a.toNat + (2 ^ 64 - b.toNat) =
        a.toNat + (2 ^ a.bits - b.toNat) + 2 ^ a.bits * (2 ^ (64 - a.bits) - 1) := by
      have : 2 ^ a.bits * (2 ^ (64 - a.bits) - 1) = 2 ^ 64 - 2 ^ a.bits := by
        rw [Nat.mul_sub_one, ← pow_add, Nat.add_sub_cancel' le]
      omega
    rw [wrapped, mod_mod_u64 le, shifted, Nat.add_mul_mod_self_left]
  · rw [ha.large_eq gt, hb.large_eq (same ▸ gt)]
    by_cases le : b.toNat ≤ a.toNat
    · have wrapped : (a.toNat + (2 ^ a.bits - b.toNat)) % 2 ^ a.bits = a.toNat - b.toNat := by
        rw [show a.toNat + (2 ^ a.bits - b.toNat) = a.toNat - b.toNat + 2 ^ a.bits by omega,
          Nat.add_mod_right, mod_eq_of_lt (by omega)]
      rw [if_pos le, wrapped]
      exact setLarge_stores ha gt rfl (by omega)
    · have wrapped : (a.toNat + (2 ^ a.bits - b.toNat)) % 2 ^ a.bits =
          2 ^ a.bits - (b.toNat - a.toNat) := by
        rw [mod_eq_of_lt (by omega)]
        omega
      rw [if_neg le, wrapped]
      exact setLarge_stores ha gt rfl (by omega)

theorem bitwise_spec {op : Nat → Nat → Nat} (closed : ∀ {x y n : Nat}, x < 2 ^ n → y < 2 ^ n →
    op x y < 2 ^ n) (ha : a.Valid) (hb : b.Valid) (same : a.bits = b.bits) :
    ∃ c, residueOp (fun a b => op a.small b.small)
      (fun a b => a.setLarge (op a.large b.large)) a b = some c ∧
      c.Stores a.metadata (op a.toNat b.toNat) := by
  have lt : op a.toNat b.toNat < 2 ^ a.bits := closed ha.toNat_lt (same ▸ hb.toNat_lt)
  refine residueOp_spec same (fun le => ?_) ha fun gt => setLarge_stores ha gt ?_ lt
  · rw [ha.small_eq le, hb.small_eq (same ▸ le), mod_eq_of_lt lt]
  · rw [ha.large_eq gt, hb.large_eq (same ▸ gt)]

theorem and_spec (ha : a.Valid) (hb : b.Valid) (same : a.bits = b.bits) :
    ∃ c, a.and b = some c ∧ c.Stores a.metadata (a.toNat &&& b.toNat) :=
  bitwise_spec (fun _ yLt => Nat.and_lt_two_pow _ yLt) ha hb same

theorem or_spec (ha : a.Valid) (hb : b.Valid) (same : a.bits = b.bits) :
    ∃ c, a.or b = some c ∧ c.Stores a.metadata (a.toNat ||| b.toNat) :=
  bitwise_spec Nat.or_lt_two_pow ha hb same

theorem xor_spec (ha : a.Valid) (hb : b.Valid) (same : a.bits = b.bits) :
    ∃ c, a.xor b = some c ∧ c.Stores a.metadata (a.toNat ^^^ b.toNat) :=
  bitwise_spec Nat.xor_lt_two_pow ha hb same

end Arithmetic

section Division

variable {a b : BitVec}

/-- What an operand means when its magnitude is taken for a negative number. -/
def valueWith (negative : Bool) (b : BitVec) : Int :=
  if negative then (b.toNat : Int) - 2 ^ b.bits else b.toNat

/-- The operand that `udiv` and `urem` see: negated if it is negative. -/
def magnitude (negative : Bool) (b : BitVec) : BitVec := if negative then b.neg else b

@[simp]
theorem magnitude_false : magnitude false = id := rfl

@[simp]
theorem magnitude_true : magnitude true = neg := rfl

variable {negative : Bool}

theorem magnitude_stores (h : b.Valid) (positive : negative → b.toNat ≠ 0) :
    (magnitude negative b).Stores b.metadata (valueWith negative b).natAbs := by
  have lt := h.toNat_lt
  cases negative with
  | false => exact ⟨h, rfl, rfl⟩
  | true =>
    have abs : (valueWith true b).natAbs = 2 ^ b.bits - b.toNat := by
      simp only [valueWith, if_true]
      zify [lt.le]
      rw [abs_of_nonpos]
      · ring
      · linarith
    have neg := neg_stores h
    rw [mod_eq_of_lt (by have := positive rfl; omega), ← abs] at neg
    exact neg

theorem udiv_spec (ha : a.Valid) (hb : b.Valid) (same : a.bits = b.bits) (ne : b.toNat ≠ 0) :
    ∃ c, a.udiv b = some c ∧ c.Stores a.metadata (a.toNat / b.toNat) := by
  have lt : a.toNat / b.toNat < 2 ^ a.bits := lt_of_le_of_lt (Nat.div_le_self _ _) ha.toNat_lt
  unfold udiv
  split
  · have le := isSmall_iff.mp ‹_›
    rw [hb.small_eq (same ▸ le), if_neg ne]
    exact ⟨_, rfl, setSmall_stores ha le (by rw [ha.small_eq le, mod_eq_of_lt lt])⟩
  · have gt := mt isSmall_iff.mpr ‹_›
    rw [hb.large_eq (same ▸ gt), if_neg ne]
    exact ⟨_, rfl, setLarge_stores ha gt (by rw [ha.large_eq gt]) lt⟩

theorem urem_spec (ha : a.Valid) (hb : b.Valid) (same : a.bits = b.bits) (ne : b.toNat ≠ 0) :
    ∃ c, a.urem b = some c ∧ c.Stores a.metadata (a.toNat % b.toNat) := by
  have lt : a.toNat % b.toNat < 2 ^ a.bits := lt_of_le_of_lt (Nat.mod_le _ _) ha.toNat_lt
  unfold urem
  split
  · have le := isSmall_iff.mp ‹_›
    rw [hb.small_eq (same ▸ le), if_neg ne]
    exact ⟨_, rfl, setSmall_stores ha le (by rw [ha.small_eq le, mod_eq_of_lt lt])⟩
  · have gt := mt isSmall_iff.mpr ‹_›
    rw [hb.large_eq (same ▸ gt), if_neg ne]
    exact ⟨_, rfl, setLarge_stores ha gt (by rw [ha.large_eq gt]) lt⟩

theorem divWith_eq (lneg rneg : Bool) : a.divWith lneg rneg b =
    ((magnitude lneg a).udiv (magnitude rneg b)).map (magnitude (lneg != rneg)) := by
  cases lneg <;> cases rneg <;> simp [divWith]

theorem remWith_eq (lneg rneg : Bool) : a.remWith lneg rneg b =
    ((magnitude lneg a).urem (magnitude rneg b)).map (magnitude lneg) := by
  cases lneg <;> cases rneg <;> simp [remWith]

theorem valueWith_eq (h : b.Valid) :
    valueWith negative b = if negative then -((valueWith negative b).natAbs : Int)
      else (valueWith negative b).natAbs := by
  have lt : (b.toNat : Int) < 2 ^ b.bits := by exact_mod_cast h.toNat_lt
  cases negative with
  | false => simp [valueWith]
  | true =>
    have nonpos : valueWith true b ≤ 0 := by
      simp only [valueWith, if_true]
      linarith
    simp [Int.ofNat_natAbs_of_nonpos nonpos, neg_neg]

theorem negate_stores {c : BitVec} {metadata q : Nat} (h : c.Stores metadata q) :
    (magnitude negative c).Stores metadata
      (residue (metadata >>> 1) (if negative then -(q : Int) else q)) := by
  have lt := h.valid.toNat_lt
  rw [h.toNat_eq, h.bits_eq] at lt
  cases negative with
  | false => exact ⟨h.valid, h.metadata_eq, h.toNat_eq.trans (residue_of_lt lt).symm⟩
  | true =>
    have neg := neg_stores h.valid
    rw [h.toNat_eq, h.metadata_eq, h.bits_eq, ← residue_neg lt] at neg
    exact neg

theorem valueWith_ne_zero (h : b.Valid) (ne : b.toNat ≠ 0) :
    (valueWith negative b).natAbs ≠ 0 := by
  have lt : (b.toNat : Int) < 2 ^ b.bits := by exact_mod_cast h.toNat_lt
  rw [Int.natAbs_ne_zero]
  cases negative with
  | false => simpa [valueWith] using ne
  | true =>
    simp only [valueWith, if_true]
    linarith

/-- `div_assign_with` truncates the quotient of the two values. -/
theorem divWith_spec (lneg rneg : Bool) (ha : a.Valid) (hb : b.Valid) (same : a.bits = b.bits)
    (ne : b.toNat ≠ 0) (positive : lneg → a.toNat ≠ 0) :
    ∃ c, a.divWith lneg rneg b = some c ∧ c.Stores a.metadata
      (residue a.bits ((valueWith lneg a).tdiv (valueWith rneg b))) := by
  have left := magnitude_stores ha positive
  have right : (magnitude rneg b).Stores _ _ := magnitude_stores hb fun _ => ne
  obtain ⟨q, run, stores⟩ := udiv_spec left.valid right.valid
    (by rw [left.bits_eq, right.bits_eq]; exact same)
    (by rw [right.toNat_eq]; exact valueWith_ne_zero hb ne)
  refine ⟨magnitude (lneg != rneg) q, by rw [divWith_eq, run, map_some], ?_⟩
  rw [left.metadata_eq, left.toNat_eq, right.toNat_eq] at stores
  have quotient := tdiv_signs lneg rneg (valueWith lneg a).natAbs (valueWith rneg b).natAbs
  rw [← valueWith_eq ha, ← valueWith_eq hb] at quotient
  rw [quotient]
  exact negate_stores stores

/-- `rem_assign_with` takes the remainder of that division; it has the sign of the dividend. -/
theorem remWith_spec (lneg rneg : Bool) (ha : a.Valid) (hb : b.Valid) (same : a.bits = b.bits)
    (ne : b.toNat ≠ 0) (positive : lneg → a.toNat ≠ 0) :
    ∃ c, a.remWith lneg rneg b = some c ∧ c.Stores a.metadata
      (residue a.bits ((valueWith lneg a).tmod (valueWith rneg b))) := by
  have left := magnitude_stores ha positive
  have right : (magnitude rneg b).Stores _ _ := magnitude_stores hb fun _ => ne
  obtain ⟨r, run, stores⟩ := urem_spec left.valid right.valid
    (by rw [left.bits_eq, right.bits_eq]; exact same)
    (by rw [right.toNat_eq]; exact valueWith_ne_zero hb ne)
  refine ⟨magnitude lneg r, by rw [remWith_eq, run, map_some], ?_⟩
  rw [left.metadata_eq, left.toNat_eq, right.toNat_eq] at stores
  have remainder := tmod_signs lneg rneg (valueWith lneg a).natAbs (valueWith rneg b).natAbs
  rw [← valueWith_eq ha, ← valueWith_eq hb] at remainder
  rw [remainder]
  exact negate_stores stores

theorem toNat_ne_zero_of_msb (h : b.Valid) (top : b.msb = true) : b.toNat ≠ 0 := by
  rw [msb_eq h, decide_eq_true_iff] at top
  have := two_pow_pos (b.bits - 1)
  omega

theorem valueWith_msb (h : b.Valid) : valueWith b.msb b = b.toInt := (toInt_eq h).symm

theorem valueWith_isNegative (h : b.Valid) : valueWith b.isNegative b = b.denote :=
  (denote_eq h).symm

theorem msb_of_isNegative (negative : b.isNegative = true) : b.msb = true := by
  simp only [isNegative, Bool.and_eq_true] at negative
  exact negative.2

section

variable (ha : a.Valid) (hb : b.Valid) (same : a.bits = b.bits) (ne : b.toNat ≠ 0)
include ha hb same ne

theorem div_spec :
    ∃ c, a.div b = some c ∧ c.Stores a.metadata (residue a.bits (a.denote.tdiv b.denote)) := by
  rw [← valueWith_isNegative ha, ← valueWith_isNegative hb]
  obtain ⟨c, run, stores⟩ := divWith_spec a.isNegative b.isNegative ha hb same ne fun negative =>
    toNat_ne_zero_of_msb ha (msb_of_isNegative negative)
  exact ⟨c, by rw [div, expectSameBits_of_eq same]; exact run, stores⟩

theorem rem_spec :
    ∃ c, a.rem b = some c ∧ c.Stores a.metadata (residue a.bits (a.denote.tmod b.denote)) := by
  rw [← valueWith_isNegative ha, ← valueWith_isNegative hb]
  obtain ⟨c, run, stores⟩ := remWith_spec a.isNegative b.isNegative ha hb same ne fun negative =>
    toNat_ne_zero_of_msb ha (msb_of_isNegative negative)
  exact ⟨c, by rw [rem, expectSameBits_of_eq same]; exact run, stores⟩

theorem signedDiv_spec
    :
    ∃ c, a.signedDiv b = some c ∧ c.Stores a.metadata (residue a.bits (a.toInt.tdiv b.toInt)) := by
  rw [← valueWith_msb ha, ← valueWith_msb hb]
  obtain ⟨c, run, stores⟩ := divWith_spec a.msb b.msb ha hb same ne
    (toNat_ne_zero_of_msb ha)
  exact ⟨c, by rw [signedDiv, expectSameBits_of_eq same]; exact run, stores⟩

theorem signedRem_spec
    :
    ∃ c, a.signedRem b = some c ∧ c.Stores a.metadata (residue a.bits (a.toInt.tmod b.toInt)) := by
  rw [← valueWith_msb ha, ← valueWith_msb hb]
  obtain ⟨c, run, stores⟩ := remWith_spec a.msb b.msb ha hb same ne
    (toNat_ne_zero_of_msb ha)
  exact ⟨c, by rw [signedRem, expectSameBits_of_eq same]; exact run, stores⟩

end

end Division

section Shifts

variable {a b : BitVec} {rhs : Nat}

theorem shiftAmount_eq (h : b.Valid) {width : Nat} (le : width ≤ maxBits) :
    (b.shiftAmount width).getD width = min b.toNat width := by
  have amount : (if b.isSmall then b.small else b.large) = b.toNat := by
    split
    · exact h.small_eq (isSmall_iff.mp ‹_›)
    · exact h.large_eq (mt isSmall_iff.mpr ‹_›)
  have : maxBits < 2 ^ 32 := by decide
  rw [shiftAmount, amount]
  split
  · split
    · simp only [getD_some]; omega
    · simp only [getD_none]; omega
  · simp only [getD_none]; omega

theorem shlBy_stores (h : b.Valid) (rhs : Nat) :
    (b.shlBy rhs).Stores b.metadata (b.toNat * 2 ^ rhs % 2 ^ b.bits) := by
  unfold shlBy
  have far : b.bits ≤ rhs → b.toNat * 2 ^ rhs % 2 ^ b.bits = 0 := fun le =>
    Nat.mod_eq_zero_of_dvd (Dvd.dvd.mul_left (pow_dvd_pow 2 le) _)
  split
  · have le := isSmall_iff.mp ‹_›
    apply setSmall_stores h le
    split
    · rw [mod_mod_u64 le, h.small_eq le, Nat.shiftLeft_eq]
    · rw [far (by omega), Nat.zero_mod]
  · have gt := mt isSmall_iff.mpr ‹_›
    split
    · exact setLarge_stores h gt (far ‹_›).symm (mod_lt _ (two_pow_pos _))
    · exact maskLarge_stores h gt (by rw [h.large_eq gt, Nat.shiftLeft_eq])

/-- A right shift is floor division by a power of two, of the negative value if it fills. -/
theorem shrWith_stores (h : b.Valid) (arithmetic : Bool) :
    (b.shrWith arithmetic rhs).Stores b.metadata
      (residue b.bits (valueWith (arithmetic && b.msb) b / 2 ^ rhs)) := by
  have lt := h.toNat_lt
  rw [shrWith]
  cases arithmetic && b.msb with
  | false =>
    have value : residue b.bits (valueWith false b / 2 ^ rhs) = b.toNat / 2 ^ rhs := by
      rw [← residue_of_lt (lt_of_le_of_lt (Nat.div_le_self _ (2 ^ rhs)) lt)]
      simp [valueWith]
    have below : b.toNat / 2 ^ rhs < 2 ^ b.bits := lt_of_le_of_lt (Nat.div_le_self _ _) lt
    have far : b.bits ≤ rhs → b.toNat / 2 ^ rhs = 0 := fun le => Nat.div_eq_of_lt
      (lt_of_lt_of_le lt (pow_le_pow_right (by decide) le))
    rw [value]
    simp only [Bool.false_eq_true, if_false]
    split
    · rename_i le
      split
      · exact setSmall_stores h (isSmall_iff.mp ‹_›) (by rw [far le, Nat.zero_mod])
      · exact setLarge_stores h (mt isSmall_iff.mpr ‹_›) (far le).symm below
    · split
      · have le := isSmall_iff.mp ‹_›
        apply setSmall_stores h le
        rw [h.small_eq le, shiftRight_eq_div_pow, mod_eq_of_lt below]
      · have gt := mt isSmall_iff.mpr ‹_›
        exact setLarge_stores h gt (by rw [h.large_eq gt, shiftRight_eq_div_pow]) below
  | true =>
    have value : valueWith true b = (b.toNat : Int) - 2 ^ b.bits := rfl
    have below := residue_lt b.bits (((b.toNat : Int) - 2 ^ b.bits) / 2 ^ rhs)
    rw [value]
    simp only [if_true]
    split
    · rename_i le
      rw [residue_shift_all le lt] at below ⊢
      split
      · have small := isSmall_iff.mp ‹_›
        apply setSmall_stores h small
        rw [← and_maskU64 small, maskU64_eq small, Nat.and_comm, Nat.and_two_pow_sub_one_of_lt_two_pow]
        exact lt_of_lt_of_le below (pow_le_pow_right (by decide) small)
      · exact setLarge_stores h (mt isSmall_iff.mpr ‹_›) rfl below
    · have le : rhs ≤ b.bits := by omega
      have quotient : b.toNat / 2 ^ rhs < 2 ^ (b.bits - rhs) := by
        apply Nat.div_lt_of_lt_mul
        rw [← pow_add, Nat.add_sub_cancel' le]
        exact lt
      rw [residue_shift le lt] at below ⊢
      split
      · have small := isSmall_iff.mp ‹_›
        apply setSmall_stores h small
        rw [h.small_eq small, maskU64_eq small, shiftRight_eq_div_pow,
          shiftRight_eq_div_pow, mask_div le, mask_xor_mask (sub_le _ _),
          or_fill (sub_le _ _) quotient, mod_eq_of_lt below]
      · have gt := mt isSmall_iff.mpr ‹_›
        refine setLarge_stores h gt ?_ below
        rw [h.large_eq gt, lowMask, lowMask, shiftRight_eq_div_pow,
          mask_xor_mask (sub_le _ _), or_fill (sub_le _ _) quotient]

theorem shl_spec (ha : a.Valid) (hb : b.Valid) (same : a.bits = b.bits) :
    ∃ c, a.shl b = some c ∧ c.Stores a.metadata (a.toNat * 2 ^ b.toNat % 2 ^ a.bits) := by
  refine ⟨_, by rw [shl, expectSameBits_of_eq same]; rfl, ?_⟩
  rw [shiftAmount_eq hb ha.bits_le]
  have stores := shlBy_stores ha (min b.toNat a.bits)
  rcases le_total b.toNat a.bits with le | le
  · rwa [min_eq_left le] at stores ⊢
  · have far : ∀ k, a.bits ≤ k → a.toNat * 2 ^ k % 2 ^ a.bits = 0 := fun k le =>
      Nat.mod_eq_zero_of_dvd (Dvd.dvd.mul_left (pow_dvd_pow 2 le) _)
    rw [min_eq_right le] at stores ⊢
    rwa [far a.bits le_rfl, ← far b.toNat le] at stores

/-- A value of the width has no bits beyond it, so an amount of at least the width counts as the
width. -/
theorem div_two_pow_min {z : Int} {n k : Nat} (low : -2 ^ n ≤ z) (high : z < 2 ^ n) :
    z / 2 ^ min k n = z / 2 ^ k := by
  rcases le_total k n with le | le
  · rw [min_eq_left le]
  · have power : (2 : Int) ^ n ≤ 2 ^ k := pow_le_pow_right₀ (by norm_num) le
    rw [min_eq_right le]
    rcases lt_or_ge z 0 with neg | nonneg
    · rw [Int.ediv_eq_neg_one_of_neg_of_le neg (by linarith),
        Int.ediv_eq_neg_one_of_neg_of_le neg (by linarith)]
    · rw [Int.ediv_eq_zero_of_lt nonneg high, Int.ediv_eq_zero_of_lt nonneg (by linarith)]

theorem shrWith_shiftAmount_stores (ha : a.Valid) (hb : b.Valid) (arithmetic : Bool) :
    (a.shrWith arithmetic ((b.shiftAmount a.bits).getD a.bits)).Stores a.metadata
      (residue a.bits (valueWith (arithmetic && a.msb) a / 2 ^ b.toNat)) := by
  have lt : (a.toNat : Int) < 2 ^ a.bits := by exact_mod_cast ha.toNat_lt
  rw [shiftAmount_eq hb ha.bits_le, ← div_two_pow_min (n := a.bits)]
  · exact shrWith_stores ha arithmetic
  · unfold valueWith
    split <;> linarith [Int.natCast_nonneg a.toNat]
  · unfold valueWith
    split <;> linarith [Int.natCast_nonneg a.toNat]

theorem shr_spec (ha : a.Valid) (hb : b.Valid) (same : a.bits = b.bits) :
    ∃ c, a.shr b = some c ∧ c.Stores a.metadata (residue a.bits (a.denote / 2 ^ b.toNat)) := by
  refine ⟨_, by rw [shr, expectSameBits_of_eq same]; rfl, ?_⟩
  rw [← valueWith_isNegative ha]
  exact shrWith_shiftAmount_stores ha hb a.isSigned

theorem signedShr_spec (ha : a.Valid) (hb : b.Valid) (same : a.bits = b.bits) :
    ∃ c, a.signedShr b = some c ∧
      c.Stores a.metadata (residue a.bits (a.toInt / 2 ^ b.toNat)) := by
  refine ⟨_, by rw [signedShr, expectSameBits_of_eq same]; rfl, ?_⟩
  rw [← valueWith_msb ha]
  have := shrWith_shiftAmount_stores ha hb true
  rwa [Bool.true_and] at this

end Shifts

section Casts

variable {b : BitVec} {width : Nat}

/-- A value that is cast to a wider one and is negative gets its sign bits; every other one keeps
its residue. -/
theorem residue_denote (h : b.Valid) : residue width b.denote =
    if b.isSigned && decide (b.bits < width) && b.msb then b.toNat + (2 ^ width - 2 ^ b.bits)
    else b.toNat % 2 ^ width := by
  have lt := h.toNat_lt
  rw [denote_eq h, isNegative]
  cases negative : b.isSigned && b.msb with
  | false =>
    have plain : (b.isSigned && decide (b.bits < width) && b.msb) = false := by
      rw [Bool.and_right_comm, negative, Bool.false_and]
    rw [plain]
    exact residue_natCast width b.toNat
  | true =>
    rw [Bool.and_right_comm, negative, Bool.true_and]
    by_cases wider : b.bits < width
    · have le : 2 ^ b.bits ≤ 2 ^ width := pow_le_pow_right (by decide) wider.le
      rw [if_pos rfl, if_pos (decide_eq_true wider)]
      apply residue_eq_of_lt (q := 1) (by omega)
      push_cast [le]
      ring
    · have power : (2 : Int) ^ b.bits = 2 ^ width * 2 ^ (b.bits - width) := by
        rw [← pow_add, Nat.add_sub_cancel' (by omega)]
      rw [if_pos rfl, if_neg (by simpa using wider), ← residue_natCast]
      apply residue_congr (-2 ^ (b.bits - width))
      rw [power]
      ring

theorem wider_of_extend (extend : (b.isSigned && decide (b.bits < width) && b.msb) = true) :
    b.bits < width := by
  simp only [Bool.and_eq_true, decide_eq_true_eq] at extend
  exact extend.1.2

/-- A cast stores the residue, in the new width, of the value that the sign flag makes of it. -/
theorem cast_spec (h : b.Valid) (pos : 1 ≤ width) (le : width ≤ maxBits) :
    ∃ c, b.cast width = some c ∧
      c.Stores (2 * width + b.isSigned.toNat) (residue width b.denote) := by
  have lt := h.toNat_lt
  have bound := residue_lt width b.denote
  have value : residue width b.denote = _ := residue_denote h
  rw [cast, packMeta_some pos le]
  simp only [some_bind, pure_def, some_inj, exists_eq_left']
  -- what is stored before the mask of the new width
  have filled : (if b.isSigned && decide (b.bits < width) && b.msb
      then b.toNat ||| (2 ^ width - 2 ^ b.bits) else b.toNat) % 2 ^ width =
        residue width b.denote := by
    rw [value]
    split
    · rename_i extend
      have wider : b.bits < width := wider_of_extend extend
      rw [if_pos extend] at value
      rw [or_fill wider.le lt, mod_eq_of_lt (value ▸ bound)]
    · rfl
  have fill : lowMask width - lowMask b.bits = 2 ^ width - 2 ^ b.bits := by
    simp only [lowMask]
    omega
  split
  · rename_i smallForm narrow
    have small := isSmall_iff.mp smallForm
    have narrow' := of_decide_eq_true narrow
    apply fromSmall_stores pos le narrow'
    rw [← filled, h.small_eq small, maskU64_eq narrow', maskU64_eq small]
    split
    · rename_i extend
      rw [mask_xor_mask (wider_of_extend extend).le]
    · rfl
  · rename_i smallForm wide
    apply fromLarge_stores pos le (of_decide_eq_false wide)
    rw [← filled, h.small_eq (isSmall_iff.mp smallForm), fill]
  · rename_i largeForm narrow
    have wide : ¬ b.bits ≤ 64 := fun small => by
      rw [isSmall_iff.mpr small] at largeForm
      exact absurd largeForm (by decide)
    have narrow' := of_decide_eq_true narrow
    apply fromSmall_stores pos le narrow'
    have narrower : ¬ b.bits < width := by omega
    rw [Nat.mod_mod, ← filled, h.large_eq wide]
    simp [narrower]
  · rename_i largeForm wide
    have wide' : ¬ b.bits ≤ 64 := fun small => by
      rw [isSmall_iff.mpr small] at largeForm
      exact absurd largeForm (by decide)
    apply fromLarge_stores pos le (of_decide_eq_false wide)
    rw [← filled, h.large_eq wide', fill]

end Casts

section Bytes

theorem Stores.eq {a b : BitVec} {metadata value : Nat} (ha : a.Stores metadata value)
    (hb : b.Stores metadata value) : a = b := by
  have bits : a.bits = b.bits := by rw [ha.bits_eq, hb.bits_eq]
  have form : a.value = b.value := by
    rw [ha.valid.form, hb.valid.form, bits, ha.toNat_eq, hb.toNat_eq]
  have metadata : a.metadata = b.metadata := by rw [ha.metadata_eq, hb.metadata_eq]
  cases a
  simp_all

theorem length_leBytes (length value : Nat) : (leBytes length value).length = length := by
  induction length generalizing value with
  | zero => rfl
  | succ length ih => rw [leBytes, List.length_cons, ih]

/-- The digits of a number give it back, up to the number of digits. -/
theorem ofLeBytes_leBytes (length value : Nat) :
    ofLeBytes (leBytes length value) = value % 256 ^ length := by
  induction length generalizing value with
  | zero => simp [leBytes, ofLeBytes, Nat.mod_one]
  | succ length ih =>
    have rest : ofLeBytes (leBytes length (value / 256)) = value / 256 % 256 ^ length := ih _
    have head : (UInt8.ofNat value).toNat = value % 256 := by simp
    show (UInt8.ofNat value).toNat + 256 * ofLeBytes (leBytes length (value / 256)) = _
    rw [rest, head, pow_succ', Nat.mod_mul]

theorem toLeBytes_spec {b : BitVec} (h : b.Valid) {length : Nat}
    (fits : length = (b.bits + 7) / 8) : b.toLeBytes length = some (leBytes length b.toNat) := by
  have value : (if b.isSmall then b.small else b.large) = b.toNat := by
    split
    · rename_i small
      exact h.small_eq (isSmall_iff.mp small)
    · rename_i large
      exact h.large_eq fun small => large (isSmall_iff.mpr small)
  rw [toLeBytes, if_neg (by simpa using fits), value]

theorem fromLeBytesWith_spec (bytes : List UInt8) (pos : bytes ≠ [])
    (le : bytes.length * 8 ≤ maxBits) :
    ∃ b, fromLeBytesWith bytes (bytes.length * 8) = some b ∧
      b.Stores (2 * (bytes.length * 8)) (ofLeBytes bytes % 2 ^ (bytes.length * 8)) := by
  have nonzero : 1 ≤ bytes.length := List.length_pos_iff.mpr pos
  have size : ¬ bytes.length ≠ (bytes.length * 8 + 7) / 8 := by omega
  rw [fromLeBytesWith, packMeta_some (by omega) le]
  simp only [some_bind, if_neg size, pure_def, some_inj, exists_eq_left']
  exact construct_stores false (by omega) le (fun _ => rfl) (fun _ => rfl)

end Bytes

end Fugue.Bv.BitVec
