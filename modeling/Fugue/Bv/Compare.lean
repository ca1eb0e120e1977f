import Fugue.Bv.Spec
import Mathlib.Data.Nat.Size

/-!
# Comparing and counting bits

The comparisons, the bit counts and the overflow tests of `fugue-bv/src/lib.rs`. The tests look at
the top bits of the operands and of the result; their specifications say which sums and differences
leave the range of the width.
-/

namespace Fugue.Bv.BitVec

open Fugue.Lib Option

/-- The number of one bits of a natural number, as `u64::count_ones` and the natural numbers of the
big number library count them. -/
def onesOf (value : Nat) : Nat := (List.range value.size).countP value.testBit

/-- `count_ones` (`lib.rs:370-376`). -/
def countOnes (b : BitVec) : Nat := if b.isSmall then onesOf b.small else onesOf b.large

/-- `significant_bits` (`lib.rs:382-388`). -/
def significantBits (b : BitVec) : Nat := if b.isSmall then b.small.size else b.large.size

/-- `leading_zeros` (`lib.rs:390-392`). -/
def leadingZeros (b : BitVec) : Nat := b.bits - b.significantBits

/-- `to_u64` (`lib.rs:1303-1309`). -/
def toU64 (b : BitVec) : Option Nat :=
  let value := if b.isSmall then b.small else b.large
  if value < 2 ^ 64 then some value else none

/-- `cmp_residue` (`lib.rs:680-686`). -/
def cmpResidue (a b : BitVec) : Ordering :=
  if a.isSmall then compare a.small b.small else compare a.large b.large

/-- `Ord::cmp` (`lib.rs:1026-1031`). -/
def cmp (a b : BitVec) : Option Ordering := do
  expectSameBits a b
  return a.cmpResidue b

/-- `signed_cmp` (`lib.rs:688-695`). -/
def signedCmp (a b : BitVec) : Option Ordering := do
  expectSameBits a b
  return match a.msb, b.msb with
    | true, false => .lt
    | false, true => .gt
    | _, _ => a.cmpResidue b

/-- `signed_borrow` (`lib.rs:565-578`). -/
def signedBorrow (a b : BitVec) : Option Bool := do
  expectSameBits a b
  let v := (← a.sub b).msb
  return (a.msb ^^ v) && ((v ^^ b.msb) ^^ true)

/-- `signed_carry` (`lib.rs:589-602`). -/
def signedCarry (a b : BitVec) : Option Bool := do
  expectSameBits a b
  let v := (← a.add b).msb
  return (v ^^ a.msb) && ((a.msb ^^ b.msb) ^^ true)

/-- `carry` (`lib.rs:580-587`). -/
def carry (a b : BitVec) : Option Bool := do
  expectSameBits a b
  if a.isSigned || b.isSigned then a.signedCarry b
  else return a.cmpResidue (← a.add b) == .gt

section Specs

variable {a b : BitVec}

theorem isZero_iff (h : b.Valid) : b.isZero = true ↔ b.toNat = 0 := by
  unfold isZero
  split
  · rw [h.small_eq (isSmall_iff.mp ‹_›), beq_iff_eq]
  · rw [h.large_eq (mt isSmall_iff.mpr ‹_›), beq_iff_eq]

theorem countOnes_eq (h : b.Valid) : b.countOnes = onesOf b.toNat := by
  unfold countOnes
  split
  · rw [h.small_eq (isSmall_iff.mp ‹_›)]
  · rw [h.large_eq (mt isSmall_iff.mpr ‹_›)]

theorem leadingZeros_eq (h : b.Valid) : b.leadingZeros = b.bits - b.toNat.size := by
  unfold leadingZeros significantBits
  split
  · rw [h.small_eq (isSmall_iff.mp ‹_›)]
  · rw [h.large_eq (mt isSmall_iff.mpr ‹_›)]

theorem cmpResidue_eq (ha : a.Valid) (hb : b.Valid) (same : a.bits = b.bits) :
    a.cmpResidue b = compare a.toNat b.toNat := by
  unfold cmpResidue
  split
  · have le := isSmall_iff.mp ‹_›
    rw [ha.small_eq le, hb.small_eq (same ▸ le)]
  · have gt := mt isSmall_iff.mpr ‹_›
    rw [ha.large_eq gt, hb.large_eq (same ▸ gt)]

theorem cmp_spec (ha : a.Valid) (hb : b.Valid) (same : a.bits = b.bits) :
    a.cmp b = some (compare a.toNat b.toNat) := by
  rw [cmp, expectSameBits_of_eq same, ← cmpResidue_eq ha hb same]
  rfl

theorem msb_iff (h : b.Valid) : b.msb = true ↔ b.toInt < 0 := by
  have lt : (b.toNat : Int) < 2 ^ b.bits := by exact_mod_cast h.toNat_lt
  rw [toInt_eq h]
  cases b.msb with
  | false => simp
  | true =>
    simp only [if_true, true_iff]
    linarith

/-- Comparing the top bits first, and then the residues, compares the signed values. -/
theorem signedCmp_spec (ha : a.Valid) (hb : b.Valid) (same : a.bits = b.bits) :
    a.signedCmp b = some (compare a.toInt b.toInt) := by
  rw [signedCmp, expectSameBits_of_eq same]
  have signA := msb_iff ha
  have signB := msb_iff hb
  have valueA := toInt_eq ha
  have valueB := toInt_eq hb
  rw [← same] at valueB
  simp only [some_bind, pure_def, some_inj]
  rw [cmpResidue_eq ha hb same]
  have shift : ∀ c : Int, compare a.toNat b.toNat =
      compare ((a.toNat : Int) - c) ((b.toNat : Int) - c) := by
    intro c
    rw [Nat.compare_eq_ite_lt, Int.compare_eq_ite_lt]
    simp
  cases topA : a.msb <;> cases topB : b.msb <;> rw [topA] at signA valueA <;>
    rw [topB] at signB valueB
  · rw [valueA, valueB]
    simpa using shift 0
  · have order : b.toInt < a.toInt := lt_of_lt_of_le (signB.mp rfl)
      (not_lt.mp fun negative => by simpa using signA.mpr negative)
    exact (compare_gt_iff_gt.mpr order).symm
  · have order : a.toInt < b.toInt := lt_of_lt_of_le (signA.mp rfl)
      (not_lt.mp fun negative => by simpa using signB.mpr negative)
    exact (compare_lt_iff_lt.mpr order).symm
  · rw [valueA, valueB]
    exact shift (2 ^ a.bits)

/-- The integers that the width can represent as signed values. -/
def InSignedRange (bits : Nat) (z : Int) : Prop := -2 ^ (bits - 1) ≤ z ∧ z < 2 ^ (bits - 1)

instance (bits : Nat) (z : Int) : Decidable (InSignedRange bits z) := by
  unfold InSignedRange
  infer_instance

theorem toInt_inSignedRange (h : b.Valid) : InSignedRange b.bits b.toInt := by
  have lt : (b.toNat : Int) < 2 ^ b.bits := by exact_mod_cast h.toNat_lt
  have double : (2 : Int) ^ b.bits = 2 * 2 ^ (b.bits - 1) := by
    exact_mod_cast two_pow_eq_double h.bits_pos
  have top := msb_eq h
  rw [toInt_eq h, top]
  by_cases high : 2 ^ (b.bits - 1) ≤ b.toNat
  · simp only [high, decide_true, if_true]
    constructor <;> linarith
  · simp only [high, decide_false, Bool.false_eq_true, if_false]
    constructor <;> linarith [Int.natCast_nonneg b.toNat]

theorem toInt_wrapped {bits : Nat} {z w q : Int} (pos : 1 ≤ bits) (inRange : InSignedRange bits w)
    (near : -2 ^ bits ≤ z ∧ z < 2 ^ bits) (eq : w = z + 2 ^ bits * q) :
    (InSignedRange bits z ∧ w = z) ∨ (2 ^ (bits - 1) ≤ z ∧ w < 0 ) ∨
      (z < -2 ^ (bits - 1) ∧ 0 ≤ w) := by
  have double : (2 : Int) ^ bits = 2 * 2 ^ (bits - 1) := by exact_mod_cast two_pow_eq_double pos
  obtain ⟨low, high⟩ := inRange
  have cases_ : q = -1 ∨ q = 0 ∨ q = 1 := by
    have upper : q < 2 := by nlinarith
    have lower : -2 < q := by nlinarith
    omega
  rcases cases_ with rfl | rfl | rfl
  · exact .inr (.inl ⟨by linarith, by linarith⟩)
  · exact .inl ⟨⟨by linarith, by linarith⟩, by linarith⟩
  · exact .inr (.inr ⟨by linarith, by linarith⟩)

theorem toInt_congr (h : b.Valid) : ∃ q : Int, b.toInt = b.toNat + 2 ^ b.bits * q := by
  rw [toInt_eq h]
  split
  · exact ⟨-1, by ring⟩
  · exact ⟨0, by ring⟩

/-- The top bit of a wrapped result tells whether the exact one leaves the range. -/
theorem outside_iff {c : BitVec} {z : Int} (hc : c.Valid) (bits : c.bits = a.bits)
    (congr : ∃ q : Int, c.toInt = z + 2 ^ a.bits * q) (near : -2 ^ a.bits ≤ z ∧ z < 2 ^ a.bits) :
    ¬ InSignedRange a.bits z ↔ (c.msb = true ↔ 0 ≤ z) := by
  obtain ⟨q, eq⟩ := congr
  have pos := hc.bits_pos
  have range := toInt_inSignedRange hc
  rw [bits] at pos range
  have half : (0 : Int) < 2 ^ (a.bits - 1) := by positivity
  rw [msb_iff hc]
  unfold InSignedRange
  rcases toInt_wrapped pos range near eq with ⟨inside, same⟩ | ⟨high, negative⟩ | ⟨low, nonneg⟩
  · unfold InSignedRange at inside
    omega
  · omega
  · omega

/-- `signed_carry` tells whether the sum of the signed values leaves the range. -/
theorem signedCarry_spec (ha : a.Valid) (hb : b.Valid) (same : a.bits = b.bits) :
    a.signedCarry b = some (decide (¬ InSignedRange a.bits (a.toInt + b.toInt))) := by
  obtain ⟨c, run, stores⟩ := add_spec ha hb same
  have bits : c.bits = a.bits := stores.bits_eq
  obtain ⟨qa, congrA⟩ := toInt_congr ha
  obtain ⟨qb, congrB⟩ := toInt_congr hb
  obtain ⟨qc, congrC⟩ := toInt_congr stores.valid
  have split := Nat.div_add_mod (a.toNat + b.toNat) (2 ^ a.bits)
  have congr : ∃ q : Int, c.toInt = (a.toInt + b.toInt) + 2 ^ a.bits * q := by
    refine ⟨qc - qa - qb - ((a.toNat + b.toNat) / 2 ^ a.bits : Nat), ?_⟩
    have split' : (2 ^ a.bits : Int) * ((a.toNat + b.toNat) / 2 ^ a.bits : Nat) + c.toNat =
        a.toNat + b.toNat := by
      rw [stores.toNat_eq]
      exact_mod_cast split
    rw [congrC, congrA, congrB, bits, ← same]
    linarith
  have rangeA := toInt_inSignedRange ha
  have rangeB := toInt_inSignedRange hb
  rw [← same] at rangeB
  have double : (2 : Int) ^ a.bits = 2 * 2 ^ (a.bits - 1) := by
    exact_mod_cast two_pow_eq_double ha.bits_pos
  have signA := msb_iff ha
  have signB := msb_iff hb
  obtain ⟨lowA, highA⟩ := rangeA
  obtain ⟨lowB, highB⟩ := rangeB
  have outside := outside_iff stores.valid bits congr
    ⟨by rw [double]; linarith, by rw [double]; linarith⟩
  simp only [signedCarry, expectSameBits_of_eq same, run, some_bind, pure_def, some_inj]
  rw [Bool.eq_iff_iff, decide_eq_true_iff]
  unfold InSignedRange at outside ⊢
  cases topA : a.msb <;> cases topB : b.msb <;> cases topC : c.msb <;>
    simp [topA, topB, topC] at signA signB outside ⊢ <;> omega

/-- `signed_borrow` tells whether the difference of the signed values leaves the range. -/
theorem signedBorrow_spec (ha : a.Valid) (hb : b.Valid) (same : a.bits = b.bits) :
    a.signedBorrow b = some (decide (¬ InSignedRange a.bits (a.toInt - b.toInt))) := by
  obtain ⟨c, run, stores⟩ := sub_spec ha hb same
  have bits : c.bits = a.bits := stores.bits_eq
  obtain ⟨qa, congrA⟩ := toInt_congr ha
  obtain ⟨qb, congrB⟩ := toInt_congr hb
  obtain ⟨qc, congrC⟩ := toInt_congr stores.valid
  have split := Int.emod_add_mul_ediv ((a.toNat : Int) - b.toNat) (2 ^ a.bits)
  have value : (c.toNat : Int) = ((a.toNat : Int) - b.toNat) % 2 ^ a.bits := by
    rw [stores.toNat_eq, natCast_residue]
  have congr : ∃ q : Int, c.toInt = (a.toInt - b.toInt) + 2 ^ a.bits * q := by
    refine ⟨qc - qa + qb - ((a.toNat : Int) - b.toNat) / 2 ^ a.bits, ?_⟩
    rw [congrC, congrA, congrB, bits, ← same, value]
    linarith
  have rangeA := toInt_inSignedRange ha
  have rangeB := toInt_inSignedRange hb
  rw [← same] at rangeB
  have double : (2 : Int) ^ a.bits = 2 * 2 ^ (a.bits - 1) := by
    exact_mod_cast two_pow_eq_double ha.bits_pos
  have signA := msb_iff ha
  have signB := msb_iff hb
  obtain ⟨lowA, highA⟩ := rangeA
  obtain ⟨lowB, highB⟩ := rangeB
  have outside := outside_iff stores.valid bits congr
    ⟨by rw [double]; linarith, by rw [double]; linarith⟩
  simp only [signedBorrow, expectSameBits_of_eq same, run, some_bind, pure_def, some_inj]
  rw [Bool.eq_iff_iff, decide_eq_true_iff]
  unfold InSignedRange at outside ⊢
  cases topA : a.msb <;> cases topB : b.msb <;> cases topC : c.msb <;>
    simp [topA, topB, topC] at signA signB outside ⊢ <;> omega

/-- Without sign flags `carry` tells whether the sum of the residues leaves the width. -/
theorem carry_spec (ha : a.Valid) (hb : b.Valid) (same : a.bits = b.bits)
    (unsignedA : a.isSigned = false) (unsignedB : b.isSigned = false) :
    a.carry b = some (decide (2 ^ a.bits ≤ a.toNat + b.toNat)) := by
  obtain ⟨c, run, stores⟩ := add_spec ha hb same
  have bits : c.bits = a.bits := stores.bits_eq
  have ltA := ha.toNat_lt
  have ltB := hb.toNat_lt
  rw [← same] at ltB
  simp only [carry, expectSameBits_of_eq same, unsignedA, unsignedB, run,
    some_bind, Bool.or_self, Bool.false_eq_true, if_false, pure_def, some_inj]
  rw [cmpResidue_eq ha stores.valid bits.symm, stores.toNat_eq, Nat.compare_eq_ite_lt]
  by_cases over_ : 2 ^ a.bits ≤ a.toNat + b.toNat
  · have wrapped : (a.toNat + b.toNat) % 2 ^ a.bits = a.toNat + b.toNat - 2 ^ a.bits := by
      rw [Nat.mod_eq_sub_mod over_, Nat.mod_eq_of_lt (by omega)]
    rw [wrapped, if_neg (by omega), if_pos (by omega)]
    simp [over_]
  · rw [Nat.mod_eq_of_lt (not_le.mp over_)]
    simp only [over_, decide_false]
    split
    · rfl
    · rw [if_neg (by omega)]
      rfl

end Specs

end Fugue.Bv.BitVec
