import Fugue.Bv.Compare
import Fugue.Bv.Euclid

/-!
# Unsigned bit vectors

`natural width value` is the bit vector of this width and residue without the sign flag. On such
vectors every operation is one of natural numbers.
-/

namespace Fugue.Bv.BitVec

open Fugue.Lib Option

/-- The bit vector of this width and residue, without the sign flag. -/
def natural (width value : Nat) : BitVec :=
  ⟨if width ≤ 64 then .small value else .large value, 2 * width⟩

section Natural

variable {width a b : Nat}

@[simp] theorem natural_bits : (natural width a).bits = width := by
  have := packed_bits false width
  simpa [natural, bits] using this

theorem natural_metadata : (natural width a).metadata = 2 * width := rfl

@[simp] theorem natural_toNat : (natural width a).toNat = a := by
  unfold natural toNat
  by_cases small : width ≤ 64 <;> simp [small]

@[simp] theorem natural_isSigned : (natural width a).isSigned = false := by
  simp [natural, isSigned]

@[simp] theorem natural_denote : (natural width a).denote = a := by
  simp [denote]

/-- A width that bit vectors support. -/
structure Supported (width : Nat) : Prop where
  pos : 1 ≤ width
  le : width ≤ maxBits

variable (supported : Supported width)

include supported

theorem natural_valid (lt : a < 2 ^ width) : (natural width a).Valid where
  bits_pos := by simpa using supported.pos
  bits_le := by simpa using supported.le
  toNat_lt := by simpa using lt
  form := by rw [natural_bits, natural_toNat]; rfl

omit supported in
theorem Stores.eq_natural {c : BitVec} (stores : c.Stores (2 * width) a) : c = natural width a := by
  have valid := stores.valid
  have bitsEq : c.bits = width := by
    have := packed_bits false width
    rw [stores.bits_eq]
    simpa using this
  have form := valid.form
  rw [bitsEq, stores.toNat_eq] at form
  have metadata := stores.metadata_eq
  cases c
  simp_all [natural]

theorem natural_cmp (ltA : a < 2 ^ width) (ltB : b < 2 ^ width) :
    cmp (natural width a) (natural width b) = some (compare a b) := by
  rw [cmp_spec (natural_valid supported ltA) (natural_valid supported ltB) (by simp)]
  simp

theorem natural_isZero (lt : a < 2 ^ width) : (natural width a).isZero = decide (a = 0) := by
  have := isZero_iff (natural_valid supported lt)
  rw [natural_toNat] at this
  by_cases zero : a = 0
  · rw [this.mpr zero, decide_eq_true zero]
  · simp only [zero, decide_false]
    exact Bool.eq_false_iff.mpr (mt this.mp zero)

section

variable (ltA : a < 2 ^ width)
include ltA

variable (ltB : b < 2 ^ width)
include ltB

theorem natural_eq :
    (natural width a).eq (natural width b) = decide (a = b) := by
  have := eq_iff (natural_valid supported ltA) (natural_valid supported ltB)
  by_cases same : a = b
  · subst same
    simpa using this
  · simpa [same] using this

theorem natural_add :
    (natural width a).add (natural width b) = some (natural width ((a + b) % 2 ^ width)) := by
  obtain ⟨c, ran, stores⟩ :=
    add_spec (natural_valid supported ltA) (natural_valid supported ltB) (by simp)
  simp only [natural_metadata, natural_toNat, natural_bits] at stores
  rw [ran, stores.eq_natural]

omit ltB in
theorem natural_sub (le : b ≤ a) :
    (natural width a).sub (natural width b) = some (natural width (a - b)) := by
  obtain ⟨c, ran, stores⟩ := sub_spec (natural_valid supported ltA)
    (natural_valid supported (lt_of_le_of_lt le ltA)) (by simp)
  have value : residue width ((a : Int) - b) = a - b := by
    rw [show ((a : Int) - b) = ((a - b : Nat) : Int) by omega, residue_natCast,
      Nat.mod_eq_of_lt (by omega)]
  simp only [natural_metadata, natural_toNat, natural_bits, value] at stores
  rw [ran, stores.eq_natural]

theorem natural_mul :
    (natural width a).mul (natural width b) = some (natural width (a * b % 2 ^ width)) := by
  obtain ⟨c, ran, stores⟩ :=
    mul_spec (natural_valid supported ltA) (natural_valid supported ltB) (by simp)
  simp only [natural_metadata, natural_toNat, natural_bits] at stores
  rw [ran, stores.eq_natural]

theorem natural_div (ne : b ≠ 0) :
    (natural width a).div (natural width b) = some (natural width (a / b)) := by
  obtain ⟨c, ran, stores⟩ := div_spec (natural_valid supported ltA)
    (natural_valid supported ltB) (by simp) (by simpa using ne)
  have value : residue width ((a : Int).tdiv b) = a / b := by
    rw [← Int.ofNat_tdiv, residue_natCast,
      Nat.mod_eq_of_lt (lt_of_le_of_lt (Nat.div_le_self a b) ltA)]
  simp only [natural_metadata, natural_denote, natural_bits, value] at stores
  rw [ran, stores.eq_natural]

theorem natural_rem (ne : b ≠ 0) :
    (natural width a).rem (natural width b) = some (natural width (a % b)) := by
  obtain ⟨c, ran, stores⟩ := rem_spec (natural_valid supported ltA)
    (natural_valid supported ltB) (by simp) (by simpa using ne)
  have value : residue width ((a : Int).tmod b) = a % b := by
    rw [← Int.ofNat_tmod, residue_natCast, Nat.mod_eq_of_lt (lt_of_le_of_lt (Nat.mod_le a b) ltA)]
  simp only [natural_metadata, natural_denote, natural_bits, value] at stores
  rw [ran, stores.eq_natural]

theorem natural_and :
    (natural width a).and (natural width b) = some (natural width (a &&& b)) := by
  obtain ⟨c, ran, stores⟩ :=
    and_spec (natural_valid supported ltA) (natural_valid supported ltB) (by simp)
  simp only [natural_metadata, natural_toNat] at stores
  rw [ran, stores.eq_natural]

theorem natural_or :
    (natural width a).or (natural width b) = some (natural width (a ||| b)) := by
  obtain ⟨c, ran, stores⟩ :=
    or_spec (natural_valid supported ltA) (natural_valid supported ltB) (by simp)
  simp only [natural_metadata, natural_toNat] at stores
  rw [ran, stores.eq_natural]

end

theorem natural_neg (lt : a < 2 ^ width) :
    (natural width a).neg = natural width ((2 ^ width - a) % 2 ^ width) := by
  have stores := neg_stores (natural_valid supported lt)
  simp only [natural_metadata, natural_toNat, natural_bits] at stores
  exact stores.eq_natural

theorem natural_shl (ltA : a < 2 ^ width) (ltB : b < 2 ^ width) :
    (natural width a).shl (natural width b) = some (natural width (a * 2 ^ b % 2 ^ width)) := by
  obtain ⟨c, ran, stores⟩ :=
    shl_spec (natural_valid supported ltA) (natural_valid supported ltB) (by simp)
  simp only [natural_metadata, natural_toNat, natural_bits] at stores
  rw [ran, stores.eq_natural]

theorem natural_shr (ltA : a < 2 ^ width) (ltB : b < 2 ^ width) :
    (natural width a).shr (natural width b) = some (natural width (a / 2 ^ b)) := by
  obtain ⟨c, ran, stores⟩ :=
    shr_spec (natural_valid supported ltA) (natural_valid supported ltB) (by simp)
  have value : residue width ((a : Int) / 2 ^ b) = a / 2 ^ b := by
    rw [show ((a : Int) / 2 ^ b) = ((a / 2 ^ b : Nat) : Int) by push_cast; rfl, residue_natCast,
      Nat.mod_eq_of_lt (lt_of_le_of_lt (Nat.div_le_self _ _) ltA)]
  simp only [natural_metadata, natural_denote, natural_toNat, natural_bits, value] at stores
  rw [ran, stores.eq_natural]

omit supported in
theorem natural_cast {wide : Nat} (wideOk : Supported wide) (supported : Supported width)
    (lt : a < 2 ^ width) :
    (natural width a).cast wide = some (natural wide (a % 2 ^ wide)) := by
  obtain ⟨c, ran, stores⟩ :=
    cast_spec (natural_valid supported lt) wideOk.pos wideOk.le
  simp only [natural_isSigned, Bool.toNat_false, add_zero, natural_denote,
    residue_natCast] at stores
  rw [ran, stores.eq_natural]

theorem natural_fromU64 (value : Nat) :
    fromU64 value width = some (natural width (value % 2 ^ width)) := by
  obtain ⟨c, ran, stores⟩ := fromU64_spec value supported.pos supported.le
  rw [ran, stores.eq_natural]

theorem natural_maxValueWith : maxValueWith width false = some (natural width (2 ^ width - 1)) := by
  have lt : 2 ^ width - 1 < 2 ^ width := Nat.sub_lt (Nat.two_pow_pos width) (by decide)
  rw [maxValueWith, packMeta_some supported.pos supported.le]
  simp only [some_bind, pure_def, Bool.false_eq_true, if_false]
  refine congrArg some (Stores.eq_natural ?_)
  refine construct_stores false supported.pos supported.le (fun small => ?_) fun _ => ?_
  · rw [maskU64_eq small, Nat.mod_eq_of_lt lt]
  · rw [lowMask, Nat.mod_eq_of_lt lt]

theorem minValueWith_stores :
    ∃ sign, minValueWith width true = some sign ∧ sign.Stores (2 * width + 1) (2 ^ (width - 1)) := by
  have lt : 2 ^ (width - 1) < 2 ^ width :=
    Nat.pow_lt_pow_right (by decide) (by have := supported.pos; omega)
  rw [minValueWith, packMeta_some supported.pos supported.le]
  refine ⟨_, rfl, ?_⟩
  refine construct_stores true supported.pos supported.le (fun small => ?_) fun _ => ?_
  · have power : 2 ^ (width - 1) < 2 ^ 64 :=
      Nat.pow_lt_pow_right (by decide) (by have := supported.pos; omega)
    rw [Nat.one_shiftLeft, Nat.mod_eq_of_lt power, Nat.mod_eq_of_lt lt]
  · exact Nat.mod_eq_of_lt lt

theorem natural_cmp_sign (lt : a < 2 ^ width) : ∃ sign, minValueWith width true = some sign ∧
    (natural width a).cmp sign = some (compare a (2 ^ (width - 1))) := by
  obtain ⟨sign, made, stores⟩ := minValueWith_stores supported
  refine ⟨sign, made, ?_⟩
  have bitsEq : sign.bits = width := by
    have := packed_bits true width
    rw [stores.bits_eq]
    simpa using this
  rw [cmp_spec (natural_valid supported lt) stores.valid (by simp [bitsEq])]
  simp [stores.toNat_eq]

theorem natural_toU64 (lt : a < 2 ^ width) :
    (natural width a).toU64 = if a < 2 ^ 64 then some a else none := by
  have valid := natural_valid supported lt
  have value : (if (natural width a).isSmall then (natural width a).small
      else (natural width a).large) = a := by
    split
    · rw [valid.small_eq (isSmall_iff.mp ‹_›), natural_toNat]
    · rw [valid.large_eq (mt isSmall_iff.mpr ‹_›), natural_toNat]
  rw [toU64, value]

theorem natural_unsigned (lt : a < 2 ^ width) : (natural width a).unsigned = natural width a := by
  have stores := unsigned_stores (natural_valid supported lt)
  simp only [natural_bits, natural_toNat] at stores
  exact stores.eq_natural

omit supported in
theorem natural_unsignedCast {wide : Nat} (wideOk : Supported wide)
    (supported : Supported width) (lt : a < 2 ^ width) :
    (natural width a).unsignedCast wide = some (natural wide (a % 2 ^ wide)) := by
  rw [unsignedCast, natural_unsigned supported lt, natural_cast wideOk supported lt]

omit supported in
/-- A signed cast to a wider width fills with the sign bit. -/
theorem natural_signedCast {wide : Nat} (wideOk : Supported wide)
    (supported : Supported width) (lt : a < 2 ^ width) :
    ∃ c, (natural width a).signedCast wide = some c ∧
      c.unsigned = natural wide (residue wide (signedValue width a)) := by
  have signedStores := signed_stores (natural_valid supported lt)
  simp only [natural_bits, natural_toNat] at signedStores
  obtain ⟨c, ran, stores⟩ := cast_spec signedStores.valid wideOk.pos wideOk.le
  refine ⟨c, ran, ?_⟩
  have flagged : (natural width a).signed.isSigned = true := by
    rw [isSigned, signedStores.metadata_eq]
    exact packed_sign true width
  have bitsEq : (natural width a).signed.bits = width := by
    have := packed_bits true width
    rw [signedStores.bits_eq]
    simpa using this
  have value : (natural width a).signed.denote = signedValue width a := by
    rw [denote, flagged, if_pos rfl, toInt, bitsEq, signedStores.toNat_eq]
  have wideBits : c.bits = wide := by
    have := packed_bits (natural width a).signed.isSigned wide
    rw [stores.bits_eq]
    simpa using this
  have unsignedStores := unsigned_stores stores.valid
  rw [wideBits, stores.toNat_eq, value] at unsignedStores
  exact unsignedStores.eq_natural

/-- `gcd` takes the magnitudes of the two's complement values. -/
theorem natural_gcd (ltA : a < 2 ^ width) (ltB : b < 2 ^ width) :
    (natural width a).gcd (natural width b) = some (natural width (strideGcd width a b)) := by
  obtain ⟨c, ran, stores⟩ :=
    gcd_spec (natural_valid supported ltA) (natural_valid supported ltB) (by simp)
  simp only [natural_metadata, natural_toNat, natural_bits, ite_self] at stores
  rw [ran, stores.eq_natural]

end Natural

end Fugue.Bv.BitVec
