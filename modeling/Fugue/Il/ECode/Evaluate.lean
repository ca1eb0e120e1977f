import Fugue.Il.Common.EvaluateSpec

/-!
# Evaluation of ECode operations

`ECodeOpcode::evaluate` (`fugue-core/src/il/ecode/opcode.rs`) and the exactness of scalar
evaluation. The verifier wants the operands of the opcodes with a uniform operand width at the
width of the result and takes operands of any width otherwise. The sign flag of an operand shows in
a copy and a truncation that widen it and in the value operand of a shift; the amount of a shift is
read modulo the width of the result, or sign-extended. `Exact` says when neither shows in the
result.
-/

namespace Fugue.Il

open Fugue.Bv Fugue.Lib List

/-- The operation that `ECodeOpcode::evaluate` selects (`opcode.rs:205-241`). -/
def ECodeOpcode.scalarOp : ECodeOpcode → Option IlScalarOp
  | .add => some .add
  | .and => some .and
  | .arithmeticRightShift => some .arithmeticRightShift
  | .boolAnd => some .boolAnd
  | .boolNot => some .boolNot
  | .boolOr => some .boolOr
  | .boolXor => some .boolXor
  | .carry => some .carry
  | .copy => some .copy
  | .countLeadingZeros => some .countLeadingZeros
  | .countOnes => some .countOnes
  | .intEqual => some .intEqual
  | .intLess => some .intLess
  | .intLessEqual => some .intLessEqual
  | .intNotEqual => some .intNotEqual
  | .intSignedLess => some .intSignedLess
  | .intSignedLessEqual => some .intSignedLessEqual
  | .leftShift => some .leftShift
  | .logicalRightShift => some .logicalRightShift
  | .mul => some .mul
  | .negate => some .negate
  | .not => some .not
  | .or => some .or
  | .signedBorrow => some .signedBorrow
  | .signedCarry => some .signedCarry
  | .signedDiv => some .signedDiv
  | .signedRem => some .signedRem
  | .signExtend => some .signExtend
  | .sub => some .sub
  | .truncate => some .truncate
  | .unsignedDiv => some .unsignedDiv
  | .unsignedRem => some .unsignedRem
  | .xor => some .xor
  | .zeroExtend => some .zeroExtend
  | _ => none

/-- `ECodeOpcode::evaluate` (`opcode.rs:202-246`). -/
def ECodeOpcode.evaluate (opcode : ECodeOpcode) (width : Nat) (operands : List BitVec) :
    OptionT Option BitVec :=
  match opcode.scalarOp with
  | some op => op.evaluate width operands
  | none => failure

namespace IlScalarOp

open BitVec

/-! ## The condition -/

/-- What a bit vector is at another width, without and with a sign flag. -/
def readings (width : Nat) (b : BitVec) : List Nat := [b.toNat % 2 ^ width, residue width b.toInt]

/-- A shift amount below the width stands where the amount itself is at least the width, or the
other way round: the amount was cut off, or it was sign-extended. -/
def AmountChanges (width : Nat) (b : BitVec) : Prop :=
  (width < b.bits ∧ 2 ^ width ≤ b.toNat ∧ b.toNat % 2 ^ width < width) ∨
    (b.bits < width ∧ b.msb = true ∧ b.toNat < width)

/-- The shift leaves nothing of the value but its sign. -/
def ShiftedOut (op : IlScalarOp) (width value amount : Nat) : Prop :=
  match op with
  | .leftShift => value * 2 ^ amount % 2 ^ width = 0
  | .arithmeticRightShift =>
    -2 ^ amount ≤ signedValue width value ∧ signedValue width value < 2 ^ amount
  | _ => value < 2 ^ amount

/-- The shift moves out what a sign extension of the value to the width fills in. -/
def Covers (op : IlScalarOp) (width : Nat) (a : BitVec) (amount : Nat) : Prop :=
  match op with
  | .leftShift => width ≤ a.bits + amount
  | .arithmeticRightShift => False
  | _ => width ≤ amount

def ShiftExact (op : IlScalarOp) (width : Nat) (a b : BitVec) : Prop :=
  (AmountChanges width b → ShiftedOut op width (op.shiftValue width a) (b.toNat % 2 ^ width)) ∧
    (a.bits < width → a.msb = true → ∀ amount ∈ readings width b, Covers op width a amount)

/-- The condition under which the evaluation is exact for both sign flags of every operand. -/
def Exact (op : IlScalarOp) (width : Nat) (operands : List BitVec) : Prop :=
  match op, operands with
  | .copy, a :: _ | .truncate, a :: _ => a.bits < width → a.msb = false
  | .leftShift, a :: b :: _ | .logicalRightShift, a :: b :: _
  | .arithmeticRightShift, a :: b :: _ => ShiftExact op width a b
  | _, _ => True

/-! ## Shifts by two amounts -/

section Shifts

variable {op : IlScalarOp} {width value amount : Nat} {a b : BitVec}

theorem signedValue_bounds (pos : 1 ≤ width) (lt : value < 2 ^ width) :
    -2 ^ (width - 1) ≤ signedValue width value ∧ signedValue width value < 2 ^ (width - 1) := by
  have double : (2 : Int) ^ width = 2 * 2 ^ (width - 1) := by
    exact_mod_cast two_pow_eq_double pos
  unfold signedValue
  split
  · constructor <;> linarith
  · constructor <;> linarith [Int.natCast_nonneg value]

theorem residue_inj {z w : Int} (pos : 1 ≤ width)
    (boundZ : -2 ^ (width - 1) ≤ z ∧ z < 2 ^ (width - 1))
    (boundW : -2 ^ (width - 1) ≤ w ∧ w < 2 ^ (width - 1)) :
    residue width z = residue width w ↔ z = w := by
  refine ⟨fun same => ?_, fun same => by rw [same]⟩
  have double : (2 : Int) ^ width = 2 * 2 ^ (width - 1) := by
    exact_mod_cast two_pow_eq_double pos
  have casted : z % 2 ^ width = w % 2 ^ width := by
    rw [← natCast_residue, ← natCast_residue, same]
  have splitZ := Int.emod_add_mul_ediv z (2 ^ width)
  have splitW := Int.emod_add_mul_ediv w (2 ^ width)
  have quotients : z / 2 ^ width = w / 2 ^ width := by
    have upper : z / 2 ^ width - w / 2 ^ width < 1 := by
      nlinarith
    have lower : -1 < z / 2 ^ width - w / 2 ^ width := by
      nlinarith
    omega
  rw [← splitZ, ← splitW, casted, quotients]

theorem ediv_bounds {z : Int} {n : Nat} (bound : -2 ^ n ≤ z ∧ z < 2 ^ n) (k : Nat) :
    -2 ^ n ≤ z / 2 ^ k ∧ z / 2 ^ k < 2 ^ n := by
  have one : (1 : Int) ≤ 2 ^ k := one_le_pow₀ (by norm_num)
  constructor
  · rw [Int.le_ediv_iff_mul_le (by positivity)]
    nlinarith
  · rw [Int.ediv_lt_iff_lt_mul (by positivity)]
    nlinarith

theorem shifted_far (pos : 1 ≤ width) (lt : value < 2 ^ width) (far : width ≤ amount) :
    op.shifted width value amount = op.shifted width value width := by
  have left : ∀ k, width ≤ k → value * 2 ^ k % 2 ^ width = 0 := fun k le =>
    Nat.mod_eq_zero_of_dvd (Dvd.dvd.mul_left (pow_dvd_pow 2 le) _)
  have right : ∀ k, width ≤ k → value / 2 ^ k = 0 := fun k le =>
    Nat.div_eq_of_lt (lt_of_lt_of_le lt (Nat.pow_le_pow_right (by decide) le))
  have bounds := signedValue_bounds pos lt
  have double : (2 : Int) ^ width = 2 * 2 ^ (width - 1) := by
    exact_mod_cast two_pow_eq_double pos
  have arithmetic := div_two_pow_min (z := signedValue width value) (n := width) (k := amount)
    (by linarith [bounds.1]) (by linarith [bounds.2])
  rw [min_eq_right far] at arithmetic
  unfold shifted
  split
  · rw [left amount far, left width le_rfl]
  · rw [arithmetic]
  · rw [right amount far, right width le_rfl]

theorem shifted_eq_far_iff (pos : 1 ≤ width) (lt : value < 2 ^ width) :
    op.shifted width value amount = op.shifted width value width ↔
      ShiftedOut op width value amount := by
  have bounds := signedValue_bounds pos lt
  have double : (2 : Int) ^ width = 2 * 2 ^ (width - 1) := by
    exact_mod_cast two_pow_eq_double pos
  unfold shifted ShiftedOut
  split
  · rw [Nat.mul_mod_left]
  · rw [residue_inj pos (ediv_bounds bounds _) (ediv_bounds bounds _)]
    have power : (0 : Int) < 2 ^ amount := by positivity
    rcases lt_or_ge (signedValue width value) 0 with negative | nonneg
    · have far : signedValue width value / 2 ^ width = -1 :=
        Int.ediv_eq_neg_one_of_neg_of_le negative (by linarith [bounds.1])
      rw [far, Int.ediv_eq_iff_of_pos power]
      constructor
      · rintro ⟨low, high⟩
        exact ⟨by linarith, by linarith⟩
      · rintro ⟨low, high⟩
        exact ⟨by linarith, by linarith⟩
    · have far : signedValue width value / 2 ^ width = 0 :=
        Int.ediv_eq_zero_of_lt nonneg (by linarith [bounds.2])
      rw [far, Int.ediv_eq_iff_of_pos power]
      constructor
      · rintro ⟨low, high⟩
        exact ⟨by linarith, by linarith⟩
      · rintro ⟨low, high⟩
        exact ⟨by linarith, by linarith⟩
  · rw [Nat.div_eq_of_lt lt, Nat.div_eq_zero_iff]
    simp

theorem residue_toInt_of_ge (h : a.Valid) (le : width ≤ a.bits) :
    residue width a.toInt = a.toNat % 2 ^ width := by
  have narrowed := denote_residue (signed_stores h).valid
    (n := width) (by rw [(signed_stores h).bits_eq]; exact le.trans (packed_bits true a.bits).ge)
  rw [signed_denote h, (signed_stores h).toNat_eq] at narrowed
  exact narrowed

theorem residue_toInt_of_lt (h : a.Valid) (wider : a.bits < width) :
    residue width a.toInt =
      if a.msb = true then a.toNat + (2 ^ width - 2 ^ a.bits) else a.toNat := by
  have lt := h.toNat_lt
  have below : 2 ^ a.bits ≤ 2 ^ width := Nat.pow_le_pow_right (by decide) wider.le
  rw [toInt_eq h]
  split
  · apply residue_eq_of_lt (q := 1) (by omega)
    push_cast [below]
    ring
  · exact residue_of_lt (by omega)

theorem mod_of_lt_width (h : a.Valid) (wider : a.bits < width) :
    a.toNat % 2 ^ width = a.toNat :=
  Nat.mod_eq_of_lt (h.toNat_lt.trans (Nat.pow_lt_pow_right (by decide) wider))

theorem extended_ge (h : a.Valid) (wider : a.bits < width) :
    2 ^ (width - 1) ≤ a.toNat + (2 ^ width - 2 ^ a.bits) ∧ a.toNat < 2 ^ (width - 1) ∧
      a.toNat + (2 ^ width - 2 ^ a.bits) < 2 ^ width := by
  have lt := h.toNat_lt
  have double := two_pow_eq_double (show 1 ≤ width by omega)
  have below : 2 ^ a.bits ≤ 2 ^ (width - 1) := Nat.pow_le_pow_right (by decide) (by omega)
  omega

theorem shiftValue_mem (op : IlScalarOp) (width : Nat) (a : BitVec) :
    op.shiftValue width a ∈ readings width a := by
  unfold shiftValue readings
  split <;> simp

theorem readings_lt {value : Nat} (mem : value ∈ readings width a) : value < 2 ^ width := by
  rcases mem_cons.mp mem with rfl | mem
  · exact Nat.mod_lt _ (by positivity)
  · rw [mem_singleton.mp mem]
    exact residue_lt _ _

theorem lt_two_pow_pred (pos : 1 ≤ width) : width ≤ 2 ^ (width - 1) := by
  have := (width - 1).lt_two_pow_self
  omega

/-- Both readings of the amount shift as the amount itself does, unless it changes sides and the
value is not shifted out anyway. -/
theorem amounts_iff (h : b.Valid) (pos : 1 ≤ width) (lt : value < 2 ^ width) :
    (∀ amount ∈ readings width b, op.shifted width value amount = op.shifted width value b.toNat) ↔
      (AmountChanges width b → ShiftedOut op width value (b.toNat % 2 ^ width)) := by
  have small := lt_two_pow_pred pos
  have double := two_pow_eq_double pos
  have bounded := h.toNat_lt
  have pair : (∀ amount ∈ readings width b,
      op.shifted width value amount = op.shifted width value b.toNat) ↔
      op.shifted width value (b.toNat % 2 ^ width) = op.shifted width value b.toNat ∧
        op.shifted width value (residue width b.toInt) = op.shifted width value b.toNat := by
    simp [readings]
  rw [pair]
  unfold AmountChanges
  rcases lt_or_ge b.bits width with narrower | wide
  · rw [mod_of_lt_width h narrower, residue_toInt_of_lt h narrower]
    by_cases top : b.msb = true
    · have extended := extended_ge h narrower
      rw [if_pos top, shifted_far pos lt (by omega : width ≤ b.toNat + (2 ^ width - 2 ^ b.bits))]
      rcases lt_or_ge b.toNat width with inside | far
      · rw [eq_comm (a := op.shifted width value width), shifted_eq_far_iff pos lt]
        simp [narrower, top, inside]
      · rw [shifted_far pos lt far]
        simp [not_lt.mpr far]
    · simp [top, narrower.le]
  · rw [residue_toInt_of_ge h wide, and_self_iff]
    rcases lt_or_ge b.toNat (2 ^ width) with fits | cut
    · rw [Nat.mod_eq_of_lt fits]
      simp [not_le.mpr fits, not_lt.mpr wide]
    · have wider : width < b.bits := by
        by_contra same
        rw [show b.bits = width by omega] at bounded
        omega
      rw [shifted_far pos lt (by omega : width ≤ b.toNat)]
      rcases lt_or_ge (b.toNat % 2 ^ width) width with inside | far
      · rw [shifted_eq_far_iff pos lt]
        simp [wider, cut, inside]
      · rw [shifted_far pos lt far]
        simp [not_lt.mpr far, not_lt.mpr wide]

theorem values_iff (h : a.Valid) (wider : a.bits < width) :
    op.shifted width a.toNat amount =
        op.shifted width (a.toNat + (2 ^ width - 2 ^ a.bits)) amount ↔
      Covers op width a amount := by
  obtain ⟨high, low, below⟩ := extended_ge h wider
  unfold shifted
  split
  · rw [Nat.add_mul, Nat.sub_mul, ← pow_add 2 a.bits]
    have dvd : 2 ^ (a.bits + amount) ≤ 2 ^ width * 2 ^ amount := by
      rw [← pow_add]
      exact Nat.pow_le_pow_right (by decide) (by omega)
    constructor
    · intro same
      have zero := (Nat.modEq_iff_dvd' (Nat.le_add_right _ _)).mp same
      rw [Nat.add_sub_cancel_left] at zero
      have other : 2 ^ width ∣ 2 ^ (a.bits + amount) :=
        (Nat.dvd_sub_iff_right dvd (Nat.dvd_mul_right _ _)).mp zero
      exact (Nat.pow_dvd_pow_iff_le_right (by decide)).mp other
    · intro covered
      have other : 2 ^ width ∣ 2 ^ (a.bits + amount) := pow_dvd_pow 2 covered
      have zero := Nat.dvd_sub (Nat.dvd_mul_right (2 ^ width) (2 ^ amount)) other
      exact ((Nat.modEq_iff_dvd' (Nat.le_add_right _ _)).mpr (by rwa [Nat.add_sub_cancel_left]))
  · refine iff_of_false (fun same => ?_) fun impossible => impossible
    have pos : 1 ≤ width := by omega
    have boundsLow := signedValue_bounds pos (show a.toNat < 2 ^ width by omega)
    have boundsHigh := signedValue_bounds pos below
    rw [residue_inj pos (ediv_bounds boundsLow _) (ediv_bounds boundsHigh _)] at same
    have nonneg : 0 ≤ signedValue width a.toNat / 2 ^ amount := by
      rw [signedValue, if_neg (not_le.mpr low)]
      positivity
    have negative : signedValue width (a.toNat + (2 ^ width - 2 ^ a.bits)) / 2 ^ amount < 0 := by
      rw [signedValue, if_pos high]
      refine Int.ediv_neg_of_neg_of_pos ?_ (by positivity)
      have : ((a.toNat + (2 ^ width - 2 ^ a.bits) : Nat) : Int) < 2 ^ width := by
        exact_mod_cast below
      linarith
    omega
  · have covers : Covers op width a amount ↔ width ≤ amount := by
      unfold Covers
      split <;> simp_all
    rw [covers]
    rcases lt_or_ge amount width with inside | far
    · have power : 2 ^ (width - 1) = 2 ^ (width - 1 - amount) * 2 ^ amount := by
        rw [← pow_add]
        congr 1
        omega
      have upper : 2 ^ (width - 1 - amount) ≤ (a.toNat + (2 ^ width - 2 ^ a.bits)) / 2 ^ amount := by
        rw [Nat.le_div_iff_mul_le (by positivity), ← power]
        exact high
      have lower : a.toNat / 2 ^ amount < 2 ^ (width - 1 - amount) := by
        rw [Nat.div_lt_iff_lt_mul (by positivity), ← power]
        exact low
      omega
    · have power : 2 ^ width ≤ 2 ^ amount := Nat.pow_le_pow_right (by decide) far
      rw [Nat.div_eq_of_lt (by omega), Nat.div_eq_of_lt (by omega)]
      simp [far]

theorem shifts_iff (ha : a.Valid) (hb : b.Valid) (pos : 1 ≤ width) :
    (∀ value ∈ readings width a, ∀ amount ∈ readings width b, op.shifted width value amount =
        op.shifted width (op.shiftValue width a) b.toNat) ↔ ShiftExact op width a b := by
  have meant := shiftValue_mem op width a
  have amounts : (∀ amount ∈ readings width b, op.shifted width (op.shiftValue width a) amount =
      op.shifted width (op.shiftValue width a) b.toNat) ↔ (AmountChanges width b →
        ShiftedOut op width (op.shiftValue width a) (b.toNat % 2 ^ width)) :=
    amounts_iff hb pos (readings_lt meant)
  constructor
  · intro all
    refine ⟨amounts.mp fun amount mem => all _ meant amount mem, fun wider top amount mem => ?_⟩
    have plain := all (a.toNat % 2 ^ width) (by simp [readings]) amount mem
    have extended := all (residue width a.toInt) (by simp [readings]) amount mem
    rw [mod_of_lt_width ha wider] at plain
    rw [residue_toInt_of_lt ha wider, if_pos top] at extended
    exact (values_iff ha wider).mp (plain.trans extended.symm)
  · rintro ⟨changes, covers⟩ value mem amount memAmount
    rw [← amounts.mpr changes amount memAmount]
    by_cases shows : a.bits < width ∧ a.msb = true
    · have same := (values_iff ha shows.1).mpr (covers shows.1 shows.2 amount memAmount)
      have either : ∀ other ∈ readings width a,
          op.shifted width other amount = op.shifted width a.toNat amount := by
        intro other memOther
        unfold readings at memOther
        rw [mod_of_lt_width ha shows.1, residue_toInt_of_lt ha shows.1, if_pos shows.2] at memOther
        rcases mem_cons.mp memOther with rfl | memOther
        · rfl
        · rw [mem_singleton.mp memOther, same]
      rw [either value mem, either _ meant]
    · have single : residue width a.toInt = a.toNat % 2 ^ width := by
        rcases lt_or_ge a.bits width with wider | narrow
        · rw [residue_toInt_of_lt ha wider, if_neg fun top => shows ⟨wider, top⟩,
            mod_of_lt_width ha wider]
        · exact residue_toInt_of_ge ha narrow
      have one : ∀ other ∈ readings width a, other = a.toNat % 2 ^ width := by
        intro other memOther
        unfold readings at memOther
        rw [single] at memOther
        simpa using memOther
      rw [one value mem, one _ meant]

end Shifts

/-! ## Exactness -/

section Exactness

variable {op : IlScalarOp} {width : Nat} {a b : BitVec} {operands others rest : List BitVec}

/-- Equal bit vectors, with whichever sign flags. -/
def EqualOperands : List BitVec → List BitVec → Prop :=
  List.Forall₂ fun a b => b.Valid ∧ a.eq b = true

theorem returns_unique {call : OptionT Option BitVec} {m n : Option Nat}
    (first : Returns call width m) (second : Returns call width n) : m = n := by
  obtain ⟨result, run, -, value⟩ := first
  obtain ⟨result', run', -, value'⟩ := second
  rw [run] at run'
  cases run'
  rw [value] at value'
  exact Option.map_injective (fun x y same => (Prod.mk.inj same).2) value'

theorem toInt_eq_of_eq (ha : a.Valid) (hb : b.Valid) (same : a.eq b = true) :
    a.bits = b.bits ∧ a.toNat = b.toNat ∧ a.toInt = b.toInt := by
  obtain ⟨bits, value⟩ := (eq_iff ha hb).mp same
  exact ⟨bits, value, by rw [toInt, toInt, bits, value]⟩

theorem meaning_congr (valid : ∀ a ∈ operands, a.Valid) (equal : EqualOperands operands others) :
    op.meaning width operands = op.meaning width others := by
  cases equal with
  | nil => rfl
  | @cons a a' rest rest' same tail =>
    obtain ⟨bits, value, signed⟩ := toInt_eq_of_eq (valid a (.head _)) same.1 same.2
    simp only [meaning]
    split
    · unfold unaryMeaning
      rw [bits, value, signed]
    · cases tail with
      | nil => rfl
      | @cons b b' rest rest' same' tail' =>
        obtain ⟨bits', value', signed'⟩ := toInt_eq_of_eq
          (valid b (.tail _ (.head _))) same'.1 same'.2
        unfold binaryMeaning shiftValue tested
        simp [bits, value, signed, bits', value', signed']

theorem EqualOperands.valid : ∀ {operands others : List BitVec}, EqualOperands operands others →
    ∀ b ∈ others, b.Valid
  | _, _, .nil => nofun
  | _, _, .cons same tail => forall_mem_cons.mpr ⟨same.1, EqualOperands.valid tail⟩

theorem EqualOperands.bits : ∀ {operands others : List BitVec}, EqualOperands operands others →
    (∀ a ∈ operands, a.Valid) → (∀ a ∈ operands, a.bits = width) → ∀ b ∈ others, b.bits = width
  | _, _, .nil, _, _ => nofun
  | _, _, .cons same tail, valid, widths => by
    obtain ⟨validA, valid⟩ := forall_mem_cons.mp valid
    obtain ⟨widthA, widths⟩ := forall_mem_cons.mp widths
    refine forall_mem_cons.mpr ⟨?_, EqualOperands.bits tail valid widths⟩
    exact ((eq_iff validA same.1).mp same.2).1.symm.trans widthA

theorem EqualOperands.refl (valid : ∀ a ∈ operands, a.Valid) : EqualOperands operands operands :=
  forall₂_same.mpr fun a mem => ⟨valid a mem, (eq_iff (valid a mem) (valid a mem)).mpr ⟨rfl, rfl⟩⟩

theorem exists_flagged (h : a.Valid) {value : Nat} (mem : value ∈ readings width a) :
    ∃ a', a'.Valid ∧ a.eq a' = true ∧ residue width a'.denote = value := by
  have unsigned := unsigned_stores h
  have signed := signed_stores h
  rcases mem_cons.mp mem with rfl | mem
  · refine ⟨a.unsigned, unsigned.valid, (eq_iff h unsigned.valid).mpr
      ⟨(unsigned_bits h).symm, unsigned.toNat_eq.symm⟩, ?_⟩
    rw [unsigned_denote h, residue_natCast]
  · refine ⟨a.signed, signed.valid, (eq_iff h signed.valid).mpr ⟨?_, signed.toNat_eq.symm⟩, ?_⟩
    · rw [signed.bits_eq]
      exact (packed_bits true a.bits).symm
    · rw [mem_singleton.mp mem, signed_denote h]

theorem denote_mem_readings {a' : BitVec} (h : a.Valid) (h' : a'.Valid) (same : a.eq a' = true) :
    residue width a'.denote ∈ readings width a := by
  obtain ⟨-, value, signed⟩ := toInt_eq_of_eq h h' same
  unfold readings denote
  rw [value, signed]
  split
  · simp
  · rw [residue_natCast]
    simp

/-- The result is the mathematical one for every choice of sign flags, when that is what the
evaluation computes for each of them. -/
theorem exact_iff_computed (computed : List BitVec → Option Nat) (valid : ∀ a ∈ operands, a.Valid)
    (returns : ∀ others, EqualOperands operands others →
      Returns (op.evaluate width others) width (computed others)) :
    (Returns (op.evaluate width operands) width (op.meaning width operands) ∧
      ∀ others, EqualOperands operands others → ∀ result,
        Returns (op.evaluate width operands) width result →
          Returns (op.evaluate width others) width result) ↔
    ∀ others, EqualOperands operands others → computed others = op.meaning width operands := by
  constructor
  · rintro ⟨right, unchanged⟩ others equal
    exact returns_unique (returns others equal) (unchanged others equal _ right)
  · intro all
    have self := EqualOperands.refl valid
    refine ⟨?_, fun others equal result before => ?_⟩
    · rw [← all operands self]
      exact returns operands self
    · rw [returns_unique before (returns operands self), all operands self, ← all others equal]
      exact returns others equal

theorem exact_of_meaning (valid : ∀ a ∈ operands, a.Valid)
    (returns : ∀ others, EqualOperands operands others →
      Returns (op.evaluate width others) width (op.meaning width others)) :
    Returns (op.evaluate width operands) width (op.meaning width operands) ∧
      ∀ others, EqualOperands operands others → ∀ result,
        Returns (op.evaluate width operands) width result →
          Returns (op.evaluate width others) width result :=
  (exact_iff_computed (op.meaning width) valid returns).mpr fun _ equal =>
    (meaning_congr valid equal).symm

theorem copies_iff (h : a.Valid) :
    (∀ value ∈ readings width a, value = a.toNat % 2 ^ width) ↔ (a.bits < width → a.msb = false) := by
  have pair : (∀ value ∈ readings width a, value = a.toNat % 2 ^ width) ↔
      residue width a.toInt = a.toNat % 2 ^ width := by
    simp [readings]
  rw [pair]
  rcases lt_or_ge a.bits width with wider | narrow
  · rw [residue_toInt_of_lt h wider, mod_of_lt_width h wider]
    have more : 2 ^ a.bits < 2 ^ width := Nat.pow_lt_pow_right (by decide) wider
    cases a.msb with
    | false => simp
    | true => simpa [wider] using show ¬ 2 ^ width - 2 ^ a.bits = 0 by omega
  · simp [residue_toInt_of_ge h narrow, not_lt.mpr narrow]

theorem uniform_of_opcode {opcode : ECodeOpcode} (selects : opcode.scalarOp = some op)
    (isUniform : op ∈ [add, sub, mul, and, or, xor, unsignedDiv, unsignedRem, signedDiv,
      signedRem, negate, not]) : opcode.hasUniformOperandWidth = true := by
  cases opcode <;> first
    | rfl
    | (cases selects; exact absurd isUniform (by decide))
    | cases selects

theorem exists_cons (count : 1 ≤ operands.length) : ∃ a rest, operands = a :: rest := by
  cases operands with
  | nil => exact absurd count (by simp)
  | cons a rest => exact ⟨a, rest, rfl⟩

theorem exists_cons_cons (count : 2 ≤ operands.length) : ∃ a b rest, operands = a :: b :: rest := by
  obtain ⟨a, tail, rfl⟩ := exists_cons (le_trans (by decide) count)
  obtain ⟨b, rest, rfl⟩ := exists_cons (Nat.le_of_succ_le_succ count)
  exact ⟨a, b, rest, rfl⟩

theorem copy_exact_iff (isCopy : op ∈ [copy, truncate]) (pos : 1 ≤ width) (le : width ≤ maxBits)
    (valid : ∀ c ∈ a :: rest, c.Valid) :
    (Returns (op.evaluate width (a :: rest)) width (op.meaning width (a :: rest)) ∧
      ∀ others, EqualOperands (a :: rest) others → ∀ result,
        Returns (op.evaluate width (a :: rest)) width result →
          Returns (op.evaluate width others) width result) ↔
    (a.bits < width → a.msb = false) := by
  obtain ⟨validA, validRest⟩ := forall_mem_cons.mp valid
  have meant : op.meaning width (a :: rest) = some (a.toNat % 2 ^ width) := by
    simp only [mem_cons, not_mem_nil, or_false] at isCopy
    rcases isCopy with rfl | rfl <;> rfl
  rw [exact_iff_computed (fun others => others.head?.map fun a => residue width a.denote) valid,
    meant, ← copies_iff validA]
  · constructor
    · intro all value mem
      obtain ⟨a', valid', same, rfl⟩ := exists_flagged validA mem
      exact Option.some.inj (all (a' :: rest) (.cons ⟨valid', same⟩ (EqualOperands.refl validRest)))
    · rintro all others (_ | ⟨same, -⟩)
      exact congrArg some (all _ (denote_mem_readings validA same.1 same.2))
  · rintro others (_ | ⟨same, -⟩)
    exact evaluate_copy_returns same.1 pos le isCopy

theorem shift_exact_iff (isShift : op ∈ [leftShift, logicalRightShift, arithmeticRightShift])
    (pos : 1 ≤ width) (le : width ≤ maxBits) (valid : ∀ c ∈ a :: b :: rest, c.Valid) :
    (Returns (op.evaluate width (a :: b :: rest)) width (op.meaning width (a :: b :: rest)) ∧
      ∀ others, EqualOperands (a :: b :: rest) others → ∀ result,
        Returns (op.evaluate width (a :: b :: rest)) width result →
          Returns (op.evaluate width others) width result) ↔
    ShiftExact op width a b := by
  obtain ⟨validA, validTail⟩ := forall_mem_cons.mp valid
  obtain ⟨validB, validRest⟩ := forall_mem_cons.mp validTail
  have meant : op.meaning width (a :: b :: rest) =
      some (op.shifted width (op.shiftValue width a) b.toNat) := by
    simp only [mem_cons, not_mem_nil, or_false] at isShift
    rcases isShift with rfl | rfl | rfl <;> rfl
  rw [exact_iff_computed (fun others => others.head?.bind fun a => others.tail.head?.map fun b =>
    op.shifted width (residue width a.denote) (residue width b.denote)) valid, meant,
    ← shifts_iff validA validB pos]
  · constructor
    · intro all value mem amount memAmount
      obtain ⟨a', validA', sameA, rfl⟩ := exists_flagged validA mem
      obtain ⟨b', validB', sameB, rfl⟩ := exists_flagged validB memAmount
      exact Option.some.inj (all (a' :: b' :: rest)
        (.cons ⟨validA', sameA⟩ (.cons ⟨validB', sameB⟩ (EqualOperands.refl validRest))))
    · rintro all others (_ | ⟨sameA, _ | ⟨sameB, -⟩⟩)
      exact congrArg some (all _ (denote_mem_readings validA sameA.1 sameA.2) _
        (denote_mem_readings validB sameB.1 sameB.2))
  · rintro others (_ | ⟨sameA, _ | ⟨sameB, -⟩⟩)
    exact evaluate_shift_returns sameA.1 sameB.1 pos le isShift

theorem evaluate_returns_meaning {opcode : ECodeOpcode} (selects : opcode.scalarOp = some op)
    (pos : 1 ≤ width) (le : width ≤ maxBits) (count : op.arity ≤ operands.length)
    (valid : ∀ a ∈ operands, a.Valid)
    (uniform : opcode.hasUniformOperandWidth = true → ∀ a ∈ operands, a.bits = width)
    (noCopy : op ∉ [copy, truncate])
    (noShift : op ∉ [leftShift, logicalRightShift, arithmeticRightShift]) :
    Returns (op.evaluate width operands) width (op.meaning width operands) := by
  by_cases unary : op.isUnary = true
  · obtain ⟨a, rest, rfl⟩ := exists_cons (by simpa [arity, unary] using count)
    have meant : op.meaning width (a :: rest) = op.unaryMeaning width a := by
      rw [meaning, if_pos unary]
    rw [meant]
    refine evaluate_unary_returns (valid a (.head _)) pos le (fun isUniform => ?_) noCopy
      unary
    refine uniform (uniform_of_opcode selects ?_) a (.head _)
    simp only [mem_cons, not_mem_nil, or_false] at isUniform ⊢
    tauto
  · obtain ⟨a, b, rest, rfl⟩ := exists_cons_cons (by simpa [arity, unary] using count)
    have meant : op.meaning width (a :: b :: rest) = op.binaryMeaning width a b := by
      rw [meaning, if_neg unary]
      rfl
    have memB : b ∈ a :: b :: rest := mem_cons_of_mem _ (.head _)
    rw [meant]
    refine evaluate_binary_returns (valid a (.head _)) (valid b memB) pos le
      (fun isUniform => ?_) noShift (Bool.eq_false_iff.mpr unary)
    have widths := uniform (uniform_of_opcode selects (by
      simp only [mem_cons, not_mem_nil, or_false] at isUniform ⊢
      tauto))
    exact ⟨widths a (.head _), widths b memB⟩

/-- Scalar evaluation is exact, and does not depend on the sign flags of its operands, exactly
where `Exact` says: for every operation that ECode has, every width of the result, and operands of
every width that the verifier takes. -/
theorem evaluate_exact_iff (opcode : ECodeOpcode) (op : IlScalarOp) (width : Nat)
    (operands : List BitVec) (selects : opcode.scalarOp = some op) (pos : 1 ≤ width)
    (le : width ≤ maxBits) (count : op.arity ≤ operands.length) (valid : ∀ a ∈ operands, a.Valid)
    (uniform : opcode.hasUniformOperandWidth = true → ∀ a ∈ operands, a.bits = width) :
    (Returns (op.evaluate width operands) width (op.meaning width operands) ∧
      ∀ others, EqualOperands operands others → ∀ result,
        Returns (op.evaluate width operands) width result →
          Returns (op.evaluate width others) width result) ↔
    op.Exact width operands := by
  by_cases isCopy : op ∈ [copy, truncate]
  · have one : 1 ≤ operands.length := le_trans (by unfold arity; split <;> decide) count
    obtain ⟨a, rest, rfl⟩ := exists_cons one
    rw [copy_exact_iff isCopy pos le valid]
    simp only [mem_cons, not_mem_nil, or_false] at isCopy
    rcases isCopy with rfl | rfl <;> exact Iff.rfl
  by_cases isShift : op ∈ [leftShift, logicalRightShift, arithmeticRightShift]
  · have two : op.arity = 2 := by
      simp only [mem_cons, not_mem_nil, or_false] at isShift
      rcases isShift with rfl | rfl | rfl <;> rfl
    obtain ⟨a, b, rest, rfl⟩ := exists_cons_cons (two ▸ count)
    rw [shift_exact_iff isShift pos le valid]
    simp only [mem_cons, not_mem_nil, or_false] at isShift
    rcases isShift with rfl | rfl | rfl <;> exact Iff.rfl
  · have exact_ : op.Exact width operands := by
      unfold Exact
      split <;> trivial
    refine iff_of_true (exact_of_meaning valid fun others equal => ?_) exact_
    exact evaluate_returns_meaning selects pos le (equal.length_eq ▸ count) equal.valid
      (fun isUniform => equal.bits valid (uniform isUniform)) isCopy isShift

/-- A sum of two bytes, one of them with a sign flag. -/
theorem evaluate_exact_bytes :
    (Returns (add.evaluate 8 [⟨.small 200, 17⟩, ⟨.small 100, 16⟩]) 8
        (add.meaning 8 [⟨.small 200, 17⟩, ⟨.small 100, 16⟩]) ∧
      ∀ others, EqualOperands [⟨.small 200, 17⟩, ⟨.small 100, 16⟩] others → ∀ result,
        Returns (add.evaluate 8 [⟨.small 200, 17⟩, ⟨.small 100, 16⟩]) 8 result →
          Returns (add.evaluate 8 others) 8 result) ↔
    add.Exact 8 [⟨.small 200, 17⟩, ⟨.small 100, 16⟩] :=
  evaluate_exact_iff .add add 8 [⟨.small 200, 17⟩, ⟨.small 100, 16⟩] rfl (by decide) (by decide)
    (by decide)
    (forall_mem_cons.mpr ⟨⟨by decide, by decide, by decide, rfl⟩,
      forall_mem_cons.mpr ⟨⟨by decide, by decide, by decide, rfl⟩, nofun⟩⟩)
    (fun _ => forall_mem_cons.mpr ⟨rfl, forall_mem_cons.mpr ⟨rfl, nofun⟩⟩)

/-- The byte 1 shifted left by the 16-bit amount 256 is 1, since the amount is cut off to 0; it
should be 0. -/
theorem leftShift_amount_cut_off :
    (leftShift.evaluate 8 [⟨.small 1, 16⟩, ⟨.small 256, 32⟩]).run = some (some ⟨.small 1, 16⟩) ∧
      ¬ Returns (leftShift.evaluate 8 [⟨.small 1, 16⟩, ⟨.small 256, 32⟩]) 8
        (leftShift.meaning 8 [⟨.small 1, 16⟩, ⟨.small 256, 32⟩]) := by
  have run : (leftShift.evaluate 8 [⟨.small 1, 16⟩, ⟨.small 256, 32⟩]).run =
      some (some ⟨.small 1, 16⟩) := by decide
  refine ⟨run, ?_⟩
  rintro ⟨result, run', -, value⟩
  cases run'
  exact absurd value (by decide)

end Exactness

end IlScalarOp

end Fugue.Il
