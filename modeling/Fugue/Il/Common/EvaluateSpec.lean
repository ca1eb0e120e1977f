import Fugue.Bv.Api
import Fugue.Il.Common.Evaluate
import Fugue.Il.ECode.Ir

/-!
# What scalar evaluation computes

`meaning` is the mathematical result of an operation, from the residues and the signed values of
its operands and not from their sign flags. Every opcode computes it, except that a copy and a
truncation to a wider vector and the operands of a shift are cast with the sign flag, and that a
shift amount is cut off at the width of the result. `Exact` is the condition under which this does
not show.
-/

namespace Fugue.Il.IlScalarOp

open Fugue.Bv Fugue.Bv.BitVec Fugue.Lib
open OptionT (run_mk lift)

/-! ## The meaning -/

def isUnary : IlScalarOp → Bool
  | .boolNot | .copy | .countLeadingZeros | .countOnes | .negate | .not | .signExtend | .truncate
  | .zeroExtend => true
  | _ => false

/-- The number of operands that the operation reads. -/
def arity (op : IlScalarOp) : Nat := if op.isUnary then 1 else 2

/-- The result of an operation on one operand. -/
def unaryMeaning (op : IlScalarOp) (width : Nat) (a : BitVec) : Option Nat :=
  match op with
  | .copy | .truncate | .zeroExtend => some (a.toNat % 2 ^ width)
  | .signExtend => some (residue width a.toInt)
  | .not => some (residue width (-a.toNat - 1))
  | .negate => some (residue width (-a.toNat))
  | .boolNot => some (decide (a.toNat = 0)).toNat
  | .countOnes => some (onesOf a.toNat % 2 ^ width)
  | .countLeadingZeros => some ((a.bits - a.toNat.size) % 2 ^ width)
  | _ => none

/-- A shift of a residue of the width by any amount. -/
def shifted (op : IlScalarOp) (width value amount : Nat) : Nat :=
  match op with
  | .leftShift => value * 2 ^ amount % 2 ^ width
  | .arithmeticRightShift => residue width (signedValue width value / 2 ^ amount)
  | _ => value / 2 ^ amount

/-- The value operand of a shift at the width of the result, as the operation reads it. -/
def shiftValue (op : IlScalarOp) (width : Nat) (a : BitVec) : Nat :=
  match op with
  | .arithmeticRightShift => residue width a.toInt
  | _ => a.toNat % 2 ^ width

/-- A test of two operands of one width; there is none of operands of two widths. -/
def tested (test : Prop) [Decidable test] (a b : BitVec) : Option Nat :=
  if a.bits = b.bits then some (decide test).toNat else none

/-- The result of an operation on two operands. -/
def binaryMeaning (op : IlScalarOp) (width : Nat) (a b : BitVec) : Option Nat :=
  match op with
  | .add => some ((a.toNat + b.toNat) % 2 ^ width)
  | .sub => some (residue width ((a.toNat : Int) - b.toNat))
  | .mul => some (a.toNat * b.toNat % 2 ^ width)
  | .and => some (a.toNat &&& b.toNat)
  | .or => some (a.toNat ||| b.toNat)
  | .xor => some (a.toNat ^^^ b.toNat)
  | .unsignedDiv => if b.toNat = 0 then none else some (a.toNat / b.toNat)
  | .unsignedRem => if b.toNat = 0 then none else some (a.toNat % b.toNat)
  | .signedDiv => if b.toNat = 0 then none else some (residue width (a.toInt.tdiv b.toInt))
  | .signedRem => if b.toNat = 0 then none else some (residue width (a.toInt.tmod b.toInt))
  | .leftShift | .logicalRightShift | .arithmeticRightShift =>
    some (op.shifted width (op.shiftValue width a) b.toNat)
  | .boolAnd => some (decide (a.toNat ≠ 0 ∧ b.toNat ≠ 0)).toNat
  | .boolOr => some (decide (a.toNat ≠ 0 ∨ b.toNat ≠ 0)).toNat
  | .boolXor => some (decide (¬ (a.toNat = 0 ↔ b.toNat = 0))).toNat
  | .intEqual => tested (a.toNat = b.toNat) a b
  | .intNotEqual => tested (a.toNat ≠ b.toNat) a b
  | .intLess => tested (a.toNat < b.toNat) a b
  | .intLessEqual => tested (a.toNat ≤ b.toNat) a b
  | .intSignedLess => tested (a.toInt < b.toInt) a b
  | .intSignedLessEqual => tested (a.toInt ≤ b.toInt) a b
  | .carry => tested (2 ^ a.bits ≤ a.toNat + b.toNat) a b
  | .signedCarry => tested (¬ InSignedRange a.bits (a.toInt + b.toInt)) a b
  | .signedBorrow => tested (¬ InSignedRange a.bits (a.toInt - b.toInt)) a b
  | _ => none

/-- The mathematical result, modulo `2 ^ width`. -/
def meaning (op : IlScalarOp) (width : Nat) : List BitVec → Option Nat
  | a :: operands =>
    if op.isUnary then op.unaryMeaning width a
    else operands.head?.bind (op.binaryMeaning width a)
  | [] => none

/-! ## What a call returns -/

/-- The call returns a vector of the width with the residue, or nothing if there is none. -/
def Returns (call : OptionT Option BitVec) (width : Nat) (expected : Option Nat) : Prop :=
  ∃ result, call.run = some result ∧ (∀ c ∈ result, c.Valid) ∧
    result.map (fun c => (c.bits, c.toNat)) = expected.map (width, ·)

section Returns

variable {call : OptionT Option BitVec} {width n : Nat} {a b : BitVec} {rest : List BitVec}
  {expected : Option Nat}

theorem run_bind {α β : Type} {call : OptionT Option α} {value : α} (run : call.run = some (some value))
    (next : α → OptionT Option β) : (call >>= next).run = (next value).run := by
  rw [OptionT.run_bind, run]
  rfl

theorem operand_run {operands : List BitVec} {index : Nat} (found : operands[index]? = some a) :
    (operand operands index).run = some (some a) := by
  rw [operand, run_mk, found]

theorem lift_run {α : Type} {value : Option α} {result : α} (some_ : value = some result) :
    (lift value).run = some (some result) := by
  rw [some_]
  rfl

theorem returns_congr {other : OptionT Option BitVec} (same : call.run = other.run)
    (returns : Returns other width expected) : Returns call width expected := by
  obtain ⟨result, run, rest⟩ := returns
  exact ⟨result, same.trans run, rest⟩

theorem returns_none (run : call.run = some none) : Returns call width none :=
  ⟨none, run, nofun, rfl⟩

theorem returns_lift {value : Option BitVec} {metadata : Nat}
    (spec : ∃ c, value = some c ∧ c.Stores metadata n) (bits : metadata >>> 1 = width) :
    Returns (lift value) width (some n) := by
  obtain ⟨c, rfl, stores⟩ := spec
  refine ⟨some c, rfl, fun other mem => ?_, ?_⟩
  · cases mem
    exact stores.valid
  · simp [stores.bits_eq, bits, stores.toNat_eq]

theorem returns_pure {metadata : Nat} {c : BitVec} (stores : c.Stores metadata n)
    (bits : metadata >>> 1 = width) : Returns (pure c) width (some n) := by
  refine ⟨some c, rfl, fun other mem => ?_, ?_⟩
  · cases mem
    exact stores.valid
  · simp [stores.bits_eq, bits, stores.toNat_eq]

theorem returns_fromU64 (pos : 1 ≤ width) (le : width ≤ maxBits) (value : Nat) :
    Returns (lift (fromU64 value width)) width (some (value % 2 ^ width)) :=
  returns_lift (fromU64_spec value pos le) (packed_bits false width)

theorem returns_fromFlag (pos : 1 ≤ width) (le : width ≤ maxBits) (value : Bool) :
    Returns (fromFlag value width) width (some value.toNat) := by
  have small : value.toNat % 2 ^ width = value.toNat := by
    refine Nat.mod_eq_of_lt (lt_of_le_of_lt (Bool.toNat_le value) ?_)
    exact Nat.one_lt_two_pow (by omega)
  have made := returns_fromU64 pos le value.toNat
  rwa [small] at made

/-- The operand `c` is the operand `a` cast to the width, with its sign flag. -/
structure Reading (c a : BitVec) (width : Nat) : Prop where
  valid : c.Valid
  bits_eq : c.bits = width
  toNat_eq : c.toNat = residue width a.denote
  same : a.bits = width → c = a

theorem castOperand_run {operands : List BitVec} {index : Nat} (found : operands[index]? = some a)
    (valid : a.Valid) (pos : 1 ≤ width) (le : width ≤ maxBits) :
    ∃ c, (castOperand width operands index).run = some (some c) ∧ Reading c a width := by
  have lookup : ∀ next : BitVec → OptionT Option BitVec,
      (operand operands index >>= next).run = (next a).run := run_bind (operand_run found)
  by_cases same : a.bits = width
  · refine ⟨a, ?_, valid, same, ?_, fun _ => rfl⟩
    · rw [castOperand, lookup, if_pos same]
      rfl
    · rw [denote_residue valid same.ge, Nat.mod_eq_of_lt (same ▸ valid.toNat_lt)]
  · obtain ⟨c, cast, stores⟩ := cast_spec valid pos le
    refine ⟨c, ?_, stores.valid, ?_, stores.toNat_eq, fun eq => absurd eq same⟩
    · rw [castOperand, lookup, if_neg same, lift_run cast]
    · rw [stores.bits_eq, packed_bits]

theorem castOperands_returns {compute : BitVec → BitVec → OptionT Option BitVec}
    (validA : a.Valid) (validB : b.Valid) (pos : 1 ≤ width) (le : width ≤ maxBits)
    (computes : ∀ c d, Reading c a width → Reading d b width →
      Returns (compute c d) width expected) :
    Returns (castOperands compute width (a :: b :: rest)) width expected := by
  obtain ⟨c, runA, readA⟩ := castOperand_run (show (a :: b :: rest)[0]? = some a from rfl) validA pos le
  obtain ⟨d, runB, readB⟩ := castOperand_run (show (a :: b :: rest)[1]? = some b from rfl) validB pos le
  refine returns_congr ?_ (computes c d readA readB)
  rw [castOperands, run_bind runA, run_bind runB]

theorem compareOperands_returns {test : BitVec → BitVec → Option Bool} {prop : Prop}
    [Decidable prop] (pos : 1 ≤ width) (le : width ≤ maxBits)
    (tests : a.bits = b.bits → test a b = some (decide prop)) :
    Returns (compareOperands test width (a :: b :: rest)) width (tested prop a b) := by
  unfold tested
  by_cases same : a.bits = b.bits
  · rw [if_pos same]
    refine returns_congr ?_ (returns_fromFlag pos le (decide prop))
    rw [compareOperands, run_bind (operand_run rfl), run_bind (operand_run rfl), if_neg (not_not.mpr same)]
    exact run_bind (lift_run (tests same)) _
  · rw [if_neg same]
    apply returns_none
    rw [compareOperands, run_bind (operand_run rfl), run_bind (operand_run rfl), if_pos same]
    rfl

end Returns

/-! ## The operations that read no sign flag -/

section Meaning

variable {width : Nat} {a b : BitVec} {rest : List BitVec}

theorem denote_of_unsigned {c : BitVec} (isUnsigned : c.isSigned = false) : c.denote = c.toNat := by
  rw [denote, isUnsigned]
  rfl

theorem unsigned_denote (h : a.Valid) : a.unsigned.denote = a.toNat := by
  have stores := unsigned_stores h
  rw [denote_of_unsigned, stores.toNat_eq]
  rw [isSigned, stores.metadata_eq]
  simp

theorem signed_denote (h : a.Valid) : a.signed.denote = a.toInt := by
  have stores := signed_stores h
  have bits : a.signed.bits = a.bits := by rw [stores.bits_eq]; exact packed_bits true a.bits
  have flagged : a.signed.isSigned = true := by
    rw [isSigned, stores.metadata_eq]
    simp
  rw [denote, flagged, if_pos rfl, toInt, toInt, bits, stores.toNat_eq]

theorem unsigned_bits (h : a.Valid) : a.unsigned.bits = a.bits := by
  rw [(unsigned_stores h).bits_eq]
  exact packed_bits false a.bits

theorem unsignedCast_stores (h : a.Valid) (pos : 1 ≤ width) (le : width ≤ maxBits) :
    ∃ c, a.unsignedCast width = some c ∧ c.Stores (2 * width) (a.toNat % 2 ^ width) := by
  obtain ⟨c, run, stores⟩ := cast_spec (unsigned_stores h).valid pos le
  have flag : a.unsigned.isSigned = false := by
    rw [isSigned, (unsigned_stores h).metadata_eq]
    simp
  rw [unsigned_denote h, residue_natCast, flag] at stores
  exact ⟨c, run, stores⟩

theorem signedCast_stores (h : a.Valid) (pos : 1 ≤ width) (le : width ≤ maxBits) :
    ∃ c, a.signedCast width = some c ∧ c.Stores (2 * width + 1) (residue width a.toInt) := by
  obtain ⟨c, run, stores⟩ := cast_spec (signed_stores h).valid pos le
  have flag : a.signed.isSigned = true := by
    rw [isSigned, (signed_stores h).metadata_eq]
    simp
  rw [signed_denote h, flag] at stores
  exact ⟨c, run, stores⟩

theorem unsignedDivide_returns {divide : BitVec → BitVec → Option BitVec} {value : Nat → Nat → Nat}
    (ha : a.Valid) (hb : b.Valid) (bitsA : a.bits = width) (bitsB : b.bits = width)
    (pos : 1 ≤ width) (le : width ≤ maxBits)
    (divides : ∀ c d : BitVec, c.Valid → d.Valid → c.bits = width → d.bits = width →
      c.isSigned = false → d.isSigned = false → d.toNat ≠ 0 →
      ∃ e, divide c d = some e ∧ e.Stores c.metadata (value c.toNat d.toNat)) :
    Returns (if b.isZero then failure
      else if a.isSigned = false ∧ b.isSigned = false then lift (divide a b)
      else do
        let left ← lift (a.unsignedCast width)
        let right ← lift (b.unsignedCast width)
        lift (divide left right)) width
      (if b.toNat = 0 then none else some (value a.toNat b.toNat)) := by
  by_cases zero : b.toNat = 0
  · rw [if_pos ((isZero_iff hb).mpr zero), if_pos zero]
    exact returns_none rfl
  · rw [if_neg (mt (isZero_iff hb).mp zero), if_neg zero]
    split
    · have flags := ‹a.isSigned = false ∧ b.isSigned = false›
      exact returns_lift (divides a b ha hb bitsA bitsB flags.1 flags.2 zero) bitsA
    · obtain ⟨c, castA, storesA⟩ := unsignedCast_stores ha pos le
      obtain ⟨d, castB, storesB⟩ := unsignedCast_stores hb pos le
      have kept : ∀ {x : BitVec}, x.Valid → x.bits = width → x.toNat % 2 ^ width = x.toNat :=
        fun h bits => Nat.mod_eq_of_lt (bits ▸ h.toNat_lt)
      rw [kept ha bitsA] at storesA
      rw [kept hb bitsB] at storesB
      have bitsOf : ∀ {x : BitVec} {n : Nat}, x.Stores (2 * width) n → x.bits = width :=
        fun stores => stores.bits_eq.trans (packed_bits false width)
      have flagOf : ∀ {x : BitVec} {n : Nat}, x.Stores (2 * width) n → x.isSigned = false := by
        intro x n stores
        rw [isSigned, stores.metadata_eq]
        simp
      obtain ⟨e, run, stores⟩ := divides c d storesA.valid storesB.valid (bitsOf storesA)
        (bitsOf storesB) (flagOf storesA) (flagOf storesB) (by rwa [storesB.toNat_eq])
      rw [storesA.toNat_eq, storesB.toNat_eq] at stores
      refine returns_congr ?_ (returns_lift ⟨e, run, stores⟩ (bitsOf storesA))
      rw [run_bind (lift_run castA), run_bind (lift_run castB)]

variable {op : IlScalarOp}

/-- The operations that look at no sign flag, and those whose operands the verifier wants at the
width of the result. -/
theorem evaluate_binary_returns (ha : a.Valid) (hb : b.Valid)
    (pos : 1 ≤ width) (le : width ≤ maxBits)
    (uniform : op ∈ [add, sub, mul, and, or, xor, unsignedDiv, unsignedRem, signedDiv, signedRem] →
      a.bits = width ∧ b.bits = width)
    (noShift : op ∉ [leftShift, logicalRightShift, arithmeticRightShift])
    (binary : op.isUnary = false) :
    Returns (op.evaluate width (a :: b :: rest)) width (op.binaryMeaning width a b) := by
  have plain : ∀ {spec : BitVec → BitVec → Option BitVec} {n : Nat},
      a.bits = width ∧ b.bits = width →
      (∃ c, spec a b = some c ∧ c.Stores a.metadata n) →
      Returns (castOperands (fun left right => lift (spec left right)) width
        (a :: b :: rest)) width (some n) := by
    rintro spec n ⟨bitsA, bitsB⟩ computed
    refine castOperands_returns ha hb pos le fun c d readA readB => ?_
    rw [readA.same bitsA, readB.same bitsB]
    exact returns_lift computed bitsA
  have signedDivide : ∀ {spec : BitVec → BitVec → Option BitVec} {n : Nat},
      a.bits = width ∧ b.bits = width →
      (b.toNat ≠ 0 → ∃ c, spec a b = some c ∧ c.Stores a.metadata n) →
      Returns (castOperands (fun left right => if right.isZero then failure
        else lift (spec left right)) width (a :: b :: rest)) width
        (if b.toNat = 0 then none else some n) := by
    rintro spec n ⟨bitsA, bitsB⟩ computed
    refine castOperands_returns ha hb pos le fun c d readA readB => ?_
    rw [readA.same bitsA, readB.same bitsB]
    by_cases zero : b.toNat = 0
    · rw [if_pos ((isZero_iff hb).mpr zero), if_pos zero]
      exact returns_none rfl
    · rw [if_neg (mt (isZero_iff hb).mp zero), if_neg zero]
      exact returns_lift (computed zero) bitsA
  have divides : ∀ c d : BitVec, c.Valid → d.Valid → c.bits = width → d.bits = width →
      c.isSigned = false → d.isSigned = false → d.toNat ≠ 0 →
      ∃ e, c.div d = some e ∧ e.Stores c.metadata (c.toNat / d.toNat) := by
    intro c d hc hd bitsC bitsD flagC flagD nonzero
    have spec := div_spec hc hd (bitsC.trans bitsD.symm) nonzero
    rw [denote_of_unsigned flagC, denote_of_unsigned flagD, ← Int.ofNat_tdiv, residue_of_lt
      (lt_of_le_of_lt (Nat.div_le_self _ _) hc.toNat_lt)] at spec
    exact spec
  have remains : ∀ c d : BitVec, c.Valid → d.Valid → c.bits = width → d.bits = width →
      c.isSigned = false → d.isSigned = false → d.toNat ≠ 0 →
      ∃ e, c.rem d = some e ∧ e.Stores c.metadata (c.toNat % d.toNat) := by
    intro c d hc hd bitsC bitsD flagC flagD nonzero
    have spec := rem_spec hc hd (bitsC.trans bitsD.symm) nonzero
    rw [denote_of_unsigned flagC, denote_of_unsigned flagD, ← Int.ofNat_tmod, residue_of_lt
      (lt_of_le_of_lt (Nat.mod_le _ _) hc.toNat_lt)] at spec
    exact spec
  have unsignedOrder : a.bits = b.bits →
      unsignedCmp a b = some (compare a.toNat b.toNat) := by
    intro same
    unfold unsignedCmp
    split
    · exact cmp_spec ha hb same
    · rw [cmp_spec (unsigned_stores ha).valid (unsigned_stores hb).valid
        (by rw [unsigned_bits ha, unsigned_bits hb, same]), (unsigned_stores ha).toNat_eq,
        (unsigned_stores hb).toNat_eq]
  have decided : ∀ {prop : Prop} [Decidable prop] {value : Bool}, (value = true ↔ prop) →
      some value = some (decide prop) := by
    intro prop _ value iff_
    rw [Bool.eq_iff_iff.mpr (iff_.trans decide_eq_true_iff.symm)]
  have zeroA : a.isZero = decide (a.toNat = 0) := by
    rw [Bool.eq_iff_iff, isZero_iff ha, decide_eq_true_iff]
  have zeroB : b.isZero = decide (b.toNat = 0) := by
    rw [Bool.eq_iff_iff, isZero_iff hb, decide_eq_true_iff]
  cases op with
  | add =>
    obtain ⟨rfl, same⟩ := uniform (by decide)
    exact plain ⟨rfl, same⟩ (add_spec ha hb same.symm)
  | sub =>
    obtain ⟨rfl, same⟩ := uniform (by decide)
    exact plain ⟨rfl, same⟩ (sub_spec ha hb same.symm)
  | mul =>
    obtain ⟨rfl, same⟩ := uniform (by decide)
    exact plain ⟨rfl, same⟩ (mul_spec ha hb same.symm)
  | and =>
    have bits := uniform (by decide)
    exact plain bits (and_spec ha hb (bits.1.trans bits.2.symm))
  | or =>
    have bits := uniform (by decide)
    exact plain bits (or_spec ha hb (bits.1.trans bits.2.symm))
  | xor =>
    have bits := uniform (by decide)
    exact plain bits (xor_spec ha hb (bits.1.trans bits.2.symm))
  | unsignedDiv =>
    have bits := uniform (by decide)
    refine castOperands_returns ha hb pos le fun c d readA readB => ?_
    rw [readA.same bits.1, readB.same bits.2]
    exact unsignedDivide_returns ha hb bits.1 bits.2 pos le divides
  | unsignedRem =>
    have bits := uniform (by decide)
    refine castOperands_returns ha hb pos le fun c d readA readB => ?_
    rw [readA.same bits.1, readB.same bits.2]
    exact unsignedDivide_returns ha hb bits.1 bits.2 pos le remains
  | signedDiv =>
    obtain ⟨rfl, same⟩ := uniform (by decide)
    exact signedDivide ⟨rfl, same⟩ (signedDiv_spec ha hb same.symm)
  | signedRem =>
    obtain ⟨rfl, same⟩ := uniform (by decide)
    exact signedDivide ⟨rfl, same⟩ (signedRem_spec ha hb same.symm)
  | boolAnd =>
    refine returns_congr ?_ (returns_fromFlag pos le (decide (a.toNat ≠ 0 ∧ b.toNat ≠ 0)))
    rw [evaluate, run_bind (operand_run rfl), zeroA]
    by_cases first : a.toNat = 0
    · simp [first]
    · rw [if_neg (by simp [first]), run_bind (operand_run rfl), zeroB]
      simp [first]
  | boolOr =>
    refine returns_congr ?_ (returns_fromFlag pos le (decide (a.toNat ≠ 0 ∨ b.toNat ≠ 0)))
    rw [evaluate, run_bind (operand_run rfl), zeroA]
    by_cases first : a.toNat = 0
    · rw [if_neg (by simp [first]), run_bind (operand_run rfl), zeroB]
      simp [first]
    · simp [first]
  | boolXor =>
    refine returns_congr ?_ (returns_fromFlag pos le (decide (¬ (a.toNat = 0 ↔ b.toNat = 0))))
    rw [evaluate, run_bind (operand_run rfl), run_bind (operand_run rfl), zeroA, zeroB]
    by_cases first : a.toNat = 0 <;> by_cases second : b.toNat = 0 <;> simp [first, second]
  | intEqual =>
    refine compareOperands_returns pos le fun same => decided ?_
    rw [eq_iff ha hb]
    exact and_iff_right same
  | intNotEqual =>
    refine compareOperands_returns pos le fun same => decided ?_
    rw [Bool.not_eq_true', ← Bool.not_eq_true, eq_iff ha hb]
    exact not_congr (and_iff_right same)
  | intLess =>
    refine compareOperands_returns pos le fun same => ?_
    rw [unsignedOrder same]
    apply decided
    rw [beq_iff_eq, compare_lt_iff_lt]
  | intLessEqual =>
    refine compareOperands_returns pos le fun same => ?_
    rw [unsignedOrder same]
    apply decided
    rw [bne_iff_ne, ne_eq, compare_gt_iff_gt]
    exact not_lt
  | intSignedLess =>
    refine compareOperands_returns pos le fun same => ?_
    rw [signedCmp_spec ha hb same]
    apply decided
    rw [beq_iff_eq, compare_lt_iff_lt]
  | intSignedLessEqual =>
    refine compareOperands_returns pos le fun same => ?_
    rw [signedCmp_spec ha hb same]
    apply decided
    rw [bne_iff_ne, ne_eq, compare_gt_iff_gt]
    exact not_lt
  | carry =>
    refine compareOperands_returns pos le fun same => ?_
    split
    · have flags := ‹a.isSigned = false ∧ b.isSigned = false›
      exact carry_spec ha hb same flags.1 flags.2
    · have flagOf : ∀ {x : BitVec}, x.Valid → x.unsigned.isSigned = false := by
        intro x h
        rw [isSigned, (unsigned_stores h).metadata_eq]
        simp
      rw [carry_spec (unsigned_stores ha).valid (unsigned_stores hb).valid
        (by rw [unsigned_bits ha, unsigned_bits hb, same]) (flagOf ha) (flagOf hb)]
      simp [unsigned_bits ha, (unsigned_stores ha).toNat_eq, (unsigned_stores hb).toNat_eq]
  | signedCarry => exact compareOperands_returns pos le fun same => signedCarry_spec ha hb same
  | signedBorrow => exact compareOperands_returns pos le fun same => signedBorrow_spec ha hb same
  | leftShift => exact absurd (by decide) noShift
  | logicalRightShift => exact absurd (by decide) noShift
  | arithmeticRightShift => exact absurd (by decide) noShift
  | _ => cases binary

/-- The operations on one operand, except a copy and a truncation. -/
theorem evaluate_unary_returns (ha : a.Valid) (pos : 1 ≤ width)
    (le : width ≤ maxBits) (uniform : op ∈ [negate, not] → a.bits = width)
    (noCopy : op ∉ [copy, truncate]) (unary : op.isUnary = true) :
    Returns (op.evaluate width (a :: rest)) width (op.unaryMeaning width a) := by
  have read : ∀ next : BitVec → OptionT Option BitVec,
      (operand (a :: rest) 0 >>= next).run = (next a).run := run_bind (operand_run rfl)
  have cast : ∀ next : BitVec → OptionT Option BitVec, a.bits = width →
      (castOperand width (a :: rest) 0 >>= next).run = (next a).run := by
    intro next bits
    obtain ⟨c, run, reads⟩ := castOperand_run (show (a :: rest)[0]? = some a from rfl) ha pos le
    rw [run_bind run, reads.same bits]
  cases op with
  | negate =>
    have bits := uniform (by decide)
    have stores := neg_stores ha
    rw [← residue_neg ha.toNat_lt, bits] at stores
    exact returns_congr (cast _ bits) (returns_pure stores bits)
  | not =>
    have bits := uniform (by decide)
    have stores := not_stores ha
    rw [← residue_not ha.toNat_lt, bits] at stores
    exact returns_congr (cast _ bits) (returns_pure stores bits)
  | zeroExtend =>
    exact returns_congr (read _) (returns_lift (unsignedCast_stores ha pos le)
      (packed_bits false width))
  | signExtend =>
    exact returns_congr (read _) (returns_lift (signedCast_stores ha pos le)
      (packed_bits true width))
  | boolNot =>
    refine returns_congr ?_ (returns_fromFlag pos le (decide (a.toNat = 0)))
    apply congrArg (fun flag => (fromFlag flag width).run)
    rw [Bool.eq_iff_iff, isZero_iff ha, decide_eq_true_iff]
  | countOnes =>
    refine returns_congr ?_ (returns_fromU64 pos le (onesOf a.toNat))
    rw [evaluate, read, countOnes_eq ha]
  | countLeadingZeros =>
    refine returns_congr ?_ (returns_fromU64 pos le (a.bits - a.toNat.size))
    rw [evaluate, read, leadingZeros_eq ha]
  | copy => exact absurd (by decide) noCopy
  | truncate => exact absurd (by decide) noCopy
  | _ => cases unary

/-- A copy and a truncation cast with the sign flag. -/
theorem evaluate_copy_returns (ha : a.Valid) (pos : 1 ≤ width)
    (le : width ≤ maxBits) (isCopy : op ∈ [copy, truncate]) :
    Returns (op.evaluate width (a :: rest)) width (some (residue width a.denote)) := by
  have read : (operand (a :: rest) 0 >>= fun value => lift (value.cast width)).run =
      (lift (a.cast width) : OptionT Option BitVec).run := run_bind (operand_run rfl) _
  have returns := returns_lift (cast_spec ha pos le) (packed_bits a.isSigned width)
  simp only [List.mem_cons, List.not_mem_nil, or_false] at isCopy
  rcases isCopy with rfl | rfl
  · exact returns_congr read returns
  · exact returns_congr read returns

/-- A shift works on both operands as they are cast. -/
theorem evaluate_shift_returns (ha : a.Valid) (hb : b.Valid) (pos : 1 ≤ width)
    (le : width ≤ maxBits) (isShift : op ∈ [leftShift, logicalRightShift, arithmeticRightShift]) :
    Returns (op.evaluate width (a :: b :: rest)) width
      (some (op.shifted width (residue width a.denote) (residue width b.denote))) := by
  simp only [List.mem_cons, List.not_mem_nil, or_false] at isShift
  rcases isShift with rfl | rfl | rfl
  · refine castOperands_returns ha hb pos le fun c d readA readB => ?_
    have spec := shl_spec readA.valid readB.valid (readA.bits_eq.trans readB.bits_eq.symm)
    rw [readA.toNat_eq, readB.toNat_eq, readA.bits_eq] at spec
    exact returns_lift spec readA.bits_eq
  · refine castOperands_returns ha hb pos le fun c d readA readB => ?_
    have logical : ∀ e : BitVec, e.Valid → e.bits = width → e.isSigned = false →
        e.toNat = residue width a.denote → Returns (lift (e.shr d)) width
          (some (residue width a.denote / 2 ^ residue width b.denote)) := by
      intro e he bits flag value
      have spec := shr_spec he readB.valid (bits.trans readB.bits_eq.symm)
      have quotient : ((e.toNat : Int) / 2 ^ d.toNat) = ((e.toNat / 2 ^ d.toNat : Nat) : Int) := by
        rfl
      rw [denote_of_unsigned flag, quotient, residue_of_lt
        (lt_of_le_of_lt (Nat.div_le_self _ _) he.toNat_lt), value, readB.toNat_eq] at spec
      exact returns_lift spec bits
    by_cases flag : c.isSigned = false
    · rw [if_pos flag]
      exact logical c readA.valid readA.bits_eq flag readA.toNat_eq
    · obtain ⟨e, run, stores⟩ := unsignedCast_stores readA.valid pos le
      rw [Nat.mod_eq_of_lt (readA.bits_eq ▸ readA.valid.toNat_lt), readA.toNat_eq] at stores
      rw [if_neg flag]
      refine returns_congr (run_bind (lift_run run) _) (logical e stores.valid ?_ ?_ stores.toNat_eq)
      · rw [stores.bits_eq]
        exact packed_bits false width
      · rw [isSigned, stores.metadata_eq]
        simp
  · refine castOperands_returns ha hb pos le fun c d readA readB => ?_
    have spec := signedShr_spec readA.valid readB.valid (readA.bits_eq.trans readB.bits_eq.symm)
    rw [toInt, readA.toNat_eq, readB.toNat_eq, readA.bits_eq] at spec
    exact returns_lift spec readA.bits_eq

end Meaning

end Fugue.Il.IlScalarOp
