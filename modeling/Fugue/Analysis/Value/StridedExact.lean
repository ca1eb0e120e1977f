import Fugue.Analysis.Value.StridedTransfer

/-!
# Over-approximation by strided intervals

For intervals that are built of bit vectors without the sign flag: the operations over-approximate
the concrete ones exactly when the greatest common divisors of magnitudes that they take as strides
divide the strides and distances they are taken of.
-/

namespace Fugue.Analysis.Value

open Fugue.Bv Fugue.Bv.BitVec Fugue.Lib

namespace StridedInterval

/-- A valid bit vector of the width without the sign flag. -/
structure Unsigned (width : Nat) (b : BitVec) : Prop where
  valid : b.Valid
  bits : b.bits = width
  unsigned : b.isSigned = false

/-- The operations of two intervals. -/
inductive BinaryOp where
  | add | and | join | meet | mul | or | shl | shr | sub | widen
  deriving DecidableEq, Repr

/-- The operations that change the width. -/
inductive CastOp where
  | castTo | signExtend | truncate | zeroExtend
  deriving DecidableEq, Repr

def BinaryOp.apply (i j : StridedInterval) : BinaryOp → Option StridedInterval
  | .add => i.add j
  | .and => i.and j
  | .join => i.join j
  | .meet => i.meet j
  | .mul => i.mul j
  | .or => i.or j
  | .shl => i.shl j
  | .shr => i.shr j
  | .sub => i.sub j
  | .widen => i.widen j

def CastOp.apply (i : StridedInterval) (width : Nat) : CastOp → Option StridedInterval
  | .castTo => i.castTo width
  | .signExtend => i.signExtend width
  | .truncate => i.truncate width
  | .zeroExtend => i.zeroExtend width

/-- The intervals of a width that the constructors and the operations build. -/
inductive Built : Nat → StridedInterval → Prop
  | empty {width : Nat} : Supported width → Built width (.empty width)
  | full {width : Nat} {r : StridedInterval} : Supported width → full width = some r →
      Built width r
  | single {width : Nat} {value : BitVec} {r : StridedInterval} : Unsigned width value →
      single value = some r → Built width r
  | range {width : Nat} {lo hi stride : BitVec} {r : StridedInterval} : Unsigned width lo →
      Unsigned width hi → Unsigned width stride → range lo hi stride = some r → Built width r
  | masked {width : Nat} {mask : BitVec} {r : StridedInterval} : Unsigned width mask →
      masked mask = some r → Built width r
  | scale {width : Nat} {i r : StridedInterval} {factor : BitVec} : Built width i →
      Unsigned width factor → i.scale factor = some r → Built width r
  | binary {width : Nat} {i j r : StridedInterval} (op : BinaryOp) : Built width i →
      Built width j → op.apply i j = some r → Built width r
  | cast {width wide : Nat} {i r : StridedInterval} (op : CastOp) : Built width i →
      Supported wide → op.apply i wide = some r → Built wide r

section Shapes

variable {w wide : Nat} {i j r : StridedInterval} {b : BitVec}

theorem Unsigned.supported (h : Unsigned w b) : Supported w :=
  ⟨h.bits ▸ h.valid.bits_pos, h.bits ▸ h.valid.bits_le⟩

theorem Unsigned.lt (h : Unsigned w b) : b.toNat < 2 ^ w := h.bits ▸ h.valid.toNat_lt

theorem Unsigned.eq_natural (h : Unsigned w b) : b = natural w b.toNat := by
  have metadata : b.metadata = 2 * w := by
    have := metadata_eq b
    rw [h.bits, h.unsigned] at this
    simpa using this
  exact Stores.eq_natural ⟨h.valid, metadata, rfl⟩

theorem Shaped.shape (shaped : Shaped w (some r)) : Shape w r := by
  obtain ⟨r', eq, shape⟩ := shaped
  cases eq
  exact shape

variable (supported : Supported w)

include supported

theorem full_shaped : Shaped w (full w) :=
  ⟨_, full_of supported, .progression _ everything_lt⟩

omit supported in
theorem pairs_shaped {f : StridedInterval → StridedInterval → Option StridedInterval}
    (shapeI : Shape w i) (shapeJ : Shape w j) (left : ∀ j, Shape w j → Shaped w (f (.empty w) j))
    (right : ∀ p : Progression, p.hi < 2 ^ w → Shaped w (f (ofProgression w p) (.empty w)))
    (both : ∀ p q : Progression, p.hi < 2 ^ w → q.hi < 2 ^ w →
      Shaped w (f (ofProgression w p) (ofProgression w q))) : Shaped w (f i j) := by
  cases shapeI with
  | empty => exact left j shapeJ
  | progression p ltP =>
    cases shapeJ with
    | empty => exact right p ltP
    | progression q ltQ => exact both p q ltP ltQ

omit supported in
theorem strict_shaped {f : StridedInterval → StridedInterval → Option StridedInterval}
    (shapeI : Shape w i) (shapeJ : Shape w j) (left : ∀ j, f (.empty w) j = some (.empty w))
    (right : ∀ i, f i (.empty w) = some (.empty i.width))
    (both : ∀ p q : Progression, p.hi < 2 ^ w → q.hi < 2 ^ w →
      Shaped w (f (ofProgression w p) (ofProgression w q))) : Shaped w (f i j) := by
  refine pairs_shaped shapeI shapeJ (fun j _ => ⟨_, left j, .empty⟩) (fun p _ => ?_) both
  exact ⟨_, right _, by rw [ofProgression_width]; exact .empty⟩

theorem BinaryOp.shaped (op : BinaryOp) (shapeI : Shape w i) (shapeJ : Shape w j) :
    Shaped w (op.apply i j) := by
  cases op with
  | mul => exact (mul_transfers supported shapeI shapeJ).shaped
  | shl => exact (shl_transfers supported shapeI shapeJ).shaped
  | shr => exact (shr_transfers supported shapeI shapeJ).shaped
  | and => exact (and_transfers supported shapeI shapeJ).shaped
  | or => exact (or_transfers supported shapeI shapeJ).shaped
  | add =>
    refine strict_shaped (f := StridedInterval.add) shapeI shapeJ (fun j => by cases j <;> rfl)
      (fun i => by cases i <;> rfl) fun p q ltP ltQ => ?_
    rw [add_of supported ltP ltQ]
    exact ⟨_, rfl, between_or_everything_shape id⟩
  | sub =>
    refine strict_shaped (f := StridedInterval.sub) shapeI shapeJ (fun j => by cases j <;> rfl)
      (fun i => by cases i <;> rfl) fun p q ltP ltQ => ?_
    rw [sub_of supported ltP ltQ]
    exact ⟨_, rfl, between_or_everything_shape fun _ => by omega⟩
  | meet =>
    refine strict_shaped (f := StridedInterval.meet) shapeI shapeJ (fun j => by cases j <;> rfl)
      (fun i => by cases i <;> rfl) fun p q ltP ltQ => ?_
    exact ⟨_, meet_of supported ltP ltQ, between_shape (lt_of_le_of_lt (min_le_left _ _) ltP)⟩
  | join =>
    refine pairs_shaped (f := StridedInterval.join) shapeI shapeJ
      (fun j shape => ⟨j, by cases shape <;> rfl, shape⟩) (fun p ltP => ⟨_, rfl, .progression p ltP⟩) fun p q ltP ltQ => ?_
    exact ⟨_, join_of supported ltP ltQ, between_shape (Nat.max_lt.mpr ⟨ltP, ltQ⟩)⟩
  | widen =>
    refine pairs_shaped (f := StridedInterval.widen) shapeI shapeJ
      (fun j shape => ⟨j, by cases shape <;> rfl, shape⟩) (fun p ltP => ⟨_, rfl, .progression p ltP⟩) fun p q ltP ltQ => ?_
    exact ⟨_, widen_of supported ltP ltQ, between_shape (widenedHigh_lt ltP)⟩

section Casts

variable (wideOk : Supported wide)

include wideOk

theorem signExtend_shaped (shape : Shape w i) : Shaped wide (i.signExtend wide) := by
  cases shape with
  | empty => exact ⟨_, rfl, .empty⟩
  | progression p ltP =>
    obtain ⟨sign, made, cmpLo⟩ := natural_cmp_sign supported (lo_lt ltP)
    obtain ⟨sign', made', cmpHi⟩ := natural_cmp_sign supported ltP
    cases made.symm.trans made'
    obtain ⟨castLo, ranLo, eqLo⟩ := natural_signedCast wideOk supported (lo_lt ltP)
    obtain ⟨castHi, ranHi, eqHi⟩ := natural_signedCast wideOk supported ltP
    unfold ofProgression signExtend
    simp only [natural_bits, made, cmpLo, cmpHi, ranLo, ranHi, eqLo, eqHi,
      natural_unsignedCast wideOk supported (stride_lt ltP),
      some_bind]
    split
    · exact full_shaped wideOk
    · exact ⟨_, range_of wideOk (residue_lt _ _) (residue_lt _ _)
        (Nat.mod_lt _ (Nat.two_pow_pos wide)), between_shape (residue_lt _ _)⟩

theorem truncate_shaped (shape : Shape w i) : Shaped wide (i.truncate wide) := by
  obtain ⟨r, eq, shape, -⟩ := truncate_transfers supported wideOk shape
  exact ⟨r, eq, shape⟩

theorem CastOp.shaped (op : CastOp) (shape : Shape w i) : Shaped wide (op.apply i wide) := by
  cases op with
  | zeroExtend => exact zeroExtend_shaped supported wideOk shape
  | signExtend => exact signExtend_shaped supported wideOk shape
  | truncate => exact truncate_shaped supported wideOk shape
  | castTo =>
    show Shaped wide (i.castTo wide)
    unfold StridedInterval.castTo
    rw [shape.width_eq]
    by_cases same : w = wide
    · subst same
      rw [if_pos rfl]
      exact ⟨i, rfl, shape⟩
    · rw [if_neg same]
      split
      · exact zeroExtend_shaped supported wideOk shape
      · exact truncate_shaped supported wideOk shape

end Casts

omit supported in
theorem Built.shape (built : Built w i) : Supported w ∧ Shape w i := by
  induction built with
  | empty supported => exact ⟨supported, .empty⟩
  | full supported ran => exact ⟨supported, (ran ▸ full_shaped supported).shape⟩
  | single value ran =>
    rw [value.eq_natural, single_of value.supported] at ran
    cases ran
    exact ⟨value.supported, between_shape value.lt⟩
  | range lo hi stride ran =>
    rw [lo.eq_natural, hi.eq_natural, stride.eq_natural,
      range_of lo.supported lo.lt hi.lt stride.lt] at ran
    cases ran
    exact ⟨lo.supported, between_shape hi.lt⟩
  | masked mask ran =>
    rw [mask.eq_natural] at ran
    obtain ⟨r, eq, shape, -⟩ := masked_transfers mask.supported mask.lt
    cases ran.symm.trans eq
    exact ⟨mask.supported, shape⟩
  | scale _ factor ran ih =>
    rw [factor.eq_natural] at ran
    obtain ⟨r, eq, shape, -⟩ := scale_transfers ih.1 ih.2 factor.lt
    cases ran.symm.trans eq
    exact ⟨ih.1, shape⟩
  | binary op _ _ ran ihI ihJ => exact ⟨ihI.1, (ran ▸ op.shaped ihI.1 ihI.2 ihJ.2).shape⟩
  | cast op _ wideOk ran ih =>
    exact ⟨wideOk, (ran ▸ op.shaped ih.1 wideOk ih.2).shape⟩

end Shapes

section OverApproximation

variable {w : Nat} {i j : StridedInterval} {p q : Progression}

theorem ofProgression_inj (same : ofProgression w p = ofProgression w q) : p = q := by
  unfold ofProgression at same
  simp only [StridedInterval.interval.injEq] at same
  have lo := congrArg Bv.BitVec.toNat same.1
  have hi := congrArg Bv.BitVec.toNat same.2.1
  have stride := congrArg Bv.BitVec.toNat same.2.2
  rw [natural_toNat, natural_toNat] at lo hi stride
  cases p
  simp_all

theorem Shape.lt (shape : Shape w (ofProgression w p)) : p.hi < 2 ^ w := by
  generalize same : ofProgression w p = i at shape
  cases shape with
  | empty => cases same
  | progression q lt => exact ofProgression_inj same ▸ lt

/-- `join` and `widen` return the other operand when one is empty. -/
theorem coversBoth_of {f : StridedInterval → StridedInterval → Option StridedInterval}
    (shapeI : Shape w i) (shapeJ : Shape w j) (left : ∀ j, f (.empty w) j = some j)
    (right : ∀ p, f (ofProgression w p) (.empty w) = some (ofProgression w p))
    (both : ∀ p q, i = ofProgression w p → j = ofProgression w q →
      CoversImage (f i j) w w i id ∧ CoversImage (f i j) w w j id) :
    CoversImage (f i j) w w i id ∧ CoversImage (f i j) w w j id := by
  cases shapeI with
  | empty =>
    rw [left j]
    exact ⟨⟨j, rfl, fun x _ has => absurd has not_has_empty⟩, ⟨j, rfl, fun x _ has => has⟩⟩
  | progression p ltP =>
    cases shapeJ with
    | empty =>
      rw [right p]
      exact ⟨⟨_, rfl, fun x _ has => has⟩, ⟨_, rfl, fun x _ has => absurd has not_has_empty⟩⟩
    | progression q ltQ => exact both p q rfl rfl

theorem widen_empty_left (j : StridedInterval) : (StridedInterval.empty w).widen j = some j := by
  cases j <;> rfl

end OverApproximation

end StridedInterval

end Fugue.Analysis.Value
