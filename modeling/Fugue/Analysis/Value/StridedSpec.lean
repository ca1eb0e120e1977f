import Fugue.Analysis.Value.Strided
import Fugue.Bv.Natural
import Fugue.Lib.Progression

/-!
# Strided intervals as progressions

A strided interval of bit vectors without the sign flag is empty or a progression of natural
numbers below the modulus. Each operation is computed on progressions.
-/

namespace Fugue.Analysis.Value

open Fugue.Bv Fugue.Bv.BitVec Fugue.Lib Option Progression

namespace StridedInterval

def ofProgression (width : Nat) (p : Progression) : StridedInterval :=
  .interval (natural width p.lo) (natural width p.hi) (natural width p.stride)

/-- The interval of the numbers between two bounds, in steps of a stride. -/
def between (width lo hi stride : Nat) : StridedInterval :=
  if le : lo ≤ hi then ofProgression width (.ofBounds lo hi stride le) else .empty width

/-- All numbers below the modulus. -/
def everything (width : Nat) : Progression := .ofBounds 0 (2 ^ width - 1) 1 (Nat.zero_le _)

/-- The numbers of an interval, as `contains` decides. -/
def Has (i : StridedInterval) (width x : Nat) : Prop := i.contains (natural width x) = some true

/-- What an interval of unsigned bit vectors is. -/
inductive Shape (width : Nat) : StridedInterval → Prop
  | empty : Shape width (.empty width)
  | progression (p : Progression) (lt : p.hi < 2 ^ width) : Shape width (ofProgression width p)

section Constructors

variable {w lo hi stride value x : Nat} {p : Progression}

theorem lo_lt (lt : p.hi < 2 ^ w) : p.lo < 2 ^ w := lt_of_le_of_lt p.le lt

theorem stride_lt (lt : p.hi < 2 ^ w) : p.stride < 2 ^ w := by
  have := p.stride_le
  omega

theorem ofBounds_hi_lt {le : lo ≤ hi} (lt : hi < 2 ^ w) :
    (ofBounds lo hi stride le).hi < 2 ^ w :=
  lt_of_le_of_lt (ofBounds_hi_le le) lt

theorem between_shape (lt : hi < 2 ^ w) : Shape w (between w lo hi stride) := by
  unfold between
  split
  · exact .progression _ (ofBounds_hi_lt lt)
  · exact .empty

theorem everything_lt : (everything w).hi < 2 ^ w :=
  ofBounds_hi_lt (Nat.sub_lt (Nat.two_pow_pos w) (by decide))

theorem mem_everything (lt : x < 2 ^ w) : x ∈ everything w :=
  mem_ofBounds (Nat.zero_le x) (by omega) (Nat.one_dvd _)

variable (supported : Supported w)

include supported

theorem zero_of : Bv.BitVec.zero w = some (natural w 0) := by
  rw [Bv.BitVec.zero, natural_fromU64 supported, Nat.zero_mod]

theorem one_of : BitVec.one w = some (natural w 1) := by
  have lt : 1 < 2 ^ w := Nat.one_lt_two_pow (by have := supported.pos; omega)
  rw [BitVec.one, natural_fromU64 supported, Nat.mod_eq_of_lt lt]

theorem least_of {a b : Nat} (ltA : a < 2 ^ w) (ltB : b < 2 ^ w) :
    least (natural w a) (natural w b) = some (natural w (min a b)) := by
  rw [least, natural_cmp supported ltA ltB]
  simp only [some_bind, pure_def, Nat.compare_eq_gt]
  split
  · rw [Nat.min_eq_right (by omega)]
  · rw [Nat.min_eq_left (by omega)]

theorem greatest_of {a b : Nat} (ltA : a < 2 ^ w) (ltB : b < 2 ^ w) :
    greatest (natural w a) (natural w b) = some (natural w (max a b)) := by
  rw [greatest, natural_cmp supported ltA ltB]
  simp only [some_bind, pure_def, Nat.compare_eq_gt]
  split
  · rw [Nat.max_eq_left (by omega)]
  · rw [Nat.max_eq_right (by omega)]

theorem single_of : single (natural w value) = some (between w value value 0) := by
  rw [single, natural_bits, zero_of supported, between, dif_pos le_rfl, ofBounds,
    dif_pos rfl]
  rfl

theorem rounded_of {span : Nat} (ltLo : lo + span < 2 ^ w) (ltStride : stride < 2 ^ w)
    (ne : stride ≠ 0) :
    rounded (natural w lo) (natural w span) (natural w stride) =
      some (.interval (natural w lo) (natural w (lo + span / stride * stride))
        (natural w stride)) := by
  have quotient : span / stride ≤ span := Nat.div_le_self _ _
  have product : span / stride * stride ≤ span := Nat.div_mul_le_self _ _
  rw [rounded, natural_div supported (by omega) ltStride ne]
  simp only [bind_eq_bind, bind_some, pure_def]
  rw [natural_mul supported (by omega) ltStride, Nat.mod_eq_of_lt (by omega), bind_some,
    natural_add supported (by omega) (by omega), Nat.mod_eq_of_lt (by omega), bind_some]

theorem range_of (ltLo : lo < 2 ^ w) (ltHi : hi < 2 ^ w) (ltStride : stride < 2 ^ w) :
    range (natural w lo) (natural w hi) (natural w stride) = some (between w lo hi stride) := by
  rw [range, natural_cmp supported ltLo ltHi]
  simp only [bind_eq_bind, bind_some, Nat.compare_eq_gt, natural_bits,
    natural_eq supported ltLo ltHi, decide_eq_true_eq, natural_isZero supported ltStride]
  by_cases above : hi < lo
  · rw [if_pos above, between, dif_neg (by omega)]
  rw [if_neg above]
  by_cases same : lo = hi
  · subst same
    rw [if_pos rfl, single_of supported, between, between, dif_pos le_rfl, dif_pos le_rfl,
      ofBounds, ofBounds, dif_pos rfl, dif_pos rfl]
  have steps : ∀ rest : BitVec → Option StridedInterval,
      (if stride = 0 then (BitVec.one w).bind rest
        else (least (natural w stride) (natural w (hi - lo))).bind rest) =
        rest (natural w (strideWithin (hi - lo) stride)) := by
    intro rest
    unfold strideWithin
    split
    · rw [one_of supported, bind_some]
    · rw [least_of supported ltStride (by omega), bind_some]
  have positive := strideWithin_pos stride (show 0 < hi - lo by omega)
  have fits := strideWithin_le stride (show 0 < hi - lo by omega)
  rw [if_neg same, natural_sub supported ltHi (by omega), bind_some, steps,
    rounded_of supported (by omega) (by omega) (by omega), between,
    dif_pos (by omega), ofBounds, dif_neg same]
  rfl

theorem full_of : full w = some (ofProgression w (everything w)) := by
  have two : 2 ≤ 2 ^ w := Nat.le_self_pow (by have := supported.pos; omega) 2
  rw [full, zero_of supported, natural_maxValueWith supported, one_of supported]
  have whole : everything w = ⟨0, 2 ^ w - 1, 1, Nat.zero_le _, Nat.one_dvd _, by omega⟩ := by
    unfold everything ofBounds
    have stride : strideWithin (2 ^ w - 1) 1 = 1 := by
      rw [strideWithin, if_neg (by decide), min_eq_left (by omega)]
    rw [dif_neg (by omega)]
    simp [stride]
  rw [whole]
  rfl

theorem contains_of (lt : p.hi < 2 ^ w) (ltX : x < 2 ^ w) :
    (ofProgression w p).contains (natural w x) = some (decide (x ∈ p)) := by
  have ltLo := lo_lt lt
  have ltStride := stride_lt lt
  rw [ofProgression, contains, natural_cmp supported ltX ltLo, natural_cmp supported ltX lt]
  simp only [bind_eq_bind, bind_some, Nat.compare_eq_gt, Nat.compare_eq_lt,
    natural_isZero supported ltStride, decide_eq_true_eq, natural_eq supported ltX ltLo]
  by_cases below : x < p.lo
  · rw [if_pos below, decide_eq_false]
    exact fun mem => absurd mem.1 (by omega)
  rw [if_neg below]
  by_cases above : p.hi < x
  · rw [if_pos above, decide_eq_false]
    exact fun mem => absurd mem.2.1 (by omega)
  rw [if_neg above]
  by_cases isZero : p.stride = 0
  · rw [if_pos isZero]
    congr 2
    rw [mem_iff, isZero, Nat.zero_dvd]
    apply propext
    omega
  · rw [if_neg isZero, natural_sub supported ltX (by omega), bind_some,
      natural_rem supported (by omega) ltStride isZero, bind_some, pure_def,
      natural_isZero supported (lt_of_lt_of_le (Nat.mod_lt _ (by omega)) ltStride.le)]
    congr 2
    rw [mem_iff, ← Nat.dvd_iff_mod_eq_zero]
    apply propext
    constructor
    · exact fun dvd => ⟨by omega, by omega, dvd⟩
    · exact fun mem => mem.2.2

theorem has_iff (lt : p.hi < 2 ^ w) (ltX : x < 2 ^ w) :
    (ofProgression w p).Has w x ↔ x ∈ p := by
  rw [Has, contains_of supported lt ltX]
  simp

omit supported in
theorem not_has_empty : ¬ (StridedInterval.empty w).Has w x := by
  simp [Has, contains]

theorem has_between (le : lo ≤ hi) (lt : hi < 2 ^ w) (ltX : x < 2 ^ w) :
    (between w lo hi stride).Has w x ↔ x ∈ ofBounds lo hi stride le := by
  rw [between, dif_pos le]
  exact has_iff supported (ofBounds_hi_lt lt) ltX

end Constructors

end StridedInterval

end Fugue.Analysis.Value
