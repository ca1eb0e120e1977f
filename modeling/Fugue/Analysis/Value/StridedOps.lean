import Fugue.Analysis.Value.StridedSpec

/-!
# The operations on progressions

Each operation of the strided intervals returns the numbers between two bounds in steps of a
stride, or all numbers of the width.
-/

namespace Fugue.Bv.BitVec

variable {w a b : Nat}

theorem signedMagnitude_le (lt : a < 2 ^ w) : signedMagnitude w a ≤ a := by
  unfold signedMagnitude
  have double : 2 ^ w ≤ 2 * 2 ^ (w - 1) := by
    rw [← pow_succ']
    exact Nat.pow_le_pow_right (by decide) (by omega)
  split <;> omega

theorem strideGcd_le_left (ltA : a < 2 ^ w) (ne : a ≠ 0) : strideGcd w a b ≤ a := by
  unfold strideGcd
  rw [if_neg ne]
  split
  · exact le_rfl
  · exact (Nat.gcd_le_left _ (signedMagnitude_pos ltA ne)).trans (signedMagnitude_le ltA)

theorem strideGcd_lt (ltA : a < 2 ^ w) (ltB : b < 2 ^ w) : strideGcd w a b < 2 ^ w := by
  by_cases zero : a = 0
  · rw [strideGcd, if_pos zero]
    exact ltB
  · exact lt_of_le_of_lt (strideGcd_le_left ltA zero) ltA

theorem strideGcd_eq_zero (ltA : a < 2 ^ w) (zero : strideGcd w a b = 0) : a = 0 ∧ b = 0 := by
  unfold strideGcd at zero
  split at zero
  · exact ⟨‹_›, zero⟩
  · rename_i ne
    split at zero
    · exact ⟨zero, ‹_›⟩
    · have := Nat.gcd_pos_of_pos_left (signedMagnitude w b) (signedMagnitude_pos ltA ne)
      omega

end Fugue.Bv.BitVec

namespace Fugue.Analysis.Value

open Fugue.Bv Fugue.Bv.BitVec Fugue.Lib

namespace StridedInterval

variable {w : Nat} {p q : Progression} (supported : Supported w)

@[simp] theorem ofProgression_width : (ofProgression w p).width = w := natural_bits

include supported

theorem meet_of (ltP : p.hi < 2 ^ w) (ltQ : q.hi < 2 ^ w) :
    (ofProgression w p).meet (ofProgression w q) =
      some (between w (max p.lo q.lo) (min p.hi q.hi) (strideGcd w p.stride q.stride)) := by
  have lo : max p.lo q.lo < 2 ^ w := Nat.max_lt.mpr ⟨lo_lt ltP, lo_lt ltQ⟩
  have hi : min p.hi q.hi < 2 ^ w := lt_of_le_of_lt (min_le_left _ _) ltP
  unfold ofProgression meet
  simp only [some_bind, greatest_of supported (lo_lt ltP) (lo_lt ltQ),
    least_of supported ltP ltQ, natural_cmp supported lo hi, Nat.compare_eq_gt,
    natural_gcd supported (stride_lt ltP) (stride_lt ltQ), width, natural_bits]
  split
  · rw [between, dif_neg (by omega)]
  · exact range_of supported lo hi (strideGcd_lt (stride_lt ltP) (stride_lt ltQ))

theorem distance_of {a b : Nat} (ltA : a < 2 ^ w) (ltB : b < 2 ^ w) :
    distance (natural w a) (natural w b) = some (natural w (a - b + (b - a))) := by
  unfold distance
  simp only [some_bind, natural_cmp supported ltA ltB, Nat.compare_eq_lt]
  split
  · rw [natural_sub supported ltB (by omega), show a - b + (b - a) = b - a by omega]
  · rw [natural_sub supported ltA (by omega), show a - b + (b - a) = a - b by omega]

theorem join_of (ltP : p.hi < 2 ^ w) (ltQ : q.hi < 2 ^ w) :
    (ofProgression w p).join (ofProgression w q) =
      some (between w (min p.lo q.lo) (max p.hi q.hi)
        (strideGcd w (strideGcd w p.stride q.stride) (p.lo - q.lo + (q.lo - p.lo)))) := by
  have strides := strideGcd_lt (stride_lt ltP) (stride_lt ltQ)
  have offset : p.lo - q.lo + (q.lo - p.lo) < 2 ^ w := by
    have := lo_lt ltP
    have := lo_lt ltQ
    omega
  unfold ofProgression join
  simp only [some_bind, least_of supported (lo_lt ltP) (lo_lt ltQ),
    greatest_of supported ltP ltQ, natural_gcd supported (stride_lt ltP) (stride_lt ltQ),
    distance_of supported (lo_lt ltP) (lo_lt ltQ), natural_gcd supported strides offset]
  exact range_of supported (lt_of_le_of_lt (min_le_left _ _) (lo_lt ltP))
    (Nat.max_lt.mpr ⟨ltP, ltQ⟩) (strideGcd_lt strides offset)

/-- The lower bound of `widen`. -/
def widenedLow (p q : Progression) : Nat := if q.lo < p.lo then 0 else p.lo

/-- The upper bound of `widen`. -/
def widenedHigh (w : Nat) (p q : Progression) : Nat := if p.hi < q.hi then 2 ^ w - 1 else p.hi

omit supported in
theorem widenedLow_le_left : widenedLow p q ≤ p.lo := by
  unfold widenedLow
  split <;> omega

omit supported in
theorem widenedLow_le_right : widenedLow p q ≤ q.lo := by
  unfold widenedLow
  split <;> omega

omit supported in
theorem le_widenedHigh_left (ltP : p.hi < 2 ^ w) : p.hi ≤ widenedHigh w p q := by
  unfold widenedHigh
  split <;> omega

omit supported in
theorem le_widenedHigh_right (ltQ : q.hi < 2 ^ w) : q.hi ≤ widenedHigh w p q := by
  unfold widenedHigh
  split <;> omega

omit supported in
theorem widenedHigh_lt (ltP : p.hi < 2 ^ w) : widenedHigh w p q < 2 ^ w := by
  unfold widenedHigh
  split <;> omega

/-- The stride of `widen`. -/
def widenedStride (w : Nat) (p q : Progression) : Nat :=
  strideGcd w (strideGcd w (strideGcd w p.stride q.stride) (p.lo - widenedLow p q))
    (q.lo - widenedLow p q)

theorem widenedLower_of (ltP : p.lo < 2 ^ w) (ltQ : q.lo < 2 ^ w) :
    widenedLower (natural w p.lo) (natural w q.lo) = some (natural w (widenedLow p q)) := by
  unfold widenedLower widenedLow
  simp only [some_bind, natural_cmp supported ltQ ltP, Nat.compare_eq_lt, natural_bits]
  split
  · exact zero_of supported
  · rfl

section

variable (ltP : p.hi < 2 ^ w) (ltQ : q.hi < 2 ^ w)
include ltP ltQ

theorem widenedUpper_of :
    widenedUpper (natural w p.hi) (natural w q.hi) = some (natural w (widenedHigh w p q)) := by
  unfold widenedUpper widenedHigh
  simp only [some_bind, natural_cmp supported ltQ ltP, Nat.compare_eq_gt, natural_bits]
  split
  · exact natural_maxValueWith supported
  · rfl

theorem widen_of :
    (ofProgression w p).widen (ofProgression w q) =
      some (between w (widenedLow p q) (widenedHigh w p q) (widenedStride w p q)) := by
  have strides := strideGcd_lt (stride_lt ltP) (stride_lt ltQ)
  have low := lo_lt ltP
  have lowQ := lo_lt ltQ
  have lower : widenedLow p q < 2 ^ w := lt_of_le_of_lt widenedLow_le_left low
  have offset : p.lo - widenedLow p q < 2 ^ w := by omega
  have offsetQ : q.lo - widenedLow p q < 2 ^ w := by omega
  have inner := strideGcd_lt strides offset
  unfold ofProgression widen
  simp only [some_bind, widenedLower_of supported low lowQ,
    widenedUpper_of supported ltP ltQ, natural_gcd supported (stride_lt ltP) (stride_lt ltQ),
    natural_sub supported low widenedLow_le_left, natural_sub supported lowQ widenedLow_le_right,
    natural_gcd supported strides offset, natural_gcd supported inner offsetQ]
  exact range_of supported lower (widenedHigh_lt ltP) (strideGcd_lt inner offsetQ)

theorem add_of :
    (ofProgression w p).add (ofProgression w q) = some (if p.hi + q.hi < 2 ^ w then
      between w (p.lo + q.lo) (p.hi + q.hi) (strideGcd w p.stride q.stride)
      else ofProgression w (everything w)) := by
  have leP := p.le
  have leQ := q.le
  have strides := strideGcd_lt (stride_lt ltP) (stride_lt ltQ)
  unfold ofProgression add
  simp only [some_bind, natural_bits, natural_maxValueWith supported,
    natural_sub supported (Nat.sub_lt (Nat.two_pow_pos w) Nat.one_pos)
      (show q.hi ≤ 2 ^ w - 1 by omega),
    natural_cmp supported ltP (show 2 ^ w - 1 - q.hi < 2 ^ w by omega), Nat.compare_eq_gt,
    natural_add supported (lo_lt ltP) (lo_lt ltQ), natural_add supported ltP ltQ,
    natural_gcd supported (stride_lt ltP) (stride_lt ltQ)]
  by_cases fits : p.hi + q.hi < 2 ^ w
  · rw [if_pos fits, if_neg (by omega), Nat.mod_eq_of_lt fits, Nat.mod_eq_of_lt (by omega)]
    exact range_of supported (by omega) fits strides
  · rw [if_neg fits, if_pos (by omega)]
    exact full_of supported

theorem sub_of :
    (ofProgression w p).sub (ofProgression w q) = some (if q.hi ≤ p.lo then
      between w (p.lo - q.hi) (p.hi - q.lo) (strideGcd w p.stride q.stride)
      else ofProgression w (everything w)) := by
  have leP := p.le
  have leQ := q.le
  have strides := strideGcd_lt (stride_lt ltP) (stride_lt ltQ)
  unfold ofProgression sub
  simp only [some_bind, natural_bits, natural_cmp supported (lo_lt ltP) ltQ, Nat.compare_eq_lt]
  by_cases above : q.hi ≤ p.lo
  · rw [if_pos above, if_neg (by omega), natural_sub supported (lo_lt ltP) above,
      natural_sub supported ltP (by omega), natural_gcd supported (stride_lt ltP) (stride_lt ltQ)]
    exact range_of supported (by omega) (by omega) strides
  · rw [if_neg above, if_pos (by omega)]
    exact full_of supported

end

theorem scale_of {factor : Nat} (ltP : p.hi < 2 ^ w) (ltFactor : factor < 2 ^ w) :
    (ofProgression w p).scale (natural w factor) =
      some (if p.hi * factor < 2 ^ w then
        between w (p.lo * factor) (p.hi * factor) (p.stride * factor)
      else ofProgression w (everything w)) := by
  have products : p.lo * factor ≤ p.hi * factor := Nat.mul_le_mul_right _ p.le
  have steps : p.stride * factor ≤ p.hi * factor :=
    Nat.mul_le_mul_right _ (p.stride_le.trans (Nat.sub_le _ _))
  have power := Nat.two_pow_pos w
  unfold ofProgression scale
  simp only [Option.bind_eq_bind, natural_bits, natural_isZero supported ltFactor,
    decide_eq_true_eq]
  by_cases zero : factor = 0
  · rw [if_pos zero, zero_of supported, Option.bind_some, single_of supported, zero,
      Nat.mul_zero, Nat.mul_zero, Nat.mul_zero, if_pos power]
  have headroom : (2 ^ w - 1) / factor < 2 ^ w :=
    lt_of_le_of_lt (Nat.div_le_self _ _) (by omega)
  have fits : ¬ (2 ^ w - 1) / factor < p.hi ↔ p.hi * factor < 2 ^ w := by
    rw [not_lt, Nat.le_div_iff_mul_le (by omega)]
    omega
  rw [if_neg zero, natural_maxValueWith supported, Option.bind_some,
    natural_div supported (by omega) ltFactor zero, Option.bind_some,
    natural_cmp supported ltP headroom, Option.bind_some]
  simp only [Nat.compare_eq_gt]
  by_cases within : p.hi * factor < 2 ^ w
  · rw [if_pos within, if_neg (fits.mpr within), natural_mul supported (lo_lt ltP) ltFactor,
      natural_mul supported ltP ltFactor, natural_mul supported (stride_lt ltP) ltFactor,
      Nat.mod_eq_of_lt within, Nat.mod_eq_of_lt (by omega), Nat.mod_eq_of_lt (by omega)]
    exact range_of supported (by omega) within (by omega)
  · rw [if_neg within, if_pos (not_not.mp (mt fits.mp within))]
    exact full_of supported

theorem toValue_of (ltP : p.hi < 2 ^ w) : (ofProgression w p).toValue =
    if p.stride = 0 then some (natural w p.lo) else none := by
  unfold ofProgression toValue
  simp [natural_isZero supported (stride_lt ltP), decide_eq_true_eq]

end StridedInterval

end Fugue.Analysis.Value
