import Fugue.Analysis.Value.StridedOps

/-!
# When the operations over-approximate

Additions, subtractions, meets, joins and widenings take the greatest common divisor of the strides,
which is one of magnitudes in two's complement. Each of them contains the concrete results exactly
when the stride that it takes divides what it has to.
-/

namespace Fugue.Analysis.Value

open Fugue.Bv Fugue.Bv.BitVec Fugue.Lib Progression

namespace StridedInterval

/-- The result has the image of every number of the interval. -/
def CoversImage (result : Option StridedInterval) (width wide : Nat) (i : StridedInterval)
    (f : Nat → Nat) : Prop :=
  ∃ r, result = some r ∧ ∀ x < 2 ^ width, i.Has width x → r.Has wide (f x)

/-- The result has what the operation makes of every pair of numbers of the two intervals. -/
def CoversPairs (result : Option StridedInterval) (width : Nat) (i j : StridedInterval)
    (f : Nat → Nat → Nat) : Prop :=
  ∃ r, result = some r ∧
    ∀ x < 2 ^ width, ∀ y < 2 ^ width, i.Has width x → j.Has width y → r.Has width (f x y)

/-- The stride of `widen` divides both strides and the distances of the lower bounds from the
widened one. -/
def WidenExact (w : Nat) (p q : Progression) : Prop :=
  (widenedStride w p q ∣ p.lo - widenedLow p q ∧ widenedStride w p q ∣ p.stride) ∧
    (widenedStride w p q ∣ q.lo - widenedLow p q ∧ widenedStride w p q ∣ q.stride)

section Gcd

variable {w : Nat} {p q : Progression} {supported : Supported w}

theorem strideGcd_zero (ltP : p.hi < 2 ^ w) (zero : strideGcd w p.stride q.stride = 0) :
    p.lo = p.hi ∧ q.lo = q.hi := by
  obtain ⟨zeroP, zeroQ⟩ := strideGcd_eq_zero (stride_lt ltP) zero
  exact ⟨p.eq_of_stride_eq_zero zeroP, q.eq_of_stride_eq_zero zeroQ⟩

end Gcd

section Sound

variable {w : Nat} {p q : Progression} {lo hi stride : Nat} (supported : Supported w)

include supported

section

variable (ltP : p.hi < 2 ^ w)
include ltP

theorem coversImage_between_iff (ltHi : hi < 2 ^ w) (low : lo ≤ p.lo)
    (high : p.hi ≤ hi) (zero : stride = 0 → lo = hi) (fits : stride ≤ hi - lo) :
    CoversImage (some (between w lo hi stride)) w w (ofProgression w p) id ↔
      stride ∣ p.lo - lo ∧ stride ∣ p.stride := by
  have le : lo ≤ hi := by omega
  have iff : (∀ x ∈ p, x ∈ ofBounds lo hi stride le) ↔
      stride ∣ p.lo - lo ∧ stride ∣ p.stride :=
    subset_ofBounds_iff low high zero fits
  rw [← iff]
  constructor
  · rintro ⟨r, eq, covers⟩ x mem
    cases eq
    have ltX : x < 2 ^ w := lt_of_le_of_lt mem.2.1 ltP
    exact (has_between supported le ltHi ltX).mp
      (covers x ltX ((has_iff supported ltP ltX).mpr mem))
  · intro subset
    refine ⟨_, rfl, fun x ltX has => ?_⟩
    exact (has_between supported le ltHi ltX).mpr (subset x ((has_iff supported ltP ltX).mp has))

end

omit supported in
theorem widenedStride_fits (ltP : p.hi < 2 ^ w) (ltQ : q.hi < 2 ^ w) :
    widenedStride w p q ≤ widenedHigh w p q - widenedLow p q := by
  have strides := strideGcd_lt (stride_lt ltP) (stride_lt ltQ)
  have lowP := widenedLow_le_left (p := p) (q := q)
  have lowQ := widenedLow_le_right (p := p) (q := q)
  have highP := le_widenedHigh_left (q := q) ltP
  have highQ := le_widenedHigh_right (p := p) ltQ
  have leP := p.le
  have leQ := q.le
  have offset : p.lo - widenedLow p q < 2 ^ w := by omega
  have inner := strideGcd_lt strides offset
  unfold widenedStride
  by_cases zeroInner : strideGcd w (strideGcd w p.stride q.stride) (p.lo - widenedLow p q) = 0
  · rw [strideGcd, if_pos zeroInner]
    omega
  · have := strideGcd_le_left (b := q.lo - widenedLow p q) inner zeroInner
    by_cases zero : strideGcd w p.stride q.stride = 0
    · have : strideGcd w (strideGcd w p.stride q.stride) (p.lo - widenedLow p q) =
          p.lo - widenedLow p q := by rw [strideGcd, if_pos zero]
      omega
    · have := strideGcd_le_left (b := p.lo - widenedLow p q) strides zero
      by_cases zeroP : p.stride = 0
      · have both : strideGcd w p.stride q.stride = q.stride := by rw [strideGcd, if_pos zeroP]
        have := q.stride_le
        omega
      · have := strideGcd_le_left (b := q.stride) (stride_lt ltP) zeroP
        have := p.stride_le
        omega

omit supported in
theorem widenedStride_zero (ltP : p.hi < 2 ^ w) (ltQ : q.hi < 2 ^ w)
    (zero : widenedStride w p q = 0) : widenedLow p q = widenedHigh w p q := by
  have strides := strideGcd_lt (stride_lt ltP) (stride_lt ltQ)
  have low := lo_lt ltP
  have offset : p.lo - widenedLow p q < 2 ^ w := by omega
  obtain ⟨zeroInner, offsetQ⟩ := strideGcd_eq_zero (strideGcd_lt strides offset) zero
  obtain ⟨zeroStrides, offsetP⟩ := strideGcd_eq_zero strides zeroInner
  have singles := strideGcd_zero ltP zeroStrides
  have lowP := widenedLow_le_left (p := p) (q := q)
  have high : widenedHigh w p q = p.hi := if_neg (by omega)
  omega

theorem widen_iff (ltP : p.hi < 2 ^ w) (ltQ : q.hi < 2 ^ w) :
    (CoversImage ((ofProgression w p).widen (ofProgression w q)) w w (ofProgression w p) id ∧
      CoversImage ((ofProgression w p).widen (ofProgression w q)) w w (ofProgression w q) id) ↔
      WidenExact w p q := by
  have ltHi : widenedHigh w p q < 2 ^ w := widenedHigh_lt ltP
  have zero := widenedStride_zero ltP ltQ
  have fits := widenedStride_fits ltP ltQ
  rw [widen_of supported ltP ltQ,
    coversImage_between_iff supported ltP ltHi widenedLow_le_left (le_widenedHigh_left ltP) zero
      fits,
    coversImage_between_iff supported ltQ ltHi widenedLow_le_right (le_widenedHigh_right ltQ) zero
      fits]
  rfl

end Sound

end StridedInterval

end Fugue.Analysis.Value
