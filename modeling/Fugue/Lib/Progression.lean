import Mathlib.Data.Nat.GCD.Basic
import Mathlib.Tactic.Common

/-!
# Finite arithmetic progressions

A progression runs from a lower to an upper bound in steps of a stride; its stride is zero exactly
when it has one element. `ofBounds` rounds an upper bound down to the stride.
-/

namespace Fugue.Lib

/-- The numbers `lo`, `lo + stride`, …, `hi`. -/
structure Progression where
  lo : Nat
  hi : Nat
  stride : Nat
  le : lo ≤ hi
  dvd : stride ∣ hi - lo
  single : lo = hi → stride = 0

namespace Progression

instance : Membership Nat Progression :=
  ⟨fun p x => p.lo ≤ x ∧ x ≤ p.hi ∧ p.stride ∣ x - p.lo⟩

variable {p q : Progression} {x lo hi stride : Nat}

theorem mem_iff : x ∈ p ↔ p.lo ≤ x ∧ x ≤ p.hi ∧ p.stride ∣ x - p.lo := Iff.rfl

instance : Decidable (x ∈ p) := inferInstanceAs (Decidable (_ ∧ _ ∧ _))

/-- The stride over a span that is not empty: at least one, at most the span. -/
def strideWithin (span stride : Nat) : Nat := if stride = 0 then 1 else min stride span

theorem strideWithin_pos (stride : Nat) {span : Nat} (pos : 0 < span) : 0 < strideWithin span stride := by
  unfold strideWithin
  split <;> omega

theorem strideWithin_le (stride : Nat) {span : Nat} (pos : 0 < span) : strideWithin span stride ≤ span := by
  unfold strideWithin
  split <;> omega

/-- From `lo` in steps of the stride to the last element that is not above `hi`. -/
def ofBounds (lo hi stride : Nat) (le : lo ≤ hi) : Progression :=
  if same : lo = hi then ⟨lo, lo, 0, le_rfl, by simp, fun _ => rfl⟩
  else
    { lo
      hi := lo + (hi - lo) / strideWithin (hi - lo) stride * strideWithin (hi - lo) stride
      stride := strideWithin (hi - lo) stride
      le := Nat.le_add_right ..
      dvd := by rw [Nat.add_sub_cancel_left]; exact Nat.dvd_mul_left ..
      single := fun equal => by
        have span : 0 < hi - lo := by omega
        have pos := strideWithin_pos stride span
        have quotient := Nat.div_pos (strideWithin_le stride span) pos
        have product := Nat.mul_pos quotient pos
        omega }

theorem ofBounds_hi_le (le : lo ≤ hi) : (ofBounds lo hi stride le).hi ≤ hi := by
  unfold ofBounds
  split
  · exact le
  · have := Nat.div_mul_le_self (hi - lo) (strideWithin (hi - lo) stride)
    simp only
    omega

/-- What lies between the bounds and in the steps of the stride is an element. -/
theorem mem_ofBounds (low : lo ≤ x) (high : x ≤ hi) (dvd : stride ∣ x - lo) :
    x ∈ ofBounds lo hi stride (le_trans low high) := by
  have steps : strideWithin (hi - lo) stride ∣ x - lo := by
    unfold strideWithin
    split
    · exact Nat.one_dvd _
    · rcases le_total stride (hi - lo) with le | le
      · rwa [min_eq_left le]
      · -- only the bounds can be reached in one step
        rw [min_eq_right le]
        obtain ⟨steps, eq⟩ := dvd
        rcases Nat.eq_zero_or_pos steps with rfl | pos
        · rw [eq]
          exact Nat.dvd_zero _
        · have : stride * 1 ≤ stride * steps := Nat.mul_le_mul_left _ pos
          have whole : x - lo = hi - lo := by omega
          rw [whole]
  unfold ofBounds
  split
  · exact ⟨low, by simp only; omega, by simp only; rw [show x - lo = 0 by omega]⟩
  · refine ⟨low, ?_, steps⟩
    obtain ⟨count, eq⟩ := steps
    have below : count ≤ (hi - lo) / strideWithin (hi - lo) stride := by
      rw [Nat.le_div_iff_mul_le (strideWithin_pos stride (by omega)), mul_comm]
      omega
    have product := Nat.mul_le_mul_right (strideWithin (hi - lo) stride) below
    rw [mul_comm count] at product
    simp only
    omega

theorem dvd_of_mem_ofBounds {le : lo ≤ hi} (zero : stride = 0 → lo = hi)
    (fits : stride ≤ hi - lo) (mem : x ∈ ofBounds lo hi stride le) : stride ∣ x - lo := by
  unfold ofBounds at mem
  split at mem
  · obtain ⟨low, high, -⟩ := mem
    simp only at low high
    rw [show x - lo = 0 by omega]
    exact Nat.dvd_zero _
  · rename_i ne
    have within : strideWithin (hi - lo) stride = stride := by
      rw [strideWithin, if_neg (fun isZero => ne (zero isZero)), min_eq_left fits]
    obtain ⟨-, -, dvd⟩ := mem
    simp only [within] at dvd
    exact dvd

theorem lo_mem (p : Progression) : p.lo ∈ p := ⟨le_rfl, p.le, by simp⟩

theorem hi_mem (p : Progression) : p.hi ∈ p := ⟨p.le, le_rfl, p.dvd⟩

theorem stride_le (p : Progression) : p.stride ≤ p.hi - p.lo := by
  rcases Nat.eq_or_lt_of_le p.le with same | lt
  · rw [p.single same]
    exact Nat.zero_le _
  · exact Nat.le_of_dvd (by omega) p.dvd

theorem next_mem (p : Progression) : p.lo + p.stride ∈ p := by
  have := p.stride_le
  have := p.le
  exact ⟨by omega, by omega, by simp⟩

theorem eq_of_stride_eq_zero (isZero : p.stride = 0) : p.lo = p.hi := by
  have dvd := p.dvd
  rw [isZero, Nat.zero_dvd] at dvd
  have := p.le
  omega

theorem ext_mem (same : ∀ x, x ∈ p ↔ x ∈ q) : p = q := by
  have lo : p.lo = q.lo :=
    le_antisymm ((same _).mpr q.lo_mem).1 ((same _).mp p.lo_mem).1
  have hi : p.hi = q.hi :=
    le_antisymm ((same _).mp p.hi_mem).2.1 ((same _).mpr q.hi_mem).2.1
  have steps : ∀ {p q : Progression}, p.lo = q.lo → (∀ x, x ∈ p → x ∈ q) →
      q.stride ∣ p.stride := by
    intro p q lo within
    have next := (within _ p.next_mem).2.2
    rwa [lo, Nat.add_sub_cancel_left] at next
  have stride : p.stride = q.stride :=
    Nat.dvd_antisymm (steps lo.symm fun x => (same x).mpr) (steps lo fun x => (same x).mp)
  cases p
  simp_all

/-- The elements of a progression lie in the rounded bounds exactly when the stride divides the
steps of the progression and its distance from the lower bound. -/
theorem subset_ofBounds_iff {le : lo ≤ hi} (low : lo ≤ p.lo) (high : p.hi ≤ hi)
    (zero : stride = 0 → lo = hi) (fits : stride ≤ hi - lo) :
    (∀ x ∈ p, x ∈ ofBounds lo hi stride le) ↔ stride ∣ p.lo - lo ∧ stride ∣ p.stride := by
  constructor
  · intro subset
    have first := dvd_of_mem_ofBounds zero fits (subset p.lo p.lo_mem)
    have next := dvd_of_mem_ofBounds zero fits (subset _ p.next_mem)
    refine ⟨first, ?_⟩
    rw [show p.stride = p.lo + p.stride - lo - (p.lo - lo) by omega]
    exact Nat.dvd_sub next first
  · rintro ⟨offset, steps⟩ x ⟨lowX, highX, dvd⟩
    apply mem_ofBounds (le_trans low lowX) (le_trans highX high)
    rw [show x - lo = (p.lo - lo) + (x - p.lo) by omega]
    exact Nat.dvd_add offset (steps.trans dvd)

end Progression

end Fugue.Lib
