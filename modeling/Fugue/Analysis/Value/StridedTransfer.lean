import Fugue.Analysis.Value.StridedSound
import Mathlib.Data.Nat.Factorization.Basic

/-!
# The operations that always over-approximate

Products, shifts, bitwise operations and casts take no common stride.
-/

namespace Fugue.Analysis.Value

open Fugue.Bv Fugue.Bv.BitVec Fugue.Lib Option Progression
open Nat (pow_le_pow_right mod_eq_of_lt mod_lt two_pow_pos)

section LowestBit

theorem odd_and_neg {n m : Nat} (lt : m < 2 ^ n) (odd : m % 2 = 1) : m &&& (2 ^ n - m) = 1 := by
  have positive : 0 < n := by
    rcases Nat.eq_zero_or_pos n with rfl | pos
    · omega
    · exact pos
  have even : 2 ^ n % 2 = 0 := by
    obtain ⟨k, rfl⟩ := Nat.exists_eq_succ_of_ne_zero positive.ne'
    omega
  apply Nat.eq_of_testBit_eq
  intro i
  rw [Nat.testBit_and]
  cases i with
  | zero =>
    have : (2 ^ n - m) % 2 = 1 := by omega
    simp [odd, this]
  | succ i =>
    obtain ⟨r, rfl⟩ := Nat.exists_eq_succ_of_ne_zero (show m ≠ 0 by omega)
    rw [Nat.testBit_two_pow_sub_succ (by omega), Nat.testBit_succ, Nat.testBit_succ,
      Nat.testBit_succ, show (r + 1) / 2 = r / 2 by omega]
    cases (r / 2).testBit i <;> simp

theorem lowest_bit_dvd {w mask : Nat} (lt : mask < 2 ^ w) (ne : mask ≠ 0) (x : Nat) :
    mask &&& (2 ^ w - mask) ∣ x &&& mask := by
  obtain ⟨k, m, odd, rfl⟩ := Nat.exists_eq_two_pow_mul_odd ne
  have isOdd : m % 2 = 1 := Nat.odd_iff.mp odd
  have below : k < w := by
    by_contra above
    have : 2 ^ w ≤ 2 ^ k := pow_le_pow_right (by decide) (by omega)
    have : 2 ^ k * 1 ≤ 2 ^ k * m := Nat.mul_le_mul_left _ (by omega)
    omega
  have power : 2 ^ w = 2 ^ k * 2 ^ (w - k) := by
    rw [← pow_add, Nat.add_sub_cancel' below.le]
  have ltOdd : m < 2 ^ (w - k) := by
    rw [power] at lt
    exact Nat.lt_of_mul_lt_mul_left lt
  have lowest : 2 ^ k * m &&& (2 ^ w - 2 ^ k * m) = 2 ^ k := by
    have shifted : ∀ a, 2 ^ k * a = a <<< k := fun a => by rw [Nat.shiftLeft_eq, mul_comm]
    rw [power, ← Nat.mul_sub, shifted, shifted, ← Nat.shiftLeft_and_distrib,
      odd_and_neg ltOdd isOdd, Nat.shiftLeft_eq, one_mul]
  rw [lowest, Nat.dvd_iff_mod_eq_zero, Nat.and_mod_two_pow, Nat.mul_mod_right, Nat.and_zero]

end LowestBit

namespace StridedInterval

/-- The call returns an interval of unsigned bit vectors. -/
def Shaped (w : Nat) (result : Option StridedInterval) : Prop := ∃ r, result = some r ∧ Shape w r

/-- The call returns an interval of unsigned bit vectors, which has what the operation makes of
every pair of numbers of the two intervals. -/
def Transfers (result : Option StridedInterval) (w : Nat) (i j : StridedInterval)
    (f : Nat → Nat → Nat) : Prop :=
  ∃ r, result = some r ∧ Shape w r ∧
    ∀ x < 2 ^ w, ∀ y < 2 ^ w, i.Has w x → j.Has w y → r.Has w (f x y)

variable {w x : Nat} {p q : Progression} {i j : StridedInterval} (supported : Supported w)

variable {f : Nat → Nat → Nat}

theorem Transfers.shaped {result : Option StridedInterval}
    (transfers : Transfers result w i j f) : Shaped w result := by
  obtain ⟨r, eq, shape, -⟩ := transfers
  exact ⟨r, eq, shape⟩

theorem Transfers.covers {result : Option StridedInterval}
    (transfers : Transfers result w i j f) : CoversPairs result w i j f := by
  obtain ⟨r, eq, -, covers⟩ := transfers
  exact ⟨r, eq, covers⟩

theorem between_or_everything_shape {condition : Prop} [Decidable condition] {lo hi stride : Nat}
    (lt : condition → hi < 2 ^ w) : Shape w (if condition then between w lo hi stride
      else ofProgression w (everything w)) := by
  split
  · exact between_shape (lt ‹_›)
  · exact .progression _ everything_lt

theorem Shape.width_eq (shape : Shape w i) : i.width = w := by
  cases shape with
  | empty => rfl
  | progression p _ => exact ofProgression_width

include supported

theorem has_everything (lt : x < 2 ^ w) : (ofProgression w (everything w)).Has w x :=
  (has_iff supported everything_lt lt).mpr (mem_everything lt)

theorem has_single {value : Nat} (lt : value < 2 ^ w) : (between w value value 0).Has w value :=
  (has_between supported le_rfl lt lt).mpr (mem_ofBounds le_rfl le_rfl (by simp))

/-- `to_value` finds the only number of an interval. -/
theorem toValue_cases (shape : Shape w i) : i.toValue = none ∨
    ∃ value < 2 ^ w, i.toValue = some (natural w value) ∧
      ∀ x < 2 ^ w, i.Has w x → x = value := by
  cases shape with
  | empty => exact .inl rfl
  | progression p ltP =>
    rw [toValue_of supported ltP]
    by_cases zero : p.stride = 0
    · rw [if_pos zero]
      refine .inr ⟨p.lo, lo_lt ltP, rfl, fun x ltX has => ?_⟩
      obtain ⟨low, high, -⟩ := (has_iff supported ltP ltX).mp has
      have := p.eq_of_stride_eq_zero zero
      omega
    · rw [if_neg zero]
      exact .inl rfl

theorem scale_transfers {factor : Nat} (shape : Shape w i) (ltFactor : factor < 2 ^ w) :
    ∃ r, i.scale (natural w factor) = some r ∧ Shape w r ∧
      ∀ x < 2 ^ w, i.Has w x → r.Has w (x * factor % 2 ^ w) := by
  cases shape with
  | empty => exact ⟨_, rfl, .empty, fun x _ has => absurd has not_has_empty⟩
  | progression p ltP =>
    rw [scale_of supported ltP ltFactor]
    refine ⟨_, rfl, between_or_everything_shape id, fun x ltX has => ?_⟩
    obtain ⟨low, high, dvd⟩ := (has_iff supported ltP ltX).mp has
    by_cases within : p.hi * factor < 2 ^ w
    · have below : x * factor ≤ p.hi * factor := Nat.mul_le_mul_right _ high
      have above : p.lo * factor ≤ x * factor := Nat.mul_le_mul_right _ low
      have lt : x * factor < 2 ^ w := lt_of_le_of_lt below within
      rw [if_pos within, mod_eq_of_lt lt]
      refine (has_between supported (above.trans below) within lt).mpr
        (mem_ofBounds above below ?_)
      rw [← Nat.sub_mul]
      exact Nat.mul_dvd_mul_right dvd factor
    · rw [if_neg within]
      exact has_everything supported (mod_lt _ (two_pow_pos w))

theorem mul_transfers (shapeI : Shape w i) (shapeJ : Shape w j) :
    Transfers (i.mul j) w i j (fun x y => x * y % 2 ^ w) := by
  unfold mul
  rcases toValue_cases supported shapeI with noneI | ⟨a, ltA, someI, onlyA⟩
  · rcases toValue_cases supported shapeJ with noneJ | ⟨b, ltB, someJ, onlyB⟩
    · rw [noneI, noneJ, shapeI.width_eq]
      refine ⟨_, full_of supported, .progression _ everything_lt, fun x _ y _ _ _ => ?_⟩
      exact has_everything supported (mod_lt _ (two_pow_pos w))
    · rw [noneI, someJ]
      obtain ⟨r, eq, shape, covers⟩ := scale_transfers supported shapeI ltB
      refine ⟨r, eq, shape, fun x ltX y ltY hasX hasY => ?_⟩
      cases onlyB y ltY hasY
      exact covers x ltX hasX
  · rw [someI]
    obtain ⟨r, eq, shape, covers⟩ := scale_transfers supported shapeJ ltA
    refine ⟨r, eq, shape, fun x ltX y ltY hasX hasY => ?_⟩
    cases onlyA x ltX hasX
    have has := covers y ltY hasY
    rwa [mul_comm] at has

theorem full_transfers (shapeI : Shape w i)
    (bounded : ∀ x < 2 ^ w, ∀ y < 2 ^ w, f x y < 2 ^ w) : Transfers (full i.width) w i j f := by
  rw [shapeI.width_eq]
  exact ⟨_, full_of supported, .progression _ everything_lt, fun x ltX y ltY _ _ =>
    has_everything supported (bounded x ltX y ltY)⟩

theorem shl_transfers (shapeI : Shape w i) (shapeJ : Shape w j) :
    Transfers (i.shl j) w i j (fun x y => if y < w then x * 2 ^ y % 2 ^ w else 0) := by
  have bounded : ∀ x < 2 ^ w, ∀ y < 2 ^ w, (if y < w then x * 2 ^ y % 2 ^ w else 0) < 2 ^ w := by
    intro x _ y _
    split
    · exact mod_lt _ (two_pow_pos w)
    · exact two_pow_pos w
  have anything := full_transfers (j := j) supported shapeI bounded
  unfold shl
  rcases toValue_cases supported shapeJ with noneJ | ⟨b, ltB, someJ, onlyB⟩
  · rw [noneJ]
    exact anything
  · rw [someJ, bind_some, natural_toU64 supported ltB]
    by_cases fits : b < 2 ^ 64
    · rw [if_pos fits]
      by_cases within : b < w
      · have power : 2 ^ b < 2 ^ w := Nat.pow_lt_pow_right (by decide) within
        have one : 1 < 2 ^ w := Nat.one_lt_two_pow (by omega)
        simp only [shapeI.width_eq, within, if_true, one_of supported, natural_fromU64 supported,
          mod_eq_of_lt ltB, natural_shl supported one ltB,
          some_bind, one_mul, mod_eq_of_lt power]
        obtain ⟨r, eq, shape, covers⟩ := scale_transfers supported shapeI power
        refine ⟨r, eq, shape, fun x ltX y ltY hasX hasY => ?_⟩
        cases onlyB y ltY hasY
        simp only [within, if_true]
        exact covers x ltX hasX
      · simp only [shapeI.width_eq, within, if_false]
        rwa [shapeI.width_eq] at anything
    · rw [if_neg fits]
      exact anything

theorem shr_transfers (shapeI : Shape w i) (shapeJ : Shape w j) :
    Transfers (i.shr j) w i j (fun x y => if y < w then x / 2 ^ y else 0) := by
  have bounded : ∀ x < 2 ^ w, ∀ y < 2 ^ w, (if y < w then x / 2 ^ y else 0) < 2 ^ w := by
    intro x ltX y _
    split
    · exact lt_of_le_of_lt (Nat.div_le_self _ _) ltX
    · exact two_pow_pos w
  have anything := full_transfers (j := j) supported shapeI bounded
  unfold shr
  rcases toValue_cases supported shapeJ with noneJ | ⟨b, ltB, someJ, onlyB⟩
  · rw [noneJ]
    exact anything
  · rw [someJ, bind_some, natural_toU64 supported ltB]
    by_cases fits : b < 2 ^ 64
    · rw [if_pos fits]
      by_cases within : b < w
      · cases shapeI with
        | empty =>
          have narrow : ¬ (StridedInterval.empty w).width ≤ b := by
            rw [Shape.empty.width_eq]
            omega
          exact ⟨.empty w, if_neg narrow, .empty, fun x _ y _ has => absurd has not_has_empty⟩
        | progression p ltP =>
          have one : 1 < 2 ^ w := Nat.one_lt_two_pow (by omega)
          have high : p.hi / 2 ^ b < 2 ^ w := lt_of_le_of_lt (Nat.div_le_self _ _) ltP
          have low : p.lo / 2 ^ b < 2 ^ w := lt_of_le_of_lt (Nat.div_le_self _ _) (lo_lt ltP)
          refine ⟨between w (p.lo / 2 ^ b) (p.hi / 2 ^ b) 1, ?_, between_shape high,
            fun x ltX y ltY hasX hasY => ?_⟩
          · simp only [ofProgression_width]
            rw [if_neg (by omega)]
            simp only [ofProgression, natural_fromU64 supported, mod_eq_of_lt ltB,
              one_of supported, natural_shr supported (lo_lt ltP) ltB,
              natural_shr supported ltP ltB, some_bind]
            exact range_of supported low high one
          · cases onlyB y ltY hasY
            obtain ⟨lowX, highX, -⟩ := (has_iff supported ltP ltX).mp hasX
            simp only [within, if_true]
            have lowQ : p.lo / 2 ^ b ≤ x / 2 ^ b := Nat.div_le_div_right lowX
            have highQ : x / 2 ^ b ≤ p.hi / 2 ^ b := Nat.div_le_div_right highX
            exact (has_between supported (lowQ.trans highQ) high (by omega)).mpr
              (mem_ofBounds lowQ highQ (Nat.one_dvd _))
      · refine ⟨between w 0 0 0, ?_, between_shape (two_pow_pos w), fun x _ y ltY _ hasY => ?_⟩
        · simp only [shapeI.width_eq]
          rw [if_pos (by omega), zero_of supported]
          exact single_of supported
        · cases onlyB y ltY hasY
          simp only [within, if_false]
          exact has_single supported (two_pow_pos w)
    · rw [if_neg fits]
      exact anything

theorem masked_transfers {mask : Nat} (lt : mask < 2 ^ w) :
    ∃ r, masked (natural w mask) = some r ∧ Shape w r ∧ ∀ x < 2 ^ w, r.Has w (x &&& mask) := by
  unfold masked
  rw [natural_isZero supported lt]
  by_cases zero : mask = 0
  · subst zero
    refine ⟨_, single_of supported, between_shape lt, fun x _ => ?_⟩
    rw [Nat.and_zero]
    exact has_single supported lt
  · have power : 2 ^ w - mask < 2 ^ w := by omega
    have lowest : mask &&& (2 ^ w - mask) < 2 ^ w := Nat.and_lt_two_pow _ power
    simp only [zero, decide_false, Bool.false_eq_true, if_false, natural_bits, zero_of supported,
      natural_neg supported lt, mod_eq_of_lt power, natural_and supported lt power,
      some_bind]
    refine ⟨_, range_of supported (two_pow_pos w) lt lowest, between_shape lt, fun x ltX => ?_⟩
    have le : x &&& mask ≤ mask := Nat.and_le_right
    exact (has_between supported (Nat.zero_le _) lt (by omega)).mpr
      (mem_ofBounds (Nat.zero_le _) le (lowest_bit_dvd lt zero x))

theorem and_transfers (shapeI : Shape w i) (shapeJ : Shape w j) :
    Transfers (i.and j) w i j (fun x y => x &&& y) := by
  unfold and
  rcases toValue_cases supported shapeI with noneI | ⟨a, ltA, someI, onlyA⟩
  · rcases toValue_cases supported shapeJ with noneJ | ⟨b, ltB, someJ, onlyB⟩
    · rw [noneI, noneJ]
      exact full_transfers supported shapeI fun x ltX y _ => lt_of_le_of_lt Nat.and_le_left ltX
    · rw [noneI, someJ]
      obtain ⟨r, eq, shape, covers⟩ := masked_transfers supported ltB
      refine ⟨r, eq, shape, fun x ltX y ltY _ hasY => ?_⟩
      cases onlyB y ltY hasY
      exact covers x ltX
  · rcases toValue_cases supported shapeJ with noneJ | ⟨b, ltB, someJ, onlyB⟩
    · rw [someI, noneJ]
      obtain ⟨r, eq, shape, covers⟩ := masked_transfers supported ltA
      refine ⟨r, eq, shape, fun x ltX y ltY hasX _ => ?_⟩
      cases onlyA x ltX hasX
      have has := covers y ltY
      rwa [Nat.and_comm] at has
    · rw [someI, someJ]
      have lt : a &&& b < 2 ^ w := Nat.and_lt_two_pow _ ltB
      refine ⟨between w (a &&& b) (a &&& b) 0, ?_, between_shape lt, fun x ltX y ltY hasX hasY => ?_⟩
      · simp only [natural_and supported ltA ltB, some_bind]
        exact single_of supported
      · cases onlyA x ltX hasX
        cases onlyB y ltY hasY
        exact has_single supported lt

theorem or_transfers (shapeI : Shape w i) (shapeJ : Shape w j) :
    Transfers (i.or j) w i j (fun x y => x ||| y) := by
  have anything := full_transfers (j := j) supported shapeI fun x ltX y ltY =>
    Nat.or_lt_two_pow ltX ltY
  unfold or
  rcases toValue_cases supported shapeI with noneI | ⟨a, ltA, someI, onlyA⟩
  · rw [noneI]
    exact anything
  · rcases toValue_cases supported shapeJ with noneJ | ⟨b, ltB, someJ, onlyB⟩
    · rw [someI, noneJ]
      exact anything
    · rw [someI, someJ]
      have lt : a ||| b < 2 ^ w := Nat.or_lt_two_pow ltA ltB
      refine ⟨between w (a ||| b) (a ||| b) 0, ?_, between_shape lt, fun x ltX y ltY hasX hasY => ?_⟩
      · simp only [natural_or supported ltA ltB, some_bind]
        exact single_of supported
      · cases onlyA x ltX hasX
        cases onlyB y ltY hasY
        exact has_single supported lt

section Casts

variable {wide : Nat} (wideOk : Supported wide)

include wideOk

theorem zeroExtend_of (ltP : p.hi < 2 ^ w) (fits : p.hi < 2 ^ wide) :
    (ofProgression w p).zeroExtend wide = some (between wide p.lo p.hi p.stride) := by
  unfold ofProgression zeroExtend
  simp only [natural_unsignedCast wideOk supported (lo_lt ltP),
    natural_unsignedCast wideOk supported ltP,
    natural_unsignedCast wideOk supported (stride_lt ltP), mod_eq_of_lt fits,
    mod_eq_of_lt (lo_lt fits), mod_eq_of_lt (stride_lt fits),
    some_bind]
  exact range_of wideOk (lo_lt fits) fits (stride_lt fits)

theorem zeroExtend_shaped (shape : Shape w i) : Shaped wide (i.zeroExtend wide) := by
  cases shape with
  | empty => exact ⟨_, rfl, .empty⟩
  | progression p ltP =>
    have positive := two_pow_pos wide
    unfold ofProgression zeroExtend
    simp only [natural_unsignedCast wideOk supported (lo_lt ltP),
      natural_unsignedCast wideOk supported ltP,
      natural_unsignedCast wideOk supported (stride_lt ltP),
      some_bind]
    exact ⟨_, range_of wideOk (mod_lt _ positive) (mod_lt _ positive)
      (mod_lt _ positive), between_shape (mod_lt _ positive)⟩

theorem zeroExtend_covers (shape : Shape w i) (le : w ≤ wide) :
    CoversImage (i.zeroExtend wide) w wide i id := by
  cases shape with
  | empty => exact ⟨_, rfl, fun x _ has => absurd has not_has_empty⟩
  | progression p ltP =>
    have power : 2 ^ w ≤ 2 ^ wide := pow_le_pow_right (by decide) le
    have fits : p.hi < 2 ^ wide := lt_of_lt_of_le ltP power
    refine ⟨_, zeroExtend_of supported wideOk ltP fits, fun x ltX has => ?_⟩
    obtain ⟨low, high, dvd⟩ := (has_iff supported ltP ltX).mp has
    exact (has_between wideOk p.le fits (lt_of_lt_of_le ltX power)).mpr
      (mem_ofBounds low high dvd)

theorem truncate_transfers (shape : Shape w i) : ∃ r, i.truncate wide = some r ∧ Shape wide r ∧
    ∀ x < 2 ^ w, i.Has w x → r.Has wide (x % 2 ^ wide) := by
  cases shape with
  | empty => exact ⟨_, rfl, .empty, fun x _ has => absurd has not_has_empty⟩
  | progression p ltP =>
    by_cases le : w ≤ wide
    · obtain ⟨r, eq, covers⟩ :=
        zeroExtend_covers supported wideOk (.progression p ltP) le
      obtain ⟨r', eq', shape⟩ := zeroExtend_shaped supported wideOk (.progression p ltP)
      cases eq.symm.trans eq'
      have power : 2 ^ w ≤ 2 ^ wide := pow_le_pow_right (by decide) le
      refine ⟨r, ?_, shape, fun x ltX has => ?_⟩
      · unfold ofProgression truncate
        simp only [natural_bits, le, if_true]
        exact eq
      · simp only [mod_eq_of_lt (lt_of_lt_of_le ltX power)]
        exact covers x ltX has
    · have power : 2 ^ wide ≤ 2 ^ w := pow_le_pow_right (by decide) (by omega)
      have positive := two_pow_pos wide
      have limit : 2 ^ wide - 1 < 2 ^ w := by omega
      unfold ofProgression truncate
      simp only [natural_bits, le, if_false, natural_maxValueWith wideOk,
        natural_unsignedCast supported wideOk (Nat.sub_lt positive Nat.one_pos),
        mod_eq_of_lt limit, natural_cmp supported ltP limit, Nat.compare_eq_gt,
        some_bind, natural_cast wideOk supported (lo_lt ltP),
        natural_cast wideOk supported ltP,
        natural_cast wideOk supported (stride_lt ltP)]
      by_cases above : 2 ^ wide - 1 < p.hi
      · rw [if_pos above]
        exact ⟨_, full_of wideOk, .progression _ everything_lt, fun x _ _ =>
          has_everything wideOk (mod_lt _ positive)⟩
      · have fits : p.hi < 2 ^ wide := by omega
        rw [if_neg above, mod_eq_of_lt fits, mod_eq_of_lt (lo_lt fits),
          mod_eq_of_lt (stride_lt fits)]
        refine ⟨_, range_of wideOk (lo_lt fits) fits (stride_lt fits), between_shape fits,
          fun x ltX has => ?_⟩
        obtain ⟨low, high, dvd⟩ := (has_iff supported ltP ltX).mp has
        have lt : x < 2 ^ wide := lt_of_le_of_lt high fits
        simp only [mod_eq_of_lt lt]
        exact (has_between wideOk p.le fits lt).mpr
          (mem_ofBounds low high dvd)

end Casts

end StridedInterval

end Fugue.Analysis.Value
