import Fugue.Lib.Partial
import Mathlib.Data.Nat.Bitwise
import Mathlib.Algebra.Order.Ring.Int
import Mathlib.Tactic.Linarith
import Mathlib.Tactic.Positivity
import Mathlib.Tactic.Ring

/-!
# Residues and two's complement

Masks, shifts and sign fills on natural numbers below a power of two, and the two's complement
value of such a residue. A residue is any natural number below `2 ^ n`; the lemmas say what the
usual bit manipulations compute on it, as arithmetic.
-/

namespace Fugue.Lib

/-- The residue of an integer modulo `2 ^ n`. -/
def residue (n : ℕ) (z : ℤ) : ℕ := (z % 2 ^ n).toNat

/-- The two's complement value of a residue of width `n`. -/
def signedValue (n x : ℕ) : ℤ := if 2 ^ (n - 1) ≤ x then (x : ℤ) - 2 ^ n else x

variable {n m k x y : ℕ}

theorem mask_xor_mask (le : m ≤ n) : (2 ^ n - 1) ^^^ (2 ^ m - 1) = 2 ^ n - 2 ^ m := by
  have split : 2 ^ n - 2 ^ m = 2 ^ m * (2 ^ (n - m) - 1) := by
    rw [Nat.mul_sub_one, ← pow_add, Nat.add_sub_cancel' le]
  rw [split]
  apply Nat.eq_of_testBit_eq
  intro i
  rw [Nat.testBit_xor, Nat.testBit_two_pow_sub_one, Nat.testBit_two_pow_sub_one,
    Nat.testBit_two_pow_mul, Nat.testBit_two_pow_sub_one]
  by_cases low : i < m
  · have : i < n := by omega
    simp [low, this, not_le.mpr low]
  · by_cases high : i < n
    · have : i - m < n - m := by omega
      simp [low, high, this, not_lt.mp low]
    · have : ¬ i - m < n - m := by omega
      simp [low, high, this]

theorem mask_div (le : k ≤ n) : (2 ^ n - 1) / 2 ^ k = 2 ^ (n - k) - 1 := by
  apply Nat.eq_of_testBit_eq
  intro i
  rw [Nat.testBit_div_two_pow, Nat.testBit_two_pow_sub_one, Nat.testBit_two_pow_sub_one]
  congr 1
  exact propext ⟨fun _ => by omega, fun _ => by omega⟩

/-- Filling the bits from `m` to `n` above a residue of width `m`. -/
theorem or_fill (le : m ≤ n) (lt : x < 2 ^ m) : x ||| (2 ^ n - 2 ^ m) = x + (2 ^ n - 2 ^ m) := by
  have split : 2 ^ n - 2 ^ m = 2 ^ m * (2 ^ (n - m) - 1) := by
    rw [Nat.mul_sub_one, ← pow_add, Nat.add_sub_cancel' le]
  rw [split, Nat.or_comm, ← Nat.two_pow_add_eq_or_of_lt lt, add_comm]

theorem two_pow_eq_double (pos : 1 ≤ n) : 2 ^ n = 2 * 2 ^ (n - 1) := by
  rw [← Nat.pow_succ', Nat.succ_eq_add_one, Nat.sub_add_cancel pos]

theorem testBit_top (pos : 1 ≤ n) (lt : x < 2 ^ n) :
    x.testBit (n - 1) = decide (2 ^ (n - 1) ≤ x) := by
  have double := two_pow_eq_double pos
  by_cases le : 2 ^ (n - 1) ≤ x
  · have quotient : x / 2 ^ (n - 1) = 1 := by
      apply Nat.div_eq_of_lt_le <;> omega
    simp [Nat.testBit, Nat.shiftRight_eq_div_pow, quotient, le]
  · simp [Nat.testBit_lt_two_pow (not_le.mp le), le]

theorem xor_mask (lt : x < 2 ^ n) : x ^^^ (2 ^ n - 1) = 2 ^ n - 1 - x := by
  apply Nat.eq_of_testBit_eq
  intro i
  have := Nat.testBit_two_pow_sub_succ lt i
  rw [Nat.testBit_xor, Nat.testBit_two_pow_sub_one, Nat.sub_sub, add_comm 1 x, this]
  by_cases inside : i < n
  · simp [inside]
  · have : x.testBit i = false := Nat.testBit_lt_two_pow
      (lt_of_lt_of_le lt (Nat.pow_le_pow_right (by decide) (not_lt.mp inside)))
    simp [inside, this]

theorem natCast_residue (n : ℕ) (z : ℤ) : (residue n z : ℤ) = z % 2 ^ n :=
  Int.toNat_of_nonneg (Int.emod_nonneg z (by positivity))

theorem residue_lt (n : ℕ) (z : ℤ) : residue n z < 2 ^ n := by
  have : (residue n z : ℤ) < 2 ^ n := by
    rw [natCast_residue]
    exact Int.emod_lt_of_pos z (by positivity)
  exact_mod_cast this

/-- Integers with one residue differ by a multiple of the modulus. -/
theorem residue_congr {z w : ℤ} (q : ℤ) (eq : z = w + 2 ^ n * q) : residue n z = residue n w := by
  rw [residue, residue, eq, Int.add_mul_emod_self_left]

theorem residue_neg_sub_mod (n x : ℕ) (z : ℤ) :
    residue n (-((x % 2 ^ n : ℕ) : ℤ) - z) = residue n (-x - z) := by
  apply residue_congr (x / 2 ^ n)
  have split := Int.emod_add_mul_ediv x (2 ^ n)
  push_cast
  linarith

theorem residue_natCast (n x : ℕ) : residue n x = x % 2 ^ n := by
  have cast : ((2 : ℤ) ^ n) = ((2 ^ n : ℕ) : ℤ) := by simp
  rw [residue, cast, ← Int.natCast_mod, Int.toNat_natCast]

/-- Taking the residue of a machine word first changes no narrower residue. -/
theorem residue_residue (le : n ≤ m) (z : ℤ) : residue m z % 2 ^ n = residue n z := by
  have power : (2 : ℤ) ^ m = 2 ^ n * 2 ^ (m - n) := by rw [← pow_add, Nat.add_sub_cancel' le]
  rw [← residue_natCast, natCast_residue]
  apply residue_congr (-(2 ^ (m - n) * (z / 2 ^ m)))
  rw [Int.emod_def, power]
  ring

theorem residue_of_lt (lt : x < 2 ^ n) : residue n x = x := by
  rw [residue_natCast, Nat.mod_eq_of_lt lt]

theorem residue_neg (lt : x < 2 ^ n) : residue n (-x) = (2 ^ n - x) % 2 ^ n := by
  rw [← residue_natCast]
  apply residue_congr (-1)
  push_cast [lt.le]
  ring

theorem residue_sub (lt : y < 2 ^ n) : residue n ((x : ℤ) - y) = (x + (2 ^ n - y)) % 2 ^ n := by
  rw [← residue_natCast]
  apply residue_congr (-1)
  push_cast [lt.le]
  ring

theorem residue_not (lt : x < 2 ^ n) : residue n (-x - 1) = 2 ^ n - 1 - x := by
  rw [← residue_of_lt (show 2 ^ n - 1 - x < 2 ^ n by omega)]
  apply residue_congr (-1)
  rw [Nat.sub_sub]
  push_cast [show 1 + x ≤ 2 ^ n by omega]
  ring

theorem residue_signedValue (lt : x < 2 ^ n) : residue n (signedValue n x) = x := by
  rw [← residue_of_lt lt, residue_of_lt lt, signedValue]
  split
  · rw [residue_congr (w := x) (-1) (by ring), residue_of_lt lt]
  · exact residue_of_lt lt

/-- Truncated division works on magnitudes, and the signs decide that of the quotient. -/
theorem tdiv_signs (left right : Bool) (x y : ℕ) :
    (if left then -(x : ℤ) else x).tdiv (if right then -(y : ℤ) else y) =
      if left != right then -((x / y : ℕ) : ℤ) else ((x / y : ℕ) : ℤ) := by
  cases left <;> cases right <;> simp [Int.neg_tdiv, Int.tdiv_neg]

theorem tmod_signs (left right : Bool) (x y : ℕ) :
    (if left then -(x : ℤ) else x).tmod (if right then -(y : ℤ) else y) =
      if left then -((x % y : ℕ) : ℤ) else ((x % y : ℕ) : ℤ) := by
  cases left <;> cases right <;> simp [Int.neg_tmod, Int.tmod_neg, ← Int.ofNat_tmod]

/-- A residue below the modulus is the one of every integer that it equals up to the modulus. -/
theorem residue_eq_of_lt {z q : ℤ} (lt : x < 2 ^ n) (eq : (x : ℤ) = z + 2 ^ n * q) :
    residue n z = x := by
  rw [← residue_congr q eq, residue_of_lt lt]

/-- A shift that fills with ones is floor division of the negative value. -/
theorem residue_shift (le : k ≤ n) (lt : x < 2 ^ n) :
    residue n (((x : ℤ) - 2 ^ n) / 2 ^ k) = x / 2 ^ k + (2 ^ n - 2 ^ (n - k)) := by
  have split : 2 ^ n = 2 ^ (n - k) * 2 ^ k := by rw [← pow_add, Nat.sub_add_cancel le]
  have below : 2 ^ (n - k) ≤ 2 ^ n := Nat.pow_le_pow_right (by decide) (Nat.sub_le _ _)
  have quotient : x / 2 ^ k < 2 ^ (n - k) := Nat.div_lt_of_lt_mul (by rw [mul_comm, ← split]; exact lt)
  have floor : ((x : ℤ) - 2 ^ n) / 2 ^ k = (x : ℤ) / 2 ^ k - 2 ^ (n - k) := by
    have split' : (2 : ℤ) ^ n = 2 ^ (n - k) * 2 ^ k := by exact_mod_cast split
    rw [split', Int.sub_mul_ediv_right _ _ (by positivity)]
  apply residue_eq_of_lt (q := 1) (by omega)
  rw [floor]
  push_cast [below]
  ring

/-- Beyond the width such a shift leaves ones only. -/
theorem residue_shift_all (le : n ≤ k) (lt : x < 2 ^ n) :
    residue n (((x : ℤ) - 2 ^ n) / 2 ^ k) = 2 ^ n - 1 := by
  have pos : 0 < 2 ^ n := Nat.two_pow_pos n
  have power : (2 : ℤ) ^ n ≤ 2 ^ k := pow_le_pow_right₀ (by norm_num) le
  have floor : ((x : ℤ) - 2 ^ n) / 2 ^ k = -1 := by
    rw [Int.ediv_eq_iff_of_pos (by positivity)]
    constructor <;> linarith [Int.natCast_nonneg x]
  apply residue_eq_of_lt (q := 1) (by omega)
  rw [floor]
  push_cast [pos]
  ring

end Fugue.Lib
