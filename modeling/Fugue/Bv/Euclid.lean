import Fugue.Bv.Api
import Mathlib.Data.Int.ModEq

/-!
# Greatest common divisors and Euclidean remainders

`gcd` and `gcd_ext` take the magnitudes of the two's complement values whatever the sign flags
are, and return the other operand unchanged when one is zero; `rem_euclid` corrects the remainder
of `%`, where each operand has its own flag, when its top bit is set. `reading` is the value that
a pair of vectors gives to one of them, and `gcd_exact_iff` and `remEuclid_exact_iff` say when the
two functions are right about it.
-/

namespace Fugue.Bv.BitVec

open Fugue.Lib Option

/-- The magnitude that `gcd` takes: that of the two's complement value. -/
def signedMagnitude (width value : Nat) : Nat :=
  if 2 ^ (width - 1) ≤ value then 2 ^ width - value else value

/-- What `gcd` returns. -/
def strideGcd (width a b : Nat) : Nat :=
  if a = 0 then b
  else if b = 0 then a
  else Nat.gcd (signedMagnitude width a) (signedMagnitude width b)

section Magnitudes

variable {b : BitVec} {width value : Nat}

theorem natAbs_signedValue (lt : value < 2 ^ width) :
    (signedValue width value).natAbs = signedMagnitude width value := by
  unfold signedValue signedMagnitude
  split
  · have cast : ((2 : Int) ^ width) = ((2 ^ width : Nat) : Int) := by simp
    omega
  · simp

theorem signedMagnitude_pos (lt : value < 2 ^ width) (ne : value ≠ 0) :
    0 < signedMagnitude width value := by
  unfold signedMagnitude
  split <;> omega

theorem signedMagnitude_le_half (pos : 1 ≤ width) (lt : value < 2 ^ width) :
    signedMagnitude width value ≤ 2 ^ (width - 1) := by
  have double := two_pow_eq_double pos
  unfold signedMagnitude
  split <;> omega

theorem smallMagnitude_eq (h : b.Valid) (small : b.bits ≤ 64) :
    b.smallMagnitude = signedMagnitude b.bits b.toNat := by
  have lt := h.toNat_lt
  unfold smallMagnitude signedMagnitude
  rw [msb_eq h, h.small_eq small, maskU64_eq small]
  simp only [decide_eq_true_eq]
  split
  · rename_i top
    have fits : 2 ^ b.bits ≤ 2 ^ 64 := Nat.pow_le_pow_right (by decide) small
    have positive : 0 < b.toNat := lt_of_lt_of_le (Nat.two_pow_pos _) top
    rw [xor_mask lt, Nat.mod_eq_of_lt (by omega)]
    omega
  · rfl

theorem largeMagnitude_eq (h : b.Valid) (wide : ¬ b.bits ≤ 64) :
    b.largeMagnitude = signedMagnitude b.bits b.toNat := by
  unfold largeMagnitude signedMagnitude
  rw [msb_eq h, h.large_eq wide]
  simp [decide_eq_true_eq]

theorem signedValue_shifted (pos : 1 ≤ width) (le : width ≤ 64) :
    signedValue 64 (value * 2 ^ (64 - width)) = signedValue width value * 2 ^ (64 - width) := by
  have word : (2 : Int) ^ 64 = 2 ^ width * 2 ^ (64 - width) := by
    rw [← pow_add, Nat.add_sub_cancel' le]
  have half : 2 ^ (64 - 1) = 2 ^ (width - 1) * 2 ^ (64 - width) := by
    rw [← pow_add]
    congr 1
    omega
  have top : 2 ^ (64 - 1) ≤ value * 2 ^ (64 - width) ↔ 2 ^ (width - 1) ≤ value := by
    rw [half]
    exact Nat.mul_le_mul_right_iff (Nat.two_pow_pos _)
  simp only [signedValue, top]
  split
  · rw [word]
    push_cast
    ring
  · push_cast
    ring

theorem smallSigned_eq (h : b.Valid) (small : b.bits ≤ 64) : b.smallSigned = b.toInt := by
  have fits : b.toNat * 2 ^ (64 - b.bits) < 2 ^ 64 := by
    calc b.toNat * 2 ^ (64 - b.bits) < 2 ^ b.bits * 2 ^ (64 - b.bits) :=
          Nat.mul_lt_mul_of_pos_right h.toNat_lt (Nat.two_pow_pos _)
      _ = 2 ^ 64 := by rw [← pow_add, Nat.add_sub_cancel' small]
  rw [smallSigned, h.small_eq small, Nat.shiftLeft_eq, Nat.mod_eq_of_lt fits,
    signedValue_shifted h.bits_pos small, Int.mul_ediv_cancel _ (by positivity)]
  rfl

theorem largeSigned_eq (h : b.Valid) (wide : ¬ b.bits ≤ 64) : b.largeSigned = b.toInt := by
  rw [largeSigned, h.large_eq wide, toInt_eq h]

theorem isZero_eq (h : b.Valid) : b.isZero = decide (b.toNat = 0) := by
  unfold isZero
  split
  · rw [h.small_eq (isSmall_iff.mp ‹_›)]
    rfl
  · rw [h.large_eq (mt isSmall_iff.mpr ‹_›)]
    rfl

end Magnitudes

section Gcd

variable {a b : BitVec}

theorem fromForm_stores (h : a.Valid) {small large residue : Nat}
    (whenSmall : a.bits ≤ 64 → small % 2 ^ a.bits = residue)
    (whenLarge : ¬ a.bits ≤ 64 → large % 2 ^ a.bits = residue) :
    (if a.isSmall then fromSmall small a.metadata else fromLarge large a.metadata).Stores
      a.metadata residue := by
  split
  · have le := isSmall_iff.mp ‹_›
    exact setSmall_stores h le (whenSmall le)
  · have gt := mt isSmall_iff.mpr ‹_›
    exact maskLarge_stores h gt (whenLarge gt)

theorem gcd_magnitude_lt (ha : a.Valid) (ne : a.toNat ≠ 0) (other : Nat) :
    Nat.gcd (signedMagnitude a.bits a.toNat) other < 2 ^ a.bits := by
  have double := two_pow_eq_double ha.bits_pos
  have positive := signedMagnitude_pos ha.toNat_lt ne
  have half := signedMagnitude_le_half ha.bits_pos ha.toNat_lt
  have := Nat.gcd_le_left other positive
  omega

/-- `gcd` takes the magnitudes of the two's complement values. -/
theorem gcd_spec (ha : a.Valid) (hb : b.Valid) (same : a.bits = b.bits) :
    ∃ c, a.gcd b = some c ∧
      c.Stores (if a.toNat = 0 then b.metadata else a.metadata)
        (strideGcd a.bits a.toNat b.toNat) := by
  rw [gcd, expectSameBits_of_eq same]
  simp only [some_bind, pure_def, isZero_eq ha, isZero_eq hb,
    decide_eq_true_eq, some_inj, exists_eq_left', strideGcd]
  by_cases zeroA : a.toNat = 0
  · simpa [zeroA] using hb.stores
  by_cases zeroB : b.toNat = 0
  · simpa [zeroA, zeroB] using ha.stores
  simp only [zeroA, zeroB, if_false]
  have bounded := gcd_magnitude_lt ha zeroA (signedMagnitude a.bits b.toNat)
  apply fromForm_stores ha
  · intro small
    rw [smallMagnitude_eq ha small, smallMagnitude_eq hb (same ▸ small), ← same,
      Nat.mod_eq_of_lt bounded]
  · intro wide
    rw [largeMagnitude_eq ha wide, largeMagnitude_eq hb (same ▸ wide), ← same,
      Nat.mod_eq_of_lt bounded]

end Gcd

section ExtendedGcd

variable {a b : BitVec} {extendedGcd : Int → Int → Nat × Int × Int}

/-- What the big number library documents of its extended Euclidean algorithm. -/
structure Bezout (extendedGcd : Int → Int → Nat × Int × Int) : Prop where
  gcd_eq : ∀ x y, (extendedGcd x y).1 = Int.gcd x y
  combination : ∀ x y,
    x * (extendedGcd x y).2.1 + y * (extendedGcd x y).2.2 = (extendedGcd x y).1

theorem toNat_modEq_toInt (h : b.Valid) : (b.toNat : Int) ≡ b.toInt [ZMOD 2 ^ b.bits] := by
  have stored : residue b.bits b.toInt = b.toNat := residue_signedValue h.toNat_lt
  rw [← stored, natCast_residue]
  exact Int.mod_modEq _ _

theorem combination_modEq (ha : a.Valid) (hb : b.Valid) (same : a.bits = b.bits) {x y : Int}
    {gcd : Nat} (combined : a.toInt * x + b.toInt * y = gcd) :
    a.toNat * residue a.bits x + b.toNat * residue a.bits y ≡ gcd [MOD 2 ^ a.bits] := by
  have left := toNat_modEq_toInt ha
  have right := toNat_modEq_toInt hb
  rw [← same] at right
  have coefficient : ∀ z : Int, (residue a.bits z : Int) ≡ z [ZMOD 2 ^ a.bits] := by
    intro z
    rw [natCast_residue]
    exact Int.mod_modEq _ _
  have sum := (left.mul (coefficient x)).add (right.mul (coefficient y))
  rw [combined] at sum
  exact (Int.natCast_modEq_iff).mp (by exact_mod_cast sum)

theorem extendedGcd_fst (bezout : Bezout extendedGcd) (ha : a.Valid) (hb : b.Valid) :
    (extendedGcd a.toInt b.toInt).1 =
      Nat.gcd (signedMagnitude a.bits a.toNat) (signedMagnitude b.bits b.toNat) := by
  rw [bezout.gcd_eq, Int.gcd, toInt, toInt, natAbs_signedValue ha.toNat_lt,
    natAbs_signedValue hb.toNat_lt]

theorem gcdExt_of_ne (bezout : Bezout extendedGcd) (ha : a.Valid) (hb : b.Valid)
    (same : a.bits = b.bits) (neA : a.toNat ≠ 0) (neB : b.toNat ≠ 0) :
    ∃ gcd x y, a.gcdExt extendedGcd b = some (gcd, x, y) ∧ a.gcd b = some gcd ∧
      gcd.Stores a.metadata (extendedGcd a.toInt b.toInt).1 ∧
      x.Stores a.metadata (residue a.bits (extendedGcd a.toInt b.toInt).2.1) ∧
      y.Stores a.metadata (residue a.bits (extendedGcd a.toInt b.toInt).2.2) := by
  have gcdEq := extendedGcd_fst bezout ha hb
  have bounded := gcd_magnitude_lt ha neA (signedMagnitude b.bits b.toNat)
  rw [← gcdEq] at bounded
  rw [gcdExt, gcd, expectSameBits_of_eq same]
  simp only [some_bind, pure_def, isZero_eq ha, isZero_eq hb, decide_eq_true_eq, neA, neB, if_false]
  by_cases small : a.bits ≤ 64
  · rw [if_pos (isSmall_iff.mpr small), if_pos (isSmall_iff.mpr small), smallSigned_eq ha small,
      smallSigned_eq hb (same ▸ small), smallMagnitude_eq ha small,
      smallMagnitude_eq hb (same ▸ small), ← gcdEq]
    exact ⟨_, _, _, rfl, rfl, setSmall_stores ha small (Nat.mod_eq_of_lt bounded),
      setSmall_stores ha small (residue_residue small _),
      setSmall_stores ha small (residue_residue small _)⟩
  · have below : ∀ z : Int, residue a.bits z % 2 ^ a.bits = residue a.bits z := fun z =>
      Nat.mod_eq_of_lt (residue_lt _ z)
    rw [if_neg (mt isSmall_iff.mp small), if_neg (mt isSmall_iff.mp small),
      largeSigned_eq ha small, largeSigned_eq hb (same ▸ small), largeMagnitude_eq ha small,
      largeMagnitude_eq hb (same ▸ small), ← gcdEq]
    exact ⟨_, _, _, rfl, rfl, maskLarge_stores ha small (Nat.mod_eq_of_lt bounded),
      maskLarge_stores ha small (below _), maskLarge_stores ha small (below _)⟩

/-- `gcd_ext` returns what `gcd` returns, with coefficients of a combination that gives it. -/
theorem gcdExt_spec (bezout : Bezout extendedGcd) (ha : a.Valid) (hb : b.Valid)
    (same : a.bits = b.bits) :
    ∃ gcd x y, a.gcdExt extendedGcd b = some (gcd, x, y) ∧ a.gcd b = some gcd ∧
      x.bits = a.bits ∧ y.bits = a.bits ∧
      a.toNat * x.toNat + b.toNat * y.toNat ≡ gcd.toNat [MOD 2 ^ a.bits] := by
  by_cases nonzero : a.toNat = 0 ∨ b.toNat = 0
  · obtain ⟨zero, makeZero, zeroStores⟩ := fromU64_spec 0 ha.bits_pos ha.bits_le
    obtain ⟨one, makeOne, oneStores⟩ := fromU64_spec 1 ha.bits_pos ha.bits_le
    have zeroBits : zero.bits = a.bits := zeroStores.bits_eq.trans (packed_bits false a.bits)
    have oneBits : one.bits = a.bits := oneStores.bits_eq.trans (packed_bits false a.bits)
    have unit : one.toNat = 1 := by
      rw [oneStores.toNat_eq]
      exact Nat.mod_eq_of_lt (Nat.one_lt_two_pow (by have := ha.bits_pos; omega))
    rw [gcdExt, gcd, expectSameBits_of_eq same, BitVec.zero, BitVec.one, makeZero, makeOne]
    simp only [some_bind, pure_def, isZero_eq ha, isZero_eq hb, decide_eq_true_eq]
    by_cases zeroA : a.toNat = 0
    · exact ⟨b, zero, one, by simp [zeroA], by simp [zeroA], zeroBits, oneBits,
        by simp [zeroA, unit, Nat.ModEq]⟩
    · have zeroB : b.toNat = 0 := nonzero.resolve_left zeroA
      exact ⟨a, one, zero, by simp [zeroA, zeroB], by simp [zeroA, zeroB], oneBits, zeroBits,
        by simp [zeroB, unit, Nat.ModEq]⟩
  · obtain ⟨gcd, x, y, ran, ranGcd, gcdStores, xStores, yStores⟩ :=
      gcdExt_of_ne bezout ha hb same (by tauto) (by tauto)
    refine ⟨gcd, x, y, ran, ranGcd, xStores.bits_eq, yStores.bits_eq, ?_⟩
    rw [xStores.toNat_eq, yStores.toNat_eq, gcdStores.toNat_eq]
    exact combination_modEq ha hb same (bezout.combination a.toInt b.toInt)

end ExtendedGcd

section Remainder

variable {a b : BitVec} {n x y r : Nat}

/-- What `rem_euclid` makes of the remainder `r`: the magnitude of the divisor is added when the
top bit of `r` is set. -/
def corrected (n r magnitude : Nat) : Nat :=
  if 2 ^ (n - 1) ≤ r then (r + magnitude) % 2 ^ n else r

theorem remEuclid_spec (ha : a.Valid) (hb : b.Valid) (same : a.bits = b.bits) (ne : b.toNat ≠ 0) :
    ∃ c, a.remEuclid b = some c ∧ c.Stores a.metadata
      (corrected a.bits (residue a.bits (a.denote.tmod b.denote))
        (signedMagnitude a.bits b.toNat)) := by
  obtain ⟨r, ran, stores⟩ := rem_spec ha hb same ne
  have rBits : r.bits = a.bits := stores.bits_eq
  rw [remEuclid, expectSameBits_of_eq same, ran]
  simp only [some_bind, pure_def, msb_eq stores.valid,
    decide_eq_true_eq, rBits, stores.toNat_eq, corrected]
  split
  · have summand : (if b.msb then b.neg else b).Stores b.metadata
        (signedMagnitude a.bits b.toNat) := by
      have lt := hb.toNat_lt
      rw [msb_eq hb, same]
      simp only [signedMagnitude, decide_eq_true_eq]
      split
      · have stored := neg_stores hb
        rwa [Nat.mod_eq_of_lt (by omega)] at stored
      · exact hb.stores
    have sameSum : r.bits = (if b.msb then b.neg else b).bits := by
      rw [rBits, same]
      exact summand.bits_eq.symm
    obtain ⟨c, added, sum⟩ := add_spec stores.valid summand.valid sameSum
    rw [stores.toNat_eq, summand.toNat_eq, stores.metadata_eq, rBits] at sum
    exact ⟨c, added, sum⟩
  · exact ⟨r, rfl, stores⟩

theorem natCast_two_pow (n : Nat) : ((2 ^ n : Nat) : Int) = 2 ^ n := by simp

theorem corrected_tmod (pos : 1 ≤ n) {z d : Int} (ne : d ≠ 0) (half : d.natAbs ≤ 2 ^ (n - 1)) :
    (corrected n (residue n (z.tmod d)) d.natAbs : Int) = z % d := by
  have double := two_pow_eq_double pos
  have power := natCast_two_pow n
  have nonneg := Int.emod_nonneg z ne
  have below : z % d < d.natAbs := by
    have := Int.emod_lt z ne
    simpa using this
  obtain ⟨e, eq⟩ := Int.eq_ofNat_of_zero_le nonneg
  rw [Int.tmod_eq_emod, eq]
  by_cases kept : 0 ≤ z ∨ d ∣ z
  · have stored : residue n ((e : Int) - 0) = e := by
      rw [Int.sub_zero]
      exact residue_of_lt (by omega)
    rw [if_pos kept, Int.natCast_zero, stored, corrected, if_neg (by omega)]
  · have positive : 0 < e := by
      omega
    have stored : residue n ((e : Int) - d.natAbs) = 2 ^ n - (d.natAbs - e) := by
      apply residue_eq_of_lt (q := 1)
      · omega
      · omega
    rw [if_neg kept, stored, corrected, if_pos (by omega),
      show 2 ^ n - (d.natAbs - e) + d.natAbs = e + 2 ^ n by omega, Nat.add_mod_right,
      Nat.mod_eq_of_lt (by omega)]

theorem corrected_unsigned (pos : 1 ≤ n) (ltX : x < 2 ^ n) (ltY : y < 2 ^ n) (ne : y ≠ 0) :
    (corrected n (residue n ((x : Int).tmod y)) (signedMagnitude n y) : Int) = (x : Int) % y ↔
      (2 ^ (n - 1) ≤ x → y ≤ x) := by
  have double := two_pow_eq_double pos
  have below : x % y < y := Nat.mod_lt x (by omega)
  have stored : residue n ((x : Int).tmod y) = x % y := by
    exact residue_of_lt (by omega)
  have exact_iff : corrected n (x % y) (signedMagnitude n y) = x % y ↔ x % y < 2 ^ (n - 1) := by
    unfold corrected signedMagnitude
    split
    · rw [if_pos (by omega), show x % y + (2 ^ n - y) = 2 ^ n - (y - x % y) by omega,
        Nat.mod_eq_of_lt (by omega)]
      omega
    · omega
  rw [stored, ← Int.natCast_mod, Int.natCast_inj, exact_iff]
  by_cases le : y ≤ x
  · have quotient : x % y ≤ x - y := by
      rw [Nat.mod_eq_sub_mod le]
      exact Nat.mod_le _ _
    constructor
    · intro _ _
      exact le
    · omega
  · rw [Nat.mod_eq_of_lt (by omega)]
    omega

/-- A negative dividend and a divisor that `%` takes to be positive, of no smaller magnitude. -/
theorem corrected_between (pos : 1 ≤ n) (topY : 2 ^ (n - 1) ≤ y) (topX : 2 ^ (n - 1) ≤ x)
    (ltX : x < 2 ^ n) (ltY : y < 2 ^ n) :
    (corrected n (residue n ((signedValue n x).tmod y)) (2 ^ n - y) : Int) =
        signedValue n x % (2 ^ n - y : Nat) ↔
      (2 ^ (n - 1) ≤ y → if 2 ^ (n - 1) ≤ x then y ≤ x else x + y < 2 ^ n) := by
  have double := two_pow_eq_double pos
  have power := natCast_two_pow n
  have dividend : signedValue n x = -((2 ^ n - x : Nat) : Int) := by
    rw [signedValue, if_pos topX]
    omega
  have shifted : signedValue n x % (2 ^ n - y : Nat) =
      ((x : Int) - y) % (2 ^ n - y : Nat) := by
    rw [dividend, Int.emod_eq_emod_iff_emod_sub_eq_zero, ← Int.dvd_iff_emod_eq_zero]
    exact ⟨-1, by omega⟩
  have remainder : (signedValue n x).tmod y = -(((2 ^ n - x) % y : Nat) : Int) := by
    rw [dividend, Int.neg_tmod, Int.ofNat_tmod]
  rw [shifted, remainder]
  simp only [topY, topX, if_true, forall_const]
  by_cases same : 2 ^ n - x = y
  · -- both are the minimum
    have minimum : x = y := by omega
    rw [same, Nat.mod_self, minimum]
    simp [residue, corrected]
  rw [Nat.mod_eq_of_lt (by omega)]
  have stored : residue n (-((2 ^ n - x : Nat) : Int)) = x := by
    apply residue_eq_of_lt (q := 1)
    · exact ltX
    · omega
  rw [stored, corrected, if_pos topX]
  by_cases le : y ≤ x
  · have wrapped : (x + (2 ^ n - y)) % 2 ^ n = x - y := by
      rw [show x + (2 ^ n - y) = x - y + 2 ^ n by omega, Nat.add_mod_right,
        Nat.mod_eq_of_lt (by omega)]
    have fits : ((x : Int) - y) % (2 ^ n - y : Nat) = (x - y : Nat) := by
      rw [Int.emod_eq_of_lt (by omega) (by omega)]
      omega
    simp [wrapped, fits, le]
  · have kept : (x + (2 ^ n - y)) % 2 ^ n = x + (2 ^ n - y) := Nat.mod_eq_of_lt (by omega)
    have below := Int.emod_lt_of_pos ((x : Int) - y) (show (0 : Int) < (2 ^ n - y : Nat) by omega)
    constructor
    · omega
    · intro ge
      exact absurd ge le

/-- A divisor without the flag is not below zero for `%`, but the correction takes it to be. -/
theorem corrected_signed_unsigned (pos : 1 ≤ n) (ltX : x < 2 ^ n) (ltY : y < 2 ^ n) (ne : y ≠ 0) :
    (corrected n (residue n ((signedValue n x).tmod y)) (signedMagnitude n y) : Int) =
        signedValue n x % signedValue n y ↔
      (2 ^ (n - 1) ≤ y → if 2 ^ (n - 1) ≤ x then y ≤ x else x + y < 2 ^ n) := by
  have power := natCast_two_pow n
  by_cases top : 2 ^ (n - 1) ≤ y
  · have divisor : signedValue n y = -((2 ^ n - y : Nat) : Int) := by
      rw [signedValue, if_pos top]
      omega
    rw [divisor, Int.emod_neg, signedMagnitude, if_pos top]
    by_cases topX : 2 ^ (n - 1) ≤ x
    · exact corrected_between pos top topX ltX ltY
    · have value : signedValue n x = x := if_neg topX
      have stored : residue n ((x : Int).tmod y) = x := by
        rw [← Int.ofNat_tmod, Nat.mod_eq_of_lt (by omega)]
        exact residue_of_lt ltX
      rw [value, stored, corrected, if_neg topX, ← Int.natCast_mod, Int.natCast_inj, eq_comm,
        Nat.mod_eq_iff_lt (by omega)]
      simp only [top, topX, if_false, forall_const]
      omega
  · have value : signedValue n y = y := if_neg top
    have magnitude : signedMagnitude n y = (y : Int).natAbs := by
      rw [signedMagnitude, if_neg top, Int.natAbs_natCast]
    rw [value, magnitude, corrected_tmod pos (by omega) (by omega)]
    simp [top]

/-- A dividend without the flag is not below zero for `%`. -/
theorem corrected_unsigned_signed (pos : 1 ≤ n) (ltY : y < 2 ^ n) (ne : y ≠ 0) :
    (corrected n (residue n ((x : Int).tmod (signedValue n y))) (signedMagnitude n y) : Int) =
        signedValue n x % signedValue n y ↔
      (2 ^ (n - 1) ≤ x → signedMagnitude n y ∣ 2 ^ n) := by
  have magnitude := natAbs_signedValue ltY
  have half := signedMagnitude_le_half pos ltY
  have positive := signedMagnitude_pos ltY ne
  rw [← magnitude] at half positive ⊢
  rw [corrected_tmod pos (by omega) half]
  by_cases top : 2 ^ (n - 1) ≤ x
  · have value : signedValue n x = x - 2 ^ n := if_pos top
    rw [value, Int.emod_eq_emod_iff_emod_sub_eq_zero, sub_sub_cancel,
      ← Int.dvd_iff_emod_eq_zero, ← natCast_two_pow, ← Int.natAbs_dvd_natAbs, Int.natAbs_natCast]
    simp [top]
  · have value : signedValue n x = x := if_neg top
    simp [value, top]

end Remainder

section Reading

variable {a b c : BitVec}

/-- The value that the pair gives to one of its vectors: unsigned when neither carries the sign
flag, two's complement otherwise. -/
def reading (a b c : BitVec) : Int := if a.isSigned || b.isSigned then c.toInt else c.toNat

/-- Neither operand sits where the two readings, or an early return, part. -/
def GcdExact (n : Nat) (a b : BitVec) : Prop :=
  if a.isSigned || b.isSigned then
    (a.toNat = 0 → b.toNat ≤ 2 ^ (n - 1)) ∧ (b.toNat = 0 → a.toNat ≤ 2 ^ (n - 1))
  else
    a.toNat = 0 ∨ b.toNat = 0 ∨ (a.toNat < 2 ^ (n - 1) ∧ b.toNat < 2 ^ (n - 1)) ∨
      ((∀ d, d ∣ a.toNat → d ∣ b.toNat → d ∣ 2 ^ n) ∧
        ∀ d, d ∣ signedMagnitude n a.toNat → d ∣ signedMagnitude n b.toNat → d ∣ 2 ^ n)

/-- A dividend or divisor with its top bit set does not spoil the correction of the remainder. -/
def RemExact (n : Nat) (a b : BitVec) : Prop :=
  match a.isSigned, b.isSigned with
  | false, false => 2 ^ (n - 1) ≤ a.toNat → b.toNat ≤ a.toNat
  | true, true => True
  | true, false => 2 ^ (n - 1) ≤ b.toNat →
      if 2 ^ (n - 1) ≤ a.toNat then b.toNat ≤ a.toNat else a.toNat + b.toNat < 2 ^ n
  | false, true => 2 ^ (n - 1) ≤ a.toNat → signedMagnitude n b.toNat ∣ 2 ^ n

theorem reading_signed (flagged : (a.isSigned || b.isSigned) = true) :
    reading a b c = signedValue c.bits c.toNat := by
  rw [reading, if_pos flagged]
  rfl

theorem reading_unsigned (clear : (a.isSigned || b.isSigned) = false) :
    reading a b c = c.toNat := by
  simp [reading, clear]

theorem signedMagnitude_zero (n : Nat) : signedMagnitude n 0 = 0 := by
  rw [signedMagnitude, if_neg (by simp)]

theorem eq_signedMagnitude_iff {n x : Nat} (pos : 1 ≤ n) (lt : x < 2 ^ n) :
    x = signedMagnitude n x ↔ x ≤ 2 ^ (n - 1) := by
  have double := two_pow_eq_double pos
  unfold signedMagnitude
  split <;> omega

theorem dvd_signedMagnitude_iff {n x d : Nat} (lt : x < 2 ^ n) (dvd : d ∣ 2 ^ n) :
    d ∣ signedMagnitude n x ↔ d ∣ x := by
  unfold signedMagnitude
  split
  · exact (Nat.dvd_sub_iff_right lt.le dvd)
  · exact Iff.rfl

theorem signedMagnitude_add {n x : Nat} (lt : x < 2 ^ n) (top : 2 ^ (n - 1) ≤ x) :
    signedMagnitude n x + x = 2 ^ n := by
  rw [signedMagnitude, if_pos top]
  omega

/-- The divisors that the two readings of a pair share are those that divide the modulus, if one
of the two has its top bit set. -/
theorem gcd_signedMagnitude_iff {n x y : Nat} (ltX : x < 2 ^ n) (ltY : y < 2 ^ n) :
    Nat.gcd (signedMagnitude n x) (signedMagnitude n y) = Nat.gcd x y ↔
      (x < 2 ^ (n - 1) ∧ y < 2 ^ (n - 1)) ∨
        ((∀ d, d ∣ x → d ∣ y → d ∣ 2 ^ n) ∧
          ∀ d, d ∣ signedMagnitude n x → d ∣ signedMagnitude n y → d ∣ 2 ^ n) := by
  constructor
  · intro equal
    by_cases low : x < 2 ^ (n - 1) ∧ y < 2 ^ (n - 1)
    · exact .inl low
    · have common : ∀ d, d ∣ x → d ∣ y →
          d ∣ signedMagnitude n x ∧ d ∣ signedMagnitude n y := by
        intro d dvdX dvdY
        apply Nat.dvd_gcd_iff.mp
        rw [equal]
        exact Nat.dvd_gcd dvdX dvdY
      have common' : ∀ d, d ∣ signedMagnitude n x → d ∣ signedMagnitude n y → d ∣ x ∧ d ∣ y := by
        intro d dvdX dvdY
        apply Nat.dvd_gcd_iff.mp
        rw [← equal]
        exact Nat.dvd_gcd dvdX dvdY
      -- the operand with its top bit set and its magnitude add up to the modulus
      have modulus : ∀ d, d ∣ x → d ∣ y → d ∣ signedMagnitude n x → d ∣ signedMagnitude n y →
          d ∣ 2 ^ n := by
        intro d dvdX dvdY magnitudeX magnitudeY
        by_cases topX : 2 ^ (n - 1) ≤ x
        · rw [← signedMagnitude_add ltX topX]
          exact Nat.dvd_add magnitudeX dvdX
        · rw [← signedMagnitude_add ltY (by omega)]
          exact Nat.dvd_add magnitudeY dvdY
      refine .inr ⟨fun d dvdX dvdY => ?_, fun d dvdX dvdY => ?_⟩
      · exact modulus d dvdX dvdY (common d dvdX dvdY).1 (common d dvdX dvdY).2
      · exact modulus d (common' d dvdX dvdY).1 (common' d dvdX dvdY).2 dvdX dvdY
  · intro condition
    cases condition with
    | inl low =>
      rw [signedMagnitude, if_neg (by omega), signedMagnitude, if_neg (by omega)]
    | inr divides =>
      apply Nat.dvd_antisymm
      · have power := divides.2 _ (Nat.gcd_dvd_left _ _) (Nat.gcd_dvd_right _ _)
        apply Nat.dvd_gcd
        · exact (dvd_signedMagnitude_iff ltX power).mp (Nat.gcd_dvd_left _ _)
        · exact (dvd_signedMagnitude_iff ltY power).mp (Nat.gcd_dvd_right _ _)
      · have power := divides.1 _ (Nat.gcd_dvd_left _ _) (Nat.gcd_dvd_right _ _)
        apply Nat.dvd_gcd
        · exact (dvd_signedMagnitude_iff ltX power).mpr (Nat.gcd_dvd_left _ _)
        · exact (dvd_signedMagnitude_iff ltY power).mpr (Nat.gcd_dvd_right _ _)

theorem strideGcd_eq_iff (ha : a.Valid) (hb : b.Valid) (same : a.bits = b.bits) :
    strideGcd a.bits a.toNat b.toNat = Int.gcd (reading a b a) (reading a b b) ↔
      GcdExact a.bits a b := by
  have ltA := ha.toNat_lt
  have ltB : b.toNat < 2 ^ a.bits := same ▸ hb.toNat_lt
  unfold GcdExact strideGcd
  by_cases flagged : (a.isSigned || b.isSigned) = true
  · rw [if_pos flagged, reading_signed flagged, reading_signed flagged, ← same, Int.gcd,
      natAbs_signedValue ltA, natAbs_signedValue ltB]
    by_cases zeroA : a.toNat = 0
    · simp [zeroA, signedMagnitude_zero, eq_signedMagnitude_iff ha.bits_pos ltB]
    by_cases zeroB : b.toNat = 0
    · simp [zeroA, zeroB, signedMagnitude_zero, eq_signedMagnitude_iff ha.bits_pos ltA]
    simp [zeroA, zeroB]
  · rw [if_neg flagged]
    rw [Bool.not_eq_true] at flagged
    rw [reading_unsigned flagged, reading_unsigned flagged, Int.gcd_natCast_natCast]
    by_cases zeroA : a.toNat = 0
    · simp [zeroA]
    by_cases zeroB : b.toNat = 0
    · simp [zeroA, zeroB]
    simp only [zeroA, zeroB, if_false, false_or]
    exact gcd_signedMagnitude_iff ltA ltB

theorem corrected_eq_iff (ha : a.Valid) (hb : b.Valid) (same : a.bits = b.bits) (ne : b.toNat ≠ 0) :
    (corrected a.bits (residue a.bits (a.denote.tmod b.denote))
        (signedMagnitude a.bits b.toNat) : Int) = reading a b a % reading a b b ↔
      RemExact a.bits a b := by
  have pos := ha.bits_pos
  have ltA := ha.toNat_lt
  have ltB : b.toNat < 2 ^ a.bits := same ▸ hb.toNat_lt
  unfold RemExact reading denote toInt
  rw [← same]
  cases a.isSigned <;> cases b.isSigned
  · simpa using corrected_unsigned pos ltA ltB ne
  · simpa using corrected_unsigned_signed pos ltB ne
  · simpa using corrected_signed_unsigned pos ltA ltB ne
  · have magnitude := natAbs_signedValue ltB
    have half := signedMagnitude_le_half pos ltB
    have positive := signedMagnitude_pos ltB ne
    rw [← magnitude] at half positive ⊢
    simpa using corrected_tmod pos (by omega) half

/-- The laws of `gcd`, `gcd_ext` and `rem_euclid` on a pair of vectors of width `n`. -/
structure EuclidLaws (extendedGcd : Int → Int → Nat × Int × Int) (n : Nat) (a b : BitVec) :
    Prop where
  gcd : ∃ c, a.gcd b = some c ∧ c.bits = n ∧ c.toNat = Int.gcd (reading a b a) (reading a b b)
  gcdExt : ∃ g x y, a.gcdExt extendedGcd b = some (g, x, y) ∧ a.gcd b = some g ∧ x.bits = n ∧
    y.bits = n ∧ a.toNat * x.toNat + b.toNat * y.toNat ≡ g.toNat [MOD 2 ^ n]
  remEuclid : b.toNat ≠ 0 → ∃ r, a.remEuclid b = some r ∧ r.bits = n ∧
    ∀ z : Int, (0 ≤ z ∧ z < |reading a b b| ∧ reading a b b ∣ reading a b a - z) ↔ z = r.toNat

theorem reading_ne_zero (hb : b.Valid) (ne : b.toNat ≠ 0) : reading a b b ≠ 0 := by
  have positive := signedMagnitude_pos hb.toNat_lt ne
  rw [← natAbs_signedValue hb.toNat_lt] at positive
  unfold reading toInt
  split <;> omega

theorem unique_remainder_iff {x d r : Int} (ne : d ≠ 0) :
    (∀ z : Int, (0 ≤ z ∧ z < |d| ∧ d ∣ x - z) ↔ z = r) ↔ r = x % d := by
  have laws : ∀ z : Int, (0 ≤ z ∧ z < |d| ∧ d ∣ x - z) ↔ x % d = z := by
    intro z
    rw [Int.emod_eq_iff ne, Int.abs_eq_natAbs, dvd_sub_comm]
  simp only [laws]
  constructor
  · intro all
    exact ((all _).mp rfl).symm
  · intro equal z
    rw [equal, eq_comm]

/-- The laws hold of a pair exactly when no operand sits where the signed and the unsigned reading
part. -/
theorem euclid_laws_iff (extendedGcd : Int → Int → Nat × Int × Int) (bezout : Bezout extendedGcd)
    (n : Nat) (a b : BitVec) (ha : a.Valid) (hb : b.Valid) (aBits : a.bits = n)
    (bBits : b.bits = n) :
    EuclidLaws extendedGcd n a b ↔ GcdExact n a b ∧ (b.toNat ≠ 0 → RemExact n a b) := by
  subst aBits
  have same : a.bits = b.bits := bBits.symm
  obtain ⟨c, ranGcd, gcdStores⟩ := gcd_spec ha hb same
  have cBits : c.bits = a.bits := by
    rw [gcdStores.bits_eq]
    split
    · exact bBits
    · rfl
  constructor
  · intro laws
    constructor
    · obtain ⟨c', ran, -, value⟩ := laws.gcd
      rw [ranGcd] at ran
      cases ran
      rw [← strideGcd_eq_iff ha hb same, ← gcdStores.toNat_eq, value]
    · intro ne
      obtain ⟨r, ran, stores⟩ := remEuclid_spec ha hb same ne
      obtain ⟨r', ran', -, unique⟩ := laws.remEuclid ne
      rw [ran] at ran'
      cases ran'
      rw [unique_remainder_iff (reading_ne_zero hb ne), stores.toNat_eq] at unique
      exact (corrected_eq_iff ha hb same ne).mp unique
  · rintro ⟨gcdExact, remExact⟩
    refine ⟨⟨c, ranGcd, cBits, ?_⟩, gcdExt_spec bezout ha hb same, fun ne => ?_⟩
    · rw [gcdStores.toNat_eq]
      exact (strideGcd_eq_iff ha hb same).mpr gcdExact
    · obtain ⟨r, ran, stores⟩ := remEuclid_spec ha hb same ne
      refine ⟨r, ran, stores.bits_eq, ?_⟩
      rw [unique_remainder_iff (reading_ne_zero hb ne), stores.toNat_eq]
      exact (corrected_eq_iff ha hb same ne).mpr (remExact ne)

/-- The laws at minus seven and three, both with the sign flag. -/
theorem euclid_laws_minus_seven :
    EuclidLaws (fun x y => (Int.gcd x y, Int.gcdA x y, Int.gcdB x y)) 8
      ⟨.small 0xf9, 17⟩ ⟨.small 3, 17⟩ := by
  have bezout : Bezout fun x y => (Int.gcd x y, Int.gcdA x y, Int.gcdB x y) :=
    ⟨fun _ _ => rfl, fun x y => (Int.gcd_eq_gcd_ab x y).symm⟩
  exact (euclid_laws_iff _ bezout 8 ⟨.small 0xf9, 17⟩ ⟨.small 3, 17⟩
    ⟨by decide, by decide, by decide, rfl⟩ ⟨by decide, by decide, by decide, rfl⟩ rfl rfl).mpr
    ⟨⟨by decide, by decide⟩, fun _ => trivial⟩

/-- `gcd` of 250 and 6 at eight bits, both without the sign flag, is 6: it takes the magnitude of
250 to be that of minus six. -/
theorem gcd_of_top_bit_not_greatest :
    (∀ extendedGcd, Reachable extendedGcd ⟨.small 250, 16⟩ ∧ Reachable extendedGcd ⟨.small 6, 16⟩) ∧
    gcd ⟨.small 250, 16⟩ ⟨.small 6, 16⟩ = some ⟨.small 6, 16⟩ ∧
    ∀ extendedGcd, ¬ EuclidLaws extendedGcd 8 ⟨.small 250, 16⟩ ⟨.small 6, 16⟩ := by
  have computed : gcd ⟨.small 250, 16⟩ ⟨.small 6, 16⟩ = some ⟨.small 6, 16⟩ := by decide +kernel
  refine ⟨fun extendedGcd => ⟨?_, ?_⟩, computed, fun extendedGcd laws => ?_⟩
  · exact .construct (.fromPrim 250 8) (by decide)
  · exact .construct (.fromPrim 6 8) (by decide)
  · obtain ⟨c, ran, -, value⟩ := laws.gcd
    cases ran
    revert value
    decide +kernel

end Reading

end Fugue.Bv.BitVec
