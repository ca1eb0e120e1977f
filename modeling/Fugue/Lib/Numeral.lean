import Mathlib.Data.List.Basic
import Mathlib.Tactic.IntervalCases

/-!
# Numerals as text

Positional numerals over characters, of a base of at most sixteen: reading back what `Nat.toDigits`
writes, and cutting a text at the last occurrence of a separator.
-/

namespace Fugue.Lib

open List

/-- The value of a digit character, a letter of either case standing for ten and above. -/
def digitValue (c : Char) : Option Nat :=
  if '0' ≤ c ∧ c ≤ '9' then some (c.toNat - '0'.toNat)
  else if 'a' ≤ c ∧ c ≤ 'z' then some (c.toNat - 'a'.toNat + 10)
  else if 'A' ≤ c ∧ c ≤ 'Z' then some (c.toNat - 'A'.toNat + 10)
  else none

def pushDigit (base value : Nat) (c : Char) : Option Nat :=
  (digitValue c).bind fun digit => if digit < base then some (base * value + digit) else none

/-- The value of a text of at least one digit of the base, most significant first. -/
def parseDigits (base : Nat) (text : List Char) : Option Nat :=
  if text = [] then none else text.foldlM (pushDigit base) 0

/-- The parts before and after the last occurrence of the separator. -/
def rsplitOnce (separator : Char) : List Char → Option (List Char × List Char)
  | [] => none
  | c :: rest =>
      match rsplitOnce separator rest with
      | some (before, after) => some (c :: before, after)
      | none => if c = separator then some ([], rest) else none

section Digits

variable {base n : Nat}

theorem digitValue_digitChar {digit : Nat} (lt : digit < 16) :
    digitValue digit.digitChar = some digit := by
  interval_cases digit <;> rfl

theorem pushDigit_digitChar {digit value : Nat} (le : base ≤ 16) (lt : digit < base) :
    pushDigit base value digit.digitChar = some (base * value + digit) := by
  simp [pushDigit, digitValue_digitChar (lt_of_lt_of_le lt le), lt]

theorem foldlM_toDigits (one_lt : 1 < base) (le : base ≤ 16) :
    (Nat.toDigits base n).foldlM (pushDigit base) 0 = some n := by
  induction n using Nat.strongRecOn with
  | ind n ih =>
    rw [Nat.toDigits_eq_if one_lt]
    by_cases small : n < base
    · simp [small, pushDigit_digitChar le small]
    · have shorter : n / base < n := Nat.div_lt_self (by omega) one_lt
      have digit : n % base < base := Nat.mod_lt n (by omega)
      simp [small, foldlM_append, ih _ shorter, pushDigit_digitChar le digit, Nat.div_add_mod]

/-- Reading a numeral gives back the number it was written for. -/
theorem parseDigits_toDigits (one_lt : 1 < base) (le : base ≤ 16) (n : Nat) :
    parseDigits base (Nat.toDigits base n) = some n := by
  simp [parseDigits, foldlM_toDigits one_lt le]

theorem digitChar_of_mem_toDigits (one_lt : 1 < base) {c : Char}
    (mem : c ∈ Nat.toDigits base n) : ∃ digit < base, c = digit.digitChar := by
  induction n using Nat.strongRecOn with
  | ind n ih =>
    rw [Nat.toDigits_eq_if one_lt] at mem
    by_cases small : n < base
    · simp only [small, if_true, mem_singleton] at mem
      exact ⟨n, small, mem⟩
    · simp only [small, if_false, mem_append, mem_singleton] at mem
      cases mem with
      | inl earlier => exact ih _ (Nat.div_lt_self (by omega) one_lt) earlier
      | inr last => exact ⟨n % base, Nat.mod_lt n (by omega), last⟩

theorem not_mem_toDigits (one_lt : 1 < base) (le : base ≤ 16) {c : Char}
    (other : digitValue c = none) : c ∉ Nat.toDigits base n := by
  intro mem
  obtain ⟨digit, lt, rfl⟩ := digitChar_of_mem_toDigits one_lt mem
  simp [digitValue_digitChar (lt_of_lt_of_le lt le)] at other

end Digits

section Split

variable {separator : Char} {before after : List Char}

theorem rsplitOnce_of_not_mem (absent : separator ∉ after) : rsplitOnce separator after = none := by
  induction after with
  | nil => rfl
  | cons c rest ih =>
    simp only [mem_cons, not_or] at absent
    simp [rsplitOnce, ih absent.2, Ne.symm absent.1]

theorem rsplitOnce_append (absent : separator ∉ after) :
    rsplitOnce separator (before ++ separator :: after) = some (before, after) := by
  induction before with
  | nil => simp [rsplitOnce, rsplitOnce_of_not_mem absent]
  | cons c rest ih => simp [rsplitOnce, ih]

end Split

end Fugue.Lib
