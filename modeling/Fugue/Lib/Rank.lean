import Mathlib.Data.List.Basic
import Mathlib.Order.Lattice
import Mathlib.Data.Nat.Notation
import Mathlib.Tactic.Common

/-!
# Renumbering what is kept

`rank kept i` is the number of kept indices below `i`: the new number of `i` once everything that is
not kept has been taken out. On kept indices it is strictly monotone, and it takes every value below
the number of kept indices.
-/

namespace Fugue.Lib

open List

variable (kept : ℕ → Bool)

/-- The number of kept indices below `i`. -/
def rank : ℕ → ℕ
  | 0 => 0
  | i + 1 => rank i + (kept i).toNat

variable {kept} {i j : ℕ}

theorem rank_succ_of_kept (h : kept i = true) : rank kept (i + 1) = rank kept i + 1 := by
  simp [rank, h]

theorem rank_succ_of_dropped (h : kept i = false) : rank kept (i + 1) = rank kept i := by
  simp [rank, h]

theorem rank_mono (le : i ≤ j) : rank kept i ≤ rank kept j := by
  induction le with
  | refl => exact le_rfl
  | step _ ih => exact le_trans ih (Nat.le_add_right _ _)

theorem rank_lt (h : kept i = true) (lt : i < j) : rank kept i < rank kept j := by
  have mono : rank kept (i + 1) ≤ rank kept j := rank_mono lt
  rw [rank_succ_of_kept h] at mono
  omega

theorem rank_le_self : rank kept i ≤ i := by
  induction i with
  | zero => exact le_rfl
  | succ i ih =>
    have : (kept i).toNat ≤ 1 := Bool.toNat_le _
    simp only [rank]
    omega

theorem rank_lt_iff (hi : kept i = true) : rank kept i < rank kept j ↔ i < j := by
  refine ⟨fun lt => ?_, rank_lt hi⟩
  by_contra ge
  exact absurd lt (not_lt_of_ge (rank_mono (not_lt.mp ge)))

theorem rank_le_iff (hi : kept i = true) : rank kept j ≤ rank kept i ↔ j ≤ i := by
  rw [← not_lt, ← not_lt, rank_lt_iff hi]

/-- Every number below the number of kept indices is the rank of one. -/
theorem exists_rank_eq : ∀ {n k : ℕ}, k < rank kept n → ∃ i < n, kept i = true ∧ rank kept i = k
  | 0, k, lt => absurd lt (Nat.not_lt_zero _)
  | n + 1, k, lt => by
    by_cases below : k < rank kept n
    · obtain ⟨i, iLt, hi, eq⟩ := exists_rank_eq below
      exact ⟨i, Nat.lt_succ_of_lt iLt, hi, eq⟩
    · cases h : kept n with
      | false => exact absurd (rank_succ_of_dropped h ▸ lt) below
      | true =>
        rw [rank_succ_of_kept h] at lt
        exact ⟨n, Nat.lt_succ_self n, h, by omega⟩

/-- Between two indices with nothing kept in between the rank does not change. -/
theorem rank_eq_of_dropped (le : i ≤ j) (dropped : ∀ k, i ≤ k → k < j → kept k = false) :
    rank kept i = rank kept j := by
  induction le with
  | refl => rfl
  | @step j le ih =>
    rw [rank_succ_of_dropped (dropped j le (Nat.lt_succ_self j))]
    exact ih fun k low high => dropped k low (Nat.lt_succ_of_lt high)

/-- Between two indices with everything kept in between the rank grows with the index. -/
theorem rank_add_of_kept (all : ∀ k, i ≤ k → k < i + j → kept k = true) :
    rank kept (i + j) = rank kept i + j := by
  induction j with
  | zero => rfl
  | succ j ih =>
    rw [← Nat.add_assoc, rank_succ_of_kept (all (i + j) (Nat.le_add_right _ _) (by omega)),
      ih fun k low high => all k low (by omega)]
    omega

/-- The new numbers are the ranks of what is kept, in order. -/
theorem range_rank (n : ℕ) :
    List.range (rank kept n) = ((List.range n).filter kept).map (rank kept) := by
  induction n with
  | zero => rfl
  | succ n ih =>
    rw [range_succ, filter_append, map_append, ← ih]
    cases h : kept n with
    | false => simp [rank_succ_of_dropped h, h]
    | true => simp [rank_succ_of_kept h, range_succ, h]

end Fugue.Lib
