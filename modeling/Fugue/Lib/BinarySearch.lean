import Mathlib.Tactic.Common
import Mathlib.Data.List.Pairwise

/-!
# Binary search

`slice::binary_search_by`: the part of a list in which a match can lie is halved until one element is
left. In a list in order of the comparison the search finds a match whenever there is one.
-/

namespace Fugue.Lib

open List

variable {α : Type} (compare : α → Ordering) (values : List α)

/-- The rounds of the search: `size` elements are left, from `base` on. -/
def narrow : ℕ → ℕ → ℕ → ℕ
  | 0, base, _ => base
  | rounds + 1, base, size =>
    if size ≤ 1 then base
    else
      let mid := base + size / 2
      narrow rounds (if (values[mid]?).map compare = some .gt then base else mid) (size - size / 2)

/-- `slice::binary_search_by`: the index of a match. -/
def binarySearchBy : Option ℕ :=
  let base := narrow compare values values.length 0 values.length
  match values[base]? with
  | none => none
  | some value => if compare value = .eq then some base else none

/-- `slice::partition_point`, the same search for the first element without the predicate. -/
def partitionPoint (predicate : α → Bool) (values : List α) : ℕ :=
  let base := narrow (fun value => if predicate value then .lt else .gt) values values.length 0
    values.length
  match values[base]? with
  | none => base
  | some value => if predicate value then base + 1 else base

/-- The elements below the match compare less, those above it greater. -/
def InOrder : Prop :=
  values.Pairwise fun a b => (compare a = .gt → compare b = .gt) ∧ (compare b = .lt → compare a = .lt)

/-- A match is among the elements that are left. -/
def MatchWithin (base size : ℕ) : Prop :=
  ∃ k value, base ≤ k ∧ k < base + size ∧ values[k]? = some value ∧ compare value = .eq

variable {compare values}

theorem MatchWithin.halve {base size : ℕ} (inOrder : InOrder compare values)
    (within : MatchWithin compare values base size) (large : 1 < size)
    (inside : base + size ≤ values.length) :
    MatchWithin compare values
      (if (values[base + size / 2]?).map compare = some .gt then base else base + size / 2)
      (size - size / 2) := by
  obtain ⟨k, value, low, high, found, equal⟩ := within
  have midLt : base + size / 2 < values.length := by omega
  obtain ⟨kLt, rfl⟩ := List.getElem?_eq_some_iff.mp found
  simp only [getElem?_eq_getElem midLt, Option.map_some, Option.some_inj]
  have ordered := pairwise_iff_getElem.mp inOrder
  split
  · rename_i greater
    refine ⟨k, values[k], low, ?_, found, equal⟩
    by_contra above
    have le : base + size / 2 ≤ k := by omega
    rcases Nat.eq_or_lt_of_le le with same | lt
    · subst same
      rw [greater] at equal
      cases equal
    · have := (ordered _ _ midLt kLt lt).1 greater
      rw [this] at equal
      cases equal
  · rename_i notGreater
    by_cases le : base + size / 2 ≤ k
    · exact ⟨k, values[k], le, by omega, found, equal⟩
    · -- the middle is not less than a match below it, so it is one itself
      refine ⟨base + size / 2, values[base + size / 2], Nat.le_refl _, by omega,
        getElem?_eq_getElem midLt, ?_⟩
      cases compared : compare values[base + size / 2] with
      | lt =>
        have := (ordered _ _ kLt midLt (by omega)).2 compared
        rw [this] at equal
        cases equal
      | eq => rfl
      | gt => exact absurd compared notGreater

theorem narrow_match (inOrder : InOrder compare values) :
    ∀ {rounds base size : ℕ}, MatchWithin compare values base size → size ≤ rounds →
      base + size ≤ values.length → ∃ value, values[narrow compare values rounds base size]? =
        some value ∧ compare value = .eq := by
  intro rounds
  induction rounds with
  | zero =>
    intro base size ⟨k, _, low, high, _⟩ few _
    omega
  | succ rounds ih =>
    intro base size within few inside
    rw [narrow]
    split
    · obtain ⟨k, value, low, high, found, equal⟩ := within
      have same : k = base := by omega
      exact ⟨value, same ▸ found, equal⟩
    · apply ih (within.halve inOrder (by omega) inside) (by omega)
      split <;> omega

/-- In a list in order a search finds a match if there is one. -/
theorem binarySearchBy_isSome (inOrder : InOrder compare values) {value : α} (mem : value ∈ values)
    (equal : compare value = .eq) : ∃ k, binarySearchBy compare values = some k := by
  obtain ⟨k, lt, rfl⟩ := getElem_of_mem mem
  obtain ⟨value, found, equal⟩ := narrow_match inOrder
    ⟨k, values[k], Nat.zero_le k, by omega, getElem?_eq_getElem lt, equal⟩
    (Nat.le_refl values.length) (by omega)
  exact ⟨_, by simp only [binarySearchBy, found, equal, if_true]; rfl⟩

theorem binarySearchBy_eq_some {k : ℕ} (run : binarySearchBy compare values = some k) :
    ∃ value, values[k]? = some value ∧ compare value = .eq := by
  unfold binarySearchBy at run
  dsimp only at run
  split at run
  · cases run
  · rename_i value found
    split at run
    · cases run
      exact ⟨value, found, ‹_›⟩
    · cases run

end Fugue.Lib
