import Mathlib.Data.Nat.Notation
import Mathlib.Data.List.Basic
import Mathlib.Tactic.Common

/-!
# Sets of numbers as lists of ranges

A set of natural numbers as the list of its maximal inclusive ranges in growing order: `Separated`
says that the ranges are not empty and that a gap lies between two of them. Inserting a range
joins it with the ranges it overlaps or touches, and taking ranges away from one range leaves the
pieces between them.
-/

namespace Fugue.Lib

open List

def InRanges (x : ℕ) (ranges : List (ℕ × ℕ)) : Prop := ∃ r ∈ ranges, r.1 ≤ x ∧ x ≤ r.2

/-- Not empty, in growing order, and with a gap between any two. -/
structure Separated (ranges : List (ℕ × ℕ)) : Prop where
  nonempty : ∀ r ∈ ranges, r.1 ≤ r.2
  gaps : ranges.Pairwise fun r s => r.2 + 1 < s.1

/-- Put in a range: those that it overlaps or touches become one with it. -/
def insertRange (start stop : ℕ) : List (ℕ × ℕ) → List (ℕ × ℕ)
  | [] => [(start, stop)]
  | (a, b) :: rest =>
    if b + 1 < start then (a, b) :: insertRange start stop rest
    else if stop + 1 < a then (start, stop) :: (a, b) :: rest
    else insertRange (min start a) (max stop b) rest

/-- What is left of the range from `start` to `stop` when the ranges `excluded` are taken away,
from the left to the right. -/
def differenceRange (start stop : ℕ) : List (ℕ × ℕ) → List (ℕ × ℕ)
  | [] => [(start, stop)]
  | (a, b) :: rest =>
    if b < a ∨ b < start then differenceRange start stop rest
    else if stop < a then [(start, stop)]
    else if start < a then
      (start, a - 1) :: if b < stop then differenceRange (b + 1) stop rest else []
    else if b < stop then differenceRange (b + 1) stop rest
    else []

@[simp]
theorem inRanges_nil {x : ℕ} : ¬ InRanges x [] := by simp [InRanges]

variable {ranges : List (ℕ × ℕ)}

@[simp]
theorem inRanges_cons {x : ℕ} {r : ℕ × ℕ} :
    InRanges x (r :: ranges) ↔ (r.1 ≤ x ∧ x ≤ r.2) ∨ InRanges x ranges := by
  simp [InRanges]

theorem separated_nil : Separated [] := ⟨by simp, .nil⟩

theorem separated_cons {r : ℕ × ℕ} :
    Separated (r :: ranges) ↔ r.1 ≤ r.2 ∧ (∀ s ∈ ranges, r.2 + 1 < s.1) ∧ Separated ranges := by
  constructor
  · rintro ⟨nonempty, gaps⟩
    obtain ⟨first, gaps⟩ := pairwise_cons.mp gaps
    exact ⟨nonempty r (.head _), first, fun s mem => nonempty s (.tail _ mem), gaps⟩
  · rintro ⟨le, first, nonempty, gaps⟩
    exact ⟨fun s mem => (mem_cons.mp mem).elim (fun eq => eq ▸ le) (nonempty s),
      pairwise_cons.mpr ⟨first, gaps⟩⟩

theorem inRanges_insertRange {x : ℕ} : ∀ {start stop : ℕ} {ranges : List (ℕ × ℕ)},
    start ≤ stop → Separated ranges →
    (InRanges x (insertRange start stop ranges) ↔ (start ≤ x ∧ x ≤ stop) ∨ InRanges x ranges)
  | start, stop, [], _, _ => by simp [insertRange]
  | start, stop, (a, b) :: rest, le, separated => by
    obtain ⟨le', -, separated⟩ := separated_cons.mp separated
    unfold insertRange
    split
    · rw [inRanges_cons, inRanges_insertRange le separated, inRanges_cons]
      tauto
    · split
      · rw [inRanges_cons]
      · rw [inRanges_insertRange (by omega) separated, inRanges_cons, ← or_assoc]
        apply or_congr_left
        omega

/-- The smallest number of what an insertion leaves. -/
theorem lower_insertRange {low : ℕ} : ∀ {start stop : ℕ} {ranges : List (ℕ × ℕ)},
    low < start → (∀ r ∈ ranges, low < r.1) → ∀ r ∈ insertRange start stop ranges, low < r.1
  | start, stop, [], lt, _, r, mem => by
    rw [insertRange, mem_singleton] at mem
    exact mem ▸ lt
  | start, stop, (a, b) :: rest, lt, all, r, mem => by
    have first := all (a, b) (.head _)
    have others := fun r mem => all r (mem_cons_of_mem (a, b) mem)
    unfold insertRange at mem
    split at mem
    · rcases mem_cons.mp mem with rfl | mem
      · exact first
      · exact lower_insertRange lt others r mem
    · split at mem
      · rcases mem_cons.mp mem with rfl | mem
        · exact lt
        · exact all r mem
      · exact lower_insertRange (by omega) others r mem

theorem separated_insertRange : ∀ {start stop : ℕ} {ranges : List (ℕ × ℕ)},
    start ≤ stop → Separated ranges → Separated (insertRange start stop ranges)
  | start, stop, [], le, _ => separated_cons.mpr ⟨le, by simp, separated_nil⟩
  | start, stop, (a, b) :: rest, le, separated => by
    obtain ⟨le', first, separated'⟩ := separated_cons.mp separated
    unfold insertRange
    split
    · exact separated_cons.mpr ⟨le', lower_insertRange (by omega) first,
        separated_insertRange le separated'⟩
    · split
      · refine separated_cons.mpr ⟨le, fun s mem => ?_, separated⟩
        rcases mem_cons.mp mem with rfl | mem
        · dsimp only; omega
        · have := first s mem
          omega
      · exact separated_insertRange (by omega) separated'

/-- An insertion stays below a bound that the range and the set stay below. -/
theorem upper_insertRange {bound : ℕ} : ∀ {start stop : ℕ} {ranges : List (ℕ × ℕ)},
    stop < bound → (∀ r ∈ ranges, r.2 < bound) → ∀ r ∈ insertRange start stop ranges, r.2 < bound
  | start, stop, [], lt, _, r, mem => by
    rw [insertRange, mem_singleton] at mem
    exact mem ▸ lt
  | start, stop, (a, b) :: rest, lt, all, r, mem => by
    have first := all (a, b) (.head _)
    have others := fun r mem => all r (mem_cons_of_mem (a, b) mem)
    unfold insertRange at mem
    split at mem
    · rcases mem_cons.mp mem with rfl | mem
      · exact first
      · exact upper_insertRange lt others r mem
    · split at mem
      · rcases mem_cons.mp mem with rfl | mem
        · exact lt
        · exact all r mem
      · exact upper_insertRange (by omega) others r mem

/-- The ranges that are not empty come in the order of their starts; they may overlap or nest. -/
def StartOrdered (ranges : List (ℕ × ℕ)) : Prop :=
  ranges.Pairwise fun r s => r.1 ≤ r.2 → s.1 ≤ s.2 → r.1 ≤ s.1

theorem StartOrdered.of_disjoint
    (ordered : ranges.Pairwise fun r s => r.2 < s.1) : StartOrdered ranges :=
  ordered.imp fun lt le _ => by omega

/-- The pieces that are left are the numbers of the range that no excluded range has. -/
theorem inRanges_differenceRange {x start stop : ℕ} {excluded : List (ℕ × ℕ)} (le : start ≤ stop)
    (ordered : StartOrdered excluded) :
    InRanges x (differenceRange start stop excluded) ↔
      (start ≤ x ∧ x ≤ stop) ∧ ¬ InRanges x excluded := by
  induction excluded generalizing start with
  | nil => simp [differenceRange]
  | cons r rest ih =>
    obtain ⟨a, b⟩ := r
    obtain ⟨above, ordered⟩ := pairwise_cons.mp ordered
    -- no later range holds a number before the start of this one
    have later : a ≤ b → x < a → ¬ InRanges x rest := by
      intro proper small inside
      obtain ⟨s, mem, low, high⟩ := inside
      have := above s mem proper (by omega)
      omega
    unfold differenceRange
    by_cases skipped : b < a ∨ b < start
    · rw [if_pos skipped, ih le ordered, inRanges_cons]
      by_cases mem : InRanges x rest
      · simp [mem]
      · simp only [mem, or_false, not_false_eq_true, and_true]
        omega
    rw [if_neg skipped]
    by_cases beyond : stop < a
    · rw [if_pos beyond, inRanges_cons, inRanges_cons]
      simp only [inRanges_nil, or_false, not_or]
      constructor
      · intro inside
        exact ⟨inside, by omega, later (by omega) (by omega)⟩
      · intro inside
        exact inside.1
    rw [if_neg beyond]
    have right : InRanges x (if b < stop then differenceRange (b + 1) stop rest else []) ↔
        (b + 1 ≤ x ∧ x ≤ stop) ∧ ¬ InRanges x rest := by
      by_cases more : b < stop
      · rw [if_pos more, ih (by omega) ordered]
      · rw [if_neg more]
        simp only [inRanges_nil, false_iff, not_and]
        omega
    by_cases piece : start < a
    · rw [if_pos piece, inRanges_cons, inRanges_cons, right]
      by_cases mem : InRanges x rest
      · have : ¬ x < a := fun small => later (by omega) small mem
        simp only [mem, not_true_eq_false, and_false, or_true, or_false, iff_false]
        omega
      · simp only [mem, or_false, not_false_eq_true, and_true]
        omega
    · rw [if_neg piece, right, inRanges_cons]
      by_cases mem : InRanges x rest
      · simp [mem]
      · simp only [mem, or_false, not_false_eq_true, and_true]
        omega

/-- The pieces are not empty and lie within the range. -/
theorem mem_differenceRange : ∀ {start stop : ℕ} {excluded : List (ℕ × ℕ)}, start ≤ stop →
    ∀ r ∈ differenceRange start stop excluded, start ≤ r.1 ∧ r.1 ≤ r.2 ∧ r.2 ≤ stop
  | start, stop, [], le, r, mem => by
    rw [differenceRange, mem_singleton] at mem
    subst mem
    exact ⟨Nat.le_refl _, le, Nat.le_refl _⟩
  | start, stop, (a, b) :: rest, le, r, mem => by
    unfold differenceRange at mem
    split at mem
    · exact mem_differenceRange le r mem
    · have right : b < stop → r ∈ differenceRange (b + 1) stop rest →
          start ≤ r.1 ∧ r.1 ≤ r.2 ∧ r.2 ≤ stop := fun lt mem => by
        have := mem_differenceRange (by omega) r mem
        omega
      split at mem
      · rw [mem_singleton] at mem
        subst mem
        exact ⟨Nat.le_refl _, le, Nat.le_refl _⟩
      · split at mem
        · rcases mem_cons.mp mem with rfl | mem
          · dsimp only; omega
          · split at mem
            · exact right ‹_› mem
            · simp at mem
        · split at mem
          · exact right ‹_› mem
          · simp at mem

/-- A gap lies between two pieces: at least the range that was taken away there. -/
theorem separated_differenceRange {start stop : ℕ} {excluded : List (ℕ × ℕ)} (le : start ≤ stop) :
    Separated (differenceRange start stop excluded) := by
  induction excluded generalizing start with
  | nil => exact separated_cons.mpr ⟨le, by simp, separated_nil⟩
  | cons r rest ih =>
    obtain ⟨a, b⟩ := r
    have single : Separated [(start, stop)] := separated_cons.mpr ⟨le, by simp, separated_nil⟩
    have right : Separated (if b < stop then differenceRange (b + 1) stop rest else []) := by
      by_cases more : b < stop
      · rw [if_pos more]
        exact ih (by omega)
      · rw [if_neg more]
        exact separated_nil
    unfold differenceRange
    by_cases skipped : b < a ∨ b < start
    · rw [if_pos skipped]
      exact ih le
    rw [if_neg skipped]
    by_cases beyond : stop < a
    · rw [if_pos beyond]
      exact single
    rw [if_neg beyond]
    by_cases piece : start < a
    · rw [if_pos piece]
      apply separated_cons.mpr
      refine ⟨by dsimp only; omega, ?_, right⟩
      intro s mem
      by_cases more : b < stop
      · rw [if_pos more] at mem
        have := mem_differenceRange (by omega) s mem
        omega
      · simp [more] at mem
    · rw [if_neg piece]
      exact right

end Fugue.Lib
