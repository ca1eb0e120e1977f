import Mathlib.Data.Nat.Notation
import Mathlib.Data.List.Basic
import Mathlib.Tactic.Common

/-!
# Maps from numbers as lists of runs

A map from natural numbers to values as the list of its runs in growing order: a run gives one value
to an inclusive range. Inserting or removing a range cuts the runs that it overlaps, and touching
runs of one value are joined.
-/

namespace Fugue.Lib

open List

universe u

/-- A value for a range of numbers. -/
structure Run (V : Type u) where
  start : ℕ
  stop : ℕ
  value : V

/-- Runs that are not empty, in growing order. -/
structure Ordered {V : Type u} (runs : List (Run V)) : Prop where
  nonempty : ∀ run ∈ runs, run.start ≤ run.stop
  sorted : runs.Pairwise fun left right => left.stop < right.start

/-- One of the runs gives the value to the number. -/
def RunsAt {V : Type u} (runs : List (Run V)) (x : ℕ) (v : V) : Prop :=
  ∃ run ∈ runs, (run.start ≤ x ∧ x ≤ run.stop) ∧ run.value = v

def runsBelow {V : Type u} (start : ℕ) (runs : List (Run V)) : List (Run V) :=
  runs.filterMap fun run =>
    if run.start < start then some ⟨run.start, min run.stop (start - 1), run.value⟩ else none

def runsAbove {V : Type u} (stop : ℕ) (runs : List (Run V)) : List (Run V) :=
  runs.filterMap fun run =>
    if stop < run.stop then some ⟨max run.start (stop + 1), run.stop, run.value⟩ else none

/-- Put a run before others: it is joined with the first one if that one touches it and has the same
value. -/
def joinRun {V : Type u} [DecidableEq V] (run : Run V) : List (Run V) → List (Run V)
  | [] => [run]
  | next :: runs =>
    if run.value = next.value ∧ run.stop + 1 = next.start then
      ⟨run.start, next.stop, run.value⟩ :: runs
    else run :: next :: runs

def joinRuns {V : Type u} [DecidableEq V] (runs : List (Run V)) : List (Run V) :=
  runs.foldr joinRun []

section Runs

variable {V : Type u} {runs : List (Run V)} {x start stop : ℕ} {v w : V}

@[simp]
theorem not_runsAt_nil : ¬ RunsAt ([] : List (Run V)) x v := by simp [RunsAt]

@[simp]
theorem runsAt_cons {run : Run V} : RunsAt (run :: runs) x v ↔
    ((run.start ≤ x ∧ x ≤ run.stop) ∧ run.value = v) ∨ RunsAt runs x v := by
  simp [RunsAt]

@[simp]
theorem runsAt_append {others : List (Run V)} : RunsAt (runs ++ others) x v ↔
    RunsAt runs x v ∨ RunsAt others x v := by
  simp [RunsAt, mem_append, or_and_right, exists_or]

theorem ordered_nil : Ordered ([] : List (Run V)) := ⟨by simp, .nil⟩

theorem ordered_cons {run : Run V} : Ordered (run :: runs) ↔
    run.start ≤ run.stop ∧ (∀ next ∈ runs, run.stop < next.start) ∧ Ordered runs := by
  constructor
  · intro h
    obtain ⟨first, sorted⟩ := pairwise_cons.mp h.sorted
    exact ⟨h.nonempty run (.head _), first, fun next mem => h.nonempty next (.tail _ mem), sorted⟩
  · intro h
    exact ⟨forall_mem_cons.mpr ⟨h.1, h.2.2.nonempty⟩, pairwise_cons.mpr ⟨h.2.1, h.2.2.sorted⟩⟩

variable {piece : Run V}

theorem mem_runsBelow : piece ∈ runsBelow start runs ↔
    ∃ run ∈ runs, run.start < start ∧ piece = ⟨run.start, min run.stop (start - 1), run.value⟩ := by
  simp only [runsBelow, mem_filterMap]
  refine exists_congr fun run => and_congr_right fun _ => ?_
  by_cases lt : run.start < start <;> simp [lt, eq_comm]

theorem mem_runsAbove : piece ∈ runsAbove stop runs ↔
    ∃ run ∈ runs, stop < run.stop ∧ piece = ⟨max run.start (stop + 1), run.stop, run.value⟩ := by
  simp only [runsAbove, mem_filterMap]
  refine exists_congr fun run => and_congr_right fun _ => ?_
  by_cases lt : stop < run.stop <;> simp [lt, eq_comm]

theorem runsAt_runsBelow : RunsAt (runsBelow start runs) x v ↔ x < start ∧ RunsAt runs x v := by
  constructor
  · intro h
    obtain ⟨piece, mem, inside, eq⟩ := h
    obtain ⟨run, runMem, lt, rfl⟩ := mem_runsBelow.mp mem
    dsimp only at inside eq
    exact ⟨by omega, run, runMem, by omega, eq⟩
  · intro h
    obtain ⟨lt, run, mem, inside, eq⟩ := h
    refine ⟨_, mem_runsBelow.mpr ⟨run, mem, by omega, rfl⟩, ?_, eq⟩
    dsimp only
    omega

theorem runsAt_runsAbove : RunsAt (runsAbove stop runs) x v ↔ stop < x ∧ RunsAt runs x v := by
  constructor
  · intro h
    obtain ⟨piece, mem, inside, eq⟩ := h
    obtain ⟨run, runMem, lt, rfl⟩ := mem_runsAbove.mp mem
    dsimp only at inside eq
    exact ⟨by omega, run, runMem, by omega, eq⟩
  · intro h
    obtain ⟨lt, run, mem, inside, eq⟩ := h
    refine ⟨_, mem_runsAbove.mpr ⟨run, mem, by omega, rfl⟩, ?_, eq⟩
    dsimp only
    omega

theorem ordered_runsBelow (ordered : Ordered runs) : Ordered (runsBelow start runs) := by
  refine ⟨?_, ?_⟩
  · intro piece mem
    obtain ⟨run, runMem, lt, rfl⟩ := mem_runsBelow.mp mem
    have := ordered.nonempty run runMem
    dsimp only
    omega
  · rw [runsBelow, pairwise_filterMap]
    apply ordered.sorted.imp
    intro left right lt piece found piece' found'
    split at found <;> cases found
    split at found' <;> cases found'
    dsimp only
    omega

theorem ordered_runsAbove (ordered : Ordered runs) : Ordered (runsAbove stop runs) := by
  refine ⟨?_, ?_⟩
  · intro piece mem
    obtain ⟨run, runMem, lt, rfl⟩ := mem_runsAbove.mp mem
    have := ordered.nonempty run runMem
    dsimp only
    omega
  · rw [runsAbove, pairwise_filterMap]
    apply ordered.sorted.imp
    intro left right lt piece found piece' found'
    split at found <;> cases found
    split at found' <;> cases found'
    dsimp only
    omega

/-- Runs below a number before runs above it. -/
theorem ordered_append {others : List (Run V)} (left : Ordered runs) (right : Ordered others)
    (apart : ∀ run ∈ runs, ∀ other ∈ others, run.stop < other.start) : Ordered (runs ++ others) := by
  refine ⟨?_, pairwise_append.mpr ⟨left.sorted, right.sorted, apart⟩⟩
  intro run mem
  rcases mem_append.mp mem with mem | mem
  · exact left.nonempty run mem
  · exact right.nonempty run mem

theorem runsBelow_lt (mem : piece ∈ runsBelow start runs) : piece.stop < start := by
  obtain ⟨run, _, lt, rfl⟩ := mem_runsBelow.mp mem
  dsimp only
  omega

theorem runsAbove_gt (mem : piece ∈ runsAbove stop runs) : stop < piece.start := by
  obtain ⟨run, -, lt, rfl⟩ := mem_runsAbove.mp mem
  dsimp only
  omega

theorem ordered_insertRun (ordered : Ordered runs) (le : start ≤ stop) :
    Ordered (runsBelow start runs ++ ⟨start, stop, v⟩ :: runsAbove stop runs) := by
  refine ordered_append (ordered_runsBelow ordered)
    (ordered_cons.mpr ⟨le, fun _ => runsAbove_gt, ordered_runsAbove ordered⟩) ?_
  intro run mem other mem'
  have below := runsBelow_lt mem
  rcases mem_cons.mp mem' with rfl | mem'
  · exact below
  · have above := runsAbove_gt mem'
    omega

variable [DecidableEq V]

theorem joinRun_spec {run : Run V} (ordered : Ordered (run :: runs)) :
    Ordered (joinRun run runs) ∧ (∀ x v, RunsAt (joinRun run runs) x v ↔ RunsAt (run :: runs) x v) ∧
      ∀ piece ∈ joinRun run runs, run.start ≤ piece.start := by
  obtain ⟨le, first, rest⟩ := ordered_cons.mp ordered
  have later : ∀ next ∈ runs, run.start ≤ next.start := by
    intro next mem
    have := first next mem
    omega
  cases runs with
  | nil => exact ⟨ordered, fun _ _ => Iff.rfl, by simp [joinRun]⟩
  | cons next runs =>
    dsimp only [joinRun]
    split
    · rename_i touching
      obtain ⟨nextLe, nextFirst, nextRest⟩ := ordered_cons.mp rest
      refine ⟨ordered_cons.mpr ⟨by dsimp only; omega, nextFirst, nextRest⟩, ?_, ?_⟩
      · intro x v
        simp only [runsAt_cons, ← touching.1, ← or_assoc, ← or_and_right]
        refine or_congr_left (and_congr_left fun _ => ?_)
        omega
      · intro piece mem
        rcases mem_cons.mp mem with rfl | mem
        · exact Nat.le_refl _
        · exact later piece (.tail _ mem)
    · refine ⟨ordered, fun _ _ => Iff.rfl, ?_⟩
      intro piece mem
      rcases mem_cons.mp mem with rfl | mem
      · exact Nat.le_refl _
      · exact later piece mem

theorem joinRuns_spec : ∀ {runs : List (Run V)}, Ordered runs →
    Ordered (joinRuns runs) ∧ (∀ x v, RunsAt (joinRuns runs) x v ↔ RunsAt runs x v) ∧
      ∀ low, (∀ run ∈ runs, low ≤ run.start) → ∀ piece ∈ joinRuns runs, low ≤ piece.start
  | [], ordered => ⟨ordered, fun _ _ => Iff.rfl, fun _ _ => by simp [joinRuns]⟩
  | run :: runs, ordered => by
    obtain ⟨le, first, rest⟩ := ordered_cons.mp ordered
    obtain ⟨ordered', same, lower⟩ := joinRuns_spec rest
    have whole : Ordered (run :: joinRuns runs) :=
      ordered_cons.mpr ⟨le, fun next mem => lower (run.stop + 1) first next mem, ordered'⟩
    obtain ⟨joined, sameJoin, lowerJoin⟩ := joinRun_spec whole
    refine ⟨joined, ?_, ?_⟩
    · intro x v
      rw [show joinRuns (run :: runs) = joinRun run (joinRuns runs) from rfl, sameJoin, runsAt_cons,
        same, runsAt_cons]
    · intro low bound piece mem
      exact Nat.le_trans (bound run (.head _)) (lowerJoin piece mem)

end Runs

structure RangeMap (V : Type u) where
  runs : List (Run V)
  ordered : Ordered runs

namespace RangeMap

variable {V : Type u}

def empty : RangeMap V := ⟨[], ordered_nil⟩

def At (map : RangeMap V) (x : ℕ) (v : V) : Prop := RunsAt map.runs x v

/-- The runs that overlap a range. -/
def overlapping (map : RangeMap V) (start stop : ℕ) : List (Run V) :=
  map.runs.filter fun run => decide (run.start ≤ stop) && decide (start ≤ run.stop)

/-- Take a range away. -/
def remove (map : RangeMap V) (start stop : ℕ) : RangeMap V :=
  if le : start ≤ stop then
    ⟨runsBelow start map.runs ++ runsAbove stop map.runs,
      ordered_append (ordered_runsBelow map.ordered) (ordered_runsAbove map.ordered)
        fun run mem other mem' => by
          have below := runsBelow_lt mem
          have above := runsAbove_gt mem'
          omega⟩
  else map

/-- Give a value to a range. -/
def insert [DecidableEq V] (map : RangeMap V) (start stop : ℕ) (v : V) : RangeMap V :=
  if le : start ≤ stop then
    ⟨joinRuns (runsBelow start map.runs ++ ⟨start, stop, v⟩ :: runsAbove stop map.runs),
      (joinRuns_spec (ordered_insertRun map.ordered le)).1⟩
  else map

variable {map : RangeMap V} {x start stop : ℕ} {v w : V}

@[simp]
theorem not_at_empty : ¬ (empty : RangeMap V).At x v := not_runsAt_nil

theorem at_remove (le : start ≤ stop) :
    (map.remove start stop).At x w ↔ ¬ (start ≤ x ∧ x ≤ stop) ∧ map.At x w := by
  unfold remove At
  rw [dif_pos le]
  rw [runsAt_append, runsAt_runsBelow, runsAt_runsAbove, ← or_and_right]
  refine and_congr_left fun _ => ?_
  omega

theorem at_insert [DecidableEq V] (le : start ≤ stop) :
    (map.insert start stop v).At x w ↔
      ((start ≤ x ∧ x ≤ stop) ∧ v = w) ∨ (¬ (start ≤ x ∧ x ≤ stop) ∧ map.At x w) := by
  have outside : ¬ (start ≤ x ∧ x ≤ stop) ↔ x < start ∨ stop < x := by omega
  unfold insert At
  rw [dif_pos le]
  rw [(joinRuns_spec (ordered_insertRun map.ordered le)).2.1, runsAt_append, runsAt_cons,
    runsAt_runsBelow, runsAt_runsAbove, outside, or_and_right, or_left_comm]

theorem exists_overlapping (at_ : map.At x v) (low : start ≤ x) (high : x ≤ stop) :
    ∃ run ∈ map.overlapping start stop, run.value = v := by
  obtain ⟨run, mem, inside, eq⟩ := at_
  refine ⟨run, mem_filter.mpr ⟨mem, ?_⟩, eq⟩
  rw [Bool.and_eq_true, decide_eq_true_eq, decide_eq_true_eq]
  omega

end RangeMap

end Fugue.Lib
