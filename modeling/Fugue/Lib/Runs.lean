import Fugue.Lib.Window

/-!
# Reading a store of runs

A store of runs is read run by run in growing order, with the gaps filled. The runs are of any type:
what is needed of them is where they start and stop and how a part of them is fetched. If every run
holds a part of an array and the array is `zero` in the gaps, then the reader gives the array.
-/

namespace Fugue.Lib

open List Option

universe u v

variable {α : Type u} {β : Type v}

/-- A part of a buffer filled with one element, `none` if it is not within the buffer. -/
def fillAt (buffer : List α) (start stop : ℕ) (zero : α) : Option (List α) :=
  if start ≤ stop ∧ stop ≤ buffer.length then
    copyAt buffer start (List.replicate (stop - start) zero)
  else none

/-- Runs by their bounds and the way to fetch a part of them. -/
structure RunStore (α : Type u) (β : Type v) where
  start : β → ℕ
  stop : β → ℕ
  fetch : β → ℕ → ℕ → Option (List α)

namespace RunStore

variable (store : RunStore α β)

/-- The runs hold parts of the array. -/
def Fetches (f : ℕ → α) (run : β) : Prop :=
  ∀ from_ to_, store.start run ≤ from_ → from_ ≤ to_ → to_ ≤ store.stop run →
    store.fetch run from_ to_ = some (window f from_ (to_ - from_))

/-- The run covers the place. -/
def Has (run : β) (i : ℕ) : Prop := store.start run ≤ i ∧ i < store.stop run

/-- One run of a read from `offset` to `stop`: the gap before it is filled and its part is copied.
The state is the buffer and the place up to which it is read. -/
def readRun (zero : α) (offset stop : ℕ) (state : List α × ℕ) (run : β) : Option (List α × ℕ) := do
  let from_ := max offset (store.start run)
  let to_ := min stop (store.stop run)
  let buffer ← fillAt state.1 (state.2 - offset) (from_ - offset) zero
  let bytes ← store.fetch run from_ to_
  let buffer ← copyAt buffer (from_ - offset) bytes
  return (buffer, to_)

def read (zero : α) (runs : List β) (offset : ℕ) (buffer : List α) : Option (List α) := do
  let (filled, cursor) ← runs.foldlM (store.readRun zero offset (offset + buffer.length))
    (buffer, offset)
  fillAt filled (cursor - offset) filled.length zero

variable {store} {f g : ℕ → α} {zero : α}

theorem fillAt_window {offset start stop count : ℕ} (le : start ≤ stop) (within : stop ≤ count)
    (gap : ∀ i, offset + start ≤ i → i < offset + stop → f i = zero) :
    fillAt (window g offset count) start stop zero =
      some (window (patch g f (offset + start) (stop - start)) offset count) := by
  unfold fillAt
  rw [length_window, if_pos ⟨le, within⟩, @replicate_eq_window _ (offset + start)]
  rw [copyAt_window (by omega)]
  congr 1
  apply window_congr
  intro i _ _
  unfold patch
  split
  · rename_i inside
    exact (gap i inside.1 (by omega)).symm
  · rfl

theorem patch_patch {start middle stop : ℕ} (le : start ≤ middle) (le' : middle ≤ stop) (i : ℕ) :
    patch (patch g f start (middle - start)) f middle (stop - middle) i =
      patch g f start (stop - start) i := by
  unfold patch
  by_cases second : middle ≤ i ∧ i < middle + (stop - middle)
  · rw [if_pos second, if_pos (by omega)]
  · rw [if_neg second]
    refine if_congr ?_ rfl rfl
    omega

/-- What a read of runs in growing order has done: the buffer holds the array up to the cursor. -/
theorem foldlM_readRun {offset count : ℕ} : ∀ (runs : List β) (cursor : ℕ),
    (∀ run ∈ runs, store.Fetches f run ∧ store.start run < offset + count ∧
      offset < store.stop run ∧ store.start run < store.stop run ∧
      cursor ≤ max offset (store.start run)) →
    runs.Pairwise (fun x y => store.stop x ≤ store.start y) → offset ≤ cursor →
    cursor ≤ offset + count →
    (∀ i, cursor ≤ i → i < offset + count → (∀ run ∈ runs, ¬ store.Has run i) → f i = zero) →
    ∃ cursor', cursor ≤ cursor' ∧ cursor' ≤ offset + count ∧
      runs.foldlM (store.readRun zero offset (offset + count))
        (window (patch g f offset (cursor - offset)) offset count, cursor) =
          some (window (patch g f offset (cursor' - offset)) offset count, cursor') ∧
      ∀ i, cursor' ≤ i → i < offset + count → f i = zero
  | [], cursor, _, _, _, le, gaps =>
    ⟨cursor, Nat.le_refl _, le, rfl, fun i from_ below => gaps i from_ below (by simp)⟩
  | run :: runs, cursor, all, apart, after, le, gaps => by
    obtain ⟨⟨fetches, starts, ends, proper, first⟩, rest⟩ := forall_mem_cons.mp all
    obtain ⟨above, apart'⟩ := pairwise_cons.mp apart
    have filled : fillAt (window (patch g f offset (cursor - offset)) offset count) (cursor - offset)
        (max offset (store.start run) - offset) zero =
        some (window (patch g f offset (max offset (store.start run) - offset)) offset count) := by
      rw [@fillAt_window _ f _ zero offset (cursor - offset) _ count (by omega) (by omega) ?_]
      · congr 1
        apply window_congr
        intro i _ _
        have place : offset + (cursor - offset) = cursor := by omega
        have size : max offset (store.start run) - offset - (cursor - offset) =
          max offset (store.start run) - cursor := by omega
        rw [place, size]
        exact patch_patch after first i
      · -- the gap before the run is in no later run either
        intro i from_ below
        apply gaps i (by omega) (by omega)
        intro other mem has
        rcases mem_cons.mp mem with rfl | later
        · have := has.1
          omega
        · have := has.1
          have := above other later
          omega
    have fetched := fetches (max offset (store.start run)) (min (offset + count) (store.stop run))
      (by omega) (by omega) (by omega)
    have place : offset + (max offset (store.start run) - offset) = max offset (store.start run) := by
      omega
    have copied := @copyAt_window _ (patch g f offset (max offset (store.start run) - offset)) f
      offset count (max offset (store.start run) - offset)
      (min (offset + count) (store.stop run) - max offset (store.start run)) (by omega)
    rw [place] at copied
    have joined : window (patch (patch g f offset (max offset (store.start run) - offset)) f
        (max offset (store.start run))
        (min (offset + count) (store.stop run) - max offset (store.start run))) offset count =
        window (patch g f offset (min (offset + count) (store.stop run) - offset)) offset count :=
      window_congr fun i _ _ => patch_patch (by omega) (by omega) i
    obtain ⟨cursor', le', below', call, none⟩ := @foldlM_readRun offset count runs
      (min (offset + count) (store.stop run))
      (by
        intro other mem
        obtain ⟨fetches', starts', ends', proper', -⟩ := rest other mem
        have := above other mem
        exact ⟨fetches', starts', ends', proper', by omega⟩)
      apart' (by omega) (by omega)
      (by
        intro i from_ below outside
        apply gaps i (by omega) below
        intro other mem has
        rcases mem_cons.mp mem with rfl | later
        · have := has.2
          omega
        · exact outside other later has)
    refine ⟨cursor', by omega, below', ?_, none⟩
    have step : store.readRun zero offset (offset + count)
        (window (patch g f offset (cursor - offset)) offset count, cursor) run =
        some (window (patch g f offset (min (offset + count) (store.stop run) - offset)) offset count,
          min (offset + count) (store.stop run)) := by
      unfold readRun
      simp only [filled, fetched, copied, joined, bind_eq_bind, bind_some, Option.pure_def]
    rw [foldlM_cons, step]
    exact call

/-- A read of runs in growing order that cover all of the array that is not `zero` gives the
array. -/
theorem read_window [Inhabited α] {runs : List β} {offset : ℕ} (buffer : List α)
    (all : ∀ run ∈ runs, store.Fetches f run ∧ store.start run < offset + buffer.length ∧
      offset < store.stop run ∧ store.start run < store.stop run)
    (apart : runs.Pairwise fun x y => store.stop x ≤ store.start y)
    (gaps : ∀ i, offset ≤ i → i < offset + buffer.length →
      (∀ run ∈ runs, ¬ store.Has run i) → f i = zero) :
    store.read zero runs offset buffer = some (window f offset buffer.length) := by
  obtain ⟨g, eq⟩ := exists_window buffer offset
  have none : window (patch g f offset (offset - offset)) offset buffer.length = buffer := by
    conv_rhs => rw [eq]
    refine window_congr ?_
    intro i _ _
    exact patch_outside (by omega)
  obtain ⟨cursor, le, below, call, zeros⟩ := @foldlM_readRun _ _ store f g zero offset
    buffer.length runs offset
    (by
      intro run mem
      obtain ⟨fetches, starts, ends, proper⟩ := all run mem
      exact ⟨fetches, starts, ends, proper, Nat.le_max_left _ _⟩)
    apart (Nat.le_refl _) (by omega) gaps
  rw [none] at call
  unfold read
  rw [call, bind_eq_bind, bind_some]
  dsimp only
  rw [length_window]
  rw [@fillAt_window _ f _ zero offset (cursor - offset) buffer.length _ (by omega)
    (Nat.le_refl _)
    (fun i from_ below => zeros i (by omega) below)]
  congr 1
  have place : offset + (cursor - offset) = cursor := by omega
  have size : buffer.length - (cursor - offset) = offset + buffer.length - cursor := by omega
  rw [place, size]
  refine window_congr ?_
  intro i from_ beneath
  rw [patch_patch le (by omega)]
  exact patch_inside from_ (by omega)

/-- A list each of whose parts is found. -/
theorem mapM_eq_some {fetch : β → Option α} {part : β → α} : ∀ {runs : List β},
    (∀ run ∈ runs, fetch run = some (part run)) → runs.mapM fetch = some (runs.map part) := by
  intro runs
  induction runs with
  | nil => exact fun _ => rfl
  | cons run runs ih =>
    intro found
    obtain ⟨first, rest⟩ := forall_mem_cons.mp found
    rw [mapM_cons, first, ih rest]
    rfl

/-- The parts of some runs that are in a range, one after the other. -/
def collect (store : RunStore α β) (runs : List β) (start stop : ℕ) : Option (List α) := do
  let parts ← runs.mapM fun run =>
    store.fetch run (max start (store.start run)) (min stop (store.stop run))
  return parts.flatten

/-- The parts from the cursor on of runs in growing order that leave no gap. -/
theorem mapM_fetch {start stop : ℕ} (lt : start < stop) : ∀ (runs : List β) (cursor : ℕ),
    (∀ run ∈ runs, store.Fetches f run ∧ store.start run < stop ∧ start < store.stop run ∧
      store.start run < store.stop run ∧ cursor ≤ max start (store.start run)) →
    runs.Pairwise (fun x y => store.stop x ≤ store.start y) → start ≤ cursor → cursor ≤ stop →
    (∀ i, cursor ≤ i → i < stop → ∃ run ∈ runs, store.Has run i) →
    ∃ parts, (runs.mapM fun run =>
        store.fetch run (max start (store.start run)) (min stop (store.stop run))) = some parts ∧
      parts.flatten = window f cursor (stop - cursor) := by
  intro runs
  induction runs with
  | nil =>
    intro cursor _ _ _ le covers
    have all : cursor = stop := by
      by_contra ne
      obtain ⟨run, mem, -⟩ := covers cursor (Nat.le_refl _) (by omega)
      cases mem
    exact ⟨[], rfl, by rw [all, Nat.sub_self, window_zero, flatten_nil]⟩
  | cons run runs ih =>
    intro cursor all apart after le covers
    obtain ⟨⟨fetches, starts, ends, proper, first⟩, rest⟩ := forall_mem_cons.mp all
    obtain ⟨above, apart'⟩ := pairwise_cons.mp apart
    -- the place of the cursor is in a run, and a later one starts after this one
    have here : max start (store.start run) = cursor := by
      obtain ⟨other, mem, has⟩ := covers cursor (Nat.le_refl _) (by omega)
      unfold Has at has
      rcases mem_cons.mp mem with eq | later
      · rw [eq] at has
        omega
      · have behind := above other later
        omega
    obtain ⟨parts, call, bytes⟩ := ih (min stop (store.stop run))
      (by
        intro other mem
        obtain ⟨fetches', starts', ends', proper', -⟩ := rest other mem
        have behind := above other mem
        exact ⟨fetches', starts', ends', proper', by omega⟩)
      apart' (by omega) (by omega)
      (by
        intro i from_ below
        obtain ⟨other, mem, has⟩ := covers i (by omega) below
        rcases mem_cons.mp mem with eq | later
        · rw [eq] at has
          have inside := has.2
          omega
        · exact ⟨other, later, has⟩)
    have fetched := fetches cursor (min stop (store.stop run)) (by omega) (by omega) (by omega)
    refine ⟨window f cursor (min stop (store.stop run) - cursor) :: parts, ?_, ?_⟩
    · rw [mapM_cons, here, fetched, call]
      rfl
    · rw [flatten_cons, bytes]
      have joined := @window_append _ f cursor (min stop (store.stop run) - cursor)
        (stop - min stop (store.stop run))
      have place : cursor + (min stop (store.stop run) - cursor) = min stop (store.stop run) := by
        omega
      rw [place] at joined
      rw [joined]
      congr 1
      omega

/-- Runs in growing order that leave no gap in a range hold what the array has there. -/
theorem collect_window {runs : List β} {start stop : ℕ} (lt : start < stop)
    (all : ∀ run ∈ runs, store.Fetches f run ∧ store.start run < stop ∧ start < store.stop run ∧
      store.start run < store.stop run)
    (apart : runs.Pairwise fun x y => store.stop x ≤ store.start y)
    (covers : ∀ i, start ≤ i → i < stop → ∃ run ∈ runs, store.Has run i) :
    store.collect runs start stop = some (window f start (stop - start)) := by
  obtain ⟨parts, call, bytes⟩ := mapM_fetch lt runs start
    (by
      intro run mem
      obtain ⟨fetches, starts, ends, proper⟩ := all run mem
      exact ⟨fetches, starts, ends, proper, Nat.le_max_left _ _⟩)
    apart (Nat.le_refl _) (Nat.le_of_lt lt) covers
  unfold collect
  rw [call, ← bytes]
  rfl

end RunStore

end Fugue.Lib
