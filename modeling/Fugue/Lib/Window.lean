import Mathlib.Data.List.Basic
import Mathlib.Tactic.Common

/-!
# Windows of an array

A list that holds what an unbounded array holds from some place on. `slice` and `copyAt` are the
accesses to a part of a list that fail outside of its bounds; on windows they are windows again, so
that a store that is made of pieces can be compared with the array it stands for.
-/

namespace Fugue.Lib

open List Option

universe u

variable {α : Type u} {f g : ℕ → α} {start count : ℕ}

/-- The elements of an array from `start` on. -/
def window (f : ℕ → α) (start count : ℕ) : List α := (List.range count).map fun i => f (start + i)

@[simp]
theorem length_window : (window f start count).length = count := by simp [window]

theorem getElem?_window (i : ℕ) :
    (window f start count)[i]? = if i < count then some (f (start + i)) else none := by
  unfold window
  rw [getElem?_map]
  by_cases lt : i < count
  · rw [getElem?_range lt, if_pos lt]
    rfl
  · rw [getElem?_eq_none (by simpa using lt), if_neg lt]
    rfl

/-- A list is a window if its elements are those of the array. -/
theorem eq_window {list : List α} (length : list.length = count)
    (same : ∀ i, i < count → list[i]? = some (f (start + i))) : list = window f start count := by
  refine ext_getElem? ?_
  intro i
  rw [getElem?_window]
  split
  · rename_i lt
    exact same i lt
  · exact getElem?_eq_none (by omega)

theorem window_congr (same : ∀ i, start ≤ i → i < start + count → f i = g i) :
    window f start count = window g start count := by
  apply eq_window length_window
  intro i lt
  rw [getElem?_window, if_pos lt, same _ (by omega) (by omega)]

theorem window_zero : window f start 0 = [] := rfl

theorem window_append (more : ℕ) :
    window f start count ++ window f (start + count) more = window f start (count + more) := by
  apply eq_window (by simp)
  intro i lt
  rw [getElem?_append, length_window]
  split
  · rename_i inside
    rw [getElem?_window, if_pos inside]
  · rw [getElem?_window, if_pos (by omega)]
    congr 2
    omega

theorem drop_window (n : ℕ) :
    (window f start count).drop n = window f (start + n) (count - n) := by
  refine eq_window (by simp) ?_
  intro i lt
  rw [getElem?_drop, getElem?_window, if_pos (by omega), Nat.add_assoc]

theorem take_window {n : ℕ} (le : n ≤ count) : (window f start count).take n = window f start n := by
  refine eq_window (by rw [length_take, length_window, Nat.min_eq_left le]) ?_
  intro i lt
  rw [getElem?_take, if_pos lt, getElem?_window, if_pos (by omega)]

theorem replicate_eq_window (x : α) : List.replicate count x = window (fun _ => x) start count := by
  apply eq_window (by simp)
  intro i lt
  rw [getElem?_replicate, if_pos lt]

theorem exists_window [Inhabited α] (list : List α) (start : ℕ) :
    ∃ f, list = window f start list.length := by
  refine ⟨fun i => list[i - start]?.getD default, eq_window rfl ?_⟩
  intro i lt
  rw [Nat.add_sub_cancel_left, getElem?_eq_getElem lt, getD_some]

/-- A part of a list, `none` if it is not within the list. -/
def slice (list : List α) (start stop : ℕ) : Option (List α) :=
  if start ≤ stop ∧ stop ≤ list.length then some ((list.drop start).take (stop - start)) else none

/-- A list with a part replaced, `none` if it is not within the list. -/
def copyAt (list : List α) (start : ℕ) (source : List α) : Option (List α) :=
  if start + source.length ≤ list.length then
    some (list.take start ++ source ++ list.drop (start + source.length))
  else none

theorem slice_eq_window {list : List α} {from_ stop : ℕ} (le : from_ ≤ stop)
    (within : stop ≤ list.length)
    (same : ∀ i, i < stop - from_ → list[from_ + i]? = some (f (start + i))) :
    slice list from_ stop = some (window f start (stop - from_)) := by
  unfold slice
  rw [if_pos ⟨le, within⟩]
  congr 1
  apply eq_window (by rw [length_take, length_drop]; omega)
  intro i lt
  rw [getElem?_take, if_pos lt, getElem?_drop]
  exact same i lt

theorem getElem?_copyAt {list source copied : List α}
    (call : copyAt list start source = some copied) (i : ℕ) :
    copied[i]? = if start ≤ i ∧ i < start + source.length then source[i - start]? else list[i]? := by
  unfold copyAt at call
  split at call
  · cases call
    rw [append_assoc, getElem?_append, length_take]
    by_cases before : i < start
    · rw [if_pos (by omega), if_neg (by omega), getElem?_take, if_pos before]
    · rw [if_neg (by omega), getElem?_append]
      by_cases inside : i < start + source.length
      · rw [if_pos (by omega), if_pos (by omega)]
        congr 1
        omega
      · rw [if_neg (by omega), if_neg (by omega), getElem?_drop]
        congr 1
        omega
  · cases call

theorem length_copyAt {list source copied : List α} (call : copyAt list start source = some copied) :
    copied.length = list.length := by
  unfold copyAt at call
  split at call
  · cases call
    simp only [length_append, length_take, length_drop]
    omega
  · cases call

theorem copyAt_isSome {list source : List α} (within : start + source.length ≤ list.length) :
    ∃ copied, copyAt list start source = some copied := by
  unfold copyAt
  rw [if_pos within]
  exact ⟨_, rfl⟩

theorem slice_window {from_ stop : ℕ} (le : from_ ≤ stop) (within : stop ≤ count) :
    slice (window f start count) from_ stop = some (window f (start + from_) (stop - from_)) := by
  unfold slice
  rw [length_window, if_pos ⟨le, within⟩, drop_window, take_window (by omega)]

/-- The array with the places from `start` on taken from another one. -/
def patch (f g : ℕ → α) (start count : ℕ) (i : ℕ) : α :=
  if start ≤ i ∧ i < start + count then g i else f i

theorem patch_inside {i : ℕ} (from_ : start ≤ i) (below : i < start + count) :
    patch f g start count i = g i := if_pos ⟨from_, below⟩

theorem patch_outside {i : ℕ} (outside : ¬ (start ≤ i ∧ i < start + count)) :
    patch f g start count i = f i := if_neg outside

theorem patch_zero : patch f g start 0 = f := by
  funext i
  exact patch_outside (by omega)

theorem patch_patch (more : ℕ) :
    patch (patch f g start count) g (start + count) more = patch f g start (count + more) := by
  funext i
  unfold patch
  split_ifs <;> first | rfl | omega

theorem copyAt_window {place more : ℕ} (within : place + more ≤ count) :
    copyAt (window f start count) place (window g (start + place) more) =
      some (window (patch f g (start + place) more) start count) := by
  unfold copyAt
  rw [length_window, length_window, if_pos within, take_window (by omega), drop_window]
  congr 1
  apply eq_window (by simp; omega)
  intro i lt
  rw [append_assoc, getElem?_append, length_window]
  split
  · rename_i before
    rw [getElem?_window, if_pos before, patch_outside (by omega)]
  · rw [getElem?_append, length_window]
    split
    · rename_i inside
      rw [getElem?_window, if_pos inside, patch_inside (by omega) (by omega)]
      congr 2
      omega
    · rw [getElem?_window, if_pos (by omega), patch_outside (by omega)]
      congr 2
      omega

/-! ## Partitioned lists -/

/-- The front of a list that a predicate partitions. -/
theorem takeWhile_eq_filter {p : α → Bool} : ∀ {list : List α},
    list.Pairwise (fun x y => p y = true → p x = true) → list.takeWhile p = list.filter p
  | [], _ => rfl
  | x :: list, sorted => by
    obtain ⟨first, sorted'⟩ := pairwise_cons.mp sorted
    cases holds : p x with
    | true => rw [takeWhile_cons_of_pos holds, filter_cons_of_pos holds,
        takeWhile_eq_filter sorted']
    | false =>
      rw [takeWhile_cons_of_neg (by simp [holds]), filter_cons_of_neg (by simp [holds])]
      refine (filter_eq_nil_iff.mpr ?_).symm
      intro y mem later
      rw [first y mem later] at holds
      cases holds

/-- The rest of a list that a predicate partitions. -/
theorem dropWhile_eq_filter {p : α → Bool} : ∀ {list : List α},
    list.Pairwise (fun x y => p y = true → p x = true) →
    list.dropWhile p = list.filter fun x => !p x
  | [], _ => rfl
  | x :: list, sorted => by
    obtain ⟨first, sorted'⟩ := pairwise_cons.mp sorted
    cases holds : p x with
    | true =>
      rw [dropWhile_cons_of_pos holds, filter_cons_of_neg (by simp [holds]),
        dropWhile_eq_filter sorted']
    | false =>
      have none : ∀ y ∈ x :: list, (!p y) = true := by
        intro y mem
        rcases mem_cons.mp mem with rfl | later
        · rw [holds]
          rfl
        · cases after : p y with
          | true =>
            rw [first y later after] at holds
            cases holds
          | false => rfl
      rw [dropWhile_cons_of_neg (by simp [holds]), filter_eq_self.mpr none]

/-! ## Pieces -/

/-- The piece covers the place. -/
def Spans (piece : ℕ × List α) (i : ℕ) : Prop := piece.1 ≤ i ∧ i < piece.1 + piece.2.length

instance (piece : ℕ × List α) (i : ℕ) : Decidable (Spans piece i) := instDecidableAnd

def Holds (f : ℕ → α) (piece : ℕ × List α) : Prop := piece.2 = window f piece.1 piece.2.length

variable {piece : ℕ × List α}

theorem Holds.congr (holds : Holds f piece)
    (same : ∀ i, Spans piece i → f i = g i) : Holds g piece := by
  unfold Holds
  rw [← window_congr fun i from_ below => same i ⟨from_, below⟩]
  exact holds

theorem holds_window (f : ℕ → α) (start count : ℕ) : Holds f (start, window f start count) := by
  rw [Holds, length_window]

theorem Holds.take (holds : Holds f piece) {n : ℕ}
    (le : n ≤ piece.2.length) : piece.2.take n = window f piece.1 n := by
  have taken : (window f piece.1 piece.2.length).take n = window f piece.1 n := take_window le
  rwa [← holds] at taken

theorem Holds.drop (holds : Holds f piece) (n : ℕ) :
    piece.2.drop n = window f (piece.1 + n) (piece.2.length - n) := by
  have dropped : (window f piece.1 piece.2.length).drop n = _ := drop_window n
  rwa [← holds] at dropped

/-- The part of a piece between two places. -/
theorem Holds.slice (holds : Holds f piece) {from_ stop : ℕ}
    (after : piece.1 ≤ from_) (le : from_ ≤ stop) (within : stop ≤ piece.1 + piece.2.length) :
    Lib.slice piece.2 (from_ - piece.1) (stop - piece.1) = some (window f from_ (stop - from_)) := by
  rw [holds, slice_window (by omega) (by omega)]
  congr 2
  · omega
  · omega

/-- A buffer for the places from `offset` on, with a piece copied into it where they overlap. -/
def copyOverlap (offset : ℕ) (buffer : List α) (piece : ℕ × List α) : Option (List α) := do
  let from_ := max offset piece.1
  let stop := min (offset + buffer.length) (piece.1 + piece.2.length)
  let source ← slice piece.2 (from_ - piece.1) (stop - piece.1)
  copyAt buffer (from_ - offset) source

/-- The array `f` where a piece covers the place, and `g` elsewhere. -/
def painted (f g : ℕ → α) (pieces : List (ℕ × List α)) (i : ℕ) : α :=
  if ∃ piece ∈ pieces, Spans piece i then f i else g i

theorem painted_nil (i : ℕ) : painted f g [] i = g i := if_neg (by simp)

theorem copyOverlap_window {offset : ℕ} (holds : Holds f piece)
    (starts : piece.1 < offset + count) (ends : offset < piece.1 + piece.2.length)
    (some_ : 0 < count) :
    copyOverlap offset (window g offset count) piece =
      some (window (painted f g [piece]) offset count) := by
  unfold copyOverlap
  dsimp only
  rw [length_window, holds.slice (by omega) (by omega) (by omega), bind_eq_bind,
    bind_some]
  have place : max offset piece.1 = offset + (max offset piece.1 - offset) := by omega
  have copied := @copyAt_window _ g f offset count (max offset piece.1 - offset)
    (min (offset + count) (piece.1 + piece.2.length) - max offset piece.1) (by omega)
  rw [← place] at copied
  rw [copied]
  congr 1
  apply window_congr
  intro i from_ below
  unfold patch painted Spans
  simp only [mem_singleton, exists_eq_left]
  refine if_congr ?_ rfl rfl
  omega

theorem painted_cons (piece : ℕ × List α) (pieces : List (ℕ × List α)) :
    painted f (painted f g [piece]) pieces = painted f g (piece :: pieces) := by
  funext i
  unfold painted
  simp only [mem_cons, exists_eq_or_imp]
  by_cases later : ∃ other ∈ pieces, Spans other i
  · rw [if_pos later, if_pos (.inr later)]
  · simp only [not_mem_nil, false_and, exists_false, or_false]
    rw [if_neg later]
    exact if_congr (or_iff_left later).symm rfl rfl

end Fugue.Lib
