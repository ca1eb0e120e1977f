import Fugue.Ir.Address

/-!
# Subtraction of address ranges

The iterator behind `AddressRangeExt::difference` (`fugue-core/src/ir/address.rs:1917-1964`) keeps
the part of the range that is left and the exclusions that are still to come, and computes each
piece when it is asked for. Collecting the pieces gives `Lib.differenceRange`, so that the members
of the difference of sets are those of `Fugue.Ir.Address`.
-/

namespace Fugue.Ir

open Fugue.Lib List

/-- `RawAddress - usize` (`address.rs:294-300`), which wraps around. -/
def subRaw (address offset : Nat) : Nat := (address + (2 ^ 64 - offset % 2 ^ 64)) % 2 ^ 64

/-- The two kinds of range that `AddressRangeExt` is implemented for. -/
inductive RawRange where
  /-- `RangeInclusive<RawAddress>`. -/
  | inclusive (start stop : Nat)
  /-- `Range<RawAddress>`. -/
  | halfOpen (start stop : Nat)
  deriving DecidableEq, Repr

namespace RawRange

/-- `AddressRangeExt::is_empty` (`address.rs:1982-1984`, `2021-2023`). -/
def isEmpty : RawRange → Bool
  | inclusive start stop => decide (stop < start)
  | halfOpen start stop => decide (stop ≤ start)

/-- `AddressRangeExt::first` (`address.rs:1961-1963`, `2003-2005`). -/
def first : RawRange → Nat
  | inclusive start _ => start
  | halfOpen start _ => start

/-- `AddressRangeExt::last` (`address.rs:1965-1967`, `2007-2009`). -/
def last : RawRange → Nat
  | inclusive _ stop => stop
  | halfOpen _ stop => subRaw stop 1

def Contains (range : RawRange) (address : Nat) : Prop :=
  match range with
  | inclusive start stop => start ≤ address ∧ address ≤ stop
  | halfOpen start stop => start ≤ address ∧ address < stop

def Bounded : RawRange → Prop
  | inclusive start stop => start < 2 ^ 64 ∧ stop < 2 ^ 64
  | halfOpen start stop => start < 2 ^ 64 ∧ stop < 2 ^ 64

/-- The range as its first and last address; an empty one has its bounds the wrong way around. -/
def bounds (range : RawRange) : Nat × Nat :=
  if range.isEmpty then (1, 0) else (range.first, range.last)

end RawRange

/-- The captured variables of the closure that `difference` makes an iterator of. -/
structure DifferenceIter where
  remainder : Option (Nat × Nat)
  excluded : List RawRange

namespace DifferenceIter

/-- `AddressRangeExt::difference` (`address.rs:1918-1924`). -/
def new (start stop : Nat) (excluded : List RawRange) : DifferenceIter :=
  ⟨if (RawRange.inclusive start stop).isEmpty then none else some (start, stop), excluded⟩

/-- The rounds of the two loops of the closure (`address.rs:1926-1957`), which go through the
exclusions once: an exclusion that is empty or ends before the remainder is dropped. -/
def rounds (start stop : Nat) : List RawRange → Option (Nat × Nat) × DifferenceIter
  | [] => (some (start, stop), ⟨none, []⟩)
  | exclusion :: excluded =>
    if exclusion.isEmpty || decide (exclusion.last < start) then rounds start stop excluded
    else if stop < exclusion.first then (some (start, stop), ⟨none, exclusion :: excluded⟩)
    else if start < exclusion.first then
      if exclusion.last < stop then
        (some (start, subRaw exclusion.first 1), ⟨some (addRaw exclusion.last 1, stop), excluded⟩)
      else (some (start, subRaw exclusion.first 1), ⟨none, exclusion :: excluded⟩)
    else if exclusion.last < stop then rounds (addRaw exclusion.last 1) stop excluded
    else (none, ⟨none, exclusion :: excluded⟩)

/-- `next` of the iterator. -/
def next (iter : DifferenceIter) : Option (Nat × Nat) × DifferenceIter :=
  match iter.remainder with
  | none => (none, iter)
  | some (start, stop) => rounds start stop iter.excluded

/-- What a loop over the iterator sees, if it ends within `calls` calls of `next`. -/
def collect : Nat → DifferenceIter → Option (List (Nat × Nat))
  | 0, _ => none
  | calls + 1, iter =>
    match iter.next with
    | (none, _) => some []
    | (some piece, iter) => (collect calls iter).map (piece :: ·)

end DifferenceIter

/-- `RawAddressRangeSet::difference` (`address.rs:789-798`) with the loop over the iterator, whose
exclusions are the ranges of the other set that overlap. -/
def RawAddressRangeSet.differenceLoop (set other : RawAddressRangeSet) :
    Option RawAddressRangeSet :=
  set.ranges.foldlM (fun difference range =>
    let excluded := (other.overlapping range.1 range.2).map fun r => RawRange.inclusive r.1 r.2
    ((DifferenceIter.new range.1 range.2 excluded).collect (excluded.length + 2)).map
      fun pieces => pieces.foldl (fun difference r => difference.insertRange r.1 r.2) difference)
    .empty

/-- `RawAddressRangeSet::union` (`address.rs:716-718`). -/
def RawAddressRangeSet.union (set other : RawAddressRangeSet) : RawAddressRangeSet :=
  other.ranges.foldl (fun union r => union.insertRange r.1 r.2) set

/-- `RawAddressRangeSet::symmetric_difference` (`address.rs:800-802`). -/
def RawAddressRangeSet.symmetricDifference (set other : RawAddressRangeSet) :
    RawAddressRangeSet :=
  (set.difference other).union (other.difference set)

namespace RawRange

variable {range : RawRange} {address : Nat}

theorem subRaw_one {address : Nat} (pos : 0 < address) (lt : address < 2 ^ 64) :
    subRaw address 1 = address - 1 := by
  unfold subRaw
  omega

theorem last_lt (bounded : range.Bounded) (notEmpty : range.isEmpty = false) :
    range.last < 2 ^ 64 := by
  cases range with
  | inclusive start stop => exact bounded.2
  | halfOpen start stop => exact Nat.mod_lt _ (by decide)

theorem contains_iff (bounded : range.Bounded) :
    range.Contains address ↔ range.bounds.1 ≤ address ∧ address ≤ range.bounds.2 := by
  cases range with
  | inclusive start stop =>
    by_cases empty : stop < start
    · simp only [Contains, bounds, isEmpty, empty, decide_true, if_true]
      omega
    · simp [Contains, bounds, isEmpty, empty, first, last]
  | halfOpen start stop =>
    by_cases empty : stop ≤ start
    · simp only [Contains, bounds, isEmpty, empty, decide_true, if_true]
      omega
    · have lastEq : subRaw stop 1 = stop - 1 := subRaw_one (by omega) bounded.2
      simp only [Contains, bounds, isEmpty, empty, decide_false, first, last, lastEq,
        Bool.false_eq_true, if_false]
      omega

theorem bounds_of_isEmpty (empty : range.isEmpty = true) : range.bounds = (1, 0) := by
  simp [bounds, empty]

theorem bounds_of_not_isEmpty (notEmpty : range.isEmpty = false) :
    range.bounds = (range.first, range.last) := by
  simp [bounds, notEmpty]

theorem first_le_last (bounded : range.Bounded) (notEmpty : range.isEmpty = false) :
    range.first ≤ range.last := by
  cases range with
  | inclusive start stop => simpa [isEmpty, first, last] using notEmpty
  | halfOpen start stop =>
    have lt : start < stop := by simpa [isEmpty] using notEmpty
    have lastEq : subRaw stop 1 = stop - 1 := subRaw_one (by omega) bounded.2
    simp only [first, last, lastEq]
    omega

theorem startOrdered_bounds {excluded : List RawRange}
    (ordered : excluded.Pairwise fun r s => r.first ≤ s.first) :
    StartOrdered (excluded.map bounds) := by
  apply pairwise_map.mpr
  apply ordered.imp
  intro r s le proper proper'
  cases empty : r.isEmpty with
  | true => simp [bounds_of_isEmpty empty] at proper
  | false =>
    cases empty' : s.isEmpty with
    | true => simp [bounds_of_isEmpty empty'] at proper'
    | false => simpa [bounds_of_not_isEmpty empty, bounds_of_not_isEmpty empty'] using le

end RawRange

namespace DifferenceIter

variable {start stop : Nat} {excluded : List RawRange}

/-- What the calls of `next` are still going to return. -/
def pieces (iter : DifferenceIter) : List (Nat × Nat) :=
  match iter.remainder with
  | none => []
  | some (start, stop) => differenceRange start stop (iter.excluded.map RawRange.bounds)

/-- The state between two calls: a remainder is a range of machine words. -/
structure Inv (iter : DifferenceIter) : Prop where
  remainder : ∀ r ∈ iter.remainder, r.1 ≤ r.2 ∧ r.2 < 2 ^ 64
  bounded : ∀ exclusion ∈ iter.excluded, exclusion.Bounded

/-- How many more pieces there can be. -/
def budget (iter : DifferenceIter) : Nat :=
  iter.excluded.length + if iter.remainder.isSome then 1 else 0

/-- A call either ends the iteration with nothing left or returns the first of the pieces that
are left, and what remains is smaller. -/
structure NextSpec (before : List (Nat × Nat)) (budget : Nat)
    (result : Option (Nat × Nat) × DifferenceIter) : Prop where
  inv : result.2.Inv
  pieces_eq : before = result.1.toList ++ result.2.pieces
  finished : result.1 = none → result.2.remainder = none
  smaller : result.1.isSome → result.2.budget < budget

theorem rounds_spec (le : start ≤ stop) (lt : stop < 2 ^ 64)
    (bounded : ∀ exclusion ∈ excluded, exclusion.Bounded) :
    NextSpec (differenceRange start stop (excluded.map RawRange.bounds)) (excluded.length + 1)
      (rounds start stop excluded) := by
  induction excluded generalizing start with
  | nil =>
    simp only [rounds, map_nil, differenceRange]
    exact ⟨⟨by simp, by simp⟩, rfl, by simp, by simp [budget]⟩
  | cons exclusion excluded ih =>
    obtain ⟨head, rest⟩ := forall_mem_cons.mp bounded
    have kept : Inv ⟨none, exclusion :: excluded⟩ := ⟨by simp, bounded⟩
    unfold rounds
    cases empty : exclusion.isEmpty with
    | true =>
      have spec := ih le rest
      rw [map_cons, RawRange.bounds_of_isEmpty empty, differenceRange, if_pos (by omega)]
      exact ⟨spec.inv, spec.pieces_eq, spec.finished,
        fun some => (spec.smaller some).trans (by simp)⟩
    | false =>
      have proper := RawRange.first_le_last head empty
      have lastLt := RawRange.last_lt head empty
      have succ : exclusion.last < stop → addRaw exclusion.last 1 = exclusion.last + 1 := by
        intro less
        exact Nat.mod_eq_of_lt (by omega)
      have pred : start < exclusion.first → subRaw exclusion.first 1 = exclusion.first - 1 := by
        intro less
        exact RawRange.subRaw_one (by omega) (by omega)
      rw [map_cons, RawRange.bounds_of_not_isEmpty empty, differenceRange]
      by_cases before : exclusion.last < start
      · have spec := ih le rest
        simp only [before, or_true, if_true, decide_true, Bool.or_true]
        exact ⟨spec.inv, spec.pieces_eq, spec.finished,
          fun some => (spec.smaller some).trans (by simp)⟩
      rw [if_neg (by omega : ¬ (exclusion.last < exclusion.first ∨ exclusion.last < start))]
      simp only [before, decide_false, Bool.or_false, Bool.false_eq_true, if_false]
      by_cases beyond : stop < exclusion.first
      · simp only [beyond, if_true]
        exact ⟨kept, rfl, by simp, by simp [budget]⟩
      by_cases piece : start < exclusion.first
      · by_cases more : exclusion.last < stop
        · simp only [beyond, piece, more, if_true, if_false, succ more, pred piece]
          refine ⟨⟨?_, rest⟩, rfl, by simp, by simp [budget]⟩
          simp only [Option.mem_def, Option.some.injEq, forall_eq']
          exact ⟨more, lt⟩
        · simp only [beyond, piece, more, if_true, if_false, pred piece]
          exact ⟨kept, rfl, by simp, by simp [budget]⟩
      · by_cases more : exclusion.last < stop
        · have spec := ih (show exclusion.last + 1 ≤ stop from more) rest
          simp only [beyond, piece, more, if_true, if_false, succ more]
          exact ⟨spec.inv, spec.pieces_eq, spec.finished,
            fun some => (spec.smaller some).trans (by simp)⟩
        · simp only [beyond, piece, more, if_false]
          exact ⟨kept, rfl, by simp, by simp⟩

theorem next_spec {iter : DifferenceIter} (inv : iter.Inv) :
    NextSpec iter.pieces iter.budget iter.next := by
  obtain ⟨remainder, excluded⟩ := iter
  cases remainder with
  | none => exact ⟨inv, rfl, by simp [next], by simp [next]⟩
  | some range =>
    obtain ⟨le, lt⟩ := inv.remainder range rfl
    exact rounds_spec le lt inv.bounded

theorem collect_eq {calls : Nat} {iter : DifferenceIter} (inv : iter.Inv)
    (enough : iter.budget < calls) : iter.collect calls = some iter.pieces := by
  induction calls generalizing iter with
  | zero => omega
  | succ calls ih =>
    have spec := next_spec inv
    rw [collect]
    cases result : iter.next with
    | mk piece later =>
      rw [result] at spec
      cases piece with
      | none =>
        have done : later.remainder = none := spec.finished rfl
        have rest : later.pieces = [] := by
          rw [pieces, done]
        simp [spec.pieces_eq, rest]
      | some piece =>
        have := spec.smaller rfl
        simp [ih spec.inv (by omega), spec.pieces_eq]

theorem new_inv (lt : stop < 2 ^ 64) (bounded : ∀ exclusion ∈ excluded, exclusion.Bounded) :
    (new start stop excluded).Inv := by
  refine ⟨?_, bounded⟩
  by_cases empty : stop < start
  · simp [new, RawRange.isEmpty, empty]
  · simp only [new, RawRange.isEmpty, empty, decide_false, Bool.false_eq_true, if_false,
      Option.mem_def, Option.some.injEq, forall_eq']
    omega

theorem collect_new (lt : stop < 2 ^ 64) (bounded : ∀ exclusion ∈ excluded, exclusion.Bounded) :
    (new start stop excluded).collect (excluded.length + 2) =
      some (new start stop excluded).pieces := by
  apply collect_eq (new_inv lt bounded)
  unfold budget new
  split <;> simp

theorem pieces_new (le : start ≤ stop) :
    (new start stop excluded).pieces =
      differenceRange start stop (excluded.map RawRange.bounds) := by
  simp [new, pieces, RawRange.isEmpty, not_lt.mpr le]

theorem separated_pieces_new : Separated (new start stop excluded).pieces := by
  by_cases le : start ≤ stop
  · rw [pieces_new le]
    exact separated_differenceRange le
  · have empty : stop < start := by omega
    simp [new, pieces, RawRange.isEmpty, empty, separated_nil]

theorem inRanges_pieces_new {x : Nat} (bounded : ∀ exclusion ∈ excluded, exclusion.Bounded)
    (ordered : excluded.Pairwise fun r s => r.first ≤ s.first) :
    InRanges x (new start stop excluded).pieces ↔
      (start ≤ x ∧ x ≤ stop) ∧ ∀ exclusion ∈ excluded, ¬ exclusion.Contains x := by
  by_cases le : start ≤ stop
  · have outside : ¬ InRanges x (excluded.map RawRange.bounds) ↔
        ∀ exclusion ∈ excluded, ¬ exclusion.Contains x := by
      constructor
      · intro none exclusion mem inside
        have within := (RawRange.contains_iff (bounded exclusion mem)).mp inside
        exact none ⟨_, mem_map_of_mem mem, within⟩
      · intro none inside
        obtain ⟨r, mapped, within⟩ := inside
        obtain ⟨exclusion, mem, rfl⟩ := mem_map.mp mapped
        exact none exclusion mem ((RawRange.contains_iff (bounded exclusion mem)).mpr within)
    rw [pieces_new le, inRanges_differenceRange le (RawRange.startOrdered_bounds ordered), outside]
  · have empty : stop < start := by omega
    simp only [new, pieces, RawRange.isEmpty, empty, decide_true, if_true, inRanges_nil, false_iff]
    omega

end DifferenceIter

namespace RawAddressRangeSet

variable {set other : RawAddressRangeSet} {address : Nat}

theorem collect_overlapping {start stop : Nat} (le : start ≤ stop) (lt : stop < 2 ^ 64)
    {ranges : List (Nat × Nat)} (proper : ∀ r ∈ ranges, r.1 ≤ r.2 ∧ r.2 < 2 ^ 64) :
    (DifferenceIter.new start stop (ranges.map fun r => RawRange.inclusive r.1 r.2)).collect
        ((ranges.map fun r => RawRange.inclusive r.1 r.2).length + 2) =
      some (differenceRange start stop ranges) := by
  have same : (ranges.map fun r => RawRange.inclusive r.1 r.2).map RawRange.bounds = ranges := by
    rw [map_map]
    apply (map_congr_left ?_).trans (map_id ranges)
    intro r mem
    simp [RawRange.bounds, RawRange.isEmpty, RawRange.first, RawRange.last,
      not_lt.mpr (proper r mem).1]
  rw [DifferenceIter.collect_new lt, DifferenceIter.pieces_new le, same]
  intro exclusion mem
  obtain ⟨r, inside, rfl⟩ := mem_map.mp mem
  have := proper r inside
  exact ⟨by omega, this.2⟩

theorem differenceLoop_eq : set.differenceLoop other = some (set.difference other) := by
  have overlapping : ∀ r : Nat × Nat, ∀ s ∈ other.overlapping r.1 r.2,
      s.1 ≤ s.2 ∧ s.2 < 2 ^ 64 := by
    intro r s mem
    have known := (mem_filter.mp mem).1
    exact ⟨other.separated.nonempty s known, other.bounded s known⟩
  have proper : ∀ r ∈ set.ranges, r.1 ≤ r.2 ∧ r.2 < 2 ^ 64 := fun r mem =>
    ⟨set.separated.nonempty r mem, set.bounded r mem⟩
  unfold differenceLoop difference
  generalize set.ranges = ranges at proper
  generalize empty = start
  induction ranges generalizing start with
  | nil => rfl
  | cons r ranges ih =>
    obtain ⟨head, rest⟩ := forall_mem_cons.mp proper
    simp only [foldlM_cons, flatMap_cons, foldl_append,
      collect_overlapping head.1 head.2 (overlapping r), Option.map_some,
      some_bind]
    exact ih rest _

theorem contains_union :
    (set.union other).Contains address ↔ set.Contains address ∨ other.Contains address := by
  rw [union, contains_foldl_insertRange, or_comm]
  · rfl
  · intro r mem
    exact ⟨other.separated.nonempty r mem, other.bounded r mem⟩

theorem contains_symmetricDifference :
    (set.symmetricDifference other).Contains address ↔
      (set.Contains address ↔ ¬ other.Contains address) := by
  rw [symmetricDifference, contains_union, contains_difference, contains_difference]
  tauto

end RawAddressRangeSet

/-- Subtraction of address ranges: the iterator ends, its pieces are disjoint ranges in growing
order and hold what no exclusion holds, and the differences of sets are those of their members. -/
theorem address_difference_exact (start stop : Nat) (stopLt : stop < 2 ^ 64)
    (excluded : List RawRange) (bounded : ∀ exclusion ∈ excluded, exclusion.Bounded)
    (ordered : excluded.Pairwise fun r s => r.first ≤ s.first) :
    (∃ pieces, (DifferenceIter.new start stop excluded).collect (excluded.length + 2) =
        some pieces ∧ Separated pieces ∧
      ∀ x, InRanges x pieces ↔
        (start ≤ x ∧ x ≤ stop) ∧ ∀ exclusion ∈ excluded, ¬ exclusion.Contains x) ∧
    (∀ set other : RawAddressRangeSet, set.differenceLoop other = some (set.difference other) ∧
      ∀ address, ((set.difference other).Contains address ↔
          set.Contains address ∧ ¬ other.Contains address) ∧
        ((set.symmetricDifference other).Contains address ↔
          (set.Contains address ↔ ¬ other.Contains address))) ∧
    ∀ set other : AddressRangeSet, ∀ address, (set.difference other).Contains address ↔
      set.Contains address ∧ ¬ other.Contains address := by
  refine ⟨⟨_, DifferenceIter.collect_new stopLt bounded, DifferenceIter.separated_pieces_new,
    fun x => DifferenceIter.inRanges_pieces_new bounded ordered⟩, fun set other =>
    ⟨RawAddressRangeSet.differenceLoop_eq, fun address =>
      ⟨RawAddressRangeSet.contains_difference, RawAddressRangeSet.contains_symmetricDifference⟩⟩,
    fun set other address => AddressRangeSet.contains_difference⟩

/-- The whole space without its two ends, nested exclusions and an empty one. -/
theorem address_difference_exact_whole_space :
    ∃ pieces, (DifferenceIter.new 0 (2 ^ 64 - 1) [.inclusive 0 0, .inclusive 3 8, .halfOpen 5 5,
        .halfOpen 5 7, .inclusive 30 (2 ^ 64 - 1)]).collect 7 = some pieces ∧ Separated pieces ∧
      ∀ x, InRanges x pieces ↔ (0 ≤ x ∧ x ≤ 2 ^ 64 - 1) ∧
        ∀ exclusion ∈ [RawRange.inclusive 0 0, .inclusive 3 8, .halfOpen 5 5, .halfOpen 5 7,
          .inclusive 30 (2 ^ 64 - 1)], ¬ exclusion.Contains x :=
  (address_difference_exact 0 (2 ^ 64 - 1) (by decide) [.inclusive 0 0, .inclusive 3 8,
    .halfOpen 5 5, .halfOpen 5 7, .inclusive 30 (2 ^ 64 - 1)]
    (by simp [RawRange.Bounded]) (by simp [RawRange.first])).1

end Fugue.Ir
