import Fugue.Ir.Address

/-!
# Union, intersection and removal of address sets

The operations of `AddressRangeSet` beyond insertion and difference (`fugue-core/src/ir/address.rs`),
each with its members. A set of a space is determined by its members, so removal and intersection
are given by differences.
-/

namespace Fugue.Ir

open Fugue.Lib
open OrdMap (get?_eq_none get?_eq_some mem_erase mem_insert)

/-- `AddressRange::point` (`address.rs:850-856`). -/
def AddressRange.point (address : Address) : AddressRange :=
  ⟨address.space, address.address, address.address⟩

theorem AddressRange.contains_point {address other : Address} :
    (AddressRange.point address).Contains other ↔ address = other := by
  rw [Address.mk.injEq]
  exact ⟨fun inside => ⟨inside.1, le_antisymm inside.2.1 inside.2.2⟩,
    fun same => ⟨same.1, same.2.le, same.2.ge⟩⟩

namespace RawAddressRangeSet

/-- `RawAddressRangeSet::remove_range` (`address.rs:806-809`); the set refuses an empty range. -/
def removeRange (set : RawAddressRangeSet) (start stop : Nat) : Option RawAddressRangeSet :=
  if start ≤ stop then some (set.difference (empty.insertRange start stop)) else none

/-- `RawAddressRangeSet::intersection` (`address.rs:720-722`). -/
def intersection (set other : RawAddressRangeSet) : RawAddressRangeSet :=
  set.difference (set.difference other)

variable {set other : RawAddressRangeSet} {x start stop : Nat}

theorem not_contains_empty : ¬ empty.Contains x := by
  simp [Contains, empty]

theorem contains_removeRange {removed : RawAddressRangeSet} (lt : stop < 2 ^ 64)
    (call : set.removeRange start stop = some removed) :
    removed.Contains x ↔ set.Contains x ∧ ¬ (start ≤ x ∧ x ≤ stop) := by
  unfold removeRange at call
  split at call
  · rename_i le
    cases call
    rw [contains_difference, contains_insertRange le lt, or_iff_left not_contains_empty]
  · cases call

theorem contains_intersection :
    (set.intersection other).Contains x ↔ set.Contains x ∧ other.Contains x := by
  rw [intersection, contains_difference, contains_difference]
  tauto

theorem isEmpty_iff : set.isEmpty = true ↔ ∀ x, ¬ set.Contains x := by
  unfold isEmpty Contains
  constructor
  · intro empty x inside
    rw [List.isEmpty_iff.mp empty] at inside
    exact inRanges_nil inside
  · intro none
    cases ranges : set.ranges with
    | nil => rfl
    | cons r rest =>
      have le := set.separated.nonempty r (by rw [ranges]; exact .head _)
      refine absurd ⟨r, ?_, le_rfl, le⟩ (none r.1)
      rw [ranges]
      exact .head _

end RawAddressRangeSet

namespace AddressRangeSet

/-- `AddressRangeSet::remove_range` (`address.rs:1001-1009`). -/
def removeRange (set : AddressRangeSet) (range : AddressRange) : Option AddressRangeSet :=
  match set.spaces.get? range.space with
  | none => some set
  | some ranges => do
    let ranges ← ranges.removeRange range.start range.stop
    return ⟨if ranges.isEmpty then set.spaces.erase range.space
      else set.spaces.insert range.space ranges⟩

/-- One round of the loop of `intersection`. -/
def intersectionSpace (other : AddressRangeSet) (spaces : OrdMap AddressSpaceId RawAddressRangeSet)
    (entry : AddressSpaceId × RawAddressRangeSet) : OrdMap AddressSpaceId RawAddressRangeSet :=
  match other.spaces.get? entry.1 with
  | none => spaces
  | some ranges =>
    let ranges := entry.2.intersection ranges
    if ranges.isEmpty then spaces else spaces.insert entry.1 ranges

/-- `AddressRangeSet::intersection` (`address.rs:1036-1050`). -/
def intersection (set other : AddressRangeSet) : AddressRangeSet :=
  ⟨set.spaces.entries.foldl (intersectionSpace other) .empty⟩

/-- `AddressRangeSet::intersects` (`address.rs:1052-1054`). -/
def intersects (set other : AddressRangeSet) : Bool :=
  other.ranges.any set.intersectsRange

/-- Put in all ranges of a list, as the loops over `insert_range` do. -/
def insertRanges (set : AddressRangeSet) (ranges : List AddressRange) : AddressRangeSet :=
  ranges.foldl insertRange set

variable {set other : AddressRangeSet} {address : Address} {range : AddressRange}

theorem not_contains_new : ¬ new.Contains address := by
  simp [Contains, new]

theorem contains_insertRange (lt : range.stop < 2 ^ 64) :
    (set.insertRange range).Contains address ↔ range.Contains address ∨ set.Contains address := by
  unfold insertRange
  split
  · rename_i empty
    have none : ¬ range.Contains address := by
      rintro ⟨-, low, high⟩
      have := of_decide_eq_true empty
      omega
    rw [or_iff_right none]
  · rename_i notEmpty
    have le : range.start ≤ range.stop := by
      simpa [AddressRange.isEmpty] using notEmpty
    have known : ((set.spaces.get? range.space).getD .empty).Contains address.address ↔
        ∃ ranges, (range.space, ranges) ∈ set.spaces.entries ∧
          ranges.Contains address.address := by
      cases found : set.spaces.get? range.space with
      | none =>
        have absent := get?_eq_none.mp found
        simp [absent, RawAddressRangeSet.not_contains_empty]
      | some ranges =>
        have mem := get?_eq_some.mp found
        constructor
        · exact fun inside => ⟨ranges, mem, inside⟩
        · rintro ⟨other, otherMem, inside⟩
          rwa [OrdMap.unique mem otherMem]
    unfold Contains AddressRange.Contains
    constructor
    · rintro ⟨ranges, mem, inside⟩
      rcases mem_insert.mp mem with eq | ⟨old, -⟩
      · obtain ⟨same, rfl⟩ := Prod.mk.inj eq
        rw [RawAddressRangeSet.contains_insertRange le lt, known] at inside
        rcases inside with new | old
        · exact .inl ⟨same.symm, new⟩
        · rw [same]
          exact .inr old
      · exact .inr ⟨ranges, old, inside⟩
    · intro h
      by_cases same : address.space = range.space
      · refine ⟨_, mem_insert.mpr (.inl (by rw [same])), ?_⟩
        rw [RawAddressRangeSet.contains_insertRange le lt, known]
        rcases h with new | old
        · exact .inl new.2
        · rw [same] at old
          exact .inr old
      · rcases h with new | ⟨ranges, mem, inside⟩
        · exact absurd new.1.symm same
        · exact ⟨ranges, mem_insert.mpr (.inr ⟨mem, same⟩), inside⟩

theorem contains_insertRanges : ∀ {ranges : List AddressRange} {set : AddressRangeSet},
    (∀ range ∈ ranges, range.stop < 2 ^ 64) →
    ((set.insertRanges ranges).Contains address ↔
      (∃ range ∈ ranges, range.Contains address) ∨ set.Contains address)
  | [], set, _ => by simp [insertRanges]
  | range :: ranges, set, proper => by
    obtain ⟨head, rest⟩ := List.forall_mem_cons.mp proper
    have ih := @contains_insertRanges ranges (set.insertRange range) rest
    rw [insertRanges, List.foldl_cons, ← insertRanges, ih, contains_insertRange head,
      List.exists_mem_cons_iff]
    exact or_left_comm.trans or_assoc.symm

/-- All ranges of one set put into another one: the union. -/
theorem contains_insertRanges_ranges : (set.insertRanges other.ranges).Contains address ↔
    other.Contains address ∨ set.Contains address := by
  rw [contains_insertRanges fun range mem => (ranges_proper range mem).stop_lt,
    ← contains_iff_ranges]

theorem isEmpty_iff : set.isEmpty = true ↔ ∀ address, ¬ set.Contains address := by
  unfold isEmpty Contains
  rw [List.all_eq_true]
  constructor
  · intro all address ⟨ranges, mem, inside⟩
    exact RawAddressRangeSet.isEmpty_iff.mp (all _ mem) _ inside
  · intro none ⟨space, ranges⟩ mem
    exact RawAddressRangeSet.isEmpty_iff.mpr fun x inside => none ⟨space, x⟩ ⟨ranges, mem, inside⟩

theorem removeRange_isSome (set : AddressRangeSet) (le : range.start ≤ range.stop) :
    ∃ removed, set.removeRange range = some removed := by
  unfold removeRange
  cases set.spaces.get? range.space with
  | none => exact ⟨set, rfl⟩
  | some ranges =>
    dsimp only
    rw [RawAddressRangeSet.removeRange, if_pos le]
    exact ⟨_, rfl⟩

theorem contains_removeRange {removed : AddressRangeSet} (lt : range.stop < 2 ^ 64)
    (call : set.removeRange range = some removed) :
    removed.Contains address ↔ set.Contains address ∧ ¬ range.Contains address := by
  unfold removeRange at call
  cases found : set.spaces.get? range.space with
  | none =>
    have absent := get?_eq_none.mp found
    rw [found] at call
    cases call
    refine ⟨fun inside => ⟨inside, fun ⟨same, _⟩ => ?_⟩, fun h => h.1⟩
    obtain ⟨ranges, mem, -⟩ := inside
    exact absent ranges (same ▸ mem)
  | some ranges =>
    have mem := get?_eq_some.mp found
    rw [found] at call
    obtain ⟨left, leftEq, rest⟩ := Option.bind_eq_some_iff.mp call
    cases rest
    have members := fun x => RawAddressRangeSet.contains_removeRange (x := x) lt leftEq
    unfold Contains AddressRange.Contains
    by_cases same : address.space = range.space
    · have old : (∃ ranges, (address.space, ranges) ∈ set.spaces.entries ∧
          ranges.Contains address.address) ↔ ranges.Contains address.address := by
        constructor
        · intro ⟨other, otherMem, inside⟩
          rw [same] at otherMem
          rwa [OrdMap.unique mem otherMem]
        · exact fun inside => ⟨ranges, same ▸ mem, inside⟩
      rw [old]
      refine Iff.trans ?_ ((members address.address).trans (and_congr_right fun _ =>
        not_congr ⟨fun inside => ⟨same.symm, inside⟩, fun h => h.2⟩))
      split
      · rename_i empty
        constructor
        · intro ⟨other, otherMem, _⟩
          exact absurd same (mem_erase.mp otherMem).2
        · intro inside
          exact absurd inside (RawAddressRangeSet.isEmpty_iff.mp empty _)
      · constructor
        · intro ⟨other, otherMem, inside⟩
          rcases mem_insert.mp otherMem with eq | ⟨-, ne⟩
          · rwa [(Prod.mk.inj eq).2] at inside
          · exact absurd same ne
        · exact fun inside => ⟨left, mem_insert.mpr (.inl (by rw [same])), inside⟩
    · have outside : ¬ (range.space = address.space ∧ range.start ≤ address.address ∧
          address.address ≤ range.stop) := fun h => same h.1.symm
      rw [and_iff_left outside]
      refine exists_congr fun other => and_congr_left fun _ => ?_
      split
      · rw [mem_erase]
        exact and_iff_left same
      · rw [mem_insert]
        refine ⟨fun h => ?_, fun mem => .inr ⟨mem, same⟩⟩
        rcases h with eq | ⟨old, -⟩
        · exact absurd (Prod.mk.inj eq).1 same
        · exact old

/-- A round of `intersection` adds the common members of its space. -/
theorem contains_intersectionSpace {spaces : OrdMap AddressSpaceId RawAddressRangeSet}
    {space : AddressSpaceId} {ranges : RawAddressRangeSet}
    (fresh : ∀ more, (space, more) ∉ spaces.entries) :
    (∃ more, (address.space, more) ∈ (intersectionSpace other spaces (space, ranges)).entries ∧
        more.Contains address.address) ↔
      (∃ more, (address.space, more) ∈ spaces.entries ∧ more.Contains address.address) ∨
        (address.space = space ∧ ranges.Contains address.address ∧ other.Contains address) := by
  unfold intersectionSpace
  cases found : other.spaces.get? space with
  | none =>
    have absent := get?_eq_none.mp found
    refine ⟨.inl, fun h => h.elim id fun ⟨same, _, more, mem, _⟩ => ?_⟩
    exact absurd (same ▸ mem) (absent more)
  | some otherRanges =>
    have mem := get?_eq_some.mp found
    have common : address.space = space →
        ((ranges.intersection otherRanges).Contains address.address ↔
          ranges.Contains address.address ∧ other.Contains address) := by
      intro same
      rw [RawAddressRangeSet.contains_intersection]
      refine and_congr_right fun _ => ⟨fun inside => ⟨otherRanges, same ▸ mem, inside⟩, ?_⟩
      intro ⟨more, moreMem, inside⟩
      rw [same] at moreMem
      rwa [OrdMap.unique mem moreMem]
    dsimp only
    split
    · rename_i empty
      refine ⟨.inl, fun h => h.elim id fun ⟨same, inside⟩ => ?_⟩
      exact absurd ((common same).mpr inside) (RawAddressRangeSet.isEmpty_iff.mp empty _)
    · constructor
      · intro ⟨more, moreMem, inside⟩
        rcases mem_insert.mp moreMem with eq | ⟨old, -⟩
        · obtain ⟨same, rfl⟩ := Prod.mk.inj eq
          exact .inr ⟨same, (common same).mp inside⟩
        · exact .inl ⟨more, old, inside⟩
      · intro h
        rcases h with ⟨more, moreMem, inside⟩ | ⟨same, inside⟩
        · refine ⟨more, mem_insert.mpr (.inr ⟨moreMem, fun same => ?_⟩), inside⟩
          exact fresh more (same ▸ moreMem)
        · exact ⟨_, mem_insert.mpr (.inl (by rw [same])), (common same).mpr inside⟩

theorem contains_foldl_intersectionSpace (address : Address) :
    ∀ (entries : List (AddressSpaceId × RawAddressRangeSet))
      (spaces : OrdMap AddressSpaceId RawAddressRangeSet),
    entries.Pairwise (fun x y => x.1 < y.1) →
    (∀ entry ∈ entries, ∀ ranges, (entry.1, ranges) ∉ spaces.entries) →
    ((∃ ranges, (address.space, ranges) ∈ (entries.foldl (intersectionSpace other) spaces).entries ∧
        ranges.Contains address.address) ↔
      (∃ ranges, (address.space, ranges) ∈ spaces.entries ∧ ranges.Contains address.address) ∨
        ((∃ ranges, (address.space, ranges) ∈ entries ∧ ranges.Contains address.address) ∧
          other.Contains address))
  | [], spaces, _, _ => by simp
  | (space, ranges) :: entries, spaces, sorted, fresh => by
    obtain ⟨above, sorted⟩ := List.pairwise_cons.mp sorted
    obtain ⟨freshHead, freshRest⟩ := List.forall_mem_cons.mp fresh
    have next : ∀ entry ∈ entries, ∀ more,
        (entry.1, more) ∉ (intersectionSpace other spaces (space, ranges)).entries := by
      intro entry mem more inside
      unfold intersectionSpace at inside
      split at inside
      · exact freshRest entry mem more inside
      · dsimp only at inside
        split at inside
        · exact freshRest entry mem more inside
        · rcases mem_insert.mp inside with eq | ⟨old, -⟩
          · exact absurd (Prod.mk.inj eq).1 (above entry mem).ne'
          · exact freshRest entry mem more old
    have entries_iff : (∃ more, (address.space, more) ∈ (space, ranges) :: entries ∧
          more.Contains address.address) ↔
        (address.space = space ∧ ranges.Contains address.address) ∨
          ∃ more, (address.space, more) ∈ entries ∧ more.Contains address.address := by
      simp only [List.mem_cons, Prod.mk.injEq]
      constructor
      · intro ⟨more, mem, inside⟩
        rcases mem with ⟨same, rfl⟩ | mem
        · exact .inl ⟨same, inside⟩
        · exact .inr ⟨more, mem, inside⟩
      · intro h
        rcases h with ⟨same, inside⟩ | ⟨more, mem, inside⟩
        · exact ⟨ranges, .inl ⟨same, rfl⟩, inside⟩
        · exact ⟨more, .inr mem, inside⟩
    rw [List.foldl_cons, contains_foldl_intersectionSpace address entries _ sorted next,
      contains_intersectionSpace freshHead, entries_iff, or_assoc, ← and_assoc, ← or_and_right]

theorem contains_intersection : (set.intersection other).Contains address ↔
    set.Contains address ∧ other.Contains address := by
  have fold := @contains_foldl_intersectionSpace other address set.spaces.entries .empty
    set.spaces.sorted (fun _ _ _ => by simp)
  apply fold.trans
  simp only [OrdMap.entries_empty, List.not_mem_nil, false_and, exists_false, false_or]
  rfl

theorem intersectsRange_iff (le : range.start ≤ range.stop) :
    set.intersectsRange range = true ↔ ∃ address, range.Contains address ∧ set.Contains address := by
  unfold intersectsRange
  have overlap : ∀ ranges : RawAddressRangeSet,
      ranges.intersectsRange range.start range.stop = true ↔
        ∃ x, (range.start ≤ x ∧ x ≤ range.stop) ∧ ranges.Contains x := by
    intro ranges
    simp only [RawAddressRangeSet.intersectsRange, RawAddressRangeSet.overlapping, le,
      decide_true, Bool.true_and, Bool.not_eq_true', List.isEmpty_eq_false_iff, ne_eq,
      List.filter_eq_nil_iff, not_forall, not_not]
    constructor
    · intro ⟨r, mem, meets⟩
      have le' := ranges.separated.nonempty r mem
      simp only [Bool.and_eq_true, decide_eq_true_eq] at meets
      exact ⟨max range.start r.1, by omega, r, mem, by omega, by omega⟩
    · intro ⟨x, within, r, mem, low, high⟩
      refine ⟨r, mem, ?_⟩
      simp only [Bool.and_eq_true, decide_eq_true_eq]
      omega
  cases found : set.spaces.get? range.space with
  | none =>
    have absent := get?_eq_none.mp found
    refine ⟨nofun, fun ⟨address, ⟨same, _⟩, ranges, mem, _⟩ => ?_⟩
    exact absurd (same ▸ mem) (absent ranges)
  | some ranges =>
    have mem := get?_eq_some.mp found
    rw [overlap]
    constructor
    · intro ⟨x, within, inside⟩
      exact ⟨⟨range.space, x⟩, ⟨rfl, within⟩, ranges, mem, inside⟩
    · intro ⟨address, ⟨same, within⟩, others, otherMem, inside⟩
      rw [← same] at otherMem
      exact ⟨address.address, within, OrdMap.unique mem otherMem ▸ inside⟩

theorem start_le_of_intersectsRange (meets : set.intersectsRange range = true) :
    range.start ≤ range.stop := by
  unfold intersectsRange at meets
  split at meets
  · rw [RawAddressRangeSet.intersectsRange, Bool.and_eq_true, decide_eq_true_eq] at meets
    exact meets.1
  · cases meets

theorem intersects_iff : set.intersects other = true ↔
    ∃ address, set.Contains address ∧ other.Contains address := by
  unfold intersects
  rw [List.any_eq_true]
  constructor
  · intro ⟨range, mem, meets⟩
    obtain ⟨address, within, inside⟩ :=
      (intersectsRange_iff (ranges_proper range mem).start_le).mp meets
    exact ⟨address, inside, contains_iff_ranges.mpr ⟨range, mem, within⟩⟩
  · intro ⟨address, inside, within⟩
    obtain ⟨range, mem, within⟩ := contains_iff_ranges.mp within
    exact ⟨range, mem, (intersectsRange_iff (ranges_proper range mem).start_le).mpr
      ⟨address, within, inside⟩⟩

end AddressRangeSet

end Fugue.Ir
