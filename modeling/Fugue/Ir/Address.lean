import Fugue.Lib.OrdMap
import Fugue.Lib.RangeSet
import Mathlib

/-!
# Addresses, ranges and sets of ranges

`fugue-core/src/ir/address.rs`: an address is an offset in an address space, a range the offsets
between two bounds (both included), and a set keeps for each space the ranges that make it up. A
`RangeInclusiveSet` keeps its ranges in order and joins those that overlap or touch, so the ranges
of a set are never empty.
-/

namespace Fugue.Ir

open Fugue.Lib

/-- `AddressSpaceId`, a `u16`. -/
abbrev AddressSpaceId := Nat

/-- `RawAddress + u64` (`address.rs:302-308`), which wraps around; a raw address is a `u64`. -/
def addRaw (address offset : Nat) : Nat := (address + offset) % 2 ^ 64

/-- `Address` (`address.rs:1476-1479`). -/
structure Address where
  space : AddressSpaceId
  address : Nat
  deriving DecidableEq, Repr

/-- `AddressRange` (`address.rs:832-836`); the source calls its last address `end`. -/
structure AddressRange where
  space : AddressSpaceId
  start : Nat
  stop : Nat
  deriving DecidableEq, Repr

namespace AddressRange

variable (range : AddressRange)

/-- `AddressRange::start_address` (`address.rs:896-898`). -/
def startAddress : Address := ⟨range.space, range.start⟩

/-- `AddressRange::is_empty` (`address.rs:874-876`). -/
def isEmpty : Bool := decide (range.stop < range.start)

/-- `AddressRange::size` (`address.rs:870-872`, `1969-1976`): the whole space of `2^64` addresses
has no size that fits. -/
def size : Option Nat :=
  if range.stop < range.start then some 0
  else
    let size := range.stop - range.start + 1
    if size < 2 ^ 64 then some size else none

/-- `AddressRange::contains_address` (`address.rs:882-884`). -/
def containsAddress (address : Address) : Bool :=
  range.space == address.space &&
    (decide (range.start ≤ address.address) && decide (address.address ≤ range.stop))

/-- `AddressRange::intersects` (`address.rs:904-906`). -/
def intersects (range other : AddressRange) : Bool :=
  range.space == other.space &&
    (decide (range.start ≤ other.stop) && decide (other.start ≤ range.stop))

def Contains (address : Address) : Prop :=
  range.space = address.space ∧ range.start ≤ address.address ∧ address.address ≤ range.stop

theorem containsAddress_iff {range : AddressRange} {address : Address} :
    range.containsAddress address = true ↔ range.Contains address := by
  simp [containsAddress, Contains]

/-- A range of addresses that exist: not empty, and within the 64-bit space. -/
structure Proper (range : AddressRange) : Prop where
  start_le : range.start ≤ range.stop
  stop_lt : range.stop < 2 ^ 64

theorem Proper.size_eq {range : AddressRange} (proper : range.Proper) :
    range.size = if range.stop - range.start + 1 < 2 ^ 64 then
      some (range.stop - range.start + 1) else none := by
  rw [size, if_neg (not_lt.mpr proper.start_le)]

/-- The derived order (`address.rs:819-831`): by space, start and end. -/
instance : LinearOrder AddressRange :=
  LinearOrder.lift' (fun range => toLex (range.space, toLex (range.start, range.stop))) (by
    rintro ⟨space, start, stop⟩ ⟨space', start', stop'⟩ eq
    have eq := toLex.injective eq
    simp only [Prod.mk.injEq, EmbeddingLike.apply_eq_iff_eq] at eq
    obtain ⟨rfl, rfl, rfl⟩ := eq
    rfl)

end AddressRange

/-- `RawAddressRangeSet` (`address.rs:669`): the ranges of a `RangeInclusiveSet<u64>`. -/
structure RawAddressRangeSet where
  ranges : List (Nat × Nat)
  separated : Separated ranges
  bounded : ∀ r ∈ ranges, r.2 < 2 ^ 64

namespace RawAddressRangeSet

def empty : RawAddressRangeSet := ⟨[], separated_nil, by simp⟩

variable (set : RawAddressRangeSet)

/-- `RawAddressRangeSet::is_empty` (`address.rs:728-730`). -/
def isEmpty : Bool := set.ranges.isEmpty

/-- `RawAddressRangeSet::contains` (`address.rs:724-726`). -/
def contains (address : Nat) : Bool :=
  set.ranges.any fun r => decide (r.1 ≤ address) && decide (address ≤ r.2)

/-- `RawAddressRangeSet::insert_range` (`address.rs:773-779`). The set refuses an empty range;
all that is inserted is proper. -/
def insertRange (start stop : Nat) : RawAddressRangeSet :=
  if proper : start ≤ stop ∧ stop < 2 ^ 64 then
    ⟨Lib.insertRange start stop set.ranges, separated_insertRange proper.1 set.separated,
      upper_insertRange proper.2 set.bounded⟩
  else set

/-- The ranges that overlap one range, as `RangeInclusiveSet::overlapping` gives them. -/
def overlapping (start stop : Nat) :
    List (Nat × Nat) :=
  set.ranges.filter fun r => decide (r.1 ≤ stop) && decide (start ≤ r.2)

/-- `RawAddressRangeSet::intersects_range` (`address.rs:781-787`). -/
def intersectsRange (start stop : Nat) : Bool :=
  decide (start ≤ stop) && !(set.overlapping start stop).isEmpty

/-- `RawAddressRangeSet::difference` (`address.rs:789-798`). -/
def difference (set other : RawAddressRangeSet) : RawAddressRangeSet :=
  (set.ranges.flatMap fun r => differenceRange r.1 r.2 (other.overlapping r.1 r.2)).foldl
    (fun difference r => difference.insertRange r.1 r.2) empty

def Contains (address : Nat) : Prop :=
  InRanges address set.ranges

variable {set other : RawAddressRangeSet} {x start stop : Nat}

theorem contains_iff : set.contains x = true ↔ set.Contains x := by
  simp [contains, Contains, InRanges]

theorem contains_insertRange (le : start ≤ stop) (lt : stop < 2 ^ 64) :
    (set.insertRange start stop).Contains x ↔ (start ≤ x ∧ x ≤ stop) ∨ set.Contains x := by
  rw [insertRange, dif_pos ⟨le, lt⟩]
  exact inRanges_insertRange le set.separated

theorem contains_foldl_insertRange : ∀ (pieces : List (Nat × Nat))
    (set : RawAddressRangeSet), (∀ r ∈ pieces, r.1 ≤ r.2 ∧ r.2 < 2 ^ 64) →
    ((pieces.foldl (fun set r => set.insertRange r.1 r.2) set).Contains x ↔
      InRanges x pieces ∨ set.Contains x)
  | [], set, _ => by simp
  | r :: pieces, set, proper => by
    obtain ⟨le, lt⟩ := proper r (.head _)
    rw [List.foldl_cons, contains_foldl_insertRange pieces _
      fun s mem => proper s (.tail _ mem), contains_insertRange le lt,
      inRanges_cons]
    tauto

theorem inRanges_overlapping (inside : start ≤ x ∧ x ≤ stop) :
    InRanges x (other.overlapping start stop) ↔ other.Contains x := by
  constructor
  · rintro ⟨r, mem, low, high⟩
    exact ⟨r, (List.mem_filter.mp mem).1, low, high⟩
  · rintro ⟨r, mem, low, high⟩
    refine ⟨r, List.mem_filter.mpr ⟨mem, ?_⟩, low, high⟩
    simp only [Bool.and_eq_true, decide_eq_true_eq]
    omega

theorem contains_difference :
    (set.difference other).Contains x ↔ set.Contains x ∧ ¬ other.Contains x := by
  have ordered : ∀ start stop, StartOrdered (other.overlapping start stop) := fun start stop =>
    .of_disjoint ((other.separated.gaps.imp fun gap => by omega).filter _)
  rw [difference, contains_foldl_insertRange]
  · simp only [empty, Contains, inRanges_nil, or_false]
    constructor
    · rintro ⟨piece, mem, low, high⟩
      obtain ⟨r, rMem, mem⟩ := List.mem_flatMap.mp mem
      have le := set.separated.nonempty r rMem
      obtain ⟨inside, outside⟩ := (inRanges_differenceRange le (ordered r.1 r.2)).mp
        ⟨piece, mem, low, high⟩
      rw [inRanges_overlapping inside] at outside
      exact ⟨⟨r, rMem, inside⟩, outside⟩
    · rintro ⟨⟨r, rMem, inside⟩, outside⟩
      have le := set.separated.nonempty r rMem
      obtain ⟨piece, mem, within⟩ := (inRanges_differenceRange le (ordered r.1 r.2)).mpr
        ⟨inside, by rwa [inRanges_overlapping inside]⟩
      exact ⟨piece, List.mem_flatMap.mpr ⟨r, rMem, mem⟩, within⟩
  · intro piece mem
    obtain ⟨r, rMem, mem⟩ := List.mem_flatMap.mp mem
    have := mem_differenceRange (set.separated.nonempty r rMem) piece mem
    have := set.bounded r rMem
    omega

end RawAddressRangeSet

/-- `AddressRangeSet` (`address.rs:914-916`). -/
structure AddressRangeSet where
  spaces : OrdMap AddressSpaceId RawAddressRangeSet

namespace AddressRangeSet

/-- `AddressRangeSet::new` (`address.rs:919-923`). -/
def new : AddressRangeSet := ⟨.empty⟩

variable (set : AddressRangeSet)

/-- `AddressRangeSet::contains` (`address.rs:925-930`). -/
def contains (address : Address) : Bool :=
  match set.spaces.get? address.space with
  | some ranges => ranges.contains address.address
  | none => false

/-- `AddressRangeSet::ranges` (`address.rs:936-942`). -/
def ranges : List AddressRange :=
  set.spaces.entries.flatMap fun (space, ranges) =>
    ranges.ranges.map fun (start, stop) => ⟨space, start, stop⟩

/-- `AddressRangeSet::is_empty` (`address.rs:965-967`). -/
def isEmpty : Bool :=
  set.spaces.entries.all fun (_, ranges) => ranges.isEmpty

/-- `AddressRangeSet::intersects_range` (`address.rs:944-948`). -/
def intersectsRange (range : AddressRange) : Bool :=
  match set.spaces.get? range.space with
  | some ranges => ranges.intersectsRange range.start range.stop
  | none => false

/-- `AddressRangeSet::insert_range` (`address.rs:976-985`). -/
def insertRange (range : AddressRange) : AddressRangeSet :=
  if range.isEmpty then set
  else
    let ranges := (set.spaces.get? range.space).getD .empty
    ⟨set.spaces.insert range.space (ranges.insertRange range.start range.stop)⟩

/-- One round of the loop of `difference`. -/
def differenceSpace (spaces : OrdMap AddressSpaceId RawAddressRangeSet)
    (entry : AddressSpaceId × RawAddressRangeSet) : OrdMap AddressSpaceId RawAddressRangeSet :=
  match spaces.get? entry.1 with
  | some existing => spaces.insert entry.1 (existing.difference entry.2)
  | none => spaces

/-- `AddressRangeSet::difference` (`address.rs:1010-1021`). -/
def difference (set other : AddressRangeSet) : AddressRangeSet :=
  ⟨(other.spaces.entries.foldl differenceSpace set.spaces).retain fun _ ranges => !ranges.isEmpty⟩

def Contains (address : Address) : Prop :=
  ∃ ranges, (address.space, ranges) ∈ set.spaces.entries ∧ ranges.Contains address.address

variable {set other : AddressRangeSet} {address : Address}

theorem contains_iff : set.contains address = true ↔ set.Contains address := by
  unfold contains Contains
  cases found : set.spaces.get? address.space with
  | none =>
    have absent := OrdMap.get?_eq_none.mp found
    simp [absent]
  | some ranges =>
    have mem := OrdMap.get?_eq_some.mp found
    constructor
    · intro inside
      exact ⟨ranges, mem, RawAddressRangeSet.contains_iff.mp inside⟩
    · rintro ⟨ranges', mem', inside⟩
      rw [OrdMap.unique mem mem']
      exact RawAddressRangeSet.contains_iff.mpr inside

theorem contains_iff_ranges :
    set.Contains address ↔ ∃ range ∈ set.ranges, range.Contains address := by
  constructor
  · rintro ⟨ranges, mem, ⟨start, stop⟩, rMem, inside⟩
    refine ⟨⟨address.space, start, stop⟩, ?_, rfl, inside⟩
    exact List.mem_flatMap.mpr ⟨_, mem, List.mem_map.mpr ⟨_, rMem, rfl⟩⟩
  · rintro ⟨range, mem, same, inside⟩
    obtain ⟨⟨space, ranges⟩, entry, mem⟩ := List.mem_flatMap.mp mem
    obtain ⟨⟨start, stop⟩, rMem, rfl⟩ := List.mem_map.mp mem
    subst same
    exact ⟨ranges, entry, ⟨start, stop⟩, rMem, inside⟩

theorem ranges_proper : ∀ range ∈ set.ranges, range.Proper := by
  intro range mem
  obtain ⟨⟨space, ranges⟩, entry, mem⟩ := List.mem_flatMap.mp mem
  obtain ⟨⟨start, stop⟩, rMem, rfl⟩ := List.mem_map.mp mem
  exact ⟨ranges.separated.nonempty _ rMem, ranges.bounded _ rMem⟩

theorem contains_insertRange_new {range : AddressRange} (proper : range.Proper) :
    (new.insertRange range).Contains address ↔ range.Contains address := by
  have notEmpty : range.isEmpty = false := by
    simpa [AddressRange.isEmpty] using proper.start_le
  unfold insertRange Contains AddressRange.Contains
  rw [notEmpty]
  constructor
  · rintro ⟨ranges, mem, inside⟩
    rcases OrdMap.mem_insert.mp mem with eq | ⟨mem, -⟩
    · obtain ⟨same, rfl⟩ := Prod.mk.inj eq
      rw [RawAddressRangeSet.contains_insertRange proper.start_le proper.stop_lt] at inside
      refine ⟨same.symm, inside.resolve_right ?_⟩
      simp [new, OrdMap.get?, RawAddressRangeSet.Contains, RawAddressRangeSet.empty]
    · simp [new] at mem
  · rintro ⟨same, inside⟩
    refine ⟨_, OrdMap.mem_insert.mpr (.inl (by rw [same])), ?_⟩
    rw [RawAddressRangeSet.contains_insertRange proper.start_le proper.stop_lt]
    exact .inl inside

/-- A round of `difference` takes the members of its space away. -/
theorem contains_differenceSpace {entry : AddressSpaceId × RawAddressRangeSet}
    {spaces : OrdMap AddressSpaceId RawAddressRangeSet} :
    (∃ ranges, (address.space, ranges) ∈ (differenceSpace spaces entry).entries ∧
        ranges.Contains address.address) ↔
      (∃ ranges, (address.space, ranges) ∈ spaces.entries ∧ ranges.Contains address.address) ∧
        ¬ (address.space = entry.1 ∧ entry.2.Contains address.address) := by
  unfold differenceSpace
  cases found : spaces.get? entry.1 with
  | none =>
    have absent := OrdMap.get?_eq_none.mp found
    constructor
    · rintro ⟨ranges, mem, inside⟩
      refine ⟨⟨ranges, mem, inside⟩, fun ⟨same, _⟩ => absent ranges (same ▸ mem)⟩
    · exact fun h => h.1
  | some existing =>
    have mem := OrdMap.get?_eq_some.mp found
    by_cases same : address.space = entry.1
    · constructor
      · rintro ⟨ranges, mem', inside⟩
        rcases OrdMap.mem_insert.mp mem' with eq | ⟨-, ne⟩
        · rw [(Prod.mk.inj eq).2, RawAddressRangeSet.contains_difference] at inside
          exact ⟨⟨existing, same ▸ mem, inside.1⟩, fun out => inside.2 out.2⟩
        · exact absurd same ne
      · rintro ⟨⟨ranges, mem', inside⟩, outside⟩
        refine ⟨existing.difference entry.2, OrdMap.mem_insert.mpr (.inl (by rw [same])), ?_⟩
        rw [RawAddressRangeSet.contains_difference, OrdMap.unique mem (same ▸ mem')]
        exact ⟨inside, fun out => outside ⟨same, out⟩⟩
    · constructor
      · rintro ⟨ranges, mem', inside⟩
        rcases OrdMap.mem_insert.mp mem' with eq | ⟨mem', -⟩
        · exact absurd (Prod.mk.inj eq).1 same
        · exact ⟨⟨ranges, mem', inside⟩, fun out => same out.1⟩
      · rintro ⟨⟨ranges, mem', inside⟩, -⟩
        exact ⟨ranges, OrdMap.mem_insert.mpr (.inr ⟨mem', same⟩), inside⟩

theorem contains_foldl_differenceSpace (address : Address) :
    ∀ (entries : List (AddressSpaceId × RawAddressRangeSet))
      (spaces : OrdMap AddressSpaceId RawAddressRangeSet),
    (∃ ranges, (address.space, ranges) ∈ (entries.foldl differenceSpace spaces).entries ∧
        ranges.Contains address.address) ↔
      (∃ ranges, (address.space, ranges) ∈ spaces.entries ∧ ranges.Contains address.address) ∧
        ∀ entry ∈ entries, ¬ (address.space = entry.1 ∧ entry.2.Contains address.address)
  | [], spaces => by simp
  | entry :: entries, spaces => by
    rw [List.foldl_cons, contains_foldl_differenceSpace address entries, contains_differenceSpace,
      List.forall_mem_cons, and_assoc]

theorem contains_difference :
    (set.difference other).Contains address ↔ set.Contains address ∧ ¬ other.Contains address := by
  have fold := contains_foldl_differenceSpace address other.spaces.entries set.spaces
  have outside : (∀ entry ∈ other.spaces.entries,
      ¬ (address.space = entry.1 ∧ entry.2.Contains address.address)) ↔
      ¬ other.Contains address := by
    constructor
    · rintro all ⟨ranges, mem, inside⟩
      exact all _ mem ⟨rfl, inside⟩
    · rintro out ⟨space, ranges⟩ mem ⟨rfl, inside⟩
      exact out ⟨ranges, mem, inside⟩
  rw [← outside]
  refine Iff.trans ?_ fold
  unfold difference Contains
  refine exists_congr fun ranges => ?_
  rw [OrdMap.mem_retain, and_assoc]
  refine and_congr_right fun _ => ⟨fun h => h.2, fun inside => ⟨?_, inside⟩⟩
  obtain ⟨r, mem, -⟩ := inside
  cases empty : ranges.ranges with
  | nil => rw [empty] at mem; simp at mem
  | cons _ _ => simp [RawAddressRangeSet.isEmpty, empty]

end AddressRangeSet

end Fugue.Ir
