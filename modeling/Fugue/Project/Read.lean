import Fugue.Project.Change

/-!
# Read sets

`fugue-core/src/project/read.rs`: what a computation has read, as sets of kinds with the ranges they
were read in and a set of kinds that were read anywhere. A read set grows under `record`,
`record_unbounded` and `merge`, and what it saw before it sees afterwards.
-/

namespace Fugue.Project

open Fugue.Ir Fugue.Lib List

/-- `MAX_READ_RANGES` (`read.rs:6`). -/
def maxReadRanges : Nat := 1024

/-- `ReadSet` (`read.rs:8-12`). -/
structure ReadSet where
  bounded : List (ChangeKinds × AddressRangeSet)
  unbounded : ChangeKinds

namespace ReadSet

/-- `ReadSet::new` (`read.rs:15-17`). -/
def new : ReadSet := ⟨[], 0⟩

/-- `ReadSet::is_empty` (`read.rs:19-21`). -/
def isEmpty (reads : ReadSet) : Bool := reads.unbounded.isEmpty && reads.bounded.isEmpty

/-- The whole of each space of a set (`read.rs:36-43`). -/
def wholeSpaces (ranges : AddressRangeSet) : AddressRangeSet :=
  ranges.spaces.entries.foldl (fun spaces entry =>
    spaces.insertRange ⟨entry.1, 0, 2 ^ 64 - 1⟩) .new

/-- The ranges of an entry with one more range, and whether they were collapsed
(`read.rs:34-48`). -/
def extend (ranges : AddressRangeSet) (range : AddressRange) : AddressRangeSet × Bool :=
  let ranges := ranges.insertRange range
  if maxReadRanges < ranges.ranges.length then (wholeSpaces ranges, true) else (ranges, false)

/-- The entries with a range added to the first one of the kinds, or with a new entry
(`read.rs:29-54`). -/
def recordBounded (kinds : ChangeKinds) (range : AddressRange) :
    List (ChangeKinds × AddressRangeSet) → List (ChangeKinds × AddressRangeSet) × Bool
  | [] => ([(kinds, AddressRangeSet.new.insertRange range)], false)
  | entry :: entries =>
    if entry.1 = kinds then
      let (ranges, collapsed) := extend entry.2 range
      ((kinds, ranges) :: entries, collapsed)
    else
      let (entries, collapsed) := recordBounded kinds range entries
      (entry :: entries, collapsed)

/-- `ReadSet::record` (`read.rs:23-54`), with whether the ranges were collapsed. -/
def record (reads : ReadSet) (kinds : ChangeKinds) (range : AddressRange) : ReadSet × Bool :=
  let kinds := kinds.difference reads.unbounded
  if kinds.isEmpty then (reads, false)
  else
    let (bounded, collapsed) := recordBounded kinds range reads.bounded
    ({ reads with bounded }, collapsed)

/-- `ReadSet::record_unbounded` (`read.rs:56-62`). -/
def recordUnbounded (reads : ReadSet) (kinds : ChangeKinds) : ReadSet where
  bounded := (reads.bounded.map fun entry => (entry.1.difference kinds, entry.2)).filter
    fun entry => !entry.1.isEmpty
  unbounded := reads.unbounded ||| kinds

/-- `ReadSet::intersects` (`read.rs:64-72`). -/
def intersects (reads : ReadSet) (kinds : ChangeKinds) (regions : AddressRangeSet) : Bool :=
  reads.unbounded.intersects kinds ||
    reads.bounded.any fun entry => entry.1.intersects kinds && entry.2.intersects regions

/-- `ReadSet::observes` (`read.rs:102-108`). -/
def observes (reads : ReadSet) (kinds : ChangeKinds) : Bool :=
  reads.unbounded.intersects kinds || reads.bounded.any fun entry => entry.1.intersects kinds

/-- `ReadSet::escapes` (`read.rs:92-100`). -/
def escapes (reads : ReadSet) (kinds : ChangeKinds) (region : AddressRangeSet) : Bool :=
  reads.unbounded.intersects kinds ||
    reads.bounded.any fun entry =>
      entry.1.intersects kinds && !(entry.2.difference region).isEmpty

/-- `ReadSet::observed` (`read.rs:110-114`). -/
def observed (reads : ReadSet) : ChangeKinds :=
  reads.bounded.foldl (fun kinds entry => kinds ||| entry.1) reads.unbounded

/-- The test of `conflicts_with` on one record (`read.rs:76-88`). -/
def conflictsRecord (reads : ReadSet) (kinds : ChangeKinds) (record : ChangeRecord) : Bool :=
  kinds.contains record.kind && reads.observes record.kind &&
    (record.ranges.isEmpty || record.ranges.any fun range =>
      reads.unbounded.intersects record.kind || reads.bounded.any fun entry =>
        entry.1.intersects record.kind && entry.2.intersectsRange range)

/-- `ReadSet::conflicts_with` (`read.rs:74-90`). -/
def conflictsWith (reads : ReadSet) (changes : ChangeSet) (kinds : ChangeKinds) : Bool :=
  changes.records.any (reads.conflictsRecord kinds)

/-- The inner loop of `merge` on one range: the set so far and whether ranges were collapsed. -/
def mergeRange (kinds : ChangeKinds) (state : ReadSet × Bool) (range : AddressRange) :
    ReadSet × Bool :=
  let (reads, collapsed) := state.1.record kinds range
  (reads, state.2 || collapsed)

/-- The outer loop of `merge` on one entry. -/
def mergeEntry (state : ReadSet × Bool) (entry : ChangeKinds × AddressRangeSet) : ReadSet × Bool :=
  entry.2.ranges.foldl (mergeRange entry.1) state

/-- `ReadSet::merge` (`read.rs:116-125`), with whether ranges were collapsed. -/
def merge (reads other : ReadSet) : ReadSet × Bool :=
  other.bounded.foldl mergeEntry (reads.recordUnbounded other.unbounded, false)

/-! ## What a read set sees -/

/-- A kind was read at an address. -/
def Sees (reads : ReadSet) (kind : ChangeKinds) (address : Address) : Prop :=
  ∃ entry ∈ reads.bounded, entry.1.intersects kind = true ∧ entry.2.Contains address

/-- Everything that the first set sees, the second one sees as well. -/
structure Le (reads other : ReadSet) : Prop where
  observes : ∀ kind, reads.observes kind = true → other.observes kind = true
  unbounded : ∀ kind, reads.unbounded.intersects kind = true →
    other.unbounded.intersects kind = true
  sees : ∀ kind address, reads.Sees kind address →
    other.unbounded.intersects kind = true ∨ other.Sees kind address

variable {reads other third : ReadSet} {kinds kind : ChangeKinds} {range : AddressRange}
  {address : Address}

theorem Le.refl (reads : ReadSet) : reads.Le reads :=
  ⟨fun _ => id, fun _ => id, fun _ _ => .inr⟩

theorem Le.trans (first : reads.Le other) (second : other.Le third) : reads.Le third := by
  refine ⟨fun kind seen => second.observes kind (first.observes kind seen),
    fun kind seen => second.unbounded kind (first.unbounded kind seen), ?_⟩
  intro kind address seen
  rcases first.sees kind address seen with anywhere | seen
  · exact .inl (second.unbounded kind anywhere)
  · exact second.sees kind address seen

theorem observes_iff : reads.observes kind = true ↔
    reads.unbounded.intersects kind = true ∨
      ∃ entry ∈ reads.bounded, entry.1.intersects kind = true := by
  simp [observes, Bool.or_eq_true, any_eq_true]

/-- A conflict in terms of addresses: a record without ranges conflicts with every read of its
kind. -/
theorem conflictsRecord_iff {record : ChangeRecord} :
    reads.conflictsRecord kinds record = true ↔
      kinds.contains record.kind = true ∧ reads.observes record.kind = true ∧
        (record.ranges = [] ∨ ∃ range ∈ record.ranges,
          reads.unbounded.intersects record.kind = true ∨
            ∃ address, range.Contains address ∧ reads.Sees record.kind address) := by
  have meets : ∀ range : AddressRange, (∃ entry ∈ reads.bounded,
      entry.1.intersects record.kind = true ∧ entry.2.intersectsRange range = true) ↔
      ∃ address, range.Contains address ∧ reads.Sees record.kind address := by
    intro range
    constructor
    · intro h
      obtain ⟨entry, mem, kind, meets⟩ := h
      have le : range.start ≤ range.stop := AddressRangeSet.start_le_of_intersectsRange meets
      obtain ⟨address, inside, contains⟩ := (AddressRangeSet.intersectsRange_iff le).mp meets
      exact ⟨address, inside, entry, mem, kind, contains⟩
    · intro h
      obtain ⟨address, inside, entry, mem, kind, contains⟩ := h
      have le : range.start ≤ range.stop := inside.2.1.trans inside.2.2
      exact ⟨entry, mem, kind, (AddressRangeSet.intersectsRange_iff le).mpr
        ⟨address, inside, contains⟩⟩
  simp only [conflictsRecord, Bool.and_eq_true, Bool.or_eq_true, any_eq_true,
    List.isEmpty_iff, and_assoc, meets]

/-- A larger read set conflicts with every record that a smaller one conflicts with. -/
theorem Le.conflictsRecord (le : reads.Le other) {record : ChangeRecord}
    (conflict : reads.conflictsRecord kinds record = true) :
    other.conflictsRecord kinds record = true := by
  obtain ⟨tracked, observed, where_⟩ := conflictsRecord_iff.mp conflict
  refine conflictsRecord_iff.mpr ⟨tracked, le.observes _ observed, ?_⟩
  rcases where_ with none | ⟨range, mem, anywhere | ⟨address, inside, seen⟩⟩
  · exact .inl none
  · exact .inr ⟨range, mem, .inl (le.unbounded _ anywhere)⟩
  · refine .inr ⟨range, mem, ?_⟩
    rcases le.sees _ _ seen with anywhere | seen
    · exact .inl anywhere
    · exact .inr ⟨address, inside, seen⟩

/-! ## Growth -/

theorem contains_wholeSpaces {ranges : AddressRangeSet} (inside : ranges.Contains address) :
    (wholeSpaces ranges).Contains address := by
  have general : ∀ (entries : List (AddressSpaceId × RawAddressRangeSet)) (set : AddressRangeSet),
      (set.Contains address ∨ address.address < 2 ^ 64 ∧ ∃ entry ∈ entries, entry.1 = address.space) →
      (entries.foldl (fun spaces entry =>
        spaces.insertRange ⟨entry.1, 0, 2 ^ 64 - 1⟩) set).Contains address := by
    intro entries
    induction entries with
    | nil => simp
    | cons entry entries ih =>
      intro set h
      apply ih _
      rw [AddressRangeSet.contains_insertRange (by simp)]
      rcases h with old | ⟨lt, found, mem, same⟩
      · exact .inl (.inr old)
      · rcases mem_cons.mp mem with rfl | mem
        · exact .inl (.inl ⟨same, Nat.zero_le _, Nat.le_pred_of_lt lt⟩)
        · exact .inr ⟨lt, found, mem, same⟩
  obtain ⟨found, mem, r, rMem, low, high⟩ := inside
  have bound := found.bounded r rMem
  exact general _ _ (.inr ⟨by omega, _, mem, rfl⟩)

theorem contains_extend {ranges : AddressRangeSet} (lt : range.stop < 2 ^ 64)
    (inside : range.Contains address ∨ ranges.Contains address) :
    (extend ranges range).1.Contains address := by
  have inserted := (AddressRangeSet.contains_insertRange lt).mpr inside
  unfold extend
  dsimp only
  split
  · exact contains_wholeSpaces inserted
  · exact inserted

theorem recordBounded_spec (lt : range.stop < 2 ^ 64) :
    ∀ entries : List (ChangeKinds × AddressRangeSet),
    (∀ entry ∈ entries, ∃ entry' ∈ (recordBounded kinds range entries).1, entry'.1 = entry.1 ∧
      ∀ address, entry.2.Contains address → entry'.2.Contains address) ∧
    ∃ entry' ∈ (recordBounded kinds range entries).1, entry'.1 = kinds ∧
      ∀ address, range.Contains address → entry'.2.Contains address
  | [] => by
    refine ⟨by simp, _, mem_singleton.mpr rfl, rfl, ?_⟩
    intro address inside
    exact (AddressRangeSet.contains_insertRange lt).mpr (.inl inside)
  | entry :: entries => by
    unfold recordBounded
    split
    · rename_i same
      refine ⟨?_, _, .head _, rfl, fun _ inside => contains_extend lt (.inl inside)⟩
      intro found mem
      rcases mem_cons.mp mem with rfl | mem
      · exact ⟨_, .head _, same.symm, fun _ inside => contains_extend lt (.inr inside)⟩
      · exact ⟨found, .tail _ mem, rfl, fun _ => id⟩
    · obtain ⟨old, new, newMem, newKinds, newRange⟩ := recordBounded_spec lt entries
      refine ⟨?_, new, .tail _ newMem, newKinds, newRange⟩
      intro found mem
      rcases mem_cons.mp mem with rfl | mem
      · exact ⟨found, .head _, rfl, fun _ => id⟩
      · obtain ⟨found', mem', same, contains⟩ := old found mem
        exact ⟨found', .tail _ mem', same, contains⟩

/-- The set has a read of the kinds in the range. -/
def Has (reads : ReadSet) (kinds : ChangeKinds) (range : AddressRange) : Prop :=
  ∀ kind, kinds.intersects kind = true → reads.observes kind = true ∧
    ∀ address, range.Contains address →
      reads.unbounded.intersects kind = true ∨ reads.Sees kind address

theorem Has.mono (has : reads.Has kinds range) (le : reads.Le other) : other.Has kinds range := by
  intro kind shared
  obtain ⟨observed, seen⟩ := has kind shared
  refine ⟨le.observes kind observed, ?_⟩
  intro address inside
  rcases seen address inside with anywhere | seen
  · exact .inl (le.unbounded kind anywhere)
  · exact le.sees kind address seen

theorem record_spec (reads : ReadSet) (kinds : ChangeKinds) (lt : range.stop < 2 ^ 64) :
    reads.Le (reads.record kinds range).1 ∧ (reads.record kinds range).1.Has kinds range := by
  unfold record
  dsimp only
  split
  · rename_i empty
    refine ⟨Le.refl reads, ?_⟩
    intro kind shared
    rcases ChangeKinds.intersects_difference shared with outside | anywhere
    · rw [ChangeKinds.intersects_of_isEmpty empty] at outside
      cases outside
    · exact ⟨observes_iff.mpr (.inl anywhere), fun _ _ => .inl anywhere⟩
  · obtain ⟨old, new, newMem, newKinds, newRange⟩ :=
      @recordBounded_spec (kinds.difference reads.unbounded) range lt reads.bounded
    constructor
    · refine ⟨?_, fun _ => id, ?_⟩
      · intro kind seen
        rcases observes_iff.mp seen with anywhere | ⟨entry, mem, shared⟩
        · exact observes_iff.mpr (.inl anywhere)
        · obtain ⟨entry', mem', same, -⟩ := old entry mem
          exact observes_iff.mpr (.inr ⟨entry', mem', same ▸ shared⟩)
      · intro kind address seen
        obtain ⟨entry, mem, shared, inside⟩ := seen
        obtain ⟨entry', mem', same, contains⟩ := old entry mem
        exact .inr ⟨entry', mem', same ▸ shared, contains address inside⟩
    · intro kind shared
      rcases ChangeKinds.intersects_difference shared with outside | anywhere
      · rw [← newKinds] at outside
        exact ⟨observes_iff.mpr (.inr ⟨new, newMem, outside⟩),
          fun address inside => .inr ⟨new, newMem, outside, newRange address inside⟩⟩
      · exact ⟨observes_iff.mpr (.inl anywhere), fun _ _ => .inl anywhere⟩

theorem recordUnbounded_le (reads : ReadSet) (kinds : ChangeKinds) :
    reads.Le (reads.recordUnbounded kinds) := by
  -- an entry that loses all its kinds is dropped; its kinds are then unbounded
  have keeps : ∀ entry ∈ reads.bounded, ∀ kind, entry.1.intersects kind = true →
      (reads.unbounded ||| kinds).intersects kind = true ∨
        ∃ entry' ∈ (reads.recordUnbounded kinds).bounded, entry'.1.intersects kind = true ∧
          entry'.2 = entry.2 := by
    intro entry mem kind shared
    rcases @ChangeKinds.intersects_difference _ kinds _ shared with outside | anywhere
    · refine .inr ⟨(entry.1.difference kinds, entry.2), ?_, outside, rfl⟩
      refine mem_filter.mpr ⟨mem_map.mpr ⟨entry, mem, rfl⟩, ?_⟩
      cases empty : (entry.1.difference kinds).isEmpty with
      | false => rfl
      | true =>
        rw [ChangeKinds.intersects_of_isEmpty empty] at outside
        cases outside
    · exact .inl (ChangeKinds.intersects_or.mpr (.inr anywhere))
  refine ⟨?_, ?_, ?_⟩
  · intro kind seen
    rcases observes_iff.mp seen with anywhere | ⟨entry, mem, shared⟩
    · exact observes_iff.mpr (.inl (ChangeKinds.intersects_or.mpr (.inl anywhere)))
    · rcases keeps entry mem kind shared with anywhere | ⟨entry', mem', shared', -⟩
      · exact observes_iff.mpr (.inl anywhere)
      · exact observes_iff.mpr (.inr ⟨entry', mem', shared'⟩)
  · intro kind anywhere
    exact ChangeKinds.intersects_or.mpr (.inl anywhere)
  · intro kind address seen
    obtain ⟨entry, mem, shared, inside⟩ := seen
    rcases keeps entry mem kind shared with anywhere | ⟨entry', mem', shared', same⟩
    · exact .inl anywhere
    · exact .inr ⟨entry', mem', shared', same ▸ inside⟩

/-- Each entry of the set has an address. `record` with an empty range makes an entry without
one. -/
def Inhabited (reads : ReadSet) : Prop := ∀ entry ∈ reads.bounded, ∃ address, entry.2.Contains address

theorem foldl_mergeRange_spec (kinds : ChangeKinds) : ∀ (ranges : List AddressRange)
    (state : ReadSet × Bool), (∀ range ∈ ranges, range.stop < 2 ^ 64) →
    state.1.Le (ranges.foldl (mergeRange kinds) state).1 ∧
      ∀ range ∈ ranges, (ranges.foldl (mergeRange kinds) state).1.Has kinds range
  | [], state, _ => ⟨Le.refl _, by simp⟩
  | range :: ranges, state, bounded => by
    obtain ⟨lt, rest⟩ := forall_mem_cons.mp bounded
    obtain ⟨le, has⟩ := record_spec state.1 kinds lt
    obtain ⟨le', has'⟩ := foldl_mergeRange_spec kinds ranges (mergeRange kinds state range) rest
    refine ⟨le.trans le', ?_⟩
    intro found mem
    rcases mem_cons.mp mem with rfl | mem
    · exact has.mono le'
    · exact has' found mem

theorem foldl_mergeEntry_spec : ∀ (entries : List (ChangeKinds × AddressRangeSet))
    (state : ReadSet × Bool),
    state.1.Le (entries.foldl mergeEntry state).1 ∧
      ∀ entry ∈ entries, ∀ range ∈ entry.2.ranges,
        (entries.foldl mergeEntry state).1.Has entry.1 range
  | [], state => ⟨Le.refl _, by simp⟩
  | entry :: entries, state => by
    obtain ⟨le, has⟩ := foldl_mergeRange_spec entry.1 entry.2.ranges state fun range mem =>
      (AddressRangeSet.ranges_proper range mem).stop_lt
    obtain ⟨le', has'⟩ := foldl_mergeEntry_spec entries (mergeEntry state entry)
    refine ⟨le.trans le', ?_⟩
    intro found mem range inside
    rcases mem_cons.mp mem with rfl | mem
    · exact (has range inside).mono le'
    · exact has' found mem range inside

theorem merge_le_left (reads other : ReadSet) : reads.Le (reads.merge other).1 :=
  (recordUnbounded_le reads other.unbounded).trans (foldl_mergeEntry_spec other.bounded
    (reads.recordUnbounded other.unbounded, false)).1

theorem merge_unbounded_right (reads : ReadSet) (anywhere : other.unbounded.intersects kind = true) :
    (reads.merge other).1.unbounded.intersects kind = true := by
  obtain ⟨le, -⟩ := foldl_mergeEntry_spec other.bounded (reads.recordUnbounded other.unbounded, false)
  exact le.unbounded kind (ChangeKinds.intersects_or.mpr (.inr anywhere))

theorem merge_sees_right (reads : ReadSet) (seen : other.Sees kind address) :
    (reads.merge other).1.unbounded.intersects kind = true ∨
      (reads.merge other).1.Sees kind address := by
  obtain ⟨-, has⟩ := foldl_mergeEntry_spec other.bounded (reads.recordUnbounded other.unbounded, false)
  obtain ⟨entry, mem, shared, inside⟩ := seen
  obtain ⟨range, rangeMem, within⟩ := AddressRangeSet.contains_iff_ranges.mp inside
  exact (has entry mem range rangeMem kind shared).2 address within

/-- The merged set sees what the other one saw, if each entry of the other one has an address. -/
theorem merge_le_right (reads : ReadSet) (inhabited : other.Inhabited) :
    other.Le (reads.merge other).1 := by
  refine ⟨?_, fun kind => merge_unbounded_right reads, fun kind address => merge_sees_right reads⟩
  intro kind seen
  rcases observes_iff.mp seen with anywhere | ⟨entry, mem, shared⟩
  · exact observes_iff.mpr (.inl (merge_unbounded_right reads anywhere))
  · obtain ⟨address, inside⟩ := inhabited entry mem
    rcases merge_sees_right reads ⟨entry, mem, shared, inside⟩ with anywhere | ⟨found, mem, shared, -⟩
    · exact observes_iff.mpr (.inl anywhere)
    · exact observes_iff.mpr (.inr ⟨found, mem, shared⟩)

end ReadSet

end Fugue.Project
