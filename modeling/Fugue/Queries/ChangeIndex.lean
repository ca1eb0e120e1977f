import Fugue.Lib.RangeMap
import Fugue.Project.Change

/-!
# The change index

`fugue-core/src/queries/index.rs`: the latest revision of a change, for a set of kinds and a region.
Records whose kind is of one of seven region groups are kept by their ranges, with the revision as
the value of a range map; the kinds without a group have one watermark each. A group whose maps have
too many runs is compacted to a floor. `none` stands for a failed assertion: a range map accepts no
empty range.
-/

namespace Fugue.Queries

open Fugue.Lib Fugue.Ir Fugue.Project

/-- `MAX_CHANGE_RUNS` (`index.rs:9`). -/
def maxChangeRuns : Nat := 4096

/-- `CENSUS_INTERVAL` (`index.rs:10`). -/
def censusInterval : Nat := 256

/-- `RegionGroupKind` (`index.rs:12-21`). -/
inductive RegionGroupKind where
  | bytes | functions | problems | references | segments | switches | symbols
  deriving DecidableEq, Repr

namespace RegionGroupKind

/-- `RegionGroupKind::ALL` (`index.rs:24-32`). -/
def all : List RegionGroupKind :=
  [.bytes, .functions, .problems, .references, .segments, .switches, .symbols]

/-- `RegionGroupKind::mask` (`index.rs:46-58`). -/
def mask : RegionGroupKind → ChangeKinds
  | .bytes => .bytesWritten
  | .functions => .functions
  | .symbols => .symbols
  | .segments => .segmentMapped ||| .segmentUnmapped
  | .problems => .problems
  | .references => .references
  | .switches => .switches

/-- `RegionGroupKind::of_record` (`index.rs:60-64`). -/
def ofRecord (kind : ChangeKinds) : Option RegionGroupKind :=
  all.find? fun group => group.mask.intersects kind

end RegionGroupKind

/-- `RegionGroup` (`index.rs:67-72`). -/
structure RegionGroup where
  floor : Revision
  max : Revision
  spaces : OrdMap AddressSpaceId (RangeMap Revision)
  insertsSinceCensus : Nat

namespace RegionGroup

/-- `RegionGroup::new` (`index.rs:75-82`). -/
def new (revision : Revision) : RegionGroup := ⟨revision, revision, .empty, 0⟩

variable (group : RegionGroup)

/-- `run_count` (`index.rs:84-89`). -/
def runCount : Nat :=
  (group.spaces.entries.map fun entry => entry.2.runs.length).sum

/-- `compact` (`index.rs:106-114`). -/
def compact : RegionGroup × Bool :=
  if group.runCount ≤ maxChangeRuns then (group, false)
  else ({ group with floor := group.max, spaces := .empty }, true)

/-- The first part of `touch`: the range takes the revision (`index.rs:92-96`). -/
def mark (range : AddressRange) (revision : Revision) : RegionGroup :=
  let map := (group.spaces.get? range.space).getD .empty
  { group with
    spaces := group.spaces.insert range.space (map.insert range.start range.stop revision)
    max := Nat.max group.max revision }

/-- `touch` (`index.rs:91-104`), with whether the group was compacted. -/
def touch (range : AddressRange) (revision : Revision) :
    Option (RegionGroup × Bool) :=
  if range.stop < range.start then none
  else
    let marked := group.mark range revision
    if censusInterval ≤ group.insertsSinceCensus + 1 then
      some { marked with insertsSinceCensus := 0 }.compact
    else some ({ marked with insertsSinceCensus := group.insertsSinceCensus + 1 }, false)

/-- `RawAddressRangeMap::max_in_range` (`address.rs:1220-1233`). -/
def maxInRange (map : RangeMap Revision) (start stop : Nat) : Option Revision :=
  if start ≤ stop then ((map.overlapping start stop).map Run.value).max? else none

/-- The revision of a range, or a bound below it (`index.rs:122-128`). -/
def latestIn (latest : Revision) (range : AddressRange) : Revision :=
  match group.spaces.get? range.space with
  | some map =>
    match maxInRange map range.start range.stop with
    | some revision => Nat.max latest revision
    | none => latest
  | none => latest

/-- `latest_over` (`index.rs:116-130`). -/
def latestOver (region : AddressRangeSet) : Revision :=
  if region.isEmpty then Nat.max group.floor group.max
  else region.ranges.foldl group.latestIn group.floor

/-- `RegionGroup::resynchronise` (`index.rs:132-137`). -/
def resynchronise (revision : Revision) : RegionGroup where
  floor := Nat.max group.floor revision
  max := Nat.max group.max revision
  spaces := .empty
  insertsSinceCensus := 0

end RegionGroup

/-- `GlobalWatermarks` (`index.rs:140-146`). -/
structure GlobalWatermarks where
  lifted : Revision
  resynchronised : Revision
  spaceCreated : Revision
  mappingCreated : Revision
  mappingChanged : Revision

namespace GlobalWatermarks

/-- `GlobalWatermarks::new` (`index.rs:149-157`). -/
def new (revision : Revision) : GlobalWatermarks :=
  ⟨revision, revision, revision, revision, revision⟩

/-- A watermark after a record of a kind (`index.rs:160-171`). -/
def bumped (watermark : Revision) (mask kind : ChangeKinds) (revision : Revision) : Revision :=
  if kind.intersects mask then Nat.max watermark revision else watermark

variable (global : GlobalWatermarks)

/-- `bump` (`index.rs:159-172`). -/
def bump (kind : ChangeKinds) (revision : Revision) :
    GlobalWatermarks :=
  { global with
    lifted := bumped global.lifted .lifted kind revision
    spaceCreated := bumped global.spaceCreated .addressSpaceCreated kind revision
    mappingCreated := bumped global.mappingCreated .segmentMappingCreated kind revision
    mappingChanged := bumped global.mappingChanged .segmentMappingChanged kind revision }

/-- The watermarks with the kinds that they stand for, as `latest` goes over them. -/
def entries : List (ChangeKinds × Revision) :=
  [(.lifted, global.lifted), (.resynchronise, global.resynchronised),
    (.addressSpaceCreated, global.spaceCreated), (.segmentMappingCreated, global.mappingCreated),
    (.segmentMappingChanged, global.mappingChanged)]

/-- `latest` (`index.rs:174-192`). -/
def latest (kinds : ChangeKinds) : Revision :=
  global.entries.foldl (fun latest entry =>
    if kinds.intersects entry.1 then Nat.max latest entry.2 else latest) 0

/-- `GlobalWatermarks::resynchronise` (`index.rs:194-200`). -/
def resynchronise (revision : Revision) : GlobalWatermarks where
  lifted := Nat.max global.lifted revision
  resynchronised := Nat.max global.resynchronised revision
  spaceCreated := Nat.max global.spaceCreated revision
  mappingCreated := Nat.max global.mappingCreated revision
  mappingChanged := Nat.max global.mappingChanged revision

end GlobalWatermarks

/-- `ChangeIndex` (`index.rs:203-206`). -/
structure ChangeIndex where
  groups : RegionGroupKind → RegionGroup
  global : GlobalWatermarks

namespace ChangeIndex

/-- `ChangeIndex::new` (`index.rs:209-214`). -/
def new (revision : Revision) : ChangeIndex := ⟨fun _ => .new revision, .new revision⟩

variable (index : ChangeIndex)

/-- `ChangeIndex::resynchronise` (`index.rs:263-268`). -/
def resynchronise (revision : Revision) : ChangeIndex where
  groups := fun group => (index.groups group).resynchronise revision
  global := index.global.resynchronise revision

/-- One round of the loop over the ranges of a record (`index.rs:230-232`). -/
def touch (group : RegionGroupKind) (revision : Revision) (state : ChangeIndex × Bool)
    (range : AddressRange) : Option (ChangeIndex × Bool) := do
  let (touched, compacted) ← (state.1.groups group).touch range revision
  return ({ state.1 with groups := Function.update state.1.groups group touched },
    state.2 || compacted)

/-- One round of the loop of `apply` (`index.rs:220-236`). -/
def applyRecord (revision : Revision) (state : ChangeIndex × Bool) (record : ChangeRecord) :
    Option (ChangeIndex × Bool) :=
  if record.kind = .resynchronise then some (state.1.resynchronise revision, state.2)
  else
    match RegionGroupKind.ofRecord record.kind with
    | some group => record.ranges.foldlM (touch group revision) state
    | none => some ({ state.1 with global := state.1.global.bump record.kind revision }, state.2)

/-- `apply` (`index.rs:216-239`), with whether a group was compacted. -/
def apply (changes : ChangeSet) : Option (ChangeIndex × Bool) :=
  changes.records.foldlM (applyRecord changes.revision) (index, false)

/-- `latest_change` (`index.rs:241-251`). -/
def latestChange (kinds : ChangeKinds) (region : AddressRangeSet) :
    Revision :=
  RegionGroupKind.all.foldl (fun latest group =>
    if kinds.intersects group.mask then Nat.max latest ((index.groups group).latestOver region)
    else latest) (index.global.latest kinds)

/-- A sequence of change sets, with whether any of them compacted a group. -/
def applyAll (index : ChangeIndex) : List ChangeSet → Option (ChangeIndex × Bool)
  | [] => some (index, false)
  | changes :: rest => do
    let (index, compacted) ← index.apply changes
    let (index, others) ← index.applyAll rest
    return (index, compacted || others)

end ChangeIndex

end Fugue.Queries
