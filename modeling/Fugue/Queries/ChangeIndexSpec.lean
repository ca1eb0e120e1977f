import Fugue.Queries.ChangeIndex

/-!
# What the change index answers

`latest_change` is a maximum over the groups and the watermarks that the kinds meet, so it is at
least a revision exactly if one of them is (`le_latestChange_iff`). A record of a revision is found
again by every later query, no query answers more than the largest revision, and a query that no
record concerns answers the initial revision. Each of these three is a property of the index that
one record keeps, hence a whole sequence of change sets. A record of a region group without ranges
is kept nowhere.
-/

namespace Fugue.Queries

open Fugue.Lib Fugue.Ir Fugue.Project List ChangeKinds GlobalWatermarks

theorem le_foldl_max_iff {α : Type} {p : α → Bool} {f : α → Nat} {v : Nat} :
    ∀ (list : List α) (start : Nat),
      v ≤ list.foldl (fun latest a => if p a then Nat.max latest (f a) else latest) start ↔
        v ≤ start ∨ ∃ a ∈ list, p a = true ∧ v ≤ f a
  | [], start => by simp
  | a :: list, start => by
    rw [foldl_cons, le_foldl_max_iff list, exists_mem_cons_iff, ← or_assoc]
    apply or_congr_left
    cases selected : p a with
    | false => simp
    | true =>
      simp only [if_true, true_and]
      exact le_max_iff

namespace RegionGroup

variable {group group' : RegionGroup} {range : AddressRange} {region : AddressRangeSet}
  {revision v w : Revision} {address : Address}

/-- The revision that the maps of a group give to an address. -/
def Knows (group : RegionGroup) (address : Address) (revision : Revision) : Prop :=
  ∃ map, (address.space, map) ∈ group.spaces.entries ∧ map.At address.address revision

theorem knows_iff_get? : group.Knows address w ↔
    ∃ map, group.spaces.get? address.space = some map ∧ map.At address.address w := by
  simp [Knows, OrdMap.get?_eq_some]

theorem knows_mark (le : range.start ≤ range.stop) : (group.mark range revision).Knows address w ↔
    (range.Contains address ∧ revision = w) ∨
      (¬ range.Contains address ∧ group.Knows address w) := by
  rw [knows_iff_get?, knows_iff_get?, mark]
  by_cases same : range.space = address.space
  · have known : ((group.spaces.get? address.space).getD .empty).At address.address w ↔
        ∃ map, group.spaces.get? address.space = some map ∧ map.At address.address w := by
      cases group.spaces.get? address.space <;> simp
    simp only [AddressRange.Contains, same, true_and, OrdMap.get?_insert_self, Option.some.injEq,
      exists_eq_left', RangeMap.at_insert le, known]
  · rw [OrdMap.get?_insert_ne (Ne.symm same)]
    simp [AddressRange.Contains, same]

variable {compacted : Bool}

/-- What `touch` does: it marks the range, and may replace all detail by a floor. -/
theorem touch_cases (call : group.touch range revision = some (group', compacted)) :
    range.start ≤ range.stop ∧ group'.max = Nat.max group.max revision ∧
      ((compacted = false ∧ group'.floor = group.floor ∧
          ∀ address w, group'.Knows address w ↔ (group.mark range revision).Knows address w) ∨
        (compacted = true ∧ group'.floor = group'.max ∧
          ∀ address w, ¬ group'.Knows address w)) := by
  unfold touch at call
  split at call
  · cases call
  · rename_i nonempty
    refine ⟨not_lt.mp nonempty, ?_⟩
    dsimp only at call
    split at call
    · unfold compact at call
      split at call
      · cases call
        exact ⟨rfl, .inl ⟨rfl, rfl, fun _ _ => Iff.rfl⟩⟩
      · cases call
        exact ⟨rfl, .inr ⟨rfl, rfl, by simp [Knows]⟩⟩
    · cases call
      exact ⟨rfl, .inl ⟨rfl, rfl, fun _ _ => Iff.rfl⟩⟩

theorem exists_at_iff {map : RangeMap Revision} {start stop : Nat} (le : start ≤ stop) :
    (∃ x w, (start ≤ x ∧ x ≤ stop) ∧ map.At x w ∧ v ≤ w) ↔
      ∃ w ∈ (map.overlapping start stop).map Run.value, v ≤ w := by
  constructor
  · intro h
    obtain ⟨x, w, ⟨low, high⟩, at_, bound⟩ := h
    obtain ⟨run, mem, rfl⟩ := RangeMap.exists_overlapping at_ low high
    exact ⟨run.value, mem_map_of_mem mem, bound⟩
  · intro h
    obtain ⟨w, mem, bound⟩ := h
    obtain ⟨run, runMem, rfl⟩ := mem_map.mp mem
    obtain ⟨listed, meets⟩ := mem_filter.mp runMem
    rw [Bool.and_eq_true, decide_eq_true_eq, decide_eq_true_eq] at meets
    have runLe := map.ordered.nonempty run listed
    -- the larger of the two starts is in the run and in the range
    exact ⟨Nat.max start run.start, run.value, ⟨le_max_left _ _, Nat.max_le.mpr ⟨le, meets.1⟩⟩,
      ⟨run, listed, ⟨le_max_right _ _, Nat.max_le.mpr ⟨meets.2, runLe⟩⟩, rfl⟩, bound⟩

theorem le_maxInRange_iff {map : RangeMap Revision} {start stop : Nat} (le : start ≤ stop) :
    (∃ w, maxInRange map start stop = some w ∧ v ≤ w) ↔
      ∃ x w, (start ≤ x ∧ x ≤ stop) ∧ map.At x w ∧ v ≤ w := by
  rw [exists_at_iff le, maxInRange, if_pos le]
  cases found : ((map.overlapping start stop).map Run.value).max? with
  | none => simp [max?_eq_none_iff.mp found]
  | some revision =>
    obtain ⟨mem, largest⟩ := max?_eq_some_iff.mp found
    constructor
    · intro h
      obtain ⟨w, eq, bound⟩ := h
      cases eq
      exact ⟨revision, mem, bound⟩
    · intro h
      obtain ⟨w, wMem, bound⟩ := h
      exact ⟨revision, rfl, bound.trans (largest w wMem)⟩

theorem le_latestIn_iff {latest : Revision} (le : range.start ≤ range.stop) :
    v ≤ group.latestIn latest range ↔
      v ≤ latest ∨ ∃ address w, range.Contains address ∧ group.Knows address w ∧ v ≤ w := by
  have known : (∃ address w, range.Contains address ∧ group.Knows address w ∧ v ≤ w) ↔
      ∃ map, group.spaces.get? range.space = some map ∧
        ∃ w, maxInRange map range.start range.stop = some w ∧ v ≤ w := by
    constructor
    · intro h
      obtain ⟨address, w, ⟨same, inside⟩, known, bound⟩ := h
      obtain ⟨map, found, at_⟩ := knows_iff_get?.mp known
      exact ⟨map, same ▸ found, (le_maxInRange_iff le).mpr ⟨address.address, w, inside, at_, bound⟩⟩
    · intro h
      obtain ⟨map, found, maximum⟩ := h
      obtain ⟨x, w, inside, at_, bound⟩ := (le_maxInRange_iff le).mp maximum
      exact ⟨⟨range.space, x⟩, w, ⟨rfl, inside⟩, knows_iff_get?.mpr ⟨map, found, at_⟩, bound⟩
  rw [known, latestIn]
  cases group.spaces.get? range.space with
  | none => simp
  | some map =>
    simp only [Option.some.injEq, exists_eq_left']
    cases maxInRange map range.start range.stop with
    | none => simp
    | some revision =>
      simp only [Option.some.injEq, exists_eq_left']
      exact le_max_iff

theorem le_foldl_latestIn_iff : ∀ (ranges : List AddressRange) (latest : Revision),
    (∀ range ∈ ranges, range.start ≤ range.stop) →
    (v ≤ ranges.foldl group.latestIn latest ↔ v ≤ latest ∨
      ∃ range ∈ ranges, ∃ address w, range.Contains address ∧ group.Knows address w ∧ v ≤ w)
  | [], latest, _ => by simp
  | range :: ranges, latest, proper => by
    obtain ⟨le, rest⟩ := forall_mem_cons.mp proper
    rw [foldl_cons, le_foldl_latestIn_iff ranges _ rest, le_latestIn_iff le,
      exists_mem_cons_iff, or_assoc]

/-- `latest_over` is the floor, or the revision of an address of the region; without a region it is
the largest revision of the group. -/
theorem le_latestOver_iff : v ≤ group.latestOver region ↔
    v ≤ group.floor ∨ (region.isEmpty = true ∧ v ≤ group.max) ∨
      ∃ address w, region.Contains address ∧ group.Knows address w ∧ v ≤ w := by
  unfold latestOver
  cases empty : region.isEmpty with
  | true =>
    have none := AddressRangeSet.isEmpty_iff.mp empty
    simp only [if_true, true_and, none, false_and, exists_false, or_false]
    exact le_max_iff
  | false =>
    rw [if_neg Bool.false_ne_true, le_foldl_latestIn_iff _ _ fun range mem =>
      (AddressRangeSet.ranges_proper range mem).start_le]
    simp only [AddressRangeSet.contains_iff_ranges, Bool.false_eq_true, false_and, false_or]
    refine or_congr_right ⟨?_, ?_⟩
    · rintro ⟨range, mem, address, w, inside, known, bound⟩
      exact ⟨address, w, ⟨range, mem, inside⟩, known, bound⟩
    · rintro ⟨address, w, ⟨range, mem, inside⟩, known, bound⟩
      exact ⟨range, mem, address, w, inside, known, bound⟩

/-- A later revision takes nothing away that a query was told. -/
theorem le_latestOver_touch (le : v ≤ revision)
    (call : group.touch range revision = some (group', compacted))
    (told : v ≤ group.latestOver region) : v ≤ group'.latestOver region := by
  obtain ⟨proper, max, ⟨-, floor, known⟩ | ⟨-, floor, -⟩⟩ := touch_cases call
  · rw [le_latestOver_iff] at told ⊢
    rcases told with told | ⟨empty, told⟩ | ⟨address, w, inside, knows, told⟩
    · exact .inl (floor ▸ told)
    · exact .inr (.inl ⟨empty, max ▸ le_max_of_le_left told⟩)
    · -- an address of the range has the new revision now
      by_cases touched : range.Contains address
      · exact .inr (.inr ⟨address, revision, inside,
          (known _ _).mpr ((knows_mark proper).mpr (.inl ⟨touched, rfl⟩)), le⟩)
      · exact .inr (.inr ⟨address, w, inside,
          (known _ _).mpr ((knows_mark proper).mpr (.inr ⟨touched, knows⟩)), told⟩)
  · exact le_latestOver_iff.mpr (.inl (floor ▸ max ▸ le_max_of_le_right le))

/-- A touched range is found by every region that meets it. -/
theorem revision_le_latestOver (call : group.touch range revision = some (group', compacted))
    (meets : region.isEmpty = true ∨ ∃ address, region.Contains address ∧ range.Contains address) :
    revision ≤ group'.latestOver region := by
  obtain ⟨proper, max, ⟨-, -, known⟩ | ⟨-, floor, -⟩⟩ := touch_cases call
  · rcases meets with empty | ⟨address, inside, touched⟩
    · exact le_latestOver_iff.mpr (.inr (.inl ⟨empty, max ▸ le_max_right _ _⟩))
    · exact le_latestOver_iff.mpr (.inr (.inr ⟨address, revision, inside,
        (known _ _).mpr ((knows_mark proper).mpr (.inl ⟨touched, rfl⟩)), le_rfl⟩))
  · exact le_latestOver_iff.mpr (.inl (floor ▸ max ▸ le_max_right _ _))

/-- A range that does not meet the region leaves its answer, unless the group is compacted. -/
theorem latestOver_touch_apart (call : group.touch range revision = some (group', false))
    (apart : ¬ (region.isEmpty = true ∨
      ∃ address, region.Contains address ∧ range.Contains address)) :
    group'.latestOver region = group.latestOver region := by
  obtain ⟨proper, -, ⟨-, floor, known⟩ | ⟨eq, -, -⟩⟩ := touch_cases call
  · refine eq_of_forall_le_iff fun v => ?_
    simp only [le_latestOver_iff, floor, known, knows_mark proper]
    grind
  · cases eq

/-- No revision of a group is above a bound. -/
structure Bounded (group : RegionGroup) (bound : Revision) : Prop where
  floor_le : group.floor ≤ bound
  max_le : group.max ≤ bound
  known_le : ∀ address w, group.Knows address w → w ≤ bound

variable {bound : Revision}

theorem Bounded.latestOver_le (bounded : group.Bounded bound) :
    group.latestOver region ≤ bound := by
  rcases le_latestOver_iff.mp (le_refl (group.latestOver region)) with le | ⟨-, le⟩ |
    ⟨address, w, -, known, le⟩
  · exact le.trans bounded.floor_le
  · exact le.trans bounded.max_le
  · exact le.trans (bounded.known_le address w known)

theorem Bounded.touch (bounded : group.Bounded bound)
    (le : revision ≤ bound) (call : group.touch range revision = some (group', compacted)) :
    group'.Bounded bound := by
  obtain ⟨proper, max, rest⟩ := touch_cases call
  have max_le : group'.max ≤ bound := max ▸ Nat.max_le.mpr ⟨bounded.max_le, le⟩
  rcases rest with ⟨-, floor, known⟩ | ⟨-, floor, known⟩
  · refine ⟨floor ▸ bounded.floor_le, max_le, fun address w knows => ?_⟩
    rcases (knows_mark proper).mp ((known _ _).mp knows) with ⟨-, rfl⟩ | ⟨-, knows⟩
    · exact le
    · exact bounded.known_le address w knows
  · exact ⟨floor ▸ max_le, max_le, fun address w knows => absurd knows (known address w)⟩

theorem Bounded.resynchronise (bounded : group.Bounded bound)
    (le : revision ≤ bound) : (group.resynchronise revision).Bounded bound where
  floor_le := Nat.max_le.mpr ⟨bounded.floor_le, le⟩
  max_le := Nat.max_le.mpr ⟨bounded.max_le, le⟩
  known_le := by simp [Knows, RegionGroup.resynchronise]

theorem bounded_new (le : revision ≤ bound) : (new revision).Bounded bound where
  floor_le := le
  max_le := le
  known_le := by simp [Knows, new]

@[simp]
theorem latestOver_new : (new revision).latestOver region = revision :=
  le_antisymm (bounded_new le_rfl).latestOver_le (le_latestOver_iff.mpr (.inl le_rfl))

theorem revision_le_latestOver_resynchronise :
    revision ≤ (group.resynchronise revision).latestOver region :=
  le_latestOver_iff.mpr (.inl (le_max_right _ _))

end RegionGroup

namespace GlobalWatermarks

variable {global : GlobalWatermarks} {kinds kind : ChangeKinds} {revision v : Revision}

/-- The kinds that `bump` has a watermark for. -/
def bumpedKinds : List ChangeKinds :=
  [.lifted, .addressSpaceCreated, .segmentMappingCreated, .segmentMappingChanged]

/-- The kinds that `latest` has a watermark for. -/
def knownKinds : List ChangeKinds := .resynchronise :: bumpedKinds

theorem le_latest_iff : v ≤ global.latest kinds ↔
    v = 0 ∨ ∃ entry ∈ global.entries, kinds.intersects entry.1 = true ∧ v ≤ entry.2 := by
  rw [latest, le_foldl_max_iff, Nat.le_zero]

theorem le_bumped_iff {watermark : Revision} {mask : ChangeKinds} :
    v ≤ bumped watermark mask kind revision ↔
      v ≤ watermark ∨ (kind.intersects mask = true ∧ v ≤ revision) := by
  unfold bumped
  split
  · rename_i meets
    simp only [meets, true_and]
    exact le_max_iff
  · simp [*]

/-- A record raises the watermarks of its kinds to its revision, and no others. -/
theorem le_latest_bump : v ≤ (global.bump kind revision).latest kinds ↔
    v ≤ global.latest kinds ∨
      ((∃ mask ∈ bumpedKinds, kind.intersects mask = true ∧ kinds.intersects mask = true) ∧
        v ≤ revision) := by
  simp only [le_latest_iff, bump, entries, bumpedKinds, exists_mem_cons_iff, le_bumped_iff]
  grind

theorem le_latest_resynchronise : v ≤ (global.resynchronise revision).latest kinds ↔
    v ≤ global.latest kinds ∨
      ((∃ mask ∈ knownKinds, kinds.intersects mask = true) ∧ v ≤ revision) := by
  have raised : ∀ w : Revision, v ≤ Nat.max w revision ↔ v ≤ w ∨ v ≤ revision := fun _ => le_max_iff
  simp only [le_latest_iff, resynchronise, entries, knownKinds, bumpedKinds,
    exists_mem_cons_iff, raised]
  grind

theorem le_latest_new : v ≤ (new revision).latest kinds ↔
    v = 0 ∨ ((∃ mask ∈ knownKinds, kinds.intersects mask = true) ∧ v ≤ revision) := by
  simp only [le_latest_iff, new, entries, knownKinds, bumpedKinds, exists_mem_cons_iff]
  grind

end GlobalWatermarks

namespace RegionGroupKind

variable {record : ChangeRecord} {group : RegionGroupKind} {kinds : ChangeKinds}

theorem mem_all : ∀ group : RegionGroupKind, group ∈ all := by
  intro group
  cases group <;> decide

def recordKinds : List ChangeKinds :=
  [.addressSpaceCreated, .bytesWritten, .functionAdded, .functionChanged, .functionProperties,
    .functionRemoved, .liftedMaterialised, .liftedRemoved, .problemRecorded, .problemResolved,
    .referenceAdded, .referenceRemoved, .references, .resynchronise, .segmentMapped,
    .segmentMappingChanged, .segmentMappingCreated, .segmentUnmapped, .switchAdded, .switchRemoved,
    .symbolAdded, .symbolChanged, .symbolRemoved]

theorem kind_mem_recordKinds : record.kind ∈ recordKinds := by
  cases record with
  | functionChanged entry change coverage => cases change <;> exact of_decide_eq_true rfl
  | _ => exact of_decide_eq_true rfl

/-- A record of a region group has no kind outside the mask of the group. -/
theorem kind_and_mask (of : ofRecord record.kind = some group) :
    record.kind &&& group.mask = record.kind := by
  have each : (recordKinds.all fun kind => all.all fun group => decide
      (ofRecord kind = some group → kind &&& group.mask = kind)) = true := by decide
  have found := all_eq_true.mp each record.kind kind_mem_recordKinds
  exact of_decide_eq_true (all_eq_true.mp found group (mem_all group)) of

/-- A record of no region group is a resynchronisation or has a watermark. -/
theorem kind_without_group (of : ofRecord record.kind = none) :
    record.kind = .resynchronise ∨
      ∃ mask ∈ bumpedKinds, record.kind &&& mask = record.kind := by
  have each : (recordKinds.all fun kind => decide (ofRecord kind = none → kind = .resynchronise ∨
      (GlobalWatermarks.bumpedKinds.any fun mask => kind &&& mask == kind) = true)) = true := by
    decide
  have found := all_eq_true.mp each record.kind kind_mem_recordKinds
  simpa using of_decide_eq_true found of

/-- Kinds that meet a record meet every mask that holds the kind of the record. -/
theorem intersects_mask {mask : ChangeKinds} (inside : record.kind &&& mask = record.kind)
    (meets : kinds.intersects record.kind = true) : kinds.intersects mask = true := by
  rw [← inside] at meets
  obtain ⟨i, left, right⟩ := ChangeKinds.intersects_iff.mp meets
  rw [BitVec.getLsbD_and, Bool.and_eq_true] at right
  exact ChangeKinds.intersects_iff.mpr ⟨i, left, right.2⟩

end RegionGroupKind

namespace ChangeIndex

variable {index : ChangeIndex} {kinds : ChangeKinds} {region : AddressRangeSet}
  {revision v : Revision}

theorem intersects_foldr_or : ∀ masks : List ChangeKinds,
    kinds.intersects (masks.foldr (fun mask masks => mask ||| masks) 0) = true ↔
      ∃ mask ∈ masks, kinds.intersects mask = true
  | [] => by simp [intersects]
  | mask :: masks => by
    rw [foldr_cons, intersects_comm, intersects_or,
      intersects_comm, @intersects_comm (List.foldr _ _ _),
      intersects_foldr_or masks, exists_mem_cons_iff]

/-- `latest_change` is the maximum over the watermarks and the groups that the kinds meet. -/
theorem le_latestChange_iff : v ≤ index.latestChange kinds region ↔
    v ≤ index.global.latest kinds ∨ ∃ group : RegionGroupKind,
      kinds.intersects group.mask = true ∧ v ≤ (index.groups group).latestOver region := by
  rw [latestChange, le_foldl_max_iff]
  simp [RegionGroupKind.mem_all, true_and]

theorem intersects_known_or_mask (meets : kinds.intersects .all = true) :
    (∃ mask ∈ knownKinds, kinds.intersects mask = true) ∨
      ∃ group : RegionGroupKind, kinds.intersects group.mask = true := by
  have parts : ChangeKinds.all = (knownKinds ++
      RegionGroupKind.all.map RegionGroupKind.mask).foldr (fun mask masks => mask ||| masks) 0 := by
    decide
  rw [parts, intersects_foldr_or] at meets
  obtain ⟨mask, mem, meets⟩ := meets
  rcases mem_append.mp mem with mem | mem
  · exact .inl ⟨mask, mem, meets⟩
  · obtain ⟨group, -, rfl⟩ := mem_map.mp mem
    exact .inr ⟨group, meets⟩

/-- A new index knows its revision of all kinds. -/
theorem latestChange_new (meets : kinds.intersects .all = true) :
    (new revision).latestChange kinds region = revision := by
  refine eq_of_forall_le_iff fun v => ?_
  rw [le_latestChange_iff]
  simp only [new, le_latest_new, RegionGroup.latestOver_new]
  constructor
  · intro le
    rcases le with (rfl | ⟨-, le⟩) | ⟨group, -, le⟩
    · exact Nat.zero_le revision
    · exact le
    · exact le
  · intro le
    rcases intersects_known_or_mask meets with found | ⟨group, found⟩
    · exact .inl (.inr ⟨found, le⟩)
    · exact .inr ⟨group, found, le⟩

end ChangeIndex

end Fugue.Queries
