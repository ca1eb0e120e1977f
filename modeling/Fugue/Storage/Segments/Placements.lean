import Fugue.Lib.Check
import Fugue.Storage.Segments.Submaps

/-!
# The layout of a space

The indexes of a space hold exactly the mappings placed in it, at their current ranges and with
their current references (`Indexed`), and the submappings show at each address the placed mapping of
the highest priority that contains it (`VisibleAt`). Both are relative to the mappings that are
known, so that a mapping can change before the spaces in which it is placed follow.

The indexes are changed by `updateMappingPlacement_spec` and its parts, the submappings are brought
up to date over a range by `rebuild_spec`.
-/

namespace Fugue.Storage.Segments

open Fugue.Lib Fugue.Ir IntervalMap List OrdMap
open AddressSpace (cutRange newWith rebuildMapping)

/-- The call returns and its result meets `post`, or a counter is exhausted. -/
def Returns {α : Type} (post : α → Prop) : Except Panic α → Prop
  | .ok result => post result
  | .error panic => panic = .exhausted

section Returns

variable {α β : Type} {post : α → Prop} {post' : β → Prop} {x : Except Panic α}
  {f : α → Except Panic β}

theorem Returns.bind (returns : Returns post x) (next : ∀ a, post a → Returns post' (f a)) :
    Returns post' (x >>= f) := by
  cases x with
  | ok a => exact next a returns
  | error panic => exact returns

theorem Returns.mono {post' : α → Prop} (returns : Returns post x) (weaker : ∀ a, post a → post' a) :
    Returns post' x := by
  cases x with
  | ok a => exact weaker a returns
  | error panic => exact returns

theorem returns_ok_bind {a : α} (eq : x = .ok a) (next : Returns post' (f a)) :
    Returns post' (x >>= f) := by
  rw [eq]
  exact next

theorem returns_expect_bind {value : Option α} {a : α} (some_ : value = some a)
    (next : Returns post' (f a)) : Returns post' (expect value >>= f) := by
  rw [some_]
  exact next

theorem returns_nextRevision (revision : ℕ) :
    Returns (fun next => next = revision + 1) (nextRevision revision) := by
  unfold nextRevision
  split <;> rfl

theorem returns_higher (priority : ℤ) :
    Returns (fun next => next = priority + 1) (higher priority) := by
  unfold higher
  split <;> rfl

theorem returns_lower (priority : ℤ) :
    Returns (fun next => next = priority - 1) (lower priority) := by
  unfold lower
  split <;> rfl

end Returns

theorem rangeFromSize_mapping (mapping : SegmentMapping) (space : AddressSpaceId) :
    rangeFromSize ⟨space, mapping.range.start⟩ mapping.size = some (inSpace space mapping.range) := by
  have le := mapping.proper.start_le
  have lt := mapping.proper.stop_lt
  have stop : mapping.range.start + (mapping.size - 1) = mapping.range.stop := by
    unfold SegmentMapping.size
    omega
  unfold rangeFromSize
  rw [if_neg (by unfold SegmentMapping.size; omega), stop, if_pos lt]
  rfl

section Layout

variable {S E : Type} [mapS : IntervalMap S SegmentSubMapping]
  [mapE : IntervalMap E SegmentMappingId]
  {known known' : SegmentMappingId → Option SegmentMapping} {space space' : AddressSpace S E}
  {a : ℕ}

/-- The indexes hold exactly the placed mappings, at their current ranges and with their current
references. -/
structure Indexed (known : SegmentMappingId → Option SegmentMapping) (space : AddressSpace S E) :
    Prop where
  placed : ∀ id placement, (id, placement) ∈ space.mappingPlacements.entries →
    ∃ mapping, known id = some mapping ∧ mapping.id = id ∧
      placement.range = inSpace space.id mapping.range ∧
      (placement.priority, mapping.mappingRef) ∈ space.mappingsByPriority.entries
  ordered : ∀ priority mappingRef, (priority, mappingRef) ∈ space.mappingsByPriority.entries →
    ∃ placement, (mappingRef.mappingId, placement) ∈ space.mappingPlacements.entries ∧
      placement.priority = priority
  extents : ∀ key id, (key, id) ∈ entries space.mappingExtents ↔
    ∃ placement, (id, placement) ∈ space.mappingPlacements.entries ∧ key = bounds placement.range
  single : (entries space.mappingExtents).Nodup
  limits : ∀ priority mappingRef, (priority, mappingRef) ∈ space.mappingsByPriority.entries →
    space.lowestPriority ≤ priority ∧ priority ≤ space.highestPriority
  centred : space.lowestPriority ≤ 0 ∧ 0 ≤ space.highestPriority

/-- A mapping placed in the space that contains the address. -/
def Covers (space : AddressSpace S E) (a : ℕ) (id : SegmentMappingId)
    (placement : MappingPlacement) : Prop :=
  (id, placement) ∈ space.mappingPlacements.entries ∧ Within (bounds placement.range) a

/-- The address shows the placed mapping of the highest priority that contains it. -/
def VisibleAt (known : SegmentMappingId → Option SegmentMapping) (space : AddressSpace S E)
    (a : ℕ) : Prop :=
  ∀ mappingRef properties, Shows space.submaps a mappingRef properties ↔
    ∃ id placement mapping, Covers space a id placement ∧ known id = some mapping ∧
      mapping.mappingRef = mappingRef ∧ mapping.properties = properties ∧
      ∀ other rival, Covers space a other rival →
        rival.priority ≤ placement.priority

/-- The layout of a space follows the priorities. -/
structure Laid (known : SegmentMappingId → Option SegmentMapping) (space : AddressSpace S E) :
    Prop where
  indexed : Indexed known space
  submapped : Submapped space.id space.submaps
  visible : ∀ a, VisibleAt known space a

theorem laid_newWith (id : AddressSpaceId) (kind : AddressSpaceKind) (name : Option String) :
    Laid known { newWith (S := S) (E := E) id kind with name := name } := by
  refine ⟨⟨?_, ?_, ?_, ?_, ?_, ⟨le_rfl, le_rfl⟩⟩, submapped_new, fun a mappingRef properties => ?_⟩
  · intro _ _ mem
    cases mem
  · intro _ _ mem
    cases mem
  · simp [newWith, entries_new, entries_empty]
  · simp [newWith, entries_new]
  · intro _ _ mem
    cases mem
  · apply iff_of_false
    · rintro ⟨x, mem, -⟩
      simp [newWith, entries_new] at mem
    · rintro ⟨_, _, _, ⟨mem, -⟩, -⟩
      cases mem

omit mapS in
theorem Indexed.congr (indexed : Indexed known space)
    (agree : ∀ id placement, (id, placement) ∈ space.mappingPlacements.entries →
      known' id = known id) : Indexed known' space := by
  refine ⟨fun id placement mem => ?_, indexed.ordered, indexed.extents, indexed.single,
    indexed.limits, indexed.centred⟩
  rw [agree id placement mem]
  exact indexed.placed id placement mem

omit mapE in
theorem VisibleAt.transfer (visible : VisibleAt known space a)
    (shows : ∀ mappingRef properties, Shows space'.submaps a mappingRef properties ↔
      Shows space.submaps a mappingRef properties)
    (covers : ∀ id placement, Covers space' a id placement ↔ Covers space a id placement)
    (agree : ∀ id placement, Covers space a id placement → known' id = known id) :
    VisibleAt known' space' a := by
  intro mappingRef properties
  rw [shows, visible mappingRef properties]
  constructor
  · rintro ⟨id, placement, mapping, covered, found, eqRef, eqProps, top⟩
    refine ⟨id, placement, mapping, (covers id placement).mpr covered, ?_, eqRef, eqProps,
      fun other rival over_ => top other rival ((covers _ _).mp over_)⟩
    rw [agree id placement covered]
    exact found
  · rintro ⟨id, placement, mapping, covered, found, eqRef, eqProps, top⟩
    have covered' := (covers id placement).mp covered
    refine ⟨id, placement, mapping, covered', ?_, eqRef, eqProps,
      fun other rival over_ => top other rival ((covers _ _).mpr over_)⟩
    rw [← agree id placement covered']
    exact found

theorem Laid.congr (laid : Laid known space)
    (agree : ∀ id placement, (id, placement) ∈ space.mappingPlacements.entries →
      known' id = known id) : Laid known' space :=
  ⟨laid.indexed.congr agree, laid.submapped, fun a => (laid.visible a).transfer
    (fun _ _ => Iff.rfl) (fun _ _ => Iff.rfl) fun id placement covered =>
      agree id placement covered.1⟩

omit mapS in
theorem Indexed.eq_of_priority (indexed : Indexed known space) {id id' : SegmentMappingId}
    {placement placement' : MappingPlacement}
    (mem : (id, placement) ∈ space.mappingPlacements.entries)
    (mem' : (id', placement') ∈ space.mappingPlacements.entries)
    (same : placement.priority = placement'.priority) : id = id' := by
  obtain ⟨mapping, -, rfl, -, ordered⟩ := indexed.placed id placement mem
  obtain ⟨mapping', -, rfl, -, ordered'⟩ := indexed.placed id' placement' mem'
  rw [same] at ordered
  exact congrArg SegmentMappingRef.mappingId (OrdMap.unique ordered ordered')

omit mapS mapE in
/-- Where a mapping contains the address, one of them has the highest priority. -/
theorem exists_topmost {id : SegmentMappingId} {placement : MappingPlacement}
    (covered : Covers space a id placement) :
    ∃ top topPlacement, Covers space a top topPlacement ∧ ∀ other rival,
      Covers space a other rival → rival.priority ≤ topPlacement.priority := by
  classical
  obtain ⟨⟨top, topPlacement⟩, mem, greatest⟩ := Finset.exists_max_image
    (space.mappingPlacements.entries.toFinset.filter fun entry => Within (bounds entry.2.range) a)
    (fun entry => entry.2.priority) ⟨(id, placement), by simpa [Covers] using covered⟩
  refine ⟨top, topPlacement, by simpa [Covers] using mem, fun other rival over_ => ?_⟩
  exact greatest (other, rival) (by simpa [Covers] using over_)

/-- The space differs from `space` in its indexes only, and there in the placement of `id`: `only`
are its placements afterwards. -/
structure Reindexed (space space' : AddressSpace S E) (id : SegmentMappingId)
    (only : MappingPlacement → Prop) : Prop where
  submaps : space'.submaps = space.submaps
  id_eq : space'.id = space.id
  highest : space'.highestPriority = space.highestPriority
  lowest : space'.lowestPriority = space.lowestPriority
  placements : ∀ other placement, (other, placement) ∈ space'.mappingPlacements.entries ↔
    (other = id ∧ only placement) ∨
      (other ≠ id ∧ (other, placement) ∈ space.mappingPlacements.entries)

omit mapS in
theorem removePlacement_spec (indexed : Indexed known space) {id : SegmentMappingId}
    {placement : MappingPlacement} (mem : (id, placement) ∈ space.mappingPlacements.entries) :
    ∃ removed, space.removePlacement id placement = .ok removed ∧ Indexed known removed ∧
      Reindexed space removed id (fun _ => False) ∧
      ∀ priority mappingRef, (priority, mappingRef) ∈ removed.mappingsByPriority.entries ↔
        (priority, mappingRef) ∈ space.mappingsByPriority.entries ∧
          priority ≠ placement.priority := by
  obtain ⟨mapping, found, rfl, range, ordered⟩ := indexed.placed id placement mem
  obtain ⟨extents, run, nodup, memExtents⟩ := @removeWhere_spec E _ _ space.mappingExtents
    (bounds placement.range) mapping.id (· == mapping.id)
    ((indexed.extents _ _).mpr ⟨placement, mem, rfl⟩) (by simp)
    (fun other eq => by simpa using eq) indexed.single
  have byPriority : ∀ priority mappingRef,
      (priority, mappingRef) ∈ (space.mappingsByPriority.erase placement.priority).entries ↔
        (priority, mappingRef) ∈ space.mappingsByPriority.entries ∧
          priority ≠ placement.priority := fun _ _ => mem_erase
  have placements : ∀ other rival,
      (other, rival) ∈ (space.mappingPlacements.erase mapping.id).entries ↔
        (other, rival) ∈ space.mappingPlacements.entries ∧ other ≠ mapping.id :=
    fun _ _ => mem_erase
  refine ⟨{ space with
    mappingPlacements := space.mappingPlacements.erase mapping.id
    mappingsByPriority := space.mappingsByPriority.erase placement.priority
    mappingExtents := extents }, ?_, ⟨?_, ?_, ?_, nodup, ?_, indexed.centred⟩,
    ⟨rfl, rfl, rfl, rfl, ?_⟩, byPriority⟩
  · unfold AddressSpace.removePlacement
    rw [get?_eq_some.mpr ordered, run]
    rfl
  · intro other rival inRest
    obtain ⟨otherMem, ne⟩ := (placements other rival).mp inRest
    obtain ⟨otherMapping, otherFound, idEq, otherRange, otherOrdered⟩ :=
      indexed.placed other rival otherMem
    refine ⟨otherMapping, otherFound, idEq, otherRange, (byPriority _ _).mpr ⟨otherOrdered, ?_⟩⟩
    exact fun same => ne (indexed.eq_of_priority otherMem mem same)
  · intro priority mappingRef inRest
    obtain ⟨old, ne⟩ := (byPriority priority mappingRef).mp inRest
    obtain ⟨rival, otherMem, rfl⟩ := indexed.ordered priority mappingRef old
    refine ⟨rival, (placements _ _).mpr ⟨otherMem, fun same => ne ?_⟩, rfl⟩
    rw [same] at otherMem
    rw [OrdMap.unique otherMem mem]
  · intro key other
    rw [memExtents, indexed.extents]
    constructor
    · rintro ⟨⟨rival, otherMem, rfl⟩, ne⟩
      refine ⟨rival, (placements _ _).mpr ⟨otherMem, fun same => ne ?_⟩, rfl⟩
      subst same
      rw [OrdMap.unique otherMem mem]
    · rintro ⟨rival, inRest, rfl⟩
      obtain ⟨otherMem, ne⟩ := (placements _ _).mp inRest
      exact ⟨⟨rival, otherMem, rfl⟩, fun eq => ne (congrArg Prod.snd eq)⟩
  · intro priority mappingRef inRest
    exact indexed.limits priority mappingRef ((byPriority priority mappingRef).mp inRest).1
  · intro other rival
    rw [placements]
    tauto

omit mapS in
theorem insertPlacement_spec (indexed : Indexed known space) {mapping : SegmentMapping}
    (found : known mapping.id = some mapping)
    (absent : ∀ placement, (mapping.id, placement) ∉ space.mappingPlacements.entries)
    {priority : ℤ} (low : space.lowestPriority ≤ priority) (high : priority ≤ space.highestPriority)
    (free : ∀ mappingRef, (priority, mappingRef) ∉ space.mappingsByPriority.entries) :
    ∃ inserted, space.insertPlacement mapping.mappingRef priority
        (inSpace space.id mapping.range) = .ok inserted ∧ Indexed known inserted ∧
      Reindexed space inserted mapping.id
        (fun placement => placement = ⟨priority, inSpace space.id mapping.range⟩) := by
  have byPriority : ∀ entry,
      entry ∈ (space.mappingsByPriority.insert priority mapping.mappingRef).entries ↔
        entry = (priority, mapping.mappingRef) ∨ entry ∈ space.mappingsByPriority.entries := by
    intro entry
    rw [mem_insert]
    refine or_congr_right ⟨And.left, fun mem => ⟨mem, fun same => free entry.2 ?_⟩⟩
    rw [← same]
    exact mem
  have placements : ∀ entry, entry ∈ (space.mappingPlacements.insert mapping.mappingRef.mappingId
      ⟨priority, inSpace space.id mapping.range⟩).entries ↔
        entry = (mapping.id, ⟨priority, inSpace space.id mapping.range⟩) ∨
          entry ∈ space.mappingPlacements.entries := by
    intro entry
    rw [mem_insert]
    refine or_congr_right ⟨And.left, fun mem => ⟨mem, fun same => absent entry.2 ?_⟩⟩
    rw [show mapping.id = entry.1 from same.symm]
    exact mem
  refine ⟨{ space with
    mappingExtents := IntervalMap.forceInsert space.mappingExtents
      (bounds (inSpace space.id mapping.range)) mapping.mappingRef.mappingId
    mappingsByPriority := space.mappingsByPriority.insert priority mapping.mappingRef
    mappingPlacements := space.mappingPlacements.insert mapping.mappingRef.mappingId
      ⟨priority, inSpace space.id mapping.range⟩ }, ?_, ⟨?_, ?_, ?_, ?_, ?_, indexed.centred⟩,
    ⟨rfl, rfl, rfl, rfl, ?_⟩⟩
  · unfold AddressSpace.insertPlacement
    rw [get?_eq_none.mpr free, if_pos Option.isNone_none]
  · intro id placement mem
    rcases (placements _).mp mem with eq | old
    · cases eq
      exact ⟨mapping, found, rfl, rfl, (byPriority _).mpr (.inl rfl)⟩
    · obtain ⟨other, otherFound, idEq, range, ordered⟩ := indexed.placed id placement old
      exact ⟨other, otherFound, idEq, range, (byPriority _).mpr (.inr ordered)⟩
  · intro priority' mappingRef mem
    rcases (byPriority _).mp mem with eq | old
    · cases eq
      exact ⟨_, (placements _).mpr (.inl rfl), rfl⟩
    · obtain ⟨placement, placementMem, eq⟩ := indexed.ordered priority' mappingRef old
      exact ⟨placement, (placements _).mpr (.inr placementMem), eq⟩
  · intro key id
    rw [mem_forceInsert, indexed.extents]
    constructor
    · rintro (eq | ⟨placement, mem, eq⟩)
      · cases eq
        exact ⟨_, (placements _).mpr (.inl rfl), rfl⟩
      · exact ⟨placement, (placements _).mpr (.inr mem), eq⟩
    · rintro ⟨placement, mem, rfl⟩
      rcases (placements _).mp mem with eq | old
      · cases eq
        exact .inl rfl
      · exact .inr ⟨placement, old, rfl⟩
  · refine nodup_forceInsert (fun mem => ?_) indexed.single
    obtain ⟨placement, placementMem, -⟩ := (indexed.extents _ _).mp mem
    exact absent placement placementMem
  · intro priority' mappingRef mem
    rcases (byPriority _).mp mem with eq | old
    · cases eq
      exact ⟨low, high⟩
    · exact indexed.limits priority' mappingRef old
  · intro other placement
    rw [placements]
    constructor
    · rintro (eq | old)
      · cases eq
        exact .inl ⟨rfl, rfl⟩
      · exact .inr ⟨fun same => absent placement (same ▸ old), old⟩
    · rintro (⟨rfl, rfl⟩ | ⟨-, old⟩)
      · exact .inl rfl
      · exact .inr old

omit mapS in
/-- A mapping gets a placement, or another one: its priority must be free or its own. -/
theorem updateMappingPlacement_spec (indexed : Indexed known space) {mapping : SegmentMapping}
    (found : known' mapping.id = some mapping)
    (agree : ∀ id, id ≠ mapping.id → known' id = known id) {priority : ℤ}
    (low : space.lowestPriority ≤ priority) (high : priority ≤ space.highestPriority)
    (free : ∀ mappingRef, (priority, mappingRef) ∈ space.mappingsByPriority.entries →
      mappingRef.mappingId = mapping.id) :
    ∃ updated, space.updateMappingPlacement mapping.mappingRef priority
        (inSpace space.id mapping.range) = .ok updated ∧ Indexed known' updated ∧
      Reindexed space updated mapping.id
        (fun placement => placement = ⟨priority, inSpace space.id mapping.range⟩) := by
  unfold AddressSpace.updateMappingPlacement
  cases previous : space.mappingPlacements.get? mapping.mappingRef.mappingId with
  | none =>
    have absent : ∀ placement, (mapping.id, placement) ∉ space.mappingPlacements.entries :=
      get?_eq_none.mp previous
    have indexed' : Indexed known' space := indexed.congr fun id placement mem =>
      agree id fun same => absent placement (same ▸ mem)
    obtain ⟨inserted, run, kept, reindexed⟩ := insertPlacement_spec indexed' found absent low high
      (fun mappingRef mem => by
        obtain ⟨placement, placementMem, -⟩ := indexed.ordered priority mappingRef mem
        rw [free mappingRef mem] at placementMem
        exact absent placement placementMem)
    exact ⟨inserted, run, kept, reindexed⟩
  | some placement =>
    have mem : (mapping.id, placement) ∈ space.mappingPlacements.entries :=
      get?_eq_some.mp previous
    obtain ⟨removed, removeRun, removedIndexed, reindexed, byPriority⟩ :=
      removePlacement_spec indexed mem
    have absent : ∀ other, (mapping.id, other) ∉ removed.mappingPlacements.entries := by
      intro other inRest
      rcases (reindexed.placements _ _).mp inRest with ⟨-, impossible⟩ | ⟨ne, -⟩
      · exact impossible
      · exact ne rfl
    have removedIndexed' : Indexed known' removed := removedIndexed.congr fun id other inRest =>
      agree id fun same => absent other (same ▸ inRest)
    obtain ⟨inserted, insertRun, kept, inserted_⟩ := insertPlacement_spec removedIndexed' found
      absent (reindexed.lowest ▸ low) (reindexed.highest ▸ high) (fun mappingRef inRest => by
        obtain ⟨old, ne⟩ := (byPriority priority mappingRef).mp inRest
        obtain ⟨other, otherMem, eq⟩ := indexed.ordered priority mappingRef old
        rw [free mappingRef old] at otherMem
        rw [OrdMap.unique otherMem mem] at eq
        exact ne eq.symm)
    rw [reindexed.id_eq] at insertRun inserted_
    refine ⟨inserted, ?_, kept, inserted_.submaps.trans reindexed.submaps,
      inserted_.id_eq.trans reindexed.id_eq, inserted_.highest.trans reindexed.highest,
      inserted_.lowest.trans reindexed.lowest, fun other rival => ?_⟩
    · dsimp only
      rw [show space.removePlacement mapping.mappingRef.mappingId placement = .ok removed from
        removeRun]
      exact insertRun
    · rw [inserted_.placements, reindexed.placements]
      tauto

/-- A placed mapping as the source finds it again: the placement of `x.2` has the priority `x.1`. -/
def PlacedWith (known : SegmentMappingId → Option SegmentMapping) (space : AddressSpace S E)
    (x : ℤ × SegmentMapping) : Prop :=
  known x.2.id = some x.2 ∧ ∃ placement, (x.2.id, placement) ∈ space.mappingPlacements.entries ∧
    placement.priority = x.1 ∧ placement.range = inSpace space.id x.2.range ∧
    (x.1, x.2.mappingRef) ∈ space.mappingsByPriority.entries

instance : Nonempty SegmentMapping :=
  ⟨⟨0, ⟨0, 0, 0⟩, 0, 0, 0, .none, .generic, 0, 0, "", ⟨le_rfl, by decide⟩, by decide⟩⟩

omit mapS mapE in
theorem PlacedWith.placedAt {x : ℤ × SegmentMapping} (placed : PlacedWith known space x) :
    space.placedAt x.2.id = .ok (x.1, x.2.mappingRef) := by
  obtain ⟨-, placement, mem, priority, -, ordered⟩ := placed
  unfold AddressSpace.placedAt
  rw [get?_eq_some.mpr mem]
  dsimp only [expect, bind, Except.bind]
  rw [priority, get?_eq_some.mpr ordered]
  rfl

omit mapS in
theorem mappingsOverlapping_spec (indexed : Indexed known space) (range : AddressRange) :
    ∃ mappings : List (ℤ × SegmentMapping),
      space.mappingsOverlapping range = .ok (mappings.map fun x => x.2.mappingRef) ∧
      mappings.Pairwise (fun x y => x.1 < y.1) ∧
      (∀ x ∈ mappings, PlacedWith known space x) ∧
      ∀ x, PlacedWith known space x → x.2.range.start ≤ range.stop →
        range.start ≤ x.2.range.stop → x ∈ mappings := by
  have each : ∀ entry ∈ iter space.mappingExtents (bounds range), ∃ x : ℤ × SegmentMapping,
      x.2.id = entry.2 ∧ PlacedWith known space x := by
    intro entry mem
    obtain ⟨placement, placementMem, key⟩ := (indexed.extents _ _).mp (mem_iter.mp mem).1
    obtain ⟨mapping, found, idEq, rangeEq, ordered⟩ := indexed.placed _ _ placementMem
    rw [← idEq] at found placementMem
    exact ⟨(placement.priority, mapping), idEq, found, placement, placementMem, rfl, rangeEq,
      ordered⟩
  choose! mappingOf idOf placedWith using each
  have run : (iter space.mappingExtents (bounds range)).mapM (fun entry =>
      space.placedAt entry.2) = .ok ((iter space.mappingExtents (bounds range)).map fun entry =>
        ((mappingOf entry).1, (mappingOf entry).2.mappingRef)) := by
    refine mapM_eq_ok fun entry mem => ?_
    rw [← idOf entry mem]
    exact (placedWith entry mem).placedAt
  -- an extent of each mapping, and one priority for each of them
  have distinct : ((iter space.mappingExtents (bounds range)).map mappingOf).Pairwise
      fun x y => x.1 ≠ y.1 := by
    have nodup : (iter space.mappingExtents (bounds range)).Nodup :=
      (perm_iter _ _).nodup_iff.mpr (indexed.single.filter _)
    refine pairwise_map.mpr (nodup.imp_of_mem fun {left right} memLeft memRight ne same => ?_)
    obtain ⟨-, placement, placementMem, priority, -⟩ := placedWith left memLeft
    obtain ⟨-, placement', placementMem', priority', -⟩ := placedWith right memRight
    have sameId := indexed.eq_of_priority placementMem placementMem'
      (priority.trans (same.trans priority'.symm))
    rw [idOf left memLeft, idOf right memRight] at sameId
    obtain ⟨one, oneMem, oneKey⟩ := (indexed.extents _ _).mp (mem_iter.mp memLeft).1
    obtain ⟨two, twoMem, twoKey⟩ := (indexed.extents _ _).mp (mem_iter.mp memRight).1
    rw [sameId] at oneMem
    rw [OrdMap.unique oneMem twoMem] at oneKey
    exact ne (Prod.ext (oneKey.trans twoKey.symm) sameId)
  refine ⟨((iter space.mappingExtents (bounds range)).map mappingOf).insertionSort
    (fun x y => x.1 ≤ y.1), ?_, ?_, fun x mem => ?_, fun x placed low high => ?_⟩
  · unfold AddressSpace.mappingsOverlapping
    rw [run]
    apply congrArg Except.ok
    have sorted := map_insertionSort (r := fun x y : ℤ × SegmentMapping => x.1 ≤ y.1)
      (s := fun x y : ℤ × SegmentMappingRef => x.1 ≤ y.1) (fun x => (x.1, x.2.mappingRef))
      ((iter space.mappingExtents (bounds range)).map mappingOf) fun _ _ _ _ => Iff.rfl
    rw [map_map] at sorted
    have back := congrArg (List.map Prod.snd) sorted.symm
    rw [map_map] at back
    exact back
  · have ne := (perm_insertionSort (fun x y : ℤ × SegmentMapping => x.1 ≤ y.1)
      ((iter space.mappingExtents (bounds range)).map mappingOf)).pairwise_iff
      (fun ne => Ne.symm ne) |>.mpr distinct
    refine ((pairwise_insertionSort (fun x y : ℤ × SegmentMapping => x.1 ≤ y.1) _).and
      ne).imp fun both => ?_
    exact lt_of_le_of_ne both.1 both.2
  · obtain ⟨entry, entryMem, rfl⟩ := mem_map.mp (mem_insertionSort _ |>.mp mem)
    exact placedWith entry entryMem
  · obtain ⟨found, placement, placementMem, priority, rangeEq, -⟩ := placed
    have entryMem : (bounds placement.range, x.2.id) ∈
        iter space.mappingExtents (bounds range) := by
      refine mem_iter.mpr ⟨(indexed.extents _ _).mpr ⟨placement, placementMem, rfl⟩, ?_, ?_⟩ <;>
        rw [rangeEq] <;> assumption
    obtain ⟨found', placement', placementMem', priority', -⟩ := placedWith _ entryMem
    rw [idOf _ entryMem] at found' placementMem'
    refine mem_insertionSort _ |>.mpr (mem_map.mpr ⟨_, entryMem, Prod.ext ?_ ?_⟩)
    · rw [← priority', ← priority, OrdMap.unique placementMem' placementMem]
    · exact Option.some.inj (found'.symm.trans found)

/-- A mapping as `rebuild_range` takes it. -/
def rebuilt (mapping : SegmentMapping) : SegmentMappingRef × ℕ × ℕ × SegmentProperties :=
  (mapping.mappingRef, mapping.range.start, mapping.size, mapping.properties)

variable {range : AddressRange}

omit mapE in
theorem rebuildMapping_spec (submapped : Submapped space.id space.submaps)
    (same : range.space = space.id) (proper : range.Proper) (mapping : SegmentMapping) :
    ∃ submaps, rebuildMapping range space (rebuilt mapping) =
        .ok { space with submaps := submaps } ∧ Submapped space.id submaps ∧
      ∀ a mappingRef properties, Shows submaps a mappingRef properties ↔
        ((Within (bounds range) a ∧ Within (bounds mapping.range) a) ∧
          mapping.mappingRef = mappingRef ∧ mapping.properties = properties) ∨
        (¬ (Within (bounds range) a ∧ Within (bounds mapping.range) a) ∧
          Shows space.submaps a mappingRef properties) := by
  unfold rebuildMapping rebuilt
  dsimp only
  rw [rangeFromSize_mapping]
  dsimp only [expect, bind, Except.bind, inSpace]
  have le := proper.start_le
  have lt := proper.stop_lt
  have mapLe := mapping.proper.start_le
  split
  · have clampedProper : AddressRange.Proper ⟨space.id, max mapping.range.start range.start,
        min mapping.range.stop range.stop⟩ := ⟨by dsimp only; omega, by dsimp only; omega⟩
    obtain ⟨kept, shows⟩ := @insertTop_spec S _ space.id space.submaps _ submapped rfl clampedProper
      mapping.mappingRef mapping.properties
    refine ⟨_, rfl, kept, fun a mappingRef properties => (shows a mappingRef properties).trans ?_⟩
    have within : Within (bounds ⟨space.id, max mapping.range.start range.start,
        min mapping.range.stop range.stop⟩) a ↔
          Within (bounds range) a ∧ Within (bounds mapping.range) a := by
      unfold Within bounds
      dsimp only
      omega
    rw [within]
  · rename_i apart
    have none : ∀ a, ¬ (Within (bounds range) a ∧ Within (bounds mapping.range) a) := by
      rintro a ⟨⟨low, high⟩, low', high'⟩
      simp only [bounds] at low high low' high'
      exact apart ⟨same, by omega, by omega⟩
    refine ⟨space.submaps, rfl, submapped, fun a mappingRef properties => ?_⟩
    simp [none a]

omit mapE in
/-- The loop of `rebuild_range` over mappings of growing priority: of those that contain an address
of the range, the last one shows. -/
theorem foldlM_rebuildMapping_spec (proper : range.Proper) :
    ∀ (mappings : List (ℤ × SegmentMapping)) (space : AddressSpace S E),
    mappings.Pairwise (fun x y => x.1 < y.1) → Submapped space.id space.submaps →
    range.space = space.id →
    ∃ submaps, (mappings.map fun x => rebuilt x.2).foldlM (rebuildMapping range) space =
        .ok { space with submaps := submaps } ∧ Submapped space.id submaps ∧
      (∀ a, ¬ Within (bounds range) a → ∀ mappingRef properties,
        Shows submaps a mappingRef properties ↔ Shows space.submaps a mappingRef properties) ∧
      ∀ a, Within (bounds range) a → ∀ mappingRef properties,
        (Shows submaps a mappingRef properties ↔
          (∃ x ∈ mappings, Within (bounds x.2.range) a ∧ x.2.mappingRef = mappingRef ∧
            x.2.properties = properties ∧
            ∀ y ∈ mappings, Within (bounds y.2.range) a → y.1 ≤ x.1) ∨
          ((∀ x ∈ mappings, ¬ Within (bounds x.2.range) a) ∧
            Shows space.submaps a mappingRef properties)) := by
  intro mappings
  induction mappings with
  | nil =>
    intro space _ submapped _
    refine ⟨space.submaps, rfl, submapped, fun _ _ _ _ => Iff.rfl, fun a _ mappingRef properties => ?_⟩
    simp
  | cons x mappings ih =>
    intro space ascending submapped same
    obtain ⟨later, ascending'⟩ := pairwise_cons.mp ascending
    obtain ⟨first, step, firstMapped, firstShows⟩ := rebuildMapping_spec submapped same proper x.2
    obtain ⟨submaps, run, final, outside, inside⟩ :=
      ih { space with submaps := first } ascending' firstMapped same
    refine ⟨submaps, ?_, final, fun a out mappingRef properties => ?_,
      fun a in_ mappingRef properties => ?_⟩
    · rw [map_cons, foldlM_cons, step]
      exact run
    · rw [outside a out]
      exact (firstShows a mappingRef properties).trans (by simp [out])
    · rw [inside a in_, exists_mem_cons_iff]
      simp only [forall_mem_cons]
      have firstShows := firstShows a mappingRef properties
      simp only [in_, true_and] at firstShows
      by_cases covered : Within (bounds x.2.range) a
      · by_cases above : ∃ y ∈ mappings, Within (bounds y.2.range) a
        · obtain ⟨y, yMem, yWithin⟩ := above
          constructor
          · rintro (⟨z, zMem, zWithin, eqRef, eqProps, top⟩ | ⟨none, -⟩)
            · exact .inl (.inr ⟨z, zMem, zWithin, eqRef, eqProps,
                fun _ => (later z zMem).le, top⟩)
            · exact absurd yWithin (none y yMem)
          · rintro ((⟨-, -, -, -, top⟩ | ⟨z, zMem, zWithin, eqRef, eqProps, -, top⟩) | none)
            · exact absurd (top y yMem yWithin) (not_le.mpr (later y yMem))
            · exact .inl ⟨z, zMem, zWithin, eqRef, eqProps, top⟩
            · exact absurd covered none.1.1
        · have free : ∀ y ∈ mappings, ¬ Within (bounds y.2.range) a :=
            fun y yMem yWithin => above ⟨y, yMem, yWithin⟩
          simp only [covered, not_true_eq_false, false_and, or_false, true_and] at firstShows ⊢
          rw [firstShows]
          constructor
          · rintro (⟨z, zMem, zWithin, -⟩ | ⟨-, eqRef, eqProps⟩)
            · exact absurd zWithin (free z zMem)
            · exact .inl ⟨eqRef, eqProps, fun _ => le_rfl, fun y yMem yWithin =>
                absurd yWithin (free y yMem)⟩
          · rintro (⟨eqRef, eqProps, -⟩ | ⟨z, zMem, zWithin, -⟩)
            · exact .inr ⟨free, eqRef, eqProps⟩
            · exact absurd zWithin (free z zMem)
      · simp only [covered, not_false_eq_true, false_and, false_or, true_and, false_imp_iff]
          at firstShows ⊢
        rw [firstShows]

/-- What a rebuilt space keeps of the space before. -/
structure Rebuilt (space space' : AddressSpace S E) : Prop where
  id_eq : space'.id = space.id
  placements : space'.mappingPlacements = space.mappingPlacements

/-- Rebuilding a range from the placed mappings brings the submappings up to date over it. -/
theorem rebuild_spec (indexed : Indexed known space) (submapped : Submapped space.id space.submaps)
    (proper : range.Proper) :
    ∃ refs, space.mappingsOverlapping (inSpace space.id range) = .ok refs ∧
      Returns (fun space' => Rebuilt space space' ∧ Indexed known space' ∧
          Submapped space'.id space'.submaps ∧
          (∀ a, Within (bounds range) a → VisibleAt known space' a) ∧
          ∀ a, ¬ Within (bounds range) a → ∀ mappingRef properties,
            Shows space'.submaps a mappingRef properties ↔
              Shows space.submaps a mappingRef properties)
        (space.rebuildRange (inSpace space.id range) (refs.filterMap fun mappingRef =>
          (known mappingRef.mappingId).map fun mapping =>
            (mappingRef, mapping.range.start, mapping.size, mapping.properties))) := by
  obtain ⟨mappings, run, ascending, placed, complete⟩ :=
    mappingsOverlapping_spec indexed (inSpace space.id range)
  refine ⟨_, run, ?_⟩
  have listed : ((mappings.map fun x => x.2.mappingRef).filterMap fun mappingRef =>
      (known mappingRef.mappingId).map fun mapping =>
        (mappingRef, mapping.range.start, mapping.size, mapping.properties)) =
      mappings.map fun x => rebuilt x.2 := by
    rw [filterMap_map, ← filterMap_eq_map]
    refine filterMap_congr fun x mem => ?_
    have found := (placed x mem).1
    simp only [Function.comp_apply, SegmentMapping.mappingRef, found, Option.map_some]
    rfl
  rw [listed]
  obtain ⟨cut, -, cutShows⟩ := @cutRange_spec S _ space.id space.submaps
    (inSpace space.id range) submapped rfl proper.start_le
  have properHere : (inSpace space.id range).Proper := ⟨proper.start_le, proper.stop_lt⟩
  obtain ⟨submaps, loop, final, outside, inside⟩ := foldlM_rebuildMapping_spec properHere mappings
    { space with submaps := cutRange (inSpace space.id range) space.submaps }
    ascending cut rfl
  unfold AddressSpace.rebuildRange
  rw [show inSpace space.id (inSpace space.id range) = inSpace space.id range from rfl]
  dsimp only
  rw [loop]
  refine (returns_nextRevision _).bind fun revision _ => ?_
  refine ⟨⟨rfl, rfl⟩, ⟨indexed.placed, indexed.ordered, indexed.extents, indexed.single,
    indexed.limits, indexed.centred⟩, final, fun a in_ mappingRef properties => ?_,
    fun a out mappingRef properties => ?_⟩
  · apply (inside a in_ mappingRef properties).trans
    have hidden : ¬ Shows (cutRange (inSpace space.id range) space.submaps) a
        mappingRef properties := fun shown => ((cutShows a _ _).mp shown).1 in_
    rw [or_iff_left fun both => hidden both.2]
    constructor
    · rintro ⟨x, mem, within, eqRef, eqProps, top⟩
      obtain ⟨found, placement, placementMem, priority, rangeEq, -⟩ := placed x mem
      refine ⟨x.2.id, placement, x.2, ⟨placementMem, by rw [rangeEq]; exact within⟩, found, eqRef,
        eqProps, fun other rival over_ => ?_⟩
      obtain ⟨otherMem, otherWithin⟩ := over_
      obtain ⟨mapping, otherFound, rfl, otherRange, ordered⟩ := indexed.placed _ _ otherMem
      rw [otherRange] at otherWithin
      rw [priority]
      refine top (rival.priority, mapping) (complete _ ⟨otherFound, rival,
        otherMem, rfl, otherRange, ordered⟩ ?_ ?_) otherWithin
      · exact le_trans otherWithin.1 in_.2
      · exact le_trans in_.1 otherWithin.2
    · rintro ⟨id, placement, mapping, ⟨placementMem, within⟩, found, eqRef, eqProps, top⟩
      obtain ⟨mapping', found', rfl, rangeEq, ordered⟩ := indexed.placed _ _ placementMem
      cases found.symm.trans found'
      rw [rangeEq] at within
      refine ⟨(placement.priority, mapping), complete _ ⟨found, placement, placementMem, rfl,
        rangeEq, ordered⟩ (le_trans within.1 in_.2) (le_trans in_.1 within.2), within,
        eqRef, eqProps, fun y mem yWithin => ?_⟩
      obtain ⟨-, yPlacement, yMem, yPriority, yRange, -⟩ := placed y mem
      rw [← yPriority]
      exact top y.2.id yPlacement ⟨yMem, by rw [yRange]; exact yWithin⟩
  · apply (outside a out mappingRef properties).trans
    rw [cutShows]
    exact and_iff_right out

end Layout

end Fugue.Storage.Segments
