import Fugue.Storage.Segments.Placements
import Fugue.Storage.Segments.Storage

/-!
# The layout of a storage

What one operation on a space does to its layout (`addMappingTop_laid`, `addMappingBottom_laid`,
`deprioritise_spec`, `rebuild_laidOn`), then what the operations of the storage that rebuild spaces
do to the layout of all of them.
-/

namespace Fugue.Storage.Segments

open Fugue.Lib Fugue.Ir IntervalMap AddressSpace
open OrdMap (get?_eq_none get?_eq_some mem_erase mem_insert)

section Spaces

variable {S E : Type} [mapS : IntervalMap S SegmentSubMapping]
  [mapE : IntervalMap E SegmentMappingId]
  {known known' : SegmentMappingId → Option SegmentMapping} {space space' : AddressSpace S E}
  {a : ℕ}

omit mapS mapE in
theorem returns_touch (space : AddressSpace S E) :
    Returns (fun touched => ∃ revision, touched = { space with revision := revision })
      space.touch :=
  (returns_nextRevision _).bind fun revision _ => ⟨revision, rfl⟩

omit mapS in
theorem Indexed.withSubmaps (indexed : Indexed known space) (submaps : S) (revision : ℕ) :
    Indexed known { space with submaps := submaps, revision := revision } :=
  ⟨indexed.placed, indexed.ordered, indexed.extents, indexed.single, indexed.limits,
    indexed.centred⟩

omit mapS mapE in
theorem Reindexed.covers_iff {id : SegmentMappingId} {only : MappingPlacement → Prop}
    (reindexed : Reindexed space space' id only)
    (before : ∀ placement, (id, placement) ∈ space.mappingPlacements.entries →
      ¬ Within (bounds placement.range) a)
    (after : ∀ placement, only placement → ¬ Within (bounds placement.range) a)
    (other : SegmentMappingId) (placement : MappingPlacement) :
    Covers space' a other placement ↔ Covers space a other placement := by
  unfold Covers
  rw [reindexed.placements]
  constructor
  · rintro ⟨⟨rfl, holds⟩ | ⟨-, mem⟩, within⟩
    · exact absurd within (after placement holds)
    · exact ⟨mem, within⟩
  · rintro ⟨mem, within⟩
    by_cases same : other = id
    · subst same
      exact absurd within (before placement mem)
    · exact ⟨.inr ⟨same, mem⟩, within⟩

variable {mapping : SegmentMapping}

omit mapS in
theorem Indexed.range_eq (indexed : Indexed known space)
    (found : known mapping.id = some mapping) {placement : MappingPlacement}
    (mem : (mapping.id, placement) ∈ space.mappingPlacements.entries) :
    placement.range = inSpace space.id mapping.range := by
  obtain ⟨other, otherFound, -, range, -⟩ := indexed.placed _ _ mem
  rw [range, Option.some.inj (otherFound.symm.trans found)]

theorem addMappingTop_laid (laid : Laid known space) (found : known mapping.id = some mapping) :
    Returns (fun space' => Laid known space' ∧ space'.id = space.id)
      (space.addMappingTop mapping.mappingRef mapping.range.start mapping.size
        mapping.properties) := by
  apply returns_expect_bind (rangeFromSize_mapping mapping space.id)
  apply (returns_higher _).bind
  rintro _ rfl
  have indexed := laid.indexed
  have raised : Indexed known { space with highestPriority := space.highestPriority + 1 } :=
    ⟨indexed.placed, indexed.ordered, indexed.extents, indexed.single,
      fun priority mappingRef mem => by
        obtain ⟨low, high⟩ := indexed.limits priority mappingRef mem
        exact ⟨low, by dsimp only; omega⟩,
      ⟨indexed.centred.1, by have := indexed.centred.2; dsimp only; omega⟩⟩
  obtain ⟨placed, run, placedIndexed, reindexed⟩ := updateMappingPlacement_spec raised found
    (fun _ _ => rfl) (show space.lowestPriority ≤ space.highestPriority + 1 by
      have := indexed.centred
      omega) le_rfl (fun mappingRef mem => by
      have := (indexed.limits _ _ mem).2
      omega)
  apply returns_ok_bind run
  apply (returns_touch placed).bind
  rintro _ ⟨revision, rfl⟩
  have proper : (inSpace space.id mapping.range).Proper :=
    ⟨mapping.proper.start_le, mapping.proper.stop_lt⟩
  have submaps : placed.submaps = space.submaps := reindexed.submaps
  have idEq : placed.id = space.id := reindexed.id_eq
  obtain ⟨kept, shows⟩ := @insertTop_spec S _ space.id space.submaps _ laid.submapped rfl proper
    mapping.mappingRef mapping.properties
  have result : ({ placed with revision := revision } : AddressSpace S E).insertSubmapTop
      mapping.mappingRef (inSpace space.id mapping.range) mapping.properties =
      { placed with
        submaps := IntervalMap.insert (cutRange (inSpace space.id mapping.range)
          space.submaps) (bounds (inSpace space.id mapping.range))
          ⟨mapping.mappingRef, inSpace space.id mapping.range, mapping.properties⟩
        revision := revision } := by
    simp only [insertSubmapTop, submaps, idEq]
    rfl
  rw [result]
  refine ⟨⟨placedIndexed.withSubmaps _ _, by dsimp only; rw [idEq]; exact kept, fun a => ?_⟩, idEq⟩
  by_cases inside : Within (bounds mapping.range) a
  · -- the mapping is above all others
    have mem : (mapping.id, (⟨space.highestPriority + 1, inSpace space.id mapping.range⟩ :
        MappingPlacement)) ∈ placed.mappingPlacements.entries :=
      (reindexed.placements _ _).mpr (.inl ⟨rfl, rfl⟩)
    intro mappingRef properties
    apply (shows a mappingRef properties).trans
    constructor
    · rintro (⟨-, eqRef, eqProps⟩ | ⟨outside, -⟩)
      · refine ⟨mapping.id, _, mapping, ⟨mem, inside⟩, found, eqRef, eqProps, ?_⟩
        rintro other placement ⟨otherMem, -⟩
        obtain ⟨otherMapping, -, -, -, ordered⟩ := placedIndexed.placed _ _ otherMem
        have := (placedIndexed.limits _ _ ordered).2
        rw [reindexed.highest] at this
        exact this
      · exact absurd inside outside
    · rintro ⟨id, placement, other, ⟨otherMem, within⟩, otherFound, eqRef, eqProps, top⟩
      have above := top mapping.id _ ⟨mem, inside⟩
      rcases (reindexed.placements _ _).mp otherMem with ⟨rfl, -⟩ | ⟨-, old⟩
      · cases found.symm.trans otherFound
        exact .inl ⟨inside, eqRef, eqProps⟩
      · obtain ⟨_, -, -, -, ordered⟩ := indexed.placed _ _ old
        have := (indexed.limits _ _ ordered).2
        dsimp only at above
        omega
  · refine (laid.visible a).transfer (fun mappingRef properties => ?_) ?_ fun _ _ _ => rfl
    · apply (shows a mappingRef properties).trans
      rw [or_iff_right fun both => inside both.1]
      exact and_iff_right inside
    · refine reindexed.covers_iff (fun placement mem => ?_) (fun placement eq => ?_)
      · rw [indexed.range_eq found mem]
        exact inside
      · rw [eq]
        exact inside

theorem addMappingBottom_laid (laid : Laid known space) (found : known mapping.id = some mapping)
    (absent : ∀ placement, (mapping.id, placement) ∉ space.mappingPlacements.entries) :
    Returns (fun space' => Laid known space' ∧ space'.id = space.id)
      (space.addMappingBottom mapping.mappingRef mapping.range.start mapping.size
        mapping.properties) := by
  apply returns_expect_bind (rangeFromSize_mapping mapping space.id)
  apply (returns_lower _).bind
  rintro _ rfl
  have indexed := laid.indexed
  have lowered : Indexed known { space with lowestPriority := space.lowestPriority - 1 } :=
    ⟨indexed.placed, indexed.ordered, indexed.extents, indexed.single,
      fun priority mappingRef mem => by
        obtain ⟨low, high⟩ := indexed.limits priority mappingRef mem
        exact ⟨by dsimp only; omega, high⟩,
      ⟨by have := indexed.centred.1; dsimp only; omega, indexed.centred.2⟩⟩
  obtain ⟨placed, run, placedIndexed, reindexed⟩ := updateMappingPlacement_spec lowered found
    (fun _ _ => rfl) le_rfl (show space.lowestPriority - 1 ≤ space.highestPriority by
      have := indexed.centred
      omega) (fun mappingRef mem => by
      have := (indexed.limits _ _ mem).1
      dsimp only at this
      omega)
  apply returns_ok_bind run
  apply (returns_touch placed).bind
  rintro _ ⟨revision, rfl⟩
  have proper : (inSpace space.id mapping.range).Proper :=
    ⟨mapping.proper.start_le, mapping.proper.stop_lt⟩
  have submaps : placed.submaps = space.submaps := reindexed.submaps
  have idEq : placed.id = space.id := reindexed.id_eq
  obtain ⟨kept, shows⟩ := @fillGaps_spec S _ space.id space.submaps _ laid.submapped proper
    mapping.mappingRef mapping.properties
  rw [submaps]
  refine ⟨⟨placedIndexed.withSubmaps _ _, by dsimp only; rw [idEq]; exact kept, fun a => ?_⟩, idEq⟩
  have mem : (mapping.id, (⟨space.lowestPriority - 1, inSpace space.id mapping.range⟩ :
      MappingPlacement)) ∈ placed.mappingPlacements.entries :=
    (reindexed.placements _ _).mpr (.inl ⟨rfl, rfl⟩)
  have old : ∀ id placement, (id, placement) ∈ space.mappingPlacements.entries →
      (id, placement) ∈ placed.mappingPlacements.entries := by
    intro id placement oldMem
    exact (reindexed.placements _ _).mpr (.inr ⟨fun same => absent placement (same ▸ oldMem), oldMem⟩)
  have least : ∀ id placement, (id, placement) ∈ space.mappingPlacements.entries →
      space.lowestPriority - 1 < placement.priority := by
    intro id placement oldMem
    obtain ⟨_, -, -, -, ordered⟩ := indexed.placed _ _ oldMem
    have := (indexed.limits _ _ ordered).1
    omega
  by_cases inside : Within (bounds mapping.range) a
  · by_cases shown : ∃ x ∈ entries space.submaps, Within x.1 a
    · -- what was shown stays, above the new mapping
      obtain ⟨x, xMem, xWithin⟩ := shown
      obtain ⟨above, abovePlacement, -, aboveCovers, -⟩ := (laid.visible a _ _).mp
        ⟨x, xMem, xWithin, rfl, rfl⟩
      intro mappingRef properties
      apply (shows a mappingRef properties).trans
      rw [or_iff_left fun both => both.2.1 x xMem xWithin, laid.visible a mappingRef properties]
      constructor
      · rintro ⟨id, placement, other, ⟨oldMem, within⟩, otherFound, eqRef, eqProps, top⟩
        refine ⟨id, placement, other, ⟨old _ _ oldMem, within⟩, otherFound, eqRef, eqProps, ?_⟩
        rintro id' placement' ⟨mem', within'⟩
        rcases (reindexed.placements _ _).mp mem' with ⟨-, rfl⟩ | ⟨-, oldMem'⟩
        · exact (least _ _ oldMem).le
        · exact top id' placement' ⟨oldMem', within'⟩
      · rintro ⟨id, placement, other, ⟨mem', within⟩, otherFound, eqRef, eqProps, top⟩
        rcases (reindexed.placements _ _).mp mem' with ⟨-, rfl⟩ | ⟨-, oldMem⟩
        · have := top above abovePlacement ⟨old _ _ aboveCovers.1, aboveCovers.2⟩
          exact absurd this (not_le.mpr (least _ _ aboveCovers.1))
        · exact ⟨id, placement, other, ⟨oldMem, within⟩, otherFound, eqRef, eqProps,
            fun id' placement' covered => top id' placement' ⟨old _ _ covered.1, covered.2⟩⟩
    · -- nothing was placed here, or it would be shown
      have free : ∀ id placement, ¬ Covers space a id placement := by
        intro id placement covered
        obtain ⟨top, topPlacement, topCovers, greatest⟩ := exists_topmost covered
        obtain ⟨other, otherFound, -⟩ := indexed.placed _ _ topCovers.1
        obtain ⟨x, xMem, xWithin, -⟩ := (laid.visible a _ _).mpr
          ⟨top, topPlacement, other, topCovers, otherFound, rfl, rfl, greatest⟩
        exact shown ⟨x, xMem, xWithin⟩
      intro mappingRef properties
      apply (shows a mappingRef properties).trans
      constructor
      · rintro (⟨x, xMem, xWithin, -⟩ | ⟨-, -, eqRef, eqProps⟩)
        · exact absurd ⟨x, xMem, xWithin⟩ shown
        · refine ⟨mapping.id, _, mapping, ⟨mem, inside⟩, found, eqRef, eqProps, ?_⟩
          rintro id placement ⟨mem', within⟩
          rcases (reindexed.placements _ _).mp mem' with ⟨-, rfl⟩ | ⟨-, oldMem⟩
          · exact le_rfl
          · exact absurd ⟨oldMem, within⟩ (free id placement)
      · rintro ⟨id, placement, other, ⟨mem', within⟩, otherFound, eqRef, eqProps, -⟩
        rcases (reindexed.placements _ _).mp mem' with ⟨rfl, -⟩ | ⟨-, oldMem⟩
        · cases found.symm.trans otherFound
          exact .inr ⟨inside, fun x xMem xWithin => shown ⟨x, xMem, xWithin⟩, eqRef, eqProps⟩
        · exact absurd ⟨oldMem, within⟩ (free id placement)
  · refine (laid.visible a).transfer (fun mappingRef properties => ?_) ?_ fun _ _ _ => rfl
    · apply (shows a mappingRef properties).trans
      exact or_iff_left fun both => inside both.1
    · refine reindexed.covers_iff (fun placement oldMem => absurd oldMem (absent placement))
        (fun placement eq => ?_)
      rw [eq]
      exact inside

omit mapS in
theorem deprioritise_spec (indexed : Indexed known space) {id : SegmentMappingId}
    {placement : MappingPlacement} (mem : (id, placement) ∈ space.mappingPlacements.entries) :
    Returns (fun space' => Indexed known space' ∧
        Reindexed { space with lowestPriority := space.lowestPriority - 1 } space' id
          (fun other => other = ⟨space.lowestPriority - 1, placement.range⟩))
      (space.deprioritise id) := by
  obtain ⟨mapping, found, rfl, range, ordered⟩ := indexed.placed id placement mem
  unfold deprioritise
  rw [get?_eq_some.mpr mem]
  refine returns_expect_bind (get?_eq_some.mpr ordered) ?_
  apply (returns_lower _).bind
  rintro _ rfl
  have free : ∀ mappingRef, (space.lowestPriority - 1, mappingRef) ∉
      (space.mappingsByPriority.erase placement.priority).entries := by
    intro mappingRef inRest
    have := (indexed.limits _ _ (mem_erase.mp inRest).1).1
    omega
  dsimp only
  rw [get?_eq_none.mpr free, if_pos Option.isNone_none]
  apply (returns_touch _).mono
  rintro _ ⟨revision, rfl⟩
  have byPriority : ∀ entry, entry ∈ ((space.mappingsByPriority.erase placement.priority).insert
      (space.lowestPriority - 1) mapping.mappingRef).entries ↔
      entry = (space.lowestPriority - 1, mapping.mappingRef) ∨
        (entry ∈ space.mappingsByPriority.entries ∧ entry.1 ≠ placement.priority) := by
    intro entry
    rw [mem_insert, mem_erase]
    refine or_congr_right ⟨And.left, fun both => ⟨both, fun same => ?_⟩⟩
    have := (indexed.limits entry.1 entry.2 both.1).1
    omega
  have placements : ∀ entry, entry ∈ (space.mappingPlacements.insert mapping.id
      { placement with priority := space.lowestPriority - 1 }).entries ↔
      entry = (mapping.id, ⟨space.lowestPriority - 1, placement.range⟩) ∨
        (entry ∈ space.mappingPlacements.entries ∧ entry.1 ≠ mapping.id) :=
    fun entry => mem_insert
  refine ⟨⟨?_, ?_, ?_, indexed.single, ?_, ?_⟩, rfl, rfl, rfl, rfl, ?_⟩
  · intro other rival otherMem
    rcases (placements _).mp otherMem with eq | ⟨old, ne⟩
    · cases eq
      exact ⟨mapping, found, rfl, range, (byPriority _).mpr (.inl rfl)⟩
    · obtain ⟨otherMapping, otherFound, idEq, otherRange, otherOrdered⟩ := indexed.placed _ _ old
      exact ⟨otherMapping, otherFound, idEq, otherRange, (byPriority _).mpr (.inr ⟨otherOrdered,
        fun same => ne (indexed.eq_of_priority old mem same)⟩)⟩
  · intro priority mappingRef inOrder
    rcases (byPriority _).mp inOrder with eq | ⟨old, ne⟩
    · cases eq
      exact ⟨_, (placements _).mpr (.inl rfl), rfl⟩
    · obtain ⟨rival, otherMem, rfl⟩ := indexed.ordered _ _ old
      refine ⟨rival, (placements _).mpr (.inr ⟨otherMem, fun same => ne ?_⟩), rfl⟩
      rw [show mappingRef.mappingId = mapping.id from same] at otherMem
      rw [OrdMap.unique otherMem mem]
  · intro key other
    rw [indexed.extents]
    constructor
    · rintro ⟨rival, otherMem, rfl⟩
      by_cases same : other = mapping.id
      · subst same
        rw [OrdMap.unique otherMem mem]
        exact ⟨_, (placements _).mpr (.inl rfl), rfl⟩
      · exact ⟨rival, (placements _).mpr (.inr ⟨otherMem, same⟩), rfl⟩
    · rintro ⟨rival, otherMem, rfl⟩
      rcases (placements _).mp otherMem with eq | ⟨old, -⟩
      · cases eq
        exact ⟨placement, mem, rfl⟩
      · exact ⟨rival, old, rfl⟩
  · intro priority mappingRef inOrder
    have centred := indexed.centred
    rcases (byPriority _).mp inOrder with eq | ⟨old, -⟩
    · cases eq
      exact ⟨le_rfl, by dsimp only; omega⟩
    · have := indexed.limits _ _ old
      exact ⟨by dsimp only; omega, this.2⟩
  · have centred := indexed.centred
    exact ⟨by dsimp only; omega, centred.2⟩
  · intro other rival
    apply (placements (other, rival)).trans
    constructor
    · rintro (eq | ⟨old, ne⟩)
      · cases eq
        exact .inl ⟨rfl, rfl⟩
      · exact .inr ⟨ne, old⟩
    · rintro (⟨rfl, rfl⟩ | ⟨ne, old⟩)
      · exact .inl rfl
      · exact .inr ⟨old, ne⟩

/-- The layout where the submappings are known to be up to date at some addresses only. -/
structure LaidOn (known : SegmentMappingId → Option SegmentMapping) (space : AddressSpace S E)
    (upToDate : ℕ → Prop) : Prop where
  indexed : Indexed known space
  submapped : Submapped space.id space.submaps
  visible : ∀ a, upToDate a → VisibleAt known space a

theorem LaidOn.laid {upToDate : ℕ → Prop} (laid : LaidOn known space upToDate)
    (all : ∀ a, upToDate a) : Laid known space :=
  ⟨laid.indexed, laid.submapped, fun a => laid.visible a (all a)⟩

theorem rebuild_laidOn {upToDate : ℕ → Prop} (laid : LaidOn known space upToDate)
    {range : AddressRange} (proper : range.Proper) :
    ∃ refs, space.mappingsOverlapping (inSpace space.id range) = .ok refs ∧
      Returns (fun space' => Rebuilt space space' ∧
          LaidOn known space' fun a => Within (bounds range) a ∨ upToDate a)
        (space.rebuildRange (inSpace space.id range) (refs.filterMap fun mappingRef =>
          (known mappingRef.mappingId).map fun mapping =>
            (mappingRef, mapping.range.start, mapping.size, mapping.properties))) := by
  obtain ⟨refs, run, returns⟩ := rebuild_spec laid.indexed laid.submapped proper
  refine ⟨refs, run, returns.mono ?_⟩
  rintro space' ⟨same, indexed, submapped, inside, outside⟩
  refine ⟨same, indexed, submapped, fun a now => ?_⟩
  by_cases within : Within (bounds range) a
  · exact inside a within
  · refine (laid.visible a (now.resolve_left within)).transfer (outside a within) ?_
      fun _ _ _ => rfl
    intro id placement
    unfold Covers
    rw [same.placements]

end Spaces

namespace SegmentStorage

variable {D S E Error : Type} [mapS : IntervalMap S SegmentSubMapping]
  [mapE : IntervalMap E SegmentMappingId] {storage : SegmentStorage D S E}

section Rules

omit mapS mapE

theorem returns_andThen {α β : Type} {outcome : Except Panic (Outcome D S E Error α)}
    {next : SegmentStorage D S E → α → Except Panic (Outcome D S E Error β)}
    {post : Outcome D S E Error α → Prop} {post' : Outcome D S E Error β → Prop}
    (returns : Returns post outcome)
    (ok : ∀ storage result, post (storage, .ok result) → Returns post' (next storage result))
    (error : ∀ storage reason, post (storage, .error reason) → post' (storage, .error reason)) :
    Returns post' (andThen outcome next) := by
  apply returns.bind
  rintro ⟨storage, result⟩ holds
  cases result with
  | ok result => exact ok storage result holds
  | error reason => exact error storage reason holds

/-- A loop over ids: each round succeeds and leads from what holds before the rest of the ids and
this one to what holds before the rest. -/
theorem returns_forIds {body : SegmentStorage D S E → ℕ → Except Panic (Outcome D S E Error Unit)}
    (inv : List ℕ → SegmentStorage D S E → Prop)
    (round : ∀ id rest storage, inv (id :: rest) storage →
      Returns (fun out => out.2 = .ok () ∧ inv rest out.1) (body storage id)) :
    ∀ ids storage, inv ids storage →
      Returns (fun out => out.2 = .ok () ∧ inv [] out.1) (forIds body ids storage) := by
  intro ids
  induction ids with
  | nil => exact fun storage holds => ⟨rfl, holds⟩
  | cons id rest ih =>
    intro storage holds
    apply returns_andThen (round id rest storage holds)
    · intro next _ after
      exact ih next after.2
    · intro next reason after
      cases after.1

theorem returns_forIds_keeps
    {body : SegmentStorage D S E → ℕ → Except Panic (Outcome D S E Error Unit)}
    (inv : SegmentStorage D S E → Prop)
    (round : ∀ id storage, inv storage → Returns (fun out => inv out.1) (body storage id)) :
    ∀ ids storage, inv storage → Returns (fun out => inv out.1) (forIds body ids storage) := by
  intro ids
  induction ids with
  | nil => exact fun storage holds => holds
  | cons id rest ih =>
    intro storage holds
    exact returns_andThen (round id storage holds) (fun next _ after => ih next after)
      fun _ _ after => after

theorem returns_storageTouch (storage : SegmentStorage D S E) :
    Returns (fun touched => ∃ revision, touched = { storage with revision := revision })
      storage.touch :=
  (returns_nextRevision _).bind fun revision _ => ⟨revision, rfl⟩

theorem returns_touched {α : Type} {post : SegmentStorage D S E → Prop} {result : α}
    (holds : ∀ revision, post { storage with revision := revision }) :
    Returns (fun out => post out.1)
      (storage.touched result : Except Panic (Outcome D S E Error α)) := by
  apply (returns_storageTouch storage).bind
  rintro _ ⟨revision, rfl⟩
  exact holds revision

theorem returns_touched_ok {α : Type} {post : SegmentStorage D S E → Prop} {result : α}
    (holds : ∀ revision, post { storage with revision := revision }) :
    Returns (fun out => out.2 = .ok result ∧ post out.1)
      (storage.touched result : Except Panic (Outcome D S E Error α)) := by
  apply (returns_storageTouch storage).bind
  rintro _ ⟨revision, rfl⟩
  exact ⟨rfl, holds revision⟩

end Rules

/-- Every mapping stands under its id, below the ids to come, and every space under its own, laid
out by the priorities of the mappings. -/
structure LaidOut (storage : SegmentStorage D S E) : Prop where
  mappings : ∀ id mapping, (id, mapping) ∈ storage.mappings.entries →
    mapping.id = id ∧ id < storage.mappingCtr
  spaces : ∀ id space, (id, space) ∈ storage.spaces.entries →
    space.id = id ∧ Laid storage.mappings.get? space

/-- The storage differs in one space only. -/
structure Respaced (storage storage' : SegmentStorage D S E) (spaceId : AddressSpaceId)
    (post : AddressSpace S E → Prop) : Prop where
  mappings : storage'.mappings = storage.mappings
  mappingCtr : storage'.mappingCtr = storage.mappingCtr
  here : ∃ space, (spaceId, space) ∈ storage'.spaces.entries ∧ post space
  elsewhere : ∀ id space, id ≠ spaceId → ((id, space) ∈ storage'.spaces.entries ↔
    (id, space) ∈ storage.spaces.entries)

section Respaced

omit mapS mapE

variable {storage' storage'' : SegmentStorage D S E} {spaceId : AddressSpaceId}
  {post post' : AddressSpace S E → Prop}

theorem respaced_insert {space : AddressSpace S E} (holds : post space) :
    Respaced storage { storage with spaces := storage.spaces.insert spaceId space } spaceId
      post := by
  refine ⟨rfl, rfl, ⟨space, mem_insert.mpr (.inl rfl), holds⟩, fun id other ne => ?_⟩
  rw [mem_insert]
  constructor
  · rintro (eq | ⟨mem, -⟩)
    · exact absurd (congrArg Prod.fst eq) ne
    · exact mem
  · intro mem
    exact .inr ⟨mem, ne⟩

theorem respaced_insert_any (storage : SegmentStorage D S E) (spaceId : AddressSpaceId)
    (space : AddressSpace S E) :
    Respaced storage { storage with spaces := storage.spaces.insert spaceId space } spaceId
      fun _ => True :=
  respaced_insert trivial

theorem Respaced.trans (first : Respaced storage storage' spaceId post)
    (second : Respaced storage' storage'' spaceId post') :
    Respaced storage storage'' spaceId post' :=
  ⟨second.mappings.trans first.mappings, second.mappingCtr.trans first.mappingCtr, second.here,
    fun id space ne => (second.elsewhere id space ne).trans (first.elsewhere id space ne)⟩

end Respaced

variable {spaceId : AddressSpaceId}

theorem LaidOut.respaced (laidOut : LaidOut storage) {storage' : SegmentStorage D S E}
    (respaced : Respaced storage storage' spaceId fun space =>
      space.id = spaceId ∧ Laid storage.mappings.get? space) : LaidOut storage' := by
  refine ⟨?_, fun id space mem => ?_⟩
  · rw [respaced.mappings, respaced.mappingCtr]
    exact laidOut.mappings
  · rw [respaced.mappings]
    by_cases same : id = spaceId
    · subst same
      obtain ⟨here, hereMem, holds⟩ := respaced.here
      rw [OrdMap.unique mem hereMem]
      exact holds
    · exact laidOut.spaces id space ((respaced.elsewhere id space same).mp mem)

variable {space : AddressSpace S E}

theorem rebuildSubmapsInRange_spec
    (mem : (spaceId, space) ∈ storage.spaces.entries) {upToDate : ℕ → Prop}
    (laid : LaidOn storage.mappings.get? space upToDate) {range : AddressRange} (proper : range.Proper) :
    Returns (fun out => out.2 = .ok () ∧ Respaced storage out.1 spaceId fun space' =>
        Rebuilt space space' ∧ LaidOn storage.mappings.get? space' fun a =>
          Within (bounds range) a ∨ upToDate a)
      (storage.rebuildSubmapsInRange spaceId range : Except Panic (Outcome D S E Error Unit)) := by
  obtain ⟨refs, run, returns⟩ := rebuild_laidOn laid proper
  unfold rebuildSubmapsInRange
  rw [get?_eq_some.mpr mem]
  apply returns_ok_bind run
  refine returns.bind fun space' after => ?_
  exact ⟨rfl, respaced_insert after⟩

theorem updateMappingInSpace_spec {known : SegmentMappingId → Option SegmentMapping}
    {old new : SegmentMapping} (sameId : new.id = old.id) (wasKnown : known old.id = some old)
    (nowKnown : storage.mappings.get? old.id = some new)
    (agree : ∀ id, id ≠ old.id → storage.mappings.get? id = known id)
    (mem : (spaceId, space) ∈ storage.spaces.entries)
    (idEq : space.id = spaceId) (laid : Laid known space) {placement : MappingPlacement}
    (placed : (old.id, placement) ∈ space.mappingPlacements.entries) :
    Returns (fun out => out.2 = .ok () ∧ Respaced storage out.1 spaceId fun space' =>
        space'.id = spaceId ∧ Laid storage.mappings.get? space')
      (storage.updateMappingInSpace new.mappingRef old.range new.range spaceId :
        Except Panic (Outcome D S E Error Unit)) := by
  have indexed := laid.indexed
  obtain ⟨oldMapping, oldFound, oldId, oldRange, ordered⟩ := indexed.placed _ _ placed
  have limits := indexed.limits _ _ ordered
  have found : storage.mappings.get? new.id = some new := by
    rw [sameId]
    exact nowKnown
  obtain ⟨updated, run, updatedIndexed, reindexed⟩ := updateMappingPlacement_spec indexed found
    (fun id ne => agree id (sameId ▸ ne)) limits.1 limits.2 (fun mappingRef inOrder => by
      rw [OrdMap.unique inOrder ordered, sameId]
      exact oldId)
  unfold updateMappingInSpace
  rw [get?_eq_some.mpr mem]
  have follow : Returns (fun space' => space'.id = spaceId ∧ LaidOn storage.mappings.get? space'
      fun a => ¬ Within (bounds old.range) a ∧ ¬ Within (bounds new.range) a)
      (space.updateMappingRef new.mappingRef new.range) := by
    apply returns_expect_bind (a := placement)
    · rw [show new.mappingRef.mappingId = old.id from sameId]
      exact get?_eq_some.mpr placed
    · refine returns_ok_bind run ((returns_touch updated).mono ?_)
      rintro _ ⟨revision, rfl⟩
      refine ⟨reindexed.id_eq.trans idEq, ⟨updatedIndexed.placed, updatedIndexed.ordered,
        updatedIndexed.extents, updatedIndexed.single, updatedIndexed.limits,
        updatedIndexed.centred⟩, ?_, fun a outside => ?_⟩
      · rw [reindexed.submaps, reindexed.id_eq]
        exact laid.submapped
      · refine (laid.visible a).transfer (fun _ _ => ?_) (fun other rival => ?_)
          fun id rival covered => ?_
        · rw [reindexed.submaps]
        · refine reindexed.covers_iff (fun other otherMem => ?_) (fun other eq => ?_) other
            rival
          · rw [sameId] at otherMem
            rw [indexed.range_eq wasKnown otherMem]
            exact outside.1
          · rw [eq]
            exact outside.2
        · refine agree id fun same => ?_
          subst same
          apply outside.1
          have within := covered.2
          rw [indexed.range_eq wasKnown covered.1] at within
          exact within
  apply follow.bind
  rintro space' ⟨idEq', laidOn⟩
  refine returns_andThen (@rebuildSubmapsInRange_spec D S E Error _ _
    { storage with spaces := storage.spaces.insert spaceId space' } spaceId space'
    (mem_insert.mpr (.inl rfl)) _ laidOn _ old.proper) ?_
    fun _ _ after => nomatch after.1
  rintro next _ ⟨-, respaced⟩
  obtain ⟨space'', mem'', rebuilt, laidOn''⟩ := respaced.here
  have idEq'' : space''.id = spaceId := rebuilt.id_eq.trans idEq'
  have start : Respaced storage next spaceId fun _ => True :=
    (respaced_insert_any storage spaceId space').trans
      ⟨respaced.mappings, respaced.mappingCtr, ⟨space'', mem'', trivial⟩, respaced.elsewhere⟩
  have mappings : next.mappings = storage.mappings := respaced.mappings
  split
  · rw [← mappings] at laidOn''
    apply (rebuildSubmapsInRange_spec mem'' laidOn'' new.proper).mono
    rintro ⟨final, result⟩ ⟨ok, respaced'⟩
    refine ⟨ok, start.trans ⟨respaced'.mappings, respaced'.mappingCtr, ?_, respaced'.elsewhere⟩⟩
    obtain ⟨last, lastMem, lastRebuilt, lastLaid⟩ := respaced'.here
    rw [mappings] at lastLaid
    refine ⟨last, lastMem, lastRebuilt.id_eq.trans idEq'', lastLaid.laid fun a => ?_⟩
    tauto
  · rename_i same
    rw [ne_eq, not_not] at same
    refine ⟨rfl, start.trans ⟨rfl, rfl, ⟨space'', mem'', idEq'', laidOn''.laid fun a => ?_⟩,
      fun _ _ _ => Iff.rfl⟩⟩
    rw [same]
    tauto

variable {mapping : SegmentMapping}

theorem removeMappingFromSpace_spec (found : storage.mappings.get? mapping.id = some mapping)
    (mem : (spaceId, space) ∈ storage.spaces.entries)
    (idEq : space.id = spaceId) (laid : Laid storage.mappings.get? space)
    {placement : MappingPlacement}
    (placed : (mapping.id, placement) ∈ space.mappingPlacements.entries) :
    Returns (fun out => out.2 = .ok () ∧ Respaced storage out.1 spaceId fun space' =>
        space'.id = spaceId ∧ Laid storage.mappings.get? space' ∧
          ∀ other, (mapping.id, other) ∉ space'.mappingPlacements.entries)
      (storage.removeMappingFromSpace mapping.id mapping.range spaceId :
        Except Panic (Outcome D S E Error Unit)) := by
  have indexed := laid.indexed
  obtain ⟨removed, run, removedIndexed, reindexed, -⟩ := removePlacement_spec indexed placed
  have absent : ∀ other, (mapping.id, other) ∉ removed.mappingPlacements.entries := by
    intro other inRest
    rcases (reindexed.placements _ _).mp inRest with ⟨-, impossible⟩ | ⟨ne, -⟩
    · exact impossible
    · exact ne rfl
  unfold removeMappingFromSpace
  rw [get?_eq_some.mpr mem]
  apply returns_ok_bind (a := some removed)
  · unfold removeMappingRef
    rw [get?_eq_some.mpr placed]
    dsimp only
    rw [run]
    rfl
  · have laidOn : LaidOn storage.mappings.get? removed fun a =>
        ¬ Within (bounds mapping.range) a := by
      refine ⟨removedIndexed, by rw [reindexed.id_eq, reindexed.submaps]; exact laid.submapped,
        fun a outside => (laid.visible a).transfer (fun _ _ => by rw [reindexed.submaps])
          (reindexed.covers_iff (fun other otherMem => ?_) fun _ impossible => impossible.elim)
          fun _ _ _ => rfl⟩
      rw [indexed.range_eq found otherMem]
      exact outside
    have removedId : removed.id = spaceId := reindexed.id_eq.trans idEq
    refine (@rebuildSubmapsInRange_spec D S E Error _ _
      { storage with spaces := storage.spaces.insert spaceId removed } spaceId removed
      (mem_insert.mpr (.inl rfl)) _ laidOn _ mapping.proper).mono ?_
    rintro ⟨next, result⟩ ⟨ok, respaced⟩
    obtain ⟨last, lastMem, rebuilt, lastLaid⟩ := respaced.here
    refine ⟨ok, (respaced_insert_any storage spaceId removed).trans ⟨respaced.mappings,
      respaced.mappingCtr, ⟨last, lastMem, rebuilt.id_eq.trans removedId,
        lastLaid.laid fun a => em _, fun other inLast => ?_⟩, respaced.elsewhere⟩⟩
    rw [rebuilt.placements] at inLast
    exact absent other inLast

omit mapS mapE in
theorem containsMapping_iff {id : SegmentMappingId} :
    space.containsMapping id = true ↔
      ∃ placement, (id, placement) ∈ space.mappingPlacements.entries := by
  unfold containsMapping
  rw [Option.isSome_iff_exists]
  exact exists_congr fun placement => get?_eq_some

theorem mappingSpaceIds_spec (laidOut : LaidOut storage) (mappingId : SegmentMappingId) :
    (storage.mappingSpaceIds mappingId).Nodup ∧ ∀ id, id ∈ storage.mappingSpaceIds mappingId ↔
      ∃ space, (id, space) ∈ storage.spaces.entries ∧
        ∃ placement, (mappingId, placement) ∈ space.mappingPlacements.entries := by
  have keys : storage.mappingSpaceIds mappingId =
      (storage.spaces.entries.filter fun entry => entry.2.containsMapping mappingId).map
        Prod.fst := by
    refine List.map_congr_left fun entry mem => ?_
    exact (laidOut.spaces entry.1 entry.2 (List.mem_filter.mp mem).1).1
  rw [keys]
  refine ⟨?_, fun id => ?_⟩
  · rw [List.Nodup, List.pairwise_map]
    exact (storage.spaces.sorted.filter _).imp fun lt => ne_of_lt lt
  · rw [List.mem_map]
    constructor
    · rintro ⟨⟨key, space⟩, mem, rfl⟩
      obtain ⟨inSpaces, contains⟩ := List.mem_filter.mp mem
      exact ⟨space, inSpaces, containsMapping_iff.mp contains⟩
    · rintro ⟨space, inSpaces, placed⟩
      exact ⟨(id, space), List.mem_filter.mpr ⟨inSpaces, containsMapping_iff.mpr placed⟩, rfl⟩

theorem updateMapping_spec (laidOut : LaidOut storage) {old new : SegmentMapping}
    (sameId : new.id = old.id) (found : storage.mappings.get? old.id = some old) :
    Returns (fun out => out.2 = .ok () ∧ LaidOut out.1)
      (storage.updateMapping old new : Except Panic (Outcome D S E Error Unit)) := by
  unfold updateMapping
  have nowKnown : (storage.mappings.insert old.id new).get? old.id = some new :=
    OrdMap.get?_insert_self
  have agree : ∀ id, id ≠ old.id →
      (storage.mappings.insert old.id new).get? id = storage.mappings.get? id :=
    fun id ne => OrdMap.get?_insert_ne ne
  obtain ⟨nodup, members⟩ := mappingSpaceIds_spec laidOut old.id
  refine returns_andThen (returns_forIds (fun rest after =>
    after.mappings = storage.mappings.insert old.id new ∧ after.mappingCtr = storage.mappingCtr ∧
      rest.Nodup ∧ (∀ id ∈ rest, ∃ space, (id, space) ∈ after.spaces.entries ∧
        Laid storage.mappings.get? space ∧
          ∃ placement, (old.id, placement) ∈ space.mappingPlacements.entries) ∧
      ∀ id space, (id, space) ∈ after.spaces.entries → space.id = id ∧ (id ∉ rest →
        Laid (storage.mappings.insert old.id new).get? space)) ?_ _ _ ?_) ?_ ?_
  · rintro id rest after ⟨mappings, counter, restNodup, waiting, all⟩
    obtain ⟨notMem, restNodup⟩ := List.nodup_cons.mp restNodup
    obtain ⟨⟨space, mem, laid, placement, placed⟩, waiting⟩ := List.forall_mem_cons.mp waiting
    refine (@updateMappingInSpace_spec D S E Error _ _ after id space storage.mappings.get? old new
      sameId found (by rw [mappings]; exact nowKnown) (by rw [mappings]; exact agree) mem
      (all id space mem).1 laid placement placed).mono ?_
    rintro ⟨next, result⟩ ⟨ok, respaced⟩
    refine ⟨ok, respaced.mappings.trans mappings, respaced.mappingCtr.trans counter, restNodup,
      fun other otherMem => ?_, fun other otherSpace otherMem => ?_⟩
    · obtain ⟨otherSpace, inSpaces, holds⟩ := waiting other otherMem
      exact ⟨otherSpace, (respaced.elsewhere other otherSpace fun same =>
        notMem (same ▸ otherMem)).mpr inSpaces, holds⟩
    · by_cases same : other = id
      · subst same
        obtain ⟨here, hereMem, hereId, hereLaid⟩ := respaced.here
        rw [OrdMap.unique otherMem hereMem]
        rw [mappings] at hereLaid
        exact ⟨hereId, fun _ => hereLaid⟩
      · obtain ⟨otherId, otherLaid⟩ :=
          all other otherSpace ((respaced.elsewhere other otherSpace same).mp otherMem)
        exact ⟨otherId, fun notRest => otherLaid fun inAll => (List.mem_cons.mp inAll).elim same
          notRest⟩
  · refine ⟨rfl, rfl, nodup, fun id mem => ?_, fun id space mem => ?_⟩
    · obtain ⟨space, inSpaces, placed⟩ := (members id).mp mem
      exact ⟨space, inSpaces, (laidOut.spaces id space inSpaces).2, placed⟩
    · obtain ⟨idEq, laid⟩ := laidOut.spaces id space mem
      refine ⟨idEq, fun notMem => laid.congr fun other placement placed => agree other ?_⟩
      rintro rfl
      exact notMem ((members id).mpr ⟨space, mem, placement, placed⟩)
  · rintro after _ ⟨-, mappings, counter, -, -, all⟩
    refine returns_touched_ok fun revision => ⟨fun id mapping mem => ?_, fun id space mem => ?_⟩
    · rw [mappings] at mem
      rw [counter]
      rcases mem_insert.mp mem with eq | ⟨was, -⟩
      · cases eq
        exact ⟨sameId, (laidOut.mappings _ _ (get?_eq_some.mp found)).2⟩
      · exact laidOut.mappings id mapping was
    · obtain ⟨idEq, laid⟩ := all id space mem
      refine ⟨idEq, ?_⟩
      rw [mappings]
      exact laid (by simp)
  · rintro after reason ⟨impossible, -⟩
    cases impossible

theorem removeMapping_spec (laidOut : LaidOut storage)
    (found : storage.mappings.get? mapping.id = some mapping) :
    Returns (fun out => out.2 = .ok () ∧ LaidOut out.1)
      (storage.removeMapping mapping.id : Except Panic (Outcome D S E Error Unit)) := by
  unfold removeMapping
  rw [found]
  obtain ⟨nodup, members⟩ := mappingSpaceIds_spec laidOut mapping.id
  refine returns_andThen (returns_forIds (fun rest after =>
    after.mappings = storage.mappings ∧ after.mappingCtr = storage.mappingCtr ∧ rest.Nodup ∧
      (∀ id ∈ rest, ∃ space, (id, space) ∈ after.spaces.entries ∧
        ∃ placement, (mapping.id, placement) ∈ space.mappingPlacements.entries) ∧
      ∀ id space, (id, space) ∈ after.spaces.entries → space.id = id ∧
        Laid storage.mappings.get? space ∧ (id ∉ rest →
          ∀ placement, (mapping.id, placement) ∉ space.mappingPlacements.entries))
    ?_ _ _ ?_) ?_ ?_
  · rintro id rest after ⟨mappings, counter, restNodup, waiting, all⟩
    obtain ⟨notMem, restNodup⟩ := List.nodup_cons.mp restNodup
    obtain ⟨⟨space, mem, placement, placed⟩, waiting⟩ := List.forall_mem_cons.mp waiting
    obtain ⟨idEq, laid, -⟩ := all id space mem
    refine (@removeMappingFromSpace_spec D S E Error _ _ after id space mapping
      (by rw [mappings]; exact found) mem idEq (by rw [mappings]; exact laid) placement
      placed).mono ?_
    rintro ⟨next, result⟩ ⟨ok, respaced⟩
    refine ⟨ok, respaced.mappings.trans mappings, respaced.mappingCtr.trans counter, restNodup,
      fun other otherMem => ?_, fun other otherSpace otherMem => ?_⟩
    · obtain ⟨otherSpace, inSpaces, holds⟩ := waiting other otherMem
      exact ⟨otherSpace, (respaced.elsewhere other otherSpace fun same =>
        notMem (same ▸ otherMem)).mpr inSpaces, holds⟩
    · by_cases same : other = id
      · subst same
        obtain ⟨here, hereMem, hereId, hereLaid, absent⟩ := respaced.here
        rw [OrdMap.unique otherMem hereMem]
        rw [mappings] at hereLaid
        exact ⟨hereId, hereLaid, fun _ => absent⟩
      · obtain ⟨otherId, otherLaid, otherAbsent⟩ :=
          all other otherSpace ((respaced.elsewhere other otherSpace same).mp otherMem)
        exact ⟨otherId, otherLaid, fun notRest => otherAbsent fun inAll =>
          (List.mem_cons.mp inAll).elim same notRest⟩
  · refine ⟨rfl, rfl, nodup, fun id mem => (members id).mp mem, fun id space mem => ?_⟩
    obtain ⟨idEq, laid⟩ := laidOut.spaces id space mem
    exact ⟨idEq, laid, fun notMem placement placed =>
      notMem ((members id).mpr ⟨space, mem, placement, placed⟩)⟩
  · rintro after _ ⟨-, mappings, counter, -, -, all⟩
    apply returns_expect_bind (a := mapping) (by rw [mappings]; exact found)
    refine returns_touched_ok fun revision => ⟨fun id other mem => ?_, fun id space mem => ?_⟩
    · rw [mappings] at mem
      rw [counter]
      exact laidOut.mappings id other (mem_erase.mp mem).1
    · obtain ⟨idEq, laid, absent⟩ := all id space mem
      refine ⟨idEq, laid.congr fun other placement placed => ?_⟩
      rw [mappings]
      exact OrdMap.get?_erase_ne fun same => absent (by simp) placement (same ▸ placed)
  · rintro after reason ⟨impossible, -⟩
    cases impossible

theorem removeMapping_laidOut (laidOut : LaidOut storage) (id : SegmentMappingId) :
    Returns (fun out => LaidOut out.1)
      (storage.removeMapping id : Except Panic (Outcome D S E Error Unit)) := by
  cases found : storage.mappings.get? id with
  | none =>
    unfold removeMapping
    rw [found]
    exact laidOut
  | some mapping =>
    obtain ⟨rfl, -⟩ := laidOut.mappings id mapping (get?_eq_some.mp found)
    exact (removeMapping_spec laidOut found).mono fun _ after => after.2

omit mapS mapE in
theorem returns_newId (index : ℕ) : Returns (fun id => id = index) (newId index) := by
  unfold newId
  split <;> rfl

theorem fromBuilder_id {id : SegmentMappingId} {builder : SegmentMappingBuilder}
    (made : SegmentMapping.fromBuilder id builder = some mapping) :
    mapping.id = id := by
  unfold SegmentMapping.fromBuilder at made
  split at made
  · cases made
  · cases made
    rfl

section

variable (laidOut : LaidOut storage)
include laidOut

/-- The layout does not depend on the providers and the other counters. -/
theorem LaidOut.congr {storage' : SegmentStorage D S E}
    (mappings : storage'.mappings = storage.mappings) (spaces : storage'.spaces = storage.spaces)
    (counter : storage.mappingCtr ≤ storage'.mappingCtr) : LaidOut storage' := by
  refine ⟨?_, ?_⟩
  · rw [mappings]
    intro id mapping mem
    obtain ⟨idEq, lt⟩ := laidOut.mappings id mapping mem
    exact ⟨idEq, lt.trans_le counter⟩
  · rw [mappings, spaces]
    exact laidOut.spaces

theorem LaidOut.insertMapping (fresh : storage.mappings.get? mapping.id = none) {counter : ℕ}
    (le : storage.mappingCtr ≤ counter) (lt : mapping.id < counter) (revision : ℕ) :
    LaidOut { storage with
      mappingCtr := counter
      mappings := storage.mappings.insert mapping.id mapping
      revision := revision } := by
  refine ⟨fun id other mem => ?_, fun id space mem => ?_⟩
  · rcases mem_insert.mp mem with eq | ⟨old, -⟩
    · cases eq
      exact ⟨rfl, lt⟩
    · obtain ⟨idEq, below⟩ := laidOut.mappings id other old
      exact ⟨idEq, below.trans_le le⟩
  · obtain ⟨idEq, laid⟩ := laidOut.spaces id space mem
    refine ⟨idEq, laid.congr fun other placement placed => OrdMap.get?_insert_ne ?_⟩
    rintro rfl
    obtain ⟨known, found, -⟩ := laid.indexed.placed _ _ placed
    cases fresh.symm.trans found

theorem LaidOut.fresh {id : SegmentMappingId}
    (le : storage.mappingCtr ≤ id) : storage.mappings.get? id = none := by
  refine get?_eq_none.mpr fun mapping mem => ?_
  exact absurd (laidOut.mappings id mapping mem).2 (not_lt.mpr le)

theorem LaidOut.insertSpace (id : AddressSpaceId)
    (kind : AddressSpaceKind) (name : Option String) (counter revision : ℕ) :
    LaidOut { storage with
      spaceCtr := counter
      spaces := storage.spaces.insert id { newWith id kind with name := name }
      revision := revision } := by
  refine ⟨laidOut.mappings, fun other space mem => ?_⟩
  rcases mem_insert.mp mem with eq | ⟨old, -⟩
  · cases eq
    exact ⟨rfl, laid_newWith _ _ _⟩
  · exact laidOut.spaces other space old

theorem LaidOut.placeSpace
    {space placed : AddressSpace S E} (mem : (spaceId, space) ∈ storage.spaces.entries)
    (laid : Laid storage.mappings.get? placed) (idEq : placed.id = space.id) (revision : ℕ) :
    LaidOut { storage with
      spaces := storage.spaces.insert spaceId placed
      revision := revision } := by
  have respaced : LaidOut { storage with spaces := storage.spaces.insert spaceId placed } :=
    laidOut.respaced (respaced_insert ⟨idEq.trans (laidOut.spaces spaceId space mem).1, laid⟩)
  exact respaced.congr rfl rfl le_rfl

theorem deprioritiseMapping_laidOut (spaceId : AddressSpaceId)
    (mappingId : SegmentMappingId) : Returns (fun out => LaidOut out.1)
      (storage.deprioritiseMapping spaceId mappingId :
        Except Panic (Outcome D S E Error Unit)) := by
  unfold deprioritiseMapping
  split
  · exact laidOut
  · rename_i mapping found
    split
    · exact laidOut
    · rename_i space inSpaces
      have mem := get?_eq_some.mp inSpaces
      obtain ⟨rfl, -⟩ := laidOut.mappings _ _ (get?_eq_some.mp found)
      obtain ⟨idEq, laid⟩ := laidOut.spaces _ _ mem
      split
      · rename_i contains
        obtain ⟨placement, placed⟩ := containsMapping_iff.mp contains
        have range := laid.indexed.range_eq found placed
        apply (deprioritise_spec laid.indexed placed).bind
        rintro lowered ⟨indexed, reindexed⟩
        apply (returns_storageTouch _).bind
        rintro _ ⟨revision, rfl⟩
        -- only where the mapping is can something else show now
        have laidOn : LaidOn storage.mappings.get? lowered fun a =>
            ¬ Within (bounds mapping.range) a := by
          refine ⟨indexed, by rw [reindexed.id_eq, reindexed.submaps]; exact laid.submapped,
            fun a outside => ?_⟩
          have before : VisibleAt storage.mappings.get?
              { space with lowestPriority := space.lowestPriority - 1 } a := laid.visible a
          refine before.transfer (fun _ _ => by rw [reindexed.submaps])
            (reindexed.covers_iff (fun other otherMem => ?_) fun other eq => ?_) fun _ _ _ => rfl
          · rw [laid.indexed.range_eq found otherMem]
            exact outside
          · rw [eq, range]
            exact outside
        refine (@rebuildSubmapsInRange_spec D S E Error _ _
          { storage with
            spaces := storage.spaces.insert spaceId lowered
            revision := revision } spaceId lowered (mem_insert.mpr (.inl rfl)) _ laidOn _
          mapping.proper).mono ?_
        rintro ⟨after, result⟩ ⟨-, respaced⟩
        obtain ⟨last, lastMem, rebuilt, lastLaid⟩ := respaced.here
        have start : Respaced storage after spaceId fun space' =>
            space'.id = spaceId ∧ Laid storage.mappings.get? space' :=
          (respaced_insert_any storage spaceId lowered).trans ⟨respaced.mappings,
            respaced.mappingCtr, ⟨last, lastMem, rebuilt.id_eq.trans (reindexed.id_eq.trans idEq),
              lastLaid.laid fun a => em _⟩, respaced.elsewhere⟩
        exact laidOut.respaced start
      · exact laidOut

end

theorem setStart_id {start : Address} :
    Returns (fun moved => ∀ new, moved = some new → new.id = mapping.id)
      (mapping.setStart start) := by
  unfold SegmentMapping.setStart
  split
  · exact fun _ impossible => nomatch impossible
  · refine (returns_nextRevision _).bind fun revision _ => ?_
    intro new eq
    cases eq
    rfl

theorem setSize_id {size : UInt64} :
    Returns (fun resized => ∀ new, resized = some new → new.id = mapping.id)
      (mapping.setSize size) := by
  unfold SegmentMapping.setSize
  split
  · exact fun _ impossible => nomatch impossible
  · refine (returns_nextRevision _).bind fun revision _ => ?_
    intro new eq
    cases eq
    rfl

theorem empty_laidOut : LaidOut (empty : SegmentStorage D S E) := by
  refine ⟨?_, fun id space mem => ?_⟩
  · intro _ _ mem
    cases mem
  rcases mem_insert.mp mem with eq | ⟨impossible, -⟩
  · cases eq
    exact ⟨rfl, laid_newWith 0 .base none⟩
  · cases impossible

end SegmentStorage

end Fugue.Storage.Segments
