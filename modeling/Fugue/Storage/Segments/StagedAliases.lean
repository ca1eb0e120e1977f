import Fugue.Storage.Segments.StagedWrite

/-!
# The ranges of a staged write

A write to a provider is reported wherever a mapping of the provider is placed. The mappings that
are looked at are those that staging knows (`mem_pendingIds`), and a mapping is placed in the spaces
in which it stands (`mem_placementSpaces`).
-/

namespace Fugue.Storage.Segments.SegmentStorageStaging

open Fugue.Lib Fugue.Ir List OrdMap
open SegmentStorage (LaidOut)

variable {D S E : Type} [mapS : IntervalMap S SegmentSubMapping]
  [mapE : IntervalMap E SegmentMappingId]
  {storage : SegmentStorage D S E} {staging : SegmentStorageStaging} {space : AddressSpaceId}
  {id : SegmentMappingId} {provider : SegmentStorageProviderId}

/-! ## The spaces of a mapping -/

omit mapS mapE in
theorem mem_foldl_insert {key : AddressSpaceId} : ∀ (keys : List AddressSpaceId)
    (held : OrdMap AddressSpaceId Unit),
    key ∈ (keys.foldl (fun spaces space => spaces.insert space ()) held).entries.map Prod.fst ↔
      key ∈ keys ∨ key ∈ held.entries.map Prod.fst := by
  intro keys
  induction keys with
  | nil =>
    simp
  | cons head keys ih =>
    intro held
    rw [foldl_cons, ih, mem_cons]
    simp only [mem_map, mem_insert, Prod.exists]
    by_cases same : key = head <;> simp [same]

omit mapS mapE in
theorem spaceOf_eq_some_iff {laid : AddressSpace S E → Prop}
    (keyed : ∀ key found, (key, found) ∈ storage.spaces.entries → found.id = key ∧ laid found)
    {found : AddressSpace S E} :
    spaceOf storage space = some found ↔ (space, found) ∈ storage.spaces.entries := by
  constructor
  · intro isSpace
    obtain ⟨sameId, key, mem⟩ := spaceOf_eq_some isSpace
    obtain ⟨same, -⟩ := keyed key found mem
    rwa [← same, sameId] at mem
  · intro mem
    cases isSpace : spaceOf storage space with
    | none =>
      have misses := find?_eq_none.mp (Option.map_eq_none_iff.mp isSpace) _ mem
      exact absurd (keyed _ _ mem).1 (by simpa using misses)
    | some other =>
      obtain ⟨sameId, key, otherMem⟩ := spaceOf_eq_some isSpace
      obtain ⟨same, -⟩ := keyed key other otherMem
      rw [← same, sameId] at otherMem
      rw [OrdMap.unique mem otherMem]

theorem committedPriority_isSome (laidOut : LaidOut storage) (kept : id ∉ staging.removedMappings) :
    (committedPriority storage staging space id).isSome ↔ ∃ found,
      (space, found) ∈ storage.spaces.entries ∧
        ∃ placement, (id, placement) ∈ found.mappingPlacements.entries := by
  constructor
  · intro some_
    cases isSpace : spaceOf storage space with
    | none =>
      rw [committedPriority_none isSpace] at some_
      cases some_
    | some found =>
      rw [committedPriority_eq isSpace, if_neg kept, Option.isSome_map] at some_
      obtain ⟨placement, held⟩ := Option.isSome_iff_exists.mp some_
      exact ⟨found, (spaceOf_eq_some_iff laidOut.spaces).mp isSpace, placement,
        get?_eq_some.mp held⟩
  · intro ⟨found, mem, placement, held⟩
    rw [committedPriority_eq ((spaceOf_eq_some_iff laidOut.spaces).mpr mem), if_neg kept,
      Option.isSome_map, get?_eq_some.mpr held]
    rfl

omit mapS mapE in
theorem standing_isSome {committed : SegmentMappingId → Option ℤ}
    {placements : List (ℕ × StagedMappingPlacementRecord)} :
    (standing committed placements id).isSome ↔
      (∃ entry ∈ placements, entry.2.mapping = id) ∨ (committed id).isSome := by
  have placed : ∀ entry, placements.find? (fun entry => entry.2.mapping == id) = some entry →
      ∃ entry ∈ placements, entry.2.mapping = id := by
    intro entry found
    have same := find?_some found
    exact ⟨entry, mem_of_find?_eq_some found, beq_iff_eq.mp same⟩
  unfold standing
  split
  · exact iff_of_true rfl (.inl (placed _ (by assumption)))
  · exact iff_of_true rfl (.inl (placed _ (by assumption)))
  · rename_i none_
    rw [Option.isSome_map, or_iff_right]
    intro ⟨entry, mem, same⟩
    exact find?_eq_none.mp none_ entry mem (beq_iff_eq.mpr same)

theorem Sound.mem_placementSpaces (sound : Sound storage staging) (laidOut : LaidOut storage)
    (known : Known storage staging id) :
    space ∈ staging.placementSpaces storage id ↔
      (standingIn storage staging space id).isSome := by
  have staged : space ∈ (staging.placementOrder.entries.filter fun entry =>
      (ofLex entry.1).2 == id).map (fun entry => (ofLex entry.1).1) ↔
      ∃ entry ∈ placementsIn staging space, entry.2.mapping = id := by
    simp only [mem_map, mem_filter, beq_iff_eq, placementsIn]
    constructor
    · rintro ⟨⟨key, time⟩, ⟨mem, isId⟩, here⟩
      have found : staging.placementOrder.get? (toLex (space, id)) = some time := by
        rw [get?_eq_some, ← isId, ← here]
        exact mem
      obtain ⟨placement, placed, inSpace, ofMapping⟩ := (sound.ordered space id time).mp found
      exact ⟨(time, placement), ⟨get?_eq_some.mp placed, inSpace⟩, ofMapping⟩
    · rintro ⟨⟨time, placement⟩, ⟨mem, here⟩, isId⟩
      exact ⟨(toLex (space, id), time), ⟨get?_eq_some.mp ((sound.ordered space id time).mpr
        ⟨placement, get?_eq_some.mpr mem, here, isId⟩), rfl⟩, rfl⟩
  rw [placementSpaces, mem_foldl_insert, mem_append, staged, standingIn, standing_isSome,
    committedPriority_isSome laidOut known.1, entries_empty, map_nil,
    or_iff_left not_mem_nil, or_comm]
  apply or_congr_right
  cases created : staging.createdMappings.get? id with
  | some builder =>
    apply iff_of_false not_mem_nil
    rintro ⟨found, mem, placement, held⟩
    obtain ⟨mapping, known, -⟩ := (laidOut.spaces space found mem).2.indexed.placed id placement held
    obtain ⟨-, below⟩ := laidOut.mappings id mapping (get?_eq_some.mp known)
    obtain ⟨above, -⟩ := sound.created id builder created
    exact absurd below (not_lt.mpr above)
  | none => exact (SegmentStorage.mappingSpaceIds_spec laidOut id).2 space

/-! ## The ranges of one mapping -/

/-- The end of a mapping is an offset. -/
def Bounded (mapping : StagedMappingRecord) : Prop :=
  mapping.offset.toNat + (mapping.range.stop - mapping.range.start + 1) < 2 ^ 64

instance (mapping : StagedMappingRecord) : Decidable (Bounded mapping) :=
  inferInstanceAs (Decidable (_ < _))

/-- A mapping has the address at an offset of the provider that is written. -/
def Hit (provider : SegmentStorageProviderId) (offset size : ℕ) (mapping : StagedMappingRecord)
    (a : ℕ) : Prop :=
  mapping.provider = provider ∧ mapping.contains a = true ∧
    offset ≤ mapping.offset.toNat + (a - mapping.range.start) ∧
    mapping.offset.toNat + (a - mapping.range.start) < offset + size

def InRanges (ranges : List AddressRange) (space : AddressSpaceId) (a : ℕ) : Prop :=
  ∃ range ∈ ranges, range.space = space ∧ range.start ≤ a ∧ a ≤ range.stop

omit mapS mapE in
theorem aliasRanges_eq {mapping : StagedMappingRecord}
    (recorded : staging.stagedMapping storage id = .ok mapping)
    (sized : mapping.range.size = some (mapping.range.stop - mapping.range.start + 1))
    (offset size : ℕ) :
    staging.aliasRanges storage provider offset size id =
      if mapping.provider = provider then
        if Bounded mapping then
          let start := max offset mapping.offset.toNat
          let stop := min (offset + size)
            (mapping.offset.toNat + (mapping.range.stop - mapping.range.start + 1))
          .ok (if stop ≤ start then [] else
            (staging.placementSpaces storage id).map fun space =>
              ⟨space, mapping.range.start + (start - mapping.offset.toNat),
                mapping.range.start + (start - mapping.offset.toNat) + (stop - start - 1)⟩)
        else .error .invalidAddressRange
      else .ok [] := by
  have placements : staging.mappingPlacements storage id = .ok
      ((staging.placementSpaces storage id).map fun space => inSpace space mapping.range) := by
    unfold SegmentStorageStaging.mappingPlacements
    rw [recorded]
    rfl
  unfold SegmentStorageStaging.aliasRanges
  rw [recorded, placements]
  change (if mapping.provider = provider then
    (orError .invalidAddressRange mapping.range.size >>= _) else _) = _
  rw [sized]
  change (if _ then (if _ then _ else _) else _) = _
  refine if_congr Iff.rfl ?_ rfl
  by_cases bounded : Bounded mapping
  swap
  · rw [if_neg bounded, if_pos (not_lt.mp bounded)]
  rw [if_pos bounded, if_neg (not_le.mpr bounded)]
  dsimp only
  split
  · rfl
  · change Except.ok (List.map _ (List.map _ _)) = _
    rw [map_map]
    rfl

theorem Sound.aliasRanges (sound : Sound storage staging) (laidOut : LaidOut storage)
    {mapping : StagedMappingRecord} (recorded : staging.stagedMapping storage id = .ok mapping)
    (offset size : ℕ) :
    ((∃ ranges, staging.aliasRanges storage provider offset size id = .ok ranges) ↔
      (mapping.provider = provider → Bounded mapping)) ∧
    ∀ ranges, staging.aliasRanges storage provider offset size id = .ok ranges →
      ∀ space a, InRanges ranges space a ↔
        (standingIn storage staging space id).isSome ∧ Hit provider offset size mapping a := by
  obtain ⟨proper, sized⟩ := (sound.stagedMapping id).2 mapping recorded
  have known := (sound.stagedMapping id).1.mpr ⟨mapping, recorded⟩
  have le := proper.start_le
  rw [aliasRanges_eq recorded (by rw [proper.size_eq, if_pos sized])]
  by_cases same : mapping.provider = provider
  · rw [if_pos same]
    by_cases bounded : Bounded mapping
    · rw [if_pos bounded]
      refine ⟨iff_of_true ⟨_, rfl⟩ fun _ => bounded, ?_⟩
      intro ranges returned space a
      unfold InRanges Hit
      rw [← Except.ok.inj returned, ← sound.mem_placementSpaces laidOut known, contains_iff]
      split
      · refine iff_of_false (fun ⟨_, mem, _⟩ => nomatch mem) ?_
        omega
      · simp only [mem_map]
        constructor
        · intro ⟨range, ⟨placed, mem, isRange⟩, here, from_, upTo⟩
          subst isRange
          dsimp only at here from_ upTo
          subst here
          refine ⟨mem, same, ⟨?_, ?_⟩, ?_, ?_⟩ <;> omega
        · intro ⟨mem, _, contains, above, below⟩
          refine ⟨_, ⟨space, mem, rfl⟩, rfl, ?_, ?_⟩ <;> dsimp only <;> omega
    · rw [if_neg bounded]
      exact ⟨iff_of_false nofun fun holds => bounded (holds same), nofun⟩
  · rw [if_neg same]
    refine ⟨iff_of_true ⟨_, rfl⟩ fun eq => absurd eq same, ?_⟩
    intro ranges returned space a
    cases returned
    refine iff_of_false (fun ⟨_, mem, _⟩ => nomatch mem) ?_
    exact fun ⟨_, eq, _⟩ => same eq

/-! ## The ranges of a write -/

omit mapS mapE in
theorem inRanges_flatten {lists : List (List AddressRange)} {a : ℕ} :
    InRanges lists.flatten space a ↔ ∃ ranges ∈ lists, InRanges ranges space a := by
  unfold InRanges
  simp only [mem_flatten]
  constructor
  · intro ⟨range, ⟨ranges, mem, inList⟩, inside⟩
    exact ⟨ranges, mem, range, inList, inside⟩
  · intro ⟨ranges, mem, range, inList, inside⟩
    exact ⟨range, ⟨ranges, mem, inList⟩, inside⟩

theorem Sound.mem_pendingIds (sound : Sound storage staging) (laidOut : LaidOut storage) :
    id ∈ ((storage.mappings.entries.map fun entry => entry.2.id).filter
      fun id => id ∉ staging.removedMappings) ++ staging.createdMappings.entries.map Prod.fst ↔
      Known storage staging id := by
  have committed : id ∈ (storage.mappings.entries.map fun entry => entry.2.id) ↔
      (storage.mappings.get? id).isSome := by
    rw [mem_map, Option.isSome_iff_exists]
    constructor
    · intro ⟨⟨key, mapping⟩, mem, isId⟩
      obtain ⟨same, -⟩ := laidOut.mappings key mapping mem
      refine ⟨mapping, get?_eq_some.mpr ?_⟩
      rw [← isId, same]
      exact mem
    · intro ⟨mapping, found⟩
      have mem := get?_eq_some.mp found
      exact ⟨(id, mapping), mem, (laidOut.mappings id mapping mem).1⟩
  have created : id ∈ staging.createdMappings.entries.map Prod.fst ↔
      (staging.createdMappings.get? id).isSome := by
    rw [mem_map, Option.isSome_iff_exists]
    constructor
    · intro ⟨⟨key, builder⟩, mem, isId⟩
      subst isId
      exact ⟨builder, get?_eq_some.mpr mem⟩
    · intro ⟨builder, found⟩
      exact ⟨(id, builder), get?_eq_some.mp found, rfl⟩
  rw [mem_append, mem_filter, committed, created, decide_eq_true_iff]
  constructor
  · intro either
    rcases either with ⟨isCommitted, kept⟩ | isCreated
    · exact ⟨kept, .inr isCommitted⟩
    · refine ⟨fun removed => ?_, .inl isCreated⟩
      obtain ⟨mapping, found⟩ := Option.isSome_iff_exists.mp (sound.removed id removed)
      obtain ⟨builder, isBuilder⟩ := Option.isSome_iff_exists.mp isCreated
      obtain ⟨-, below⟩ := laidOut.mappings id mapping (get?_eq_some.mp found)
      exact absurd below (not_lt.mpr (sound.created id builder isBuilder).1)
  · intro ⟨kept, either⟩
    exact either.elim .inr fun isCommitted => .inl ⟨isCommitted, kept⟩

/-- A write to a provider is reported exactly where a mapping of it is placed, unless one of its
mappings ends beyond the offsets. -/
theorem Sound.pendingWriteRanges (sound : Sound storage staging) (laidOut : LaidOut storage)
    (offset size : ℕ) :
    ((∃ ranges, staging.pendingWriteRanges storage provider offset size = .ok ranges) ↔
      offset + size < 2 ^ 64 ∧ ∀ id mapping, staging.stagedMapping storage id = .ok mapping →
        mapping.provider = provider → Bounded mapping) ∧
    ∀ ranges, staging.pendingWriteRanges storage provider offset size = .ok ranges →
      ∀ space a, InRanges ranges space a ↔ ∃ id mapping,
        (standingIn storage staging space id).isSome ∧
          staging.stagedMapping storage id = .ok mapping ∧ Hit provider offset size mapping a := by
  unfold SegmentStorageStaging.pendingWriteRanges
  by_cases large : 2 ^ 64 ≤ offset + size
  · rw [if_pos large]
    exact ⟨iff_of_false nofun fun fits => absurd fits.1 (not_lt.mpr large), nofun⟩
  rw [if_neg large]
  constructor
  · have each : (∃ lists, List.mapM (staging.aliasRanges storage provider offset size)
        (((storage.mappings.entries.map fun entry => entry.2.id).filter
          fun id => id ∉ staging.removedMappings) ++
            staging.createdMappings.entries.map Prod.fst) = .ok lists) ↔
        ∀ id mapping, staging.stagedMapping storage id = .ok mapping →
          mapping.provider = provider → Bounded mapping := by
      rw [mapM_isOk_iff]
      constructor
      · intro all id mapping recorded
        exact (sound.aliasRanges laidOut recorded offset size).1.mp (all id
          ((sound.mem_pendingIds laidOut).mpr ((sound.stagedMapping id).1.mpr ⟨mapping, recorded⟩)))
      · intro bounded id mem
        obtain ⟨mapping, recorded⟩ :=
          (sound.stagedMapping id).1.mp ((sound.mem_pendingIds laidOut).mp mem)
        exact (sound.aliasRanges laidOut recorded offset size).1.mpr (bounded id mapping recorded)
    rw [← each, and_iff_right (not_le.mp large)]
    constructor
    · intro ⟨ranges, call⟩
      obtain ⟨lists, run, -⟩ := bind_eq_ok.mp call
      exact ⟨lists, run⟩
    · intro ⟨lists, run⟩
      exact ⟨lists.flatten, bind_eq_ok.mpr ⟨lists, run, rfl⟩⟩
  · intro ranges call space a
    obtain ⟨lists, run, eq⟩ := bind_eq_ok.mp call
    cases eq
    rw [inRanges_flatten]
    constructor
    · intro ⟨ranges, mem, inside⟩
      obtain ⟨id, isId, call⟩ := (mem_of_mapM_eq_ok run ranges).mp mem
      obtain ⟨mapping, recorded⟩ :=
        (sound.stagedMapping id).1.mp ((sound.mem_pendingIds laidOut).mp isId)
      obtain ⟨stands, hit⟩ :=
        ((sound.aliasRanges laidOut recorded offset size).2 ranges call space a).mp inside
      exact ⟨id, mapping, stands, recorded, hit⟩
    · intro ⟨id, mapping, stands, recorded, hit⟩
      have mem := (sound.mem_pendingIds laidOut).mpr
        ((sound.stagedMapping id).1.mpr ⟨mapping, recorded⟩)
      obtain ⟨ranges, call⟩ := mapM_isOk_iff.mp ⟨lists, run⟩ id mem
      exact ⟨ranges, (mem_of_mapM_eq_ok run ranges).mpr ⟨id, mem, call⟩,
        ((sound.aliasRanges laidOut recorded offset size).2 ranges call space a).mpr ⟨stands, hit⟩⟩

end Fugue.Storage.Segments.SegmentStorageStaging
