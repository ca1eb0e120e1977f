import Fugue.Storage.Segments.Metadata

/-!
# Reloading a storage

What the loops of `from_storage_internal` leave: the providers under their ids, fresh spaces, the
mappings under the ids from zero on in the order of the old ones, and in each space the mappings in
the order of their old priorities. The visible mapping of an address is the last one of the priority
list that contains it (`find_visible`), so that the order decides what is read.
-/

namespace Fugue.Storage.Segments

open Fugue.Lib Fugue.Ir IntervalMap List Option OrdMap AddressSpace

/-! ## Counting -/

/-- Different numbers below a bound. -/
theorem length_le_of_lt {ids : List ℕ} (nodup : ids.Nodup) {bound : ℕ}
    (lt : ∀ id ∈ ids, id < bound) : ids.length ≤ bound := by
  have sub : ids.toFinset ⊆ Finset.range bound := fun id mem =>
    Finset.mem_range.mpr (lt id (List.mem_toFinset.mp mem))
  have card := Finset.card_le_card sub
  rwa [toFinset_card_of_nodup nodup, Finset.card_range] at card

theorem keys_nodup {K V : Type} [LinearOrder K] (m : OrdMap K V) :
    (m.entries.map Prod.fst).Nodup := by
  rw [List.Nodup, pairwise_map]
  exact m.sorted.imp fun lt => lt.ne

theorem insert_last {K V : Type} [LinearOrder K] (m : OrdMap K V) (k : K) (v : V)
    (above : ∀ x ∈ m.entries, x.1 < k) : (m.insert k v).entries = m.entries ++ [(k, v)] := by
  have all : ∀ entries : List (K × V), (∀ x ∈ entries, x.1 < k) →
      OrdMap.insertEntry k v entries = entries ++ [(k, v)] := by
    intro entries
    induction entries with
    | nil => exact fun _ => rfl
    | cons x entries ih =>
      intro above
      have lt := above x (.head _)
      rw [OrdMap.insertEntry, if_neg lt.not_gt, if_pos lt, ih fun y mem => above y (.tail _ mem)]
      rfl
  exact all m.entries above

section Loading

variable {D S E Error : Type} [mapS : IntervalMap S SegmentSubMapping]
  [mapE : IntervalMap E SegmentMappingId]

namespace SegmentStorage

variable {storage : SegmentStorage D S E} {reopen : SegmentStorageProviderId → Except Error D}

omit mapS mapE in
theorem touch_eq (storage : SegmentStorage D S E) (small : storage.revision + 1 < 2 ^ 64) :
    storage.touch = .ok { storage with revision := storage.revision + 1 } := by
  unfold touch nextRevision
  rw [if_pos small]
  rfl

omit mapS mapE in
theorem touched_eq {α : Type} (storage : SegmentStorage D S E) (result : α)
    (small : storage.revision + 1 < 2 ^ 64) :
    (storage.touched result : Except Panic (Outcome D S E Error α)) =
      .ok ({ storage with revision := storage.revision + 1 }, .ok result) := by
  unfold touched
  rw [touch_eq storage small]
  rfl

omit mapS mapE in
theorem of_loading {α : Type} {outcome : Except Panic (Outcome D S E Error α)}
    {after : SegmentStorage D S E × α} (run : loading outcome = .ok after) :
    outcome = .ok (after.1, .ok after.2) := by
  unfold loading at run
  split at run
  · cases run
  · obtain rfl := Except.ok.inj run
    rfl
  · cases run

/-! ## Providers and spaces -/

omit mapS mapE in
theorem loadProviders_spec : ∀ (ids : List SegmentStorageProviderId)
    (storage : SegmentStorage D S E), (∀ id ∈ ids, ∃ provider, reopen id = .ok provider) →
    storage.revision + ids.length < 2 ^ 64 →
    ∃ providers ctr, ids.foldlM (loadProvider reopen) storage = .ok { storage with
        providers := providers
        providerCtr := ctr
        revision := storage.revision + ids.length } ∧
      ∀ id, providers.get? id =
        if id ∈ ids then (reopen id).toOption else storage.providers.get? id := by
  intro ids
  induction ids with
  | nil => exact fun storage _ _ => ⟨storage.providers, storage.providerCtr, rfl, fun id => by simp⟩
  | cons first ids ih =>
    intro storage opens small
    rw [length_cons] at small
    obtain ⟨provider, opened⟩ := opens first (.head _)
    have step : loadProvider reopen storage first = .ok { storage with
        providerCtr := max storage.providerCtr (first + 1)
        providers := storage.providers.insert first provider
        revision := storage.revision + 1 } := by
      unfold loadProvider
      rw [opened]
      dsimp only
      rw [touch_eq _ (by dsimp only; omega)]
      rfl
    obtain ⟨providers, ctr, run, get⟩ := ih { storage with
        providerCtr := max storage.providerCtr (first + 1)
        providers := storage.providers.insert first provider
        revision := storage.revision + 1 }
      (fun id mem => opens id (.tail _ mem))
      (show storage.revision + 1 + ids.length < 2 ^ 64 by omega)
    refine ⟨providers, ctr, ?_, fun id => ?_⟩
    · rw [foldlM_cons, step]
      apply run.trans
      simp [length_cons, add_comm ids.length 1, add_assoc]
    · rw [get id]
      by_cases later : id ∈ ids
      · simp [later]
      · by_cases same : id = first
        · subst same
          rw [if_neg later, if_pos mem_cons_self, get?_insert_self, opened]
          rfl
        · rw [if_neg later, if_neg (by simp [same, later]), get?_insert_ne same]

theorem loadSpaces_spec (Error : Type) :
    ∀ (entries : List AddressSpaceMetadata) (storage : SegmentStorage D S E),
    (entries.map AddressSpaceMetadata.id).Nodup →
    (∀ entry ∈ entries, storage.spaces.get? entry.id = none) →
    ∃ spaces ctr, (entries.foldlM loadSpace storage :
        Except (LoadError Error) (SegmentStorage D S E)) =
        .ok { storage with spaces := spaces, spaceCtr := ctr } ∧
      (∀ entry ∈ entries, spaces.get? entry.id = some (spaceOf entry)) ∧
      ∀ id, (∀ entry ∈ entries, entry.id ≠ id) → spaces.get? id = storage.spaces.get? id := by
  intro entries
  induction entries with
  | nil => exact fun storage _ _ =>
      ⟨storage.spaces, storage.spaceCtr, rfl, by simp, fun id _ => rfl⟩
  | cons first entries ih =>
    intro storage nodup absent
    rw [map_cons, nodup_cons] at nodup
    have others : ∀ entry ∈ entries, entry.id ≠ first.id := fun entry mem same =>
      nodup.1 (same ▸ List.mem_map_of_mem mem)
    have step : (loadSpace storage first : Except (LoadError Error) (SegmentStorage D S E)) =
        .ok { storage with
          spaces := storage.spaces.insert first.id (spaceOf first)
          spaceCtr := max storage.spaceCtr (first.id + 1) } := by
      unfold loadSpace
      rw [absent first mem_cons_self]
      rfl
    obtain ⟨spaces, ctr, run, set, kept⟩ := ih { storage with
        spaces := storage.spaces.insert first.id (spaceOf first)
        spaceCtr := max storage.spaceCtr (first.id + 1) } nodup.2 fun entry mem => by
      rw [get?_insert_ne (others entry mem)]
      exact absent entry (.tail _ mem)
    refine ⟨spaces, ctr, ?_, fun entry mem => ?_, fun id away => ?_⟩
    · rw [foldlM_cons, step]
      exact run
    · rcases mem_cons.mp mem with rfl | mem
      · rw [kept entry.id others]
        exact get?_insert_self
      · exact set entry mem
    · rw [kept id fun entry mem => away entry (.tail _ mem)]
      exact get?_insert_ne (Ne.symm (away first (.head _)))

/-! ## Mappings -/

/-- The entry of a mapping in the file. -/
def metadataOf (mapping : SegmentMapping) : MappingMetadata :=
  ⟨mapping.id, mapping.name, mapping.range, mapping.offset, mapping.properties, mapping.kind,
    mapping.provenance, mapping.flags, mapping.providerId⟩

/-- Mappings that differ in their ids and revisions only. -/
structure SameMapping (mapping mapping' : SegmentMapping) : Prop where
  range : mapping'.range = mapping.range
  offset : mapping'.offset = mapping.offset
  providerId : mapping'.providerId = mapping.providerId
  properties : mapping'.properties = mapping.properties
  kind : mapping'.kind = mapping.kind
  provenance : mapping'.provenance = mapping.provenance
  flags : mapping'.flags = mapping.flags
  name : mapping'.name = mapping.name

theorem fromBuilder_builderOf (mapping : SegmentMapping) (id : SegmentMappingId) :
    ∃ mapping', SegmentMapping.fromBuilder id (builderOf (metadataOf mapping)) = some mapping' ∧
      mapping'.id = id ∧ SameMapping mapping mapping' := by
  have size : (UInt64.ofNat (mapping.range.stop - mapping.range.start + 1)).toNat =
      mapping.size := by
    rw [UInt64.toNat_ofNat', Nat.mod_eq_of_lt mapping.sized]
    rfl
  have found : rangeFromSize (builderOf (metadataOf mapping)).start
      (builderOf (metadataOf mapping)).size.toNat = some mapping.range := by
    change rangeFromSize ⟨mapping.range.space, mapping.range.start⟩
      (UInt64.ofNat (mapping.range.stop - mapping.range.start + 1)).toNat = _
    rw [size]
    exact rangeFromSize_mapping mapping mapping.range.space
  unfold SegmentMapping.fromBuilder
  split
  · rename_i none
    rw [found] at none
    cases none
  · rename_i range some_
    cases found.symm.trans some_
    exact ⟨_, rfl, rfl, ⟨rfl, rfl, rfl, rfl, rfl, rfl, rfl, rfl⟩⟩

omit mapS mapE in
theorem loadMapping_ok (mapping : SegmentMapping)
    {loaded : SegmentStorage D S E × OrdMap SegmentMappingId SegmentMappingId}
    (provider : (loaded.1.providers.get? mapping.providerId).isSome)
    (space : (loaded.1.spaces.get? mapping.range.space).isSome)
    (ids : loaded.1.mappingCtr < 2 ^ 32) (small : loaded.1.revision + 1 < 2 ^ 64) :
    ∃ mapping', (loadMapping loaded (metadataOf mapping) : Except (LoadError Error) _) =
        .ok ({ loaded.1 with
          mappings := loaded.1.mappings.insert loaded.1.mappingCtr mapping'
          mappingCtr := loaded.1.mappingCtr + 1
          revision := loaded.1.revision + 1 },
          loaded.2.insert mapping.id loaded.1.mappingCtr) ∧
      mapping'.id = loaded.1.mappingCtr ∧ SameMapping mapping mapping' := by
  obtain ⟨mapping', built, isId, same⟩ := fromBuilder_builderOf mapping loaded.1.mappingCtr
  refine ⟨mapping', ?_, isId, same⟩
  obtain ⟨descriptor, isProvider⟩ := isSome_iff_exists.mp provider
  have isProvider : loaded.1.providers.get? (builderOf (metadataOf mapping)).providerId =
      some descriptor := isProvider
  have created : (loaded.1.createMappingFromBuilder (builderOf (metadataOf mapping)) :
      Except Panic (Outcome D S E Error SegmentMappingId)) = .ok ({ loaded.1 with
        mappings := loaded.1.mappings.insert loaded.1.mappingCtr mapping'
        mappingCtr := loaded.1.mappingCtr + 1
        revision := loaded.1.revision + 1 }, .ok loaded.1.mappingCtr) := by
    unfold createMappingFromBuilder
    rw [isProvider]
    simp only [newId, if_pos ids, bind, Except.bind]
    rw [built]
    exact touched_eq _ _ small
  have range : ¬ ((metadataOf mapping).range.stop < (metadataOf mapping).range.start ∨
      2 ^ 64 ≤ (metadataOf mapping).range.stop - (metadataOf mapping).range.start + 1) := by
    have le := mapping.proper.start_le
    have lt := mapping.sized
    change ¬ (mapping.range.stop < mapping.range.start ∨
      2 ^ 64 ≤ mapping.range.stop - mapping.range.start + 1)
    omega
  have hasProvider : ¬ (loaded.1.providers.get? (metadataOf mapping).providerId).isNone :=
    isNone_iff_eq_none.not.mpr (isSome_iff_ne_none.mp provider)
  have hasSpace : ¬ (loaded.1.spaces.get? (metadataOf mapping).range.space).isNone :=
    isNone_iff_eq_none.not.mpr (isSome_iff_ne_none.mp space)
  unfold loadMapping
  rw [if_neg range, if_neg hasProvider, if_neg hasSpace, created]
  rfl

/-- The providers and the spaces stay. -/
def Keeps (storage storage' : SegmentStorage D S E) : Prop :=
  storage'.providers = storage.providers ∧ storage'.spaces = storage.spaces

omit mapS mapE in
theorem createMappingFromBuilder_keeps (storage : SegmentStorage D S E)
    (builder : SegmentMappingBuilder) :
    Returns (fun out => Keeps storage out.1) (storage.createMappingFromBuilder builder :
        Except Panic (Outcome D S E Error SegmentMappingId)) := by
  unfold createMappingFromBuilder
  split
  · exact ⟨rfl, rfl⟩
  · apply (returns_newId _).bind
    rintro _ rfl
    split
    · exact ⟨rfl, rfl⟩
    · exact returns_touched fun revision => ⟨rfl, rfl⟩

omit mapS mapE in
theorem of_loadMapping_ok {entry : MappingMetadata}
    {loaded after : SegmentStorage D S E × OrdMap SegmentMappingId SegmentMappingId}
    (run : (loadMapping loaded entry : Except (LoadError Error) _) = .ok after) :
    ((loaded.1.providers.get? entry.providerId).isSome ∧
      (loaded.1.spaces.get? entry.range.space).isSome) ∧
    after.1.providers = loaded.1.providers ∧ after.1.spaces = loaded.1.spaces := by
  unfold loadMapping at run
  split at run
  · cases run
  · split at run
    · cases run
    · rename_i provider
      split at run
      · cases run
      · rename_i space
        refine ⟨⟨isSome_iff_ne_none.mpr (isNone_iff_eq_none.not.mp provider),
          isSome_iff_ne_none.mpr (isNone_iff_eq_none.not.mp space)⟩, ?_⟩
        cases made : loading (loaded.1.createMappingFromBuilder (builderOf entry) :
            Except Panic (Outcome D S E Error SegmentMappingId)) with
        | error error =>
          rw [made] at run
          cases run
        | ok created =>
          rw [made] at run
          obtain rfl := Except.ok.inj run
          have keeps : Returns _ (loaded.1.createMappingFromBuilder (builderOf entry) :
              Except Panic (Outcome D S E Error SegmentMappingId)) :=
            createMappingFromBuilder_keeps loaded.1 (builderOf entry)
          rw [of_loading made] at keeps
          exact keeps

/-- What the mappings of a file become: they get the next ids, in order. -/
structure Renumbered (mappings : List SegmentMapping) (start : ℕ)
    (before after : OrdMap SegmentMappingId SegmentMapping)
    (mapBefore mapAfter : OrdMap SegmentMappingId SegmentMappingId) : Prop where
  mapping : ∀ (j : ℕ) (mapping : SegmentMapping), mappings[j]? = some mapping →
    ∃ mapping', after.get? (start + j) = some mapping' ∧ mapping'.id = start + j ∧
      SameMapping mapping mapping' ∧ mapAfter.get? mapping.id = some (start + j)
  below : ∀ id, id < start → after.get? id = before.get? id
  beyond : ∀ id, start + mappings.length ≤ id → after.get? id = before.get? id
  map : ∀ id, (∀ mapping ∈ mappings, mapping.id ≠ id) → mapAfter.get? id = mapBefore.get? id

omit mapS mapE in
theorem loadMappings_spec (Error : Type) : ∀ (mappings : List SegmentMapping)
    (loaded : SegmentStorage D S E × OrdMap SegmentMappingId SegmentMappingId),
    (mappings.map SegmentMapping.id).Nodup →
    (∀ mapping ∈ mappings, (loaded.1.providers.get? mapping.providerId).isSome ∧
      (loaded.1.spaces.get? mapping.range.space).isSome) →
    loaded.1.mappingCtr + mappings.length ≤ 2 ^ 32 →
    loaded.1.revision + mappings.length < 2 ^ 64 →
    ∃ after mapAfter, ((mappings.map metadataOf).foldlM loadMapping loaded :
        Except (LoadError Error) _) = .ok ({ loaded.1 with
          mappings := after
          mappingCtr := loaded.1.mappingCtr + mappings.length
          revision := loaded.1.revision + mappings.length }, mapAfter) ∧
      Renumbered mappings loaded.1.mappingCtr loaded.1.mappings after loaded.2 mapAfter := by
  intro mappings
  induction mappings with
  | nil =>
    intro loaded _ _ _ _
    exact ⟨loaded.1.mappings, loaded.2, rfl, ⟨by simp, fun _ _ => rfl, fun _ _ => rfl,
      fun _ _ => rfl⟩⟩
  | cons first mappings ih =>
    intro loaded nodup there ids small
    rw [map_cons, nodup_cons] at nodup
    rw [length_cons] at ids small
    obtain ⟨provider, space⟩ := there first (.head _)
    obtain ⟨mapping', step, isId, same⟩ := loadMapping_ok first provider space (by omega) (by omega)
    obtain ⟨after, mapAfter, run, renumbered⟩ := ih ({ loaded.1 with
        mappings := loaded.1.mappings.insert loaded.1.mappingCtr mapping'
        mappingCtr := loaded.1.mappingCtr + 1
        revision := loaded.1.revision + 1 },
        loaded.2.insert first.id loaded.1.mappingCtr) nodup.2
      (fun mapping mem => there mapping (.tail _ mem))
      (show loaded.1.mappingCtr + 1 + mappings.length ≤ 2 ^ 32 by omega)
      (show loaded.1.revision + 1 + mappings.length < 2 ^ 64 by omega)
    refine ⟨after, mapAfter, ?_, ?_, fun id lt => ?_, fun id le => ?_, fun id away => ?_⟩
    · rw [map_cons, foldlM_cons, step]
      apply run.trans
      simp [length_cons, add_comm mappings.length 1, add_assoc]
    · intro j mapping at_
      cases j with
      | zero =>
        obtain rfl : first = mapping := by simpa using at_
        refine ⟨mapping', ?_, isId, same, ?_⟩
        · rw [add_zero, renumbered.below _ (Nat.lt_succ_self _)]
          exact get?_insert_self
        · rw [renumbered.map first.id fun other mem eq => nodup.1 (eq ▸ List.mem_map_of_mem mem)]
          exact get?_insert_self
      | succ j =>
        obtain ⟨other, get, otherId, otherSame, map⟩ := renumbered.mapping j mapping at_
        rw [add_assoc, add_comm 1 j] at get otherId map
        exact ⟨other, get, otherId, otherSame, map⟩
    · rw [renumbered.below id (Nat.lt_succ_of_lt lt)]
      exact get?_insert_ne lt.ne
    · rw [length_cons] at le
      rw [renumbered.beyond id (show loaded.1.mappingCtr + 1 + mappings.length ≤ id by omega)]
      exact get?_insert_ne (show id ≠ loaded.1.mappingCtr by omega)
    · rw [renumbered.map id fun mapping mem => away mapping (.tail _ mem)]
      exact get?_insert_ne (Ne.symm (away first (.head _)))

omit mapS mapE in
/-- A file with a mapping whose provider or space is not there is refused. -/
theorem of_loadMappings_ok : ∀ (entries : List MappingMetadata)
    {loaded after : SegmentStorage D S E × OrdMap SegmentMappingId SegmentMappingId},
    (entries.foldlM loadMapping loaded : Except (LoadError Error) _) = .ok after →
    ∀ entry ∈ entries, (loaded.1.providers.get? entry.providerId).isSome ∧
      (loaded.1.spaces.get? entry.range.space).isSome := by
  intro entries
  induction entries with
  | nil =>
    intro loaded after _ entry mem
    cases mem
  | cons first entries ih =>
    intro loaded after run entry mem
    obtain ⟨next, step, run⟩ := bind_eq_ok.mp run
    obtain ⟨there, providers, spaces⟩ := of_loadMapping_ok step
    rcases mem_cons.mp mem with rfl | mem
    · exact there
    · rw [← providers, ← spaces]
      exact ih run entry mem

end SegmentStorage

/-! ## Placements -/

section Spaces

variable {known : SegmentMappingId → Option SegmentMapping} {space : AddressSpace S E}

omit mapS in
theorem mem_priorityList (indexed : Indexed known space) {id : SegmentMappingId} :
    id ∈ space.priorityList ↔
      ∃ placement, (id, placement) ∈ space.mappingPlacements.entries := by
  unfold priorityList
  rw [List.mem_map]
  constructor
  · rintro ⟨entry, mem, rfl⟩
    obtain ⟨placement, placed, -⟩ := indexed.ordered entry.1 entry.2 mem
    exact ⟨placement, placed⟩
  · rintro ⟨placement, placed⟩
    obtain ⟨mapping, -, isId, -, ordered⟩ := indexed.placed id placement placed
    exact ⟨_, ordered, isId⟩

theorem addMappingTop_ok (laid : Laid known space) {mapping : SegmentMapping}
    (found : known mapping.id = some mapping) (absent : mapping.id ∉ space.priorityList)
    (high : space.highestPriority + 1 < 2 ^ 63) (small : space.revision + 1 < 2 ^ 64) :
    ∃ placed, space.addMappingTop mapping.mappingRef mapping.range.start mapping.size
        mapping.properties = .ok placed ∧ Laid known placed ∧ placed.id = space.id ∧
      placed.kind = space.kind ∧ placed.name = space.name ∧
      placed.highestPriority = space.highestPriority + 1 ∧
      placed.revision = space.revision + 1 ∧
      placed.priorityList = space.priorityList ++ [mapping.id] := by
  have unplaced : space.mappingPlacements.get? mapping.mappingRef.mappingId = none :=
    get?_eq_none.mpr fun placement mem =>
      absent ((mem_priorityList laid.indexed).mpr ⟨placement, mem⟩)
  have below : ∀ x ∈ space.mappingsByPriority.entries, x.1 < space.highestPriority + 1 :=
    fun x mem => by
      have := (laid.indexed.limits x.1 x.2 mem).2
      omega
  have free : space.mappingsByPriority.get? (space.highestPriority + 1) = none :=
    get?_eq_none.mpr fun mappingRef mem => (below _ mem).ne rfl
  have listed : ((space.mappingsByPriority.insert (space.highestPriority + 1)
      mapping.mappingRef).entries.map fun entry => entry.2.mappingId) =
      space.priorityList ++ [mapping.id] := by
    rw [insert_last _ _ _ below, map_append]
    rfl
  have laidTop := addMappingTop_laid laid found
  have run : ∃ placed, space.addMappingTop mapping.mappingRef mapping.range.start mapping.size
      mapping.properties = .ok placed ∧ placed.id = space.id ∧ placed.kind = space.kind ∧
      placed.name = space.name ∧ placed.highestPriority = space.highestPriority + 1 ∧
      placed.revision = space.revision + 1 ∧ placed.priorityList =
        (space.mappingsByPriority.insert (space.highestPriority + 1)
          mapping.mappingRef).entries.map fun entry => entry.2.mappingId := by
    unfold addMappingTop
    simp only [rangeFromSize_mapping, expect, higher, if_pos high, bind, Except.bind,
      updateMappingPlacement, unplaced, insertPlacement, free,
      isNone_none, if_true, touch, nextRevision, if_pos small, pure,
      Except.pure]
    exact ⟨_, rfl, rfl, rfl, rfl, rfl, rfl, rfl⟩
  obtain ⟨placed, run, isId, kind, name, highest, revision, list⟩ := run
  rw [run] at laidTop
  exact ⟨placed, run, laidTop.1, isId, kind, name, highest, revision, list.trans listed⟩

end Spaces

namespace SegmentStorage

variable {storage : SegmentStorage D S E}

/-- The new id of a mapping. -/
def renumber (mappingMap : OrdMap SegmentMappingId SegmentMappingId) (id : SegmentMappingId) :
    SegmentMappingId := (mappingMap.get? id).getD 0

theorem loadPlacement_ok {mappingMap : OrdMap SegmentMappingId SegmentMappingId}
    {spaceId : AddressSpaceId} {space : AddressSpace S E}
    (inSpaces : storage.spaces.get? spaceId = some space)
    (laid : Laid storage.mappings.get? space) {old new : SegmentMappingId}
    (known : mappingMap.get? old = some new) {mapping : SegmentMapping}
    (found : storage.mappings.get? new = some mapping) (isId : mapping.id = new)
    (absent : new ∉ space.priorityList) (high : space.highestPriority + 1 < 2 ^ 63)
    (small : space.revision + 1 < 2 ^ 64) (small' : storage.revision + 1 < 2 ^ 64) :
    ∃ placed, (loadPlacement mappingMap spaceId storage old :
        Except (LoadError Error) (SegmentStorage D S E)) = .ok { storage with
          spaces := storage.spaces.insert spaceId placed
          revision := storage.revision + 1 } ∧
      Laid storage.mappings.get? placed ∧ placed.id = space.id ∧ placed.kind = space.kind ∧
      placed.name = space.name ∧ placed.highestPriority = space.highestPriority + 1 ∧
      placed.revision = space.revision + 1 ∧
      placed.priorityList = space.priorityList ++ [new] := by
  subst isId
  obtain ⟨placed, run, rest⟩ := addMappingTop_ok laid found absent high small
  refine ⟨placed, ?_, rest⟩
  have outside : ¬ space.containsMapping mapping.id = true := fun contains =>
    absent ((mem_priorityList laid.indexed).mpr (containsMapping_iff.mp contains))
  have added : (storage.addMappingToSpaceAt spaceId mapping.id .top :
      Except Panic (Outcome D S E Error Unit)) = .ok ({ storage with
        spaces := storage.spaces.insert spaceId placed
        revision := storage.revision + 1 }, .ok ()) := by
    unfold addMappingToSpaceAt
    rw [found]
    rw [inSpaces]
    dsimp only
    rw [if_neg outside, run]
    exact touched_eq _ _ small'
  unfold loadPlacement
  rw [known]
  dsimp only
  rw [added]
  rfl

end SegmentStorage

end Loading

end Fugue.Storage.Segments
