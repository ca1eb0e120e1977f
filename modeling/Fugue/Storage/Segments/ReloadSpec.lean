import Mathlib.Data.List.Find
import Mathlib.Order.Monotone.Basic
import Fugue.Storage.Segments.ReloadRun

/-!
# A file and the storage it stands for

A file that was written for a storage is loaded exactly if the storage is `Closed`: the checks of
`from_storage_internal` pass. The storage that is loaded then has the same spaces, the same mappings
under new ids and the same priorities, and it reads as the one that was written (`Reloaded`).
-/

namespace Fugue.Storage.Segments

open Fugue.Lib Fugue.Ir IntervalMap List Option
open OrdMap (get?_eq_none get?_eq_some)

variable {D S E Error : Type} [mapS : IntervalMap S SegmentSubMapping]
  [mapE : IntervalMap E SegmentMappingId]

def spaceMetadata (space : AddressSpace S E) : AddressSpaceMetadata :=
  ⟨space.id, space.kind, space.name, space.priorityList⟩

/-- Every provider opens again with its contents. -/
def Reopens (reopen : SegmentStorageProviderId → Except Error D)
    (contents : D → ℕ → Option UInt8) (storage : SegmentStorage D S E) : Prop :=
  ∀ id provider, storage.providers.get? id = some provider →
    ∃ provider', reopen id = .ok provider' ∧ contents provider' = contents provider

/-- The same layout under other mapping ids, which keep their order. -/
structure Alike (renumber : SegmentMappingId → SegmentMappingId)
    (project project' : ProjectStorage D S E) : Prop where
  fillByte : project'.fillByte = project.fillByte
  spaces : ∀ id, (project'.storage.spaces.get? id).map spaceMetadata =
    (project.storage.spaces.get? id).map fun space =>
      { spaceMetadata space with mappingIds := space.priorityList.map renumber }
  increasing : StrictMonoOn renumber {id | (project.storage.mappings.get? id).isSome}
  mappings : ∀ id mapping, project.storage.mappings.get? id = some mapping →
    ∃ mapping', project'.storage.mappings.get? (renumber id) = some mapping' ∧
      SegmentStorage.SameMapping mapping mapping'
  onto : ∀ id', (project'.storage.mappings.get? id').isSome →
    ∃ id, (project.storage.mappings.get? id).isSome ∧ renumber id = id'

/-- What a reload keeps: the layout, and the byte at every address of every space. -/
structure Reloaded (contents : D → ℕ → Option UInt8)
    (renumber : SegmentMappingId → SegmentMappingId) (project project' : ProjectStorage D S E) :
    Prop where
  alike : Alike renumber project project'
  bytes : ∀ space address,
    project'.storage.readByte contents project'.fillByte space address =
      project.storage.readByte contents project.fillByte space address

/-- A storage that was loaded from the file of another one. -/
structure Loaded (contents : D → ℕ → Option UInt8) (project loaded : ProjectStorage D S E) :
    Prop where
  laidOut : SegmentStorage.LaidOut loaded.storage
  typed : Typed loaded.storage
  providers : ∀ id, (loaded.storage.providers.get? id).map contents =
    (project.storage.providers.get? id).map contents
  file : loaded.file = some project.metadata
  persisted : loaded.persistedRevision = loaded.storage.revision
  alike : ∃ renumber, Alike renumber project loaded

namespace SegmentStorage

/-! ## Reading -/

/-- Whether a mapping contains an address. -/
def contains (mappings : OrdMap SegmentMappingId SegmentMapping) (address : ℕ)
    (id : SegmentMappingId) : Bool :=
  (mappings.get? id).any fun mapping =>
    decide (mapping.range.start ≤ address ∧ address ≤ mapping.range.stop)

def mappedByte (contents : D → ℕ → Option UInt8) (storage : SegmentStorage D S E) (address : ℕ)
    (id : SegmentMappingId) : Option UInt8 :=
  (storage.mappings.get? id).bind fun mapping =>
    if mapping.properties &&& 1 ≠ 0 then
      (storage.providers.get? mapping.providerId).bind fun provider =>
        contents provider (mapping.offset.toNat + (address - mapping.range.start))
    else none

variable {storage : SegmentStorage D S E}

variable {space : AddressSpace S E}

theorem readByte_eq {id : AddressSpaceId} (found : storage.spaces.get? id = some space)
    (laid : Laid storage.mappings.get? space) (contents : D → ℕ → Option UInt8)
    (fillByte : UInt8) (address : ℕ) :
    storage.readByte contents fillByte id address =
      some (((space.priorityList.reverse.find? (contains storage.mappings address)).bind
        (storage.mappedByte contents address)).getD fillByte) := by
  have visible := find_visible laid address
  unfold readByte
  rw [found, map_some]
  change _ = some (((space.priorityList.reverse.find? fun id =>
    (storage.mappings.get? id).any fun mapping =>
      decide (mapping.range.start ≤ address ∧ address ≤ mapping.range.stop)).bind _).getD _)
  rw [← visible]
  cases at_ : space.findContaining address with
  | none => rfl
  | some view =>
    -- the submapping at an address belongs to a mapping as it is now
    obtain ⟨x, mem, -, rfl⟩ := (findContaining_eq_some laid.submapped.apart).mp at_
    obtain ⟨-, mapping, isKnown, current, -⟩ := laid.spaceLayout.current x mem
    rw [current] at isKnown
    simp [bind_some, map_some, mappedByte, isKnown, current, true_and]

variable {contents : D → ℕ → Option UInt8}

omit mapS mapE in
theorem mappedByte_congr {storage storage' : SegmentStorage D S E} {id id' : SegmentMappingId}
    {mapping mapping' : SegmentMapping} (found : storage.mappings.get? id = some mapping)
    (found' : storage'.mappings.get? id' = some mapping') (same : SameMapping mapping mapping')
    (providers : ∀ provider, (storage'.providers.get? provider).map contents =
      (storage.providers.get? provider).map contents) (address : ℕ) :
    storage'.mappedByte contents address id' = storage.mappedByte contents address id := by
  have through : ∀ (storage : SegmentStorage D S E) (provider : SegmentStorageProviderId)
      (offset : ℕ), ((storage.providers.get? provider).bind fun provider =>
        contents provider offset) =
      ((storage.providers.get? provider).map contents).bind fun bytes => bytes offset := by
    intro storage provider offset
    cases storage.providers.get? provider <;> rfl
  unfold mappedByte
  rw [found, found', bind_some, bind_some, same.properties, same.providerId,
    same.offset, same.range, through, through, providers]

/-! ## Loading -/

/-- The storage after the providers and the spaces have been loaded. -/
structure Opened (contents : D → ℕ → Option UInt8) (project storage : SegmentStorage D S E) :
    Prop where
  providers : ∀ id, (storage.providers.get? id).map contents =
    (project.providers.get? id).map contents
  spaces : ∀ id, storage.spaces.get? id =
    (project.spaces.get? id).map fun space => spaceOf (spaceMetadata space)
  mappings : storage.mappings = .empty
  mappingCtr : storage.mappingCtr = 0
  revision : storage.revision ≤ 2 ^ 32

theorem spaces_ids (laidOut : LaidOut storage) :
    ((storage.spaces.entries.map fun entry => spaceMetadata entry.2).map
      AddressSpaceMetadata.id) = storage.spaces.entries.map Prod.fst := by
  rw [List.map_map]
  exact map_congr_left fun entry mem => (laidOut.spaces entry.1 entry.2 mem).1

variable {reopen : SegmentStorageProviderId → Except Error D} {project : ProjectStorage D S E}

theorem withProviders_ok
    (typed : Typed project.storage) (reopens : Reopens reopen contents project.storage) :
    ∃ storage : SegmentStorage D S E, withProviders reopen project.metadata = .ok storage ∧
      (∀ id, (storage.providers.get? id).map contents =
        (project.storage.providers.get? id).map contents) ∧
      storage.spaces = .empty ∧ storage.mappings = .empty ∧ storage.mappingCtr = 0 ∧
      storage.revision ≤ 2 ^ 32 := by
  have few := length_le_of_lt (keys_nodup _) typed.providers
  have opens : ∀ id ∈ project.metadata.providers, ∃ provider, reopen id = .ok provider := by
    intro id mem
    obtain ⟨entry, inside, rfl⟩ := List.mem_map.mp mem
    obtain ⟨provider, opened, -⟩ := reopens entry.1 entry.2 (get?_eq_some.mpr inside)
    exact ⟨provider, opened⟩
  obtain ⟨providers, ctr, run, get⟩ := loadProviders_spec project.metadata.providers
    (empty : SegmentStorage D S E) opens
    (show 0 + project.metadata.providers.length < 2 ^ 64 from by
      change 0 + (project.storage.providers.entries.map Prod.fst).length < 2 ^ 64
      omega)
  refine ⟨_, by rw [withProviders, run]; rfl, fun id => ?_, rfl, rfl, rfl, ?_⟩
  · rw [get id]
    cases found : project.storage.providers.get? id with
    | none =>
      have absent : id ∉ project.metadata.providers := by
        rintro mem
        obtain ⟨entry, inside, rfl⟩ := List.mem_map.mp mem
        exact get?_eq_none.mp found entry.2 inside
      rw [if_neg absent]
      rfl
    | some provider =>
      have there : id ∈ project.metadata.providers :=
        List.mem_map.mpr ⟨(id, provider), get?_eq_some.mp found, rfl⟩
      obtain ⟨provider', opened, same⟩ := reopens id provider found
      rw [if_pos there, opened]
      exact congrArg some same
  · change 0 + (project.storage.providers.entries.map Prod.fst).length ≤ 2 ^ 32
    omega

theorem loadSpaces_ok (Error : Type) (laidOut : LaidOut project.storage)
    (fresh : storage.spaces = .empty) :
    ∃ spaces ctr, (project.metadata.spaces.foldlM loadSpace storage :
        Except (LoadError Error) (SegmentStorage D S E)) =
        .ok { storage with spaces := spaces, spaceCtr := ctr } ∧
      ∀ id, spaces.get? id =
        (project.storage.spaces.get? id).map fun space => spaceOf (spaceMetadata space) := by
  obtain ⟨spaces, ctr, run, set, kept⟩ := loadSpaces_spec Error
    project.metadata.spaces storage ((spaces_ids laidOut).symm ▸ keys_nodup _)
    (fun entry _ => by rw [fresh]; rfl)
  refine ⟨spaces, ctr, run, fun id => ?_⟩
  cases found : project.storage.spaces.get? id with
  | none =>
    rw [kept id ?_, fresh]
    · rfl
    · rintro entry mem rfl
      obtain ⟨old, inside, rfl⟩ := List.mem_map.mp mem
      have isId := (laidOut.spaces old.1 old.2 inside).1
      rw [get?_eq_none] at found
      exact found old.2 (isId ▸ inside)
  | some space =>
    have inside := get?_eq_some.mp found
    obtain ⟨rfl, -⟩ := laidOut.spaces id space inside
    exact set (spaceMetadata space) (List.mem_map.mpr ⟨_, inside, rfl⟩)

/-- What the mappings of a storage become. -/
structure Numbered (mappings after : OrdMap SegmentMappingId SegmentMapping)
    (mappingMap : OrdMap SegmentMappingId SegmentMappingId) : Prop where
  mapping : ∀ id mapping, mappings.get? id = some mapping →
    ∃ mapping', mappingMap.get? id = some mapping'.id ∧
      after.get? mapping'.id = some mapping' ∧ SameMapping mapping mapping'
  increasing : StrictMonoOn (renumber mappingMap) {id | (mappings.get? id).isSome}
  onto : ∀ id', (after.get? id').isSome →
    ∃ id, (mappings.get? id).isSome ∧ renumber mappingMap id = id'

theorem Renumbered.numbered (laidOut : LaidOut storage)
    {after : OrdMap SegmentMappingId SegmentMapping}
    {mappingMap : OrdMap SegmentMappingId SegmentMappingId}
    (renumbered : Renumbered (storage.mappings.entries.map Prod.snd) 0 .empty after .empty
      mappingMap) : Numbered storage.mappings after mappingMap := by
  have place : ∀ id mapping, storage.mappings.get? id = some mapping →
      ∃ j, storage.mappings.entries[j]? = some (id, mapping) := fun id mapping found =>
    mem_iff_getElem?.mp (get?_eq_some.mp found)
  have isId : ∀ id mapping, storage.mappings.get? id = some mapping → mapping.id = id :=
    fun id mapping found => (laidOut.mappings id mapping (get?_eq_some.mp found)).1
  have number : ∀ j id mapping, storage.mappings.entries[j]? = some (id, mapping) →
      ∃ mapping', after.get? j = some mapping' ∧ mapping'.id = j ∧ SameMapping mapping mapping' ∧
        mappingMap.get? id = some j := by
    intro j id mapping at_
    obtain ⟨mapping', get, newId, same, map⟩ := renumbered.mapping j mapping (by
      rw [getElem?_map, at_]
      rfl)
    rw [zero_add] at get newId map
    rw [isId id mapping (get?_eq_some.mpr (mem_of_getElem? at_))] at map
    exact ⟨mapping', get, newId, same, map⟩
  refine ⟨fun id mapping found => ?_, fun id here id' here' lt => ?_, fun id' there => ?_⟩
  · obtain ⟨j, at_⟩ := place id mapping found
    obtain ⟨mapping', get, rfl, same, map⟩ := number j id mapping at_
    exact ⟨mapping', map, get, same⟩
  · obtain ⟨mapping, found⟩ := isSome_iff_exists.mp here
    obtain ⟨mapping', found'⟩ := isSome_iff_exists.mp here'
    obtain ⟨j, at_⟩ := place id mapping found
    obtain ⟨j', at'⟩ := place id' mapping' found'
    obtain ⟨-, -, -, -, map⟩ := number j id mapping at_
    obtain ⟨-, -, -, -, map'⟩ := number j' id' mapping' at'
    unfold renumber
    rw [map, map', getD_some, getD_some]
    by_contra le
    obtain ⟨bound, rfl_⟩ := List.getElem?_eq_some_iff.mp at_
    obtain ⟨bound', rfl'⟩ := List.getElem?_eq_some_iff.mp at'
    rcases Nat.lt_or_eq_of_le (not_lt.mp le) with before | same
    · have sorted := pairwise_iff_getElem.mp storage.mappings.sorted j' j bound' bound before
      rw [rfl_, rfl'] at sorted
      exact lt.not_gt sorted
    · subst same
      rw [at'] at at_
      obtain ⟨rfl, -⟩ := Prod.mk.inj (Option.some.inj at_)
      exact lt.ne rfl
  · have small : id' < storage.mappings.entries.length := by
      by_contra large
      have beyond : 0 + (storage.mappings.entries.map Prod.snd).length ≤ id' := by
        rw [length_map, zero_add]
        exact not_lt.mp large
      rw [renumbered.beyond id' beyond] at there
      cases there
    obtain ⟨entry, at_⟩ : ∃ entry, storage.mappings.entries[id']? = some entry :=
      ⟨_, getElem?_eq_getElem small⟩
    obtain ⟨-, -, -, -, map⟩ := number id' entry.1 entry.2 at_
    refine ⟨entry.1, ?_, ?_⟩
    · rw [get?_eq_some.mpr (mem_of_getElem? at_)]
      rfl
    · unfold renumber
      rw [map]
      rfl

theorem Opened.checkSpaces_iff
    {project storage : SegmentStorage D S E} (opened : Opened contents project storage) :
    (storage.checkSpaces : Except (LoadError Error) Unit) = .ok () ↔
      (project.spaces.get? 0).map AddressSpace.kind = some .base ∧
      ∀ id space base, project.spaces.get? id = some space → space.kind = .overlay base →
        (project.spaces.get? base).isSome := by
  rw [checkSpaces_eq_ok]
  simp only [opened.spaces, Option.map_map, isSome_map]
  refine and_congr Iff.rfl ⟨fun bases id space base found kind => ?_, ?_⟩
  · exact bases id (spaceOf (spaceMetadata space)) base (by rw [found]; rfl) kind
  · intro bases id space base found kind
    obtain ⟨old, isOld, rfl⟩ := map_eq_some_iff.mp found
    exact bases id old base isOld kind

theorem opened_spec (laidOut : LaidOut project.storage) (typed : Typed project.storage)
    (reopens : Reopens reopen contents project.storage) :
    ∃ storage : SegmentStorage D S E, Opened contents project.storage storage ∧
      fromStorage reopen project.metadata = if (project.storage.spaces.get? 0).isSome then do
          storage.checkSpaces
          let loaded ← project.metadata.mappings.foldlM loadMapping (storage, .empty)
          let placed ← project.metadata.spaces.foldlM (loadPlacements loaded.2) loaded.1
          return ⟨placed, project.fillByte, placed.revision, some project.metadata⟩
        else .error .noDefaultSpace := by
  obtain ⟨storage, opened, providers, spaces, mappings, counter, revision⟩ :=
    withProviders_ok typed reopens
  obtain ⟨loaded, spaceCtr, run, get⟩ := loadSpaces_ok Error laidOut spaces
  refine ⟨{ storage with spaces := loaded, spaceCtr := spaceCtr },
    ⟨providers, get, mappings, counter, revision⟩, ?_⟩
  have default : (project.metadata.spaces.all fun space => decide (space.id ≠ 0)) =
      !(project.storage.spaces.get? 0).isSome := by
    cases found : project.storage.spaces.get? 0 with
    | none =>
      refine List.all_eq_true.mpr fun entry mem => decide_eq_true ?_
      obtain ⟨old, inside, rfl⟩ := List.mem_map.mp mem
      intro zero
      have isId := (laidOut.spaces old.1 old.2 inside).1
      exact get?_eq_none.mp found old.2 ((isId.symm.trans zero) ▸ inside)
    | some space =>
      have inside := get?_eq_some.mp found
      refine List.all_eq_false.mpr ⟨spaceMetadata space, List.mem_map.mpr ⟨_, inside, rfl⟩, ?_⟩
      have isId : (spaceMetadata space).id = 0 := (laidOut.spaces 0 space inside).1
      simp [isId]
  unfold fromStorage
  rw [opened]
  change (if (project.metadata.spaces.all fun space => decide (space.id ≠ 0)) = true then _ else _)
    = _
  rw [default]
  by_cases some_ : (project.storage.spaces.get? 0).isSome = true
  · rw [if_pos some_, some_]
    unfold loadLayout
    rw [run]
    rfl
  · rw [if_neg some_, Bool.eq_false_of_not_eq_true some_]
    rfl

theorem map_isSome {α β γ : Type} {f : α → γ} {g : β → γ} {x : Option α} {y : Option β}
    (same : x.map f = y.map g) : x.isSome = y.isSome := by
  rw [← isSome_map, same, isSome_map]

/-- A file that is loaded passes the checks. -/
theorem closed_of_fromStorage {project loaded : ProjectStorage D S E}
    (laidOut : LaidOut project.storage) (typed : Typed project.storage)
    (reopens : Reopens reopen contents project.storage)
    (run : fromStorage reopen project.metadata = .ok loaded) : Closed project.storage := by
  obtain ⟨storage, opened, eq⟩ := opened_spec laidOut typed reopens
  rw [eq] at run
  split at run
  · obtain ⟨_, checked, run⟩ := bind_eq_ok.mp run
    obtain ⟨made, mapped, -⟩ := bind_eq_ok.mp run
    obtain ⟨default, bases⟩ := opened.checkSpaces_iff.mp checked
    refine ⟨default, bases, fun id mapping found => ?_⟩
    obtain ⟨provider, space⟩ := of_loadMappings_ok _ mapped (metadataOf mapping)
      (List.mem_map.mpr ⟨(id, mapping), get?_eq_some.mp found, rfl⟩)
    rw [map_isSome (opened.providers _)] at provider
    rw [opened.spaces, isSome_map] at space
    exact ⟨provider, space⟩
  · cases run

/-- The bytes of a space are read from the mappings in their old order. -/
theorem readByte_reloaded {storage storage' : SegmentStorage D S E}
    {id : AddressSpaceId} {space space' : AddressSpace S E}
    (found : storage.spaces.get? id = some space) (laid : Laid storage.mappings.get? space)
    (found' : storage'.spaces.get? id = some space') (laid' : Laid storage'.mappings.get? space')
    {renumber : SegmentMappingId → SegmentMappingId}
    (list : space'.priorityList = space.priorityList.map renumber)
    (mappings : ∀ id mapping, storage.mappings.get? id = some mapping →
      ∃ mapping', storage'.mappings.get? (renumber id) = some mapping' ∧
        SameMapping mapping mapping')
    (providers : ∀ provider, (storage'.providers.get? provider).map contents =
      (storage.providers.get? provider).map contents) (fillByte : UInt8) (address : ℕ) :
    storage'.readByte contents fillByte id address =
      storage.readByte contents fillByte id address := by
  have known : ∀ old ∈ space.priorityList, ∃ mapping, storage.mappings.get? old = some mapping := by
    intro old mem
    obtain ⟨placement, placed⟩ := (mem_priorityList laid.indexed).mp mem
    obtain ⟨mapping, isKnown, -⟩ := laid.indexed.placed old placement placed
    exact ⟨mapping, isKnown⟩
  have same : space.priorityList.reverse.find? (contains storage'.mappings address ∘ renumber) =
      space.priorityList.reverse.find? (contains storage.mappings address) := by
    refine find?_congr fun old mem => ?_
    obtain ⟨mapping, isKnown⟩ := known old (mem_reverse.mp mem)
    obtain ⟨mapping', isKnown', same⟩ := mappings old mapping isKnown
    simp [Function.comp_apply, contains, isKnown, isKnown', any_some, same.range]
  rw [readByte_eq found laid, readByte_eq found' laid', list, ← map_reverse, find?_map, same]
  cases visible : space.priorityList.reverse.find? (contains storage.mappings address) with
  | none => rfl
  | some old =>
    obtain ⟨mapping, isKnown⟩ := known old
      (mem_reverse.mp (mem_of_find?_eq_some visible))
    obtain ⟨mapping', isKnown', same⟩ := mappings old mapping isKnown
    rw [map_some, bind_some, bind_some, mappedByte_congr isKnown isKnown' same providers]

theorem Laid.listed {mappings : OrdMap SegmentMappingId SegmentMapping}
    (laid : Laid mappings.get? space) {id : SegmentMappingId} (mem : id ∈ space.priorityList) :
    ∃ mapping, mappings.get? id = some mapping := by
  obtain ⟨placement, placed⟩ := (mem_priorityList laid.indexed).mp mem
  obtain ⟨mapping, isKnown, -⟩ := laid.indexed.placed id placement placed
  exact ⟨mapping, isKnown⟩

theorem priorityList_length (typed : Typed storage) (laid : Laid storage.mappings.get? space) :
    space.priorityList.length ≤ 2 ^ 32 := by
  refine length_le_of_lt (priorityList_nodup laid.indexed) fun id mem => ?_
  obtain ⟨mapping, isKnown⟩ := Laid.listed laid mem
  exact typed.mappings id (List.mem_map.mpr ⟨(id, mapping), get?_eq_some.mp isKnown, rfl⟩)

theorem placements_le (laidOut : LaidOut project.storage)
    (typed : Typed project.storage) : placements project.metadata.spaces ≤ 2 ^ 48 := by
  have spaces := length_le_of_lt (keys_nodup _) typed.spaces
  rw [length_map] at spaces
  have each : ∀ count ∈ project.metadata.spaces.map fun entry => entry.mappingIds.length,
      count ≤ 2 ^ 32 := by
    intro count mem
    obtain ⟨entry, inside, rfl⟩ := List.mem_map.mp mem
    obtain ⟨old, there, rfl⟩ := List.mem_map.mp inside
    exact priorityList_length typed (laidOut.spaces old.1 old.2 there).2
  have total := sum_le_card_nsmul _ _ each
  rw [length_map, smul_eq_mul] at total
  have length : project.metadata.spaces.length = project.storage.spaces.entries.length :=
    length_map _
  unfold placements
  omega

/-- A file whose checks pass is loaded, and what is loaded is what was written. -/
theorem fromStorage_reloaded (laidOut : LaidOut project.storage) (typed : Typed project.storage)
    (reopens : Reopens reopen contents project.storage) (closed : Closed project.storage) :
    ∃ loaded : ProjectStorage D S E, fromStorage reopen project.metadata = .ok loaded ∧
      Loaded contents project loaded := by
  obtain ⟨storage, opened, eq⟩ := opened_spec laidOut typed reopens
  have mappingCount := length_le_of_lt (keys_nodup _) typed.mappings
  rw [length_map] at mappingCount
  have ids : (project.storage.mappings.entries.map Prod.snd).map SegmentMapping.id =
      project.storage.mappings.entries.map Prod.fst := by
    rw [List.map_map]
    exact map_congr_left fun entry mem => (laidOut.mappings entry.1 entry.2 mem).1
  have metadata : project.metadata.mappings =
      (project.storage.mappings.entries.map Prod.snd).map metadataOf := by
    rw [List.map_map]
    rfl
  obtain ⟨after, mappingMap, mapped, renumbered⟩ := loadMappings_spec Error
    (project.storage.mappings.entries.map Prod.snd) (storage, .empty) (ids ▸ keys_nodup _)
    (fun mapping mem => by
      obtain ⟨entry, inside, rfl⟩ := List.mem_map.mp mem
      obtain ⟨provider, space⟩ := closed.mappings _ _ (get?_eq_some.mpr inside)
      rw [map_isSome (opened.providers _), opened.spaces, isSome_map]
      exact ⟨provider, space⟩)
    (by rw [opened.mappingCtr, length_map]; omega)
    (by
      have few := opened.revision
      rw [length_map]
      change storage.revision + _ < 2 ^ 64
      omega)
  rw [opened.mappingCtr, opened.mappings] at renumbered
  have numbered := renumbered.numbered laidOut
  have total := placements_le laidOut typed
  have renumber_eq : ∀ id mapping', mappingMap.get? id = some mapping' →
      renumber mappingMap id = mapping' := by
    intro id mapping' map
    unfold renumber
    rw [map]
    rfl
  have injective : ∀ {space : AddressSpace S E}, Laid project.storage.mappings.get? space →
      (space.priorityList.map (renumber mappingMap)).Nodup := by
    intro space laid
    refine (priorityList_nodup laid.indexed).map_on fun id mem id' mem' same => ?_
    obtain ⟨mapping, found⟩ := Laid.listed laid mem
    obtain ⟨mapping', found'⟩ := Laid.listed laid mem'
    have here := isSome_iff_exists.mpr ⟨mapping, found⟩
    have here' := isSome_iff_exists.mpr ⟨mapping', found'⟩
    exact numbered.increasing.injOn here here' same
  obtain ⟨spaces, placed, set, kept⟩ := loadPlacements_spec Error mappingMap
    project.metadata.spaces { storage with
      mappings := after
      mappingCtr := storage.mappingCtr + (project.storage.mappings.entries.map Prod.snd).length
      revision := storage.revision + (project.storage.mappings.entries.map Prod.snd).length }
    ((spaces_ids laidOut).symm ▸ keys_nodup _)
    (fun entry mem => by
      obtain ⟨old, inside, rfl⟩ := List.mem_map.mp mem
      have found := get?_eq_some.mpr inside
      rw [← (laidOut.spaces old.1 old.2 inside).1] at found
      rw [opened.spaces, found]
      rfl)
    (fun entry mem => by
      obtain ⟨old, inside, rfl⟩ := List.mem_map.mp mem
      have laid := (laidOut.spaces old.1 old.2 inside).2
      refine ⟨fun id listed => ?_, injective laid, priorityList_length typed laid⟩
      obtain ⟨mapping, found⟩ := Laid.listed laid listed
      obtain ⟨mapping', map, get, -⟩ := numbered.mapping id mapping found
      exact ⟨mapping', map, get⟩)
    (by
      have few := opened.revision
      dsimp only
      rw [length_map]
      omega)
  have default : (project.storage.spaces.get? 0).isSome := by
    rw [← isSome_map, closed.default]
    rfl
  rw [if_pos default, opened.checkSpaces_iff.mpr ⟨closed.default, closed.bases⟩, metadata,
    mapped] at eq
  change _ = (project.metadata.spaces.foldlM (loadPlacements mappingMap) _ >>= _) at eq
  rw [placed] at eq
  have mappings : ∀ id mapping, project.storage.mappings.get? id = some mapping →
      ∃ mapping', after.get? (renumber mappingMap id) = some mapping' ∧
        SameMapping mapping mapping' := by
    intro id mapping found
    obtain ⟨mapping', map, get, same⟩ := numbered.mapping id mapping found
    rw [renumber_eq id _ map]
    exact ⟨mapping', get, same⟩
  have space : ∀ id space, project.storage.spaces.get? id = some space →
      ∃ space', spaces.get? id = some space' ∧ PlacedAs after id space.kind space.name
        (space.priorityList.map (renumber mappingMap)) space' := by
    intro id space found
    have inside := get?_eq_some.mp found
    obtain ⟨rfl, -⟩ := laidOut.spaces id space inside
    exact set (spaceMetadata space) (List.mem_map.mpr ⟨_, inside, rfl⟩)
  have noSpace : ∀ id, project.storage.spaces.get? id = none → spaces.get? id = none := by
    intro id none
    rw [kept id ?_]
    · rw [opened.spaces, none]
      rfl
    · rintro entry mem rfl
      obtain ⟨old, inside, rfl⟩ := List.mem_map.mp mem
      have isId := (laidOut.spaces old.1 old.2 inside).1
      exact get?_eq_none.mp none old.2 (isId ▸ inside)
  have below : ∀ id, (after.get? id).isSome → id < project.storage.mappings.entries.length := by
    intro id there
    by_contra large
    have beyond : 0 + (project.storage.mappings.entries.map Prod.snd).length ≤ id := by
      rw [length_map, zero_add]
      exact not_lt.mp large
    rw [renumbered.beyond id beyond] at there
    cases there
  have counter : storage.mappingCtr + (project.storage.mappings.entries.map Prod.snd).length =
      project.storage.mappings.entries.length := by
    rw [opened.mappingCtr, length_map, zero_add]
  refine ⟨_, eq, ⟨fun id mapping mem => ?_, fun id placed mem => ?_⟩, ⟨?_, ?_, ?_⟩, opened.providers,
    rfl, rfl, renumber mappingMap, rfl, fun id => ?_, numbered.increasing, mappings,
    numbered.onto⟩
  · have found := get?_eq_some.mpr mem
    have there := isSome_iff_exists.mpr ⟨mapping, found⟩
    obtain ⟨old, known, isNew⟩ := numbered.onto id there
    obtain ⟨oldMapping, isOld⟩ := isSome_iff_exists.mp known
    obtain ⟨mapping', map, get, -⟩ := numbered.mapping old oldMapping isOld
    rw [renumber_eq old _ map] at isNew
    subst isNew
    cases get.symm.trans found
    exact ⟨rfl, counter ▸ below _ there⟩
  · have found := get?_eq_some.mpr mem
    cases was : project.storage.spaces.get? id with
    | none => exact absurd found (by rw [noSpace id was]; exact nofun)
    | some old =>
      obtain ⟨space', get, placedAs⟩ := space id old was
      cases get.symm.trans found
      exact ⟨placedAs.id, placedAs.laid⟩
  · intro id mem
    obtain ⟨entry, inside, rfl⟩ := List.mem_map.mp mem
    have there := map_isSome (opened.providers entry.1)
    rw [get?_eq_some.mpr inside] at there
    obtain ⟨provider, found⟩ := isSome_iff_exists.mp there.symm
    exact typed.providers _ (List.mem_map.mpr ⟨_, get?_eq_some.mp found, rfl⟩)
  · intro id mem
    obtain ⟨entry, inside, rfl⟩ := List.mem_map.mp mem
    have lt := below entry.1 (isSome_iff_exists.mpr ⟨_, get?_eq_some.mpr inside⟩)
    exact lt.trans_le mappingCount
  · intro id mem
    obtain ⟨entry, inside, rfl⟩ := List.mem_map.mp mem
    cases was : project.storage.spaces.get? entry.1 with
    | none =>
      have found := get?_eq_some.mpr inside
      exact absurd found (by rw [noSpace entry.1 was]; exact nofun)
    | some old =>
      exact typed.spaces _ (List.mem_map.mpr ⟨_, get?_eq_some.mp was, rfl⟩)
  · cases found : project.storage.spaces.get? id with
    | none =>
      rw [noSpace id found]
      rfl
    | some old =>
      obtain ⟨space', get, placedAs⟩ := space id old found
      have isId := (laidOut.spaces id old (get?_eq_some.mp found)).1
      rw [get, map_some, map_some]
      unfold spaceMetadata
      rw [placedAs.id, placedAs.kind, placedAs.name, placedAs.list, isId]

end SegmentStorage

end Fugue.Storage.Segments
