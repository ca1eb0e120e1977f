import Fugue.Storage.Segments.LayoutRun

/-!
# Segment metadata

`persist_storage` (`storage/segments/mod.rs:875-974`) writes what a storage is made of to a file, and
`from_storage_internal` (`mod.rs:447-596`) makes a storage of it again: it opens the providers, makes
the spaces and the mappings, which get new ids, and places the mappings in the order of their
priorities. The file is a value here, and writing it succeeds. A provider is reopened by a parameter;
its tag and permissions are part of it.
-/

namespace Fugue.Storage.Segments

open Fugue.Lib Fugue.Ir

/-- `AddressSpaceMetadata` (`mod.rs:143-148`). -/
structure AddressSpaceMetadata where
  id : AddressSpaceId
  kind : AddressSpaceKind
  name : Option String
  mappingIds : List SegmentMappingId

/-- `MappingMetadata` (`mod.rs:151-162`), without the hints. -/
structure MappingMetadata where
  id : SegmentMappingId
  name : String
  range : AddressRange
  physicalOffset : UInt64
  properties : SegmentProperties
  kind : SegmentMappingKind
  provenance : SegmentMappingProvenance
  flags : UInt32
  providerId : SegmentStorageProviderId

/-- `SegmentStorageMetadata` (`mod.rs:165-172`). -/
structure SegmentStorageMetadata where
  providers : List SegmentStorageProviderId
  spaces : List AddressSpaceMetadata
  mappings : List MappingMetadata
  fillByte : UInt8
  syntheticProvider : Option SegmentStorageProviderId

/-- `AddressSpace::priority_list` (`space.rs:223-227`), the ids from the lowest priority up. -/
def AddressSpace.priorityList {S E : Type} (space : AddressSpace S E) : List SegmentMappingId :=
  space.mappingsByPriority.entries.map fun entry => entry.2.mappingId

structure ProjectStorage (D S E : Type) where
  storage : SegmentStorage D S E
  fillByte : UInt8
  persistedRevision : ℕ
  file : Option SegmentStorageMetadata

namespace ProjectStorage

variable {D S E : Type} (project : ProjectStorage D S E)

/-- The metadata of a storage (`mod.rs:897-947`). -/
def metadata : SegmentStorageMetadata where
  providers := project.storage.providers.entries.map Prod.fst
  spaces := project.storage.spaces.entries.map fun entry =>
    ⟨entry.2.id, entry.2.kind, entry.2.name, entry.2.priorityList⟩
  mappings := project.storage.mappings.entries.map fun entry =>
    ⟨entry.2.id, entry.2.name, entry.2.range, entry.2.offset, entry.2.properties, entry.2.kind,
      entry.2.provenance, entry.2.flags, entry.2.providerId⟩
  fillByte := project.fillByte
  syntheticProvider := project.storage.syntheticProvider

/-- `persist_storage` (`mod.rs:875-974`). -/
def persist : ProjectStorage D S E :=
  if project.persistedRevision = project.storage.revision then project
  else { project with
    file := some project.metadata
    persistedRevision := project.storage.revision }

/-- `set_fill_byte` (`mod.rs:615-618`). -/
def setFillByte (byte : UInt8) : Except Panic (ProjectStorage D S E) := do
  return { project with storage := ← project.storage.touch, fillByte := byte }

end ProjectStorage

/-- Why a file is refused, or the code stops. -/
inductive LoadError (Error : Type) where
  | panic (panic : Panic)
  | layout (error : LayoutError Error)
  | provider (error : Error)
  | noDefaultSpace
  | duplicateSpace (id : AddressSpaceId)
  | defaultNotBase
  | missingOverlayBase (base : AddressSpaceId)
  | invalidAddressRange
  | unknownProvider (id : SegmentStorageProviderId)
  | unknownSpace (id : AddressSpaceId)
  | unknownMapping (id : SegmentMappingId)

namespace SegmentStorage

variable {D S E Error : Type} [IntervalMap S SegmentSubMapping] [IntervalMap E SegmentMappingId]

/-- An operation of a storage that is being made. -/
def loading {α : Type} : Except Panic (Outcome D S E Error α) →
    Except (LoadError Error) (SegmentStorage D S E × α)
  | .error panic => .error (.panic panic)
  | .ok (storage, .ok result) => .ok (storage, result)
  | .ok (_, .error error) => .error (.layout error)

variable (reopen : SegmentStorageProviderId → Except Error D) (storage : SegmentStorage D S E)

/-- `open_boxed_provider` (`mod.rs:1024-1039`) for a provider of the file (`mod.rs:462-485`). -/
def loadProvider (id : SegmentStorageProviderId) :
    Except (LoadError Error) (SegmentStorage D S E) :=
  match reopen id with
  | .error error => .error (.provider error)
  | .ok provider =>
    (touch { storage with
      providerCtr := max storage.providerCtr (id + 1)
      providers := storage.providers.insert id provider }).mapError .panic

def spaceOf (entry : AddressSpaceMetadata) : AddressSpace S E :=
  { AddressSpace.newWith entry.id entry.kind with name := entry.name }

/-- The body of the loop over the spaces (`mod.rs:502-522`). -/
def loadSpace (entry : AddressSpaceMetadata) :
    Except (LoadError Error) (SegmentStorage D S E) :=
  if (storage.spaces.get? entry.id).isSome then .error (.duplicateSpace entry.id)
  else .ok { storage with
    spaces := storage.spaces.insert entry.id (spaceOf entry)
    spaceCtr := max storage.spaceCtr (entry.id + 1) }

/-- The base of an overlay is there (`mod.rs:536-542`). -/
def checkBase (entry : AddressSpaceId × AddressSpace S E) :
    Except (LoadError Error) Unit :=
  match entry.2.kind with
  | .base => .ok ()
  | .overlay base =>
    if (storage.spaces.get? base).isSome then .ok () else .error (.missingOverlayBase base)

/-- The checks of the spaces (`mod.rs:524-542`). -/
def checkSpaces : Except (LoadError Error) Unit :=
  if (storage.spaces.get? 0).map AddressSpace.kind = some .base then
    storage.spaces.entries.forM storage.checkBase
  else .error .defaultNotBase

/-- The builder of an entry of the file (`mod.rs:565-577`). -/
def builderOf (entry : MappingMetadata) : SegmentMappingBuilder :=
  ⟨entry.range.startAddress, .ofNat (entry.range.stop - entry.range.start + 1),
    entry.physicalOffset, entry.providerId, entry.properties, entry.kind, entry.provenance,
    entry.flags, entry.name⟩

/-- The body of the loop over the mappings (`mod.rs:545-580`); the size of a range is `none` if it
does not fit and zero if the range is empty. -/
def loadMapping (loaded : SegmentStorage D S E × OrdMap SegmentMappingId SegmentMappingId)
    (entry : MappingMetadata) :
    Except (LoadError Error) (SegmentStorage D S E × OrdMap SegmentMappingId SegmentMappingId) :=
  if entry.range.stop < entry.range.start ∨
      2 ^ 64 ≤ entry.range.stop - entry.range.start + 1 then .error .invalidAddressRange
  else if (loaded.1.providers.get? entry.providerId).isNone then
    .error (.unknownProvider entry.providerId)
  else if (loaded.1.spaces.get? entry.range.space).isNone then
    .error (.unknownSpace entry.range.space)
  else (loading (loaded.1.createMappingFromBuilder (builderOf entry))).map fun created =>
    (created.1, loaded.2.insert entry.id created.2)

/-- The body of the inner loop over the placements (`mod.rs:583-590`). -/
def loadPlacement (mappingMap : OrdMap SegmentMappingId SegmentMappingId) (space : AddressSpaceId)
    (storage : SegmentStorage D S E) (mapping : SegmentMappingId) :
    Except (LoadError Error) (SegmentStorage D S E) :=
  match mappingMap.get? mapping with
  | none => .error (.unknownMapping mapping)
  | some mapping => (loading (storage.addMappingToSpaceAt space mapping .top)).map Prod.fst

/-- The loop over the placements (`mod.rs:581-591`). -/
def loadPlacements (mappingMap : OrdMap SegmentMappingId SegmentMappingId)
    (storage : SegmentStorage D S E) (entry : AddressSpaceMetadata) :
    Except (LoadError Error) (SegmentStorage D S E) :=
  entry.mappingIds.foldlM (loadPlacement mappingMap entry.id) storage

variable (metadata : SegmentStorageMetadata)

/-- The storage with the providers of a file, before its spaces. -/
def withProviders : Except (LoadError Error) (SegmentStorage D S E) := do
  let storage ← metadata.providers.foldlM (loadProvider reopen) (empty : SegmentStorage D S E)
  return { storage with syntheticProvider := metadata.syntheticProvider, spaces := .empty }

/-- The spaces and mappings of a file (`mod.rs:502-595`). -/
def loadLayout (storage : SegmentStorage D S E) :
    Except (LoadError Error) (ProjectStorage D S E) := do
  let storage ← metadata.spaces.foldlM loadSpace storage
  storage.checkSpaces
  let loaded ← metadata.mappings.foldlM loadMapping (storage, .empty)
  let storage ← metadata.spaces.foldlM (loadPlacements loaded.2) loaded.1
  return ⟨storage, metadata.fillByte, storage.revision, some metadata⟩

/-- `from_storage_internal` (`mod.rs:447-596`). -/
def fromStorage : Except (LoadError Error) (ProjectStorage D S E) := do
  let storage : SegmentStorage D S E ← withProviders reopen metadata
  if metadata.spaces.all fun space => decide (space.id ≠ 0) then .error .noDefaultSpace
  else loadLayout metadata storage

/-- A byte of a space: `read_bytes_in_space` (`mod.rs:1594-1669`) for one address, with
`SegmentMappingView::read_bytes` (`view.rs:131-170`); `contents` is what the provider has at an
offset. -/
def readByte (contents : D → ℕ → Option UInt8) (fillByte : UInt8) (storage : SegmentStorage D S E)
    (space : AddressSpaceId) (address : ℕ) : Option UInt8 :=
  (storage.spaces.get? space).map fun space =>
    ((space.findContaining address).bind fun view =>
      (storage.mappings.get? view.mappingRef.mappingId).bind fun mapping =>
        if view.mappingRef = mapping.mappingRef ∧ mapping.properties &&& 1 ≠ 0 then
          (storage.providers.get? mapping.providerId).bind fun provider =>
            contents provider (mapping.offset.toNat + (address - mapping.range.start))
        else none).getD fillByte

end SegmentStorage

end Fugue.Storage.Segments
