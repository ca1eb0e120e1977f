import Fugue.Storage.Segments.Space

/-!
# Segment storage

The part of `fugue-core/src/storage/segments/mod.rs` that lays out the address spaces: providers,
mappings and spaces come and go, and each change of a mapping is carried into every space in which
it is placed. An operation returns a result beside the storage that it leaves, also where the result
is an error.
-/

namespace Fugue.Storage.Segments

open Fugue.Lib Fugue.Ir

theorem rangeFromSize_spec {start : Address} {size : ℕ} {range : AddressRange}
    (some_ : rangeFromSize start size = some range) (small : size < 2 ^ 64) :
    range.Proper ∧ range.stop - range.start + 1 < 2 ^ 64 := by
  unfold rangeFromSize at some_
  split at some_
  · cases some_
  · split at some_
    · cases some_
      exact ⟨⟨Nat.le_add_right _ _, by assumption⟩, by dsimp only; omega⟩
    · cases some_

/-- `SegmentMappingBuilder` (`mapping.rs:585-597`), without the hints. -/
structure SegmentMappingBuilder where
  start : Address
  size : UInt64
  offset : UInt64
  providerId : SegmentStorageProviderId
  properties : SegmentProperties
  kind : SegmentMappingKind
  provenance : SegmentMappingProvenance
  flags : UInt32
  name : String
  deriving Repr

namespace SegmentMapping

/-- `SegmentMapping::from_builder` (`mapping.rs:274-298`) and `new` (`mapping.rs:246-272`), where a
range whose size does not fit is refused. -/
def fromBuilder (id : SegmentMappingId) (builder : SegmentMappingBuilder) : Option SegmentMapping :=
  match found : rangeFromSize builder.start builder.size.toNat with
  | none => none
  | some range =>
    have fits := rangeFromSize_spec found builder.size.toNat_lt
    some ⟨id, range, builder.offset, builder.providerId, builder.properties, builder.kind,
      builder.provenance, builder.flags, 0, builder.name, fits.1, fits.2⟩

/-- `SegmentMapping::set_start` (`mapping.rs:379-384`); `none` where the range is refused. -/
def setStart (mapping : SegmentMapping) (start : Address) :
    Except Panic (Option SegmentMapping) :=
  match found : rangeFromSize start mapping.size with
  | none => .ok none
  | some range => do
    let revision ← nextRevision mapping.revision
    have fits := rangeFromSize_spec found mapping.sized
    return some { mapping with range := range, revision := revision, proper := fits.1,
                               sized := fits.2 }

/-- `SegmentMapping::set_size` (`mapping.rs:386-391`); `none` where the range is refused. -/
def setSize (mapping : SegmentMapping) (size : UInt64) : Except Panic (Option SegmentMapping) :=
  match found : rangeFromSize mapping.range.startAddress size.toNat with
  | none => .ok none
  | some range => do
    let revision ← nextRevision mapping.revision
    have fits := rangeFromSize_spec found size.toNat_lt
    return some { mapping with range := range, revision := revision, proper := fits.1,
                               sized := fits.2 }

/-- `SegmentMapping::update_metadata` (`mapping.rs:407-417`). -/
def updateMetadata (mapping : SegmentMapping) (kind : SegmentMappingKind)
    (provenance : SegmentMappingProvenance) (flags : UInt32) : Except Panic SegmentMapping := do
  let revision ← nextRevision mapping.revision
  return { mapping with kind := kind, provenance := provenance, flags := flags,
                        revision := revision }

end SegmentMapping

/-- The providers of a storage, as far as synthetic mappings use them
(`provider/mod.rs`, `provider/registry.rs`): their size, `resize`, `write_bytes` and
`from_segment_range` with the tag of the storage. -/
class SyntheticProvider (D Error : Type) where
  size : D → ℕ
  resize : D → ℕ → D × Except Error Unit
  writeBytes : D → ℕ → List UInt8 → D × Except Error ℕ
  fromSegmentRange : SegmentStorageProviderId → ℕ → Except Error D

/-- The errors of `SegmentStorageError` (`mod.rs:61-112`) that these operations return; those of
the providers are a parameter. -/
inductive LayoutError (Error : Type) where
  | addressSpaceOverflow (index : ℕ)
  | duplicateAddressSpace (id : AddressSpaceId)
  | duplicateAddressSpaceName (name : String)
  | duplicateMapping (id : SegmentMappingId)
  | invalidAddressRange
  | invalidOverlayBase (id : AddressSpaceId)
  | invalidSize
  | mappingAlreadyInSpace (mapping : SegmentMappingId) (space : AddressSpaceId)
  | mappingNotInSpace (mapping : SegmentMappingId) (space : AddressSpaceId)
  | providerIdsExhausted
  | unknownMapping (id : SegmentMappingId)
  | unknownProvider (id : SegmentStorageProviderId)
  | unknownSpace (id : AddressSpaceId)
  | provider (error : Error)
  deriving Repr

/-- `SegmentStorage` (`mod.rs:181-194`), without what only reading and persisting use. -/
structure SegmentStorage (D S E : Type) where
  providers : OrdMap SegmentStorageProviderId D
  mappings : OrdMap SegmentMappingId SegmentMapping
  spaces : OrdMap AddressSpaceId (AddressSpace S E)
  syntheticProvider : Option SegmentStorageProviderId
  providerCtr : ℕ
  mappingCtr : ℕ
  spaceCtr : ℕ
  revision : ℕ

namespace SegmentStorage

variable {D S E Error : Type} [IntervalMap S SegmentSubMapping] [IntervalMap E SegmentMappingId]

/-- What an operation that does not stop leaves: the storage and its result. -/
abbrev Outcome (D S E Error α : Type) := SegmentStorage D S E × Except (LayoutError Error) α

/-- The `?` operator: an error is returned with the storage as it is. -/
def andThen {α β : Type} (outcome : Except Panic (Outcome D S E Error α))
    (next : SegmentStorage D S E → α → Except Panic (Outcome D S E Error β)) :
    Except Panic (Outcome D S E Error β) := do
  let after ← outcome
  match after.2 with
  | .ok result => next after.1 result
  | .error error => return (after.1, .error error)

/-- `SegmentStorage::empty` (`mod.rs:228-246`). -/
def empty : SegmentStorage D S E where
  providers := .empty
  mappings := .empty
  spaces := OrdMap.empty.insert 0 (AddressSpace.newWith 0 .base)
  syntheticProvider := none
  providerCtr := 0
  mappingCtr := 0
  spaceCtr := 1
  revision := 0

variable (storage : SegmentStorage D S E)

/-- `SegmentStorage::touch` (`mod.rs:1929-1931`). -/
def touch : Except Panic (SegmentStorage D S E) := do
  return { storage with revision := ← nextRevision storage.revision }

/-- The operation ends with `touch` and returns a result. -/
def touched {α : Type} (result : α) : Except Panic (Outcome D S E Error α) := do
  return (← storage.touch, .ok result)

def refuse {α : Type} (error : LayoutError Error) : Except Panic (Outcome D S E Error α) :=
  .ok (storage, .error error)

/-- `SegmentMappingId::new` and `SegmentStorageProviderId::new` assert that an id is a `u32`. -/
def newId (index : ℕ) : Except Panic ℕ :=
  if index < 2 ^ 32 then .ok index else .error .exhausted

/-- `SegmentStorage::open_provider` (`mod.rs:1006-1022`). -/
def openProvider (provider : D) : Except Panic (Outcome D S E Error SegmentStorageProviderId) := do
  let id ← newId storage.providerCtr
  touched { storage with
    providerCtr := storage.providerCtr + 1
    providers := storage.providers.insert id provider } id

/-- `SegmentStorage::create_mapping_from_builder` (`mod.rs:1089-1105`). -/
def createMappingFromBuilder (builder : SegmentMappingBuilder) :
    Except Panic (Outcome D S E Error SegmentMappingId) :=
  match storage.providers.get? builder.providerId with
  | none => storage.refuse (.unknownProvider builder.providerId)
  | some _ => do
    let id ← newId storage.mappingCtr
    match SegmentMapping.fromBuilder id builder with
    | none => storage.refuse .invalidAddressRange
    | some mapping =>
      touched { storage with
        mappingCtr := storage.mappingCtr + 1
        mappings := storage.mappings.insert id mapping } id

/-- `SegmentStorage::create_mapping` (`mod.rs:1064-1087`). -/
def createMapping (providerId : SegmentStorageProviderId) (start : Address) (size offset : UInt64)
    (properties : SegmentProperties) : Except Panic (Outcome D S E Error SegmentMappingId) :=
  match storage.providers.get? providerId with
  | none => storage.refuse (.unknownProvider providerId)
  | some _ =>
    match rangeFromSize start size.toNat with
    | none => storage.refuse .invalidAddressRange
    | some _ => do
      let id ← newId storage.mappingCtr
      let counted := { storage with mappingCtr := storage.mappingCtr + 1 }
      match SegmentMapping.fromBuilder id
          ⟨start, size, offset, providerId, properties, .none, .generic, 0, ""⟩ with
      | none => counted.refuse .invalidAddressRange
      | some mapping =>
        touched { counted with mappings := counted.mappings.insert id mapping } id

/-- `SegmentStorage::create_mapping_with_id` (`mod.rs:1107-1124`). -/
def createMappingWithId (id : SegmentMappingId) (builder : SegmentMappingBuilder) :
    Except Panic (Outcome D S E Error Unit) :=
  match storage.providers.get? builder.providerId with
  | none => storage.refuse (.unknownProvider builder.providerId)
  | some _ =>
    if (storage.mappings.get? id).isSome then storage.refuse (.duplicateMapping id)
    else
      match SegmentMapping.fromBuilder id builder with
      | none => storage.refuse .invalidAddressRange
      | some mapping =>
        touched { storage with
          mappingCtr := max storage.mappingCtr (id + 1)
          mappings := storage.mappings.insert id mapping } ()

/-- `SegmentStorage::mapping_space_ids` (`mod.rs:634-640`). -/
def mappingSpaceIds (id : SegmentMappingId) : List AddressSpaceId :=
  (storage.spaces.entries.filter fun entry => entry.2.containsMapping id).map fun entry =>
    entry.2.id

/-- The loops over the ids of `mapping_space_ids` and of the mappings of a provider, with `?`. -/
def forIds (body : SegmentStorage D S E → ℕ → Except Panic (Outcome D S E Error Unit)) :
    List ℕ → SegmentStorage D S E → Except Panic (Outcome D S E Error Unit)
  | [], storage => .ok (storage, .ok ())
  | id :: rest, storage => andThen (body storage id) fun storage _ => forIds body rest storage

/-- `SegmentStorage::rebuild_submaps_in_range` (`mod.rs:1553-1583`). -/
def rebuildSubmapsInRange (spaceId : AddressSpaceId) (range : AddressRange) :
    Except Panic (Outcome D S E Error Unit) :=
  match storage.spaces.get? spaceId with
  | none => storage.refuse (.unknownSpace spaceId)
  | some space => do
    let refs ← space.mappingsOverlapping (inSpace spaceId range)
    let overlapping := refs.filterMap fun mappingRef =>
      (storage.mappings.get? mappingRef.mappingId).map fun mapping =>
        (mappingRef, mapping.range.start, mapping.size, mapping.properties)
    let rebuilt ← space.rebuildRange (inSpace spaceId range) overlapping
    return ({ storage with spaces := storage.spaces.insert spaceId rebuilt }, .ok ())

/-- `SegmentStorage::update_mapping_in_space` (`mod.rs:1514-1533`). -/
def updateMappingInSpace (mappingRef : SegmentMappingRef) (oldRange newRange : AddressRange)
    (spaceId : AddressSpaceId) : Except Panic (Outcome D S E Error Unit) :=
  match storage.spaces.get? spaceId with
  | none => storage.refuse (.unknownSpace spaceId)
  | some space => do
    let updated ← space.updateMappingRef mappingRef newRange
    let storage := { storage with spaces := storage.spaces.insert spaceId updated }
    andThen (storage.rebuildSubmapsInRange spaceId oldRange) fun storage _ =>
      if newRange ≠ oldRange then storage.rebuildSubmapsInRange spaceId newRange
      else .ok (storage, .ok ())

/-- `SegmentStorage::remove_mapping_from_space` (`mod.rs:1535-1551`). -/
def removeMappingFromSpace (mappingId : SegmentMappingId) (range : AddressRange)
    (spaceId : AddressSpaceId) : Except Panic (Outcome D S E Error Unit) :=
  match storage.spaces.get? spaceId with
  | none => storage.refuse (.unknownSpace spaceId)
  | some space => do
    match ← space.removeMappingRef mappingId with
    | none => return (storage, .ok ())
    | some removed =>
      rebuildSubmapsInRange { storage with spaces := storage.spaces.insert spaceId removed }
        spaceId range

/-- `SegmentStorage::remove_mapping` (`mod.rs:1223-1241`). -/
def removeMapping (id : SegmentMappingId) : Except Panic (Outcome D S E Error Unit) :=
  match storage.mappings.get? id with
  | none => storage.refuse (.unknownMapping id)
  | some mapping =>
    andThen (forIds (fun storage spaceId =>
        storage.removeMappingFromSpace id mapping.range spaceId)
      (storage.mappingSpaceIds id) storage) fun storage _ => do
        let _ ← expect (storage.mappings.get? id)
        touched { storage with mappings := storage.mappings.erase id } ()

/-- The end of `remap_mapping`, `resize_mapping` and `update_mapping_metadata`
(`mod.rs:1256-1266`, `1280-1290`, `1305-1315`): every space of the mapping follows its change. -/
def updateMapping (old new : SegmentMapping) : Except Panic (Outcome D S E Error Unit) :=
  let storage := { storage with mappings := storage.mappings.insert old.id new }
  andThen (forIds (fun storage spaceId =>
      storage.updateMappingInSpace new.mappingRef old.range new.range spaceId)
    (storage.mappingSpaceIds old.id) storage) fun storage _ => storage.touched ()

/-- `SegmentStorage::remap_mapping` (`mod.rs:1243-1267`). -/
def remapMapping (id : SegmentMappingId) (newStart : Address) :
    Except Panic (Outcome D S E Error Unit) :=
  match storage.mappings.get? id with
  | none => storage.refuse (.unknownMapping id)
  | some mapping => do
    match ← mapping.setStart newStart with
    | none => storage.refuse .invalidAddressRange
    | some moved => storage.updateMapping mapping moved

/-- `SegmentStorage::resize_mapping` (`mod.rs:1269-1291`). -/
def resizeMapping (id : SegmentMappingId) (newSize : UInt64) :
    Except Panic (Outcome D S E Error Unit) :=
  match storage.mappings.get? id with
  | none => storage.refuse (.unknownMapping id)
  | some mapping => do
    match ← mapping.setSize newSize with
    | none => storage.refuse .invalidAddressRange
    | some resized => storage.updateMapping mapping resized

/-- `SegmentStorage::update_mapping_metadata` (`mod.rs:1293-1316`). -/
def updateMappingMetadata (id : SegmentMappingId) (kind : SegmentMappingKind)
    (provenance : SegmentMappingProvenance) (flags : UInt32) :
    Except Panic (Outcome D S E Error Unit) :=
  match storage.mappings.get? id with
  | none => storage.refuse (.unknownMapping id)
  | some mapping => do
    storage.updateMapping mapping (← mapping.updateMetadata kind provenance flags)

/-- `SegmentStorage::close_provider` (`mod.rs:1041-1062`). -/
def closeProvider (id : SegmentStorageProviderId) : Except Panic (Outcome D S E Error Unit) :=
  andThen (forIds (fun storage mapping => storage.removeMapping mapping)
    ((storage.mappings.entries.filter fun entry => entry.2.providerId == id).map Prod.fst)
    storage) fun storage _ =>
      match storage.providers.get? id with
      | none => storage.refuse (.unknownProvider id)
      | some _ => touched { storage with providers := storage.providers.erase id } ()

/-- The end of `create_space` and `create_space_with` (`mod.rs:1319-1323`, `1345-1350`):
`AddressSpaceId::try_from` refuses what is not a `u16`. -/
def insertSpace (kind : AddressSpaceKind) (name : Option String) :
    Except Panic (Outcome D S E Error AddressSpaceId) :=
  if storage.spaceCtr < 2 ^ 16 then
    touched { storage with
      spaceCtr := storage.spaceCtr + 1
      spaces := storage.spaces.insert storage.spaceCtr
        { AddressSpace.newWith storage.spaceCtr kind with name := name } } storage.spaceCtr
  else storage.refuse (.addressSpaceOverflow storage.spaceCtr)

/-- `SegmentStorage::create_space` (`mod.rs:1318-1324`). -/
def createSpace : Except Panic (Outcome D S E Error AddressSpaceId) :=
  storage.insertSpace .base none

/-- `SegmentStorage::create_space_with` (`mod.rs:1326-1351`). -/
def createSpaceWith (name : String) (kind : AddressSpaceKind) :
    Except Panic (Outcome D S E Error AddressSpaceId) :=
  if storage.spaces.entries.any fun entry => entry.2.name == some name then
    storage.refuse (.duplicateAddressSpaceName name)
  else
    match kind with
    | .base => storage.insertSpace .base (some name)
    | .overlay base =>
      match storage.spaces.get? base with
      | none => storage.refuse (.unknownSpace base)
      | some space =>
        match space.kind with
        | .overlay _ => storage.refuse (.invalidOverlayBase base)
        | .base => storage.insertSpace (.overlay base) (some name)

/-- `SegmentStorage::create_space_with_id` (`mod.rs:1353-1372`). -/
def createSpaceWithId (id : AddressSpaceId) (name : Option String) (kind : AddressSpaceKind) :
    Except Panic (Outcome D S E Error Unit) :=
  if (storage.spaces.get? id).isSome then storage.refuse (.duplicateAddressSpace id)
  else
    touched { storage with
      spaceCtr := max storage.spaceCtr (id + 1)
      spaces := storage.spaces.insert id { AddressSpace.newWith id kind with name := name } } ()

/-- `SpacePriority` (`mod.rs:175-179`). -/
inductive SpacePriority where
  | top | bottom
  deriving DecidableEq, Repr

/-- `SegmentStorage::add_mapping_to_space_at` (`mod.rs:1420-1453`). -/
def addMappingToSpaceAt (spaceId : AddressSpaceId) (mappingId : SegmentMappingId)
    (priority : SpacePriority) : Except Panic (Outcome D S E Error Unit) :=
  match storage.mappings.get? mappingId with
  | none => storage.refuse (.unknownMapping mappingId)
  | some mapping =>
    match storage.spaces.get? spaceId with
    | none => storage.refuse (.unknownSpace spaceId)
    | some space =>
      if space.containsMapping mappingId then
        storage.refuse (.mappingAlreadyInSpace mappingId spaceId)
      else do
        let add := match priority with
          | .top => space.addMappingTop
          | .bottom => space.addMappingBottom
        let placed ← add mapping.mappingRef mapping.range.start mapping.size mapping.properties
        touched { storage with spaces := storage.spaces.insert spaceId placed } ()

/-- `SegmentStorage::add_mapping_to_space` (`mod.rs:1384-1402`). -/
def addMappingToSpace (spaceId : AddressSpaceId) (mappingId : SegmentMappingId) :
    Except Panic (Outcome D S E Error Unit) :=
  match storage.mappings.get? mappingId with
  | none => storage.refuse (.unknownMapping mappingId)
  | some mapping =>
    match mapping.provenance with
    | .segment | .fileResidue | .synthetic => storage.addMappingToSpaceAt spaceId mappingId .bottom
    | _ => storage.addMappingToSpaceAt spaceId mappingId .top

/-- `SegmentStorage::prioritise_mapping` (`mod.rs:1455-1479`). -/
def prioritiseMapping (spaceId : AddressSpaceId) (mappingId : SegmentMappingId) :
    Except Panic (Outcome D S E Error Unit) :=
  match storage.mappings.get? mappingId with
  | none => storage.refuse (.unknownMapping mappingId)
  | some mapping =>
    match storage.spaces.get? spaceId with
    | none => storage.refuse (.unknownSpace spaceId)
    | some space =>
      if space.containsMapping mappingId then do
        let placed ← space.addMappingTop mapping.mappingRef mapping.range.start mapping.size
          mapping.properties
        touched { storage with spaces := storage.spaces.insert spaceId placed } ()
      else storage.refuse (.mappingNotInSpace mappingId spaceId)

/-- `SegmentStorage::deprioritise_mapping` (`mod.rs:1481-1512`). -/
def deprioritiseMapping (spaceId : AddressSpaceId) (mappingId : SegmentMappingId) :
    Except Panic (Outcome D S E Error Unit) :=
  match storage.mappings.get? mappingId with
  | none => storage.refuse (.unknownMapping mappingId)
  | some mapping =>
    match storage.spaces.get? spaceId with
    | none => storage.refuse (.unknownSpace spaceId)
    | some space =>
      if space.containsMapping mappingId then do
        let lowered ← space.deprioritise mappingId
        let storage ←
          touch { storage with spaces := storage.spaces.insert spaceId lowered }
        storage.rebuildSubmapsInRange spaceId mapping.range
      else storage.refuse (.mappingNotInSpace mappingId spaceId)

section Synthetic

variable [SyntheticProvider D Error]

/-- `SegmentStorage::synthetic_provider` (`mod.rs:606-609`). -/
def existingSyntheticProvider : Option SegmentStorageProviderId :=
  storage.syntheticProvider.bind fun id => (storage.providers.get? id).map fun _ => id

/-- `SegmentStorage::pending_provider_id` (`mod.rs:1206-1211`). -/
def pendingProviderId : Except (LayoutError Error) SegmentStorageProviderId :=
  if storage.providerCtr < 2 ^ 32 then .ok storage.providerCtr else .error .providerIdsExhausted

/-- The loop of `create_synthetic_mapping` (`mod.rs:1146-1156`): the first offset of the provider
that is beyond all of its mappings. -/
def nextOffset (provider : SegmentStorageProviderId) : Except (LayoutError Error) ℕ :=
  storage.mappings.entries.foldlM (fun offset entry =>
    if entry.2.providerId = provider then
      if entry.2.offset.toNat + entry.2.size < 2 ^ 64 then
        .ok (max offset (entry.2.offset.toNat + entry.2.size))
      else .error .invalidAddressRange
    else .ok offset) 0

/-- `SegmentStorage::open_synthetic_provider` (`mod.rs:1171-1204`) with `open_boxed_provider`
(`mod.rs:1024-1039`). -/
def openSyntheticProvider (id : SegmentStorageProviderId) (size : ℕ) :
    Except Panic (Outcome D S E Error Unit) :=
  match storage.providers.get? id with
  | some descriptor =>
    if SyntheticProvider.size Error descriptor < size then
      let resized : D × Except Error Unit := SyntheticProvider.resize descriptor size
      .ok ({ storage with providers := storage.providers.insert id resized.1 },
        resized.2.mapError .provider)
    else .ok (storage, .ok ())
  | none =>
    if size = 0 then storage.refuse .invalidSize
    else
      let created : Except Error D := SyntheticProvider.fromSegmentRange id (size - 1)
      match created with
      | .error error => storage.refuse (.provider error)
      | .ok provider => do
        let opened ← touch { storage with
          providerCtr := max storage.providerCtr (id + 1)
          providers := storage.providers.insert id provider }
        return ({ opened with syntheticProvider := some id }, .ok ())

/-- `SegmentStorage::write_bytes_direct` (`mod.rs:1810-1822`). -/
def writeBytesDirect (id : SegmentStorageProviderId) (offset : ℕ) (bytes : List UInt8) :
    Except Panic (Outcome D S E Error ℕ) :=
  match storage.providers.get? id with
  | none => storage.refuse (.unknownProvider id)
  | some descriptor =>
    let written : D × Except Error ℕ := SyntheticProvider.writeBytes descriptor offset bytes
    .ok ({ storage with providers := storage.providers.insert id written.1 },
      written.2.mapError .provider)

/-- `SegmentStorage::create_synthetic_mapping` (`mod.rs:1126-1169`). -/
def createSyntheticMapping (start : Address) (bytes : List UInt8) (properties : SegmentProperties) :
    Except Panic (Outcome D S E Error SegmentMappingId) :=
  if (storage.spaces.get? start.space).isNone then storage.refuse (.unknownSpace start.space)
  else if bytes.length = 0 ∨ 2 ^ 64 ≤ start.address + (bytes.length - 1) then
    storage.refuse .invalidAddressRange
  else
    let plan : Except (LayoutError Error) (SegmentStorageProviderId × ℕ) := do
      let provider ← match storage.existingSyntheticProvider with
        | some provider => .ok provider
        | none => storage.pendingProviderId
      let offset ← storage.nextOffset provider
      if offset + bytes.length < 2 ^ 64 then .ok (provider, offset)
      else .error .invalidAddressRange
    match plan with
    | .error error => storage.refuse error
    | .ok (provider, offset) =>
      andThen (storage.openSyntheticProvider provider (offset + bytes.length)) fun storage _ =>
      andThen (storage.writeBytesDirect provider offset bytes) fun storage _ =>
      andThen (storage.createMappingFromBuilder ⟨start, .ofNat bytes.length, .ofNat offset,
        provider, properties, .none, .synthetic, 0, ""⟩) fun storage mapping =>
      andThen (storage.addMappingToSpace start.space mapping) fun storage _ =>
      .ok (storage, .ok mapping)

end Synthetic

inductive Operation (D : Type) where
  | openProvider (provider : D)
  | closeProvider (id : SegmentStorageProviderId)
  | createMapping (provider : SegmentStorageProviderId) (start : Address) (size offset : UInt64)
      (properties : SegmentProperties)
  | createMappingFromBuilder (builder : SegmentMappingBuilder)
  | createMappingWithId (id : SegmentMappingId) (builder : SegmentMappingBuilder)
  | createSyntheticMapping (start : Address) (bytes : List UInt8) (properties : SegmentProperties)
  | removeMapping (id : SegmentMappingId)
  | remapMapping (id : SegmentMappingId) (newStart : Address)
  | resizeMapping (id : SegmentMappingId) (newSize : UInt64)
  | updateMappingMetadata (id : SegmentMappingId) (kind : SegmentMappingKind)
      (provenance : SegmentMappingProvenance) (flags : UInt32)
  | createSpace
  | createSpaceWith (name : String) (kind : AddressSpaceKind)
  | createSpaceWithId (id : AddressSpaceId) (name : Option String) (kind : AddressSpaceKind)
  | addMappingToSpace (space : AddressSpaceId) (mapping : SegmentMappingId)
  | addMappingToSpaceAt (space : AddressSpaceId) (mapping : SegmentMappingId)
      (priority : SpacePriority)
  | prioritiseMapping (space : AddressSpaceId) (mapping : SegmentMappingId)
  | deprioritiseMapping (space : AddressSpaceId) (mapping : SegmentMappingId)

/-- The storage that an outcome leaves, whatever its result. -/
def left (Error : Type) {α : Type} (outcome : Except Panic (Outcome D S E Error α)) :
    Except Panic (SegmentStorage D S E) := do
  return (← outcome).1

def apply (Error : Type) [SyntheticProvider D Error] (storage : SegmentStorage D S E) :
    Operation D → Except Panic (SegmentStorage D S E)
  | .openProvider provider => left Error (storage.openProvider provider)
  | .closeProvider id => left Error (storage.closeProvider id)
  | .createMapping provider start size offset properties =>
    left Error (storage.createMapping provider start size offset properties)
  | .createMappingFromBuilder builder =>
    left Error (storage.createMappingFromBuilder builder)
  | .createMappingWithId id builder =>
    left Error (storage.createMappingWithId id builder)
  | .createSyntheticMapping start bytes properties =>
    left Error (storage.createSyntheticMapping start bytes properties)
  | .removeMapping id => left Error (storage.removeMapping id)
  | .remapMapping id newStart => left Error (storage.remapMapping id newStart)
  | .resizeMapping id newSize => left Error (storage.resizeMapping id newSize)
  | .updateMappingMetadata id kind provenance flags =>
    left Error (storage.updateMappingMetadata id kind provenance flags)
  | .createSpace => left Error storage.createSpace
  | .createSpaceWith name kind => left Error (storage.createSpaceWith name kind)
  | .createSpaceWithId id name kind =>
    left Error (storage.createSpaceWithId id name kind)
  | .addMappingToSpace space mapping =>
    left Error (storage.addMappingToSpace space mapping)
  | .addMappingToSpaceAt space mapping priority =>
    left Error (storage.addMappingToSpaceAt space mapping priority)
  | .prioritiseMapping space mapping =>
    left Error (storage.prioritiseMapping space mapping)
  | .deprioritiseMapping space mapping =>
    left Error (storage.deprioritiseMapping space mapping)

/-- The storage after a sequence of operations, from the empty storage. -/
def run (Error : Type) [SyntheticProvider D Error] (operations : List (Operation D)) :
    Except Panic (SegmentStorage D S E) :=
  operations.foldlM (apply Error) empty

end SegmentStorage

end Fugue.Storage.Segments
