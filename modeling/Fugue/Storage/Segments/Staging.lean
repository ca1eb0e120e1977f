import Fugue.Storage.Segments.Layout

/-!
# Staged segments

`SegmentStorageStaging` (`fugue-core/src/storage/segments/staging.rs`): what a transaction does to
the mappings and spaces of a storage before it is published. The storage does not change
meanwhile. The counters of the source do not run out here.
-/

namespace Fugue.Storage.Segments

open Fugue.Lib Fugue.Ir

/-- The errors of `SegmentStorageError` (`mod.rs:61-112`) that staging returns. -/
inductive StagingError where
  | duplicateAddressSpace (id : AddressSpaceId)
  | duplicateAddressSpaceName (name : String)
  | invalidAddressRange
  | invalidOverlayBase (id : AddressSpaceId)
  | mappingAlreadyInSpace (mapping : SegmentMappingId) (space : AddressSpaceId)
  | mappingIdsExhausted
  | mappingNotInSpace (mapping : SegmentMappingId) (space : AddressSpaceId)
  | providerIdsExhausted
  | spaceIdsExhausted
  | unknownMapping (id : SegmentMappingId)
  | unknownProvider (id : SegmentStorageProviderId)
  | unknownSpace (id : AddressSpaceId)
  deriving DecidableEq, Repr

/-- `ok_or`. -/
def orError {α : Type} (error : StagingError) (value : Option α) : Except StagingError α :=
  match value with
  | some found => .ok found
  | none => .error error

/-- `SegmentProperties::is_writable` (`properties.rs:29-31`). -/
def isWritable (properties : SegmentProperties) : Bool := properties &&& 2 != 0

/-- `StagedMappingRecord` (`staging.rs:17-26`). -/
structure StagedMappingRecord where
  range : AddressRange
  flags : UInt32
  kind : SegmentMappingKind
  offset : UInt64
  properties : SegmentProperties
  provenance : SegmentMappingProvenance
  provider : SegmentStorageProviderId

/-- `SegmentMappingBuilder::range` (`mapping.rs:755-757`). -/
def SegmentMappingBuilder.range (builder : SegmentMappingBuilder) : Option AddressRange :=
  rangeFromSize builder.start builder.size.toNat

namespace StagedMappingRecord

/-- `StagedMappingRecord::from_builder` (`staging.rs:29-41`). -/
def fromBuilder (builder : SegmentMappingBuilder) : Except StagingError StagedMappingRecord := do
  let range ← orError .invalidAddressRange builder.range
  return ⟨range, builder.flags, builder.kind, builder.offset, builder.properties,
    builder.provenance, builder.providerId⟩

/-- `StagedMappingRecord::from_storage` (`staging.rs:43-59`), of the mapping that is found. -/
def ofMapping (mapping : SegmentMapping) : StagedMappingRecord :=
  ⟨mapping.range, mapping.flags, mapping.kind, mapping.offset, mapping.properties,
    mapping.provenance, mapping.providerId⟩

variable (record : StagedMappingRecord)

/-- `StagedMappingRecord::set_start` (`staging.rs:85-93`). -/
def setStart (start : Address) : Except StagingError StagedMappingRecord := do
  let size ← orError .invalidAddressRange record.range.size
  let range ← orError .invalidAddressRange (rangeFromSize start size)
  return { record with range }

/-- `StagedMappingRecord::set_size` (`staging.rs:95-99`). -/
def setSize (size : ℕ) : Except StagingError StagedMappingRecord := do
  let range ← orError .invalidAddressRange (rangeFromSize record.range.startAddress size)
  return { record with range }

/-- `StagedMappingRecord::contains` (`staging.rs:101-103`). -/
def contains (address : ℕ) : Bool :=
  decide (record.range.start ≤ address) && decide (address ≤ record.range.stop)

/-- `StagedMappingRecord::remaining_from` (`staging.rs:105-108`) with
`AddressRange::remaining_from` (`address.rs:886-894`). -/
def remainingFrom (address : ℕ) : Option ℕ :=
  if record.contains address ∧ record.range.stop - address + 1 < 2 ^ 64 then
    some (record.range.stop - address + 1)
  else none

/-- `StagedMappingRecord::physical_offset` (`staging.rs:110-113`). -/
def physicalOffset (address : ℕ) : Option ℕ :=
  if record.range.start ≤ address ∧
      record.offset.toNat + (address - record.range.start) < 2 ^ 64 then
    some (record.offset.toNat + (address - record.range.start))
  else none

/-- `StagedMappingRecord::update_metadata` (`staging.rs:115-124`). -/
def updateMetadata (kind : SegmentMappingKind) (provenance : SegmentMappingProvenance)
    (flags : UInt32) : StagedMappingRecord :=
  { record with flags, kind, provenance }

end StagedMappingRecord

/-- `StagedAddressSpace` (`staging.rs:127-130`). -/
structure StagedAddressSpace where
  name : Option String
  kind : AddressSpaceKind

/-- `StagedSyntheticProvider` (`staging.rs:132-135`). -/
structure StagedSyntheticProvider where
  id : SegmentStorageProviderId
  size : ℕ

/-- `StagedMappingPlacementRecord` (`staging.rs:137-161`). -/
inductive StagedMappingPlacementRecord where
  | bottom (mapping : SegmentMappingId) (space : AddressSpaceId)
  | top (mapping : SegmentMappingId) (space : AddressSpaceId)
  deriving DecidableEq

namespace StagedMappingPlacementRecord

def mapping : StagedMappingPlacementRecord → SegmentMappingId
  | bottom mapping _ | top mapping _ => mapping

def space : StagedMappingPlacementRecord → AddressSpaceId
  | bottom _ space | top _ space => space

end StagedMappingPlacementRecord

/-- `PreparedSegmentWriteRecord` (`staging.rs:163-177`). -/
structure PreparedSegmentWriteRecord where
  provider : SegmentStorageProviderId
  offset : ℕ
  bytes : List UInt8
  deriving DecidableEq, Repr

/-- `PreparedSegmentWriteRecords` (`staging.rs:179-195`). -/
structure PreparedSegmentWriteRecords where
  ranges : List AddressRange
  records : List PreparedSegmentWriteRecord
  deriving DecidableEq, Repr

/-- `SegmentStorageStaging` (`staging.rs:207-219`). The key of `placement_order` has the space
first. -/
structure SegmentStorageStaging where
  createdMappings : OrdMap SegmentMappingId SegmentMappingBuilder
  createdSpaces : OrdMap AddressSpaceId StagedAddressSpace
  mappingReservations : ℕ
  placementOrder : OrdMap (AddressSpaceId ×ₗ SegmentMappingId) ℕ
  placements : OrdMap ℕ StagedMappingPlacementRecord
  removedMappings : List SegmentMappingId
  sequence : ℕ
  stagedMappings : OrdMap SegmentMappingId StagedMappingRecord
  syntheticProvider : Option StagedSyntheticProvider
  writes : List PreparedSegmentWriteRecord

namespace SegmentStorageStaging

/-- `SegmentStorageStaging::default`. -/
def new : SegmentStorageStaging where
  createdMappings := .empty
  createdSpaces := .empty
  mappingReservations := 0
  placementOrder := .empty
  placements := .empty
  removedMappings := []
  sequence := 0
  stagedMappings := .empty
  syntheticProvider := none
  writes := []

section Operations

variable {D S E : Type} (staging : SegmentStorageStaging) (storage : SegmentStorage D S E)

/-- The space of an id (`staging.rs:285`, `342-345`). -/
def spaceOf (id : AddressSpaceId) : Option (AddressSpace S E) :=
  (storage.spaces.entries.find? fun entry => entry.2.id == id).map Prod.snd

/-- `SegmentStorage::is_mapping_in_space` (`mod.rs:628-632`). -/
def isMappingInSpace (space : AddressSpaceId) (mapping : SegmentMappingId) : Bool :=
  (storage.spaces.get? space).any fun space => space.containsMapping mapping

/-- `SegmentStorageStaging::has_mapping_placement` (`staging.rs:222-230`). -/
def hasMappingPlacement (space : AddressSpaceId) (mapping : SegmentMappingId) : Bool :=
  (staging.placementOrder.get? (toLex (space, mapping))).isSome ||
    isMappingInSpace storage space mapping

/-- `StagedMappingRecord::from_storage` (`staging.rs:43-59`). -/
def fromStorage (id : SegmentMappingId) : Except StagingError StagedMappingRecord := do
  return .ofMapping (← orError (.unknownMapping id) (storage.mappings.get? id))

/-- `SegmentStorageStaging::staged_mapping_mut` (`staging.rs:232-247`): the record that is changed
and the value it gets. -/
def updateStaged (id : SegmentMappingId)
    (update : StagedMappingRecord → Except StagingError StagedMappingRecord) :
    Except StagingError SegmentStorageStaging :=
  if id ∈ staging.removedMappings then .error (.unknownMapping id)
  else do
    let record ← match staging.stagedMappings.get? id with
      | some record => .ok record
      | none => fromStorage storage id
    return { staging with stagedMappings := staging.stagedMappings.insert id (← update record) }

/-- `SegmentStorageStaging::set_mapping_placement` (`staging.rs:249-261`). -/
def setMappingPlacement (placement : StagedMappingPlacementRecord) : SegmentStorageStaging :=
  let key := toLex (placement.space, placement.mapping)
  let placements := match staging.placementOrder.get? key with
    | some previous => staging.placements.erase previous
    | none => staging.placements
  { staging with
    sequence := staging.sequence + 1
    placementOrder := staging.placementOrder.insert key staging.sequence
    placements := placements.insert staging.sequence placement }

/-- `SegmentStorageStaging::staged_mapping` (`staging.rs:263-279`). -/
def stagedMapping (id : SegmentMappingId) : Except StagingError StagedMappingRecord :=
  if id ∈ staging.removedMappings then .error (.unknownMapping id)
  else
    match staging.createdMappings.get? id with
    | some builder => StagedMappingRecord.fromBuilder builder
    | none =>
      match staging.stagedMappings.get? id with
      | some record => .ok record
      | none => fromStorage storage id

/-- One placement of the loop of `staged_mappings_in_space` (`staging.rs:298-307`). -/
def place (mappings : List SegmentMappingId) (placement : StagedMappingPlacementRecord) :
    List SegmentMappingId :=
  let others := mappings.filter fun candidate => candidate != placement.mapping
  match placement with
  | .bottom mapping _ => mapping :: others
  | .top mapping _ => others ++ [mapping]

/-- The mappings of a space from the lowest to the highest (`staging.rs:286-307`). -/
def layersInSpace (space : AddressSpaceId) : Except StagingError (List SegmentMappingId) := do
  let mappings ← match spaceOf storage space with
    | some space =>
      .ok ((space.mappingsByPriority.entries.map fun entry => entry.2.mappingId).filter
        fun mapping => mapping ∉ staging.removedMappings)
    | none =>
      if (staging.createdSpaces.get? space).isSome then .ok []
      else .error (.unknownSpace space)
  return ((staging.placements.entries.map Prod.snd).filter fun placement =>
    placement.space == space).foldl place mappings

/-- `SegmentStorageStaging::staged_mappings_in_space` (`staging.rs:281-313`). -/
def stagedMappingsInSpace (space : AddressSpaceId) :
    Except StagingError (List StagedMappingRecord) := do
  (← staging.layersInSpace storage space).mapM (staging.stagedMapping storage)

/-- `SegmentStorage::pending_mapping_id` (`mod.rs:1213-1221`). -/
def pendingMappingId (offset : ℕ) : Except StagingError SegmentMappingId :=
  if storage.mappingCtr + offset < 2 ^ 32 then .ok (storage.mappingCtr + offset)
  else .error .mappingIdsExhausted

/-- `SegmentStorageStaging::create_mapping` (`staging.rs:315-335`). -/
def createMapping (builder : SegmentMappingBuilder) :
    Except StagingError (SegmentStorageStaging × SegmentMappingId) :=
  if (storage.providers.get? builder.providerId).isNone then
    .error (.unknownProvider builder.providerId)
  else do
    let _ ← orError .invalidAddressRange builder.range
    let id ← pendingMappingId storage staging.mappingReservations
    return ({ staging with
      mappingReservations := staging.mappingReservations + 1
      createdMappings := staging.createdMappings.insert id builder }, id)

/-- A round of the loops that look for the end of a provider (`staging.rs:371-406`). -/
def providerEnd (provider : SegmentStorageProviderId) (offset : ℕ)
    (mapping : SegmentStorageProviderId × ℕ × Option ℕ) : Except StagingError ℕ :=
  if mapping.1 = provider then do
    let size ← orError .invalidAddressRange mapping.2.2
    if mapping.2.1 + size < 2 ^ 64 then return max offset (mapping.2.1 + size)
    else .error .invalidAddressRange
  else .ok offset

/-- The provider and the offset of a synthetic mapping (`staging.rs:356-406`). -/
def syntheticPlace : Except StagingError (SegmentStorageProviderId × ℕ) := do
  let provider ← match staging.syntheticProvider with
    | some staged => .ok staged.id
    | none =>
      match storage.existingSyntheticProvider with
      | some provider => .ok provider
      | none =>
        if storage.providerCtr < 2 ^ 32 then .ok storage.providerCtr
        else .error .providerIdsExhausted
  let offset ← match staging.syntheticProvider with
    | some staged => .ok staged.size
    | none =>
      (storage.mappings.entries.map fun entry =>
        (entry.2.providerId, entry.2.offset.toNat, some entry.2.size)).foldlM
          (providerEnd provider) 0
  let offset ← (staging.createdMappings.entries.map fun entry =>
    (entry.2.providerId, entry.2.offset.toNat, some entry.2.size.toNat)).foldlM
      (providerEnd provider) offset
  let offset ← (staging.stagedMappings.entries.map fun entry =>
    (entry.2.provider, entry.2.offset.toNat, entry.2.range.size)).foldlM
      (providerEnd provider) offset
  return (provider, offset)

/-- `SegmentStorageStaging::create_synthetic_mapping` (`staging.rs:337-429`). The end of the
provider is set before the id is reserved. -/
def createSyntheticMapping (start : Address) (bytes : List UInt8) (properties : SegmentProperties) :
    SegmentStorageStaging × Except StagingError SegmentMappingId :=
  if (staging.createdSpaces.get? start.space).isNone ∧ (spaceOf storage start.space).isNone then
    (staging, .error (.unknownSpace start.space))
  else if bytes.length = 0 ∨ 2 ^ 64 ≤ start.address + (bytes.length - 1) then
    (staging, .error .invalidAddressRange)
  else
    match staging.syntheticPlace storage with
    | .error error => (staging, .error error)
    | .ok (provider, offset) =>
      if 2 ^ 64 ≤ offset + bytes.length then (staging, .error .invalidAddressRange)
      else
        let staged := { staging with
          syntheticProvider := some ⟨provider, offset + bytes.length⟩ }
        match pendingMappingId storage staging.mappingReservations with
        | .error error => (staged, .error error)
        | .ok id =>
          ({ staged with
            mappingReservations := staging.mappingReservations + 1
            createdMappings := staging.createdMappings.insert id ⟨start, .ofNat bytes.length,
              .ofNat offset, provider, properties, .none, .synthetic, 0, ""⟩
            writes := staging.writes ++ [⟨provider, offset, bytes⟩] }, .ok id)

/-- The name of a new space (`staging.rs:461-471`). -/
def checkSpaceName (name : Option String) : Except StagingError Unit :=
  match name with
  | some name =>
    if (staging.createdSpaces.entries.any fun entry => entry.2.name == some name) ∨
        (storage.spaces.entries.any fun entry => entry.2.name == some name) then
      .error (.duplicateAddressSpaceName name)
    else .ok ()
  | none => .ok ()

/-- The base of a new space (`staging.rs:472-486`). -/
def checkOverlayBase (kind : AddressSpaceKind) : Except StagingError Unit :=
  match kind with
  | .base => .ok ()
  | .overlay base =>
    match staging.createdSpaces.get? base with
    | some ⟨_, .overlay _⟩ => .error (.invalidOverlayBase base)
    | some _ => .ok ()
    | none =>
      match storage.spaces.get? base with
      | none => .error (.unknownSpace base)
      | some space =>
        match space.kind with
        | .overlay _ => .error (.invalidOverlayBase base)
        | .base => .ok ()

/-- `SegmentStorageStaging::create_space_with_id` (`staging.rs:451-490`). -/
def createSpaceWithId (id : AddressSpaceId) (name : Option String) (kind : AddressSpaceKind) :
    Except StagingError SegmentStorageStaging :=
  if (staging.createdSpaces.get? id).isSome ∨ (spaceOf storage id).isSome then
    .error (.duplicateAddressSpace id)
  else do
    staging.checkSpaceName storage name
    staging.checkOverlayBase storage kind
    return { staging with createdSpaces := staging.createdSpaces.insert id ⟨name, kind⟩ }

/-- `create_space` and `create_space_with` (`staging.rs:431-449`), the id from `pending_space_id`
(`mod.rs:1374-1382`). -/
def createSpaceWith (name : Option String) (kind : AddressSpaceKind) :
    Except StagingError (SegmentStorageStaging × AddressSpaceId) := do
  let id := storage.spaceCtr + staging.createdSpaces.len
  if id < 2 ^ 16 then return (← staging.createSpaceWithId storage id name kind, id)
  else .error .spaceIdsExhausted

/-- `SegmentStorageStaging::validate_mapping_space` (`staging.rs:874-887`). -/
def validateMappingSpace (space : AddressSpaceId) (mapping : SegmentMappingId) :
    Except StagingError Unit :=
  if (staging.createdSpaces.get? space).isNone ∧ (spaceOf storage space).isNone then
    .error (.unknownSpace space)
  else do
    let _ ← staging.stagedMapping storage mapping

/-- `SegmentStorageStaging::add_mapping_with_placement` (`staging.rs:842-856`), also
`add_mapping_top` and `add_mapping_bottom` (`staging.rs:510-532`). -/
def addMappingWithPlacement (placement : StagedMappingPlacementRecord) :
    Except StagingError SegmentStorageStaging := do
  staging.validateMappingSpace storage placement.space placement.mapping
  if staging.hasMappingPlacement storage placement.space placement.mapping then
    .error (.mappingAlreadyInSpace placement.mapping placement.space)
  else return staging.setMappingPlacement placement

/-- `SegmentStorageStaging::reprioritise_mapping` (`staging.rs:858-872`), also `prioritise_mapping`
and `deprioritise_mapping` (`staging.rs:610-632`). -/
def reprioritiseMapping (placement : StagedMappingPlacementRecord) :
    Except StagingError SegmentStorageStaging := do
  staging.validateMappingSpace storage placement.space placement.mapping
  if staging.hasMappingPlacement storage placement.space placement.mapping then
    return staging.setMappingPlacement placement
  else .error (.mappingNotInSpace placement.mapping placement.space)

/-- `SegmentStorageStaging::add_mapping` (`staging.rs:492-508`). -/
def addMapping (space : AddressSpaceId) (mapping : SegmentMappingId) :
    Except StagingError SegmentStorageStaging := do
  match (← staging.stagedMapping storage mapping).provenance with
  | .fileResidue | .segment | .synthetic =>
    staging.addMappingWithPlacement storage (.bottom mapping space)
  | _ => staging.addMappingWithPlacement storage (.top mapping space)

/-- The spaces of a mapping (`staging.rs:652-668`): each once, in ascending order. -/
def placementSpaces (id : SegmentMappingId) : List AddressSpaceId :=
  let committed :=
    if (staging.createdMappings.get? id).isNone then storage.mappingSpaceIds id else []
  let staged := (staging.placementOrder.entries.filter fun entry => (ofLex entry.1).2 == id).map
    fun entry => (ofLex entry.1).1
  ((committed ++ staged).foldl (fun spaces space => spaces.insert space ())
    OrdMap.empty).entries.map Prod.fst

/-- `SegmentStorageStaging::mapping_placements` (`staging.rs:644-673`). -/
def mappingPlacements (id : SegmentMappingId) : Except StagingError (List AddressRange) := do
  let range := (← staging.stagedMapping storage id).range
  return (staging.placementSpaces storage id).map fun space => inSpace space range

/-- The mapping itself is taken out (`staging.rs:540-544`). -/
def forgetMapping (id : SegmentMappingId) : Except StagingError SegmentStorageStaging :=
  match staging.createdMappings.get? id with
  | some _ => .ok { staging with createdMappings := staging.createdMappings.erase id }
  | none => do
    let _ ← staging.stagedMapping storage id
    return { staging with
      stagedMappings := staging.stagedMappings.erase id
      removedMappings := staging.removedMappings.insert id }

/-- `SegmentStorageStaging::remove_mapping` (`staging.rs:534-550`). -/
def removeMapping (id : SegmentMappingId) :
    Except StagingError (SegmentStorageStaging × List AddressRange) := do
  let placements ← staging.mappingPlacements storage id
  let removed ← staging.forgetMapping storage id
  return ({ removed with
    placements := removed.placements.retain fun _ placement => placement.mapping != id
    placementOrder := removed.placementOrder.retain fun key _ => (ofLex key).2 != id }, placements)

/-- `SegmentStorageStaging::remap_mapping` (`staging.rs:552-572`). -/
def remapMapping (id : SegmentMappingId) (start : Address) :
    Except StagingError SegmentStorageStaging := do
  let range := (← staging.stagedMapping storage id).range
  let size ← orError .invalidAddressRange range.size
  if size = 0 ∨ 2 ^ 64 ≤ start.address + (size - 1) then .error .invalidAddressRange
  else
    match staging.createdMappings.get? id with
    | some builder => return { staging with
        createdMappings := staging.createdMappings.insert id { builder with start } }
    | none => staging.updateStaged storage id fun record => record.setStart start

/-- `SegmentStorageStaging::resize_mapping` (`staging.rs:574-590`). -/
def resizeMapping (id : SegmentMappingId) (size : UInt64) :
    Except StagingError SegmentStorageStaging := do
  let range := (← staging.stagedMapping storage id).range
  if size.toNat = 0 ∨ 2 ^ 64 ≤ range.start + (size.toNat - 1) then .error .invalidAddressRange
  else
    match staging.createdMappings.get? id with
    | some builder => return { staging with
        createdMappings := staging.createdMappings.insert id { builder with size } }
    | none => staging.updateStaged storage id fun record => record.setSize size.toNat

/-- `SegmentStorageStaging::update_mapping_metadata` (`staging.rs:592-608`). -/
def updateMappingMetadata (id : SegmentMappingId) (kind : SegmentMappingKind)
    (provenance : SegmentMappingProvenance) (flags : UInt32) :
    Except StagingError SegmentStorageStaging :=
  match staging.createdMappings.get? id with
  | some builder => .ok { staging with
      createdMappings := staging.createdMappings.insert id
        { builder with kind, provenance, flags } }
  | none => staging.updateStaged storage id fun record =>
      .ok (record.updateMetadata kind provenance flags)

/-- `SegmentStorageStaging::stage_writes` (`staging.rs:834-836`). -/
def stageWrites (writes : PreparedSegmentWriteRecords) : SegmentStorageStaging :=
  { staging with writes := staging.writes ++ writes.records }

end Operations

/-! ## Writes -/

section Writes

variable {D S E : Type} (staging : SegmentStorageStaging) (storage : SegmentStorage D S E)

/-- The topmost mapping that contains an address, with those above it (`staging.rs:696-702`). -/
def topmost (mappings : List StagedMappingRecord) (current : ℕ) :
    Option (StagedMappingRecord × List StagedMappingRecord) :=
  let above := mappings.reverse.takeWhile fun mapping => !mapping.contains current
  match mappings.reverse.dropWhile fun mapping => !mapping.contains current with
  | [] => none
  | mapping :: _ => some (mapping, above)

/-- The run up to the next mapping above (`staging.rs:711-721`). -/
def clip (current : ℕ) (size : ℕ) (higher : StagedMappingRecord) : ℕ :=
  if current < higher.range.start then min size (higher.range.start - current) else size

variable (Error : Type) [SyntheticProvider D Error]

/-- The size of a provider with what is staged (`staging.rs:737-744`). -/
def providerSize (provider : SegmentStorageProviderId) : Option ℕ :=
  let committed := (storage.providers.get? provider).map fun found =>
    SyntheticProvider.size Error found
  ((staging.syntheticProvider.filter fun staged => staged.id == provider).map fun staged =>
    max staged.size (committed.getD 0)).or committed

/-- The target of the run from an address on (`staging.rs:695-754`): the provider, the offset there
and the length. -/
def nextTarget (mappings : List StagedMappingRecord) (current remaining : ℕ) :
    Except StagingError (SegmentStorageProviderId × ℕ × ℕ) := do
  let (mapping, above) ← orError .invalidAddressRange (topmost mappings current)
  if !isWritable mapping.properties then .error .invalidAddressRange
  else
    let run ← orError .invalidAddressRange (mapping.remainingFrom current)
    let size := min (above.foldl (clip current) run) remaining
    if size = 0 then .error .invalidAddressRange
    else
      let offset ← orError .invalidAddressRange (mapping.physicalOffset current)
      if 2 ^ 64 ≤ offset + size then .error .invalidAddressRange
      else
        let providerSize ← orError (.unknownProvider mapping.provider)
          (staging.providerSize storage Error mapping.provider)
        if providerSize < offset + size then .error .invalidAddressRange
        else return (mapping.provider, offset, size)

/-- The loop of `prepare_write` (`staging.rs:690-760`); a round takes at least one byte, so that
as many rounds as bytes are enough. -/
def targets (mappings : List StagedMappingRecord) : ℕ → ℕ → List UInt8 →
    Except StagingError (List PreparedSegmentWriteRecord)
  | _, _, [] => .ok []
  | 0, _, _ :: _ => .error .invalidAddressRange
  | rounds + 1, current, byte :: bytes => do
    let (provider, offset, size) ←
      staging.nextTarget storage Error mappings current (byte :: bytes).length
    let rest ← targets mappings rounds (current + size) ((byte :: bytes).drop size)
    return ⟨provider, offset, (byte :: bytes).take size⟩ :: rest

/-- What the loop of `pending_write_ranges_into` adds for one mapping (`staging.rs:803-830`). -/
def aliasRanges (provider : SegmentStorageProviderId) (offset size : ℕ) (id : SegmentMappingId) :
    Except StagingError (List AddressRange) := do
  let mapping ← staging.stagedMapping storage id
  if mapping.provider = provider then
    let mappingSize ← orError .invalidAddressRange mapping.range.size
    if 2 ^ 64 ≤ mapping.offset.toNat + mappingSize then .error .invalidAddressRange
    else
      let start := max offset mapping.offset.toNat
      let stop := min (offset + size) (mapping.offset.toNat + mappingSize)
      if stop ≤ start then return []
      else
        let first := mapping.range.start + (start - mapping.offset.toNat)
        let last := first + (stop - start - 1)
        return (← staging.mappingPlacements storage id).map fun placement =>
          ⟨placement.space, first, last⟩
  else return []

/-- `SegmentStorageStaging::pending_write_ranges_into` (`staging.rs:786-832`): what it adds. -/
def pendingWriteRanges (provider : SegmentStorageProviderId) (offset size : ℕ) :
    Except StagingError (List AddressRange) :=
  if 2 ^ 64 ≤ offset + size then .error .invalidAddressRange
  else do
    let ids := ((storage.mappings.entries.map fun entry => entry.2.id).filter
      fun id => id ∉ staging.removedMappings) ++ staging.createdMappings.entries.map Prod.fst
    return (← ids.mapM (staging.aliasRanges storage provider offset size)).flatten

/-- `SegmentStorageStaging::prepare_write` (`staging.rs:675-784`). -/
def prepareWrite (address : Address) (bytes : List UInt8) :
    Except StagingError (Option PreparedSegmentWriteRecords) :=
  if bytes = [] then .ok none
  else if 2 ^ 64 ≤ address.address + (bytes.length - 1) then .error .invalidAddressRange
  else do
    let mappings ← staging.stagedMappingsInSpace storage address.space
    let records ← staging.targets storage Error mappings bytes.length address.address bytes
    let ranges ← records.mapM fun record =>
      staging.pendingWriteRanges storage record.provider record.offset record.bytes.length
    return some ⟨(ranges.flatten.mergeSort fun range other => range ≤ other).dedup, records⟩

end Writes

end SegmentStorageStaging

end Fugue.Storage.Segments
