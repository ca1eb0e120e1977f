import Fugue.Ir.Address
import Fugue.Lib.IntervalMap

/-!
# Address spaces

`fugue-core/src/storage/segments/space.rs` and the mappings of `mapping.rs`: an address space keeps
the mappings placed in it in the order of their priority, an index of their extents, and as
submappings what is visible of them at each address. The submappings are kept up to date piece by
piece: a mapping at the top cuts what it covers, a mapping at the bottom fills the gaps, and any
other change rebuilds a range.

A failed `assert!` or `expect` is a `Panic`. The interval maps are a parameter (`IntervalMap`);
all the intervals of a space lie in the space itself, so that their keys are the raw bounds.
-/

namespace Fugue.Storage.Segments

open Fugue.Lib Fugue.Ir

/-- Why the code stops: an index contradicts another (`assert!` and `expect` in `AddressSpace` and
`SegmentStorage`), or a counter has no next value (`MappingPriority::higher` and `lower`,
`Revision::next`, `SegmentMappingId::new`). -/
inductive Panic where
  | inconsistent | exhausted
  deriving DecidableEq, Repr

/-- `Option::expect` on the indexes. -/
def expect {α : Type} (value : Option α) : Except Panic α :=
  match value with
  | some found => .ok found
  | none => .error .inconsistent

/-- `Revision::next` (`types/revision.rs:28-31`), a `u64`. -/
def nextRevision (revision : ℕ) : Except Panic ℕ :=
  if revision + 1 < 2 ^ 64 then .ok (revision + 1) else .error .exhausted

/-- `SegmentMappingId`, a `u32`. -/
abbrev SegmentMappingId := ℕ

/-- `SegmentStorageProviderId`, a `u32`. -/
abbrev SegmentStorageProviderId := ℕ

/-- The bits of `SegmentProperties` (`properties.rs:8-22`). -/
abbrev SegmentProperties := UInt8

/-- `SegmentMappingRef` (`mapping.rs:440-443`). -/
structure SegmentMappingRef where
  mappingId : SegmentMappingId
  revision : ℕ
  deriving DecidableEq, Repr

/-- `SegmentSubMapping` (`mapping.rs:460-465`). -/
structure SegmentSubMapping where
  mappingRef : SegmentMappingRef
  range : AddressRange
  properties : SegmentProperties
  deriving DecidableEq, Repr

/-- `AddressRange::from_size` (`address.rs:843-848`). -/
def rangeFromSize (start : Address) (size : ℕ) : Option AddressRange :=
  if size = 0 then none
  else if start.address + (size - 1) < 2 ^ 64 then
    some ⟨start.space, start.address, start.address + (size - 1)⟩
  else none

/-- The bounds of a range as the key of an interval map. -/
def bounds (range : AddressRange) : ℕ × ℕ := (range.start, range.stop)

/-- `AddressRange::new` with the bounds of another range: the same addresses in another space. -/
def inSpace (space : AddressSpaceId) (range : AddressRange) : AddressRange :=
  ⟨space, range.start, range.stop⟩

namespace SegmentSubMapping

/-- `SegmentSubMapping::with_start` (`mapping.rs:510-522`). -/
def withStart (view : SegmentSubMapping) (newStart : Address) : Option SegmentSubMapping :=
  if newStart.space ≠ view.range.space ∨ view.range.stop < newStart.address then none
  else some { view with range := ⟨view.range.space, newStart.address, view.range.stop⟩ }

/-- `SegmentSubMapping::with_last` (`mapping.rs:524-535`). -/
def withLast (view : SegmentSubMapping) (newLast : Address) : Option SegmentSubMapping :=
  if newLast.space ≠ view.range.space ∨ newLast.address < view.range.start then none
  else some { view with range := ⟨view.range.space, view.range.start, newLast.address⟩ }

end SegmentSubMapping

/-- `SegmentMappingKind` (`mapping.rs:63-83`). -/
inductive SegmentMappingKind where
  | bss | buffer | cow | dma | gpu | guard | heap | jit | kernel | mmap | mmio | none | null
  | pageTable | shared | stack | tls
  deriving DecidableEq, Repr

/-- `SegmentMappingProvenance` (`mapping.rs:97-106`). -/
inductive SegmentMappingProvenance where
  | generic | external | fileResidue | section_ | segment | synthetic | uninitialised
  deriving DecidableEq, Repr

/-- `SegmentMapping` (`mapping.rs:122-135`), without the hints. A mapping is made only with a range
whose size fits (`SegmentMapping::new`, `set_start`, `set_size`), so that the `expect` of `size`
holds. -/
structure SegmentMapping where
  id : SegmentMappingId
  range : AddressRange
  offset : UInt64
  providerId : SegmentStorageProviderId
  properties : SegmentProperties
  kind : SegmentMappingKind
  provenance : SegmentMappingProvenance
  flags : UInt32
  revision : ℕ
  name : String
  proper : range.Proper
  sized : range.stop - range.start + 1 < 2 ^ 64

namespace SegmentMapping

/-- `SegmentMapping::size` (`mapping.rs:308-312`). -/
def size (mapping : SegmentMapping) : ℕ := mapping.range.stop - mapping.range.start + 1

/-- `SegmentMapping::mapping_ref` (`mapping.rs:400-405`). -/
def mappingRef (mapping : SegmentMapping) : SegmentMappingRef := ⟨mapping.id, mapping.revision⟩

end SegmentMapping

/-- `AddressSpaceKind` (`space.rs:109-112`). -/
inductive AddressSpaceKind where
  | base
  | overlay (base : AddressSpaceId)
  deriving DecidableEq, Repr

/-- `MappingPlacement` (`space.rs:139-142`); a priority is an `i64`. -/
structure MappingPlacement where
  priority : ℤ
  range : AddressRange
  deriving DecidableEq, Repr

/-- `MappingPriority::higher` (`space.rs:118-124`). -/
def higher (priority : ℤ) : Except Panic ℤ :=
  if priority + 1 < 2 ^ 63 then .ok (priority + 1) else .error .exhausted

/-- `MappingPriority::lower` (`space.rs:126-132`). -/
def lower (priority : ℤ) : Except Panic ℤ :=
  if -2 ^ 63 ≤ priority - 1 then .ok (priority - 1) else .error .exhausted

/-- `AddressSpace` (`space.rs:140-152`), with the interval maps of its submappings and extents. -/
structure AddressSpace (S E : Type) where
  id : AddressSpaceId
  kind : AddressSpaceKind
  name : Option String
  submaps : S
  mappingExtents : E
  mappingsByPriority : OrdMap ℤ SegmentMappingRef
  mappingPlacements : OrdMap SegmentMappingId MappingPlacement
  highestPriority : ℤ
  lowestPriority : ℤ
  revision : ℕ

namespace AddressSpace

variable {S E : Type} [IntervalMap S SegmentSubMapping] [IntervalMap E SegmentMappingId]

/-- `AddressSpace::new_with` (`space.rs:159-172`); `new` is the one with the kind `Base`. -/
def newWith (id : AddressSpaceId) (kind : AddressSpaceKind) : AddressSpace S E where
  id := id
  kind := kind
  name := none
  submaps := IntervalMap.new
  mappingExtents := IntervalMap.new
  mappingsByPriority := .empty
  mappingPlacements := .empty
  highestPriority := 0
  lowestPriority := 0
  revision := 0

variable (space : AddressSpace S E) (mappingId : SegmentMappingId)

/-- `AddressSpace::contains_mapping` (`space.rs:194-196`). -/
def containsMapping : Bool :=
  (space.mappingPlacements.get? mappingId).isSome

/-- `AddressSpace::find_containing` (`space.rs:244-247`). -/
def findContaining (address : ℕ) : Option SegmentSubMapping :=
  (IntervalMap.iter space.submaps (address, address)).head?.map Prod.snd

/-- `AddressSpace::touch` (`space.rs:267-269`). -/
def touch : Except Panic (AddressSpace S E) := do
  return { space with revision := ← nextRevision space.revision }

/-- The body of the loops over overlapping submappings (`space.rs:308-327`, `422-441`): the part of
`view` within `range` is cut out. -/
def cutView (range : AddressRange) (submaps : S) (entry : (ℕ × ℕ) × SegmentSubMapping) : S :=
  let view := entry.2
  let submaps := IntervalMap.remove submaps entry.1
  let submaps :=
    if view.range.start < range.start then
      match view.withLast ⟨range.space, range.start - 1⟩ with
      | some left => IntervalMap.insert submaps (bounds left.range) left
      | none => submaps
    else submaps
  if range.stop < view.range.stop then
    match view.withStart ⟨range.space, range.stop + 1⟩ with
    | some right => IntervalMap.insert submaps (bounds right.range) right
    | none => submaps
  else submaps

/-- The loops themselves (`space.rs:302-327`, `416-441`). -/
def cutRange (range : AddressRange) (submaps : S) : S :=
  (IntervalMap.iter submaps (bounds range)).foldl (cutView range) submaps

variable (mappingRef : SegmentMappingRef)

/-- `AddressSpace::insert_submap_top` (`space.rs:291-331`). -/
def insertSubmapTop (range : AddressRange) (properties : SegmentProperties) : AddressSpace S E :=
  let range := inSpace space.id range
  { space with
    submaps := IntervalMap.insert (cutRange range space.submaps) (bounds range)
      ⟨mappingRef, range, properties⟩ }

/-- What `update_mapping_placement` and `remove_mapping_ref` take out of the indexes of priorities
and extents (`space.rs:467-476`, `531-541`). -/
def removePlacement (placement : MappingPlacement) :
    Except Panic (AddressSpace S E) := do
  let _ ← expect (space.mappingsByPriority.get? placement.priority)
  let extents ← expect (IntervalMap.removeWhere space.mappingExtents (bounds placement.range)
    (· == mappingId))
  return { space with
    mappingPlacements := space.mappingPlacements.erase mappingId
    mappingsByPriority := space.mappingsByPriority.erase placement.priority
    mappingExtents := extents }

/-- The mapping enters the indexes (`space.rs:542-551`). -/
def insertPlacement (priority : ℤ) (range : AddressRange) :
    Except Panic (AddressSpace S E) :=
  if (space.mappingsByPriority.get? priority).isNone then
    .ok { space with
      mappingExtents :=
        IntervalMap.forceInsert space.mappingExtents (bounds range) mappingRef.mappingId
      mappingsByPriority := space.mappingsByPriority.insert priority mappingRef
      mappingPlacements :=
        space.mappingPlacements.insert mappingRef.mappingId ⟨priority, range⟩ }
  else .error .inconsistent

/-- `AddressSpace::update_mapping_placement` (`space.rs:524-552`). -/
def updateMappingPlacement (priority : ℤ)
    (range : AddressRange) : Except Panic (AddressSpace S E) := do
  let removed ← match space.mappingPlacements.get? mappingRef.mappingId with
    | some previous => space.removePlacement mappingRef.mappingId previous
    | none => .ok space
  removed.insertPlacement mappingRef priority range

/-- `AddressSpace::add_mapping_top` (`space.rs:272-289`). -/
def addMappingTop (start size : ℕ)
    (properties : SegmentProperties) : Except Panic (AddressSpace S E) := do
  let range ← expect (rangeFromSize ⟨space.id, start⟩ size)
  let highest ← higher space.highestPriority
  let placed ← updateMappingPlacement { space with highestPriority := highest } mappingRef highest
    range
  let touched ← placed.touch
  return touched.insertSubmapTop mappingRef range properties

/-- The gaps that the intervals of `covered` leave between `current` and `last`
(`space.rs:351-379`): the last one is open if no interval reaches `last`. -/
def gaps (last : ℕ) : ℕ → List (ℕ × ℕ) → List (ℕ × ℕ)
  | current, [] => if current ≤ last then [(current, last)] else []
  | current, covered :: rest =>
    (if current < covered.1 then [(current, covered.1 - 1)] else []) ++
      if last ≤ covered.2 then [] else gaps last (max (covered.2 + 1) current) rest

/-- `AddressSpace::add_mapping_bottom` (`space.rs:333-389`). -/
def addMappingBottom (start size : ℕ)
    (properties : SegmentProperties) : Except Panic (AddressSpace S E) := do
  let range ← expect (rangeFromSize ⟨space.id, start⟩ size)
  let lowest ← lower space.lowestPriority
  let placed ← updateMappingPlacement { space with lowestPriority := lowest } mappingRef lowest
    range
  let touched ← placed.touch
  let covered := (IntervalMap.iter touched.submaps (bounds range)).map Prod.fst
  return { touched with
    submaps := (gaps range.stop range.start covered).foldl (fun submaps gap =>
      IntervalMap.insert submaps gap ⟨mappingRef, ⟨space.id, gap.1, gap.2⟩, properties⟩)
      touched.submaps }

/-- `AddressSpace::deprioritise` (`space.rs:391-411`). -/
def deprioritise : Except Panic (AddressSpace S E) :=
  match space.mappingPlacements.get? mappingId with
  | none => .ok space
  | some placement => do
    let mappingRef ← expect (space.mappingsByPriority.get? placement.priority)
    let lowest ← lower space.lowestPriority
    let byPriority := space.mappingsByPriority.erase placement.priority
    if (byPriority.get? lowest).isNone then
      touch { space with
        mappingsByPriority := byPriority.insert lowest mappingRef
        lowestPriority := lowest
        mappingPlacements :=
          space.mappingPlacements.insert mappingId { placement with priority := lowest } }
    else .error .inconsistent

/-- The body of the second loop of `rebuild_range` (`space.rs:443-457`). -/
def rebuildMapping (range : AddressRange) (space : AddressSpace S E)
    (mapping : SegmentMappingRef × ℕ × ℕ × SegmentProperties) :
    Except Panic (AddressSpace S E) := do
  let (mappingRef, start, size, properties) := mapping
  let mappingRange ← expect (rangeFromSize ⟨space.id, start⟩ size)
  if range.space = mappingRange.space ∧ range.start ≤ mappingRange.stop ∧
      mappingRange.start ≤ range.stop then
    return space.insertSubmapTop mappingRef
      ⟨space.id, max mappingRange.start range.start, min mappingRange.stop range.stop⟩ properties
  else return space

/-- `AddressSpace::rebuild_range` (`space.rs:413-460`). -/
def rebuildRange (range : AddressRange)
    (mappings : List (SegmentMappingRef × ℕ × ℕ × SegmentProperties)) :
    Except Panic (AddressSpace S E) := do
  let range := inSpace space.id range
  let cut := { space with submaps := cutRange range space.submaps }
  let rebuilt ← mappings.foldlM (rebuildMapping range) cut
  rebuilt.touch

/-- `AddressSpace::remove_mapping_ref` (`space.rs:462-478`); `none` where the source returns
`false`. -/
def removeMappingRef : Except Panic (Option (AddressSpace S E)) :=
  match space.mappingPlacements.get? mappingId with
  | none => .ok none
  | some placement => do return some (← space.removePlacement mappingId placement)

/-- `AddressSpace::update_mapping_ref` (`space.rs:480-495`). -/
def updateMappingRef (range : AddressRange) :
    Except Panic (AddressSpace S E) := do
  let placement ← expect (space.mappingPlacements.get? mappingRef.mappingId)
  let updated ← space.updateMappingPlacement mappingRef placement.priority
    (inSpace space.id range)
  updated.touch

/-- The priority and the reference of a mapping of the extents (`space.rs:506-517`). -/
def placedAt : Except Panic (ℤ × SegmentMappingRef) := do
  let placement ← expect (space.mappingPlacements.get? mappingId)
  let mappingRef ← expect (space.mappingsByPriority.get? placement.priority)
  return (placement.priority, mappingRef)

/-- `AddressSpace::mappings_overlapping` (`space.rs:497-522`). -/
def mappingsOverlapping (range : AddressRange) : Except Panic (List SegmentMappingRef) := do
  let mappings ← (IntervalMap.iter space.mappingExtents (bounds range)).mapM fun entry =>
    space.placedAt entry.2
  return (mappings.insertionSort fun x y => x.1 ≤ y.1).map Prod.snd

end AddressSpace

end Fugue.Storage.Segments
