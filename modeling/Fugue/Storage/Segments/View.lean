import Fugue.Storage.Segments.LayoutRun
import Fugue.Storage.Segments.Provider

/-!
# Views and reads of a storage

A view of a submapping (`fugue-core/src/storage/segments/view.rs`) and the reader of a space
(`storage/segments/mod.rs:1585-1672`), which goes from submapping to submapping and fills the gaps
between them. A provider is what holds a byte at some offsets; where it holds none, the reader
fills as well. `none` stands for a failed `expect`, an access out of bounds or an addition that
overflows.
-/

namespace Fugue.Storage.Segments

open Fugue.Lib Fugue.Ir IntervalMap

/-- What is read of a provider (`provider/mod.rs:307-344`). `cell` is what it holds at an offset. -/
class ProviderReads (D : Type) (Error : outParam Type) where
  size : D → ℕ
  viewBytes : D → ℕ → ℕ → Except Error SegmentView
  viewBytesFrom : D → ℕ → Except Error SegmentView
  cell : D → ℕ → Option UInt8

/-- A view of the bytes from `offset` on shows what the provider holds there. -/
class LawfulProviderReads (D : Type) (Error : outParam Type) [ProviderReads D Error] : Prop where
  viewBytes_ok : ∀ (provider : D) (offset count : ℕ), 0 < count →
    offset + count ≤ ProviderReads.size provider →
    ∃ view, ProviderReads.viewBytes provider offset count = .ok view ∧
      ∀ (buffer : List UInt8) (fill : UInt8), count ≤ buffer.length →
        view.readIntoWithFill buffer fill = some (window (fun i =>
          if i < count then (ProviderReads.cell provider (offset + i)).getD fill else fill) 0
            buffer.length)

/-- The errors of `SegmentStorageError` (`mod.rs:61-112`) that reads return. -/
inductive ReadError (Error : Type) where
  | invalidAddress
  | invalidAddressRange
  | unknownSpace (id : AddressSpaceId)
  | provider (error : Error)
  deriving DecidableEq, Repr

/-- `AddressRange::remaining_from` (`address.rs:886-894`). -/
def remainingFrom (range : AddressRange) (address : Address) : Option ℕ :=
  if range.containsAddress address ∧ range.stop - address.address + 1 < 2 ^ 64 then
    some (range.stop - address.address + 1)
  else none

/-- `SegmentMapping::to_offset` (`mapping.rs:427-431`). -/
def SegmentMapping.toOffset (mapping : SegmentMapping) (address : ℕ) : Option ℕ :=
  if mapping.range.start ≤ address ∧
      mapping.offset.toNat + (address - mapping.range.start) < 2 ^ 64 then
    some (mapping.offset.toNat + (address - mapping.range.start))
  else none

/-- `SegmentProperties::is_readable` (`properties.rs:26-28`). -/
def isReadable (properties : SegmentProperties) : Bool := properties &&& 1 != 0

/-- `SegmentMappingRef::is_valid` (`mapping.rs:454-456`). -/
def SegmentMappingRef.isValid (mappingRef : SegmentMappingRef) (mapping : SegmentMapping) : Bool :=
  mappingRef.mappingId == mapping.id && mappingRef.revision == mapping.revision

/-- `SegmentMappingView` (`view.rs:11-18`). -/
structure SegmentMappingView (D : Type) where
  mapping : SegmentMapping
  provider : D
  mappingRef : SegmentMappingRef
  range : AddressRange
  mappingRevision : ℕ
  fillByte : UInt8

namespace SegmentMappingView

variable {D Error : Type} [ProviderReads D Error]

/-- `SegmentMappingView::new` (`view.rs:21-35`). -/
def new (mapping : SegmentMapping) (provider : D) (submap : SegmentSubMapping) (fillByte : UInt8) :
    SegmentMappingView D where
  mapping
  provider
  mappingRef := submap.mappingRef
  range := submap.range
  mappingRevision := mapping.revision
  fillByte

variable (view : SegmentMappingView D)

/-- `SegmentMappingView::properties` (`view.rs:80-82`). -/
def properties : SegmentProperties := view.mapping.properties

/-- `SegmentMappingView::bytes_from` (`view.rs:121-128`). -/
def bytesFrom (address : Address) : Option (Option SegmentView) :=
  if view.range.containsAddress address then do
    let offset ← view.mapping.toOffset address.address
    return (ProviderReads.viewBytesFrom view.provider offset).toOption
  else return none

/-- `SegmentMappingView::read_bytes` (`view.rs:130-170`): the result and the buffer. -/
def readBytes (address : Address) (buffer : List UInt8) :
    Option (Except (ReadError Error) ℕ × List UInt8) :=
  if buffer = [] then some (.ok 0, buffer)
  else if view.range.containsAddress address then do
    let viewRemaining ← remainingFrom view.range address
    let readSize := min buffer.length viewRemaining
    let offset ← view.mapping.toOffset address.address
    let available := min (ProviderReads.size view.provider - offset) readSize
    if available = 0 then
      return (.ok readSize, List.replicate readSize view.fillByte ++ buffer.drop readSize)
    else
      match ProviderReads.viewBytes view.provider offset available with
      | .error error => return (.error (.provider error), buffer)
      | .ok found => do
        let bytes ← found.readIntoWithFill (buffer.take readSize) view.fillByte
        return (.ok readSize, bytes ++ buffer.drop readSize)
  else some (.error .invalidAddress, buffer)

end SegmentMappingView

namespace AddressSpace

variable {S E : Type} [IntervalMap S SegmentSubMapping] [IntervalMap E SegmentMappingId]

/-- `AddressSpace::gap_len_at` (`space.rs:251-259`). -/
def gapLenAt (space : AddressSpace S E) (address max : ℕ) : ℕ :=
  match ((iter space.submaps (address, 2 ^ 64 - 1)).map fun entry => entry.2.range.start).find?
      fun start => decide (address < start) with
  | some next => min (next - address) max
  | none => max

end AddressSpace

namespace SegmentStorage

variable {D S E Error : Type} [IntervalMap S SegmentSubMapping] [IntervalMap E SegmentMappingId]
  [ProviderReads D Error]

variable (storage : SegmentStorage D S E)

/-- The mapping of a reference, if it is up to date, with its provider. -/
def validMapping (mappingRef : SegmentMappingRef) :
    Option (SegmentMapping × D) := do
  let mapping ← (storage.mappings.get? mappingRef.mappingId).filter mappingRef.isValid
  let provider ← storage.providers.get? mapping.providerId
  return (mapping, provider)

variable (fillByte : UInt8)

/-- `SegmentStorage::view_containing` (`mod.rs:1864-1903`). -/
def viewContaining (address : Address) :
    Option (SegmentMappingView D) := do
  let space ← storage.spaces.get? address.space
  let view ← space.findContaining address.address
  let mapping ← storage.mappings.get? view.mappingRef.mappingId
  let provider ← storage.providers.get? mapping.providerId
  return .new mapping provider view fillByte

/-- `SegmentStorage::view_for_submapping` (`mod.rs:1905-1927`). -/
def viewForSubmapping (submapping : SegmentSubMapping) : Option (SegmentMappingView D) := do
  let (mapping, provider) ← storage.validMapping submapping.mappingRef
  return .new mapping provider submapping fillByte

/-- What a round of the reader puts into the buffer at a submapping (`mod.rs:1641-1667`). -/
def readView (view : SegmentSubMapping)
    (address : Address) (buffer : List UInt8) : Option (Except (ReadError Error) ℕ × List UInt8) :=
  let filled := (Except.ok buffer.length, List.replicate buffer.length fillByte)
  match storage.validMapping view.mappingRef with
  | some (mapping, provider) =>
    if isReadable mapping.properties then
      (SegmentMappingView.new mapping provider view fillByte).readBytes address buffer
    else some filled
  | none => some filled

/-- The loop of `read_bytes_in_space` (`mod.rs:1618-1669`), for at most so many rounds. -/
def readLoop (storage : SegmentStorage D S E) (fillByte : UInt8) (space : AddressSpace S E)
    (address : ℕ) : ℕ → ℕ → ℕ → ℕ → List UInt8 →
      Option (Except (ReadError Error) ℕ × List UInt8)
  | _, _, 0, total, bytes => some (.ok total, bytes)
  | 0, _, _ + 1, _, _ => none
  | rounds + 1, current, remaining + 1, total, bytes =>
    match space.findContaining current with
    | none => do
      let skip := space.gapLenAt current (remaining + 1)
      let bytes ← copyAt bytes (current - address) (List.replicate skip fillByte)
      readLoop storage fillByte space address rounds (current + skip) (remaining + 1 - skip) total
        bytes
    | some view => do
      let viewRemaining := min (remaining + 1) (← remainingFrom view.range ⟨space.id, current⟩)
      let buffer ← slice bytes (current - address) (current - address + viewRemaining)
      match ← storage.readView fillByte view ⟨space.id, current⟩ buffer with
      | (.error error, buffer) => do
        let bytes ← copyAt bytes (current - address) buffer
        return (.error error, bytes)
      | (.ok read, buffer) => do
        let bytes ← copyAt bytes (current - address) buffer
        readLoop storage fillByte space address rounds (current + viewRemaining)
          (remaining + 1 - viewRemaining) (total + read) bytes

/-- `SegmentStorage::read_bytes` (`mod.rs:1585-1672`): the result and the buffer. A round reads at
least one byte. -/
def readBytes (address : Address)
    (bytes : List UInt8) : Option (Except (ReadError Error) ℕ × List UInt8) :=
  if bytes = [] then some (.ok 0, bytes)
  else if 2 ^ 64 ≤ address.address + (bytes.length - 1) then
    some (.error .invalidAddressRange, bytes)
  else
    match storage.spaces.get? address.space with
    | none => some (.error (.unknownSpace address.space), bytes)
    | some space =>
      storage.readLoop fillByte space address.address bytes.length address.address bytes.length 0
        bytes

end SegmentStorage

/-! ## What is seen at an address -/

section Seen

variable {D S E Error : Type} [IntervalMap S SegmentSubMapping] [IntervalMap E SegmentMappingId]
  [ProviderReads D Error]

/-- The offset in its provider that a mapping has for an address. -/
def SegmentMapping.place (mapping : SegmentMapping) (address : ℕ) : ℕ :=
  mapping.offset.toNat + (address - mapping.range.start)

def mappedByte (fillByte : UInt8) (mapping : SegmentMapping) (provider : D) (address : ℕ) : UInt8 :=
  if isReadable mapping.properties ∧ mapping.place address < ProviderReads.size provider then
    (ProviderReads.cell provider (mapping.place address)).getD fillByte
  else fillByte

variable (storage : SegmentStorage D S E)

def seenByte (fillByte : UInt8) (space : AddressSpace S E) (address : ℕ) : UInt8 :=
  match space.findContaining address with
  | none => fillByte
  | some view =>
    match storage.validMapping view.mappingRef with
    | some (mapping, provider) => mappedByte fillByte mapping provider address
    | none => fillByte

/-- How many of the addresses from `start` on are mapped. -/
def mappedCount (space : AddressSpace S E) (start count : ℕ) : ℕ :=
  (List.range' start count).countP fun address => (space.findContaining address).isSome

/-- A space is looked up by its id; its submappings are apart and lie within their mappings. -/
structure Coherent (storage : SegmentStorage D S E) (space : AddressSpace S E) : Prop where
  submapped : Submapped space.id space.submaps
  sized : ∀ x ∈ entries space.submaps, x.1.2 - x.1.1 + 1 < 2 ^ 64
  within : ∀ x ∈ entries space.submaps, ∀ mapping provider,
    storage.validMapping x.2.mappingRef = some (mapping, provider) → mapping.range.start ≤ x.1.1

/-- The reader can begin with an entry at an address: the offset does not overflow. -/
def Admits (x : (ℕ × ℕ) × SegmentSubMapping) (address : ℕ) : Prop :=
  ∀ mapping provider, storage.validMapping x.2.mappingRef = some (mapping, provider) →
    isReadable mapping.properties = true → mapping.place address < 2 ^ 64

/-- The reader can begin with each entry between two addresses. -/
def Admitted (space : AddressSpace S E) (start stop : ℕ) : Prop :=
  ∀ x ∈ entries space.submaps, max x.1.1 start < stop → start ≤ x.1.2 →
    Admits storage x (max x.1.1 start)

end Seen

end Fugue.Storage.Segments
