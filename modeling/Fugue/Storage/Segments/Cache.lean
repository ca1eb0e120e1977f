import Fugue.Storage.Segments.View

/-!
# The mapping cache

`SegmentMappingCache` (`fugue-core/src/storage/segments/cache.rs`) keeps the submapping of its last
lookup with the revision that the space had. What it keeps is what the space still shows if it
has that revision (`Fresh`), and so its answers are those of the storage, whatever is done to
the storage between the calls (`runCached_eq_runDirect`).
-/

namespace Fugue.Storage.Segments

open Fugue.Lib Fugue.Ir IntervalMap Option SegmentStorage

section Source

variable {D S E Error : Type} [mapS : IntervalMap S SegmentSubMapping] [ProviderReads D Error]

/-- `SegmentView::as_contiguous` (`provider/mod.rs:243-251`). -/
def SegmentView.asContiguous (view : SegmentView) : Option (List UInt8) :=
  if view.size = 0 then some []
  else (view.chunks.find? fun chunk => chunk.1 == 0).map Prod.snd

/-- `SegmentStorage::space_revision` (`mod.rs:646-648`). -/
def SegmentStorage.spaceRevision (storage : SegmentStorage D S E) (id : AddressSpaceId) :
    Option ℕ :=
  (storage.spaces.get? id).map AddressSpace.revision

/-- `CachedMapping` (`cache.rs:14-17`). -/
structure CachedMapping where
  submapping : SegmentSubMapping
  revision : ℕ

/-- `SegmentMappingCache` (`cache.rs:9-12`). -/
structure SegmentMappingCache where
  cached : Option CachedMapping

namespace SegmentMappingCache

/-- `SegmentMappingCache::new` (`cache.rs:20-22`). -/
def new : SegmentMappingCache := ⟨none⟩

variable (cache : SegmentMappingCache) (storage : SegmentStorage D S E) (fillByte : UInt8)
  (address : Address)

/-- The first part of `view_containing` (`cache.rs:29-37`). -/
def hit : Option (SegmentMappingView D) := do
  let cached ← cache.cached.filter fun cached => cached.submapping.range.containsAddress address
  if storage.spaceRevision address.space = some cached.revision then
    storage.viewForSubmapping fillByte cached.submapping
  else none

/-- `SegmentMappingCache::view_containing` (`cache.rs:24-45`), with the cache after it. -/
def viewContaining : Option (SegmentMappingView D) × SegmentMappingCache :=
  match cache.hit storage fillByte address with
  | some view => (some view, cache)
  | none =>
    match storage.viewContaining fillByte address with
    | none => (none, cache)
    | some view =>
      (some view, ⟨some ⟨⟨view.mappingRef, view.range, view.properties⟩,
        (storage.spaceRevision address.space).getD 0⟩⟩)

/-- What `contiguous_view_from` makes of a view (`cache.rs:61-71`). -/
def contiguousOf (view : Option (SegmentMappingView D)) :
    Option (Except (ReadError Error) SegmentView) :=
  match view with
  | none => some (.error .invalidAddress)
  | some view => do
    match ← view.bytesFrom address with
    | none => return .error .invalidAddressRange
    | some bytes =>
      if bytes.asContiguous.any fun bytes => !bytes.isEmpty then return .ok bytes
      else return .error .invalidAddressRange

/-- `SegmentMappingCache::contiguous_view_from` (`cache.rs:56-72`). -/
def contiguousViewFrom : Option (Except (ReadError Error) SegmentView) × SegmentMappingCache :=
  let (view, cache) := cache.viewContaining storage fillByte address
  (contiguousOf address view, cache)

/-- What `read_bytes` makes of a view (`cache.rs:80-83`). -/
def readOf (buffer : List UInt8) (view : Option (SegmentMappingView D)) :
    Option (Except (ReadError Error) ℕ × List UInt8) :=
  match view with
  | some view => view.readBytes address buffer
  | none => some (.error .invalidAddress, buffer)

/-- `SegmentMappingCache::read_bytes` (`cache.rs:74-84`). -/
def readBytes (buffer : List UInt8) :
    Option (Except (ReadError Error) ℕ × List UInt8) × SegmentMappingCache :=
  let (view, cache) := cache.viewContaining storage fillByte address
  (readOf address buffer view, cache)

end SegmentMappingCache

end Source

/-! ## Runs -/

/-- What is done to the segments between the calls. -/
inductive Change (D : Type) where
  | operation (operation : SegmentStorage.Operation D)
  | setFillByte (byte : UInt8)
  | write (id : SegmentStorageProviderId) (provider : D)

inductive Call where
  | viewContaining (address : Address)
  | contiguousViewFrom (address : Address)
  | readBytes (address : Address) (buffer : List UInt8)

inductive Answer (D Error : Type) where
  | view (view : Option (SegmentMappingView D))
  | contiguous (result : Option (Except (ReadError Error) SegmentView))
  | read (result : Option (Except (ReadError Error) ℕ × List UInt8))

structure SegmentState (D S E : Type) where
  storage : SegmentStorage D S E
  fillByte : UInt8

section Runs

variable {D S E Error LayoutError : Type} [mapS : IntervalMap S SegmentSubMapping]
  [mapE : IntervalMap E SegmentMappingId]

/-- The segments after a change. What a provider holds changes by writes to it. -/
def SegmentState.change (LayoutError : Type) [SyntheticProvider D LayoutError]
    (segments : SegmentState D S E) : Change D → Except Panic (SegmentState D S E)
  | .operation operation => do
    return { segments with storage := ← segments.storage.apply LayoutError operation }
  | .setFillByte byte => .ok { segments with fillByte := byte }
  | .write id provider =>
    .ok (if (segments.storage.providers.get? id).isSome then
      { segments with storage := { segments.storage with
          providers := segments.storage.providers.insert id provider } }
    else segments)

variable [ProviderReads D Error]

def SegmentMappingCache.call (cache : SegmentMappingCache) (segments : SegmentState D S E) :
    Call → Answer D Error × SegmentMappingCache
  | .viewContaining address =>
    let (view, cache) := cache.viewContaining segments.storage segments.fillByte address
    (.view view, cache)
  | .contiguousViewFrom address =>
    let (result, cache) := cache.contiguousViewFrom segments.storage segments.fillByte address
    (.contiguous result, cache)
  | .readBytes address buffer =>
    let (result, cache) := cache.readBytes segments.storage segments.fillByte address buffer
    (.read result, cache)

/-- What the view of the storage answers. -/
def SegmentState.call (segments : SegmentState D S E) : Call → Answer D Error
  | .viewContaining address => .view (segments.storage.viewContaining segments.fillByte address)
  | .contiguousViewFrom address => .contiguous (SegmentMappingCache.contiguousOf address
    (segments.storage.viewContaining segments.fillByte address))
  | .readBytes address buffer => .read (SegmentMappingCache.readOf address buffer
    (segments.storage.viewContaining segments.fillByte address))

def runCached (LayoutError : Type) [SyntheticProvider D LayoutError] :
    List (Change D ⊕ Call) → SegmentState D S E → SegmentMappingCache →
      Except Panic (List (Answer D Error))
  | [], _, _ => .ok []
  | .inl change :: rest, segments, cache => do
    runCached LayoutError rest (← segments.change LayoutError change) cache
  | .inr call :: rest, segments, cache => do
    let (answer, cache) := cache.call segments call
    return answer :: (← runCached LayoutError rest segments cache)

/-- The answers of the storage to the calls of a run. -/
def runDirect (LayoutError : Type) [SyntheticProvider D LayoutError] :
    List (Change D ⊕ Call) → SegmentState D S E → Except Panic (List (Answer D Error))
  | [], _ => .ok []
  | .inl change :: rest, segments => do
    runDirect LayoutError rest (← segments.change LayoutError change)
  | .inr call :: rest, segments => do
    return segments.call call :: (← runDirect LayoutError rest segments)

end Runs

/-! ## The cache is up to date -/

section Fresh

variable {D S E Error LayoutError : Type} [mapS : IntervalMap S SegmentSubMapping]
  [mapE : IntervalMap E SegmentMappingId] {segments : SegmentState D S E}
  {cache : SegmentMappingCache} {address : Address}

/-- The space shows the reference and the range of a submapping at each of its addresses. -/
def StillShown (space : AddressSpace S E) (submapping : SegmentSubMapping) : Prop :=
  ∀ a, Within (bounds submapping.range) a → ∃ view, space.findContaining a = some view ∧
    view.mappingRef = submapping.mappingRef ∧ view.range = submapping.range

/-- The space has moved on since the lookup, or it still shows what was found. -/
def UpToDate (storage : SegmentStorage D S E) (cached : CachedMapping) : Prop :=
  ∃ space, storage.spaces.get? cached.submapping.range.space = some space ∧
    (cached.revision < space.revision ∨
      cached.revision = space.revision ∧ StillShown space cached.submapping)

/-- What holds between the calls of a cache. -/
structure Fresh (storage : SegmentStorage D S E) (cache : SegmentMappingCache) : Prop where
  laidOut : storage.LaidOut
  numbered : storage.SpacesNumbered
  upToDate : ∀ cached, cache.cached = some cached → UpToDate storage cached

theorem fresh_new : Fresh (SegmentStorage.empty : SegmentStorage D S E) .new :=
  ⟨empty_laidOut, empty_numbered, nofun⟩

theorem Fresh.follows {storage storage' : SegmentStorage D S E} (fresh : Fresh storage cache)
    (laidOut : storage'.LaidOut) (follows : storage.Follows storage') : Fresh storage' cache := by
  obtain ⟨numbered, evolves⟩ := follows fresh.numbered
  refine ⟨laidOut, numbered, fun cached eq => ?_⟩
  obtain ⟨space, found, since⟩ := fresh.upToDate cached eq
  obtain ⟨space', found', step⟩ := evolves _ space found
  refine ⟨space', found', ?_⟩
  rcases since with moved | ⟨same, shown⟩
  · exact .inl (moved.trans_le step.le)
  · rcases step with moved | ⟨revision, submaps⟩
    · exact .inl (same ▸ moved)
    · refine .inr ⟨same.trans revision.symm, ?_⟩
      unfold StillShown AddressSpace.findContaining at shown ⊢
      rw [submaps]
      exact shown

theorem Fresh.change [SyntheticProvider D LayoutError] (fresh : Fresh segments.storage cache)
    (change : Change D) :
    Leaves (fun after => Fresh after.storage cache) (segments.change LayoutError change) := by
  cases change with
  | operation operation =>
    intro after eq
    obtain ⟨storage, applied, eq⟩ := bind_eq_ok.mp eq
    cases eq
    have proceeds := (apply_proceeds fresh.laidOut operation).leaves _ applied
    exact fresh.follows proceeds.laidOut proceeds.advances.follows
  | setFillByte byte => exact leaves_ok fresh
  | write id provider =>
    apply leaves_ok
    split
    · exact fresh.follows (fresh.laidOut.congr rfl rfl le_rfl) (follows_same rfl rfl)
    · exact fresh

variable {storage : SegmentStorage D S E} {fillByte : UInt8}

omit mapE in
theorem viewContaining_eq_some {view : SegmentMappingView D}
    (found : storage.viewContaining fillByte address = some view) :
    ∃ space submapping mapping provider, storage.spaces.get? address.space = some space ∧
      space.findContaining address.address = some submapping ∧
      storage.mappings.get? submapping.mappingRef.mappingId = some mapping ∧
      storage.providers.get? mapping.providerId = some provider ∧
      view = .new mapping provider submapping fillByte := by
  unfold viewContaining at found
  obtain ⟨space, spaceFound, rest⟩ := bind_eq_some_iff.mp found
  obtain ⟨submapping, submappingFound, rest⟩ := bind_eq_some_iff.mp rest
  obtain ⟨mapping, mappingFound, rest⟩ := bind_eq_some_iff.mp rest
  obtain ⟨provider, providerFound, eq⟩ := bind_eq_some_iff.mp rest
  cases eq
  exact ⟨space, submapping, mapping, provider, spaceFound, submappingFound, mappingFound,
    providerFound, rfl⟩

theorem Fresh.hit (fresh : Fresh storage cache) {view : SegmentMappingView D}
    (hit : cache.hit storage fillByte address = some view) :
    storage.viewContaining fillByte address = some view := by
  unfold SegmentMappingCache.hit at hit
  obtain ⟨cached, filtered, rest⟩ := bind_eq_some_iff.mp hit
  obtain ⟨isCached, contains⟩ := filter_eq_some_iff.mp filtered
  split at rest
  · rename_i revision
    obtain ⟨sameSpace, within⟩ := AddressRange.containsAddress_iff.mp contains
    obtain ⟨space, found, since⟩ := fresh.upToDate cached isCached
    rw [sameSpace] at found
    unfold spaceRevision at revision
    rw [found, map_some] at revision
    have current := Option.some.inj revision
    rcases since with moved | ⟨-, shown⟩
    · omega
    · obtain ⟨submapping, atAddress, sameRef, sameRange⟩ := shown address.address within
      obtain ⟨pair, valid, eq⟩ := bind_eq_some_iff.mp rest
      obtain ⟨mapping, mappingFound, provided⟩ := bind_eq_some_iff.mp valid
      obtain ⟨provider, providerFound, pairEq⟩ := bind_eq_some_iff.mp provided
      obtain ⟨known, -⟩ := filter_eq_some_iff.mp mappingFound
      cases pairEq
      cases eq
      unfold viewContaining
      rw [found, some_bind, atAddress, some_bind, sameRef, known, some_bind, providerFound,
        some_bind]
      unfold SegmentMappingView.new
      rw [sameRef, sameRange]
      rfl
  · cases rest

theorem Fresh.viewContaining_eq (fresh : Fresh storage cache) :
    (cache.viewContaining storage fillByte address).1 =
      storage.viewContaining fillByte address := by
  unfold SegmentMappingCache.viewContaining
  cases hit : cache.hit storage fillByte address with
  | some view => exact (fresh.hit hit).symm
  | none => cases storage.viewContaining fillByte address <;> rfl

theorem Fresh.viewContaining (fresh : Fresh storage cache) :
    Fresh storage (cache.viewContaining storage fillByte address).2 := by
  unfold SegmentMappingCache.viewContaining
  split
  · exact fresh
  · split
    · exact fresh
    · rename_i view found
      refine ⟨fresh.laidOut, fresh.numbered, ?_⟩
      intro cached eq
      cases eq
      obtain ⟨space, submapping, mapping, provider, spaceFound, submappingFound, -, -, rfl⟩ :=
        viewContaining_eq_some found
      obtain ⟨sameId, laid⟩ := fresh.laidOut.spaces _ _ (OrdMap.get?_eq_some.mp spaceFound)
      have apart := laid.submapped.apart
      obtain ⟨x, mem, -, rfl⟩ := (findContaining_eq_some apart).mp submappingFound
      obtain ⟨key, inSpace, -⟩ := laid.submapped.keyed x mem
      refine ⟨space, ?_, .inr ⟨?_, fun a within => ⟨x.2, ?_, rfl, rfl⟩⟩⟩
      · change storage.spaces.get? x.2.range.space = some space
        rw [inSpace, sameId]
        exact spaceFound
      · unfold spaceRevision
        rw [spaceFound]
        rfl
      · exact (findContaining_eq_some apart).mpr ⟨x, mem, key ▸ within, rfl⟩

variable [ProviderReads D Error]

theorem Fresh.call (fresh : Fresh segments.storage cache) (call : Call) :
    (cache.call segments call).1 = segments.call call ∧
      Fresh segments.storage (cache.call segments call).2 := by
  cases call with
  | viewContaining address =>
    exact ⟨congrArg Answer.view fresh.viewContaining_eq, fresh.viewContaining⟩
  | contiguousViewFrom address =>
    exact ⟨congrArg (fun view => Answer.contiguous (SegmentMappingCache.contiguousOf address view))
      fresh.viewContaining_eq, fresh.viewContaining⟩
  | readBytes address buffer =>
    exact ⟨congrArg (fun view => Answer.read (SegmentMappingCache.readOf address buffer view))
      fresh.viewContaining_eq, fresh.viewContaining⟩

theorem Fresh.runCached_eq [SyntheticProvider D LayoutError] :
    ∀ (events : List (Change D ⊕ Call)) (segments : SegmentState D S E)
      (cache : SegmentMappingCache), Fresh segments.storage cache →
    runCached LayoutError events segments cache = runDirect LayoutError events segments := by
  intro events
  induction events with
  | nil => exact fun _ _ _ => rfl
  | cons event events ih =>
    intro segments cache fresh
    cases event with
    | inl change =>
      unfold runCached runDirect
      cases changed : segments.change LayoutError change with
      | error panic => rfl
      | ok after => exact ih after cache (fresh.change change after changed)
    | inr call =>
      obtain ⟨same, kept⟩ := fresh.call call
      unfold runCached runDirect
      dsimp only
      rw [same, ih segments _ kept]

/-- In every run of changes and calls from an empty storage and an empty cache, each call returns
what the view of the storage at that moment returns. -/
theorem runCached_eq_runDirect [SyntheticProvider D LayoutError] (events : List (Change D ⊕ Call))
    (fillByte : UInt8) :
    runCached LayoutError events (⟨.empty, fillByte⟩ : SegmentState D S E) .new =
      runDirect LayoutError events (⟨.empty, fillByte⟩ : SegmentState D S E) :=
  Fresh.runCached_eq events _ _ fresh_new

end Fresh

end Fugue.Storage.Segments
