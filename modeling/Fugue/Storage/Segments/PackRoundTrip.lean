import Fugue.Storage.Segments.MappedPack
import Fugue.Storage.Segments.PackedPack

/-!
# Packing and opening again

The two providers that keep a segment in a file, from their creation through any number of writes,
resizes, packs and openings: a store that is packed and opened again is read as before, and the
extents that are recorded of it are in order with gaps between them and within the packed file.
-/

namespace Fugue.Storage.Segments

open Fugue.Lib

section Cycles

variable {σ μ : Type}

/-- The states that a provider is in between its creation and any number of operations and of packs
with what is opened after them. -/
inductive Cycles (provider : SegmentStorageProvider σ) (created : σ → Prop)
    (pack : σ → Option (μ × List UInt8)) (open_ : μ → List UInt8 → Option σ) : σ → Prop
  | created {store : σ} : created store → Cycles provider created pack open_ store
  | apply {store next : σ} {result : Except SegmentStorageError ℕ} (operation : Operation) :
      Cycles provider created pack open_ store →
      provider.apply store operation = some (result, next) →
      Cycles provider created pack open_ next
  | reopen {store next : σ} {metadata : μ} {file : List UInt8} :
      Cycles provider created pack open_ store → pack store = some (metadata, file) →
      open_ metadata file = some next → Cycles provider created pack open_ next

/-- Two states of one size with the same byte at every offset. -/
def ReadsAs (provider : SegmentStorageProvider σ) (before after : σ) : Prop :=
  provider.size after = provider.size before ∧ ∀ offset buffer, ∃ result,
    provider.readBytes before offset buffer = some result ∧
      provider.readBytes after offset buffer = some result

theorem readsAs_of_observes {provider : SegmentStorageProvider σ} {before after : σ}
    {array : SparseArray} (first : Observes provider before array)
    (second : Observes provider after array) : ReadsAs provider before after := by
  constructor
  · rw [first.size, second.size]
  · intro offset buffer
    exact ⟨_, first.read offset buffer, second.read offset buffer⟩

variable {provider : SegmentStorageProvider σ} {created : σ → Prop}
  {pack : σ → Option (μ × List UInt8)} {open_ : μ → List UInt8 → Option σ}

theorem Cycles.represents (refinement : Refinement provider fun _ _ => True)
    (start : ∀ store, created store → ∃ array, refinement.represents store array)
    (survives : ∀ store array, refinement.represents store array →
      ∃ metadata file next, pack store = some (metadata, file) ∧
        open_ metadata file = some next ∧ refinement.represents next array) {store : σ}
    (cycles : Cycles provider created pack open_ store) :
    ∃ array, refinement.represents store array := by
  induction cycles with
  | created isCreated => exact start _ isCreated
  | apply operation _ call ih =>
    obtain ⟨array, represents⟩ := ih
    obtain ⟨next, call', kept⟩ := refinement.apply represents operation trivial
    rw [call] at call'
    cases call'
    exact ⟨_, kept⟩
  | reopen _ packed opened ih =>
    obtain ⟨array, represents⟩ := ih
    obtain ⟨metadata, file, next, packed', opened', kept⟩ := survives _ array represents
    rw [packed] at packed'
    cases packed'
    rw [opened] at opened'
    cases opened'
    exact ⟨array, kept⟩

end Cycles

namespace PackedMemoryMappedSegmentStorage

/-- The stores from `with_size` through writes, resizes, packs and openings. -/
abbrev Reached : PackedMemoryMappedSegmentStorage → Prop :=
  Cycles provider (fun store => ∃ size, store = withSize size) packInPlace
    fun metadata file => some (openExisting metadata file)

theorem Reached.represents {store : PackedMemoryMappedSegmentStorage} (reached : Reached store) :
    ∃ array, store.Represents array := by
  apply Cycles.represents refinement _ _ reached
  · intro store isCreated
    obtain ⟨size, eq⟩ := isCreated
    rw [eq]
    exact ⟨_, withSize_represents size⟩
  · intro store array represents
    obtain ⟨metadata, file, packed, packs, -⟩ := Represents.packs represents
    exact ⟨metadata, file, _, packed, rfl, openExisting_represents packs⟩

/-- A packed store is read as before, and the extents recorded of it are in order with gaps between
them and within the file. -/
def Survives (store : PackedMemoryMappedSegmentStorage) : Prop :=
  ∃ metadata file, store.packInPlace = some (metadata, file) ∧
    ReadsAs provider store (openExisting metadata file) ∧
    metadata.extents.Pairwise (fun x y => x.1 + x.2.size < y.1) ∧
    ∀ x ∈ metadata.extents, x.2.fileOffset + x.2.size ≤ file.length

theorem Represents.survives {store : PackedMemoryMappedSegmentStorage} {array : SparseArray}
    (represents : store.Represents array) : store.Survives := by
  obtain ⟨metadata, file, packed, packs, apart, within⟩ := represents.packs
  have before := refinement.observes store array represents
  have after := refinement.observes _ array (openExisting_represents packs)
  exact ⟨metadata, file, packed, readsAs_of_observes before after, apart, within⟩

end PackedMemoryMappedSegmentStorage

namespace MemoryMappedSegmentStorage

/-- The stores from `with_size` or a file without metadata through writes, resizes, packs and
openings. -/
abbrev Reached : MemoryMappedSegmentStorage → Prop :=
  Cycles provider (fun store => (∃ size, store = withSize size) ∨ ∃ file, store = openFlat file)
    pack openPacked

theorem Reached.represents {store : MemoryMappedSegmentStorage} (reached : Reached store) :
    ∃ array, store.Represents array := by
  apply Cycles.represents refinement _ _ reached
  · intro store isCreated
    rcases isCreated with ⟨size, eq⟩ | ⟨file, eq⟩
    · rw [eq]
      exact ⟨_, withSize_represents size⟩
    · rw [eq]
      exact ⟨_, openFlat_represents file⟩
  · intro store array represents
    obtain ⟨metadata, file, packed, packs, -⟩ := Represents.packs represents
    obtain ⟨next, opened, kept⟩ := openPacked_represents packs
    exact ⟨metadata, file, next, packed, opened, kept⟩

/-- A packed store is read as before, and the extents recorded of it are in order with gaps between
them and are those of the file, which has them one after the other. -/
def Survives (store : MemoryMappedSegmentStorage) : Prop :=
  ∃ metadata file next, store.pack = some (metadata, file) ∧
    openPacked metadata file = some next ∧ ReadsAs provider store next ∧
    metadata.extents.Pairwise (fun x y => x.1 + x.2 < y.1) ∧
    (metadata.extents.map Prod.snd).sum = file.length

theorem Represents.survives {store : MemoryMappedSegmentStorage} {array : SparseArray}
    (represents : store.Represents array) : store.Survives := by
  obtain ⟨metadata, file, packed, packs, apart, fills⟩ := represents.packs
  obtain ⟨next, opened, kept⟩ := openPacked_represents packs
  have before := refinement.observes store array represents
  have after := refinement.observes next array kept
  exact ⟨metadata, file, next, packed, opened, readsAs_of_observes before after, apart, fills⟩

end MemoryMappedSegmentStorage

/-- Packing a provider and opening it again loses nothing. -/
theorem packing_loses_nothing :
    (∀ store : PackedMemoryMappedSegmentStorage, store.Reached → store.Survives) ∧
      ∀ store : MemoryMappedSegmentStorage, store.Reached → store.Survives := by
  constructor
  · intro store reached
    obtain ⟨array, represents⟩ := reached.represents
    exact represents.survives
  · intro store reached
    obtain ⟨array, represents⟩ := reached.represents
    exact represents.survives

/-- Two writes, the second before the first: the extents are moved over the end of the file. -/
theorem packing_loses_nothing_twoWrites : ∃ first second,
    PackedMemoryMappedSegmentStorage.provider.apply (.withSize 8) (.write 4 [1, 2]) =
        some (.ok 2, first) ∧
      PackedMemoryMappedSegmentStorage.provider.apply first (.write 0 [3]) =
        some (.ok 1, second) ∧ second.Survives := by
  refine ⟨_, _, rfl, rfl, packing_loses_nothing.1 _ ?_⟩
  refine .apply (.write 0 [3]) (.apply (.write 4 [1, 2]) (.created ⟨8, rfl⟩) rfl) rfl

end Fugue.Storage.Segments
