import Fugue.Storage.Segments.Mapped

/-!
# Packing the memory-mapped provider

`pack` (`fugue-core/src/storage/segments/provider/memmap/mod.rs`) writes the written extents to the
data file one after the other, each from the backings that hold it.
-/

namespace Fugue.Storage.Segments

open Fugue.Lib List

/-- `WrittenExtents::iter` (`memmap/mod.rs:39-43`). -/
def WrittenExtents.iter (written : WrittenExtents) : List (ℕ × ℕ) :=
  written.ranges.map fun range => (range.1, range.2 + 1)

namespace MemoryMappedSegmentStorage

/-- The bytes of a written extent (`memmap/mod.rs:321-336`). -/
def packRange (store : MemoryMappedSegmentStorage) (range : ℕ × ℕ) : Option (List UInt8) :=
  MappedBacking.runs.collect (store.backingsIn range.1 range.2) range.1 range.2

/-- `MemoryMappedSegmentStorage::pack` (`memmap/mod.rs:315-352`): the metadata and the data file. -/
def pack (store : MemoryMappedSegmentStorage) : Option (PackMetadata × List UInt8) := do
  let parts ← store.written.iter.mapM store.packRange
  return (⟨store.size, store.written.iter.map fun range => (range.1, range.2 - range.1)⟩,
    parts.flatten)

variable {store : MemoryMappedSegmentStorage} {array : SparseArray} {f : ℕ → UInt8}

variable {range : ℕ × ℕ}

theorem mem_iter {written : WrittenExtents} (mem : range ∈ written.iter) :
    range.1 < range.2 ∧ ∀ i, range.1 ≤ i → i < range.2 → written.Has i := by
  obtain ⟨pair, inside, eq⟩ := mem_map.mp mem
  subst eq
  have proper := written.separated.nonempty pair inside
  refine ⟨Nat.lt_succ_of_le proper, ?_⟩
  intro i from_ below
  exact ⟨pair, inside, from_, Nat.le_of_lt_succ below⟩

theorem apart_iter (written : WrittenExtents) :
    written.iter.Pairwise fun x y => x.2 < y.1 := by
  unfold WrittenExtents.iter
  rw [pairwise_map]
  exact written.separated.gaps

theorem exists_iter {written : WrittenExtents} {i : ℕ} (has : written.Has i) :
    ∃ range ∈ written.iter, range.1 ≤ i ∧ i < range.2 := by
  obtain ⟨pair, mem, from_, below⟩ := has
  exact ⟨_, mem_map_of_mem mem, from_, Nat.lt_succ_of_le below⟩

theorem packRange_eq (stored : store.Stored f) (mem : range ∈ store.written.iter) :
    store.packRange range = some (window f range.1 (range.2 - range.1)) := by
  obtain ⟨lt, has⟩ := mem_iter mem
  apply RunStore.collect_window lt (runs_backingsIn stored range.1 range.2)
    (sorted_backingsIn stored range.1 range.2)
  intro i from_ below
  obtain ⟨backing, isBacking, starts, ends⟩ := stored.written i (has i from_ below)
  exact ⟨backing, (mem_backingsIn stored).mpr ⟨isBacking, by omega, by omega⟩, starts, ends⟩

theorem iter_below (stored : store.Stored f) (mem : range ∈ store.written.iter) :
    range.2 ≤ store.size := by
  obtain ⟨lt, has⟩ := mem_iter mem
  obtain ⟨backing, isBacking, -, ends⟩ := stored.written (range.2 - 1) (has _ (by omega) (by omega))
  have backs := stored.backs backing isBacking
  have within := backs.ends
  have below := backs.below
  omega

/-- The file that is packed holds the array, and the recorded extents have gaps between them and
fill the file. -/
theorem Represents.packs (represents : store.Represents array) : ∃ metadata file,
    store.pack = some (metadata, file) ∧ Packs metadata file array ∧
      metadata.extents.Pairwise (fun x y => x.1 + x.2 < y.1) ∧
      (metadata.extents.map Prod.snd).sum = file.length := by
  have stored := represents.stored
  have parts : store.written.iter.mapM store.packRange =
      some (store.written.iter.map fun range => window array.byte range.1 (range.2 - range.1)) :=
    RunStore.mapM_eq_some fun range mem => packRange_eq stored mem
  have apart : (store.written.iter.map fun range => (range.1, range.2 - range.1)).Pairwise
      fun x y => x.1 + x.2 < y.1 := by
    rw [pairwise_map]
    apply (apart_iter store.written).imp_of_mem
    intro x y mem _ lt
    have proper := (mem_iter mem).1
    omega
  have bytes : (store.written.iter.map fun range =>
      window array.byte range.1 (range.2 - range.1)).flatten =
        packedBytes array.byte (store.written.iter.map fun range => (range.1, range.2 - range.1)) := by
    unfold packedBytes
    rw [map_map]
    rfl
  unfold pack
  rw [parts]
  refine ⟨_, _, rfl, ⟨represents.size, ?_, ?_, bytes, ?_⟩, apart, ?_⟩
  · exact apart.imp fun lt => le_of_lt lt
  · intro x mem
    obtain ⟨range, isRange, eq⟩ := mem_map.mp mem
    subst eq
    have proper := (mem_iter isRange).1
    have below := iter_below stored isRange
    rw [represents.size] at below
    exact ⟨by dsimp only; omega, by dsimp only; omega⟩
  · intro i outside
    refine stored.zero i fun has => ?_
    obtain ⟨range, isRange, from_, below⟩ := exists_iter has
    apply outside _ (mem_map_of_mem isRange)
    omega
  · rw [bytes]
    unfold packedBytes
    rw [length_flatten, map_map, map_map, map_map]
    congr 1
    exact map_congr_left fun range _ => length_window.symm

end MemoryMappedSegmentStorage

end Fugue.Storage.Segments
