import Fugue.Storage.Segments.Mapped
import Fugue.Storage.Segments.Memory
import Fugue.Storage.Segments.Packed

/-!
# The providers and the array

Each provider, from every way to create it, has the results of the array under every sequence of
writes and resizes, and is read and viewed as the array is after it. The in-memory provider needs
that it is not made smaller than what it holds.
-/

namespace Fugue.Storage.Segments

open Fugue.Lib InMemorySegmentStorage

/-- The operations have the results of the array, and the state after them is seen as the array
is. -/
def Refines {σ : Type} (provider : SegmentStorageProvider σ) (operations : List Operation)
    (state : σ) (array : SparseArray) : Prop :=
  ∃ last, provider.exec operations state = some ((array.exec operations).1, last) ∧
    Observes provider last (array.exec operations).2

/-- All providers refine one array of bytes. -/
theorem segment_backends_refine_sparse_array (operations : List Operation) (array : SparseArray) :
    (∀ store, Created store array →
      Along provider Keeps operations store →
      Refines provider operations store array) ∧
    (∀ store, MemoryMappedSegmentStorage.Created store array →
      Refines MemoryMappedSegmentStorage.provider operations store array) ∧
    (∀ store, PackedMemoryMappedSegmentStorage.Created store array →
      Refines PackedMemoryMappedSegmentStorage.provider operations store array) := by
  refine ⟨?_, ?_, ?_⟩
  · intro store created along
    exact InMemorySegmentStorage.refinement.exec operations created.represents along
  · intro store created
    exact MemoryMappedSegmentStorage.refinement.exec operations created.represents
      (along_true operations store)
  · intro store created
    exact PackedMemoryMappedSegmentStorage.refinement.exec operations created.represents
      (along_true operations store)

/-- A write of two bytes, and the size of the segment down to them and up again. -/
def shrinkToHeld : List Operation := [.write 0 [1, 2], .resize 2, .resize 4]

theorem segment_backends_refine_sparse_array_shrink :
    Refines provider shrinkToHeld (.withSize 4) (.zeros 4) ∧
      Refines MemoryMappedSegmentStorage.provider shrinkToHeld (.withSize 4) (.zeros 4) ∧
      Refines PackedMemoryMappedSegmentStorage.provider shrinkToHeld (.withSize 4) (.zeros 4) := by
  obtain ⟨memory, mapped, packed⟩ := segment_backends_refine_sparse_array shrinkToHeld (.zeros 4)
  refine ⟨memory _ (.withSize 4) ?_, mapped _ (.withSize 4), packed _ (.withSize 4)⟩
  refine ⟨trivial, ?_⟩
  intro result next call
  cases call
  refine ⟨fun _ => ⟨.inr (by decide), by decide⟩, ?_⟩
  intro result next call
  cases call
  refine ⟨fun larger => absurd larger (by decide), ?_⟩
  intro result next call
  trivial

/-- A write of four bytes, and the size of the segment below them and up again. -/
def shrinkBelowHeld : List Operation := [.write 0 [1, 2, 3, 4], .resize 1, .resize 4]

/-- In the in-memory provider the bytes beyond the smaller size come back. -/
theorem in_memory_keeps_bytes_beyond_size :
    ¬ Refines provider shrinkBelowHeld (.withSize 4) (.zeros 4) := by
  rintro ⟨last, run, observes⟩
  cases run
  have read := observes.read 0 [0, 0, 0, 0]
  cases read

end Fugue.Storage.Segments
