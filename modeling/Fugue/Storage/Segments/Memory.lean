import Fugue.Storage.Segments.Overlay
import Fugue.Storage.Segments.Provider

/-!
# The in-memory provider

`InMemorySegmentStorage` (`fugue-core/src/storage/segments/provider/memory.rs`): one contiguous chunk
that the first write anchors, and an overlay tree for everything else. It refines the array as long
as it is not made smaller than what it holds: `resize` only sets the size, so the bytes beyond a
smaller size stay.
-/

namespace Fugue.Storage.Segments

open Fugue.Lib List Option SegmentView SparseArray
open OverlayTree (extend write_spec extend_spec clearRange_spec empty_valid)

/-- `InMemorySegmentStorage` (`memory.rs:16-21`). -/
structure InMemorySegmentStorage where
  base : ℕ
  chunk : List UInt8
  overlay : OverlayTree
  size : ℕ

namespace InMemorySegmentStorage

/-- `InMemorySegmentStorage::with_size` (`memory.rs:24-31`). -/
def withSize (size : ℕ) : InMemorySegmentStorage := ⟨0, [], OrdMap.empty, size⟩

/-- `InMemorySegmentStorage::from_bytes` (`memory.rs:33-42`). -/
def fromBytes (bytes : List UInt8) : InMemorySegmentStorage := ⟨0, bytes, OrdMap.empty, bytes.length⟩

variable (store : InMemorySegmentStorage)

/-- `InMemorySegmentStorage::clamped_len` (`memory.rs:44-51`). -/
def clampedLen (offset len : ℕ) : Except SegmentStorageError ℕ :=
  let available := store.size - offset
  let clamped := min len available
  if clamped = 0 ∧ len ≠ 0 then .error .invalidAddress else .ok clamped

/-- `InMemorySegmentStorage::chunk_end` (`memory.rs:53-55`). -/
def chunkEnd : ℕ := store.base + store.chunk.length

/-- `InMemorySegmentStorage::chunk_contains` (`memory.rs:57-59`). -/
def chunkContains (offset len : ℕ) : Bool :=
  !store.chunk.isEmpty && decide (store.base ≤ offset) && decide (offset + len ≤ store.chunkEnd)

variable (offset : ℕ)

/-- The chunk copied over a buffer where they overlap (`memory.rs:93-97`). -/
def copyChunk (buffer : List UInt8) :
    Option (List UInt8) :=
  match SegmentRangeOverlap.new store.base store.chunk.length offset (offset + buffer.length) with
  | some overlap => do
    let source ← overlap.source store.chunk
    copyAt buffer overlap.windowOffset source
  | none => some buffer

/-- The bytes that `read_bytes` puts into a buffer within the size (`memory.rs:84-99`). -/
def readBuffer (offset len : ℕ) : Option (List UInt8) :=
  if store.chunkContains offset len then
    slice store.chunk (offset - store.base) (offset - store.base + len)
  else do
    let (buffer, _) ← store.overlay.read offset (List.replicate len 0)
    store.copyChunk offset buffer

/-- `InMemorySegmentStorage::read_bytes` (`memory.rs:80-100`). -/
def readBytes (bytes : List UInt8) :
    Option (Except SegmentStorageError (ℕ × List UInt8)) :=
  match store.clampedLen offset bytes.length with
  | .error error => some (.error error)
  | .ok read => do
    let buffer ← store.readBuffer offset read
    return .ok (read, buffer ++ bytes.drop read)

/-- What `write_bytes` does with the bytes that are within the size (`memory.rs:105-142`). -/
def writeData (data : List UInt8) :
    Option InMemorySegmentStorage :=
  if store.chunk.isEmpty then some { store with base := offset, chunk := data }
  else
    let stop := offset + data.length
    if offset < store.base ∧ store.base < stop then do
      let before := store.base - offset
      let overlay ← store.overlay.write offset (data.take before)
      let chunk ← extend store.chunk 0 (data.drop before)
      return { store with chunk, overlay := overlay.clearRange store.base chunk.length }
    else if store.base ≤ offset ∧ offset ≤ store.chunkEnd then do
      let chunk ← extend store.chunk (offset - store.base) data
      return { store with chunk, overlay := store.overlay.clearRange offset data.length }
    else do
      let overlay ← store.overlay.write offset data
      return { store with overlay }

/-- `InMemorySegmentStorage::write_bytes` (`memory.rs:102-143`). -/
def writeBytes (bytes : List UInt8) :
    Option (Except SegmentStorageError (ℕ × InMemorySegmentStorage)) :=
  match store.clampedLen offset bytes.length with
  | .error error => some (.error error)
  | .ok write => do
    let store ← store.writeData offset (bytes.take write)
    return .ok (write, store)

/-- The chunk of a view for one run (`memory.rs:160-170`). -/
def pushRun (offset stop : ℕ) (view : SegmentView) (run : ℕ × List UInt8) : Option SegmentView :=
  match SegmentRangeOverlap.new run.1 run.2.length offset stop with
  | some overlap => do
    let source ← overlap.source run.2
    return view.push overlap.windowOffset source
  | none => some view

/-- `InMemorySegmentStorage::view_bytes` (`memory.rs:145-174`). -/
def viewBytes (offset n : ℕ) :
    Option (Except SegmentStorageError SegmentView) :=
  if store.size ≤ offset then some (.error .invalidAddress)
  else if store.size - offset < n then some (.error .invalidSize)
  else if store.chunkContains offset n then do
    let bytes ← slice store.chunk (offset - store.base) (offset - store.base + n)
    return .ok (.contiguous bytes)
  else do
    let view ← ((store.base, store.chunk) :: store.overlay.entries).foldlM
      (pushRun offset (offset + n)) (.new n)
    return .ok view

/-- `InMemorySegmentStorage::view_bytes_from` (`memory.rs:176-193`). -/
def viewBytesFrom :
    Option (Except SegmentStorageError SegmentView) :=
  if store.size ≤ offset then some (.error .invalidAddress)
  else if !store.chunk.isEmpty && decide (store.base ≤ offset) && decide (offset < store.chunkEnd) then
    some (.ok (.contiguous (store.chunk.drop (offset - store.base))))
  else match store.overlay.chunkCovering offset with
    | some (run, chunk) => some (.ok (.contiguous (chunk.drop (offset - run))))
    | none => some (.ok (.new 0))

/-- `InMemorySegmentStorage::resize` (`memory.rs:199-202`). -/
def resize (newSize : ℕ) : Option InMemorySegmentStorage :=
  some { store with size := newSize }

/-- `InMemorySegmentStorage` as a provider. -/
def provider : SegmentStorageProvider InMemorySegmentStorage where
  size store := store.size
  readBytes
  writeBytes
  viewBytes
  viewBytesFrom
  resize

/-- Nothing is held beyond a size. -/
def HoldsBelow (size : ℕ) : Prop :=
  (store.chunk = [] ∨ store.chunkEnd ≤ size) ∧
    ∀ run ∈ store.overlay.entries, run.1 + run.2.length ≤ size

/-- The condition on an operation: the store is not made smaller than what it holds. -/
def Keeps : Operation → Prop
  | .write _ _ => True
  | .resize size => size < store.size → store.HoldsBelow size

/-- The store holds the array. -/
structure Represents (store : InMemorySegmentStorage) (array : SparseArray) : Prop where
  size : store.size = array.size
  chunk : Holds array.byte (store.base, store.chunk)
  overlay : store.overlay.Valid array.byte
  anchored : store.chunk = [] → store.overlay.entries = []
  zero : ∀ i, ¬ Spans (store.base, store.chunk) i → ¬ store.overlay.Covered i → array.byte i = 0
  below : store.HoldsBelow array.size

variable {store : InMemorySegmentStorage} {array : SparseArray} {offset : ℕ}

section

variable (represents : store.Represents array)
include represents

theorem clampedLen_eq (offset len : ℕ) :
    store.clampedLen offset len = array.clamp offset len := by
  unfold clampedLen clamp
  rw [represents.size]

/-! ## Reads -/

omit represents in
theorem chunkContains_iff {len : ℕ} : store.chunkContains offset len = true ↔
    store.chunk ≠ [] ∧ store.base ≤ offset ∧ offset + len ≤ store.base + store.chunk.length := by
  unfold chunkContains chunkEnd
  simp [and_assoc]

theorem slice_chunk {len : ℕ} (contains : store.chunkContains offset len = true) :
    slice store.chunk (offset - store.base) (offset - store.base + len) =
      some (window array.byte offset len) := by
  obtain ⟨-, from_, stop⟩ := chunkContains_iff.mp contains
  have sliced := @Holds.slice _ _ (store.base, store.chunk) represents.chunk offset (offset + len)
    from_ (by omega) stop
  have place : offset + len - store.base = offset - store.base + len := by omega
  have count : offset + len - offset = len := by omega
  rw [place, count] at sliced
  exact sliced

variable {run : ℕ × List UInt8} {f : ℕ → UInt8}

omit represents in
theorem source_overlap (holds : Holds f run) {stop : ℕ} {overlap : SegmentRangeOverlap}
    (found : SegmentRangeOverlap.new run.1 run.2.length offset stop = some overlap) :
    overlap.source run.2 = some (window f (offset + overlap.windowOffset) overlap.len) ∧
      0 < overlap.len ∧ offset + overlap.windowOffset + overlap.len ≤ stop ∧
      ∀ i, offset ≤ i → i < stop → (Spans run i ↔
        offset + overlap.windowOffset ≤ i ∧ i < offset + overlap.windowOffset + overlap.len) := by
  unfold SegmentRangeOverlap.new at found
  dsimp only at found
  split at found
  · rename_i lt
    cases found
    refine ⟨?_, by dsimp only; omega, by dsimp only; omega, ?_⟩
    · have sliced := holds.slice (by omega) lt.le (by omega)
      unfold SegmentRangeOverlap.source
      have stop_ : max offset run.1 - run.1 + (min stop (run.1 + run.2.length) - max offset run.1) =
        min stop (run.1 + run.2.length) - run.1 := by omega
      have start : offset + (max offset run.1 - offset) = max offset run.1 := by omega
      rw [stop_, start]
      exact sliced
    · unfold Spans
      dsimp only
      omega
  · cases found

omit represents in
theorem not_spans_of_overlap {stop : ℕ}
    (none : SegmentRangeOverlap.new run.1 run.2.length offset stop = none) {i : ℕ} (from_ : offset ≤ i)
    (below : i < stop) : ¬ Spans run i := by
  unfold SegmentRangeOverlap.new at none
  dsimp only at none
  split at none
  · cases none
  · unfold Spans
    omega

theorem copyChunk_spec (g : ℕ → UInt8) (len : ℕ) :
    store.copyChunk offset (window g offset len) =
      some (window (painted array.byte g [(store.base, store.chunk)]) offset len) := by
  unfold copyChunk
  rw [length_window]
  cases found : SegmentRangeOverlap.new store.base store.chunk.length offset (offset + len) with
  | some overlap =>
    obtain ⟨source, -, within, spans⟩ := @source_overlap offset (store.base, store.chunk) _
      represents.chunk _ _ found
    dsimp only at source ⊢
    rw [source, some_bind, copyAt_window (by omega)]
    congr 1
    apply window_congr
    intro i from_ below
    refine if_congr ?_ rfl rfl
    simp only [mem_singleton, exists_eq_left]
    exact (spans i from_ below).symm
  | none =>
    dsimp only
    congr 1
    apply window_congr
    intro i from_ below
    refine (if_neg ?_).symm
    simp only [mem_singleton, exists_eq_left]
    exact @not_spans_of_overlap offset (store.base, store.chunk) _ found i from_ below

theorem readBuffer_spec (offset len : ℕ) :
    store.readBuffer offset len = some (window array.byte offset len) := by
  unfold readBuffer
  split
  · rename_i contains
    exact slice_chunk represents contains
  · obtain ⟨applied, read⟩ := @OverlayTree.read_spec store.overlay _ offset represents.overlay
      (fun _ => 0) len
    rw [@replicate_eq_window _ offset len, read, some_bind]
    dsimp only
    rw [copyChunk_spec represents]
    congr 1
    apply window_congr
    intro i _ _
    unfold painted
    split
    · rfl
    · rename_i outside
      split
      · rfl
      · rename_i uncovered
        refine (represents.zero i ?_ uncovered).symm
        simpa using outside

theorem readBytes_spec (offset : ℕ) (buffer : List UInt8) :
    store.readBytes offset buffer = some (array.readBytes offset buffer) := by
  unfold readBytes SparseArray.readBytes
  rw [clampedLen_eq represents]
  cases array.clamp offset buffer.length with
  | error error => rfl
  | ok read =>
    dsimp only
    rw [readBuffer_spec represents]
    rfl

/-! ## Views -/

omit represents in
theorem foldlM_pushRun {stop : ℕ} (runs : List (ℕ × List UInt8))
    (view : SegmentView) (holds : ∀ run ∈ runs, Holds f run) :
    ∃ view', runs.foldlM (pushRun offset stop) view = some view' ∧
      view.Gains view' f offset fun i =>
        ∃ run ∈ runs, offset + i < stop ∧ Spans run (offset + i) := by
  refine foldlM_gains runs view fun run mem view => ?_
  cases found : SegmentRangeOverlap.new run.1 run.2.length offset stop with
  | some overlap =>
    obtain ⟨source, -, -, spans⟩ := source_overlap (holds run mem) found
    refine ⟨_, ?_, @gains_push view f offset _ overlap.windowOffset overlap.len ?_⟩
    · rw [pushRun, found]
      dsimp only
      rw [source]
      rfl
    · rintro i ⟨below, spanned⟩
      have := (spans (offset + i) (by omega) below).mp spanned
      omega
  | none =>
    refine ⟨view, ?_, gains_refl ?_⟩
    · rw [pushRun, found]
    · rintro i ⟨below, spanned⟩
      exact not_spans_of_overlap found (by omega) below spanned

theorem viewBytes_spec (offset count : ℕ) :
    array.Viewed offset count (store.viewBytes offset count) := by
  unfold viewBytes
  rw [represents.size]
  refine array.viewed (fun _ => by omega) fun _ fits => ?_
  split
  · rename_i contains
    rw [slice_chunk represents contains]
    exact ⟨_, rfl, contiguous_shows⟩
  · obtain ⟨view, call, gains⟩ := @foldlM_pushRun offset array.byte (offset + count)
      ((store.base, store.chunk) :: store.overlay.entries) (.new count)
      (forall_mem_cons.mpr ⟨represents.chunk, represents.overlay.holds⟩)
    rw [call]
    refine ⟨view, rfl, gains.shows fun i lt none => represents.zero (offset + i) ?_ ?_⟩
    · exact fun spans => none ⟨_, .head _, by omega, spans⟩
    · rintro ⟨run, runMem, spans⟩
      exact none ⟨run, .tail _ runMem, by omega, spans⟩

omit represents in
theorem contiguous_drop_shows (holds : Holds f run) (spans : Spans run offset) :
    (contiguous (run.2.drop (offset - run.1))).Shows f offset
      (run.1 + run.2.length - offset) := by
  have place : run.1 + (offset - run.1) = offset := by have := spans.1; omega
  have count : run.2.length - (offset - run.1) = run.1 + run.2.length - offset := by
    omega
  rw [holds.drop, place, count]
  exact contiguous_shows

theorem viewBytesFrom_spec (offset : ℕ) :
    array.ViewedFrom offset (store.viewBytesFrom offset) := by
  -- a run that spans the offset and ends within the size
  have shows : ∀ run : ℕ × List UInt8, Holds array.byte run → Spans run offset →
      run.1 + run.2.length ≤ array.size →
      ∃ view, some (Except.ok (contiguous (run.2.drop (offset - run.1)))) =
          some (.ok view : Except SegmentStorageError SegmentView) ∧
        view.size ≤ array.size - offset ∧ view.Shows array.byte offset view.size := by
    intro run holds spans stop
    have shown := contiguous_drop_shows holds spans
    refine ⟨_, rfl, ?_, ?_⟩
    · rw [shown.size]
      omega
    · rw [shown.size]
      exact shown
  unfold viewBytesFrom
  rw [represents.size]
  refine array.viewedFrom fun _ => ?_
  split
  · rename_i contains
    simp only [Bool.and_eq_true, Bool.not_eq_true', isEmpty_eq_false_iff,
      decide_eq_true_eq] at contains
    exact shows (store.base, store.chunk) represents.chunk ⟨contains.1.2, contains.2⟩
      (represents.below.1.resolve_left contains.1.1)
  · cases found : store.overlay.chunkCovering offset with
    | some run =>
      obtain ⟨mem, spans⟩ := OverlayTree.chunkCovering_eq_some found
      exact shows run (represents.overlay.holds run mem) spans (represents.below.2 run mem)
    | none =>
      exact ⟨_, rfl, Nat.zero_le _, shows_empty⟩

/-! ## Writes -/

theorem writeData_spec {after : SparseArray}
    {data : List UInt8} (size : after.size = array.size) (holds : Holds after.byte (offset, data))
    (agrees : ∀ i, ¬ Spans (offset, data) i → array.byte i = after.byte i)
    (fits : data = [] ∨ offset + data.length ≤ array.size) :
    ∃ store', store.writeData offset data = some store' ∧ store'.Represents after := by
  -- what is neither written nor held is zero
  have zero : ∀ i, ¬ Spans (offset, data) i → ¬ Spans (store.base, store.chunk) i →
      ¬ store.overlay.Covered i → after.byte i = 0 := by
    intro i outside notChunk notOverlay
    rw [← agrees i outside]
    exact represents.zero i notChunk notOverlay
  have written : ∀ {i}, Spans (offset, data) i → offset + data.length ≤ array.size := by
    intro i spans
    refine fits.resolve_left ?_
    rintro rfl
    exact Nat.not_lt.mpr spans.1 spans.2
  have held := represents.overlay.ends_le_iff.mp represents.below.2
  unfold writeData
  split
  · rename_i empty
    have nil : store.chunk = [] := List.isEmpty_iff.mp empty
    have none := represents.anchored nil
    refine ⟨_, rfl, represents.size.trans size.symm, holds, ?_, fun _ => none, ?_, ?_, ?_⟩
    · refine represents.overlay.congr ?_
      rintro i ⟨run, mem, -⟩
      rw [none] at mem
      cases mem
    · intro i outside notOverlay
      refine zero i outside ?_ notOverlay
      rw [nil]
      intro spans
      exact Nat.not_lt.mpr spans.1 spans.2
    · exact fits.imp id (size.symm ▸ ·)
    · rw [size]
      exact represents.below.2
  · rename_i nonempty
    have some_ : store.chunk ≠ [] := fun nil => nonempty (List.isEmpty_iff.mpr nil)
    have ends := represents.below.1.resolve_left some_
    unfold chunkEnd at ends
    dsimp only
    split
    · rename_i low
      have stop : offset + data.length ≤ array.size := by
        refine fits.resolve_left ?_
        rintro rfl
        rw [length_nil] at low
        omega
      -- the part below the chunk goes to the overlay, the rest into the chunk
      obtain ⟨overlay, write, valid, covered⟩ := @write_spec store.overlay array.byte
        (patch array.byte after.byte offset (store.base - offset)) offset
        (data.take (store.base - offset)) represents.overlay
        (by
          rw [holds.take (by dsimp only; omega)]
          rw [Holds, length_window]
          exact window_congr fun i from_ below => (patch_inside from_ below).symm)
        (by
          intro i outside
          unfold Spans at outside
          rw [length_take] at outside
          rw [patch_outside (by omega)])
      have rest : Holds after.byte (store.base, data.drop (store.base - offset)) := by
        have place : offset + (store.base - offset) = store.base := by omega
        rw [holds.drop]
        rw [place]
        exact holds_window _ _ _
      obtain ⟨grown, extend, grownHolds, length⟩ := @extend_spec
        (patch array.byte after.byte offset (store.base - offset)) after.byte store.base
        (data.drop (store.base - offset)) store.chunk store.base
        (represents.chunk.congr (by
          intro i spans
          have := spans.1
          rw [patch_outside (by omega)]))
        rest le_rfl (by omega)
        (by
          intro i outside
          unfold Spans at outside
          rw [length_drop] at outside
          unfold patch
          split
          · rfl
          · refine agrees i ?_
            unfold Spans
            dsimp only
            omega)
      rw [length_drop, Nat.sub_self] at length
      rw [Nat.sub_self] at extend
      obtain ⟨validCleared, cleared⟩ := clearRange_spec valid store.base grown.length
      rw [write, extend]
      refine ⟨_, rfl, represents.size.trans size.symm, grownHolds, ?_, ?_, ?_, ?_, ?_⟩
      · refine validCleared.congr ?_
        intro i inside
        have outside := ((cleared i).mp inside).2
        unfold patch
        split
        · rfl
        · refine agrees i ?_
          unfold Spans
          dsimp only
          omega
      · intro nil
        dsimp only at nil
        rw [nil, length_nil] at length
        omega
      · intro i notChunk notOverlay
        unfold Spans at notChunk
        dsimp only at notChunk notOverlay
        rw [cleared, covered] at notOverlay
        have uncovered := fun h => notOverlay ⟨h, notChunk⟩
        refine zero i ?_ ?_ fun h => uncovered (.inl h)
        · intro inside
          refine uncovered (.inr ?_)
          unfold Spans at inside ⊢
          rw [length_take]
          dsimp only at inside ⊢
          omega
        · unfold Spans
          dsimp only
          omega
      · unfold chunkEnd
        dsimp only
        omega
      · rw [size]
        refine validCleared.ends_le_iff.mpr ?_
        intro i inside
        rcases (covered i).mp ((cleared i).mp inside).1 with old | new
        · exact held i old
        · unfold Spans at new
          rw [length_take] at new
          omega
    split
    · rename_i reach
      unfold chunkEnd at reach
      obtain ⟨grown, extend, grownHolds, length⟩ := extend_spec represents.chunk holds
        reach.1 reach.2 agrees
      obtain ⟨validCleared, cleared⟩ :=
        clearRange_spec represents.overlay offset data.length
      have spans : ∀ i, Spans (store.base, grown) i ↔
          Spans (store.base, store.chunk) i ∨ Spans (offset, data) i := by
        intro i
        simp only [Spans]
        omega
      rw [extend]
      refine ⟨_, rfl, represents.size.trans size.symm, grownHolds, ?_, ?_, ?_, ?_, ?_⟩
      · exact validCleared.congr fun i inside => agrees i ((cleared i).mp inside).2
      · intro nil
        dsimp only at nil
        rw [nil, length_nil] at length
        have := length_pos_iff.mpr some_
        omega
      · intro i notChunk notOverlay
        rw [spans, not_or] at notChunk
        refine zero i notChunk.2 notChunk.1 ?_
        intro old
        exact notOverlay ((cleared i).mpr ⟨old, notChunk.2⟩)
      · unfold chunkEnd
        dsimp only
        rcases fits with nil | fits
        · rw [nil, length_nil] at length
          omega
        · omega
      · rw [size]
        refine validCleared.ends_le_iff.mpr ?_
        intro i inside
        exact held i ((cleared i).mp inside).1
    · rename_i low reach
      unfold chunkEnd at reach
      obtain ⟨overlay, write, valid, covered⟩ :=
        write_spec represents.overlay holds agrees
      rw [write]
      refine ⟨_, rfl, represents.size.trans size.symm, ?_, valid, fun nil => absurd nil some_, ?_, ?_,
        ?_⟩
      · -- the write is apart from the chunk
        refine represents.chunk.congr ?_
        intro i inside
        refine agrees i ?_
        unfold Spans at inside ⊢
        dsimp only at inside ⊢
        omega
      · intro i notChunk notOverlay
        rw [covered, not_or] at notOverlay
        exact zero i notOverlay.2 notChunk notOverlay.1
      · right
        rw [size]
        exact ends
      · rw [size]
        refine valid.ends_le_iff.mpr ?_
        intro i inside
        rcases (covered i).mp inside with old | new
        · exact held i old
        · exact Nat.lt_of_lt_of_le new.2 (written new)

theorem writeBytes_spec {bytes : List UInt8}
    (accepted : min bytes.length (array.size - offset) ≠ 0 ∨ bytes = []) :
    ∃ next, store.writeBytes offset bytes =
        some (.ok (min bytes.length (array.size - offset), next)) ∧
      next.Represents (array.put offset bytes) := by
  obtain ⟨store', call, represents'⟩ := @writeData_spec store array offset represents
    (array.put offset bytes) (bytes.take (min bytes.length (array.size - offset))) rfl
    (array.holds_put offset bytes) (array.put_agrees offset bytes) (array.put_fits offset bytes)
  refine ⟨store', ?_, represents'⟩
  unfold writeBytes
  rw [clampedLen_eq represents, clamp_of_accepted accepted]
  dsimp only
  rw [call]
  rfl

theorem writeBytes_refused {bytes : List UInt8}
    (none : min bytes.length (array.size - offset) = 0) (nonempty : bytes ≠ []) :
    store.writeBytes offset bytes = some (.error .invalidAddress) := by
  unfold writeBytes
  rw [clampedLen_eq represents, clamp,
    if_pos ⟨none, length_eq_zero_iff.not.mpr nonempty⟩]

theorem resize_spec {size : ℕ} (keeps : store.Keeps (.resize size)) :
    ∃ next, store.resize size = some next ∧ next.Represents (array.resize size) := by
  have below : store.HoldsBelow size := by
    by_cases smaller : size < store.size
    · exact keeps smaller
    · have le : array.size ≤ size := represents.size ▸ not_lt.mp smaller
      exact ⟨represents.below.1.imp id le.trans', fun run mem =>
        (represents.below.2 run mem).trans le⟩
  have same : ∀ i, i < size → array.byte i = (array.resize size).byte i :=
    fun i lt => (if_pos lt).symm
  refine ⟨_, rfl, rfl, ?_, ?_, represents.anchored, ?_, below⟩
  · apply represents.chunk.congr
    intro i spans
    have some_ : store.chunk ≠ [] := by
      intro nil
      have empty : (store.base, store.chunk).2.length = 0 := by simp [nil]
      have := spans.1
      have := spans.2
      omega
    exact same i (lt_of_lt_of_le spans.2 (below.1.resolve_left some_))
  · exact represents.overlay.congr fun i covered =>
      same i (represents.overlay.ends_le_iff.mp below.2 i covered)
  · intro i notChunk notOverlay
    change (if i < size then array.byte i else 0) = 0
    rw [represents.zero i notChunk notOverlay, ite_self]

end

/-- The in-memory provider refines the array where nothing that is held is cut off. -/
def refinement : Refinement provider Keeps where
  represents := Represents
  observes _ _ represents :=
    ⟨represents.size, readBytes_spec represents, viewBytes_spec represents,
      viewBytesFrom_spec represents⟩
  write _ _ _ _ represents _ accepted := writeBytes_spec represents accepted
  refuse _ _ _ _ represents none nonempty := writeBytes_refused represents none nonempty
  resize _ _ _ represents keeps := resize_spec represents keeps

theorem withSize_represents (size : ℕ) : (withSize size).Represents (.zeros size) := by
  refine ⟨rfl, rfl, empty_valid _, fun _ => rfl, fun _ _ _ => rfl, .inl rfl, ?_⟩
  intro run mem
  cases mem

theorem fromBytes_represents (bytes : List UInt8) :
    (fromBytes bytes).Represents (.ofBytes bytes) := by
  refine ⟨rfl, ?_, empty_valid _, fun _ => rfl, ?_, .inr ?_, ?_⟩
  · apply eq_window rfl
    intro i lt
    change bytes[i]? = some (bytes[0 + i]?.getD 0)
    change i < bytes.length at lt
    rw [zero_add, getElem?_eq_getElem lt, getD_some]
  · intro i notChunk _
    apply (ofBytes bytes).zero i
    by_contra lt
    refine notChunk ⟨Nat.zero_le i, ?_⟩
    change i < 0 + bytes.length
    rw [zero_add]
    exact not_le.mp lt
  · exact (zero_add _).le
  · intro run mem
    cases mem

inductive Created : InMemorySegmentStorage → SparseArray → Prop
  | withSize (size : ℕ) : Created (.withSize size) (.zeros size)
  | fromBytes (bytes : List UInt8) : Created (.fromBytes bytes) (.ofBytes bytes)

theorem Created.represents (created : Created store array) : store.Represents array := by
  cases created with
  | withSize size => exact withSize_represents size
  | fromBytes bytes => exact fromBytes_represents bytes

end InMemorySegmentStorage

end Fugue.Storage.Segments
