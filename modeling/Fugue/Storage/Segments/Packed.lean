import Fugue.Lib.OrdMap
import Fugue.Storage.Segments.Provider

/-!
# The packed provider

`PackedMemoryMappedSegmentStorage` (`fugue-core/src/storage/segments/provider/memmap/packed.rs`): the
written extents, each with its place in one file. A write goes into the extents that it overlaps and
appends what is between them at the end of the file. The file and its mapping are one list of bytes.
-/

namespace Fugue.Storage.Segments

open Fugue.Lib List OrdMap
open Option (bind_eq_bind bind_some filter_eq_some_iff mem_toList)

/-- `MappedExtent` (`packed.rs:73-77`). -/
structure MappedExtent where
  size : ℕ
  fileOffset : ℕ
  deriving DecidableEq, Repr

/-- `PackedMemoryMappedSegmentStorage` (`packed.rs:126-134`). -/
structure PackedMemoryMappedSegmentStorage where
  backing : List UInt8
  extents : OrdMap ℕ MappedExtent
  fileEnd : ℕ
  lastExtent : Option ℕ
  size : ℕ

namespace PackedMemoryMappedSegmentStorage

/-- `PackedMemoryMappedSegmentStorage::with_size` (`packed.rs:137-175`). -/
def withSize (size : ℕ) : PackedMemoryMappedSegmentStorage := ⟨[], OrdMap.empty, 0, none, size⟩

/-- `PackMetadata` (`packed.rs:42-47`), each extent with its offset. -/
structure PackMetadata where
  logicalSize : ℕ
  fileEnd : ℕ
  extents : List (ℕ × MappedExtent)

/-- `PackedMemoryMappedSegmentStorage::open_existing` (`packed.rs:177-235`), from the metadata and
the bytes of the data file. -/
def openExisting (metadata : PackMetadata) (file : List UInt8) :
    PackedMemoryMappedSegmentStorage :=
  let extents := metadata.extents.foldl (fun extents entry => extents.insert entry.1 entry.2)
    OrdMap.empty
  ⟨file, extents, metadata.fileEnd, (extents.entries.find? fun entry =>
    decide (entry.2.fileOffset + entry.2.size = metadata.fileEnd)).map Prod.fst,
    metadata.logicalSize⟩

variable (store : PackedMemoryMappedSegmentStorage)

/-- The extents as runs: a part of one is the `file_range` of the mapping (`packed.rs:84-89`). -/
def runs : RunStore UInt8 (ℕ × MappedExtent) where
  start extent := extent.1
  stop extent := extent.1 + extent.2.size
  fetch extent from_ to_ :=
    let first := extent.2.fileOffset + (from_ - extent.1)
    slice store.backing first (first + (to_ - from_))

/-- The extents that overlap a range, in order: the one before it that reaches into it, and those
that start in it (`packed.rs:385-391`). -/
def extentsIn (offset stop : ℕ) :
    List (ℕ × MappedExtent) :=
  (((store.extents.entries.filter fun entry => decide (entry.1 < offset)).getLast?.filter
    fun entry => decide (offset < entry.1 + entry.2.size)).toList) ++
  store.extents.entries.filter fun entry => decide (offset ≤ entry.1) && decide (entry.1 < stop)

/-- The bytes of a buffer that are within the size, an error if none of them is
(`packed.rs:371-378`). -/
def clampedLen (offset len : ℕ) :
    Except SegmentStorageError ℕ :=
  let clamped := min len (store.size - offset)
  if clamped = 0 ∧ len ≠ 0 then .error .invalidAddress else .ok clamped

variable (offset : ℕ)

/-- `PackedMemoryMappedSegmentStorage::read_bytes` (`packed.rs:370-402`). -/
def readBytes (bytes : List UInt8) :
    Option (Except SegmentStorageError (ℕ × List UInt8)) :=
  match store.clampedLen offset bytes.length with
  | .error error => some (.error error)
  | .ok read => do
    let buffer ← store.runs.read 0 (store.extentsIn offset (offset + read)) offset (bytes.take read)
    return .ok (read, buffer ++ bytes.drop read)

/-- The gaps between extents (`packed.rs:421-440`). -/
def holes (stop : ℕ) : List (ℕ × MappedExtent) → ℕ → List (ℕ × ℕ)
  | [], cursor => if cursor < stop then [(cursor, stop)] else []
  | (start, extent) :: rest, cursor =>
    (if cursor < start then [(cursor, start)] else []) ++
      holes stop rest (min (start + extent.size) stop)

/-- The part of a write to one extent (`packed.rs:431-436`). -/
def writeExtent (bytes backing : List UInt8) (entry : ℕ × MappedExtent) :
    Option (List UInt8) := do
  let from_ := max entry.1 offset
  let to_ := min (entry.1 + entry.2.size) (offset + bytes.length)
  let source ← slice bytes (from_ - offset) (to_ - offset)
  copyAt backing (entry.2.fileOffset + (from_ - entry.1)) source

/-- The extent that the bytes of a hole go to (`packed.rs:446-455`). -/
def holeExtent (start size : ℕ) :
    Option (ℕ × MappedExtent) :=
  match store.lastExtent with
  | none => some (start, ⟨size, store.fileEnd⟩)
  | some last => do
    let extent ← store.extents.get? last
    if last + extent.size = start then return (last, ⟨extent.size + size, extent.fileOffset⟩)
    else return (start, ⟨size, store.fileEnd⟩)

/-- The file with room for more bytes at its end (`packed.rs:457-465`). -/
def reserve (size : ℕ) : List UInt8 :=
  let required := store.fileEnd + size
  let capacity := store.backing.length
  if capacity < required then
    store.backing ++ List.replicate (max required (min (capacity * 2) (2 ^ 64 - 1)) - capacity) 0
  else store.backing

/-- The bytes of a hole are appended to the file (`packed.rs:443-473`). -/
def writeHole (bytes : List UInt8) (store : PackedMemoryMappedSegmentStorage)
    (hole : ℕ × ℕ) : Option PackedMemoryMappedSegmentStorage := do
  let data ← slice bytes (hole.1 - offset) (hole.2 - offset)
  let (key, extent) ← store.holeExtent hole.1 data.length
  let backing ← copyAt (store.reserve data.length) store.fileEnd data
  return { store with
    backing
    fileEnd := store.fileEnd + data.length
    extents := store.extents.insert key extent
    lastExtent := some key }

/-- What `write_bytes` does with the bytes that are within the size. -/
def writeData (data : List UInt8) :
    Option PackedMemoryMappedSegmentStorage := do
  let stop := offset + data.length
  let extents := store.extentsIn offset stop
  let backing ← extents.foldlM (writeExtent offset data) store.backing
  (holes stop extents offset).foldlM (writeHole offset data) { store with backing }

/-- `PackedMemoryMappedSegmentStorage::write_bytes` (`packed.rs:404-477`). -/
def writeBytes (bytes : List UInt8) :
    Option (Except SegmentStorageError (ℕ × PackedMemoryMappedSegmentStorage)) :=
  match store.clampedLen offset bytes.length with
  | .error error => some (.error error)
  | .ok write => do
    let store ← store.writeData offset (bytes.take write)
    return .ok (write, store)

/-- `PackedMemoryMappedSegmentStorage::view_bytes` (`packed.rs:479-508`). -/
def viewBytes (offset n : ℕ) :
    Option (Except SegmentStorageError SegmentView) :=
  if store.size ≤ offset then some (.error .invalidAddress)
  else if store.size < offset + n then some (.error .invalidSize)
  else do
    let view ← (store.extentsIn offset (offset + n)).foldlM
      (SegmentView.pushRun store.runs offset offset (offset + n)) (.new n)
    return .ok view

/-- `PackedMemoryMappedSegmentStorage::view_bytes_from` (`packed.rs:510-528`). -/
def viewBytesFrom :
    Option (Except SegmentStorageError SegmentView) :=
  if store.size ≤ offset then some (.error .invalidAddress)
  else match (store.extents.floor? offset).filter fun entry =>
      decide (offset < entry.1 + entry.2.size) with
    | some entry => do
      let stop := entry.1 + entry.2.size
      let bytes ← store.runs.fetch entry offset stop
      return .ok { (SegmentView.new 0).push 0 bytes with size := stop - offset }
    | none => some (.ok (.new 0))

variable (extents : OrdMap ℕ MappedExtent)

/-- The last extent cut at a size (`packed.rs:537-541`). -/
def trim (newSize : ℕ) : OrdMap ℕ MappedExtent :=
  match (extents.entries.filter fun entry => decide (entry.1 < newSize)).getLast? with
  | some (start, extent) =>
    if newSize < start + extent.size then extents.insert start { extent with size := newSize - start }
    else extents
  | none => extents

/-- The last extent of the file, if it still ends there (`packed.rs:542-549`). -/
def lastAfter (fileEnd : ℕ) (lastExtent : Option ℕ) : Option ℕ :=
  lastExtent.filter fun last => (extents.get? last).any fun extent =>
    decide (extent.fileOffset + extent.size = fileEnd)

/-- `PackedMemoryMappedSegmentStorage::resize` (`packed.rs:534-554`). -/
def resize (newSize : ℕ) :
    Option PackedMemoryMappedSegmentStorage :=
  if newSize < store.size then
    let extents := trim (store.extents.retain fun start _ => decide (start < newSize)) newSize
    some { store with
      extents
      lastExtent := lastAfter extents store.fileEnd store.lastExtent
      size := newSize }
  else some { store with size := newSize }

/-- `PackedMemoryMappedSegmentStorage` as a provider. -/
def provider : SegmentStorageProvider PackedMemoryMappedSegmentStorage where
  size store := store.size
  readBytes
  writeBytes
  viewBytes
  viewBytesFrom
  resize

def Covered (i : ℕ) : Prop :=
  ∃ entry ∈ extents.entries, entry.1 ≤ i ∧ i < entry.1 + entry.2.size

/-- The extents hold what the array holds: they are apart, also in the file, and within the part of
the file that is in use. -/
structure Stored (store : PackedMemoryMappedSegmentStorage) (f : ℕ → UInt8) : Prop where
  apart : ∀ x ∈ store.extents.entries, ∀ y ∈ store.extents.entries, x.1 < y.1 →
    x.1 + x.2.size ≤ y.1
  nonempty : ∀ x ∈ store.extents.entries, 0 < x.2.size
  holds : ∀ x ∈ store.extents.entries, ∀ i, i < x.2.size →
    store.backing[x.2.fileOffset + i]? = some (f (x.1 + i))
  files : ∀ x ∈ store.extents.entries, ∀ y ∈ store.extents.entries, x.1 ≠ y.1 →
    x.2.fileOffset + x.2.size ≤ y.2.fileOffset ∨ y.2.fileOffset + y.2.size ≤ x.2.fileOffset
  ends : ∀ x ∈ store.extents.entries, x.2.fileOffset + x.2.size ≤ store.fileEnd
  within : store.fileEnd ≤ store.backing.length
  last : ∀ key, store.lastExtent = some key → ∃ extent, (key, extent) ∈ store.extents.entries ∧
    extent.fileOffset + extent.size = store.fileEnd

/-- The store holds the array. -/
structure Represents (store : PackedMemoryMappedSegmentStorage) (array : SparseArray) : Prop where
  size : store.size = array.size
  stored : store.Stored array.byte
  zero : ∀ i, ¬ Covered store.extents i → array.byte i = 0
  below : ∀ i, Covered store.extents i → i < array.size

variable {store : PackedMemoryMappedSegmentStorage} {array : SparseArray} {f g : ℕ → UInt8}
  {offset : ℕ}

theorem Stored.congr (stored : store.Stored f) (same : ∀ i, Covered store.extents i → f i = g i) :
    store.Stored g where
  apart := stored.apart
  nonempty := stored.nonempty
  holds x mem i lt := by
    rw [← same (x.1 + i) ⟨x, mem, by omega, by omega⟩]
    exact stored.holds x mem i lt
  files := stored.files
  ends := stored.ends
  within := stored.within
  last := stored.last

theorem clampedLen_eq (represents : store.Represents array) (offset len : ℕ) :
    store.clampedLen offset len = array.clamp offset len := by
  unfold clampedLen SparseArray.clamp
  rw [represents.size]

/-! ## The extents of a range -/

theorem mem_extentsIn (stored : store.Stored f) {stop : ℕ} (le : offset ≤ stop)
    {x : ℕ × MappedExtent} : x ∈ store.extentsIn offset stop ↔ x ∈ store.extents.entries ∧
      x.1 < stop ∧ offset < x.1 + x.2.size := by
  unfold extentsIn
  rw [mem_append, mem_toList, filter_eq_some_iff,
    mem_filter, Bool.and_eq_true, decide_eq_true_eq, decide_eq_true_eq, decide_eq_true_eq]
  constructor
  · rintro (⟨last, reaches⟩ | ⟨mem, from_, below⟩)
    · obtain ⟨mem, before⟩ := mem_filter.mp (mem_of_getLast? last)
      exact ⟨mem, lt_of_lt_of_le (of_decide_eq_true before) le, reaches⟩
    · have := stored.nonempty x mem
      exact ⟨mem, below, by omega⟩
  · rintro ⟨mem, starts, reaches⟩
    by_cases before : x.1 < offset
    · left
      refine ⟨?_, reaches⟩
      have kept : x ∈ store.extents.entries.filter fun entry => decide (entry.1 < offset) :=
        mem_filter.mpr ⟨mem, decide_eq_true before⟩
      cases found : (store.extents.entries.filter fun entry =>
          decide (entry.1 < offset)).getLast? with
      | none =>
        rw [getLast?_eq_none_iff.mp found] at kept
        cases kept
      | some last =>
        -- an extent that reaches the offset leaves no room for a later one before it
        obtain ⟨lastMem, lastBefore⟩ := mem_filter.mp (mem_of_getLast? found)
        have lastLt := of_decide_eq_true lastBefore
        obtain ⟨front, split⟩ := getLast?_eq_some_iff.mp found
        have sorted := store.extents.sorted.filter fun entry => decide (entry.1 < offset)
        rw [split] at sorted kept
        rcases mem_append.mp kept with early | own
        · have lt := (pairwise_append.mp sorted).2.2 x early last (mem_singleton.mpr rfl)
          have := stored.apart x mem last lastMem lt
          omega
        · rw [mem_singleton.mp own]
    · exact .inr ⟨mem, by omega, by omega⟩

theorem sorted_extentsIn (stored : store.Stored f) (offset stop : ℕ) :
    (store.extentsIn offset stop).Pairwise fun x y => x.1 + x.2.size ≤ y.1 := by
  have sorted : (store.extentsIn offset stop).Pairwise fun x y =>
      x ∈ store.extents.entries ∧ y ∈ store.extents.entries ∧ x.1 < y.1 := by
    unfold extentsIn
    refine pairwise_append.mpr ⟨?_, ?_, ?_⟩
    · cases ((store.extents.entries.filter fun entry => decide (entry.1 < offset)).getLast?.filter
        fun entry => decide (offset < entry.1 + entry.2.size)) with
      | none => exact .nil
      | some entry => exact pairwise_singleton _ _
    · apply (store.extents.sorted.filter _).imp_of_mem
      intro x y xMem yMem lt
      exact ⟨(mem_filter.mp xMem).1, (mem_filter.mp yMem).1, lt⟩
    · intro x xMem y yMem
      rw [mem_toList, filter_eq_some_iff] at xMem
      obtain ⟨inside, before⟩ := mem_filter.mp (mem_of_getLast? xMem.1)
      obtain ⟨yInside, bounds⟩ := mem_filter.mp yMem
      rw [Bool.and_eq_true, decide_eq_true_eq, decide_eq_true_eq] at bounds
      exact ⟨inside, yInside, lt_of_lt_of_le (of_decide_eq_true before) bounds.1⟩
  exact sorted.imp fun ⟨xMem, yMem, lt⟩ => stored.apart _ xMem _ yMem lt

theorem Stored.fetches (stored : store.Stored f) {x : ℕ × MappedExtent}
    (mem : x ∈ store.extents.entries) : store.runs.Fetches f x := by
  intro from_ to_ after le until_
  dsimp only [runs] at after until_ ⊢
  have ends := stored.ends x mem
  have within := stored.within
  have sliced := @slice_eq_window _ f from_ store.backing (x.2.fileOffset + (from_ - x.1))
    (x.2.fileOffset + (from_ - x.1) + (to_ - from_)) (by omega) (by omega) (by
      intro i lt
      have held := stored.holds x mem (from_ - x.1 + i) (by omega)
      have place : x.1 + (from_ - x.1 + i) = from_ + i := by omega
      rw [place, ← add_assoc] at held
      exact held)
  rw [sliced]
  congr 2
  omega

theorem runs_extentsIn (stored : store.Stored f) (offset count : ℕ) :
    ∀ x ∈ store.extentsIn offset (offset + count), store.runs.Fetches f x ∧
      store.runs.start x < offset + count ∧ offset < store.runs.stop x ∧
      store.runs.start x < store.runs.stop x := by
  intro x mem
  obtain ⟨inside, below, reaches⟩ := (mem_extentsIn stored (Nat.le_add_right _ _)).mp mem
  have := stored.nonempty x inside
  exact ⟨stored.fetches inside, below, reaches, by dsimp only [runs]; omega⟩

section

variable (represents : store.Represents array)
include represents

theorem zero_of_not_has {count i : ℕ} (from_ : offset ≤ i) (below : i < offset + count)
    (outside : ∀ x ∈ store.extentsIn offset (offset + count), ¬ store.runs.Has x i) :
    array.byte i = 0 := by
  apply represents.zero i
  rintro ⟨x, mem, spans⟩
  refine outside x ?_ spans
  exact (mem_extentsIn represents.stored (Nat.le_add_right _ _)).mpr
    ⟨mem, lt_of_le_of_lt spans.1 below, lt_of_le_of_lt from_ spans.2⟩

theorem readBytes_spec (offset : ℕ) (buffer : List UInt8) :
    store.readBytes offset buffer = some (array.readBytes offset buffer) := by
  unfold readBytes SparseArray.readBytes
  rw [clampedLen_eq represents]
  cases clamped : array.clamp offset buffer.length with
  | error error => rfl
  | ok read =>
    have le : read ≤ buffer.length := by
      rw [SparseArray.clamp_eq_ok clamped]
      exact min_le_left _ _
    have length : (buffer.take read).length = read := by rw [length_take, min_eq_left le]
    have reads := @RunStore.read_window _ _ store.runs array.byte 0 _
      (store.extentsIn offset (offset + read)) offset (buffer.take read)
      (by rw [length]; exact runs_extentsIn represents.stored offset _)
      (sorted_extentsIn represents.stored offset _)
      (by
        rw [length]
        intro i from_ below outside
        exact zero_of_not_has represents from_ below outside)
    rw [length] at reads
    dsimp only
    rw [reads]
    rfl

/-! ## Views -/

theorem viewBytes_spec (offset count : ℕ) :
    array.Viewed offset count (store.viewBytes offset count) := by
  unfold viewBytes
  rw [represents.size]
  refine array.viewed (fun _ => by omega) fun _ fits => ?_
  · obtain ⟨view, call, gains⟩ := @SegmentView.foldlM_pushRun array.byte offset _ store.runs
      offset (offset + count) le_rfl (Nat.le_add_right _ _)
      (store.extentsIn offset (offset + count)) (.new count)
      (runs_extentsIn represents.stored offset count)
    rw [call]
    refine ⟨view, rfl, gains.shows fun i lt none => ?_⟩
    apply zero_of_not_has represents (Nat.le_add_right _ _) (Nat.add_lt_add_left lt _)
    exact fun x mem has => none ⟨x, mem, by omega, by omega, has⟩

theorem viewBytesFrom_spec (offset : ℕ) :
    array.ViewedFrom offset (store.viewBytesFrom offset) := by
  unfold viewBytesFrom
  rw [represents.size]
  refine array.viewedFrom fun _ => ?_
  cases found : (store.extents.floor? offset).filter fun entry =>
      decide (offset < entry.1 + entry.2.size) with
  | some entry =>
    obtain ⟨floor, reaches⟩ := filter_eq_some_iff.mp found
    obtain ⟨mem, le, -⟩ := floor?_eq_some floor
    have stop := of_decide_eq_true reaches
    have last := represents.below (entry.1 + entry.2.size - 1) ⟨entry, mem, by omega, by omega⟩
    have fetched := represents.stored.fetches mem offset (entry.1 + entry.2.size) le stop.le le_rfl
    dsimp only
    rw [fetched]
    refine ⟨_, rfl, by dsimp only; omega, ?_⟩
    have shown := @SegmentView.contiguous_shows array.byte offset (entry.1 + entry.2.size - offset)
    have same : ({ (SegmentView.new 0).push 0 (window array.byte offset
        (entry.1 + entry.2.size - offset)) with size := entry.1 + entry.2.size - offset } :
          SegmentView) =
        SegmentView.contiguous (window array.byte offset (entry.1 + entry.2.size - offset)) := by
      unfold SegmentView.contiguous SegmentView.push SegmentView.new
      rw [length_window]
      split
      · rfl
      · rfl
    rw [same, shown.size]
    exact shown
  | none =>
    exact ⟨_, rfl, Nat.zero_le _, SparseArray.shows_empty⟩

end

/-! ## Writes -/

theorem holes_spec {stop : ℕ} : ∀ (extents : List (ℕ × MappedExtent)) (cursor : ℕ),
    extents.Pairwise (fun x y => x.1 + x.2.size ≤ y.1) →
    (∀ x ∈ extents, x.1 < stop ∧ 0 < x.2.size ∧ cursor ≤ x.1 + x.2.size) → cursor ≤ stop →
    (∀ hole ∈ holes stop extents cursor, cursor ≤ hole.1 ∧ hole.1 < hole.2 ∧ hole.2 ≤ stop) ∧
      (holes stop extents cursor).Pairwise (fun x y => x.2 ≤ y.1) ∧
      ∀ i, cursor ≤ i → i < stop →
        ((∃ hole ∈ holes stop extents cursor, hole.1 ≤ i ∧ i < hole.2) ↔
          ¬ ∃ x ∈ extents, x.1 ≤ i ∧ i < x.1 + x.2.size)
  | [], cursor, _, _, le => by
    unfold holes
    split
    · rename_i lt
      refine ⟨?_, pairwise_singleton _ _, ?_⟩
      · intro hole mem
        rw [mem_singleton.mp mem]
        exact ⟨le_rfl, lt, le_rfl⟩
      · intro i from_ below
        simp [from_, below]
    · refine ⟨by simp, .nil, ?_⟩
      intro i from_ below
      omega
  | (start, extent) :: extents, cursor, apart, all, le => by
    obtain ⟨above, apart'⟩ := pairwise_cons.mp apart
    obtain ⟨⟨starts, positive, reach⟩, rest⟩ := forall_mem_cons.mp all
    dsimp only at starts positive reach above
    obtain ⟨bounds, sorted, covers⟩ := holes_spec extents (min (start + extent.size) stop) apart' (by
      intro x mem
      have := above x mem
      obtain ⟨below, positive', -⟩ := rest x mem
      exact ⟨below, positive', by omega⟩) (by omega)
    unfold holes
    refine ⟨?_, ?_, ?_⟩
    · intro hole mem
      rcases mem_append.mp mem with first | later
      · split at first
        · rename_i gap
          rw [mem_singleton.mp first]
          exact ⟨le_rfl, gap, starts.le⟩
        · cases first
      · have := bounds hole later
        omega
    · refine pairwise_append.mpr ⟨?_, sorted, ?_⟩
      · split
        · exact pairwise_singleton _ _
        · exact .nil
      · intro hole first other later
        have := bounds other later
        split at first
        · rw [mem_singleton.mp first]
          dsimp only
          omega
        · cases first
    · intro i from_ below
      have later : (∃ x ∈ extents, x.1 ≤ i ∧ i < x.1 + x.2.size) → start + extent.size ≤ i := by
        rintro ⟨x, mem, spans⟩
        exact (above x mem).trans spans.1
      by_cases early : i < min (start + extent.size) stop
      · -- before the end of the extent, only the gap before it counts
        have none : ¬ ∃ hole ∈ holes stop extents (min (start + extent.size) stop),
            hole.1 ≤ i ∧ i < hole.2 := by
          rintro ⟨hole, mem, spans⟩
          have := bounds hole mem
          omega
        constructor
        · rintro ⟨hole, mem, spans⟩
          rcases mem_append.mp mem with first | last
          · split at first
            · rw [mem_singleton.mp first] at spans
              dsimp only at spans
              rw [exists_mem_cons_iff, not_or]
              exact ⟨by dsimp only; omega, fun held => by have := later held; omega⟩
            · cases first
          · exact absurd ⟨hole, last, spans⟩ none
        · intro outside
          rw [exists_mem_cons_iff, not_or] at outside
          have before : i < start := by
            have := outside.1
            dsimp only at this
            omega
          refine ⟨(cursor, start), mem_append_left _ ?_, from_, before⟩
          rw [if_pos (by omega)]
          exact mem_singleton.mpr rfl
      · rw [exists_mem_cons_iff, not_or]
        have same := covers i (by omega) below
        constructor
        · rintro ⟨hole, mem, spans⟩
          refine ⟨by dsimp only; omega, ?_⟩
          rcases mem_append.mp mem with first | last
          · split at first
            · rw [mem_singleton.mp first] at spans
              dsimp only at spans
              omega
            · cases first
          · exact same.mp ⟨hole, last, spans⟩
        · rintro ⟨-, outside⟩
          obtain ⟨hole, mem, spans⟩ := same.mpr outside
          exact ⟨hole, mem_append_right _ mem, spans⟩

theorem writeExtent_spec (stored : store.Stored f) {data : List UInt8} (new : Holds g (offset, data))
    {x : ℕ × MappedExtent} (mem : x ∈ store.extents.entries) (starts : x.1 < offset + data.length)
    (ends : offset < x.1 + x.2.size) :
    ∃ backing, writeExtent offset data store.backing x = some backing ∧
      { store with backing }.Stored fun i =>
        if (x.1 ≤ i ∧ i < x.1 + x.2.size) ∧ Spans (offset, data) i then g i else f i := by
  have fileEnd := stored.ends x mem
  have within := stored.within
  have source := new.slice (le_max_right x.1 offset)
    (show max x.1 offset ≤ min (x.1 + x.2.size) (offset + data.length) by
      have := stored.nonempty x mem
      omega) (min_le_right _ _)
  dsimp only at source
  obtain ⟨backing, copied⟩ := @copyAt_isSome _ (x.2.fileOffset + (max x.1 offset - x.1)) store.backing
    (window g (max x.1 offset) (min (x.1 + x.2.size) (offset + data.length) - max x.1 offset))
    (by rw [length_window]; omega)
  refine ⟨backing, ?_, stored.apart, stored.nonempty, ?_, stored.files, stored.ends, ?_, stored.last⟩
  · unfold writeExtent
    dsimp only
    rw [source]
    exact copied
  · intro y yMem i lt
    have held := stored.holds y yMem i lt
    dsimp only
    rw [getElem?_copyAt copied, length_window]
    unfold Spans
    dsimp only
    by_cases same : y.1 = x.1
    · have eq : y = x := by
        obtain ⟨key, extent⟩ := y
        dsimp only at same
        subst same
        rw [OrdMap.unique yMem mem]
      subst eq
      by_cases inside : offset ≤ y.1 + i ∧ y.1 + i < offset + data.length
      · rw [if_pos (by omega), if_pos ⟨by omega, inside⟩, getElem?_window, if_pos (by omega)]
        congr 2
        omega
      · rw [if_neg (by omega), if_neg fun both => inside both.2]
        exact held
    · have apart : ¬ (x.1 ≤ y.1 + i ∧ y.1 + i < x.1 + x.2.size) := by
        rcases Nat.lt_or_gt_of_ne same with below | above
        · have := stored.apart y yMem x mem below
          omega
        · have := stored.apart x mem y yMem above
          omega
      have files := stored.files y yMem x mem same
      rw [if_neg (by omega), if_neg fun both => apart both.1]
      exact held
  · dsimp only
    rw [length_copyAt copied]
    exact within

theorem foldlM_writeExtent {data : List UInt8} (new : Holds g (offset, data)) :
    ∀ (extents : List (ℕ × MappedExtent)) {store : PackedMemoryMappedSegmentStorage} {f : ℕ → UInt8},
    store.Stored f → (∀ x ∈ extents, x ∈ store.extents.entries ∧ x.1 < offset + data.length ∧
      offset < x.1 + x.2.size) →
    ∃ backing, extents.foldlM (writeExtent offset data) store.backing = some backing ∧
      { store with backing }.Stored fun i =>
        if (∃ x ∈ extents, x.1 ≤ i ∧ i < x.1 + x.2.size) ∧ Spans (offset, data) i then g i else f i
  | [], store, f, stored, _ => by
    refine ⟨store.backing, rfl, stored.congr ?_⟩
    intro i _
    simp
  | x :: extents, store, f, stored, all => by
    obtain ⟨⟨mem, starts, ends⟩, rest⟩ := forall_mem_cons.mp all
    obtain ⟨middle, first, stored'⟩ := writeExtent_spec stored new mem starts ends
    obtain ⟨backing, call, stored''⟩ := @foldlM_writeExtent data new extents
      { store with backing := middle } _ stored' rest
    refine ⟨backing, ?_, stored''.congr ?_⟩
    · rw [foldlM_cons, first]
      exact call
    · intro i _
      simp only [exists_mem_cons_iff]
      by_cases inside : Spans (offset, data) i
      · by_cases own : x.1 ≤ i ∧ i < x.1 + x.2.size
        · simp [own, inside, and_self, true_or, and_true, ite_self]
        · simp only [own, inside, and_true, false_or, if_false]
      · simp [inside, and_false]

theorem Stored.append (stored : store.Stored g) {backing : List UInt8} {key size : ℕ}
    {extent : MappedExtent} (kept : ∀ j, j < store.fileEnd → backing[j]? = store.backing[j]?)
    (room : store.fileEnd + size ≤ backing.length) (positive : 0 < extent.size)
    (end_ : extent.fileOffset + extent.size = store.fileEnd + size)
    (holds : ∀ i, i < extent.size → backing[extent.fileOffset + i]? = some (g (key + i)))
    (others : ∀ y ∈ store.extents.entries, y.1 ≠ key →
      (y.1 + y.2.size ≤ key ∨ key + extent.size ≤ y.1) ∧
        y.2.fileOffset + y.2.size ≤ extent.fileOffset) :
    { store with
      backing
      fileEnd := store.fileEnd + size
      extents := store.extents.insert key extent
      lastExtent := some key }.Stored g := by
  have entries : ∀ y, y ∈ (store.extents.insert key extent).entries ↔
      y = (key, extent) ∨ (y ∈ store.extents.entries ∧ y.1 ≠ key) := fun y => mem_insert
  refine ⟨?_, ?_, ?_, ?_, ?_, room, ?_⟩
  · intro x xMem y yMem lt
    rcases (entries x).mp xMem with rfl | ⟨xIn, xNe⟩
    · rcases (entries y).mp yMem with rfl | ⟨yIn, yNe⟩
      · exact absurd lt (lt_irrefl _)
      · have := (others y yIn yNe).1
        have := stored.nonempty y yIn
        dsimp only at lt ⊢
        omega
    · rcases (entries y).mp yMem with rfl | ⟨yIn, -⟩
      · have := (others x xIn xNe).1
        dsimp only at lt ⊢
        omega
      · exact stored.apart x xIn y yIn lt
  · intro x mem
    rcases (entries x).mp mem with rfl | ⟨inside, -⟩
    · exact positive
    · exact stored.nonempty x inside
  · intro x mem i lt
    rcases (entries x).mp mem with rfl | ⟨inside, -⟩
    · exact holds i lt
    · have := stored.ends x inside
      dsimp only
      rw [kept _ (by omega)]
      exact stored.holds x inside i lt
  · intro x xMem y yMem ne
    rcases (entries x).mp xMem with rfl | ⟨xIn, xNe⟩
    · rcases (entries y).mp yMem with rfl | ⟨yIn, yNe⟩
      · exact absurd rfl ne
      · exact .inr (others y yIn yNe).2
    · rcases (entries y).mp yMem with rfl | ⟨yIn, -⟩
      · exact .inl (others x xIn xNe).2
      · exact stored.files x xIn y yIn ne
  · intro x mem
    rcases (entries x).mp mem with rfl | ⟨inside, -⟩
    · exact end_.le
    · exact (stored.ends x inside).trans (Nat.le_add_right _ _)
  · intro last eq
    cases eq
    exact ⟨extent, (entries _).mpr (.inl rfl), end_⟩

theorem reserve_spec (stored : store.Stored g) (size : ℕ) :
    store.fileEnd + size ≤ (store.reserve size).length ∧
      ∀ j, j < store.fileEnd → (store.reserve size)[j]? = store.backing[j]? := by
  have within := stored.within
  unfold reserve
  dsimp only
  split
  · refine ⟨?_, ?_⟩
    · rw [length_append, length_replicate]
      omega
    · intro j lt
      rw [getElem?_append_left (by omega)]
  · exact ⟨by omega, fun _ _ => rfl⟩

theorem writeHole_spec (stored : store.Stored g) {data : List UInt8} (new : Holds g (offset, data))
    {hole : ℕ × ℕ} (from_ : offset ≤ hole.1) (lt : hole.1 < hole.2)
    (stop : hole.2 ≤ offset + data.length)
    (free : ∀ i, hole.1 ≤ i → i < hole.2 → ¬ Covered store.extents i) :
    ∃ store', writeHole offset data store hole = some store' ∧ store'.Stored g ∧
      store'.size = store.size ∧
      ∀ i, Covered store'.extents i ↔ Covered store.extents i ∨ (hole.1 ≤ i ∧ i < hole.2) := by
  have source := new.slice from_ lt.le stop
  dsimp only at source
  obtain ⟨room, kept⟩ := reserve_spec stored (hole.2 - hole.1)
  obtain ⟨backing, copied⟩ := @copyAt_isSome _ store.fileEnd (store.reserve (hole.2 - hole.1))
    (window g hole.1 (hole.2 - hole.1)) (by rw [length_window]; exact room)
  have elements := getElem?_copyAt copied
  rw [length_window] at elements
  have kept' : ∀ j, j < store.fileEnd → backing[j]? = store.backing[j]? := by
    intro j below
    rw [elements, if_neg (by omega), kept j below]
  have room' : store.fileEnd + (hole.2 - hole.1) ≤ backing.length := by
    rw [length_copyAt copied]
    exact room
  -- an extent is before the hole or after it
  have apart : ∀ y ∈ store.extents.entries, y.1 + y.2.size ≤ hole.1 ∨ hole.2 ≤ y.1 := by
    intro y mem
    by_contra overlap
    have positive := stored.nonempty y mem
    refine free (max y.1 hole.1) (by omega) (by omega) ⟨y, mem, by omega, by omega⟩
  -- the extent at `key` grows by the hole, which follows it in the file too
  have write : ∀ key extent, store.holeExtent hole.1 (hole.2 - hole.1) = some (key, extent) →
      0 < extent.size → key + extent.size = hole.2 → key ≤ hole.1 →
      extent.fileOffset + extent.size = store.fileEnd + (hole.2 - hole.1) →
      (∀ i, i < hole.1 - key → store.backing[extent.fileOffset + i]? = some (g (key + i))) →
      (∀ y ∈ store.extents.entries, y.1 ≠ key → (y.1 + y.2.size ≤ key ∨ key + extent.size ≤ y.1) ∧
          y.2.fileOffset + y.2.size ≤ extent.fileOffset) →
      (∀ i, (key ≤ i ∧ i < hole.1) ↔ ∃ old, (key, old) ∈ store.extents.entries ∧
        key ≤ i ∧ i < key + old.size) →
      ∃ store', writeHole offset data store hole = some store' ∧ store'.Stored g ∧
        store'.size = store.size ∧
        ∀ i, Covered store'.extents i ↔ Covered store.extents i ∨ (hole.1 ≤ i ∧ i < hole.2) := by
    intro key extent found positive total le end_ old others same
    have appended := @Stored.append store g stored backing key (hole.2 - hole.1) extent kept' room'
      positive end_ (by
        intro i below
        by_cases early : i < hole.1 - key
        · rw [kept' _ (by omega)]
          exact old i early
        · rw [elements, if_pos (by omega), getElem?_window, if_pos (by omega)]
          congr 2
          omega) others
    refine ⟨_, ?_, appended, rfl, ?_⟩
    · unfold writeHole
      rw [source, some_bind, length_window, found, some_bind]
      dsimp only
      rw [copied]
      rfl
    · intro i
      unfold Covered
      dsimp only
      simp only [mem_insert]
      constructor
      · rintro ⟨y, rfl | ⟨mem, -⟩, spans⟩
        · dsimp only at spans
          by_cases early : i < hole.1
          · obtain ⟨before, mem, inside⟩ := (same i).mp ⟨spans.1, early⟩
            exact .inl ⟨_, mem, inside⟩
          · exact .inr (by omega)
        · exact .inl ⟨y, mem, spans⟩
      · rintro (⟨y, mem, spans⟩ | inside)
        · by_cases own : y.1 = key
          · refine ⟨(key, extent), .inl rfl, ?_⟩
            have := (same i).mpr ⟨y.2, by rw [← own]; exact mem, by omega, by omega⟩
            dsimp only
            omega
          · exact ⟨y, .inr ⟨mem, own⟩, spans⟩
        · exact ⟨(key, extent), .inl rfl, by dsimp only; omega⟩
  have fresh : store.holeExtent hole.1 (hole.2 - hole.1) =
      some (hole.1, ⟨hole.2 - hole.1, store.fileEnd⟩) →
      ∃ store', writeHole offset data store hole = some store' ∧ store'.Stored g ∧
        store'.size = store.size ∧
        ∀ i, Covered store'.extents i ↔ Covered store.extents i ∨ (hole.1 ≤ i ∧ i < hole.2) := by
    intro found
    apply write _ _ found (by dsimp only; omega) (by dsimp only; omega) le_rfl rfl
    · intro i impossible
      omega
    · intro y mem _
      have := apart y mem
      exact ⟨by dsimp only; omega, stored.ends y mem⟩
    · intro i
      refine ⟨fun impossible => by omega, ?_⟩
      rintro ⟨old, mem, inside⟩
      have := apart _ mem
      dsimp only at this
      omega
  unfold holeExtent at fresh
  cases last : store.lastExtent with
  | none =>
    rw [last] at fresh
    exact fresh rfl
  | some key =>
    obtain ⟨extent, mem, end_⟩ := stored.last key last
    rw [last] at fresh
    dsimp only at fresh
    rw [get?_eq_some.mpr mem, some_bind] at fresh
    by_cases adjacent : key + extent.size = hole.1
    · have found : store.holeExtent hole.1 (hole.2 - hole.1) =
          some (key, ⟨extent.size + (hole.2 - hole.1), extent.fileOffset⟩) := by
        unfold holeExtent
        rw [last]
        dsimp only
        rw [get?_eq_some.mpr mem, some_bind, if_pos adjacent]
        rfl
      refine write _ _ found (by dsimp only; omega) (by dsimp only; omega) (by omega)
        (by dsimp only; omega) ?_ ?_ ?_
      · intro i below
        exact stored.holds _ mem i (by dsimp only; omega)
      · intro y yMem ne
        have := apart y yMem
        have files := stored.files y yMem _ mem ne
        have ends := stored.ends y yMem
        have positive := stored.nonempty y yMem
        dsimp only at files ⊢
        refine ⟨?_, by omega⟩
        rcases Nat.lt_or_gt_of_ne ne with below | above
        · exact .inl (stored.apart y yMem _ mem below)
        · have := stored.apart _ mem y yMem above
          dsimp only at this
          omega
      · intro i
        constructor
        · intro inside
          exact ⟨extent, mem, by omega⟩
        · rintro ⟨old, oldMem, inside⟩
          rw [OrdMap.unique oldMem mem] at inside
          omega
    · rw [if_neg adjacent] at fresh
      exact fresh rfl

theorem foldlM_writeHole {data : List UInt8} (new : Holds g (offset, data)) :
    ∀ (gaps : List (ℕ × ℕ)) {store : PackedMemoryMappedSegmentStorage}, store.Stored g →
    (∀ hole ∈ gaps, offset ≤ hole.1 ∧ hole.1 < hole.2 ∧ hole.2 ≤ offset + data.length ∧
      ∀ i, hole.1 ≤ i → i < hole.2 → ¬ Covered store.extents i) →
    gaps.Pairwise (fun x y => x.2 ≤ y.1) →
    ∃ store', gaps.foldlM (writeHole offset data) store = some store' ∧ store'.Stored g ∧
      store'.size = store.size ∧ ∀ i, Covered store'.extents i ↔
        Covered store.extents i ∨ ∃ hole ∈ gaps, hole.1 ≤ i ∧ i < hole.2
  | [], store, stored, _, _ => ⟨store, rfl, stored, rfl, by simp⟩
  | hole :: gaps, store, stored, all, sorted => by
    obtain ⟨⟨from_, lt, stop, free⟩, rest⟩ := forall_mem_cons.mp all
    obtain ⟨above, sorted'⟩ := pairwise_cons.mp sorted
    obtain ⟨middle, first, stored', size, covered⟩ := writeHole_spec stored new from_ lt stop free
    obtain ⟨store', call, stored'', size', covered'⟩ := foldlM_writeHole new gaps stored' (by
      intro other mem
      obtain ⟨from', lt', stop', free'⟩ := rest other mem
      refine ⟨from', lt', stop', ?_⟩
      intro i after below inside
      rcases (covered i).mp inside with old | own
      · exact free' i after below old
      · have := above other mem
        omega) sorted'
    refine ⟨store', ?_, stored'', size'.trans size, ?_⟩
    · rw [foldlM_cons, first]
      exact call
    · intro i
      rw [covered', covered, exists_mem_cons_iff, or_assoc]

theorem writeData_spec (represents : store.Represents array) {after : SparseArray}
    {data : List UInt8} (size : after.size = array.size) (holds : Holds after.byte (offset, data))
    (agrees : ∀ i, ¬ Spans (offset, data) i → array.byte i = after.byte i)
    (fits : data = [] ∨ offset + data.length ≤ array.size) :
    ∃ store', store.writeData offset data = some store' ∧ store'.Represents after := by
  have stored := represents.stored
  have overlap := fun x => @mem_extentsIn store _ offset stored (offset + data.length)
    (Nat.le_add_right _ _) x
  obtain ⟨backing, writes, stored'⟩ := foldlM_writeExtent holds
    (store.extentsIn offset (offset + data.length)) stored fun x mem => (overlap x).mp mem
  have written : { store with backing }.Stored after.byte := by
    apply stored'.congr
    rintro i ⟨x, mem, spans⟩
    split
    · rfl
    · rename_i outside
      apply agrees i
      intro inside
      refine outside ⟨⟨x, (overlap x).mpr ⟨mem, ?_, ?_⟩, spans⟩, inside⟩
      · exact lt_of_le_of_lt spans.1 inside.2
      · exact lt_of_le_of_lt inside.1 spans.2
  obtain ⟨bounds, sorted, covers⟩ := @holes_spec (offset + data.length)
    (store.extentsIn offset (offset + data.length)) offset (sorted_extentsIn stored _ _)
    (by
      intro x mem
      obtain ⟨inside, below, reaches⟩ := (overlap x).mp mem
      exact ⟨below, stored.nonempty x inside, reaches.le⟩)
    (Nat.le_add_right _ _)
  have uncovered : ∀ i, offset ≤ i → i < offset + data.length →
      ((∃ hole ∈ holes (offset + data.length) (store.extentsIn offset (offset + data.length)) offset,
        hole.1 ≤ i ∧ i < hole.2) ↔ ¬ Covered store.extents i) := by
    intro i from_ below
    rw [covers i from_ below]
    refine not_congr ⟨?_, ?_⟩
    · rintro ⟨x, mem, spans⟩
      exact ⟨x, ((overlap x).mp mem).1, spans⟩
    · rintro ⟨x, mem, spans⟩
      refine ⟨x, (overlap x).mpr ⟨mem, ?_, ?_⟩, spans⟩
      · exact lt_of_le_of_lt spans.1 below
      · exact lt_of_le_of_lt from_ spans.2
  obtain ⟨store', appends, stored'', size', covered⟩ := foldlM_writeHole holds _ written (by
    intro hole mem
    obtain ⟨from_, lt, stop⟩ := bounds hole mem
    refine ⟨from_, lt, stop, ?_⟩
    intro i after below
    exact (uncovered i (by omega) (by omega)).mp ⟨hole, mem, after, below⟩) sorted
  refine ⟨store', ?_, ?_, stored'', ?_, ?_⟩
  · unfold writeData
    dsimp only
    rw [writes]
    exact appends
  · rw [size', size]
    exact represents.size
  · intro i outside
    rw [covered, not_or] at outside
    have notWritten : ¬ Spans (offset, data) i := by
      intro inside
      exact outside.2 ((uncovered i inside.1 inside.2).mpr outside.1)
    rw [← agrees i notWritten]
    exact represents.zero i outside.1
  · intro i inside
    rw [size]
    rcases (covered i).mp inside with old | ⟨hole, mem, spans⟩
    · exact represents.below i old
    · have := bounds hole mem
      rcases fits with nil | fits
      · rw [nil, length_nil] at this
        omega
      · omega

/-! ## Resizing -/

theorem mem_trim {extents : OrdMap ℕ MappedExtent} {newSize : ℕ}
    (apart : ∀ x ∈ extents.entries, ∀ y ∈ extents.entries, x.1 < y.1 → x.1 + x.2.size ≤ y.1)
    (starts : ∀ x ∈ extents.entries, x.1 < newSize) (y : ℕ × MappedExtent) :
    y ∈ (trim extents newSize).entries ↔ ∃ x ∈ extents.entries,
      y = (x.1, ⟨min x.2.size (newSize - x.1), x.2.fileOffset⟩) := by
  have all : (extents.entries.filter fun entry => decide (entry.1 < newSize)) = extents.entries :=
    filter_eq_self.mpr fun x mem => decide_eq_true (starts x mem)
  -- an extent that does not reach past the size stays as it is
  have whole : ∀ x : ℕ × MappedExtent, x.1 + x.2.size ≤ newSize →
      (x.1, ⟨min x.2.size (newSize - x.1), x.2.fileOffset⟩) = x := by
    intro x le
    have : min x.2.size (newSize - x.1) = x.2.size := by omega
    rw [this]
  unfold trim
  rw [all]
  cases found : extents.entries.getLast? with
  | none =>
    rw [getLast?_eq_none_iff.mp found]
    simp
  | some last =>
    obtain ⟨start, extent⟩ := last
    have mem := mem_of_getLast? found
    have before : ∀ x ∈ extents.entries, x.1 ≠ start → x.1 + x.2.size ≤ start := by
      intro x xMem ne
      obtain ⟨front, split⟩ := getLast?_eq_some_iff.mp found
      have sorted := extents.sorted
      rw [split] at sorted xMem
      rcases mem_append.mp xMem with early | own
      · have lt := (pairwise_append.mp sorted).2.2 x early _ (mem_singleton.mpr rfl)
        rw [split] at apart
        exact apart x xMem _ (mem_append_right _ (mem_singleton.mpr rfl)) lt
      · rw [mem_singleton.mp own] at ne
        exact absurd rfl ne
    have lt := starts _ mem
    dsimp only at lt ⊢
    split
    · rename_i long
      rw [mem_insert]
      constructor
      · rintro (rfl | ⟨inside, ne⟩)
        · refine ⟨_, mem, ?_⟩
          have : min extent.size (newSize - start) = newSize - start := by omega
          rw [this]
        · refine ⟨y, inside, (whole y ?_).symm⟩
          have := before y inside ne
          omega
      · rintro ⟨x, xMem, rfl⟩
        by_cases own : x.1 = start
        · left
          have eq : x.2 = extent := by
            obtain ⟨key, other⟩ := x
            dsimp only at own
            subst own
            exact OrdMap.unique xMem mem
          have : min extent.size (newSize - start) = newSize - start := by omega
          rw [own, eq, this]
        · right
          have := before x xMem own
          rw [whole x (by omega)]
          exact ⟨xMem, own⟩
    · rename_i short
      have fits : ∀ x ∈ extents.entries, x.1 + x.2.size ≤ newSize := by
        intro x xMem
        by_cases own : x.1 = start
        · have eq : x.2 = extent := by
            obtain ⟨key, other⟩ := x
            dsimp only at own
            subst own
            exact OrdMap.unique xMem mem
          rw [own, eq]
          omega
        · have := before x xMem own
          omega
      constructor
      · intro inside
        exact ⟨y, inside, (whole y (fits y inside)).symm⟩
      · rintro ⟨x, xMem, rfl⟩
        rw [whole x (fits x xMem)]
        exact xMem

theorem lastAfter_eq_some {extents : OrdMap ℕ MappedExtent} {fileEnd key : ℕ} {last : Option ℕ}
    (found : lastAfter extents fileEnd last = some key) :
    ∃ extent, (key, extent) ∈ extents.entries ∧ extent.fileOffset + extent.size = fileEnd := by
  obtain ⟨-, ends⟩ := filter_eq_some_iff.mp found
  cases at_ : extents.get? key with
  | none =>
    rw [at_] at ends
    cases ends
  | some extent =>
    rw [at_] at ends
    exact ⟨extent, get?_eq_some.mp at_, of_decide_eq_true ends⟩

theorem resize_spec (represents : store.Represents array) (newSize : ℕ) :
    ∃ store', store.resize newSize = some store' ∧ store'.Represents (array.resize newSize) := by
  have stored := represents.stored
  have same : ∀ i, i < newSize → array.byte i = (array.resize newSize).byte i :=
    fun i lt => (if_pos lt).symm
  unfold resize
  split
  · have kept : ∀ x, x ∈ (store.extents.retain fun start _ => decide (start < newSize)).entries ↔
        x ∈ store.extents.entries ∧ x.1 < newSize := by
      intro x
      rw [mem_retain, decide_eq_true_eq]
    have entries := @mem_trim (store.extents.retain fun start _ => decide (start < newSize)) newSize
      (fun x xMem y yMem lt => stored.apart x ((kept x).mp xMem).1 y ((kept y).mp yMem).1 lt)
      (fun x mem => ((kept x).mp mem).2)
    have covered : ∀ i, Covered (trim (store.extents.retain fun start _ =>
        decide (start < newSize)) newSize) i ↔ Covered store.extents i ∧ i < newSize := by
      intro i
      constructor
      · rintro ⟨y, mem, spans⟩
        obtain ⟨x, xMem, rfl⟩ := (entries y).mp mem
        dsimp only at spans
        have lt := ((kept x).mp xMem).2
        exact ⟨⟨x, ((kept x).mp xMem).1, by omega⟩, by omega⟩
      · rintro ⟨⟨x, mem, spans⟩, lt⟩
        refine ⟨_, (entries _).mpr ⟨x, (kept x).mpr ⟨mem, by omega⟩, rfl⟩, ?_⟩
        dsimp only
        omega
    refine ⟨_, rfl, rfl, ⟨?_, ?_, ?_, ?_, ?_, stored.within, ?_⟩, ?_, ?_⟩
    · intro y yMem z zMem lt
      obtain ⟨x, xMem, rfl⟩ := (entries y).mp yMem
      obtain ⟨w, wMem, rfl⟩ := (entries z).mp zMem
      have := stored.apart x ((kept x).mp xMem).1 w ((kept w).mp wMem).1 lt
      dsimp only
      omega
    · intro y mem
      obtain ⟨x, xMem, rfl⟩ := (entries y).mp mem
      have := stored.nonempty x ((kept x).mp xMem).1
      have := ((kept x).mp xMem).2
      dsimp only
      omega
    · intro y mem i lt
      obtain ⟨x, xMem, rfl⟩ := (entries y).mp mem
      dsimp only at lt ⊢
      rw [← same (x.1 + i) (by omega)]
      exact stored.holds x ((kept x).mp xMem).1 i (by omega)
    · intro y yMem z zMem ne
      obtain ⟨x, xMem, rfl⟩ := (entries y).mp yMem
      obtain ⟨w, wMem, rfl⟩ := (entries z).mp zMem
      have := stored.files x ((kept x).mp xMem).1 w ((kept w).mp wMem).1 ne
      dsimp only
      omega
    · intro y mem
      obtain ⟨x, xMem, rfl⟩ := (entries y).mp mem
      have := stored.ends x ((kept x).mp xMem).1
      dsimp only
      omega
    · intro key last
      exact lastAfter_eq_some last
    · intro i outside
      change (if i < newSize then array.byte i else 0) = 0
      split
      · rename_i lt
        exact represents.zero i fun inside => outside ((covered i).mpr ⟨inside, lt⟩)
      · rfl
    · intro i inside
      exact ((covered i).mp inside).2
  · rename_i larger
    rw [represents.size] at larger
    have stored' := stored.congr fun i inside =>
      same i (lt_of_lt_of_le (represents.below i inside) (not_lt.mp larger))
    refine ⟨_, rfl, rfl, ⟨stored'.apart, stored'.nonempty, stored'.holds, stored'.files,
      stored'.ends, stored'.within, stored'.last⟩, ?_, ?_⟩
    · intro i outside
      change (if i < newSize then array.byte i else 0) = 0
      rw [represents.zero i outside, ite_self]
    · intro i inside
      exact lt_of_lt_of_le (represents.below i inside) (not_lt.mp larger)

/-- The packed provider refines the array. -/
def refinement : Refinement provider fun _ _ => True where
  represents := Represents
  observes store array represents :=
    ⟨represents.size, readBytes_spec represents, viewBytes_spec represents,
      viewBytesFrom_spec represents⟩
  write store array offset bytes represents _ accepted := by
    obtain ⟨store', call, represents'⟩ := @writeData_spec store array offset represents
      (array.put offset bytes) (bytes.take (min bytes.length (array.size - offset))) rfl
      (array.holds_put offset bytes) (array.put_agrees offset bytes) (array.put_fits offset bytes)
    refine ⟨store', ?_, represents'⟩
    change store.writeBytes offset bytes = _
    unfold writeBytes
    rw [clampedLen_eq represents, SparseArray.clamp_of_accepted accepted]
    dsimp only
    rw [call]
    rfl
  refuse store array offset bytes represents none nonempty := by
    change store.writeBytes offset bytes = _
    unfold writeBytes
    rw [clampedLen_eq represents, SparseArray.clamp,
      if_pos ⟨none, length_eq_zero_iff.not.mpr nonempty⟩]
  resize store array size represents _ := resize_spec represents size

theorem withSize_represents (size : ℕ) : (withSize size).Represents (.zeros size) := by
  refine ⟨rfl, ⟨?_, ?_, ?_, ?_, ?_, le_rfl, ?_⟩, fun _ _ => rfl, ?_⟩
  · simp [withSize]
  · simp [withSize]
  · simp [withSize]
  · simp [withSize]
  · simp [withSize]
  · intro key last
    cases last
  · rintro i ⟨x, mem, -⟩
    cases mem

/-- Metadata and a data file that hold an array, as `flush` and `pack_in_place` leave them: the
extents are apart, also in the file, and within the size. -/
structure Packs (metadata : PackMetadata) (file : List UInt8) (array : SparseArray) : Prop where
  size : metadata.logicalSize = array.size
  apart : metadata.extents.Pairwise fun x y => x.1 + x.2.size ≤ y.1
  files : metadata.extents.Pairwise fun x y =>
    x.2.fileOffset + x.2.size ≤ y.2.fileOffset ∨ y.2.fileOffset + y.2.size ≤ x.2.fileOffset
  extents : ∀ x ∈ metadata.extents, 0 < x.2.size ∧ x.1 + x.2.size ≤ array.size ∧
    x.2.fileOffset + x.2.size ≤ metadata.fileEnd
  within : metadata.fileEnd ≤ file.length
  holds : ∀ x ∈ metadata.extents, ∀ i, i < x.2.size →
    file[x.2.fileOffset + i]? = some (array.byte (x.1 + i))
  zero : ∀ i, (∀ x ∈ metadata.extents, ¬ (x.1 ≤ i ∧ i < x.1 + x.2.size)) → array.byte i = 0

theorem mem_foldl_insert : ∀ (entries : List (ℕ × MappedExtent)) (map : OrdMap ℕ MappedExtent),
    entries.Pairwise (fun x y => x.1 ≠ y.1) →
    (∀ x ∈ entries, ∀ y ∈ map.entries, y.1 ≠ x.1) → ∀ y,
    y ∈ (entries.foldl (fun map entry => map.insert entry.1 entry.2) map).entries ↔
      y ∈ entries ∨ y ∈ map.entries
  | [], map, _, _, y => by simp
  | entry :: entries, map, distinct, fresh, y => by
    obtain ⟨others, distinct'⟩ := pairwise_cons.mp distinct
    obtain ⟨own, rest⟩ := forall_mem_cons.mp fresh
    rw [foldl_cons, mem_foldl_insert entries _ distinct' (by
      intro x xMem z zMem
      rcases mem_insert.mp zMem with rfl | ⟨inside, -⟩
      · exact others x xMem
      · exact rest x xMem z inside), mem_insert, mem_cons]
    constructor
    · rintro (mem | rfl | ⟨mem, -⟩)
      · exact .inl (.inr mem)
      · exact .inl (.inl rfl)
      · exact .inr mem
    · rintro ((rfl | mem) | mem)
      · exact .inr (.inl rfl)
      · exact .inl mem
      · exact .inr (.inr ⟨mem, own y mem⟩)

/-- Extents that are apart, also in the file. -/
def Separate (x y : ℕ × MappedExtent) : Prop :=
  (x.1 + x.2.size ≤ y.1 ∨ y.1 + y.2.size ≤ x.1) ∧
    (x.2.fileOffset + x.2.size ≤ y.2.fileOffset ∨ y.2.fileOffset + y.2.size ≤ x.2.fileOffset)

theorem openExisting_represents {metadata : PackMetadata} {file : List UInt8}
    (packs : Packs metadata file array) : (openExisting metadata file).Represents array := by
  have distinct : metadata.extents.Pairwise fun x y => x.1 ≠ y.1 := by
    apply packs.apart.imp_of_mem
    intro x y mem _ le
    have := (packs.extents x mem).1
    omega
  have entries : ∀ y, y ∈ (openExisting metadata file).extents.entries ↔ y ∈ metadata.extents := by
    intro y
    unfold openExisting
    dsimp only
    rw [mem_foldl_insert _ _ distinct (by simp)]
    simp
  have pairs : ∀ x ∈ metadata.extents, ∀ y ∈ metadata.extents, x.1 ≠ y.1 → Separate x y := by
    intro x xMem y yMem ne
    have separate : metadata.extents.Pairwise Separate :=
      (packs.apart.and packs.files).imp fun both => ⟨.inl both.1, both.2⟩
    have : Std.Symm Separate := ⟨fun _ _ both => ⟨both.1.symm, both.2.symm⟩⟩
    exact separate.forall xMem yMem fun eq => ne (congrArg Prod.fst eq)
  refine ⟨packs.size, ⟨?_, ?_, ?_, ?_, ?_, packs.within, ?_⟩, ?_, ?_⟩
  · intro x xMem y yMem lt
    have := (pairs x ((entries x).mp xMem) y ((entries y).mp yMem) lt.ne).1
    have := (packs.extents y ((entries y).mp yMem)).1
    omega
  · intro x mem
    exact (packs.extents x ((entries x).mp mem)).1
  · intro x mem
    exact packs.holds x ((entries x).mp mem)
  · intro x xMem y yMem ne
    exact (pairs x ((entries x).mp xMem) y ((entries y).mp yMem) ne).2
  · intro x mem
    exact (packs.extents x ((entries x).mp mem)).2.2
  · intro key last
    obtain ⟨⟨start, extent⟩, found, rfl⟩ := Option.map_eq_some_iff.mp last
    have ends := find?_some found
    exact ⟨extent, mem_of_find?_eq_some found, of_decide_eq_true ends⟩
  · intro i outside
    apply packs.zero i
    intro x mem spans
    exact outside ⟨x, (entries x).mpr mem, spans⟩
  · rintro i ⟨x, mem, spans⟩
    exact lt_of_lt_of_le spans.2 (packs.extents x ((entries x).mp mem)).2.1

inductive Created : PackedMemoryMappedSegmentStorage → SparseArray → Prop
  | withSize (size : ℕ) : Created (.withSize size) (.zeros size)
  | openExisting {metadata : PackMetadata} {file : List UInt8} {array : SparseArray}
    (packs : Packs metadata file array) : Created (.openExisting metadata file) array

theorem Created.represents (created : Created store array) : store.Represents array := by
  cases created with
  | withSize size => exact withSize_represents size
  | openExisting packs => exact openExisting_represents packs

end PackedMemoryMappedSegmentStorage

end Fugue.Storage.Segments
