import Fugue.Lib.Loop
import Fugue.Lib.RangeSet
import Fugue.Storage.Segments.Provider

/-!
# The memory-mapped provider

`MemoryMappedSegmentStorage` (`fugue-core/src/storage/segments/provider/memmap/mod.rs`): a list of
mapped files, each for one part of the segment, and the extents that were written. A mapped file may
be larger than what is written of it, and a write close to a file grows the file. A file and its
mapping are one list of bytes, and `set_len` fills with zeros.
-/

namespace Fugue.Storage.Segments

open Fugue.Lib List SparseArray

/-- `MAX_BACKING_GAP` (`memmap/mod.rs:28`). -/
def maxBackingGap : ℕ := 4 * 1024 * 1024

/-- `WrittenExtents` (`memmap/mod.rs:33-36`): ranges of offsets, by their first and last. -/
structure WrittenExtents where
  ranges : List (ℕ × ℕ)
  separated : Separated ranges

namespace WrittenExtents

variable (written : WrittenExtents)

/-- The offset was written. -/
def Has (i : ℕ) : Prop := InRanges i written.ranges

def new : WrittenExtents := ⟨[], separated_nil⟩

/-- `WrittenExtents::run_at` (`memmap/mod.rs:45-51`): the range of an offset. -/
def runAt (offset : ℕ) : Option (ℕ × ℕ) :=
  (written.ranges.find? fun range => decide (range.1 ≤ offset) && decide (offset ≤ range.2)).map
    fun range => (range.1, range.2 + 1)

/-- `WrittenExtents::runs_in` (`memmap/mod.rs:53-61`): the parts of the ranges that are in a range. -/
def runsIn (start stop : ℕ) : List (ℕ × ℕ) :=
  (written.ranges.filter fun range => decide (range.1 < stop) && decide (start ≤ range.2)).map
    fun range => (max range.1 start, min (range.2 + 1) stop)

/-- `WrittenExtents::insert` (`memmap/mod.rs:63-69`). -/
def insert (start stop : ℕ) : WrittenExtents :=
  if lt : start < stop then
    ⟨insertRange start (stop - 1) written.ranges,
      separated_insertRange (Nat.le_sub_one_of_lt lt) written.separated⟩
  else written

variable {written : WrittenExtents} {start stop offset i : ℕ}

theorem not_has_new : ¬ new.Has i := inRanges_nil

theorem has_insert : (written.insert start stop).Has i ↔ written.Has i ∨ (start ≤ i ∧ i < stop) := by
  unfold insert Has
  split
  · rename_i lt
    rw [inRanges_insertRange (Nat.le_sub_one_of_lt lt) written.separated]
    constructor
    · rintro (inside | old)
      · exact .inr (by omega)
      · exact .inl old
    · rintro (old | inside)
      · exact .inr old
      · exact .inl (by omega)
  · refine (or_iff_left ?_).symm
    omega

theorem runAt_eq_some {run : ℕ × ℕ} (found : written.runAt offset = some run) :
    run.1 ≤ offset ∧ offset < run.2 ∧ ∀ i, run.1 ≤ i → i < run.2 → written.Has i := by
  obtain ⟨range, at_, rfl⟩ := Option.map_eq_some_iff.mp found
  have bounds := find?_some at_
  rw [Bool.and_eq_true, decide_eq_true_eq, decide_eq_true_eq] at bounds
  refine ⟨bounds.1, Nat.lt_succ_of_le bounds.2, ?_⟩
  intro i from_ below
  exact ⟨range, mem_of_find?_eq_some at_, from_, Nat.le_of_lt_succ below⟩

theorem mem_runsIn {run : ℕ × ℕ} (lt : start < stop) (mem : run ∈ written.runsIn start stop) :
    start ≤ run.1 ∧ run.1 < run.2 ∧ run.2 ≤ stop ∧ ∀ i, run.1 ≤ i → i < run.2 → written.Has i := by
  obtain ⟨range, inside, rfl⟩ := mem_map.mp mem
  obtain ⟨rangeMem, bounds⟩ := mem_filter.mp inside
  rw [Bool.and_eq_true, decide_eq_true_eq, decide_eq_true_eq] at bounds
  have proper := written.separated.nonempty range rangeMem
  refine ⟨by dsimp only; omega, by dsimp only; omega, by dsimp only; omega, ?_⟩
  intro i from_ below
  exact ⟨range, rangeMem, by omega, by omega⟩

theorem exists_runsIn (has : written.Has i) (from_ : start ≤ i) (below : i < stop) :
    ∃ run ∈ written.runsIn start stop, run.1 ≤ i ∧ i < run.2 := by
  obtain ⟨range, mem, lower, upper⟩ := has
  refine ⟨_, mem_map.mpr ⟨range, mem_filter.mpr ⟨mem, ?_⟩, rfl⟩, ?_⟩
  · rw [Bool.and_eq_true, decide_eq_true_eq, decide_eq_true_eq]
    omega
  · omega

def ofRuns (runs : List (ℕ × ℕ)) : WrittenExtents :=
  runs.foldl (fun written run => written.insert run.1 run.2) new

theorem has_ofRuns (runs : List (ℕ × ℕ)) :
    (ofRuns runs).Has i ↔ ∃ run ∈ runs, run.1 ≤ i ∧ i < run.2 := by
  have general : ∀ (runs : List (ℕ × ℕ)) (written : WrittenExtents),
      (runs.foldl (fun written run => written.insert run.1 run.2) written).Has i ↔
        written.Has i ∨ ∃ run ∈ runs, run.1 ≤ i ∧ i < run.2 := by
    intro runs
    induction runs with
    | nil => simp
    | cons run runs ih =>
      intro written
      rw [foldl_cons, ih, has_insert, exists_mem_cons_iff, or_assoc]
  rw [ofRuns, general]
  exact or_iff_right not_has_new

end WrittenExtents
open WrittenExtents (mem_runsIn exists_runsIn has_insert ofRuns has_ofRuns not_has_new)

/-- `MappedBacking` (`memmap/mod.rs:99-104`). -/
structure MappedBacking where
  base : ℕ
  end_ : ℕ
  mapping : List UInt8

namespace MappedBacking

/-- `MappedBacking::new` (`memmap/mod.rs:107-120`). -/
def new (base size : ℕ) : MappedBacking := ⟨base, base + size, List.replicate size 0⟩

/-- `MappedBacking::resize` (`memmap/mod.rs:122-129`). -/
def resize (backing : MappedBacking) (size : ℕ) : MappedBacking :=
  { backing with
    mapping := backing.mapping.take size ++ List.replicate (size - backing.mapping.length) 0 }

/-- The backings as runs: what is written of them at most. -/
def runs : RunStore UInt8 MappedBacking where
  start backing := backing.base
  stop backing := backing.end_
  fetch backing from_ to_ := slice backing.mapping (from_ - backing.base) (to_ - backing.base)

end MappedBacking
open MappedBacking (runs)

/-- `MemoryMappedSegmentStorage` (`memmap/mod.rs:141-146`). -/
structure MemoryMappedSegmentStorage where
  backing : List MappedBacking
  size : ℕ
  written : WrittenExtents

namespace MemoryMappedSegmentStorage

/-- `MemoryMappedSegmentStorage::with_size` (`memmap/mod.rs:216-231`). -/
def withSize (size : ℕ) : MemoryMappedSegmentStorage := ⟨[], size, .new⟩

/-- `PackMetadata` (`memmap/mod.rs:84-97`): the size, and the offset and size of each extent. -/
structure PackMetadata where
  logicalSize : ℕ
  extents : List (ℕ × ℕ)

/-- The extents that share a backing with one that ends at `stop`, those after them, and the end of
the backing (`memmap/mod.rs:263-273`). -/
def takeGroup (stop : ℕ) : List (ℕ × ℕ) → List (ℕ × ℕ) × List (ℕ × ℕ) × ℕ
  | [] => ([], [], stop)
  | (offset, size) :: rest =>
    if maxBackingGap < offset - stop then ([], (offset, size) :: rest, stop)
    else
      let (group, later, last) := takeGroup (offset + size) rest
      ((offset, size) :: group, later, last)

/-- The bytes of an extent, from the packed file to the backing (`memmap/mod.rs:275-285`). The state
is the mapping and the place in the packed file. -/
def unpackExtent (packed : List UInt8) (base : ℕ) (state : List UInt8 × ℕ) (extent : ℕ × ℕ) :
    Option (List UInt8 × ℕ) := do
  let source ← slice packed state.2 (state.2 + extent.2)
  let mapping ← copyAt state.1 (extent.1 - base) source
  return (mapping, state.2 + extent.2)

/-- The backings for the extents from `source` on in the packed file (`memmap/mod.rs:258-288`), one
round for each backing. -/
def unpack (packed : List UInt8) : ℕ → List (ℕ × ℕ) → ℕ → Option (List MappedBacking)
  | _, [], _ => some []
  | 0, _ :: _, _ => none
  | fuel + 1, (base, size) :: rest, source => do
    let (group, later, stop) := takeGroup (base + size) rest
    let segment := MappedBacking.new base (stop - base)
    let (mapping, source) ← ((base, size) :: group).foldlM (unpackExtent packed base)
      (segment.mapping, source)
    let segments ← unpack packed fuel later source
    return { segment with mapping } :: segments

/-- `MemoryMappedSegmentStorage::open_existing` (`memmap/mod.rs:233-310`), with metadata. -/
def openPacked (metadata : PackMetadata) (packed : List UInt8) : Option MemoryMappedSegmentStorage :=
    do
  let backing ← unpack packed metadata.extents.length metadata.extents 0
  return ⟨backing, metadata.logicalSize, .ofRuns (metadata.extents.map fun extent =>
    (extent.1, extent.1 + extent.2))⟩

/-- `MemoryMappedSegmentStorage::open_existing` (`memmap/mod.rs:289-302`), without metadata: the
file is the segment. -/
def openFlat (file : List UInt8) : MemoryMappedSegmentStorage :=
  if file.length ≠ 0 then ⟨[⟨0, file.length, file⟩], file.length, WrittenExtents.new.insert 0 file.length⟩
  else ⟨[], file.length, .new⟩

/-- The backings from the first that ends after `start` to the last that starts before `stop`
(`memmap/mod.rs:370-377`). -/
def backingsIn (store : MemoryMappedSegmentStorage) (start stop : ℕ) : List MappedBacking :=
  (store.backing.dropWhile fun backing => decide (backing.end_ ≤ start)).takeWhile fun backing =>
    decide (backing.base < stop)

/-- The bytes of a buffer that are within the size, an error if none of them is
(`memmap/mod.rs:359-369`). -/
def clampedLen (store : MemoryMappedSegmentStorage) (offset len : ℕ) :
    Except SegmentStorageError ℕ :=
  let clamped := min len (store.size - offset)
  if clamped = 0 then (if len = 0 then .ok 0 else .error .invalidAddress) else .ok clamped

/-- `MemoryMappedSegmentStorage::read_bytes_from_backing` (`memmap/mod.rs:353-391`). -/
def readBytesFromBacking (store : MemoryMappedSegmentStorage) (offset : ℕ) (bytes : List UInt8) :
    Option (Except SegmentStorageError (ℕ × List UInt8)) :=
  match store.clampedLen offset bytes.length with
  | .error error => some (.error error)
  | .ok read => do
    let buffer ← runs.read 0 (store.backingsIn offset (offset + read)) offset
      (bytes.take read)
    return .ok (read, buffer ++ bytes.drop read)

/-- `MemoryMappedSegmentStorage::read_bytes` (`memmap/mod.rs:462-474`). -/
def readBytes (store : MemoryMappedSegmentStorage) (offset : ℕ) (bytes : List UInt8) :
    Option (Except SegmentStorageError (ℕ × List UInt8)) :=
  match store.backing with
  | [backing] =>
    if backing.base ≤ offset ∧ offset - backing.base + bytes.length ≤ backing.mapping.length then
      some (.ok (bytes.length, (backing.mapping.drop (offset - backing.base)).take bytes.length))
    else store.readBytesFromBacking offset bytes
  | _ => store.readBytesFromBacking offset bytes

/-- A backing with room up to `to_`, grown by up to the gap but not past `limit`
(`memmap/mod.rs:509-516`). -/
def reserve (backing : MappedBacking) (to_ limit : ℕ) : MappedBacking :=
  let required := to_ - backing.base
  let capacity := backing.mapping.length
  if capacity < required then
    backing.resize (min (max required (capacity + min capacity maxBackingGap)) (limit - backing.base))
  else backing

/-- A backing with bytes written from `cursor` to `to_` (`memmap/mod.rs:509-522`). -/
def writeBacking (backing : MappedBacking) (cursor to_ limit : ℕ) (data : List UInt8) :
    Option MappedBacking := do
  let backing := reserve backing to_ limit
  let mapping ← copyAt backing.mapping (cursor - backing.base) data
  return { backing with mapping, end_ := max backing.end_ to_ }

/-- The backings before a place and from it on (`memmap/mod.rs:490-492`). -/
def split (store : MemoryMappedSegmentStorage) (cursor : ℕ) :
    List MappedBacking × List MappedBacking :=
  (store.backing.takeWhile fun backing => decide (backing.base ≤ cursor),
    store.backing.dropWhile fun backing => decide (backing.base ≤ cursor))

/-- The backings of which the last one is written, and the one that is written: the last before the
place if it is close enough, a new one otherwise (`memmap/mod.rs:498-507`). -/
def target (below : List MappedBacking) (cursor to_ : ℕ) : List MappedBacking × MappedBacking :=
  match below.getLast? with
  | some last =>
    if cursor - last.end_ ≤ maxBackingGap then (below.dropLast, last)
    else (below, .new cursor (to_ - cursor))
  | none => (below, .new cursor (to_ - cursor))

/-- One round of the loop of `write_bytes` (`memmap/mod.rs:489-526`). -/
def writeRound (offset : ℕ) (bytes : List UInt8) (state : MemoryMappedSegmentStorage × ℕ) :
    Option ((MemoryMappedSegmentStorage × ℕ) ⊕ MemoryMappedSegmentStorage) :=
  let (store, cursor) := state
  let stop := offset + bytes.length
  if cursor < stop then do
    let (below, above) := store.split cursor
    let limit := (above.head?.map MappedBacking.base).getD store.size
    let to_ := min stop limit
    let (before, backing) := target below cursor to_
    let data ← slice bytes (cursor - offset) (to_ - offset)
    let backing ← writeBacking backing cursor to_ limit data
    return .inl ({ store with
      backing := before ++ [backing] ++ above
      written := store.written.insert cursor to_ }, to_)
  else some (.inr store)

/-- The loop of `write_bytes` for the bytes that are within the size: a round writes at least one
byte. -/
def writeData (store : MemoryMappedSegmentStorage) (offset : ℕ) (data : List UInt8) :
    Option MemoryMappedSegmentStorage :=
  runLoop (writeRound offset data) (data.length + 1) (store, offset)

/-- `MemoryMappedSegmentStorage::write_bytes` (`memmap/mod.rs:476-528`). -/
def writeBytes (store : MemoryMappedSegmentStorage) (offset : ℕ) (bytes : List UInt8) :
    Option (Except SegmentStorageError (ℕ × MemoryMappedSegmentStorage)) :=
  match store.clampedLen offset bytes.length with
  | .error error => some (.error error)
  | .ok write => do
    let store ← store.writeData offset (bytes.take write)
    return .ok (write, store)

/-- The chunks of a view for one written run (`memmap/mod.rs:540-559`): a single backing is not
searched for. -/
def pushWritten (store : MemoryMappedSegmentStorage) (offset : ℕ) (view : SegmentView)
    (run : ℕ × ℕ) : Option SegmentView :=
  let backings := if store.backing.length = 1 then
      store.backing.takeWhile fun backing => decide (backing.base < run.2)
    else store.backingsIn run.1 run.2
  backings.foldlM (SegmentView.pushRun runs offset run.1 run.2) view

/-- `MemoryMappedSegmentStorage::view_bytes` (`memmap/mod.rs:530-562`). -/
def viewBytes (store : MemoryMappedSegmentStorage) (offset n : ℕ) :
    Option (Except SegmentStorageError SegmentView) :=
  if store.size ≤ offset then some (.error .invalidAddress)
  else if store.size < offset + n then some (.error .invalidSize)
  else do
    let runs := if offset < offset + n then store.written.runsIn offset (offset + n) else []
    let view ← runs.foldlM (store.pushWritten offset) (.new n)
    return .ok view

/-- `MemoryMappedSegmentStorage::view_bytes_from` (`memmap/mod.rs:564-592`). -/
def viewBytesFrom (store : MemoryMappedSegmentStorage) (offset : ℕ) :
    Option (Except SegmentStorageError SegmentView) :=
  if store.size ≤ offset then some (.error .invalidAddress)
  else match store.written.runAt offset with
    | some run => do
      let view ← store.pushWritten offset (.new (run.2 - offset)) (offset, run.2)
      return .ok view
    | none => some (.ok (.new 0))

/-- The last backing cut at a size (`memmap/mod.rs:603-608`). -/
def cutLast (backings : List MappedBacking) (newSize : ℕ) : List MappedBacking :=
  match backings.getLast? with
  | some last =>
    if newSize - last.base < last.mapping.length then
      backings.dropLast ++
        [{ last.resize (newSize - last.base) with end_ := min last.end_ newSize }]
    else backings
  | none => backings

/-- `MemoryMappedSegmentStorage::resize` (`memmap/mod.rs:598-618`). -/
def resize (store : MemoryMappedSegmentStorage) (newSize : ℕ) : Option MemoryMappedSegmentStorage :=
  if newSize < store.size then
    some {
      backing := cutLast (store.backing.takeWhile fun backing => decide (backing.base < newSize))
        newSize
      size := newSize
      written := .ofRuns (if 0 < newSize then store.written.runsIn 0 newSize else []) }
  else some { store with size := newSize }

/-- `MemoryMappedSegmentStorage` as a provider. -/
def provider : SegmentStorageProvider MemoryMappedSegmentStorage where
  size store := store.size
  readBytes
  writeBytes
  viewBytes
  viewBytesFrom
  resize

/-- What a backing holds of the array: all of it, also what is not written yet, which is less than
the gap. -/
structure Backs (backing : MappedBacking) (f : ℕ → UInt8) (size : ℕ) : Prop where
  proper : backing.base < backing.end_
  ends : backing.end_ ≤ backing.base + backing.mapping.length
  slack : backing.base + backing.mapping.length ≤ backing.end_ + maxBackingGap
  below : backing.base + backing.mapping.length ≤ size
  holds : Holds f (backing.base, backing.mapping)

/-- The backings are apart and hold the array. -/
structure Stored (store : MemoryMappedSegmentStorage) (f : ℕ → UInt8) : Prop where
  apart : store.backing.Pairwise fun x y => x.base + x.mapping.length ≤ y.base
  backs : ∀ backing ∈ store.backing, Backs backing f store.size
  written : ∀ i, store.written.Has i → ∃ backing ∈ store.backing,
    backing.base ≤ i ∧ i < backing.end_
  zero : ∀ i, ¬ store.written.Has i → f i = 0

/-- The store holds the array. -/
structure Represents (store : MemoryMappedSegmentStorage) (array : SparseArray) : Prop where
  size : store.size = array.size
  stored : store.Stored array.byte

variable {store : MemoryMappedSegmentStorage} {array : SparseArray} {f g : ℕ → UInt8} {offset : ℕ}

theorem clampedLen_eq (represents : store.Represents array) (offset len : ℕ) :
    store.clampedLen offset len = array.clamp offset len := by
  unfold clampedLen clamp
  rw [represents.size]
  by_cases zero : min len (array.size - offset) = 0
  · rw [if_pos zero]
    by_cases none : len = 0
    · rw [if_pos none, if_neg fun both => both.2 none, zero]
    · rw [if_neg none, if_pos ⟨zero, none⟩]
  · rw [if_neg zero, if_neg fun both => zero both.1]

/-! ## The backings of a range -/

variable {backing : MappedBacking}

theorem mem_backingsIn (stored : store.Stored f) {start stop : ℕ} :
    backing ∈ store.backingsIn start stop ↔
      backing ∈ store.backing ∧ start < backing.end_ ∧ backing.base < stop := by
  have order : store.backing.Pairwise fun x y => x.end_ ≤ y.end_ ∧ x.base ≤ y.base := by
    apply stored.apart.imp_of_mem
    intro x y xMem yMem le
    have := (stored.backs x xMem).ends
    have := (stored.backs y yMem).proper
    exact ⟨by omega, by omega⟩
  have dropped := @dropWhile_eq_filter _ (fun backing : MappedBacking =>
    decide (backing.end_ ≤ start)) store.backing (order.imp fun le early => by
      rw [decide_eq_true_eq] at early ⊢
      exact le_trans le.1 early)
  have taken := @takeWhile_eq_filter _ (fun backing : MappedBacking => decide (backing.base < stop))
    (store.backing.filter fun backing => !decide (backing.end_ ≤ start))
    ((order.filter _).imp fun le early => by
      rw [decide_eq_true_eq] at early ⊢
      exact lt_of_le_of_lt le.2 early)
  unfold backingsIn
  rw [dropped, taken, mem_filter, mem_filter]
  simp [and_assoc]

theorem sublist_backingsIn (store : MemoryMappedSegmentStorage) (start stop : ℕ) :
    (store.backingsIn start stop).Sublist store.backing :=
  (takeWhile_sublist _).trans (dropWhile_sublist _)

theorem sorted_backingsIn (stored : store.Stored f) (start stop : ℕ) :
    (store.backingsIn start stop).Pairwise fun x y => x.end_ ≤ y.base := by
  apply (stored.apart.sublist (sublist_backingsIn store start stop)).imp_of_mem
  intro x y mem _ le
  have := (stored.backs x ((sublist_backingsIn store start stop).subset mem)).ends
  omega

theorem Backs.fetches {size : ℕ} (backs : Backs backing f size) :
    runs.Fetches f backing := by
  intro from_ to_ after le until_
  exact backs.holds.slice after le (le_trans until_ backs.ends)

/-- What a reader of runs needs to know of the backings of a range. -/
theorem runs_backingsIn (stored : store.Stored f) (start stop : ℕ) :
    ∀ backing ∈ store.backingsIn start stop, runs.Fetches f backing ∧
      runs.start backing < stop ∧ start < runs.stop backing ∧
      runs.start backing < runs.stop backing := by
  intro backing mem
  obtain ⟨inside, ends, starts⟩ := (mem_backingsIn stored).mp mem
  have backs := stored.backs backing inside
  exact ⟨backs.fetches, starts, ends, backs.proper⟩

/-! ## Reads -/

theorem readBytesFromBacking_spec (represents : store.Represents array) (offset : ℕ)
    (buffer : List UInt8) :
    store.readBytesFromBacking offset buffer = some (array.readBytes offset buffer) := by
  have stored := represents.stored
  unfold readBytesFromBacking SparseArray.readBytes
  rw [clampedLen_eq represents]
  cases clamped : array.clamp offset buffer.length with
  | error error => rfl
  | ok read =>
    have le : read ≤ buffer.length := by
      rw [clamp_eq_ok clamped]
      exact min_le_left _ _
    have length : (buffer.take read).length = read := by rw [length_take, min_eq_left le]
    have reads := @RunStore.read_window _ _ runs array.byte 0 _
      (store.backingsIn offset (offset + read)) offset (buffer.take read)
      (by rw [length]; exact runs_backingsIn stored offset _)
      (sorted_backingsIn stored offset _)
      (by
        rw [length]
        intro i from_ below outside
        apply stored.zero i
        intro has
        obtain ⟨backing, mem, spans⟩ := stored.written i has
        exact outside backing ((mem_backingsIn stored).mpr ⟨mem,
          lt_of_le_of_lt from_ spans.2, lt_of_le_of_lt spans.1 below⟩) spans)
    rw [length] at reads
    dsimp only
    rw [reads]
    rfl

theorem readBytes_spec (represents : store.Represents array) (offset : ℕ) (buffer : List UInt8) :
    store.readBytes offset buffer = some (array.readBytes offset buffer) := by
  unfold readBytes
  split
  · rename_i backing only
    split
    · have backs := represents.stored.backs backing (by rw [only]; exact mem_singleton.mpr rfl)
      have below := backs.below
      rw [represents.size] at below
      have read : array.clamp offset buffer.length = .ok buffer.length := by
        unfold clamp
        rw [if_neg (by omega)]
        congr 1
        omega
      have place : backing.base + (offset - backing.base) = offset := by omega
      have bytes := backs.holds.drop (offset - backing.base)
      dsimp only at bytes
      rw [bytes, place, take_window (by omega)]
      unfold SparseArray.readBytes
      rw [read]
      simp [bind, Except.bind, pure, Except.pure]
    · exact readBytesFromBacking_spec represents offset buffer
  · exact readBytesFromBacking_spec represents offset buffer

/-! ## Views -/

theorem pushWritten_spec (stored : store.Stored f) (view : SegmentView) {run : ℕ × ℕ}
    (from_ : offset ≤ run.1) (lt : run.1 < run.2)
    (has : ∀ i, run.1 ≤ i → i < run.2 → store.written.Has i) :
    ∃ view', store.pushWritten offset view run = some view' ∧
      view.Gains view' f offset fun i => run.1 ≤ offset + i ∧ offset + i < run.2 := by
  have found : (if store.backing.length = 1 then
      store.backing.takeWhile fun backing => decide (backing.base < run.2)
      else store.backingsIn run.1 run.2) = store.backingsIn run.1 run.2 := by
    split
    · rename_i single
      obtain ⟨backing, only⟩ := length_eq_one_iff.mp single
      obtain ⟨holder, mem, spans⟩ := stored.written run.1 (has run.1 (le_refl _) lt)
      rw [only] at mem
      obtain rfl := mem_singleton.mp mem
      unfold backingsIn
      rw [only, dropWhile_cons_of_neg (by simpa using spans.2)]
    · rfl
  unfold pushWritten
  rw [found]
  obtain ⟨view', call, size, chunks, eq, valid, covers⟩ := @SegmentView.foldlM_pushRun f offset _
    runs run.1 run.2 from_ (le_of_lt lt) (store.backingsIn run.1 run.2) view
    (runs_backingsIn stored run.1 run.2)
  refine ⟨view', call, size, chunks, eq, valid, ?_⟩
  rintro i ⟨after, below⟩
  obtain ⟨backing, mem, spans⟩ := stored.written _ (has _ after below)
  exact covers i ⟨backing, (mem_backingsIn stored).mpr
    ⟨mem, lt_of_le_of_lt after spans.2, lt_of_le_of_lt spans.1 below⟩, after, below, spans⟩

theorem viewBytes_spec (represents : store.Represents array) (offset count : ℕ) :
    array.Viewed offset count (store.viewBytes offset count) := by
  have stored := represents.stored
  unfold viewBytes
  rw [represents.size]
  refine array.viewed (fun _ => by omega) fun _ fits => ?_
  obtain ⟨view, call, gains⟩ := @SegmentView.foldlM_gains array.byte offset _
    (store.pushWritten offset) (fun run i => run.1 ≤ offset + i ∧ offset + i < run.2)
    (if offset < offset + count then store.written.runsIn offset (offset + count) else [])
    (.new count) fun run mem view => by
      split at mem
      · rename_i lt
        obtain ⟨from_, proper, -, has⟩ := mem_runsIn lt mem
        exact pushWritten_spec stored view from_ proper has
      · cases mem
  dsimp only
  rw [call]
  refine ⟨view, rfl, gains.shows fun i lt none => stored.zero _ fun has => none ?_⟩
  rw [if_pos (by omega)]
  exact exists_runsIn has (Nat.le_add_right offset i) (Nat.add_lt_add_left lt offset)

theorem viewBytesFrom_spec (represents : store.Represents array) (offset : ℕ) :
    array.ViewedFrom offset (store.viewBytesFrom offset) := by
  have stored := represents.stored
  unfold viewBytesFrom
  rw [represents.size]
  refine array.viewedFrom fun _ => ?_
  cases found : store.written.runAt offset with
  | some run =>
    obtain ⟨le, lt, has⟩ := WrittenExtents.runAt_eq_some found
    obtain ⟨view, call, gains⟩ := @pushWritten_spec store array.byte offset
      stored (.new (run.2 - offset)) (offset, run.2) (le_refl _) lt
      fun i from_ below => has i (le_trans le from_) below
    have size : view.size = run.2 - offset := gains.size
    dsimp only
    rw [call]
    refine ⟨view, rfl, ?_, ?_⟩
    · -- the run is within the backings, and they are within the size
      obtain ⟨backing, mem, spans⟩ := stored.written (run.2 - 1) (has _ (by omega) (by omega))
      have backs := stored.backs backing mem
      have ends := backs.ends
      have below := backs.below
      rw [represents.size] at below
      omega
    · rw [size]
      exact gains.shows fun i lt' none => absurd ⟨Nat.le_add_right _ _, by dsimp only; omega⟩ none
  | none =>
    exact ⟨_, rfl, Nat.zero_le _, shows_empty⟩

/-! ## Writes -/

theorem Backs.congr {size : ℕ} (backs : Backs backing f size)
    (same : ∀ i, Spans (backing.base, backing.mapping) i → f i = g i) : Backs backing g size :=
  ⟨backs.proper, backs.ends, backs.slack, backs.below, backs.holds.congr same⟩

/-- A backing with bytes written to it. Between its end and `limit` the array is zero. -/
theorem writeBacking_spec {cursor to_ limit size : ℕ} {data : List UInt8}
    (proper : backing.base < max backing.end_ to_)
    (ends : backing.end_ ≤ backing.base + backing.mapping.length)
    (slack : backing.base + backing.mapping.length ≤ backing.end_ + maxBackingGap)
    (holds : Holds f (backing.base, backing.mapping)) (le : backing.base ≤ cursor)
    (order : cursor < to_) (upper : to_ ≤ limit) (bound : limit ≤ size)
    (inside : backing.base + backing.mapping.length ≤ limit)
    (free : ∀ i, backing.base + backing.mapping.length ≤ i → i < limit → f i = 0)
    (new : data = window g cursor (to_ - cursor)) :
    ∃ written, writeBacking backing cursor to_ limit data = some written ∧
      Backs written (patch f g cursor (to_ - cursor)) size ∧ written.base = backing.base ∧
      written.end_ = max backing.end_ to_ ∧ written.base + written.mapping.length ≤ limit := by
  have reserved : ∃ mapping, reserve backing to_ limit = { backing with mapping } ∧
      Holds f (backing.base, mapping) ∧ to_ ≤ backing.base + mapping.length ∧
      backing.end_ ≤ backing.base + mapping.length ∧ backing.base + mapping.length ≤ limit ∧
      backing.base + mapping.length ≤ max backing.end_ to_ + maxBackingGap := by
    unfold reserve
    dsimp only
    split
    · generalize grown : min (max (to_ - backing.base) (backing.mapping.length +
        min backing.mapping.length maxBackingGap)) (limit - backing.base) = capacity
      have length : (backing.mapping.take capacity ++
          List.replicate (capacity - backing.mapping.length) 0).length = capacity := by
        rw [length_append, length_take, length_replicate]
        omega
      refine ⟨_, rfl, ?_, ?_, ?_, ?_, ?_⟩
      · -- the file is extended with zeros, which the array has there
        rw [Holds]
        dsimp only
        rw [length]
        have whole : backing.mapping.take capacity = backing.mapping :=
          take_of_length_le (by omega)
        have split_ : capacity = backing.mapping.length + (capacity - backing.mapping.length) := by
          omega
        rw [whole]
        conv_rhs => rw [split_, ← window_append]
        rw [Holds] at holds
        dsimp only at holds
        conv_lhs => rw [holds]
        congr 1
        rw [length_window, @replicate_eq_window _ (backing.base + backing.mapping.length)]
        apply window_congr
        intro i from_ below
        exact (free i from_ (by omega)).symm
      · omega
      · omega
      · omega
      · omega
    · exact ⟨backing.mapping, rfl, holds, by omega, ends, inside, by omega⟩
  obtain ⟨mapping, eq, holds', room, ends', inside', slack'⟩ := reserved
  have place : backing.base + (cursor - backing.base) = cursor := by omega
  have copied := @copyAt_window _ f g backing.base mapping.length (cursor - backing.base)
    (to_ - cursor) (by omega)
  rw [place, ← new] at copied
  rw [← holds'] at copied
  refine ⟨⟨backing.base, max backing.end_ to_, window (patch f g cursor (to_ - cursor)) backing.base
    mapping.length⟩, ?_, ⟨?_, ?_, ?_, ?_, ?_⟩, rfl, rfl, ?_⟩
  · unfold writeBacking
    rw [eq]
    dsimp only
    rw [copied]
    rfl
  · exact proper
  · dsimp only
    rw [length_window]
    omega
  · rw [length_window]
    exact slack'
  · dsimp only
    rw [length_window]
    omega
  · exact holds_window _ _ _
  · rw [length_window]
    exact inside'

theorem split_spec (stored : store.Stored f) (cursor : ℕ) :
    store.backing = (store.split cursor).1 ++ (store.split cursor).2 ∧
      (∀ backing ∈ (store.split cursor).1, backing.base ≤ cursor) ∧
      ∀ backing ∈ (store.split cursor).2, cursor < backing.base := by
  have order : store.backing.Pairwise fun x y =>
      decide (y.base ≤ cursor) = true → decide (x.base ≤ cursor) = true := by
    apply stored.apart.imp
    intro x y le early
    rw [decide_eq_true_eq] at early ⊢
    omega
  refine ⟨takeWhile_append_dropWhile.symm, ?_, ?_⟩
  · intro backing mem
    unfold split at mem
    rw [takeWhile_eq_filter order, mem_filter, decide_eq_true_eq] at mem
    exact mem.2
  · intro backing mem
    unfold split at mem
    rw [dropWhile_eq_filter order, mem_filter, Bool.not_eq_true', decide_eq_false_iff_not] at mem
    omega

/-- What is known of the backing that a write goes to. -/
structure Target (store : MemoryMappedSegmentStorage) (f : ℕ → UInt8) (cursor to_ limit : ℕ)
    (before : List MappedBacking) (backing : MappedBacking) : Prop where
  mem : ∀ other ∈ before, other ∈ store.backing ∧ other.base + other.mapping.length ≤ backing.base
  apart : before.Pairwise fun x y => x.base + x.mapping.length ≤ y.base
  base : backing.base ≤ cursor
  proper : backing.base < max backing.end_ to_
  ends : backing.end_ ≤ backing.base + backing.mapping.length
  slack : backing.base + backing.mapping.length ≤ backing.end_ + maxBackingGap
  holds : Holds f (backing.base, backing.mapping)
  inside : backing.base + backing.mapping.length ≤ limit
  free : ∀ i, backing.base + backing.mapping.length ≤ i → i < limit → f i = 0
  kept : ∀ other ∈ (store.split cursor).1, other ∈ before ∨
    (other.base = backing.base ∧ other.end_ = backing.end_)

theorem target_spec (stored : store.Stored f) {cursor to_ limit : ℕ} (order : cursor < to_)
    (upper : to_ ≤ limit) (first : ∀ backing ∈ (store.split cursor).2, limit ≤ backing.base)
    (reached : (store.split cursor).2 = [] → limit = store.size)
    (head : ∀ backing rest, (store.split cursor).2 = backing :: rest → limit = backing.base) :
    Target store f cursor to_ limit (target (store.split cursor).1 cursor to_).1
      (target (store.split cursor).1 cursor to_).2 := by
  obtain ⟨whole, low, -⟩ := split_spec stored cursor
  have member : ∀ backing ∈ (store.split cursor).1, backing ∈ store.backing := by
    intro backing mem
    rw [whole]
    exact mem_append_left _ mem
  have apart := stored.apart
  rw [whole] at apart
  obtain ⟨lower, upper_, between⟩ := pairwise_append.mp apart
  -- a place that is in none of the backings below it is not written
  have unwritten : ∀ i, (∀ backing ∈ (store.split cursor).1, backing.end_ ≤ i) → i < limit →
      f i = 0 := by
    intro i after below
    apply stored.zero i
    intro has
    obtain ⟨backing, mem, spans⟩ := stored.written i has
    rw [whole] at mem
    rcases mem_append.mp mem with early | late
    · have := after backing early
      omega
    · have := first backing late
      omega
  have fresh : (∀ backing ∈ (store.split cursor).1,
      backing.base + backing.mapping.length ≤ cursor) →
      Target store f cursor to_ limit (store.split cursor).1 (.new cursor (to_ - cursor)) := by
    intro early
    have zeros : ∀ i, cursor ≤ i → i < limit → f i = 0 := by
      intro i from_ below
      refine unwritten i ?_ below
      intro backing mem
      have := (stored.backs backing (member backing mem)).ends
      have := early backing mem
      omega
    have length : (MappedBacking.new cursor (to_ - cursor)).mapping.length = to_ - cursor :=
      length_replicate
    have base : (MappedBacking.new cursor (to_ - cursor)).base = cursor := rfl
    have end_ : (MappedBacking.new cursor (to_ - cursor)).end_ = cursor + (to_ - cursor) := rfl
    refine ⟨fun other mem => ⟨member other mem, early other mem⟩, lower, le_refl _, ?_, ?_, ?_,
      ?_, ?_, ?_, fun other mem => .inl mem⟩
    · omega
    · exact le_of_eq (by rw [length, base, end_])
    · omega
    · rw [Holds]
      rw [length]
      apply (@replicate_eq_window _ cursor _ 0).trans
      exact window_congr fun i from_ below => (zeros i from_ (by omega)).symm
    · omega
    · intro i from_ below
      exact zeros i (by omega) below
  unfold target
  cases found : (store.split cursor).1.getLast? with
  | none =>
    apply fresh
    intro backing mem
    rw [getLast?_eq_none_iff.mp found] at mem
    cases mem
  | some last =>
    obtain ⟨front, eq⟩ := getLast?_eq_some_iff.mp found
    have lastMem := mem_of_getLast? found
    have backs := stored.backs last (member last lastMem)
    have lower' := lower
    rw [eq] at lower'
    obtain ⟨sorted, -, before⟩ := pairwise_append.mp lower'
    dsimp only
    split
    · have inside : last.base + last.mapping.length ≤ limit := by
        cases rest : (store.split cursor).2 with
        | nil =>
          rw [reached rest]
          exact backs.below
        | cons next others =>
          rw [head next others rest]
          exact between last lastMem next (by rw [rest]; exact .head _)
      have dropped : (store.split cursor).1.dropLast = front := by
        rw [eq, dropLast_concat]
      dsimp only
      rw [dropped]
      refine ⟨?_, sorted, low last lastMem, ?_, backs.ends, backs.slack, backs.holds, inside, ?_, ?_⟩
      · intro other mem
        refine ⟨member other ?_, before other mem last (mem_singleton.mpr rfl)⟩
        rw [eq]
        exact mem_append_left _ mem
      · have := backs.proper
        omega
      · intro i from_ below
        refine unwritten i ?_ below
        intro backing mem
        rw [eq] at mem
        rcases mem_append.mp mem with early | own
        · have := before backing early last (mem_singleton.mpr rfl)
          have := (stored.backs backing (member backing (by
            rw [eq]; exact mem_append_left _ early))).ends
          omega
        · rw [mem_singleton.mp own]
          have := backs.ends
          omega
      · intro other mem
        rw [eq] at mem
        rcases mem_append.mp mem with early | own
        · exact .inl early
        · rw [mem_singleton.mp own]
          exact .inr ⟨rfl, rfl⟩
    · apply fresh
      -- what a backing has in reserve is less than the gap
      intro backing mem
      have slack := backs.slack
      rw [eq] at mem
      rcases mem_append.mp mem with early | own
      · have := before backing early last (mem_singleton.mpr rfl)
        omega
      · rw [mem_singleton.mp own]
        omega

theorem writeRound_spec (stored : store.Stored f) {data : List UInt8} (new : Holds g (offset, data))
    {cursor : ℕ} (from_ : offset ≤ cursor) (lt : cursor < offset + data.length)
    (fits : offset + data.length ≤ store.size) :
    ∃ store' to_, writeRound offset data (store, cursor) = some (.inl (store', to_)) ∧
      cursor < to_ ∧ to_ ≤ offset + data.length ∧ store'.size = store.size ∧
      store'.Stored (patch f g cursor (to_ - cursor)) := by
  obtain ⟨whole, low, high⟩ := split_spec stored cursor
  have apart := stored.apart
  rw [whole] at apart
  obtain ⟨-, upper, between⟩ := pairwise_append.mp apart
  obtain ⟨limit, limitEq⟩ : ∃ limit,
    (((store.split cursor).2.head?.map MappedBacking.base).getD store.size) = limit := ⟨_, rfl⟩
  have reached : (store.split cursor).2 = [] → limit = store.size := by
    intro nil
    rw [← limitEq, nil]
    rfl
  have head : ∀ backing rest, (store.split cursor).2 = backing :: rest → limit = backing.base := by
    intro backing rest cons
    rw [← limitEq, cons]
    rfl
  have facts : cursor < limit ∧ limit ≤ store.size ∧
      ∀ backing ∈ (store.split cursor).2, limit ≤ backing.base := by
    cases rest : (store.split cursor).2 with
    | nil =>
      rw [reached rest]
      exact ⟨by omega, le_refl _, by simp⟩
    | cons next others =>
      have nextMem : next ∈ (store.split cursor).2 := by rw [rest]; exact .head _
      have backs := stored.backs next (by rw [whole]; exact mem_append_right _ nextMem)
      have below := backs.below
      rw [head next others rest]
      refine ⟨high next nextMem, by omega, ?_⟩
      intro backing mem
      rcases mem_cons.mp mem with rfl | later
      · exact le_refl _
      · rw [rest] at upper
        have := (pairwise_cons.mp upper).1 backing later
        omega
  obtain ⟨above, bound, first⟩ := facts
  have target := @target_spec store f stored cursor (min (offset + data.length) limit) limit
    (by omega) (by omega) first reached head
  have source := new.slice from_ (show cursor ≤ min (offset + data.length) limit by omega)
    (by dsimp only; omega)
  obtain ⟨written, writes, backs, base, end_, inside⟩ := @writeBacking_spec f g _ cursor
    (min (offset + data.length) limit) limit store.size _ target.proper target.ends target.slack
    target.holds target.base (by omega) (by omega) bound target.inside target.free rfl
  refine ⟨{ store with
    backing := (MemoryMappedSegmentStorage.target (store.split cursor).1 cursor
      (min (offset + data.length) limit)).1 ++ [written] ++ (store.split cursor).2
    written := store.written.insert cursor (min (offset + data.length) limit) },
    min (offset + data.length) limit, ?_, by omega, by omega, rfl, ?_, ?_, ?_, ?_⟩
  · unfold writeRound
    dsimp only
    rw [if_pos lt, limitEq, source, Option.bind_eq_bind, Option.bind_some, writes]
    rfl
  · rw [append_assoc]
    refine pairwise_append.mpr ⟨target.apart, ?_, ?_⟩
    · refine pairwise_cons.mpr ⟨?_, upper⟩
      intro backing mem
      have := first backing mem
      omega
    · intro x xMem y yMem
      obtain ⟨-, le⟩ := target.mem x xMem
      rcases mem_cons.mp yMem with rfl | later
      · omega
      · have := first y later
        omega
  · intro backing mem
    rw [append_assoc] at mem
    rcases mem_append.mp mem with early | late
    · obtain ⟨inStore, le⟩ := target.mem backing early
      apply (stored.backs backing inStore).congr
      intro i spans
      refine (patch_outside ?_).symm
      have within : i < backing.base + backing.mapping.length := spans.2
      have := target.base
      omega
    · rcases mem_cons.mp late with rfl | later
      · exact backs
      · apply (stored.backs backing (by rw [whole]; exact mem_append_right _ later)).congr
        intro i spans
        refine (patch_outside ?_).symm
        have after : backing.base ≤ i := spans.1
        have := first backing later
        omega
  · intro i has
    rcases has_insert.mp has with old | new'
    · obtain ⟨backing, mem, spans⟩ := stored.written i old
      rw [whole] at mem
      rcases mem_append.mp mem with early | late
      · rcases target.kept backing early with same | ⟨sameBase, sameEnd⟩
        · exact ⟨backing, by simp [same], spans⟩
        · exact ⟨written, by simp, by omega, by omega⟩
      · exact ⟨backing, by simp [late], spans⟩
    · have := target.base
      exact ⟨written, by simp, by omega, by omega⟩
  · intro i notHas
    rw [has_insert, not_or] at notHas
    rw [patch_outside (by omega)]
    exact stored.zero i notHas.1

theorem writeData_spec (represents : store.Represents array) {after : SparseArray}
    {data : List UInt8} (size : after.size = array.size) (holds : Holds after.byte (offset, data))
    (agrees : ∀ i, ¬ Spans (offset, data) i → array.byte i = after.byte i)
    (fits : data = [] ∨ offset + data.length ≤ array.size) :
    ∃ store', store.writeData offset data = some store' ∧ store'.Represents after := by
  have done : patch array.byte after.byte offset data.length = after.byte := by
    funext i
    unfold patch
    split
    · rfl
    · rename_i outside
      exact agrees i outside
  -- up to the cursor the store holds the new bytes
  obtain ⟨store', call, size', stored'⟩ := runLoop_total
    (fun state : MemoryMappedSegmentStorage × ℕ => state.1.size = array.size ∧ offset ≤ state.2 ∧
      state.2 ≤ offset + data.length ∧
      state.1.Stored (patch array.byte after.byte offset (state.2 - offset)))
    (fun state => offset + data.length - state.2)
    (fun store' : MemoryMappedSegmentStorage => store'.size = array.size ∧
      store'.Stored (patch array.byte after.byte offset data.length))
    (by
      rintro ⟨store, cursor⟩ ⟨size', from_, below, stored⟩
      by_cases lt : cursor < offset + data.length
      · left
        obtain ⟨next, to_, call, order, upper, same, stored'⟩ := writeRound_spec stored holds from_ lt
          (by
            rcases fits with nil | fits
            · rw [nil, length_nil] at lt
              omega
            · omega)
        have joined : patch (patch array.byte after.byte offset (cursor - offset)) after.byte cursor
            (to_ - cursor) = patch array.byte after.byte offset (to_ - offset) :=
          funext fun i => RunStore.patch_patch from_ (le_of_lt order) i
        rw [joined] at stored'
        exact ⟨_, call, ⟨same.trans size', by dsimp only; omega, upper, stored'⟩, by dsimp only; omega⟩
      · right
        have place : cursor - offset = data.length := by omega
        refine ⟨store, ?_, size', place ▸ stored⟩
        unfold writeRound
        dsimp only
        rw [if_neg lt])
    (data.length + 1) (store, offset)
    (by
      refine ⟨represents.size, le_refl _, Nat.le_add_right _ _, ?_⟩
      have none : patch array.byte after.byte offset (offset - offset) = array.byte := by
        funext i
        exact patch_outside (by omega)
      rw [none]
      exact represents.stored)
    (by dsimp only; omega)
  rw [done] at stored'
  exact ⟨store', call, size'.trans size.symm, stored'⟩

/-! ## Resizing -/

theorem cutLast_spec {backings : List MappedBacking} {newSize : ℕ}
    (apart : backings.Pairwise fun x y => x.base + x.mapping.length ≤ y.base)
    (backs : ∀ backing ∈ backings, ∃ size, Backs backing f size)
    (starts : ∀ backing ∈ backings, backing.base < newSize) (same : ∀ i, i < newSize → f i = g i) :
    (cutLast backings newSize).Pairwise (fun x y => x.base + x.mapping.length ≤ y.base) ∧
      (∀ backing ∈ cutLast backings newSize, Backs backing g newSize) ∧
      ∀ i, i < newSize → (∃ backing ∈ backings, backing.base ≤ i ∧ i < backing.end_) →
        ∃ backing ∈ cutLast backings newSize, backing.base ≤ i ∧ i < backing.end_ := by
  -- a backing within the size stays as it is
  have whole : ∀ backing ∈ backings, backing.base + backing.mapping.length ≤ newSize →
      Backs backing g newSize := by
    intro backing mem le
    obtain ⟨size, held⟩ := backs backing mem
    refine ⟨held.proper, held.ends, held.slack, le, held.holds.congr ?_⟩
    intro i spans
    exact same i (lt_of_lt_of_le spans.2 le)
  unfold cutLast
  cases found : backings.getLast? with
  | none =>
    rw [getLast?_eq_none_iff.mp found]
    simp
  | some last =>
    obtain ⟨front, eq⟩ := getLast?_eq_some_iff.mp found
    subst eq
    have lastMem : last ∈ front ++ [last] := by simp
    obtain ⟨sorted, -, before⟩ := pairwise_append.mp apart
    obtain ⟨size, held⟩ := backs last lastMem
    have lt := starts last lastMem
    have early : ∀ backing ∈ front, Backs backing g newSize := by
      intro backing mem
      have := before backing mem last (mem_singleton.mpr rfl)
      exact whole backing (mem_append_left _ mem) (by omega)
    dsimp only
    split
    · rename_i long
      rw [dropLast_concat]
      have length : (last.resize (newSize - last.base)).mapping.length = newSize - last.base := by
        unfold MappedBacking.resize
        rw [length_append, length_take, length_replicate]
        omega
      have cut : Backs { last.resize (newSize - last.base) with end_ := min last.end_ newSize } g
          newSize := by
        have proper := held.proper
        have slack := held.slack
        have base : (last.resize (newSize - last.base)).base = last.base := rfl
        refine ⟨?_, ?_, ?_, ?_, ?_⟩
        · dsimp only
          omega
        · dsimp only
          omega
        · dsimp only
          omega
        · dsimp only
          omega
        · rw [Holds]
          rw [base, length]
          have none : newSize - last.base - last.mapping.length = 0 := by omega
          unfold MappedBacking.resize
          have taken := held.holds.take (le_of_lt long)
          rw [none, replicate_zero, append_nil, taken]
          apply window_congr
          intro i _ below
          exact same i (by omega)
      refine ⟨?_, ?_, ?_⟩
      · refine pairwise_append.mpr ⟨sorted, pairwise_singleton _ _, ?_⟩
        intro x mem y yMem
        rw [mem_singleton.mp yMem]
        exact before x mem last (mem_singleton.mpr rfl)
      · intro backing mem
        rcases mem_append.mp mem with first | own
        · exact early backing first
        · rw [mem_singleton.mp own]
          exact cut
      · rintro i below ⟨backing, mem, spans⟩
        rcases mem_append.mp mem with first | own
        · exact ⟨backing, mem_append_left _ first, spans⟩
        · rw [mem_singleton.mp own] at spans
          refine ⟨_, mem_append_right _ (mem_singleton.mpr rfl), spans.1, ?_⟩
          dsimp only
          omega
    · refine ⟨apart, ?_, fun i _ spans => spans⟩
      intro backing mem
      rcases mem_append.mp mem with first | own
      · exact early backing first
      · rw [mem_singleton.mp own]
        exact whole last lastMem (by omega)

theorem resize_spec (represents : store.Represents array) (newSize : ℕ) :
    ∃ store', store.resize newSize = some store' ∧ store'.Represents (array.resize newSize) := by
  have stored := represents.stored
  have same : ∀ i, i < newSize → array.byte i = (array.resize newSize).byte i :=
    fun i lt => (if_pos lt).symm
  have order : store.backing.Pairwise fun x y =>
      decide (y.base < newSize) = true → decide (x.base < newSize) = true := by
    apply stored.apart.imp
    intro x y le early
    rw [decide_eq_true_eq] at early ⊢
    omega
  unfold resize
  split
  · have kept : ∀ backing, backing ∈ store.backing.takeWhile (fun backing =>
        decide (backing.base < newSize)) ↔ backing ∈ store.backing ∧ backing.base < newSize := by
      intro backing
      rw [takeWhile_eq_filter order, mem_filter, decide_eq_true_eq]
    have has : ∀ i, (ofRuns (if 0 < newSize then store.written.runsIn 0 newSize
        else [])).Has i ↔ store.written.Has i ∧ i < newSize := by
      intro i
      rw [has_ofRuns]
      constructor
      · rintro ⟨run, mem, spans⟩
        split at mem
        · rename_i positive
          obtain ⟨-, -, upper, written⟩ := mem_runsIn positive mem
          exact ⟨written i spans.1 spans.2, by omega⟩
        · cases mem
      · rintro ⟨written, lt⟩
        rw [if_pos (by omega)]
        exact exists_runsIn written (Nat.zero_le i) lt
    obtain ⟨apart, backs, covers⟩ := @cutLast_spec array.byte (array.resize newSize).byte
      (store.backing.takeWhile fun backing => decide (backing.base < newSize)) newSize
      (stored.apart.sublist (takeWhile_sublist _))
      (fun backing mem => ⟨store.size, stored.backs backing ((kept backing).mp mem).1⟩)
      (fun backing mem => ((kept backing).mp mem).2) same
    refine ⟨_, rfl, rfl, apart, backs, ?_, ?_⟩
    · intro i written
      obtain ⟨old, lt⟩ := (has i).mp written
      obtain ⟨backing, mem, spans⟩ := stored.written i old
      exact covers i lt ⟨backing, (kept backing).mpr ⟨mem, lt_of_le_of_lt spans.1 lt⟩, spans⟩
    · intro i notWritten
      change (if i < newSize then array.byte i else 0) = 0
      split
      · rename_i lt
        exact stored.zero i fun written => notWritten ((has i).mpr ⟨written, lt⟩)
      · rfl
  · rename_i larger
    rw [represents.size] at larger
    have below : ∀ backing ∈ store.backing, backing.base + backing.mapping.length ≤ newSize := by
      intro backing mem
      have := (stored.backs backing mem).below
      rw [represents.size] at this
      omega
    refine ⟨_, rfl, rfl, stored.apart, ?_, stored.written, ?_⟩
    · intro backing mem
      have backs := stored.backs backing mem
      refine ⟨backs.proper, backs.ends, backs.slack, below backing mem, backs.holds.congr ?_⟩
      intro i spans
      exact same i (lt_of_lt_of_le spans.2 (below backing mem))
    · intro i notWritten
      change (if i < newSize then array.byte i else 0) = 0
      rw [stored.zero i notWritten, ite_self]

/-- The memory-mapped provider refines the array. -/
def refinement : Refinement provider fun _ _ => True where
  represents := Represents
  observes store array represents :=
    ⟨represents.size, readBytes_spec represents, viewBytes_spec represents,
      viewBytesFrom_spec represents⟩
  write store array offset bytes represents _ accepted := by
    obtain ⟨store', call, represents'⟩ := @writeData_spec store array offset represents
      (array.put offset bytes) (bytes.take (min bytes.length (array.size - offset))) rfl
      (array.holds_put offset bytes) (array.put_agrees offset bytes) (array.put_fits offset bytes)
    refine ⟨store', ?_, represents'⟩
    change store.writeBytes offset bytes = _
    unfold writeBytes
    rw [clampedLen_eq represents, SparseArray.clamp_of_accepted accepted]
    dsimp only
    rw [call]
    rfl
  refuse store array offset bytes represents none nonempty := by
    change store.writeBytes offset bytes = _
    unfold writeBytes
    rw [clampedLen_eq represents, SparseArray.clamp,
      if_pos ⟨none, length_eq_zero_iff.not.mpr nonempty⟩]
  resize store array size represents _ := resize_spec represents size

theorem withSize_represents (size : ℕ) : (withSize size).Represents (.zeros size) := by
  refine ⟨rfl, .nil, ?_, ?_, fun _ _ => rfl⟩
  · intro backing mem
    cases mem
  · intro i has
    exact absurd has not_has_new

/-! ## Opening -/

theorem openFlat_represents (file : List UInt8) : (openFlat file).Represents (.ofBytes file) := by
  unfold openFlat
  split
  · rename_i nonempty
    refine ⟨rfl, pairwise_singleton _ _, ?_, ?_, ?_⟩
    · intro backing mem
      rw [mem_singleton.mp mem]
      refine ⟨Nat.pos_of_ne_zero nonempty, ?_, ?_, ?_, ?_⟩
      · dsimp only
        omega
      · dsimp only
        omega
      · dsimp only
        omega
      · apply eq_window rfl
        intro i lt
        change file[i]? = some (file[0 + i]?.getD 0)
        rw [zero_add, getElem?_eq_getElem lt, Option.getD_some]
    · intro i has
      refine ⟨_, mem_singleton.mpr rfl, Nat.zero_le i, ?_⟩
      rcases has_insert.mp has with none | inside
      · exact absurd none not_has_new
      · exact inside.2
    · intro i notHas
      apply (ofBytes file).zero i
      by_contra lt
      exact notHas (has_insert.mpr (.inr ⟨Nat.zero_le i, not_le.mp lt⟩))
  · refine ⟨rfl, .nil, ?_, ?_, ?_⟩
    · intro backing mem
      cases mem
    · intro i has
      exact absurd has not_has_new
    · intro i _
      exact (ofBytes file).zero i (by
        change file.length ≤ i
        omega)

def packedBytes (f : ℕ → UInt8) (extents : List (ℕ × ℕ)) : List UInt8 :=
  (extents.map fun extent => window f extent.1 extent.2).flatten

/-- Metadata and a data file that hold an array, as `pack` leaves them: the extents are in growing
order and within the size, and the file has their bytes one after the other. -/
structure Packs (metadata : PackMetadata) (packed : List UInt8) (array : SparseArray) : Prop where
  size : metadata.logicalSize = array.size
  apart : metadata.extents.Pairwise fun x y => x.1 + x.2 ≤ y.1
  extents : ∀ x ∈ metadata.extents, 0 < x.2 ∧ x.1 + x.2 ≤ array.size
  bytes : packed = packedBytes array.byte metadata.extents
  zero : ∀ i, (∀ x ∈ metadata.extents, ¬ (x.1 ≤ i ∧ i < x.1 + x.2)) → array.byte i = 0

theorem takeGroup_spec : ∀ (extents : List (ℕ × ℕ)) (stop : ℕ),
    extents.Pairwise (fun x y => x.1 + x.2 ≤ y.1) → (∀ x ∈ extents, stop ≤ x.1) →
    extents = (takeGroup stop extents).1 ++ (takeGroup stop extents).2.1 ∧
      stop ≤ (takeGroup stop extents).2.2 ∧
      (∀ x ∈ (takeGroup stop extents).1, x.1 + x.2 ≤ (takeGroup stop extents).2.2) ∧
      (∀ x ∈ (takeGroup stop extents).2.1, (takeGroup stop extents).2.2 ≤ x.1) ∧
      ((takeGroup stop extents).2.2 = stop ∨
        ∃ x ∈ (takeGroup stop extents).1, x.1 + x.2 = (takeGroup stop extents).2.2)
  | [], stop, _, _ => ⟨rfl, le_refl _, by simp [takeGroup], by simp [takeGroup], .inl rfl⟩
  | (offset, size) :: rest, stop, apart, after => by
    obtain ⟨above, apart'⟩ := pairwise_cons.mp apart
    have first := after _ (.head _)
    unfold takeGroup
    split
    · refine ⟨rfl, le_refl _, by simp, after, .inl rfl⟩
    · obtain ⟨eq, le, ends, later, last⟩ := takeGroup_spec rest (offset + size) apart' above
      have upto : stop ≤ offset + size := by omega
      refine ⟨?_, le_trans upto le, ?_, later, .inr ?_⟩
      · rw [cons_append, ← eq]
      · exact forall_mem_cons.mpr ⟨le, ends⟩
      · rcases last with own | ⟨x, mem, end_⟩
        · exact ⟨_, .head _, own.symm⟩
        · exact ⟨x, .tail _ mem, end_⟩

variable {packed : List UInt8}

theorem foldlM_unpackExtent {base count : ℕ} : ∀ (extents : List (ℕ × ℕ))
    (rest : List (ℕ × ℕ)) (h : ℕ → UInt8) (source : ℕ),
    packed.drop source = packedBytes f (extents ++ rest) →
    (∀ x ∈ extents, base ≤ x.1 ∧ x.1 + x.2 ≤ base + count ∧ 0 < x.2) →
    ∃ source', extents.foldlM (unpackExtent packed base) (window h base count, source) =
        some (window (fun i => if ∃ x ∈ extents, x.1 ≤ i ∧ i < x.1 + x.2 then f i else h i) base
          count, source') ∧ packed.drop source' = packedBytes f rest
  | [], rest, h, source, bytes, _ => ⟨source, by simp, bytes⟩
  | x :: extents, rest, h, source, bytes, all => by
    obtain ⟨⟨from_, upto, positive⟩, others⟩ := forall_mem_cons.mp all
    have split_ : packed.drop source = window f x.1 x.2 ++ packedBytes f (extents ++ rest) := bytes
    have room : source + x.2 ≤ packed.length := by
      have := congrArg List.length split_
      rw [length_drop, length_append, length_window] at this
      omega
    have sliced : slice packed source (source + x.2) = some (window f x.1 x.2) := by
      unfold slice
      rw [if_pos ⟨Nat.le_add_right _ _, room⟩, split_, Nat.add_sub_cancel_left]
      rw [take_append_of_le_length (le_of_eq length_window.symm),
        take_of_length_le (le_of_eq length_window)]
    have place : base + (x.1 - base) = x.1 := by omega
    have copied := @copyAt_window _ h f base count (x.1 - base) x.2 (by omega)
    rw [place] at copied
    have dropped : packed.drop (source + x.2) = packedBytes f (extents ++ rest) := by
      rw [← drop_drop, split_, drop_append_of_le_length (le_of_eq length_window.symm),
        drop_of_length_le (le_of_eq length_window), nil_append]
    obtain ⟨source', call, bytes'⟩ := foldlM_unpackExtent extents rest (patch h f x.1 x.2)
      (source + x.2) dropped others
    refine ⟨source', ?_, bytes'⟩
    have step : unpackExtent packed base (window h base count, source) x =
        some (window (patch h f x.1 x.2) base count, source + x.2) := by
      unfold unpackExtent
      rw [sliced, Option.bind_eq_bind, Option.bind_some, copied]
      rfl
    rw [foldlM_cons, step, Option.bind_eq_bind, Option.bind_some, call]
    congr 2
    apply window_congr
    intro i _ _
    simp only [exists_mem_cons_iff, patch]
    by_cases later : ∃ y ∈ extents, y.1 ≤ i ∧ i < y.1 + y.2
    · rw [if_pos later, if_pos (.inr later)]
    · rw [if_neg later]
      exact if_congr (or_iff_left later).symm rfl rfl

theorem unpack_spec {size : ℕ} : ∀ (fuel : ℕ) (extents : List (ℕ × ℕ))
    (source : ℕ), extents.length ≤ fuel → packed.drop source = packedBytes f extents →
    extents.Pairwise (fun x y => x.1 + x.2 ≤ y.1) → (∀ x ∈ extents, 0 < x.2 ∧ x.1 + x.2 ≤ size) →
    (∀ i, (∃ low ∈ extents, low.1 ≤ i) → (∀ x ∈ extents, ¬ (x.1 ≤ i ∧ i < x.1 + x.2)) → f i = 0) →
    ∃ backings, unpack packed fuel extents source = some backings ∧
      backings.Pairwise (fun x y => x.base + x.mapping.length ≤ y.base) ∧
      (∀ backing ∈ backings, Backs backing f size ∧ ∃ x ∈ extents, x.1 = backing.base) ∧
      ∀ x ∈ extents, ∃ backing ∈ backings, backing.base ≤ x.1 ∧ x.1 + x.2 ≤ backing.end_
  | fuel, [], source, _, _, _, _, _ => by
    refine ⟨[], ?_, .nil, by simp, by simp⟩
    cases fuel with
    | zero => rfl
    | succ fuel => rfl
  | 0, _ :: _, _, short, _, _, _, _ => absurd short (Nat.not_succ_le_zero _)
  | fuel + 1, (base, len) :: rest, source, short, bytes, apart, bounds, zero => by
    obtain ⟨above, apart'⟩ := pairwise_cons.mp apart
    obtain ⟨⟨positive, below⟩, bounds'⟩ := forall_mem_cons.mp bounds
    obtain ⟨eq, le, ends, later, last⟩ := takeGroup_spec rest (base + len) apart' above
    generalize grouped : takeGroup (base + len) rest = result at eq le ends later last
    obtain ⟨group, others, stop⟩ := result
    dsimp only at eq le ends later last
    have member : ∀ x ∈ group, x ∈ rest := fun x mem => by
      rw [eq]; exact mem_append_left _ mem
    have member' : ∀ x ∈ others, x ∈ rest := fun x mem => by
      rw [eq]; exact mem_append_right _ mem
    have stopLe : stop ≤ size := by
      rcases last with own | ⟨x, mem, end_⟩
      · omega
      · have := (bounds' x (member x mem)).2
        omega
    obtain ⟨source', copies, bytes'⟩ := @foldlM_unpackExtent f packed base (stop - base)
      ((base, len) :: group) others (fun _ => 0) source
      (by rw [cons_append, ← eq]; exact bytes)
      (by
        refine forall_mem_cons.mpr ⟨⟨le_refl _, by dsimp only; omega, positive⟩, ?_⟩
        intro x mem
        have := ends x mem
        have := above x (member x mem)
        exact ⟨by omega, by omega, (bounds' x (member x mem)).1⟩)
    have held : window (fun i => if ∃ x ∈ (base, len) :: group, x.1 ≤ i ∧ i < x.1 + x.2 then f i
        else 0) base (stop - base) = window f base (stop - base) := by
      apply window_congr
      intro i from_ upto
      split
      · rfl
      · -- between the extents of the backing the array is zero
        rename_i outside
        refine (zero i ⟨_, .head _, from_⟩ ?_).symm
        intro x mem spans
        refine outside ⟨x, ?_, spans⟩
        rw [eq] at mem
        rcases mem_cons.mp mem with own | mem
        · exact own ▸ (.head _)
        · rcases mem_append.mp mem with early | late
          · exact .tail _ early
          · have := later x late
            omega
    obtain ⟨backings, call, sorted, backs, covers⟩ := unpack_spec fuel others source'
      (by
        have := congrArg List.length eq
        rw [length_append] at this
        rw [length_cons] at short
        omega)
      bytes' (by rw [eq] at apart'; exact (pairwise_append.mp apart').2.1)
      (fun x mem => bounds' x (member' x mem))
      (by
        rintro i ⟨low, lowMem, lowLe⟩ outside
        refine zero i ⟨low, .tail _ (member' low lowMem), lowLe⟩ ?_
        have beyond := later low lowMem
        refine forall_mem_cons.mpr ⟨by dsimp only; omega, ?_⟩
        intro x mem spans
        rw [eq] at mem
        rcases mem_append.mp mem with early | late
        · have := ends x early
          omega
        · exact outside x late spans)
    refine ⟨⟨base, base + (stop - base), window f base (stop - base)⟩ :: backings, ?_, ?_, ?_, ?_⟩
    · have zeros : (MappedBacking.new base (stop - base)).mapping =
          window (fun _ => 0) base (stop - base) := replicate_eq_window 0
      unfold unpack
      rw [grouped]
      dsimp only
      rw [zeros, copies, held, Option.bind_eq_bind, Option.bind_some]
      rw [call]
      rfl
    · refine pairwise_cons.mpr ⟨?_, sorted⟩
      intro backing mem
      obtain ⟨-, x, xMem, start⟩ := backs backing mem
      have := later x xMem
      dsimp only
      rw [length_window]
      omega
    · refine forall_mem_cons.mpr ⟨⟨⟨?_, ?_, ?_, ?_, ?_⟩, _, .head _, rfl⟩, ?_⟩
      · dsimp only
        omega
      · exact le_of_eq (by rw [length_window])
      · dsimp only
        rw [length_window]
        omega
      · dsimp only
        rw [length_window]
        omega
      · exact holds_window _ _ _
      · intro backing mem
        obtain ⟨held', x, xMem, start⟩ := backs backing mem
        exact ⟨held', x, .tail _ (member' x xMem), start⟩
    · refine forall_mem_cons.mpr ⟨⟨_, .head _, le_refl _, by dsimp only; omega⟩, ?_⟩
      intro x mem
      rw [eq] at mem
      rcases mem_append.mp mem with early | late
      · have := ends x early
        have := above x (member x early)
        exact ⟨_, .head _, by dsimp only; omega, by dsimp only; omega⟩
      · obtain ⟨backing, backingMem, spans⟩ := covers x late
        exact ⟨backing, .tail _ backingMem, spans⟩

theorem openPacked_represents {metadata : PackMetadata} (packs : Packs metadata packed array) :
    ∃ store, openPacked metadata packed = some store ∧ store.Represents array := by
  obtain ⟨backings, call, sorted, backs, covers⟩ := @unpack_spec array.byte packed array.size
    metadata.extents.length metadata.extents 0 (le_refl _)
    (by rw [drop_zero]; exact packs.bytes) packs.apart packs.extents
    (fun i _ outside => packs.zero i outside)
  have has : ∀ i, (ofRuns (metadata.extents.map fun extent =>
      (extent.1, extent.1 + extent.2))).Has i ↔
      ∃ x ∈ metadata.extents, x.1 ≤ i ∧ i < x.1 + x.2 := by
    intro i
    rw [has_ofRuns]
    simp
  unfold openPacked
  rw [call]
  refine ⟨_, rfl, packs.size, sorted, ?_, ?_, ?_⟩
  · intro backing mem
    rw [packs.size]
    exact (backs backing mem).1
  · intro i written
    obtain ⟨x, mem, spans⟩ := (has i).mp written
    obtain ⟨backing, backingMem, inside⟩ := covers x mem
    exact ⟨backing, backingMem, by omega, by omega⟩
  · intro i notWritten
    apply packs.zero i
    intro x mem spans
    exact notWritten ((has i).mpr ⟨x, mem, spans⟩)

inductive Created : MemoryMappedSegmentStorage → SparseArray → Prop
  | withSize (size : ℕ) : Created (.withSize size) (.zeros size)
  | openFlat (file : List UInt8) : Created (.openFlat file) (.ofBytes file)
  | openPacked {metadata : PackMetadata} {packed : List UInt8} {array : SparseArray}
    {store : MemoryMappedSegmentStorage} (packs : Packs metadata packed array)
    (call : openPacked metadata packed = some store) : Created store array

theorem Created.represents (created : Created store array) : store.Represents array := by
  cases created with
  | withSize size => exact withSize_represents size
  | openFlat file => exact openFlat_represents file
  | openPacked packs call =>
    obtain ⟨store', call', represents⟩ := openPacked_represents packs
    rw [call] at call'
    cases call'
    exact represents

end MemoryMappedSegmentStorage

end Fugue.Storage.Segments
