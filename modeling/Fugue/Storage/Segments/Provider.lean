import Fugue.Lib.Runs
import Mathlib

/-!
# Segment storage providers

The operations of a provider (`fugue-core/src/storage/segments/provider/mod.rs`), the views that it
returns, and what a provider is for: an array of bytes with a size, in which everything that was not
written is zero. A provider refines the array if it supplies a representation that each operation
keeps (`Refinement`), and `Refinement.exec` then says that every sequence of operations has the
results of the array. `none` stands for a failed `expect` or an access out of bounds; reading and
writing of files and mappings does not fail.
-/

namespace Fugue.Storage.Segments

open Fugue.Lib List Option

/-- The errors of `SegmentStorageError` that the operations of a provider report themselves. -/
inductive SegmentStorageError where
  | invalidAddress | invalidSize
  deriving DecidableEq, Repr

/-- `SegmentView` (`provider/mod.rs:206-209`): chunks of bytes by their offset. -/
structure SegmentView where
  chunks : List (ℕ × List UInt8)
  size : ℕ
  deriving Repr

namespace SegmentView

/-- `SegmentView::new` (`provider/mod.rs:212-217`), also `default` and `set_size`. -/
def new (size : ℕ) : SegmentView := ⟨[], size⟩

/-- `SegmentView::push` (`provider/mod.rs:253-258`). -/
def push (view : SegmentView) (offset : ℕ) (bytes : List UInt8) : SegmentView :=
  if bytes = [] then view else { view with chunks := view.chunks ++ [(offset, bytes)] }

/-- `SegmentView::contiguous` (`provider/mod.rs:213-219`). -/
def contiguous (bytes : List UInt8) : SegmentView := (new bytes.length).push 0 bytes

/-- The loop of `read_into_with_fill` on one chunk (`provider/mod.rs:268-275`). -/
def readChunk (buffer : List UInt8) (chunk : ℕ × List UInt8) : Option (List UInt8) :=
  if buffer.length ≤ chunk.1 then some buffer
  else
    let stop := min (chunk.1 + chunk.2.length) buffer.length
    copyAt buffer chunk.1 (chunk.2.take (stop - chunk.1))

/-- `SegmentView::read_into_with_fill` (`provider/mod.rs:258-276`). -/
def readIntoWithFill (view : SegmentView) (buffer : List UInt8) (fill : UInt8) :
    Option (List UInt8) :=
  match view.chunks with
  | [(0, bytes)] =>
    if buffer.length ≤ bytes.length then some (bytes.take buffer.length)
    else [(0, bytes)].foldlM readChunk (List.replicate buffer.length fill)
  | chunks => chunks.foldlM readChunk (List.replicate buffer.length fill)

/-- `SegmentView::read_into` (`provider/mod.rs:260-262`). -/
def readInto (view : SegmentView) (buffer : List UInt8) : Option (List UInt8) :=
  view.readIntoWithFill buffer 0

/-- A view of `count` bytes of an array from `offset` on: read into a buffer, it gives them. -/
structure Shows (view : SegmentView) (f : ℕ → UInt8) (offset count : ℕ) : Prop where
  size : view.size = count
  read : ∀ buffer : List UInt8, buffer.length ≤ count →
    view.readInto buffer = some (window f offset buffer.length)

/-- What the chunks of a view have to be: parts of the array, that cover all of it that is not
zero. -/
structure Chunks (chunks : List (ℕ × List UInt8)) (f : ℕ → UInt8) (offset count : ℕ) : Prop where
  holds : ∀ chunk ∈ chunks, chunk.2 = window f (offset + chunk.1) chunk.2.length ∧ chunk.2 ≠ []
  zero : ∀ i, i < count → (∀ chunk ∈ chunks, ¬ Spans chunk i) → f (offset + i) = 0

variable {view : SegmentView} {f : ℕ → UInt8} {offset count : ℕ}

theorem readChunk_window {chunk : ℕ × List UInt8} {g h : ℕ → UInt8} (holds : Holds g chunk)
    (nonempty : chunk.2 ≠ []) (n : ℕ) :
    readChunk (window h 0 n) chunk = some (window (painted g h [chunk]) 0 n) := by
  unfold readChunk
  rw [length_window]
  split
  · congr 1
    apply window_congr
    intro i _ below
    refine (if_neg ?_).symm
    rintro ⟨x, mem, spans⟩
    rw [mem_singleton.mp mem] at spans
    have := spans.1
    omega
  · have copied := @copyOverlap_window _ g h n chunk 0 holds (by omega)
      (by have := length_pos_iff.mpr nonempty; omega) (by omega)
    rw [← copied]
    unfold copyOverlap
    dsimp only
    have taken : slice chunk.2 (max 0 chunk.1 - chunk.1)
        (min (0 + (window h 0 n).length) (chunk.1 + chunk.2.length) - chunk.1) =
        some (chunk.2.take (min (chunk.1 + chunk.2.length) n - chunk.1)) := by
      unfold slice
      rw [length_window, if_pos ⟨by omega, by omega⟩]
      have start : max 0 chunk.1 - chunk.1 = 0 := by omega
      have stop : min (0 + n) (chunk.1 + chunk.2.length) - chunk.1 - 0 =
        min (chunk.1 + chunk.2.length) n - chunk.1 := by omega
      rw [start, stop, drop_zero]
    have place : max 0 chunk.1 - 0 = chunk.1 := by omega
    rw [taken, place]
    rfl

theorem foldlM_readChunk {g : ℕ → UInt8} (n : ℕ) : ∀ (chunks : List (ℕ × List UInt8))
    (h : ℕ → UInt8), (∀ chunk ∈ chunks, Holds g chunk ∧ chunk.2 ≠ []) →
    chunks.foldlM readChunk (window h 0 n) = some (window (painted g h chunks) 0 n)
  | [], h, _ => by
    rfl
  | chunk :: chunks, h, all => by
    obtain ⟨⟨holds, nonempty⟩, rest⟩ := forall_mem_cons.mp all
    rw [foldlM_cons, readChunk_window holds nonempty, bind_eq_bind, bind_some,
      foldlM_readChunk n chunks _ rest, painted_cons]

theorem window_shift (f : ℕ → UInt8) (offset start n : ℕ) :
    window (fun i => f (offset + i)) start n = window f (offset + start) n := by
  apply eq_window length_window
  intro i lt
  rw [getElem?_window, if_pos lt, add_assoc]

theorem Chunks.shows (chunks : Chunks view.chunks f offset count) (size : view.size = count) :
    view.Shows f offset count := by
  refine ⟨size, ?_⟩
  intro buffer le
  have holds : ∀ chunk ∈ view.chunks, Holds (fun i => f (offset + i)) chunk ∧ chunk.2 ≠ [] := by
    intro chunk mem
    obtain ⟨eq, nonempty⟩ := chunks.holds chunk mem
    refine ⟨?_, nonempty⟩
    rw [Holds, window_shift]
    exact eq
  have painted_eq : window (painted (fun i => f (offset + i)) (fun _ => 0) view.chunks) 0
      buffer.length = window f offset buffer.length := by
    have shifted := window_shift f offset 0 buffer.length
    rw [add_zero] at shifted
    rw [← shifted]
    apply window_congr
    intro i _ below
    unfold painted
    split
    · rfl
    · rename_i none
      refine (chunks.zero i (by omega) ?_).symm
      intro chunk mem spans
      exact none ⟨chunk, mem, spans⟩
  have general : view.chunks.foldlM readChunk (List.replicate buffer.length 0) =
      some (window f offset buffer.length) := by
    rw [@replicate_eq_window _ 0 buffer.length, foldlM_readChunk _ _ _ holds, painted_eq]
  unfold readInto readIntoWithFill
  split
  · rename_i bytes only
    split
    · rename_i long
      have first := (chunks.holds (0, bytes) (by rw [only]; exact mem_singleton.mpr rfl)).1
      dsimp only at first
      rw [add_zero] at first
      rw [first, take_window long]
    · rw [← only]
      exact general
  · exact general

theorem chunks_push (view : SegmentView) (offset : ℕ) (bytes : List UInt8) :
    (view.push offset bytes).chunks = view.chunks ++ if bytes = [] then [] else [(offset, bytes)] := by
  unfold push
  split
  · rw [append_nil]
  · rfl

theorem size_push (view : SegmentView) (offset : ℕ) (bytes : List UInt8) :
    (view.push offset bytes).size = view.size := by
  unfold push
  split
  · rfl
  · rfl

/-- The part of a run between two places, as a chunk of a view from `offset` on. -/
def pushRun {β : Type} (store : RunStore UInt8 β) (offset low high : ℕ) (view : SegmentView)
    (run : β) : Option SegmentView := do
  let from_ := max low (store.start run)
  let to_ := min high (store.stop run)
  let bytes ← store.fetch run from_ to_
  return view.push (from_ - offset) bytes

/-- Chunks of the array are added to a view, also where it is covered. -/
structure Gains (view view' : SegmentView) (f : ℕ → UInt8) (offset : ℕ) (covered : ℕ → Prop) :
    Prop where
  size : view'.size = view.size
  chunks : ∃ chunks, view'.chunks = view.chunks ++ chunks ∧
    (∀ chunk ∈ chunks, chunk.2 = window f (offset + chunk.1) chunk.2.length ∧ chunk.2 ≠ []) ∧
    ∀ i, covered i → ∃ chunk ∈ chunks, Spans chunk i

section Gains

variable {covered : ℕ → Prop}

theorem gains_refl (none : ∀ i, ¬ covered i) : view.Gains view f offset covered :=
  ⟨rfl, [], (append_nil _).symm, nofun, fun i cover => absurd cover (none i)⟩

theorem gains_push {start n : ℕ} (covers : ∀ i, covered i → start ≤ i ∧ i < start + n) :
    view.Gains (view.push start (window f (offset + start) n)) f offset covered := by
  refine ⟨size_push _ _ _, _, chunks_push _ _ _, ?_, ?_⟩
  · intro chunk mem
    split at mem
    · cases mem
    · rename_i nonempty
      rw [mem_singleton.mp mem]
      refine ⟨?_, nonempty⟩
      rw [length_window]
  · intro i cover
    have within := covers i cover
    have nonempty : window f (offset + start) n ≠ [] := by
      apply length_pos_iff.mp
      rw [length_window]
      omega
    rw [if_neg nonempty]
    refine ⟨_, mem_singleton.mpr rfl, ?_⟩
    unfold Spans
    rw [length_window]
    exact within

theorem foldlM_gains {α : Type} {step : SegmentView → α → Option SegmentView}
    {covered : α → ℕ → Prop} : ∀ (runs : List α) (view : SegmentView),
    (∀ run ∈ runs, ∀ view, ∃ view', step view run = some view' ∧
      view.Gains view' f offset (covered run)) →
    ∃ view', runs.foldlM step view = some view' ∧
      view.Gains view' f offset fun i => ∃ run ∈ runs, covered run i
  | [], view, _ => ⟨view, rfl, gains_refl (by simp)⟩
  | run :: runs, view, all => by
    obtain ⟨round, rest⟩ := forall_mem_cons.mp all
    obtain ⟨middle, first, size, chunks, eq, valid, covers⟩ := round view
    obtain ⟨view', call, size', chunks', eq', valid', covers'⟩ := foldlM_gains runs middle rest
    refine ⟨view', ?_, size'.trans size, chunks ++ chunks', ?_, ?_, ?_⟩
    · rw [foldlM_cons, first]
      exact call
    · rw [eq', eq, append_assoc]
    · exact forall_mem_append.mpr ⟨valid, valid'⟩
    · intro i covered
      rcases (exists_mem_cons_iff _ _ _).mp covered with own | later
      · obtain ⟨chunk, mem, spans⟩ := covers i own
        exact ⟨chunk, mem_append_left _ mem, spans⟩
      · obtain ⟨chunk, mem, spans⟩ := covers' i later
        exact ⟨chunk, mem_append_right _ mem, spans⟩

theorem Gains.shows (gains : (new count).Gains view f offset covered)
    (zero : ∀ i, i < count → ¬ covered i → f (offset + i) = 0) : view.Shows f offset count := by
  obtain ⟨chunks, eq, valid, covers⟩ := gains.chunks
  refine Chunks.shows ⟨?_, ?_⟩ gains.size
  · rw [eq]
    exact valid
  · intro i lt none
    rw [eq] at none
    refine zero i lt fun cover => ?_
    obtain ⟨chunk, mem, spans⟩ := covers i cover
    exact none chunk mem spans

end Gains

/-- The chunks for some runs: parts of the array, at the places that the runs cover. -/
theorem foldlM_pushRun {β : Type} {store : RunStore UInt8 β} {low high : ℕ} (le : offset ≤ low)
    (order : low ≤ high) (runs : List β) (view : SegmentView)
    (fetched : ∀ run ∈ runs, store.Fetches f run ∧ store.start run < high ∧
      low < store.stop run ∧ store.start run < store.stop run) :
    ∃ view', runs.foldlM (pushRun store offset low high) view = some view' ∧
      view.Gains view' f offset fun i =>
        ∃ run ∈ runs, low ≤ offset + i ∧ offset + i < high ∧ store.Has run (offset + i) := by
  refine foldlM_gains runs view fun run mem view => ?_
  obtain ⟨fetches, starts, ends, proper⟩ := fetched run mem
  have fetched := fetches (max low (store.start run)) (min high (store.stop run)) (by omega)
    (by omega) (by omega)
  have place : offset + (max low (store.start run) - offset) = max low (store.start run) := by omega
  refine ⟨_, ?_, @gains_push view f offset _ (max low (store.start run) - offset)
    (min high (store.stop run) - max low (store.start run)) ?_⟩
  · rw [pushRun, fetched, place]
    rfl
  · intro i inside
    unfold RunStore.Has at inside
    omega

theorem contiguous_shows : (contiguous (window f offset count)).Shows f offset count := by
  have gains := @gains_push (new count) f offset (fun i => i < count) 0 count fun i lt => by omega
  unfold contiguous
  rw [length_window]
  exact gains.shows fun i lt outside => absurd lt outside

end SegmentView

/-- `SegmentRangeOverlap` (`provider/mod.rs:279-305`): where a run of bytes and a window overlap. -/
structure SegmentRangeOverlap where
  windowOffset : ℕ
  runOffset : ℕ
  len : ℕ

/-- `SegmentRangeOverlap::new` (`provider/mod.rs:286-294`). -/
def SegmentRangeOverlap.new (runStart runLen offset stop : ℕ) : Option SegmentRangeOverlap :=
  let from_ := max offset runStart
  let to_ := min stop (runStart + runLen)
  if from_ < to_ then some ⟨from_ - offset, from_ - runStart, to_ - from_⟩ else none

/-- The part of a run at an overlap, `chunk[o.source()]`. -/
def SegmentRangeOverlap.source (overlap : SegmentRangeOverlap) (run : List UInt8) :
    Option (List UInt8) :=
  slice run overlap.runOffset (overlap.runOffset + overlap.len)

/-! ## The array -/

structure SparseArray where
  size : ℕ
  byte : ℕ → UInt8
  zero : ∀ i, size ≤ i → byte i = 0

namespace SparseArray

def zeros (size : ℕ) : SparseArray := ⟨size, fun _ => 0, fun _ _ => rfl⟩

/-- The array with given contents. -/
def ofBytes (bytes : List UInt8) : SparseArray where
  size := bytes.length
  byte i := bytes[i]?.getD 0
  zero i le := by rw [getElem?_eq_none le, getD_none]

variable (array : SparseArray)

/-- The number of bytes of a buffer that are in the array, an error if there is none of them. -/
def clamp (offset len : ℕ) : Except SegmentStorageError ℕ :=
  if min len (array.size - offset) = 0 ∧ len ≠ 0 then .error .invalidAddress
  else .ok (min len (array.size - offset))

theorem clamp_eq_ok {array : SparseArray} {offset len count : ℕ}
    (call : array.clamp offset len = .ok count) : count = min len (array.size - offset) := by
  unfold clamp at call
  split at call
  · cases call
  · cases call
    rfl

theorem clamp_of_accepted {array : SparseArray} {offset : ℕ} {bytes : List UInt8}
    (accepted : min bytes.length (array.size - offset) ≠ 0 ∨ bytes = []) :
    array.clamp offset bytes.length = .ok (min bytes.length (array.size - offset)) := by
  apply if_neg
  rintro ⟨zero, nonempty⟩
  rcases accepted with positive | nil
  · exact positive zero
  · exact nonempty (length_eq_zero_iff.mpr nil)

variable (offset : ℕ)

def readBytes (buffer : List UInt8) :
    Except SegmentStorageError (ℕ × List UInt8) := do
  let read ← array.clamp offset buffer.length
  return (read, window array.byte offset read ++ buffer.drop read)

/-- The array with the bytes from `offset` on replaced. -/
def put (bytes : List UInt8) : SparseArray where
  size := array.size
  byte := patch array.byte (fun i => bytes[i - offset]?.getD 0) offset
    (min bytes.length (array.size - offset))
  zero i le := by
    rw [patch_outside (by omega)]
    exact array.zero i le

theorem holds_put (bytes : List UInt8) :
    Holds (array.put offset bytes).byte
      (offset, bytes.take (min bytes.length (array.size - offset))) := by
  have length : (bytes.take (min bytes.length (array.size - offset))).length =
    min bytes.length (array.size - offset) := by rw [length_take]; omega
  rw [Holds]
  rw [length]
  apply eq_window length
  intro i lt
  rw [put]
  dsimp only
  rw [patch_inside (by omega) (by omega), getElem?_take, if_pos lt, Nat.add_sub_cancel_left,
    getElem?_eq_getElem (by omega), getD_some]

/-- A write stays within the size. -/
theorem put_fits (bytes : List UInt8) :
    bytes.take (min bytes.length (array.size - offset)) = [] ∨
      offset + (bytes.take (min bytes.length (array.size - offset))).length ≤ array.size := by
  by_cases zero : min bytes.length (array.size - offset) = 0
  · exact .inl (by rw [zero, take_zero])
  · rw [length_take]
    omega

/-- A write changes nothing else. -/
theorem put_agrees (bytes : List UInt8) (i : ℕ)
    (outside : ¬ Spans (offset, bytes.take (min bytes.length (array.size - offset))) i) :
    array.byte i = (array.put offset bytes).byte i := by
  unfold Spans at outside
  rw [length_take] at outside
  rw [put]
  dsimp only
  rw [patch_outside (by omega)]

def writeBytes (bytes : List UInt8) :
    Except SegmentStorageError (ℕ × SparseArray) := do
  let write ← array.clamp offset bytes.length
  return (write, array.put offset bytes)

/-- The array with another size: what is beyond a smaller one is lost. -/
def resize (size : ℕ) : SparseArray where
  size
  byte i := if i < size then array.byte i else 0
  zero _ le := if_neg (not_lt.mpr le)

end SparseArray

/-! ## Refinement -/

/-- The operations of `SegmentStorageProvider` (`provider/mod.rs:307-344`). -/
structure SegmentStorageProvider (σ : Type) where
  size : σ → ℕ
  readBytes : σ → ℕ → List UInt8 → Option (Except SegmentStorageError (ℕ × List UInt8))
  writeBytes : σ → ℕ → List UInt8 → Option (Except SegmentStorageError (ℕ × σ))
  viewBytes : σ → ℕ → ℕ → Option (Except SegmentStorageError SegmentView)
  viewBytesFrom : σ → ℕ → Option (Except SegmentStorageError SegmentView)
  resize : σ → ℕ → Option σ

inductive Operation where
  | write (offset : ℕ) (bytes : List UInt8)
  | resize (size : ℕ)

variable {σ : Type}

/-- What is seen of a provider is what is seen of the array. -/
structure Observes (provider : SegmentStorageProvider σ) (state : σ) (array : SparseArray) :
    Prop where
  size : provider.size state = array.size
  read : ∀ offset buffer,
    provider.readBytes state offset buffer = some (array.readBytes offset buffer)
  view : ∀ offset count, ∃ result, provider.viewBytes state offset count = some result ∧
    (array.size ≤ offset → result = .error .invalidAddress) ∧
    (offset < array.size → array.size < offset + count → result = .error .invalidSize) ∧
    (offset < array.size → offset + count ≤ array.size →
      ∃ view, result = .ok view ∧ view.Shows array.byte offset count)
  viewFrom : ∀ offset, ∃ result, provider.viewBytesFrom state offset = some result ∧
    (array.size ≤ offset → result = .error .invalidAddress) ∧
    (offset < array.size → ∃ view, result = .ok view ∧ view.size ≤ array.size - offset ∧
      view.Shows array.byte offset view.size)

/-- An answer of `view_bytes` that shows the array. -/
def SparseArray.Viewed (array : SparseArray) (offset count : ℕ)
    (answer : Option (Except SegmentStorageError SegmentView)) : Prop :=
  ∃ result, answer = some result ∧
    (array.size ≤ offset → result = .error .invalidAddress) ∧
    (offset < array.size → array.size < offset + count → result = .error .invalidSize) ∧
    (offset < array.size → offset + count ≤ array.size →
      ∃ view, result = .ok view ∧ view.Shows array.byte offset count)

/-- An answer of `view_bytes_from` that shows the array. -/
def SparseArray.ViewedFrom (array : SparseArray) (offset : ℕ)
    (answer : Option (Except SegmentStorageError SegmentView)) : Prop :=
  ∃ result, answer = some result ∧
    (array.size ≤ offset → result = .error .invalidAddress) ∧
    (offset < array.size → ∃ view, result = .ok view ∧ view.size ≤ array.size - offset ∧
      view.Shows array.byte offset view.size)

namespace SparseArray

variable {array : SparseArray} {offset count : ℕ}
  {answer : Option (Except SegmentStorageError SegmentView)}

theorem viewed {short : Prop} [Decidable short]
    (isShort : offset < array.size → (short ↔ array.size < offset + count))
    (shown : offset < array.size → offset + count ≤ array.size →
      ∃ view, answer = some (.ok view) ∧ view.Shows array.byte offset count) :
    array.Viewed offset count (if array.size ≤ offset then some (.error .invalidAddress)
      else if short then some (.error .invalidSize) else answer) := by
  split
  · exact ⟨_, rfl, fun _ => rfl, fun _ => by omega, fun _ => by omega⟩
  rename_i inside
  have isShort := isShort (by omega)
  split
  · rename_i tooLong
    rw [isShort] at tooLong
    exact ⟨_, rfl, fun _ => by omega, fun _ _ => rfl, fun _ _ => by omega⟩
  · rename_i fits
    rw [isShort] at fits
    obtain ⟨view, rfl, shows⟩ := shown (by omega) (by omega)
    exact ⟨_, rfl, fun _ => by omega, fun _ _ => by omega, fun _ _ => ⟨view, rfl, shows⟩⟩

theorem viewedFrom (shown : offset < array.size → ∃ view, answer = some (.ok view) ∧
      view.size ≤ array.size - offset ∧ view.Shows array.byte offset view.size) :
    array.ViewedFrom offset
      (if array.size ≤ offset then some (.error .invalidAddress) else answer) := by
  split
  · exact ⟨_, rfl, fun _ => rfl, fun _ => by omega⟩
  · obtain ⟨view, rfl, shows⟩ := shown (by omega)
    exact ⟨_, rfl, fun _ => by omega, fun _ => ⟨view, rfl, shows⟩⟩

theorem shows_empty : (SegmentView.new 0).Shows array.byte offset 0 := by
  refine ⟨rfl, fun buffer le => ?_⟩
  cases length_eq_zero_iff.mp (Nat.le_zero.mp le)
  rfl

end SparseArray

/-- An operation of a provider: the result and the state after it, which an error leaves as it
was. -/
def SegmentStorageProvider.apply (provider : SegmentStorageProvider σ) (state : σ) :
    Operation → Option (Except SegmentStorageError ℕ × σ)
  | .write offset bytes => do
    match ← provider.writeBytes state offset bytes with
    | .ok (count, next) => return (.ok count, next)
    | .error error => return (.error error, state)
  | .resize size => do
    let next ← provider.resize state size
    return (.ok 0, next)

def SparseArray.apply (array : SparseArray) : Operation → Except SegmentStorageError ℕ × SparseArray
  | .write offset bytes =>
    match array.writeBytes offset bytes with
    | .ok (count, next) => (.ok count, next)
    | .error error => (.error error, array)
  | .resize size => (.ok 0, array.resize size)

/-- A sequence of operations of a provider, with the results. -/
def SegmentStorageProvider.exec (provider : SegmentStorageProvider σ) :
    List Operation → σ → Option (List (Except SegmentStorageError ℕ) × σ)
  | [], state => some ([], state)
  | operation :: operations, state => do
    let (result, next) ← provider.apply state operation
    let (results, last) ← provider.exec operations next
    return (result :: results, last)

/-- A sequence of operations of the array, with the results. -/
def SparseArray.exec : List Operation → SparseArray →
    List (Except SegmentStorageError ℕ) × SparseArray
  | [], array => ([], array)
  | operation :: operations, array =>
    let (result, next) := array.apply operation
    let (results, last) := SparseArray.exec operations next
    (result :: results, last)

/-- Every operation of the sequence meets a condition in the state that it is applied to. -/
def Along (provider : SegmentStorageProvider σ) (condition : σ → Operation → Prop) :
    List Operation → σ → Prop
  | [], _ => True
  | operation :: operations, state => condition state operation ∧
    ∀ result next, provider.apply state operation = some (result, next) →
      Along provider condition operations next

theorem along_true {provider : SegmentStorageProvider σ} : ∀ (operations : List Operation) (state : σ),
    Along provider (fun _ _ => True) operations state
  | [], _ => trivial
  | _ :: operations, _ => ⟨trivial, fun _ next _ => along_true operations next⟩

/-- A representation of the array that the operations which meet a condition keep. -/
structure Refinement (provider : SegmentStorageProvider σ) (condition : σ → Operation → Prop) where
  represents : σ → SparseArray → Prop
  observes : ∀ state array, represents state array → Observes provider state array
  write : ∀ state array offset bytes, represents state array →
    condition state (.write offset bytes) →
    min bytes.length (array.size - offset) ≠ 0 ∨ bytes = [] →
    ∃ next, provider.writeBytes state offset bytes =
        some (.ok (min bytes.length (array.size - offset), next)) ∧
      represents next (array.put offset bytes)
  refuse : ∀ state array offset bytes, represents state array →
    min bytes.length (array.size - offset) = 0 → bytes ≠ [] →
    provider.writeBytes state offset bytes = some (.error .invalidAddress)
  resize : ∀ state array size, represents state array → condition state (.resize size) →
    ∃ next, provider.resize state size = some next ∧ represents next (array.resize size)

variable {provider : SegmentStorageProvider σ} {condition : σ → Operation → Prop}

theorem Refinement.apply (refinement : Refinement provider condition) {state : σ}
    {array : SparseArray} (represents : refinement.represents state array) (operation : Operation)
    (meets : condition state operation) :
    ∃ next, provider.apply state operation = some ((array.apply operation).1, next) ∧
      refinement.represents next (array.apply operation).2 := by
  cases operation with
  | write offset bytes =>
    dsimp only [SegmentStorageProvider.apply, SparseArray.apply, SparseArray.writeBytes,
      SparseArray.clamp]
    by_cases refused : min bytes.length (array.size - offset) = 0 ∧ bytes ≠ []
    · have none : min bytes.length (array.size - offset) = 0 ∧ bytes.length ≠ 0 :=
        ⟨refused.1, length_eq_zero_iff.not.mpr refused.2⟩
      rw [if_pos none, refinement.refuse state array offset bytes represents refused.1 refused.2]
      exact ⟨state, rfl, represents⟩
    · have some_ : ¬ (min bytes.length (array.size - offset) = 0 ∧ bytes.length ≠ 0) := by
        rintro ⟨zero, nonempty⟩
        exact refused ⟨zero, fun nil => nonempty (length_eq_zero_iff.mpr nil)⟩
      obtain ⟨next, call, kept⟩ := refinement.write state array offset bytes represents meets (by
        by_cases zero : min bytes.length (array.size - offset) = 0
        · exact .inr (not_not.mp fun nonempty => refused ⟨zero, nonempty⟩)
        · exact .inl zero)
      rw [if_neg some_, call]
      exact ⟨next, rfl, kept⟩
  | resize size =>
    obtain ⟨next, call, kept⟩ := refinement.resize state array size represents meets
    dsimp only [SegmentStorageProvider.apply, SparseArray.apply]
    rw [call]
    exact ⟨next, rfl, kept⟩

/-- Every sequence of operations that meet the condition has the results of the array, and leads to
a state that is seen as the array is. -/
theorem Refinement.exec (refinement : Refinement provider condition) :
    ∀ (operations : List Operation) {state : σ} {array : SparseArray},
    refinement.represents state array → Along provider condition operations state →
    ∃ last, provider.exec operations state = some ((array.exec operations).1, last) ∧
      Observes provider last (array.exec operations).2
  | [], state, array, represents, _ => ⟨state, rfl, refinement.observes state array represents⟩
  | operation :: operations, state, array, represents, along => by
    obtain ⟨next, call, kept⟩ := refinement.apply represents operation along.1
    obtain ⟨last, calls, observes⟩ := refinement.exec operations kept (along.2 _ next call)
    refine ⟨last, ?_, observes⟩
    dsimp only [SegmentStorageProvider.exec, SparseArray.exec]
    rw [call, bind_eq_bind, bind_some]
    rw [calls]
    rfl

end Fugue.Storage.Segments
