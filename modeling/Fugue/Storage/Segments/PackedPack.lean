import Fugue.Lib.Compaction
import Fugue.Storage.Segments.Packed

/-!
# Packing the packed provider

`pack_in_place` (`fugue-core/src/storage/segments/provider/memmap/packed.rs`) moves the extents to
the front of the file in the order of their offsets, over the free end of the file where one of them
would be overwritten, and records the extents with those that touch joined.
-/

namespace Fugue.Storage.Segments.PackedMemoryMappedSegmentStorage

open Fugue.Lib List

/-- `ExtentPlacement` (`packed.rs:92-105`). -/
structure ExtentPlacement where
  source : ℕ
  target : ℕ
  size : ℕ

/-- `ExtentPlacement::relocate` (`packed.rs:107-115`). -/
def ExtentPlacement.relocate (base : ℕ) (backing : List UInt8) (placement : ExtentPlacement) :
    Option (List UInt8) :=
  movePiece backing placement.source placement.size (base + placement.target)

/-- The state of the first loop of `pack_in_place` (`packed.rs:238-242`). -/
structure Packing where
  placements : List ExtentPlacement
  extents : List (ℕ × MappedExtent)
  compacted : ℕ
  inPlace : Bool
  sourceEnd : ℕ

/-- An extent is recorded, joined with the last one if they touch (`packed.rs:252-257`). -/
def pushExtent (extents : List (ℕ × MappedExtent)) (start size compacted : ℕ) :
    List (ℕ × MappedExtent) :=
  match extents.getLast? with
  | some (offset, previous) =>
    if offset + previous.size = start then
      extents.dropLast ++ [(offset, { previous with size := previous.size + size })]
    else extents ++ [(start, ⟨size, compacted⟩)]
  | none => extents ++ [(start, ⟨size, compacted⟩)]

/-- A round of the first loop of `pack_in_place` (`packed.rs:244-259`). -/
def packStep (packing : Packing) (entry : ℕ × MappedExtent) : Packing where
  placements := packing.placements ++
    [⟨entry.2.fileOffset, packing.compacted, entry.2.size⟩]
  extents := pushExtent packing.extents entry.1 entry.2.size packing.compacted
  compacted := packing.compacted + entry.2.size
  inPlace := packing.inPlace && (decide (packing.compacted ≤ entry.2.fileOffset) &&
    decide (packing.sourceEnd ≤ entry.2.fileOffset))
  sourceEnd := entry.2.fileOffset + entry.2.size

/-- `File::set_len`. -/
def setLen (file : List UInt8) (size : ℕ) : List UInt8 :=
  file.take size ++ List.replicate (size - file.length) 0

/-- `PackedMemoryMappedSegmentStorage::pack_in_place` (`packed.rs:237-293`): the metadata and the
data file. -/
def packInPlace (store : PackedMemoryMappedSegmentStorage) :
    Option (PackMetadata × List UInt8) := do
  let packing := store.extents.entries.foldl packStep ⟨[], [], 0, true, 0⟩
  let backing ←
    if packing.inPlace then packing.placements.foldlM (ExtentPlacement.relocate 0) store.backing
    else do
      let scratch := store.fileEnd
      let backing ← packing.placements.foldlM (ExtentPlacement.relocate scratch)
        (store.reserve packing.compacted)
      ExtentPlacement.relocate 0 backing ⟨scratch, 0, packing.compacted⟩
  return (⟨store.size, packing.compacted, packing.extents⟩, setLen backing packing.compacted)

/-! ## The moves -/

/-- The places of the extents in the file. -/
def pieces (entries : List (ℕ × MappedExtent)) : List Piece :=
  entries.map fun entry => (entry.2.fileOffset, entry.2.size)

def totalSize (entries : List (ℕ × MappedExtent)) : ℕ := ((pieces entries).map Prod.snd).sum

@[simp]
theorem totalSize_cons (entry : ℕ × MappedExtent) (entries : List (ℕ × MappedExtent)) :
    totalSize (entry :: entries) = entry.2.size + totalSize entries := sum_cons

theorem foldlM_relocate (base : ℕ) : ∀ (entries : List (ℕ × MappedExtent)) (packing : Packing),
    ∃ placements, (entries.foldl packStep packing).placements = packing.placements ++ placements ∧
      (entries.foldl packStep packing).compacted = packing.compacted + totalSize entries ∧
      ∀ backing, placements.foldlM (ExtentPlacement.relocate base) backing =
        copyTogether base packing.compacted (pieces entries) backing := by
  intro entries
  induction entries with
  | nil =>
    intro packing
    exact ⟨[], (append_nil _).symm, rfl, fun _ => rfl⟩
  | cons entry entries ih =>
    intro packing
    obtain ⟨placements, eq, compacted, moves⟩ := ih (packStep packing entry)
    refine ⟨⟨entry.2.fileOffset, packing.compacted, entry.2.size⟩ :: placements, ?_, ?_, ?_⟩
    · rw [foldl_cons, eq, packStep, append_assoc]
      rfl
    · rw [foldl_cons, compacted, totalSize_cons]
      exact add_assoc _ _ _
    · intro backing
      rw [foldlM_cons]
      simp only [moves]
      rfl

theorem clear_of_inPlace : ∀ (entries : List (ℕ × MappedExtent)) (packing : Packing),
    (entries.foldl packStep packing).inPlace = true →
    packing.inPlace = true ∧ Clear 0 packing.compacted (pieces entries) := by
  intro entries
  induction entries with
  | nil => exact fun packing inPlace => ⟨inPlace, trivial⟩
  | cons entry entries ih =>
    intro packing inPlace
    obtain ⟨here, clear⟩ := ih (packStep packing entry) inPlace
    unfold packStep at here
    rw [Bool.and_eq_true, Bool.and_eq_true, decide_eq_true_eq] at here
    refine ⟨here.1, .inr ?_, clear⟩
    rw [zero_add]
    exact here.2.1

theorem clear_of_ends {base : ℕ} : ∀ (entries : List (ℕ × MappedExtent)) (done : ℕ),
    (∀ entry ∈ entries, entry.2.fileOffset + entry.2.size ≤ base) →
    Clear base done (pieces entries) := by
  intro entries
  induction entries with
  | nil => exact fun done _ => trivial
  | cons entry entries ih =>
    intro done ends
    obtain ⟨first, rest⟩ := forall_mem_cons.mp ends
    exact ⟨.inl first, ih _ rest⟩

variable {store : PackedMemoryMappedSegmentStorage} {array : SparseArray} {f : ℕ → UInt8}

def heldBytes (f : ℕ → UInt8) (entries : List (ℕ × MappedExtent)) : List UInt8 :=
  (entries.map fun entry => window f entry.1 entry.2.size).flatten

theorem length_heldBytes (entries : List (ℕ × MappedExtent)) :
    (heldBytes f entries).length = totalSize entries := by
  unfold heldBytes totalSize pieces
  rw [length_flatten, map_map, map_map]
  congr 1
  exact map_congr_left fun entry _ => length_window

theorem Stored.gathered (stored : store.Stored f) {file : List UInt8}
    (same : ∀ i, i < store.fileEnd → file[i]? = store.backing[i]?) :
    gathered file (pieces store.extents.entries) = heldBytes f store.extents.entries := by
  unfold Lib.gathered pieces heldBytes
  rw [map_map]
  congr 1
  refine map_congr_left fun entry mem => ?_
  have ends := stored.ends entry mem
  refine ext_getElem? fun i => ?_
  rw [getElem?_window, Function.comp_apply, getElem?_take, getElem?_drop]
  split
  · rename_i lt
    rw [same _ (by omega)]
    exact stored.holds entry mem i lt
  · rfl

theorem total_le_of_clear {fileEnd : ℕ} : ∀ (entries : List (ℕ × MappedExtent)) (done : ℕ),
    Clear 0 done (pieces entries) → (∀ entry ∈ entries, 0 < entry.2.size) →
    (∀ entry ∈ entries, entry.2.fileOffset + entry.2.size ≤ fileEnd) → done ≤ fileEnd →
    done + totalSize entries ≤ fileEnd := by
  intro entries
  induction entries with
  | nil => exact fun done _ _ _ le => le
  | cons entry entries ih =>
    intro done clear nonempty ends le
    obtain ⟨first, clear⟩ := clear
    obtain ⟨positive, nonempty⟩ := forall_mem_cons.mp nonempty
    obtain ⟨here, ends⟩ := forall_mem_cons.mp ends
    dsimp only at first
    have later := ih (done + entry.2.size) clear nonempty ends (by omega)
    rw [totalSize_cons]
    omega

theorem Stored.packInPlace (stored : store.Stored f) :
    store.packInPlace = some (⟨store.size, totalSize store.extents.entries,
      (store.extents.entries.foldl packStep ⟨[], [], 0, true, 0⟩).extents⟩,
        heldBytes f store.extents.entries) := by
  have total := length_heldBytes (f := f) store.extents.entries
  have moves : ∀ {base : ℕ} {file : List UInt8}, Clear base 0 (pieces store.extents.entries) →
      (∀ i, i < store.fileEnd → file[i]? = store.backing[i]?) → store.fileEnd ≤ file.length →
      base + totalSize store.extents.entries ≤ file.length →
      copyTogether base 0 (pieces store.extents.entries) file =
        some (file.take base ++ heldBytes f store.extents.entries ++
          file.drop (base + totalSize store.extents.entries)) := by
    intro base file clear same room fits
    have moved := copyTogether_eq file base (pieces store.extents.entries) []
      clear (fun piece mem => ?_) ?_
    · rw [append_nil, length_nil, add_zero, take_append_drop, nil_append,
        stored.gathered same, total] at moved
      exact moved
    · obtain ⟨entry, isEntry, eq⟩ := mem_map.mp mem
      subst eq
      exact (stored.ends entry isEntry).trans room
    · exact fits
  have cut : ∀ rest, setLen (heldBytes f store.extents.entries ++ rest)
      (totalSize store.extents.entries) = heldBytes f store.extents.entries := by
    intro rest
    unfold setLen
    rw [take_left' total, length_append, total, Nat.sub_eq_zero_of_le (by omega),
      replicate_zero, append_nil]
  unfold PackedMemoryMappedSegmentStorage.packInPlace
  dsimp only
  split
  · rename_i inPlace
    obtain ⟨placements, eq, compacted, moving⟩ :=
      foldlM_relocate 0 store.extents.entries ⟨[], [], 0, true, 0⟩
    obtain ⟨-, clear⟩ := clear_of_inPlace _ _ inPlace
    have fits := total_le_of_clear _ _ clear stored.nonempty stored.ends (Nat.zero_le _)
    have within := stored.within
    rw [eq, nil_append, compacted, zero_add, moving,
      moves clear (fun _ _ => rfl) stored.within (by omega)]
    change some (_, setLen _ _) = _
    rw [take_zero, nil_append, cut]
  · obtain ⟨placements, eq, compacted, moving⟩ :=
      foldlM_relocate store.fileEnd store.extents.entries ⟨[], [], 0, true, 0⟩
    have clear := clear_of_ends store.extents.entries 0 stored.ends
    rw [eq, nil_append, compacted, zero_add, moving]
    obtain ⟨room, same⟩ := reserve_spec stored (totalSize store.extents.entries)
    have held : ((store.reserve (totalSize store.extents.entries)).take store.fileEnd).length =
        store.fileEnd := by
      rw [length_take]
      omega
    have back := movePiece_front ((store.reserve (totalSize store.extents.entries)).take
      store.fileEnd) (heldBytes f store.extents.entries)
      ((store.reserve (totalSize store.extents.entries)).drop
        (store.fileEnd + totalSize store.extents.entries))
    rw [held, total] at back
    rw [moves clear same (by omega) room]
    change (movePiece _ store.fileEnd (totalSize store.extents.entries) 0 >>= _) = _
    rw [back]
    change some (_, setLen _ _) = _
    rw [cut]

/-! ## The recorded extents -/

/-- The recorded extents are in order with gaps between them, also those that they are joined of,
and have the bytes of the packed file. -/
structure Merged (f : ℕ → UInt8) (entries merged : List (ℕ × MappedExtent)) : Prop where
  apart : merged.Pairwise fun x y => x.1 + x.2.size < y.1
  files : merged.Pairwise fun x y => x.2.fileOffset + x.2.size ≤ y.2.fileOffset
  nonempty : ∀ x ∈ merged, 0 < x.2.size
  holds : ∀ x ∈ merged, ∀ i, i < x.2.size →
    (heldBytes f entries)[x.2.fileOffset + i]? = some (f (x.1 + i))
  covers : ∀ i, (∃ x ∈ merged, x.1 ≤ i ∧ i < x.1 + x.2.size) ↔
    ∃ x ∈ entries, x.1 ≤ i ∧ i < x.1 + x.2.size
  last : ∀ x, merged.getLast? = some x → x.2.fileOffset + x.2.size = totalSize entries

theorem exists_mem_concat {α : Type} {p : α → Prop} {xs : List α} {y : α} :
    (∃ x ∈ xs ++ [y], p x) ↔ (∃ x ∈ xs, p x) ∨ p y := by
  simp [mem_append, or_and_right, exists_or]

theorem merged_nil : Merged f [] [] where
  apart := .nil
  files := .nil
  nonempty := nofun
  holds := nofun
  covers _ := Iff.rfl
  last := nofun

variable {entries merged : List (ℕ × MappedExtent)}

theorem Merged.ends (known : Merged f entries merged) {x : ℕ × MappedExtent} (mem : x ∈ merged) :
    x.2.fileOffset + x.2.size ≤ totalSize entries := by
  have positive := known.nonempty x mem
  have inside := lt_of_getElem? (known.holds x mem (x.2.size - 1) (by omega))
  rw [length_heldBytes] at inside
  omega

theorem totalSize_append (entries others : List (ℕ × MappedExtent)) :
    totalSize (entries ++ others) = totalSize entries + totalSize others := by
  unfold totalSize pieces
  rw [map_append, map_append, sum_append]

theorem heldBytes_append (entries : List (ℕ × MappedExtent)) (entry : ℕ × MappedExtent) :
    heldBytes f (entries ++ [entry]) = heldBytes f entries ++ window f entry.1 entry.2.size := by
  unfold heldBytes
  rw [map_append, flatten_append, map_singleton, flatten_singleton]

variable {entry : ℕ × MappedExtent}

theorem getElem?_heldBytes_before {entries : List (ℕ × MappedExtent)}
    {i : ℕ} (lt : i < totalSize entries) :
    (heldBytes f (entries ++ [entry]))[i]? = (heldBytes f entries)[i]? := by
  rw [heldBytes_append, getElem?_append_left (by rwa [length_heldBytes])]

theorem getElem?_heldBytes_last {entries : List (ℕ × MappedExtent)}
    {i : ℕ} (lt : i < entry.2.size) :
    (heldBytes f (entries ++ [entry]))[totalSize entries + i]? = some (f (entry.1 + i)) := by
  rw [heldBytes_append, getElem?_append_right (by rw [length_heldBytes]; omega),
    length_heldBytes, Nat.add_sub_cancel_left, getElem?_window, if_pos lt]

theorem Merged.append (known : Merged f entries merged) (positive : 0 < entry.2.size)
    (after : ∀ x ∈ merged, x.1 + x.2.size < entry.1) :
    Merged f (entries ++ [entry]) (merged ++ [(entry.1, ⟨entry.2.size, totalSize entries⟩)]) where
  apart := by
    refine pairwise_append.mpr ⟨known.apart, pairwise_singleton _ _, ?_⟩
    intro x mem y isLast
    rw [mem_singleton.mp isLast]
    exact after x mem
  files := by
    refine pairwise_append.mpr ⟨known.files, pairwise_singleton _ _, ?_⟩
    intro x mem y isLast
    rw [mem_singleton.mp isLast]
    exact known.ends mem
  nonempty := by
    intro x mem
    rcases mem_append.mp mem with old | new
    · exact known.nonempty x old
    · rw [mem_singleton.mp new]
      exact positive
  holds := by
    intro x mem i lt
    rcases mem_append.mp mem with old | new
    · have ends := known.ends old
      rw [getElem?_heldBytes_before (by omega)]
      exact known.holds x old i lt
    · rw [mem_singleton.mp new] at lt ⊢
      exact getElem?_heldBytes_last lt
  covers i := by
    rw [exists_mem_concat, exists_mem_concat, known.covers]
  last x isLast := by
    rw [getLast?_append_of_ne_nil _ (cons_ne_nil _ _), getLast?_singleton] at isLast
    rw [← Option.some.inj isLast, totalSize_append, totalSize_cons]
    rfl

theorem Merged.join {previous : ℕ × MappedExtent} (known : Merged f entries (merged ++ [previous]))
    (touches : previous.1 + previous.2.size = entry.1) :
    Merged f (entries ++ [entry]) (merged ++
      [(previous.1, { previous.2 with size := previous.2.size + entry.2.size })]) := by
  obtain ⟨apart, -, before⟩ := pairwise_append.mp known.apart
  obtain ⟨files, -, filesBefore⟩ := pairwise_append.mp known.files
  have own : previous ∈ merged ++ [previous] :=
    mem_append_right _ (mem_singleton.mpr rfl)
  have last := known.last previous getLast?_concat
  constructor
  · refine pairwise_append.mpr ⟨apart, pairwise_singleton _ _, ?_⟩
    intro x mem y isLast
    rw [mem_singleton.mp isLast]
    exact before x mem previous (mem_singleton.mpr rfl)
  · refine pairwise_append.mpr ⟨files, pairwise_singleton _ _, ?_⟩
    intro x mem y isLast
    rw [mem_singleton.mp isLast]
    exact filesBefore x mem previous (mem_singleton.mpr rfl)
  · intro x mem
    rcases mem_append.mp mem with old | new
    · exact known.nonempty x (mem_append_left _ old)
    · rw [mem_singleton.mp new]
      exact Nat.add_pos_left (known.nonempty previous own) _
  · intro x mem i lt
    rcases mem_append.mp mem with old | new
    · have ends := known.ends (mem_append_left _ old)
      rw [getElem?_heldBytes_before (by omega)]
      exact known.holds x (mem_append_left _ old) i lt
    · rw [mem_singleton.mp new] at lt ⊢
      dsimp only at lt ⊢
      by_cases inside : i < previous.2.size
      · rw [getElem?_heldBytes_before (by omega)]
        exact known.holds previous own i inside
      · have place : previous.2.fileOffset + i = totalSize entries + (i - previous.2.size) := by
          omega
        rw [place, getElem?_heldBytes_last (by omega)]
        congr 2
        omega
  · intro i
    have covers := known.covers i
    rw [exists_mem_concat] at covers
    rw [exists_mem_concat, exists_mem_concat, ← covers, or_assoc]
    apply or_congr_right
    dsimp only
    omega
  · intro x isLast
    rw [getLast?_concat] at isLast
    rw [← Option.some.inj isLast, totalSize_append, totalSize_cons]
    dsimp only
    change _ = _ + (_ + 0)
    omega

theorem Merged.push (known : Merged f entries merged) (positive : 0 < entry.2.size)
    (after : ∀ x ∈ entries, x.1 + x.2.size ≤ entry.1) :
    Merged f (entries ++ [entry]) (pushExtent merged entry.1 entry.2.size (totalSize entries)) := by
  have before : ∀ x ∈ merged, x.1 + x.2.size ≤ entry.1 := by
    intro x mem
    have nonempty := known.nonempty x mem
    obtain ⟨y, isEntry, from_, below⟩ :=
      (known.covers (x.1 + x.2.size - 1)).mp ⟨x, mem, by omega, by omega⟩
    have le := after y isEntry
    omega
  unfold pushExtent
  cases found : merged.getLast? with
  | none =>
    rw [getLast?_eq_none_iff.mp found] at known ⊢
    exact known.append positive nofun
  | some previous =>
    obtain ⟨front, eq⟩ := getLast?_eq_some_iff.mp found
    subst eq
    dsimp only
    split
    · rename_i touches
      rw [dropLast_concat]
      exact known.join touches
    · rename_i apart
      refine known.append positive fun x mem => ?_
      have le := before x mem
      rcases mem_append.mp mem with old | own
      · have above := (pairwise_append.mp known.apart).2.2 x old previous
          (mem_singleton.mpr rfl)
        have lastLe := before previous (mem_append_right _ (mem_singleton.mpr rfl))
        omega
      · rw [mem_singleton.mp own] at le ⊢
        exact lt_of_le_of_ne le apart

theorem merged_foldl : ∀ (entries done : List (ℕ × MappedExtent)) (packing : Packing),
    Merged f done packing.extents → packing.compacted = totalSize done →
    (done ++ entries).Pairwise (fun x y => x.1 + x.2.size ≤ y.1) →
    (∀ entry ∈ entries, 0 < entry.2.size) →
    Merged f (done ++ entries) (entries.foldl packStep packing).extents := by
  intro entries
  induction entries with
  | nil =>
    intro done packing merged _ _ _
    rw [append_nil]
    exact merged
  | cons entry entries ih =>
    intro done packing merged compacted apart nonempty
    obtain ⟨positive, rest⟩ := forall_mem_cons.mp nonempty
    have earlier := (pairwise_append.mp apart).2.2
    have next := merged.push positive fun x mem => earlier x mem entry (.head _)
    have split : done ++ entry :: entries = done ++ [entry] ++ entries := by
      rw [append_assoc]
      rfl
    rw [split] at apart ⊢
    refine ih _ (packStep packing entry) ?_ ?_ apart rest
    · change Merged f _ (pushExtent packing.extents entry.1 entry.2.size packing.compacted)
      rw [compacted]
      exact next
    · rw [totalSize_append, totalSize_cons, ← compacted]
      rfl

/-- The file that is packed holds the array, and the recorded extents have gaps between them and are
within the file. -/
theorem Represents.packs (represents : store.Represents array) : ∃ metadata file,
    store.packInPlace = some (metadata, file) ∧ Packs metadata file array ∧
      metadata.extents.Pairwise (fun x y => x.1 + x.2.size < y.1) ∧
      ∀ x ∈ metadata.extents, x.2.fileOffset + x.2.size ≤ file.length := by
  have stored := represents.stored
  have apart : store.extents.entries.Pairwise fun x y => x.1 + x.2.size ≤ y.1 :=
    store.extents.sorted.imp_of_mem fun xMem yMem lt => stored.apart _ xMem _ yMem lt
  have merged : Merged array.byte store.extents.entries _ :=
    merged_foldl store.extents.entries [] ⟨[], [], 0, true, 0⟩ merged_nil rfl apart stored.nonempty
  have length := length_heldBytes (f := array.byte) store.extents.entries
  refine ⟨_, _, stored.packInPlace, ⟨represents.size, ?_, ?_, ?_, ?_, merged.holds, ?_⟩,
    merged.apart, fun x mem => ?_⟩
  · exact merged.apart.imp fun lt => le_of_lt lt
  · exact merged.files.imp fun le => .inl le
  · intro x mem
    have positive := merged.nonempty x mem
    obtain ⟨y, isEntry, from_, below⟩ :=
      (merged.covers (x.1 + x.2.size - 1)).mp ⟨x, mem, by omega, by omega⟩
    have inside := represents.below _ ⟨y, isEntry, from_, below⟩
    exact ⟨positive, by omega, merged.ends mem⟩
  · exact le_of_eq length.symm
  · intro i outside
    refine represents.zero i fun covered => ?_
    obtain ⟨x, mem, spans⟩ := (merged.covers i).mpr covered
    exact outside x mem spans
  · rw [length]
    exact merged.ends mem

end Fugue.Storage.Segments.PackedMemoryMappedSegmentStorage
