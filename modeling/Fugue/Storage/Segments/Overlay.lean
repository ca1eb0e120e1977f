import Fugue.Lib.OrdMap
import Fugue.Lib.Window

/-!
# The overlay tree

The runs of bytes that a sparse store holds outside of its contiguous part
(`fugue-core/src/storage/segments/overlay.rs`). The runs are apart from each other: a write joins
the runs that it touches, and `clear_range` cuts what it overlaps. All ends are 64-bit offsets
within a segment, so that no addition overflows. `none` stands for a failed `expect` or an access
out of bounds.
-/

namespace Fugue.Storage.Segments

open Fugue.Lib List Option
open OrdMap (floor?_eq_some mem_erase mem_insert)

/-- `OverlayTree` (`overlay.rs:26-29`): the bytes of each run, by its start. -/
abbrev OverlayTree := OrdMap ℕ (List UInt8)

namespace OverlayTree

variable (tree : OverlayTree)

/-- The entries after a key, in order. -/
def after (start : ℕ) : List (ℕ × List UInt8) :=
  tree.entries.filter fun entry => decide (start < entry.1)

/-- The loop of `write` that joins the runs that the run at `start` reaches
(`overlay.rs:63-82`). The loop takes them out in order, so it is a recursion over the runs after
`start`. -/
def absorb (start : ℕ) : List (ℕ × List UInt8) → OverlayTree → Option OverlayTree
  | [], tree => some tree
  | (next, bytes) :: rest, tree => do
    let chunk ← tree.get? start
    let stop := start + chunk.length
    if next ≤ stop then
      absorb start rest ((tree.erase next).insert start (chunk ++ bytes.drop (stop - next)))
    else some tree

/-- The run at or before an address that reaches it, with its start (`overlay.rs:49-50`). -/
def reaching (addr : ℕ) : Option (ℕ × List UInt8) :=
  (tree.floor? addr).filter fun entry => decide (addr ≤ entry.1 + entry.2.length)

/-- A run with bytes written over it from `offset` on, past its end too (`overlay.rs:51-54`). -/
def extend (chunk : List UInt8) (offset : ℕ) (data : List UInt8) : Option (List UInt8) := do
  let overlap := min (chunk.length - offset) data.length
  let written ← copyAt chunk offset (data.take overlap)
  return written ++ data.drop overlap

/-- `OverlayTree::write` (`overlay.rs:41-83`). -/
def write (addr : ℕ) (data : List UInt8) : Option OverlayTree :=
  if data = [] then some tree
  else match tree.reaching addr with
    | some (start, chunk) => do
      let grown ← extend chunk (addr - start) data
      absorb start (tree.after start) (tree.insert start grown)
    | none => absorb addr (tree.after addr) (tree.insert addr data)

/-- One round of the loop of `clear_range` (`overlay.rs:105-119`). -/
def cut (addr stop : ℕ) (tree : OverlayTree) (entry : ℕ × List UInt8) : OverlayTree :=
  let (start, chunk) := entry
  let tree := tree.erase start
  let tree := if stop < start + chunk.length then tree.insert stop (chunk.drop (stop - start))
    else tree
  if start < addr then tree.insert start (chunk.take (addr - start)) else tree

/-- The runs that `clear_range` overlaps (`overlay.rs:92-103`). -/
def overlapping (addr stop : ℕ) : List (ℕ × List UInt8) :=
  let first := (tree.floor? addr).elim addr Prod.fst
  ((tree.entries.filter fun entry => decide (first ≤ entry.1)).takeWhile fun entry =>
    decide (entry.1 < stop)).filter fun entry => decide (addr < entry.1 + entry.2.length)

/-- `OverlayTree::clear_range` (`overlay.rs:85-120`). -/
def clearRange (addr size : ℕ) : OverlayTree :=
  if size = 0 then tree
  else (tree.overlapping addr (addr + size)).foldl (cut addr (addr + size)) tree

/-- The loop of `read` on one run (`overlay.rs:135-154`), with the bytes that are applied. -/
def readChunk (addr : ℕ) (state : List UInt8 × ℕ) (entry : ℕ × List UInt8) :
    Option (List UInt8 × ℕ) :=
  if entry.1 + entry.2.length ≤ addr then some state
  else do
    let buffer ← copyOverlap addr state.1 entry
    return (buffer, state.2 + (min (addr + state.1.length) (entry.1 + entry.2.length) -
      max addr entry.1))

/-- `OverlayTree::read` (`overlay.rs:122-157`). -/
def read (addr : ℕ) (buffer : List UInt8) : Option (List UInt8 × ℕ) :=
  if buffer = [] then some (buffer, 0)
  else
    let first := (tree.floor? addr).elim addr Prod.fst
    (tree.entries.filter fun entry => decide (first ≤ entry.1) &&
      decide (entry.1 < addr + buffer.length)).foldlM (readChunk addr) (buffer, 0)

/-- `OverlayTree::chunk_covering` (`overlay.rs:159-170`). -/
def chunkCovering (addr : ℕ) : Option (ℕ × List UInt8) :=
  (tree.floor? addr).filter fun entry => decide (addr - entry.1 < entry.2.length)

/-- The runs are apart, not empty, and hold what the array holds. -/
structure Valid (tree : OverlayTree) (f : ℕ → UInt8) : Prop where
  apart : ∀ x ∈ tree.entries, ∀ y ∈ tree.entries, x.1 < y.1 → x.1 + x.2.length ≤ y.1
  nonempty : ∀ x ∈ tree.entries, x.2 ≠ []
  holds : ∀ x ∈ tree.entries, Holds f x

def Covered (i : ℕ) : Prop := ∃ x ∈ tree.entries, Spans x i

/-- There are at least `gap` places between two runs. -/
def Apart (gap : ℕ) (tree : OverlayTree) : Prop :=
  ∀ x ∈ tree.entries, ∀ y ∈ tree.entries, x.1 < y.1 → x.1 + x.2.length + gap ≤ y.1

variable {tree : OverlayTree} {f g : ℕ → UInt8} {addr size : ℕ} {data : List UInt8}

theorem empty_valid (f : ℕ → UInt8) : Valid OrdMap.empty f :=
  ⟨by simp, by simp, by simp⟩

/-- What is stored stays valid for an array that differs elsewhere only. -/
theorem Valid.congr (valid : tree.Valid f) (same : ∀ i, Covered tree i → f i = g i) :
    tree.Valid g :=
  ⟨valid.apart, valid.nonempty, fun x mem => (valid.holds x mem).congr fun i within =>
    same i ⟨x, mem, within⟩⟩

theorem Valid.ends_le_iff (valid : tree.Valid f) {bound : ℕ} :
    (∀ x ∈ tree.entries, x.1 + x.2.length ≤ bound) ↔ ∀ i, Covered tree i → i < bound := by
  constructor
  · rintro ends i ⟨x, mem, spans⟩
    exact lt_of_lt_of_le spans.2 (ends x mem)
  · intro below x mem
    have positive := length_pos_iff.mpr (valid.nonempty x mem)
    have last := below (x.1 + x.2.length - 1) ⟨x, mem, by omega, by omega⟩
    omega

theorem entry_eq {x y : ℕ × List UInt8} (xMem : x ∈ tree.entries) (yMem : y ∈ tree.entries)
    (eq : x.1 = y.1) : x = y := by
  obtain ⟨key, bytes⟩ := x
  subst eq
  rw [OrdMap.unique xMem yMem]

/-! ## Writes -/

variable {chunk : List UInt8} {gap : ℕ}

/-- The runs that are not absorbed are apart from the run at `start`. -/
theorem valid_of_above {start stop : ℕ} (found : (start, chunk) ∈ tree.entries)
    (holds : Holds g (start, chunk)) (nonempty : chunk ≠ []) (agree : ∀ i, stop ≤ i → f i = g i)
    (reach : stop ≤ start + chunk.length)
    (below : ∀ x ∈ tree.entries, x.1 < start → x.1 + x.2.length + gap ≤ start ∧ Holds g x)
    (above : ∀ x ∈ tree.entries, start < x.1 → start + chunk.length + gap ≤ x.1 ∧ Holds f x)
    (others : ∀ x ∈ tree.entries, x.1 ≠ start → x.2 ≠ [] ∧
      ∀ y ∈ tree.entries, y.1 ≠ start → x.1 < y.1 → x.1 + x.2.length + gap ≤ y.1) :
    tree.Valid g ∧ Apart gap tree := by
  have self : ∀ x ∈ tree.entries, x.1 = start → x = (start, chunk) :=
    fun x mem eq => entry_eq mem found eq
  have apart : Apart gap tree := by
    intro x xMem y yMem lt
    by_cases xSelf : x.1 = start
    · rw [self x xMem xSelf] at lt ⊢
      exact (above y yMem lt).1
    · by_cases ySelf : y.1 = start
      · rw [ySelf] at lt ⊢
        exact (below x xMem lt).1
      · exact (others x xMem xSelf).2 y yMem ySelf lt
  refine ⟨⟨fun x xMem y yMem lt => (Nat.le_add_right ..).trans (apart x xMem y yMem lt), ?_, ?_⟩,
    apart⟩
  · intro x mem
    by_cases own : x.1 = start
    · rw [self x mem own]
      exact nonempty
    · exact (others x mem own).1
  · intro x mem
    rcases lt_trichotomy x.1 start with lt | own | gt
    · exact (below x mem lt).2
    · rw [self x mem own]
      exact holds
    · obtain ⟨beyond, old⟩ := above x mem gt
      apply old.congr
      intro i within
      exact agree i (reach.trans ((Nat.le_add_right ..).trans (beyond.trans within.1)))

/-- The run at `start` joins the runs that it reaches, and covers what they covered. -/
theorem absorb_spec {start stop : ℕ} (small : gap ≤ 1) (agree : ∀ i, stop ≤ i → f i = g i) :
    ∀ (rest : List (ℕ × List UInt8)) {tree : OverlayTree} {chunk : List UInt8},
    (start, chunk) ∈ tree.entries → Holds g (start, chunk) → chunk ≠ [] →
    stop ≤ start + chunk.length →
    (∀ x ∈ tree.entries, x.1 < start → x.1 + x.2.length + gap ≤ start ∧ Holds g x) →
    (∀ x, x ∈ rest ↔ x ∈ tree.entries ∧ start < x.1) →
    rest.Pairwise (fun x y => x.1 < y.1) → (∀ x ∈ rest, Holds f x) →
    (∀ x ∈ tree.entries, x.1 ≠ start → x.2 ≠ [] ∧
      ∀ y ∈ tree.entries, y.1 ≠ start → x.1 < y.1 → x.1 + x.2.length + gap ≤ y.1) →
    ∃ tree', absorb start rest tree = some tree' ∧ (tree'.Valid g ∧ Apart gap tree') ∧
      ∀ i, Covered tree' i ↔ Covered tree i
  | [], tree, chunk, found, holds, nonempty, reach, below, above, _, _, others => by
    refine ⟨tree, rfl, valid_of_above found holds nonempty agree reach below ?_ others,
      fun _ => Iff.rfl⟩
    intro x mem gt
    exact absurd ((above x).mpr ⟨mem, gt⟩) not_mem_nil
  | (next, bytes) :: rest, tree, chunk, found, holds, nonempty, reach, below, above, sorted, old,
      others => by
    obtain ⟨greater, sorted'⟩ := pairwise_cons.mp sorted
    obtain ⟨nextHolds, restHolds⟩ := forall_mem_cons.mp old
    obtain ⟨nextMem, nextAbove⟩ := (above (next, bytes)).mp (.head _)
    unfold absorb
    rw [OrdMap.get?_eq_some.mpr found, some_bind]
    dsimp only
    split
    · -- the part of the next run past the end is appended
      have tail : bytes.drop (start + chunk.length - next) =
          window g (start + chunk.length) (bytes.length - (start + chunk.length - next)) := by
        have place : next + (start + chunk.length - next) = start + chunk.length := by omega
        rw [nextHolds.drop, place]
        exact window_congr fun i from_ _ => agree i (reach.trans from_)
      have joined : Holds g (start, chunk ++ bytes.drop (start + chunk.length - next)) := by
        rw [Holds] at holds ⊢
        dsimp only at holds ⊢
        rw [tail, length_append, length_window]
        nth_rewrite 1 [holds]
        exact window_append _
      have entries : ∀ x, x ∈ ((tree.erase next).insert start
          (chunk ++ bytes.drop (start + chunk.length - next))).entries ↔
          x = (start, chunk ++ bytes.drop (start + chunk.length - next)) ∨
            ((x ∈ tree.entries ∧ x.1 ≠ next) ∧ x.1 ≠ start) := by
        intro x
        rw [mem_insert, mem_erase]
      have below' : ∀ x ∈ ((tree.erase next).insert start
          (chunk ++ bytes.drop (start + chunk.length - next))).entries, x.1 < start →
          x.1 + x.2.length + gap ≤ start ∧ Holds g x := by
        intro x mem lt
        rcases (entries x).mp mem with rfl | ⟨⟨inside, -⟩, -⟩
        · exact absurd lt (lt_irrefl _)
        · exact below x inside lt
      have above' : ∀ x, x ∈ rest ↔ x ∈ ((tree.erase next).insert start
          (chunk ++ bytes.drop (start + chunk.length - next))).entries ∧ start < x.1 := by
        intro x
        rw [entries]
        constructor
        · intro mem
          obtain ⟨inside, gt⟩ := (above x).mp (.tail _ mem)
          exact ⟨.inr ⟨⟨inside, (greater x mem).ne'⟩, gt.ne'⟩, gt⟩
        · rintro ⟨rfl | ⟨⟨inside, ne⟩, -⟩, gt⟩
          · exact absurd gt (lt_irrefl _)
          · rcases mem_cons.mp ((above x).mpr ⟨inside, gt⟩) with rfl | mem
            · exact absurd rfl ne
            · exact mem
      obtain ⟨tree', call, valid, covered⟩ := @absorb_spec start stop small agree rest _ _
        ((entries _).mpr (.inl rfl)) joined (by simp [nonempty])
        (by rw [length_append]; omega) below' above' sorted' restHolds (by
          intro x mem ne
          rcases (entries x).mp mem with rfl | ⟨⟨inside, -⟩, -⟩
          · exact absurd rfl ne
          · obtain ⟨some_, apart⟩ := others x inside ne
            refine ⟨some_, ?_⟩
            intro y yMem yNe lt
            rcases (entries y).mp yMem with rfl | ⟨⟨yInside, -⟩, -⟩
            · exact absurd rfl yNe
            · exact apart y yInside yNe lt)
      refine ⟨tree', call, valid, ?_⟩
      intro i
      rw [covered]
      constructor
      · rintro ⟨x, mem, within⟩
        rcases (entries x).mp mem with rfl | ⟨⟨inside, -⟩, -⟩
        · unfold Spans at within
          rw [length_append, length_drop] at within
          by_cases early : i < start + chunk.length
          · exact ⟨_, found, within.1, early⟩
          · refine ⟨_, nextMem, ?_, ?_⟩
            · omega
            · dsimp only at within ⊢
              omega
        · exact ⟨x, inside, within⟩
      · rintro ⟨x, mem, within⟩
        by_cases isNext : x.1 = next
        · rw [entry_eq mem nextMem isNext] at within
          refine ⟨_, (entries _).mpr (.inl rfl), ?_⟩
          unfold Spans at within ⊢
          rw [length_append, length_drop]
          dsimp only at within ⊢
          omega
        · by_cases isStart : x.1 = start
          · rw [entry_eq mem found isStart] at within
            refine ⟨_, (entries _).mpr (.inl rfl), ?_⟩
            unfold Spans at within ⊢
            rw [length_append]
            dsimp only at within ⊢
            omega
          · exact ⟨x, (entries x).mpr (.inr ⟨⟨mem, isNext⟩, isStart⟩), within⟩
    · refine ⟨tree, rfl, valid_of_above found holds nonempty agree reach below ?_ others,
        fun _ => Iff.rfl⟩
      intro x mem beyond
      rcases mem_cons.mp ((above x).mpr ⟨mem, beyond⟩) with rfl | later
      · exact ⟨by dsimp only; omega, nextHolds⟩
      · exact ⟨by have := greater x later; dsimp only at this; omega, restHolds x later⟩

theorem sorted_after (start : ℕ) :
    (tree.after start).Pairwise fun x y => x.1 < y.1 := tree.sorted.filter _

variable {x : ℕ × List UInt8}

theorem mem_after {start : ℕ} :
    x ∈ tree.after start ↔ x ∈ tree.entries ∧ start < x.1 := by
  rw [after, mem_filter, decide_eq_true_eq]

theorem reaching_eq_some {start : ℕ} (found : tree.reaching addr = some (start, chunk)) :
    (start, chunk) ∈ tree.entries ∧ start ≤ addr ∧ addr ≤ start + chunk.length ∧
      ∀ x ∈ tree.entries, x.1 ≤ addr → x.1 ≤ start := by
  obtain ⟨floor, reaches⟩ := filter_eq_some_iff.mp found
  obtain ⟨mem, le, greatest⟩ := floor?_eq_some floor
  exact ⟨mem, le, of_decide_eq_true reaches, greatest⟩

section

variable (valid : tree.Valid f)
include valid

theorem reaching_eq_none (none : tree.reaching addr = none) :
    ∀ x ∈ tree.entries, x.1 ≤ addr → x.1 + x.2.length < addr := by
  intro x mem le
  cases floor : tree.floor? addr with
  | none => exact absurd (OrdMap.floor?_eq_none floor x mem) (not_lt.mpr le)
  | some entry =>
    obtain ⟨entryMem, entryLe, greatest⟩ := floor?_eq_some floor
    have short : entry.1 + entry.2.length < addr := by simpa [reaching, floor] using none
    rcases Nat.lt_or_eq_of_le (greatest x mem le) with lt | eq
    · have := valid.apart x mem entry entryMem lt
      omega
    · rw [entry_eq mem entryMem eq]
      exact short

omit valid in
theorem extend_spec {start : ℕ} (holds : Holds f (start, chunk))
    (new : Holds g (addr, data)) (le : start ≤ addr) (reach : addr ≤ start + chunk.length)
    (agree : ∀ i, ¬ Spans (addr, data) i → f i = g i) :
    ∃ grown, extend chunk (addr - start) data = some grown ∧ Holds g (start, grown) ∧
      grown.length = max chunk.length (addr - start + data.length) := by
  have copied := @copyAt_window _ f g start chunk.length (addr - start)
    (min (chunk.length - (addr - start)) data.length) (by omega)
  have place : start + (addr - start) = addr := by omega
  have taken : data.take (min (chunk.length - (addr - start)) data.length) =
      window g addr (min (chunk.length - (addr - start)) data.length) :=
    new.take (min_le_right _ _)
  have dropped : data.drop (min (chunk.length - (addr - start)) data.length) =
      window g (addr + min (chunk.length - (addr - start)) data.length)
        (data.length - min (chunk.length - (addr - start)) data.length) := new.drop _
  rw [place, ← taken, ← holds] at copied
  refine ⟨_, by rw [extend, copied]; rfl, ?_, ?_⟩
  · rw [dropped, Holds]
    have whole : window (patch f g addr (min (chunk.length - (addr - start)) data.length)) start
        chunk.length = window g start chunk.length := by
      apply window_congr
      intro i from_ below
      unfold patch
      split
      · rfl
      · apply agree i
        unfold Spans
        dsimp only
        omega
    rw [whole]
    by_cases inside : addr + data.length ≤ start + chunk.length
    · have none : data.length - min (chunk.length - (addr - start)) data.length = 0 := by omega
      rw [none, window_zero, append_nil, length_window]
    · have end_ : addr + min (chunk.length - (addr - start)) data.length = start + chunk.length := by
        omega
      rw [end_, window_append, length_window]
  · rw [length_append, length_window, length_drop]
    omega

/-- A run at `start` that covers the new bytes absorbs what it reaches. -/
theorem absorb_insert (apart : Apart gap tree) (small : gap ≤ 1)
    {start : ℕ} {grown : List UInt8} (later : ∀ i, addr + data.length ≤ i → f i = g i)
    (holds : Holds g (start, grown)) (some_ : grown ≠ [])
    (reach : addr + data.length ≤ start + grown.length)
    (below : ∀ x ∈ tree.entries, x.1 < start → x.1 + x.2.length + gap ≤ start ∧ Holds g x) :
    ∃ tree', absorb start (tree.after start) (tree.insert start grown) = some tree' ∧
      (tree'.Valid g ∧ Apart gap tree') ∧
      ∀ i, Covered tree' i ↔ Covered (tree.insert start grown) i := by
  have entries : ∀ x, x ∈ (tree.insert start grown).entries ↔
      x = (start, grown) ∨ (x ∈ tree.entries ∧ x.1 ≠ start) := fun x => mem_insert
  apply absorb_spec small later (tree.after start) ((entries _).mpr (.inl rfl)) holds some_ reach
  · intro x xMem lt
    rcases (entries x).mp xMem with rfl | ⟨inside, -⟩
    · exact absurd lt (lt_irrefl _)
    · exact below x inside lt
  · intro x
    rw [mem_after, entries]
    constructor
    · rintro ⟨inside, gt⟩
      exact ⟨.inr ⟨inside, gt.ne'⟩, gt⟩
    · rintro ⟨rfl | ⟨inside, -⟩, gt⟩
      · exact absurd gt (lt_irrefl _)
      · exact ⟨inside, gt⟩
  · exact tree.sorted_after start
  · exact fun x xMem => valid.holds x (mem_after.mp xMem).1
  · intro x xMem ne
    rcases (entries x).mp xMem with rfl | ⟨inside, -⟩
    · exact absurd rfl ne
    · refine ⟨valid.nonempty x inside, ?_⟩
      intro y yMem yNe lt
      rcases (entries y).mp yMem with rfl | ⟨yInside, -⟩
      · exact absurd rfl yNe
      · exact apart x inside y yInside lt

theorem write_apart (apart : Apart gap tree) (small : gap ≤ 1)
    (new : Holds g (addr, data)) (agree : ∀ i, ¬ Spans (addr, data) i → f i = g i) :
    ∃ tree', tree.write addr data = some tree' ∧ (tree'.Valid g ∧ Apart gap tree') ∧
      ∀ i, Covered tree' i ↔ Covered tree i ∨ Spans (addr, data) i := by
  unfold write
  split
  · rename_i empty
    have nothing : ∀ i, ¬ Spans (addr, data) i := by
      intro i within
      rw [empty] at within
      exact not_lt.mpr within.1 within.2
    refine ⟨tree, rfl, ⟨valid.congr fun i _ => agree i (nothing i), apart⟩, ?_⟩
    intro i
    exact (or_iff_left (nothing i)).symm
  · rename_i some_
    have later : ∀ i, addr + data.length ≤ i → f i = g i := by
      intro i le
      apply agree i
      intro within
      exact not_lt.mpr le within.2
    have before : ∀ x ∈ tree.entries, x.1 + x.2.length ≤ addr → Holds g x := by
      intro x mem early
      apply (valid.holds x mem).congr
      intro i within
      apply agree i
      intro inside
      exact not_lt.mpr (early.trans inside.1) within.2
    cases found : tree.reaching addr with
    | some entry =>
      obtain ⟨start, chunk⟩ := entry
      obtain ⟨mem, le, reach, greatest⟩ := reaching_eq_some found
      obtain ⟨grown, call, holds, length⟩ := extend_spec (valid.holds _ mem) new le reach agree
      dsimp only
      rw [call, some_bind]
      have positive := length_pos_iff.mpr some_
      obtain ⟨tree', call', valid', covered⟩ := absorb_insert valid apart small later holds
        (length_pos_iff.mp (by omega)) (by omega) (by
          intro x inside lt
          have early := apart x inside _ mem lt
          exact ⟨early, before x inside (by omega)⟩)
      refine ⟨tree', call', valid', ?_⟩
      intro i
      rw [covered]
      constructor
      · rintro ⟨x, xMem, within⟩
        rcases mem_insert.mp xMem with rfl | ⟨inside, -⟩
        · by_cases old : Spans (start, chunk) i
          · exact .inl ⟨_, mem, old⟩
          · unfold Spans at within old ⊢
            dsimp only at within old ⊢
            omega
        · exact .inl ⟨x, inside, within⟩
      · rintro (⟨x, xMem, within⟩ | within)
        · by_cases own : x.1 = start
          · rw [entry_eq xMem mem own] at within
            refine ⟨_, mem_insert.mpr (.inl rfl), ?_⟩
            unfold Spans at within ⊢
            dsimp only at within ⊢
            omega
          · exact ⟨x, mem_insert.mpr (.inr ⟨xMem, own⟩), within⟩
        · refine ⟨_, mem_insert.mpr (.inl rfl), ?_⟩
          unfold Spans at within ⊢
          dsimp only at within ⊢
          omega
    | none =>
      have short := reaching_eq_none valid found
      obtain ⟨tree', call', valid', covered⟩ := absorb_insert valid apart small later new some_
        le_rfl (by
          intro x inside lt
          have early := short x inside lt.le
          exact ⟨by omega, before x inside early.le⟩)
      refine ⟨tree', call', valid', ?_⟩
      intro i
      rw [covered]
      constructor
      · rintro ⟨x, xMem, within⟩
        rcases mem_insert.mp xMem with rfl | ⟨inside, -⟩
        · exact .inr within
        · exact .inl ⟨x, inside, within⟩
      · rintro (⟨x, xMem, within⟩ | within)
        · refine ⟨x, mem_insert.mpr (.inr ⟨xMem, ?_⟩), within⟩
          intro eq
          have := short x xMem eq.le
          omega
        · exact ⟨_, mem_insert.mpr (.inl rfl), within⟩

/-- A write: what it covers is what the tree covers and the new bytes. -/
theorem write_spec (new : Holds g (addr, data)) (agree : ∀ i, ¬ Spans (addr, data) i → f i = g i) :
    ∃ tree', tree.write addr data = some tree' ∧ tree'.Valid g ∧
      ∀ i, Covered tree' i ↔ Covered tree i ∨ Spans (addr, data) i := by
  obtain ⟨tree', call, ⟨valid', -⟩, covered⟩ :=
    write_apart valid (show Apart 0 tree from valid.apart) (Nat.zero_le 1) new agree
  exact ⟨tree', call, valid', covered⟩

/-! ## Cleared ranges -/

omit valid in
theorem takeWhile_starts {stop : ℕ} {entries : List (ℕ × List UInt8)}
    (sorted : entries.Pairwise fun x y => x.1 < y.1) :
    entries.takeWhile (fun entry => decide (entry.1 < stop)) =
      entries.filter fun entry => decide (entry.1 < stop) := by
  refine takeWhile_eq_filter (sorted.imp ?_)
  intro x y lt below
  rw [decide_eq_true_eq] at below ⊢
  exact lt.trans below

theorem first_le (mem : x ∈ tree.entries)
    (ends : addr < x.1 + x.2.length) : (tree.floor? addr).elim addr Prod.fst ≤ x.1 := by
  cases floor : tree.floor? addr with
  | none => exact (OrdMap.floor?_eq_none floor x mem).le
  | some entry =>
    obtain ⟨entryMem, entryLe, -⟩ := floor?_eq_some floor
    by_contra lt
    have apart := valid.apart x mem entry entryMem (not_le.mp lt)
    omega

theorem mem_overlapping {stop : ℕ} :
    x ∈ tree.overlapping addr stop ↔ x ∈ tree.entries ∧ x.1 < stop ∧ addr < x.1 + x.2.length := by
  unfold overlapping
  dsimp only
  rw [takeWhile_starts (tree.sorted.filter _)]
  simp only [mem_filter, decide_eq_true_eq]
  constructor
  · rintro ⟨⟨⟨mem, -⟩, lt⟩, ends⟩
    exact ⟨mem, lt, ends⟩
  · rintro ⟨mem, lt, ends⟩
    exact ⟨⟨⟨mem, first_le valid mem ends⟩, lt⟩, ends⟩

theorem mem_cut {stop : ℕ} {x y : ℕ × List UInt8} (mem : x ∈ tree.entries) (starts : x.1 < stop) :
    y ∈ (cut addr stop tree x).entries ↔ (y ∈ tree.entries ∧ y.1 ≠ x.1) ∨
      (x.1 < addr ∧ y = (x.1, x.2.take (addr - x.1))) ∨
      (stop < x.1 + x.2.length ∧ y = (stop, x.2.drop (stop - x.1))) := by
  have free : stop < x.1 + x.2.length → ∀ z ∈ tree.entries, z.1 ≠ stop := by
    intro long z zMem eq
    have := valid.apart x mem z zMem (eq ▸ starts)
    omega
  unfold cut
  dsimp only
  by_cases long : stop < x.1 + x.2.length
  · by_cases early : x.1 < addr
    · rw [if_pos long, if_pos early, mem_insert, mem_insert, mem_erase]
      constructor
      · rintro (rfl | ⟨rfl | ⟨⟨inside, ne⟩, -⟩, -⟩)
        · exact .inr (.inl ⟨early, rfl⟩)
        · exact .inr (.inr ⟨long, rfl⟩)
        · exact .inl ⟨inside, ne⟩
      · rintro (⟨inside, ne⟩ | ⟨-, rfl⟩ | ⟨-, rfl⟩)
        · exact .inr ⟨.inr ⟨⟨inside, ne⟩, free long y inside⟩, ne⟩
        · exact .inl rfl
        · exact .inr ⟨.inl rfl, starts.ne'⟩
    · rw [if_pos long, if_neg early, mem_insert, mem_erase]
      constructor
      · rintro (rfl | ⟨⟨inside, ne⟩, -⟩)
        · exact .inr (.inr ⟨long, rfl⟩)
        · exact .inl ⟨inside, ne⟩
      · rintro (⟨inside, ne⟩ | ⟨lt, rfl⟩ | ⟨-, rfl⟩)
        · exact .inr ⟨⟨inside, ne⟩, free long y inside⟩
        · exact absurd lt early
        · exact .inl rfl
  · by_cases early : x.1 < addr
    · rw [if_neg long, if_pos early, mem_insert, mem_erase]
      constructor
      · rintro (rfl | ⟨⟨inside, ne⟩, -⟩)
        · exact .inr (.inl ⟨early, rfl⟩)
        · exact .inl ⟨inside, ne⟩
      · rintro (⟨inside, ne⟩ | ⟨-, rfl⟩ | ⟨lt, rfl⟩)
        · exact .inr ⟨⟨inside, ne⟩, ne⟩
        · exact .inl rfl
        · exact absurd lt long
    · simp [early, long]

theorem cut_spec (gaps : Apart gap tree) (small : gap ≤ 1) {stop : ℕ} (mem : x ∈ tree.entries)
    (order : addr < stop) (starts : x.1 < stop) (ends : addr < x.1 + x.2.length) :
    ((cut addr stop tree x).Valid f ∧ Apart gap (cut addr stop tree x)) ∧ ∀ i, Covered (cut addr stop tree x) i ↔
      Covered tree i ∧ ¬ (Spans x i ∧ addr ≤ i ∧ i < stop) := by
  have entries := fun y => @mem_cut tree f addr valid stop x y mem starts
  have apart : ∀ y ∈ tree.entries, y.1 ≠ x.1 →
      y.1 + y.2.length + gap ≤ x.1 ∨ x.1 + x.2.length + gap ≤ y.1 := by
    intro y yMem ne
    rcases Nat.lt_or_gt_of_ne ne with lt | gt
    · exact .inl (gaps y yMem x mem lt)
    · exact .inr (gaps x mem y yMem gt)
  have gaps' : Apart gap (cut addr stop tree x) := by
    intro y yMem z zMem lt
    rcases (entries y).mp yMem with ⟨yIn, yNe⟩ | ⟨yLt, rfl⟩ | ⟨yLt, rfl⟩
    · rcases (entries z).mp zMem with ⟨zIn, -⟩ | ⟨zLt, rfl⟩ | ⟨zLt, rfl⟩
      · exact gaps y yIn z zIn lt
      · have := apart y yIn yNe
        omega
      · have := apart y yIn yNe
        omega
    · rcases (entries z).mp zMem with ⟨zIn, zNe⟩ | ⟨-, rfl⟩ | ⟨-, rfl⟩
      · have := apart z zIn zNe
        rw [length_take]
        omega
      · exact absurd lt (lt_irrefl _)
      · rw [length_take]
        omega
    · rcases (entries z).mp zMem with ⟨zIn, zNe⟩ | ⟨-, rfl⟩ | ⟨-, rfl⟩
      · have := apart z zIn zNe
        rw [length_drop]
        omega
      · omega
      · exact absurd lt (lt_irrefl _)
  refine ⟨⟨⟨fun y yMem z zMem lt => (Nat.le_add_right ..).trans (gaps' y yMem z zMem lt), ?_, ?_⟩,
    gaps'⟩, ?_⟩
  · intro y yMem
    rcases (entries y).mp yMem with ⟨yIn, -⟩ | ⟨lt, rfl⟩ | ⟨lt, rfl⟩
    · exact valid.nonempty y yIn
    · apply length_pos_iff.mp
      rw [length_take]
      omega
    · apply length_pos_iff.mp
      rw [length_drop]
      omega
  · intro y yMem
    rcases (entries y).mp yMem with ⟨yIn, -⟩ | ⟨lt, rfl⟩ | ⟨lt, rfl⟩
    · exact valid.holds y yIn
    · rw [(valid.holds x mem).take (by omega)]
      exact holds_window _ _ _
    · rw [(valid.holds x mem).drop]
      have place : x.1 + (stop - x.1) = stop := by omega
      rw [place]
      exact holds_window _ _ _
  · intro i
    constructor
    · rintro ⟨y, yMem, within⟩
      rcases (entries y).mp yMem with ⟨yIn, ne⟩ | ⟨lt, rfl⟩ | ⟨lt, rfl⟩
      · refine ⟨⟨y, yIn, within⟩, ?_⟩
        have := apart y yIn ne
        unfold Spans at within ⊢
        omega
      · unfold Spans at within
        rw [length_take] at within
        refine ⟨⟨x, mem, within.1, by omega⟩, by omega⟩
      · unfold Spans at within
        rw [length_drop] at within
        refine ⟨⟨x, mem, by omega, by omega⟩, by omega⟩
    · rintro ⟨⟨y, yMem, within⟩, outside⟩
      by_cases own : y.1 = x.1
      · rw [entry_eq yMem mem own] at within
        by_cases early : i < addr
        · refine ⟨_, (entries _).mpr (.inr (.inl ⟨lt_of_le_of_lt within.1 early, rfl⟩)), ?_⟩
          unfold Spans at within ⊢
          rw [length_take]
          omega
        · have late : stop ≤ i := by
            by_contra lt
            exact outside ⟨within, by omega, by omega⟩
          refine ⟨_, (entries _).mpr (.inr (.inr ⟨lt_of_le_of_lt late within.2, rfl⟩)), ?_⟩
          unfold Spans at within ⊢
          rw [length_drop]
          omega
      · exact ⟨y, (entries y).mpr (.inl ⟨yMem, own⟩), within⟩

omit valid in
theorem foldl_cut_spec {stop : ℕ} (small : gap ≤ 1) (order : addr < stop) :
    ∀ (runs : List (ℕ × List UInt8)) {tree : OverlayTree}, tree.Valid f → Apart gap tree → runs.Pairwise (fun x y => x.1 < y.1) →
    (∀ x ∈ runs, x ∈ tree.entries ∧ x.1 < stop ∧ addr < x.1 + x.2.length) →
    ((runs.foldl (cut addr stop) tree).Valid f ∧ Apart gap (runs.foldl (cut addr stop) tree)) ∧
      ∀ i, Covered (runs.foldl (cut addr stop) tree) i ↔
        Covered tree i ∧ ¬ ∃ x ∈ runs, Spans x i ∧ addr ≤ i ∧ i < stop
  | [], tree, valid, gaps, _, _ => ⟨⟨valid, gaps⟩, by simp⟩
  | x :: runs, tree, valid, gaps, sorted, all => by
    obtain ⟨above, sorted'⟩ := pairwise_cons.mp sorted
    obtain ⟨⟨mem, starts, ends⟩, rest⟩ := forall_mem_cons.mp all
    obtain ⟨⟨valid', gaps'⟩, covered⟩ := cut_spec valid gaps small mem order starts ends
    obtain ⟨valid'', covered'⟩ := foldl_cut_spec small order runs valid' gaps' sorted' (by
      intro y yMem
      obtain ⟨inside, facts⟩ := rest y yMem
      exact ⟨(mem_cut valid mem starts).mpr (.inl ⟨inside, (above y yMem).ne'⟩), facts⟩)
    refine ⟨valid'', ?_⟩
    intro i
    rw [foldl_cons, covered', covered, exists_mem_cons_iff, not_or, and_assoc]

theorem clearRange_apart (gaps : Apart gap tree) (small : gap ≤ 1) (addr size : ℕ) :
    ((tree.clearRange addr size).Valid f ∧ Apart gap (tree.clearRange addr size)) ∧
      ∀ i, Covered (tree.clearRange addr size) i ↔
        Covered tree i ∧ ¬ (addr ≤ i ∧ i < addr + size) := by
  unfold clearRange
  split
  · refine ⟨⟨valid, gaps⟩, ?_⟩
    intro i
    exact (and_iff_left (by omega)).symm
  · have sorted : (tree.overlapping addr (addr + size)).Pairwise fun x y => x.1 < y.1 := by
      unfold overlapping
      dsimp only
      rw [takeWhile_starts (tree.sorted.filter _)]
      exact ((tree.sorted.filter _).filter _).filter _
    obtain ⟨valid', covered⟩ := foldl_cut_spec small (by omega) _ valid gaps sorted
      fun x mem => (mem_overlapping valid).mp mem
    refine ⟨valid', ?_⟩
    intro i
    rw [covered]
    apply and_congr_right
    rintro ⟨x, mem, within⟩
    refine not_congr ⟨?_, ?_⟩
    · rintro ⟨-, -, -, range⟩
      exact range
    · intro range
      refine ⟨x, (mem_overlapping valid).mpr ⟨mem, ?_, ?_⟩, within, range⟩
      · exact lt_of_le_of_lt within.1 range.2
      · exact lt_of_le_of_lt range.1 within.2

/-- `clear_range` leaves what the tree covers outside of the range. -/
theorem clearRange_spec (addr size : ℕ) :
    (tree.clearRange addr size).Valid f ∧ ∀ i, Covered (tree.clearRange addr size) i ↔
      Covered tree i ∧ ¬ (addr ≤ i ∧ i < addr + size) := by
  obtain ⟨⟨valid', -⟩, covered⟩ :=
    clearRange_apart valid (show Apart 0 tree from valid.apart) (Nat.zero_le 1) addr size
  exact ⟨valid', covered⟩

/-! ## Reads -/

omit valid in
theorem foldlM_readChunk {count : ℕ} (some_ : 0 < count) : ∀ (runs : List (ℕ × List UInt8))
    (g : ℕ → UInt8) (applied : ℕ),
    (∀ x ∈ runs, Holds f x ∧ x.2 ≠ [] ∧ x.1 < addr + count) →
    ∃ applied', runs.foldlM (readChunk addr) (window g addr count, applied) =
      some (window (painted f g runs) addr count, applied')
  | [], g, applied, _ => by
    refine ⟨applied, ?_⟩
    rfl
  | x :: runs, g, applied, all => by
    obtain ⟨⟨holds, nonempty, starts⟩, rest⟩ := forall_mem_cons.mp all
    rw [foldlM_cons]
    by_cases ends : x.1 + x.2.length ≤ addr
    · -- a run that ends before the address covers nothing of the buffer
      obtain ⟨applied', call⟩ := foldlM_readChunk some_ runs g applied rest
      refine ⟨applied', ?_⟩
      rw [readChunk, if_pos ends, some_bind, call]
      congr 2
      apply window_congr
      intro i from_ _
      refine if_congr ?_ rfl rfl
      rw [exists_mem_cons_iff]
      refine (or_iff_right ?_).symm
      intro within
      exact not_lt.mpr (ends.trans from_) within.2
    · obtain ⟨applied', call⟩ := foldlM_readChunk some_ runs (painted f g [x]) _ rest
      refine ⟨applied', ?_⟩
      rw [readChunk, if_neg ends]
      rw [copyOverlap_window holds starts (not_le.mp ends) some_]
      simp only [some_bind, Option.pure_def]
      rw [call, painted_cons]

/-- A read copies what the tree covers into the buffer. -/
theorem read_spec (g : ℕ → UInt8) (count : ℕ) :
    ∃ applied, tree.read addr (window g addr count) =
      some (window (painted f g tree.entries) addr count, applied) := by
  unfold read
  split
  · rename_i empty
    have zero : count = 0 := by rw [← @length_window _ g addr count, empty, length_nil]
    subst zero
    exact ⟨0, rfl⟩
  · rename_i nonempty
    have some_ : 0 < count := by
      rw [← @length_window _ g addr count]
      exact length_pos_iff.mpr nonempty
    rw [length_window]
    obtain ⟨applied, call⟩ := @foldlM_readChunk f addr count some_
      (tree.entries.filter fun entry => decide ((tree.floor? addr).elim addr Prod.fst ≤ entry.1) &&
        decide (entry.1 < addr + count)) g 0 (by
        intro x mem
        obtain ⟨inside, bounds⟩ := mem_filter.mp mem
        rw [Bool.and_eq_true, decide_eq_true_eq, decide_eq_true_eq] at bounds
        exact ⟨valid.holds x inside, valid.nonempty x inside, bounds.2⟩)
    refine ⟨applied, ?_⟩
    rw [call]
    congr 2
    apply window_congr
    intro i from_ below
    refine if_congr ⟨?_, ?_⟩ rfl rfl
    · rintro ⟨x, mem, within⟩
      exact ⟨x, (mem_filter.mp mem).1, within⟩
    · rintro ⟨x, mem, within⟩
      refine ⟨x, mem_filter.mpr ⟨mem, ?_⟩, within⟩
      rw [Bool.and_eq_true, decide_eq_true_eq, decide_eq_true_eq]
      exact ⟨first_le valid mem (lt_of_le_of_lt from_ within.2),
        lt_of_le_of_lt within.1 below⟩

end

theorem chunkCovering_eq_some (found : tree.chunkCovering addr = some x) :
    x ∈ tree.entries ∧ Spans x addr := by
  obtain ⟨floor, covers⟩ := filter_eq_some_iff.mp found
  obtain ⟨mem, le, -⟩ := floor?_eq_some floor
  have := of_decide_eq_true covers
  exact ⟨mem, le, by omega⟩

end OverlayTree

end Fugue.Storage.Segments
