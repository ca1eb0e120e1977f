import Fugue.Ir.Address
import Fugue.Storage.Segments.Overlay

/-!
# The overlay tree as a partial byte map

The operations of `overlay.rs` on raw addresses, of which sums wrap around at `2^64`, over any run
of writes and cleared ranges. A difference of the source is of an address and one that is not after
it, so that it does not wrap; `none` stands for a panic.
-/

namespace Fugue.Storage.Segments.OverlayTree.Raw

open Fugue.Lib Fugue.Ir List Option
open OrdMap (mem_erase mem_insert floor?_eq_some)

/-- The loop of `write` (`overlay.rs:63-82`). -/
def absorb (start : ℕ) : List (ℕ × List UInt8) → OverlayTree → Option OverlayTree
  | [], tree => some tree
  | (next, bytes) :: rest, tree => do
    let chunk ← tree.get? start
    let stop := addRaw start chunk.length
    if next ≤ stop then
      absorb start rest ((tree.erase next).insert start (chunk ++ bytes.drop (stop - next)))
    else some tree

/-- `OverlayTree::write` (`overlay.rs:41-83`). -/
def write (tree : OverlayTree) (addr : ℕ) (data : List UInt8) : Option OverlayTree :=
  if data = [] then some tree
  else match (tree.floor? addr).filter fun entry =>
      decide (addr ≤ addRaw entry.1 entry.2.length) with
    | some (start, chunk) => do
      let grown ← extend chunk (addr - start) data
      absorb start (tree.after start) (tree.insert start grown)
    | none => absorb addr (tree.after addr) (tree.insert addr data)

/-- One round of the loop of `clear_range` (`overlay.rs:105-119`). -/
def cut (addr stop : ℕ) (tree : OverlayTree) (entry : ℕ × List UInt8) : OverlayTree :=
  let (start, chunk) := entry
  let tree := tree.erase start
  let tree := if stop < addRaw start chunk.length then
    tree.insert stop (chunk.drop (stop - start)) else tree
  if start < addr then tree.insert start (chunk.take (addr - start)) else tree

/-- `OverlayTree::clear_range` (`overlay.rs:85-120`). -/
def clearRange (tree : OverlayTree) (addr size : ℕ) : OverlayTree :=
  if size = 0 then tree
  else
    let stop := addRaw addr size
    let first := (tree.floor? addr).elim addr Prod.fst
    (((tree.entries.filter fun entry => decide (first ≤ entry.1)).takeWhile fun entry =>
      decide (entry.1 < stop)).filter fun entry =>
        decide (addr < addRaw entry.1 entry.2.length)).foldl (cut addr stop) tree

/-- The loop of `read` on one run (`overlay.rs:135-154`), with the bytes that are applied. -/
def readChunk (addr readEnd : ℕ) (state : List UInt8 × ℕ) (entry : ℕ × List UInt8) :
    Option (List UInt8 × ℕ) :=
  let chunkEnd := addRaw entry.1 entry.2.length
  if chunkEnd ≤ addr then some state
  else do
    let overlapStart := max addr entry.1
    let overlapEnd := min readEnd chunkEnd
    let source ← slice entry.2 (overlapStart - entry.1) (overlapEnd - entry.1)
    let buffer ← copyAt state.1 (overlapStart - addr) source
    if overlapEnd < overlapStart then none
    else some (buffer, state.2 + (overlapEnd - overlapStart))

/-- `OverlayTree::read` (`overlay.rs:122-157`). -/
def read (tree : OverlayTree) (addr : ℕ) (buffer : List UInt8) : Option (List UInt8 × ℕ) :=
  if buffer = [] then some (buffer, 0)
  else
    let readEnd := min (addr + buffer.length) (2 ^ 64 - 1)
    let first := (tree.floor? addr).elim addr Prod.fst
    (tree.entries.filter fun entry => decide (first ≤ entry.1) &&
      decide (entry.1 < readEnd)).foldlM (readChunk addr readEnd) (buffer, 0)

inductive Op where
  | write (addr : ℕ) (data : List UInt8)
  | clearRange (addr size : ℕ)

def apply (tree : OverlayTree) : Op → Option OverlayTree
  | .write addr data => write tree addr data
  | .clearRange addr size => some (clearRange tree addr size)

def run (ops : List Op) : Option OverlayTree := ops.foldlM apply OrdMap.empty

/-- What an operation does to a partial byte map. -/
def update (map : ℕ → Option UInt8) : Op → ℕ → Option UInt8
  | .write addr data, i => if addr ≤ i ∧ i < addr + data.length then data[i - addr]? else map i
  | .clearRange addr size, i => if addr ≤ i ∧ i < addr + size then none else map i

/-- The bytes that were written last and not cleared since. -/
def written (ops : List Op) : ℕ → Option UInt8 := ops.foldl update fun _ => none

/-- A buffer with the present bytes in their places. -/
def overwritten (map : ℕ → Option UInt8) (addr : ℕ) (buffer : List UInt8) : List UInt8 :=
  buffer.mapIdx fun i byte => (map (addr + i)).getD byte

def present (map : ℕ → Option UInt8) (addr count : ℕ) : ℕ :=
  ((Finset.Ico addr (addr + count)).filter fun i => (map i).isSome).card

/-- The tree answers as the partial byte map. -/
structure Represents (tree : OverlayTree) (map : ℕ → Option UInt8) : Prop where
  nonempty : ∀ x ∈ tree.entries, x.2 ≠ []
  separate : tree.entries.Pairwise fun x y => x.1 + x.2.length < y.1
  reads : ∀ addr buffer, read tree addr buffer =
    some (overwritten map addr buffer, present map addr buffer.length)
  covering : ∀ addr, (tree.chunkCovering addr).isSome = (map addr).isSome

/-- The range of the operation lies before the last address, or is cleared up to that one and not
present. -/
def Fits (map : ℕ → Option UInt8) : Op → Prop
  | .write addr data => addr + data.length < 2 ^ 64
  | .clearRange addr size => addr + size < 2 ^ 64 ∨
    addr + size = 2 ^ 64 ∧ ∀ i, addr ≤ i → i < addr + size → map i = none

variable {tree : OverlayTree} {map : ℕ → Option UInt8} {f : ℕ → UInt8} {addr size count : ℕ}
  {data : List UInt8} {op : Op} {ops : List Op}

/-! ## Without an overflow -/

def Below (tree : OverlayTree) : Prop := ∀ x ∈ tree.entries, x.1 + x.2.length < 2 ^ 64

theorem addRaw_of_lt (fits : addr + size < 2 ^ 64) : addRaw addr size = addr + size :=
  Nat.mod_eq_of_lt fits

theorem absorb_eq {start : ℕ} (rest : List (ℕ × List UInt8)) (below : Below tree)
    (restBelow : ∀ x ∈ rest, x.1 + x.2.length < 2 ^ 64) :
    absorb start rest tree = OverlayTree.absorb start rest tree := by
  induction rest generalizing tree with
  | nil => rfl
  | cons x rest ih =>
    obtain ⟨xBelow, restBelow⟩ := forall_mem_cons.mp restBelow
    unfold absorb OverlayTree.absorb
    cases found : tree.get? start with
    | none => rfl
    | some chunk =>
      have ends : start + chunk.length < 2 ^ 64 := below _ (OrdMap.get?_eq_some.mp found)
      simp only [some_bind, addRaw_of_lt ends]
      split
      · apply ih _ restBelow
        intro y mem
        rcases mem_insert.mp mem with rfl | ⟨mem, -⟩
        · simp only [length_append, length_drop]
          omega
        · exact below y (mem_erase.mp mem).1
      · rfl

theorem length_extend {chunk grown : List UInt8} {offset : ℕ} (le : offset ≤ chunk.length)
    (call : extend chunk offset data = some grown) :
    grown.length = max chunk.length (offset + data.length) := by
  obtain ⟨copied, copy, rest⟩ := Option.bind_eq_some_iff.mp call
  cases rest
  rw [length_append, length_copyAt copy, length_drop]
  omega

theorem write_eq (below : Below tree) (fits : addr + data.length < 2 ^ 64) :
    write tree addr data = tree.write addr data := by
  have reach : ((tree.floor? addr).filter fun entry =>
      decide (addr ≤ addRaw entry.1 entry.2.length)) = tree.reaching addr := by
    unfold reaching
    cases floor : tree.floor? addr with
    | none => rfl
    | some entry =>
      have ends := below entry (floor?_eq_some floor).1
      simp only [Option.filter, addRaw_of_lt ends]
  have inserted : ∀ {start : ℕ} {grown : List UInt8}, start + grown.length < 2 ^ 64 →
      absorb start (tree.after start) (tree.insert start grown) =
        OverlayTree.absorb start (tree.after start) (tree.insert start grown) := by
    intro start grown ends
    apply absorb_eq
    · intro x mem
      rcases mem_insert.mp mem with rfl | ⟨mem, -⟩
      · exact ends
      · exact below x mem
    · intro x mem
      exact below x (mem_after.mp mem).1
  unfold write OverlayTree.write
  rw [reach]
  split
  · rfl
  · cases found : tree.reaching addr with
    | none => exact inserted fits
    | some entry =>
      obtain ⟨mem, le, reaches, -⟩ := reaching_eq_some found
      have ends := below entry mem
      dsimp only
      cases call : extend entry.2 (addr - entry.1) data with
      | none => rfl
      | some grown =>
        have length := length_extend (by omega) call
        exact inserted (by omega)

theorem clearRange_eq (below : Below tree) (fits : addr + size < 2 ^ 64) :
    clearRange tree addr size = tree.clearRange addr size := by
  unfold clearRange OverlayTree.clearRange overlapping
  simp only [addRaw_of_lt fits]
  split
  · rfl
  · have ends : ∀ x ∈ (tree.entries.filter fun entry => decide ((tree.floor? addr).elim addr
        Prod.fst ≤ entry.1)).takeWhile (fun entry => decide (entry.1 < addr + size)),
        addRaw x.1 x.2.length = x.1 + x.2.length := by
      intro x mem
      exact addRaw_of_lt (below x (mem_filter.mp ((takeWhile_sublist _).mem mem)).1)
    rw [filter_congr fun x mem => by rw [ends x mem]]
    apply foldl_ext
    intro tree x mem
    simp only [cut, OverlayTree.cut, ends x (mem_filter.mp mem).1]

theorem readChunk_window {x : ℕ × List UInt8} {g : ℕ → UInt8} {applied : ℕ} (holds : Holds f x)
    (starts : x.1 < addr + count) (ends : x.1 + x.2.length < 2 ^ 64) (some_ : 0 < count) :
    readChunk addr (min (addr + count) (2 ^ 64 - 1)) (window g addr count, applied) x =
      some (window (painted f g [x]) addr count,
        applied + (min (addr + count) (x.1 + x.2.length) - max addr x.1)) := by
  have stop : min (min (addr + count) (2 ^ 64 - 1)) (x.1 + x.2.length) =
      min (addr + count) (x.1 + x.2.length) := by omega
  simp only [readChunk, addRaw_of_lt ends, stop]
  split
  · -- a run that ends before the address covers nothing of the buffer
    have none : min (addr + count) (x.1 + x.2.length) - max addr x.1 = 0 := by omega
    rw [none]
    congr 2
    apply window_congr
    intro i from_ _
    refine (if_neg ?_).symm
    simp only [mem_singleton, exists_eq_left, Spans]
    omega
  · have copied := copyOverlap_window (g := g) holds starts (by omega) some_
    simp only [copyOverlap, length_window] at copied
    obtain ⟨source, sliced, copy⟩ := Option.bind_eq_some_iff.mp copied
    rw [sliced, some_bind, copy, some_bind, if_neg (by omega)]

theorem foldlM_readChunk (some_ : 0 < count) (runs : List (ℕ × List UInt8))
    (all : ∀ x ∈ runs, Holds f x ∧ x.1 < addr + count ∧ x.1 + x.2.length < 2 ^ 64) :
    ∀ (g : ℕ → UInt8) (applied : ℕ),
    runs.foldlM (readChunk addr (min (addr + count) (2 ^ 64 - 1)))
        (window g addr count, applied) =
      some (window (painted f g runs) addr count, applied +
        (runs.map fun x => min (addr + count) (x.1 + x.2.length) - max addr x.1).sum) := by
  induction runs with
  | nil =>
    intro g applied
    rw [funext painted_nil]
    rfl
  | cons x runs ih =>
    intro g applied
    obtain ⟨⟨holds, starts, ends⟩, rest⟩ := forall_mem_cons.mp all
    rw [foldlM_cons, readChunk_window holds starts ends some_, some_bind, ih rest, painted_cons,
      map_cons, sum_cons, Nat.add_assoc]

/-- The runs are apart, so that no byte is counted twice. -/
theorem card_covered (runs : List (ℕ × List UInt8))
    (apart : runs.Pairwise fun x y => x.1 + x.2.length < y.1) :
    ((Finset.Ico addr (addr + count)).filter fun i => ∃ x ∈ runs, Spans x i).card =
      (runs.map fun x => min (addr + count) (x.1 + x.2.length) - max addr x.1).sum := by
  induction runs with
  | nil => simp
  | cons x runs ih =>
    obtain ⟨above, apart⟩ := pairwise_cons.mp apart
    have split : ((Finset.Ico addr (addr + count)).filter fun i => ∃ y ∈ x :: runs, Spans y i) =
        Finset.Ico (max addr x.1) (min (addr + count) (x.1 + x.2.length)) ∪
          (Finset.Ico addr (addr + count)).filter fun i => ∃ y ∈ runs, Spans y i := by
      ext i
      simp only [Finset.mem_filter, Finset.mem_union, exists_mem_cons_iff, and_or_left]
      apply or_congr_left
      simp only [Finset.mem_Ico, Spans]
      omega
    rw [split, Finset.card_union_of_disjoint, Nat.card_Ico, ih apart, map_cons, sum_cons]
    apply Finset.disjoint_left.mpr
    intro i here later
    obtain ⟨-, y, mem, within⟩ := Finset.mem_filter.mp later
    have := above y mem
    have := (Finset.mem_Ico.mp here).2
    have := within.1
    omega

theorem separate (apart : Apart 1 tree) :
    tree.entries.Pairwise fun x y => x.1 + x.2.length < y.1 := by
  apply tree.sorted.imp_of_mem
  intro x y xMem yMem lt
  exact apart x xMem y yMem lt

theorem read_spec (valid : tree.Valid f) (apart : Apart 1 tree) (below : Below tree)
    (g : ℕ → UInt8) : read tree addr (window g addr count) =
      some (window (painted f g tree.entries) addr count,
        ((Finset.Ico addr (addr + count)).filter fun i => ∃ x ∈ tree.entries, Spans x i).card) := by
  unfold read
  split
  · rename_i empty
    have zero : count = 0 := by rw [← @length_window _ g addr count, empty, length_nil]
    subst zero
    simp [window_zero]
  · rename_i nonempty
    have some_ : 0 < count := by
      rw [← @length_window _ g addr count]
      exact length_pos_iff.mpr nonempty
    rw [length_window]
    dsimp only
    -- the runs that are passed over do not reach the buffer
    have seen : ∀ i, addr ≤ i → i < addr + count → ((∃ x ∈ tree.entries.filter fun entry =>
        decide ((tree.floor? addr).elim addr Prod.fst ≤ entry.1) &&
          decide (entry.1 < min (addr + count) (2 ^ 64 - 1)), Spans x i) ↔
        ∃ x ∈ tree.entries, Spans x i) := by
      intro i from_ until_
      simp only [mem_filter, Bool.and_eq_true, decide_eq_true_eq]
      constructor
      · rintro ⟨x, ⟨mem, -⟩, within⟩
        exact ⟨x, mem, within⟩
      · rintro ⟨x, mem, within⟩
        have ends := below x mem
        have reach := within.2
        exact ⟨x, ⟨mem, first_le valid mem (by omega), by have := within.1; omega⟩, within⟩
    rw [foldlM_readChunk some_ _ (fun x mem => ?_), ← card_covered _ ((separate apart).filter _),
      Nat.zero_add]
    · congr 2
      · apply window_congr
        intro i from_ until_
        exact if_congr (seen i from_ until_) rfl rfl
      · congr 1
        apply Finset.filter_congr
        intro i mem
        exact seen i (Finset.mem_Ico.mp mem).1 (Finset.mem_Ico.mp mem).2
    · obtain ⟨inside, bounds⟩ := mem_filter.mp mem
      rw [Bool.and_eq_true, decide_eq_true_eq, decide_eq_true_eq] at bounds
      exact ⟨valid.holds x inside, by omega, below x inside⟩

theorem chunkCovering_isSome (valid : tree.Valid f) :
    (tree.chunkCovering addr).isSome ↔ Covered tree addr := by
  constructor
  · intro found
    obtain ⟨x, found⟩ := isSome_iff_exists.mp found
    exact ⟨x, chunkCovering_eq_some found⟩
  · rintro ⟨x, mem, from_, until_⟩
    unfold chunkCovering
    cases floor : tree.floor? addr with
    | none => exact absurd (OrdMap.floor?_eq_none floor x mem) (Nat.not_lt.mpr from_)
    | some entry =>
      obtain ⟨entryMem, le, greatest⟩ := floor?_eq_some floor
      rcases Nat.lt_or_eq_of_le (greatest x mem from_) with lt | eq
      · have := valid.apart x mem entry entryMem lt
        omega
      · rw [entry_eq mem entryMem eq] at until_
        simp only [Option.filter]
        rw [if_pos (decide_eq_true (by omega))]
        rfl

/-! ## Runs -/

/-- The tree holds what is written, apart from each other and not at the last address. -/
structure Stores (tree : OverlayTree) (map : ℕ → Option UInt8) : Prop where
  valid : tree.Valid fun i => (map i).getD 0
  apart : Apart 1 tree
  covered : ∀ i, Covered tree i ↔ (map i).isSome
  below : ∀ i, (map i).isSome → i < 2 ^ 64 - 1

theorem Stores.ends (stores : Stores tree map) : Below tree := by
  intro x mem
  have := (stores.valid.ends_le_iff.mpr fun i within =>
    stores.below i ((stores.covered i).mp within)) x mem
  omega

theorem Stores.represents (stores : Stores tree map) : Represents tree map := by
  refine ⟨stores.valid.nonempty, separate stores.apart, ?_, ?_⟩
  · intro addr buffer
    obtain ⟨g, same⟩ := exists_window buffer addr
    rw [same, read_spec stores.valid stores.apart stores.ends, length_window]
    congr 2
    · symm
      apply eq_window (by simp [overwritten])
      intro i lt
      have covered := stores.covered (addr + i)
      simp only [overwritten, getElem?_mapIdx, getElem?_window, if_pos lt, map_some, painted]
      cases known : map (addr + i) with
      | none => rw [if_neg fun within => by simpa [known] using covered.mp within, getD_none]
      | some byte =>
        have within : ∃ x ∈ tree.entries, Spans x (addr + i) := covered.mpr (by simp [known])
        rw [if_pos within]
        rfl
    · unfold present
      congr 1
      apply Finset.filter_congr
      intro i _
      exact stores.covered i
  · intro addr
    rw [Bool.eq_iff_iff, chunkCovering_isSome stores.valid]
    exact stores.covered addr

theorem stores_empty : Stores OrdMap.empty fun _ => none :=
  ⟨empty_valid _, by simp [Apart], by simp [Covered], by simp⟩

theorem stores_write (stores : Stores tree map) (fits : addr + data.length < 2 ^ 64) :
    ∃ tree', write tree addr data = some tree' ∧ Stores tree' (update map (.write addr data)) := by
  have inside : ∀ i, Spans (addr, data) i → update map (.write addr data) i = data[i - addr]? :=
    fun i within => if_pos within
  have outside : ∀ i, ¬ Spans (addr, data) i → update map (.write addr data) i = map i :=
    fun i without => if_neg without
  rw [write_eq stores.ends fits]
  have holds : Holds (fun i => (update map (.write addr data) i).getD 0) (addr, data) :=
    eq_window rfl fun i lt => by simp [update, lt]
  obtain ⟨tree', call, ⟨valid, apart⟩, covered⟩ := write_apart stores.valid stores.apart le_rfl
    holds fun i without => by rw [outside i without]
  have known : ∀ i, Covered tree' i ↔ (update map (.write addr data) i).isSome := by
    intro i
    rw [covered, stores.covered]
    by_cases within : Spans (addr, data) i
    · have lt : i - addr < data.length := Nat.sub_lt_left_of_lt_add within.1 within.2
      simp [inside i within, within, lt]
    · simp [outside i within, within]
  refine ⟨tree', call, valid, apart, known, ?_⟩
  intro i some_
  rcases (covered i).mp ((known i).mpr some_) with old | new
  · exact stores.below i ((stores.covered i).mp old)
  · have : i < addr + data.length := new.2
    omega

/-- The end of a range up to the last address wraps around, so that nothing is before it. -/
theorem clearRange_last (last : addr + size = 2 ^ 64) : clearRange tree addr size = tree := by
  have none : ∀ runs : List (ℕ × List UInt8), runs.takeWhile (fun _ => false) = [] := by
    intro runs
    cases runs <;> rfl
  simp [clearRange, addRaw, last, none]

theorem stores_clearRange (stores : Stores tree map) (fits : Fits map (.clearRange addr size)) :
    Stores (clearRange tree addr size) (update map (.clearRange addr size)) := by
  rcases fits with fits | ⟨last, absent⟩
  · rw [clearRange_eq stores.ends fits]
    obtain ⟨⟨valid, apart⟩, covered⟩ :=
      clearRange_apart stores.valid stores.apart le_rfl addr size
    have known : ∀ i, Covered (tree.clearRange addr size) i ↔
        (update map (.clearRange addr size) i).isSome := by
      intro i
      rw [covered, stores.covered, update]
      split
      · rename_i within
        simp [within]
      · rename_i without
        simp [without]
    refine ⟨valid.congr fun i within => ?_, apart, known, fun i some_ => ?_⟩
    · rw [update, if_neg ((covered i).mp within).2]
    · exact stores.below i ((stores.covered i).mp ((covered i).mp ((known i).mpr some_)).1)
  · rw [clearRange_last last]
    have same : update map (.clearRange addr size) = map := by
      funext i
      rw [update]
      split
      · rename_i within
        exact (absent i within.1 within.2).symm
      · rfl
    rwa [same]

/-- The tree is the partial byte map in every run in which no write reaches the last address of the
space, where the end of the run wraps around and the run is not read any more, and no `clear_range`
up to that address meets a present byte, which it would leave. -/
theorem run_represents (fits : ∀ done op, done ++ [op] <+: ops → Fits (written done) op) :
    ∃ tree, run ops = some tree ∧ Represents tree (written ops) := by
  suffices ∃ tree, run ops = some tree ∧ Stores tree (written ops) by
    obtain ⟨tree, call, stores⟩ := this
    exact ⟨tree, call, stores.represents⟩
  induction ops using reverseRecOn with
  | nil => exact ⟨_, rfl, stores_empty⟩
  | append_singleton done op ih =>
    obtain ⟨tree, call, stores⟩ := ih fun earlier other before =>
      fits earlier other (before.trans (prefix_append ..))
    have fit := fits done op prefix_rfl
    rw [run, foldlM_append, ← run, call, written, foldl_concat, ← written]
    cases op with
    | write addr data =>
      obtain ⟨tree', write, stores'⟩ := stores_write stores fit
      exact ⟨tree', by simp [apply, write], stores'⟩
    | clearRange addr size => exact ⟨_, rfl, stores_clearRange stores fit⟩

theorem run_represents_write : ∃ tree, run [.write 0 [1]] = some tree ∧
    Represents tree (written [.write 0 [1]]) :=
  run_represents fun done op before => by
    cases done with
    | nil =>
      cases (cons_prefix_cons.mp before).1
      simp [Fits]
    | cons first done => simp at before

/-- A byte at the last address of the space is covered, but not read. -/
theorem write_last_unread : ¬ ∃ tree, run [.write (2 ^ 64 - 1) [1]] = some tree ∧
    Represents tree (written [.write (2 ^ 64 - 1) [1]]) := by
  rintro ⟨tree, call, represents⟩
  cases call
  exact absurd (represents.reads (2 ^ 64 - 1) [0]) (by decide)

end Fugue.Storage.Segments.OverlayTree.Raw
