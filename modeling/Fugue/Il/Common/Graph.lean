import Fugue.Il.Common.Pool
import Fugue.Lib.Walk

/-!
# Control-flow graphs

`fugue-core/src/il/common/graph.rs`: blocks with their operation and successor ranges, and the
table of predecessors. `Edge` is the relation that the successor ranges spell out, and
`GraphInRange` what `IlGraph::new` asserts about them.
-/

namespace Fugue.Il

open List

/-- `IlBlockProperties`, the two flags of the bit set. -/
structure IlBlockProperties where
  entry : Bool
  exit : Bool
  deriving DecidableEq, Repr

/-- `IlBlock` (`graph.rs:66-70`). -/
structure IlBlock where
  ops : IlIndexRange
  successors : IlIndexRange
  properties : IlBlockProperties
  deriving DecidableEq, Repr

/-- `IlBlock::is_entry`. -/
def IlBlock.isEntry (block : IlBlock) : Bool := block.properties.entry

/-- `blocks[block.index()].successors().slice(successors)`; a block outside the list has none, as
in `IlGraph::successors_for` (`graph.rs:250-255`). -/
def successorsFor (blocks : List IlBlock) (successors : List IlBlockId) (block : IlBlockId) :
    List IlBlockId :=
  match blocks[block]? with
  | none => []
  | some block => block.successors.slice successors

/-- Control can pass from `a` to `b`. -/
def Edge (blocks : List IlBlock) (successors : List IlBlockId) (a b : IlBlockId) : Prop :=
  b ∈ successorsFor blocks successors a

/-- The bounds that `IlGraph::new` asserts (`graph.rs:139-151`) and `IlGraph::verify` checks: every
successor range lies within the pool, and every successor of a block is a block. -/
structure GraphInRange (blocks : List IlBlock) (successors : List IlBlockId) : Prop where
  ranges : ∀ block ∈ blocks, block.successors.start ≤ block.successors.stop ∧
    block.successors.stop ≤ successors.length
  targets : ∀ block ∈ blocks, ∀ target ∈ block.successors.slice successors,
    target < blocks.length

instance (blocks : List IlBlock) (successors : List IlBlockId) :
    Decidable (GraphInRange blocks successors) :=
  decidable_of_iff
    ((∀ block ∈ blocks, block.successors.start ≤ block.successors.stop ∧
      block.successors.stop ≤ successors.length) ∧
      ∀ block ∈ blocks, ∀ target ∈ block.successors.slice successors, target < blocks.length)
    ⟨fun h => ⟨h.1, h.2⟩, fun h => ⟨h.ranges, h.targets⟩⟩

/-- The number of successor entries of all blocks, a pool entry that two blocks share counted
twice. -/
def edgeCount (blocks : List IlBlock) : Nat := (blocks.map (fun block => block.successors.len)).sum

section

variable {blocks : List IlBlock} {successors : List IlBlockId} {a b : IlBlockId}

theorem mem_of_mem_slice {α : Type} {range : IlIndexRange} {values : List α} {x : α}
    (mem : x ∈ range.slice values) : x ∈ values :=
  mem_of_mem_drop (mem_of_mem_take mem)

theorem Edge.source_lt (edge : Edge blocks successors a b) : a < blocks.length := by
  unfold Edge successorsFor at edge
  split at edge
  · simp at edge
  · exact Lib.lt_of_getElem? ‹_›

theorem Edge.target_lt (inRange : GraphInRange blocks successors)
    (edge : Edge blocks successors a b) : b < blocks.length := by
  unfold Edge successorsFor at edge
  split at edge
  · simp at edge
  · exact inRange.targets _ (mem_of_getElem? ‹_›) b edge

theorem Reaches.lt (inRange : GraphInRange blocks successors) {entry : IlBlockId}
    (entryLt : entry < blocks.length) (reached : Lib.Reaches (Edge blocks successors) entry b) :
    b < blocks.length :=
  reached.mem_of_closed (S := (· < blocks.length)) entryLt
    fun _ _ _ edge => edge.target_lt inRange

end

/-- `IlBlockPredecessors` (`graph.rs:559-561`). -/
structure IlBlockPredecessors where
  predecessors : IlCsr IlBlockId

namespace IlBlockPredecessors

/-- The entries of `IlBlockPredecessors::new`: each edge, under its target. -/
def entries (blocks : List IlBlock) (successors : List IlBlockId) : List (Nat × IlBlockId) :=
  blocks.zipIdx.flatMap fun (block, index) =>
    (block.successors.slice successors).map fun successor => (successor, index)

/-- `IlBlockPredecessors::new` (`graph.rs:558-574`); the first `expect` is on the number of
blocks, the second one on the number of edges. -/
def new (blocks : List IlBlock) (successors : List IlBlockId) : Option IlBlockPredecessors :=
  if blocks.length ≤ u32Max then
    (IlCsr.fromEntries blocks.length (entries blocks successors)).map .mk
  else none

/-- `IlBlockPredecessors::predecessors_for` (`graph.rs:581-583`). -/
def predecessorsFor (index : IlBlockPredecessors) (block : IlBlockId) : List IlBlockId :=
  (index.predecessors.checkedRow block).getD []

variable {blocks : List IlBlock} {successors : List IlBlockId}

theorem mem_entries {target source : IlBlockId} :
    (target, source) ∈ entries blocks successors ↔ Edge blocks successors source target := by
  simp only [entries, mem_flatMap, mem_map, Prod.mk.injEq, Prod.exists, mem_zipIdx_iff_getElem?]
  unfold Edge successorsFor
  constructor
  · rintro ⟨block, index, found, target', mem, rfl, rfl⟩
    rw [found]
    exact mem
  · intro edge
    split at edge
    · simp at edge
    · rename_i block found
      exact ⟨block, source, found, target, edge, rfl, rfl⟩

theorem length_entries (inRange : GraphInRange blocks successors) :
    (entries blocks successors).length = edgeCount blocks := by
  have general : ∀ (blocks : List IlBlock) (start : Nat),
      (∀ block ∈ blocks, block.successors.stop ≤ successors.length) →
      ((blocks.zipIdx start).flatMap fun (block, index) =>
        (block.successors.slice successors).map fun successor => (successor, index)).length =
      (blocks.map (fun block => block.successors.len)).sum := by
    intro blocks
    induction blocks with
    | nil => intros; rfl
    | cons block rest ih =>
      intro start within
      simp only [zipIdx_cons, flatMap_cons, length_append, length_map, map_cons, sum_cons]
      rw [ih (start + 1) (fun other mem => within other (.tail _ mem)),
        IlIndexRange.length_slice (within block (.head _))]
  exact general blocks 0 fun block mem => (inRange.ranges block mem).2

/-- The predecessors of a block are the sources of its incoming edges. -/
theorem new_some (inRange : GraphInRange blocks successors) (fits : blocks.length ≤ u32Max)
    (small : edgeCount blocks ≤ u32Max) :
    ∃ index, new blocks successors = some index ∧
      ∀ block source, source ∈ index.predecessorsFor block ↔
        Edge blocks successors source block := by
  have rows : ∀ entry ∈ entries blocks successors, entry.1 < blocks.length := by
    rintro ⟨target, source⟩ mem
    exact (mem_entries.mp mem).target_lt inRange
  obtain ⟨csr, run, holds⟩ := IlCsr.fromEntries_some rows
    (by rw [length_entries inRange]; exact small)
  refine ⟨⟨csr⟩, by rw [new, if_pos fits, run]; rfl, fun block source => ?_⟩
  rw [predecessorsFor, holds.checkedRow_getD rows, IlCsr.mem_rowOf, mem_entries]

/-- A graph with more edges than a `u32` counts has no predecessor table. -/
theorem new_none (inRange : GraphInRange blocks successors) (large : u32Max < edgeCount blocks) :
    new blocks successors = none := by
  have rows : ∀ entry ∈ entries blocks successors, entry.1 < blocks.length := by
    rintro ⟨target, source⟩ mem
    exact (mem_entries.mp mem).target_lt inRange
  obtain ⟨error, run⟩ := IlCsr.tryFromEntries_overflow rows
    (by rw [length_entries inRange]; exact large)
  unfold new IlCsr.fromEntries
  rw [run]
  split <;> rfl

end IlBlockPredecessors

end Fugue.Il
