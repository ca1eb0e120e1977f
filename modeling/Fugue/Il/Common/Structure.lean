import Fugue.Il.Common.Graph
import Fugue.Ir.Address
import Fugue.Lib.Check

/-!
# Graphs, spans and their structure checks

`IlGraph` (`fugue-core/src/il/common/graph.rs`), the spans that trace operations back to their
origin (`span.rs`), and `verify_structure` (`artefact.rs`). `verifyStructure_eq_ok` reads a
successful check as a property of the graph: blocks within the tables, no successor twice, and
operation ranges that do not overlap.
-/

namespace Fugue.Il

open Fugue.Lib Fugue.Ir List
open IlIndexRange (checkedSlice_eq_ok verifyBounds_eq_ok)

/-- `usize::MAX`. -/
def usizeMax : Nat := 2 ^ 64 - 1

/-- `$name::value` (`id.rs:37-39`): the raw identifier that errors name. -/
def idValue (id : Nat) : Nat := id + 1

/-- `IlEdgeKinds` (`graph.rs:20-27`), the flags of the bit set. -/
structure IlEdgeKinds where
  computed : Bool
  fallThrough : Bool
  taken : Bool
  unconditional : Bool
  deriving DecidableEq, Repr

/-- The union of two bit sets. -/
def IlEdgeKinds.union (left right : IlEdgeKinds) : IlEdgeKinds :=
  ⟨left.computed || right.computed, left.fallThrough || right.fallThrough,
    left.taken || right.taken, left.unconditional || right.unconditional⟩

/-- `IlGraph` (`graph.rs:104-109`). -/
structure IlGraph where
  blocks : List IlBlock
  successors : List IlBlockId
  successorKinds : List IlEdgeKinds
  blockSources : List Address
  deriving DecidableEq, Repr

/-- `StructureError` (`verify.rs:8-30`), the variants of the modelled functions. -/
inductive StructureError where
  | blockSourceCount (expected found : Nat)
  | duplicateSuccessor (block successor : Nat)
  | edgeKindCount (expected found : Nat)
  | il (error : IlError)
  | overlappingBlockOps (block operation : Nat)
  | overlappingParentSpan (node : Nat)
  | overlappingSourceSpan (node : Nat)
  deriving DecidableEq, Repr

namespace IlGraph

/-- `entry_block` (`graph.rs:313-321`) of a graph with blocks. -/
def entryBlock (graph : IlGraph) : Option IlBlockId :=
  if graph.blocks.isEmpty then none
  else some ((graph.blocks.findIdx? IlBlock.isEntry).getD 0)

/-- One block of `op_blocks`: its operations get its id. -/
def setOpBlock (entries : List (Option IlBlockId)) (block : IlBlock × IlBlockId) :
    List (Option IlBlockId) :=
  entries.zipIdx.map fun (entry, operation) =>
    if block.1.ops.containsIndex operation then some block.2 else entry

/-- `op_blocks` (`graph.rs:290-302`); the `expect` is on the number of blocks. -/
def opBlocks (graph : IlGraph) (operationCount : Nat) : Option (List (Option IlBlockId)) :=
  if graph.blocks.length ≤ u32Max then
    some (graph.blocks.zipIdx.foldl setOpBlock (List.replicate operationCount none))
  else none

/-- `verify_successors` (`graph.rs:388-405`). -/
def verifySuccessors (graph : IlGraph) (block : IlBlock) (blockId : IlBlockId) :
    Except StructureError Unit := do
  let successors ← (block.successors.checkedSlice graph.successors).mapError .il
  successors.zipIdx.forM fun (successor, index) =>
    ensure (!(successors.take index).contains successor)
      (.duplicateSuccessor (idValue blockId) (idValue successor))

/-- The loop over the blocks in `verify` (`graph.rs:335-351`). -/
def verifyBlock (graph : IlGraph) (block : IlBlock) (index : Nat) :
    Except StructureError Unit := do
  let blockId ← (tryFromIndex "block" index).mapError .il
  (block.ops.verifyBounds usizeMax).mapError .il
  graph.verifySuccessors block blockId
  let successors ← (block.successors.checkedSlice graph.successors).mapError .il
  successors.forM fun successor => ensure (decide (successor < graph.blocks.length))
    (.il (.rangeOutOfBounds successor graph.blocks.length))

/-- The operation ranges that are not empty, with their blocks (`graph.rs:340-342`). -/
def operationRanges (graph : IlGraph) : List (IlIndexRange × IlBlockId) :=
  (graph.blocks.zipIdx.map fun (block, index) => (block.ops, index)).filter
    fun entry => !entry.1.isEmpty

/-- The loop over the sorted operation ranges (`graph.rs:354-363`). -/
def verifyDisjoint (previousEnd : Nat) : List (IlIndexRange × IlBlockId) →
    Except StructureError Unit
  | [] => .ok ()
  | (operations, block) :: rest => do
    ensure (decide (previousEnd ≤ operations.start))
      (.overlappingBlockOps (idValue block) operations.start)
    verifyDisjoint operations.stop rest

/-- `verify` (`graph.rs:332-379`). -/
def verify (graph : IlGraph) : Except StructureError Unit := do
  graph.blocks.zipIdx.forM fun (block, index) => graph.verifyBlock block index
  verifyDisjoint 0 (graph.operationRanges.insertionSort fun a b => a.1.start ≤ b.1.start)
  ensure (graph.successorKinds.length == graph.successors.length)
    (.edgeKindCount graph.successors.length graph.successorKinds.length)
  ensure (graph.blockSources.isEmpty || graph.blockSources.length == graph.blocks.length)
    (.blockSourceCount graph.blocks.length graph.blockSources.length)

/-- `verify_node_bounds` (`graph.rs:381-387`). -/
def verifyNodeBounds (graph : IlGraph) (nodeCount : Nat) : Except StructureError Unit :=
  graph.blocks.forM fun block => (block.ops.verifyBounds nodeCount).mapError .il

end IlGraph

/-- `IlSourceSpan` (`span.rs:28-33`). -/
structure IlSourceSpan where
  destination : IlIndexRange
  address : Address
  firstSourceIndex : Nat
  sourceCount : Nat
  deriving DecidableEq, Repr

/-- `IlParentSpan` (`span.rs:175-178`). -/
structure IlParentSpan where
  destination : IlIndexRange
  source : IlIndexRange
  deriving DecidableEq, Repr

/-- The common loop of `IlSourceSpan::verify` and `IlParentSpan::verify`: `check` is made before
the overlap of the destinations is. -/
def verifySpans {Span : Type} (destination : Span → IlIndexRange)
    (check : Span → Except StructureError Unit) (overlap : Nat → StructureError) :
    Nat → List Span → Except StructureError Unit
  | _, [] => .ok ()
  | previousEnd, span :: spans => do
    check span
    ensure (decide (previousEnd ≤ (destination span).start)) (overlap (destination span).start)
    verifySpans destination check overlap (destination span).stop spans

/-- `IlSourceSpan::verify` (`span.rs:127-143`). -/
def IlSourceSpan.verify (spans : List IlSourceSpan) (nodeCount : Nat) :
    Except StructureError Unit :=
  verifySpans destination
    (fun span => (span.destination.verifyBounds nodeCount).mapError .il) .overlappingSourceSpan 0
    spans

/-- `IlParentSpan::verify` (`span.rs:214-231`). -/
def IlParentSpan.verify (spans : List IlParentSpan) (nodeCount : Nat) :
    Except StructureError Unit :=
  verifySpans destination (fun span => do
    (span.destination.verifyBounds nodeCount).mapError .il
    (span.source.verifyBounds usizeMax).mapError .il) .overlappingParentSpan 0 spans

/-- `ControlFlowIl::verify_structure` (`artefact.rs:90-108`) with parent spans. -/
def verifyStructure (graph : IlGraph) (sourceSpans : List IlSourceSpan)
    (parentSpans : List IlParentSpan) (nodeCount : Nat) : Except StructureError Unit := do
  graph.verify
  graph.verifyNodeBounds nodeCount
  IlSourceSpan.verify sourceSpans nodeCount
  IlParentSpan.verify parentSpans nodeCount

namespace IlGraph

/-- The ranges have no index in common, or one of them is empty. -/
def Apart (left right : IlIndexRange) : Prop :=
  left.stop ≤ left.start ∨ right.stop ≤ right.start ∨ left.stop ≤ right.start ∨
    right.stop ≤ left.start

/-- What `verify` makes sure of. -/
structure WellFormed (graph : IlGraph) : Prop where
  blocks_le : graph.blocks.length ≤ u32Max
  ops : ∀ block ∈ graph.blocks, block.ops.start ≤ block.ops.stop ∧ block.ops.stop ≤ usizeMax
  inRange : GraphInRange graph.blocks graph.successors
  distinct : ∀ block ∈ graph.blocks, (block.successors.slice graph.successors).Nodup
  apart : graph.blocks.Pairwise fun a b => Apart a.ops b.ops
  kinds : graph.successorKinds.length = graph.successors.length
  sources : graph.blockSources = [] ∨ graph.blockSources.length = graph.blocks.length

variable {graph : IlGraph}

theorem verifySuccessors_eq_ok {block : IlBlock} {blockId : IlBlockId} :
    graph.verifySuccessors block blockId = .ok () ↔
      (block.successors.start ≤ block.successors.stop ∧
        block.successors.stop ≤ graph.successors.length) ∧
      (block.successors.slice graph.successors).Nodup := by
  unfold verifySuccessors
  rw [bind_eq_ok]
  have nodup_iff : (block.successors.slice graph.successors).Nodup ↔
      ∀ (i : Nat) (x : IlBlockId), (block.successors.slice graph.successors)[i]? = some x →
        x ∉ (block.successors.slice graph.successors).take i := by
    rw [List.Nodup, pairwise_iff_getElem]
    constructor
    · intro apart i x found mem
      obtain ⟨lt, rfl⟩ := List.getElem?_eq_some_iff.mp found
      obtain ⟨j, jLt, eq⟩ := getElem_of_mem mem
      rw [getElem_take] at eq
      rw [length_take] at jLt
      exact apart j i (by omega) lt (by omega) eq
    · intro absent i j iLt jLt lt eq
      refine absent j _ (getElem?_eq_getElem jLt) ?_
      rw [← eq]
      exact mem_take_iff_getElem.mpr ⟨i, by omega, rfl⟩
  constructor
  · rintro ⟨successors, slice, checks⟩
    rw [mapError_eq_ok, checkedSlice_eq_ok] at slice
    obtain ⟨bounds, rfl⟩ := slice
    refine ⟨bounds, nodup_iff.mpr fun i x found => ?_⟩
    simpa using forM_zipIdx_eq_ok.mp checks i x found
  · rintro ⟨bounds, nodup⟩
    refine ⟨block.successors.slice graph.successors, ?_, ?_⟩
    · rw [mapError_eq_ok, checkedSlice_eq_ok]
      exact ⟨bounds, rfl⟩
    · refine forM_zipIdx_eq_ok.mpr fun i x found => ?_
      simpa using nodup_iff.mp nodup i x found

theorem verifyBlock_eq_ok {block : IlBlock} {index : Nat} :
    graph.verifyBlock block index = .ok () ↔
      index + 1 ≤ u32Max ∧ (block.ops.start ≤ block.ops.stop ∧ block.ops.stop ≤ usizeMax) ∧
      (block.successors.start ≤ block.successors.stop ∧
        block.successors.stop ≤ graph.successors.length) ∧
      (block.successors.slice graph.successors).Nodup ∧
      ∀ target ∈ block.successors.slice graph.successors, target < graph.blocks.length := by
  unfold verifyBlock
  rw [bind_eq_ok]
  constructor
  · rintro ⟨id, idEq, rest⟩
    obtain ⟨rfl, fits⟩ := tryFromIndex_eq_ok (mapError_eq_ok.mp idEq)
    rw [andThen_eq_ok, andThen_eq_ok, mapError_eq_ok, verifySuccessors_eq_ok, bind_eq_ok] at rest
    obtain ⟨ops, ⟨bounds, nodup⟩, successors, slice, targets⟩ := rest
    rw [mapError_eq_ok, checkedSlice_eq_ok] at slice
    obtain ⟨-, rfl⟩ := slice
    refine ⟨fits, verifyBounds_eq_ok.mp ops, bounds, nodup, fun target mem => ?_⟩
    simpa using forM_eq_ok.mp targets target mem
  · rintro ⟨fits, ops, bounds, nodup, targets⟩
    refine ⟨index, mapError_eq_ok.mpr (tryFromIndex_ok fits), ?_⟩
    rw [andThen_eq_ok, andThen_eq_ok, mapError_eq_ok, verifySuccessors_eq_ok, bind_eq_ok]
    refine ⟨verifyBounds_eq_ok.mpr ops, ⟨bounds, nodup⟩,
      block.successors.slice graph.successors, ?_, ?_⟩
    · rw [mapError_eq_ok, checkedSlice_eq_ok]
      exact ⟨bounds, rfl⟩
    · exact forM_eq_ok.mpr fun target mem => by simpa using targets target mem

/-- Ranges in the order of their starts that follow one another are apart, and the other way
around. -/
theorem verifyDisjoint_eq_ok : ∀ {ranges : List (IlIndexRange × IlBlockId)} {previousEnd : Nat},
    (∀ entry ∈ ranges, entry.1.start < entry.1.stop) →
    ranges.Pairwise (fun a b => a.1.start ≤ b.1.start) →
    (verifyDisjoint previousEnd ranges = .ok () ↔ (∀ entry ∈ ranges, previousEnd ≤ entry.1.start) ∧
        ranges.Pairwise fun a b => Apart a.1 b.1)
  | [], previousEnd, _, _ => by simp [verifyDisjoint]
  | (operations, block) :: rest, previousEnd, nonempty, sorted => by
    obtain ⟨above, sorted⟩ := pairwise_cons.mp sorted
    obtain ⟨headNonempty, restNonempty⟩ := forall_mem_cons.mp nonempty
    rw [verifyDisjoint, andThen_eq_ok, ensure_eq_ok, decide_eq_true_eq,
      verifyDisjoint_eq_ok restNonempty sorted, pairwise_cons, forall_mem_cons]
    dsimp only at above headNonempty ⊢
    constructor
    · rintro ⟨le, after, apart⟩
      refine ⟨⟨le, fun entry mem => ?_⟩, fun entry mem => ?_, apart⟩
      · have := above entry mem
        omega
      · exact .inr (.inr (.inl (after entry mem)))
    · rintro ⟨⟨le, -⟩, apart, rest⟩
      refine ⟨le, fun entry mem => ?_, rest⟩
      have := above entry mem
      have := restNonempty entry mem
      rcases apart entry mem with empty | empty | after | before
      · omega
      · omega
      · exact after
      · omega

theorem operationRanges_pairwise :
    graph.operationRanges.Pairwise (fun a b => Apart a.1 b.1) ↔
      graph.blocks.Pairwise fun a b => Apart a.ops b.ops := by
  have blocks : graph.blocks = graph.blocks.zipIdx.map Prod.fst := by simp
  conv_rhs => rw [blocks]
  rw [operationRanges, pairwise_filter, pairwise_map, pairwise_map]
  refine List.Pairwise.iff_of_mem fun {a b} memA memB => ?_
  unfold Apart IlIndexRange.isEmpty
  simp only [Bool.not_eq_true', beq_eq_false_iff_ne, ne_eq]
  constructor
  · intro apart
    by_cases emptyA : a.1.ops.start = a.1.ops.stop
    · exact .inl (by omega)
    · by_cases emptyB : b.1.ops.start = b.1.ops.stop
      · exact .inr (.inl (by omega))
      · exact apart emptyA emptyB
  · intro apart _ _
    exact apart

theorem Apart.symm {left right : IlIndexRange} (apart : Apart left right) : Apart right left := by
  unfold Apart at *
  omega

theorem verify_eq_ok : graph.verify = .ok () ↔ graph.WellFormed := by
  unfold verify
  rw [andThen_eq_ok, andThen_eq_ok, andThen_eq_ok, ensure_eq_ok, ensure_eq_ok, forM_zipIdx_eq_ok]
  have sorted := pairwise_insertionSort
    (fun a b : IlIndexRange × IlBlockId => a.1.start ≤ b.1.start) graph.operationRanges
  have perm := perm_insertionSort
    (fun a b : IlIndexRange × IlBlockId => a.1.start ≤ b.1.start) graph.operationRanges
  have apart_iff : (∀ block ∈ graph.blocks, block.ops.start ≤ block.ops.stop) →
      (verifyDisjoint 0 (graph.operationRanges.insertionSort fun a b =>
        a.1.start ≤ b.1.start) = .ok () ↔
        graph.blocks.Pairwise fun a b => Apart a.ops b.ops) := by
    intro ops
    rw [verifyDisjoint_eq_ok ?_ sorted, perm.pairwise_iff fun h => h.symm,
      operationRanges_pairwise]
    · simp
    · intro entry mem
      obtain ⟨mem, notEmpty⟩ := mem_filter.mp (perm.mem_iff.mp mem)
      obtain ⟨⟨block, index⟩, blockMem, rfl⟩ := mem_map.mp mem
      have le := ops block (fst_mem_of_mem_zipIdx blockMem)
      simp only [IlIndexRange.isEmpty, Bool.not_eq_true', beq_eq_false_iff_ne, ne_eq] at notEmpty
      exact Nat.lt_of_le_of_ne le notEmpty
  constructor
  · rintro ⟨blocks, disjoint, kinds, sources⟩
    have block := fun i block found => verifyBlock_eq_ok.mp (blocks i block found)
    have each : ∀ block ∈ graph.blocks, ∃ i, graph.blocks[i]? = some block := fun block mem =>
      getElem?_of_mem mem
    refine ⟨length_le_of_index fun i x found => (block i x found).1, ?_, ⟨?_, ?_⟩, ?_, ?_, ?_, ?_⟩
    · intro b mem
      obtain ⟨i, found⟩ := each b mem
      exact (block i b found).2.1
    · intro b mem
      obtain ⟨i, found⟩ := each b mem
      exact (block i b found).2.2.1
    · intro b mem
      obtain ⟨i, found⟩ := each b mem
      exact (block i b found).2.2.2.2
    · intro b mem
      obtain ⟨i, found⟩ := each b mem
      exact (block i b found).2.2.2.1
    · refine (apart_iff ?_).mp disjoint
      intro b mem
      obtain ⟨i, found⟩ := each b mem
      exact (block i b found).2.1.1
    · simpa using kinds
    · simpa using sources
  · rintro ⟨fits, ops, inRange, distinct, apart, kinds, sources⟩
    refine ⟨fun i block found => ?_, (apart_iff fun b mem => (ops b mem).1).mpr apart,
      by simpa using kinds, by simpa using sources⟩
    have mem := mem_of_getElem? found
    have lt := lt_of_getElem? found
    exact verifyBlock_eq_ok.mpr ⟨by omega, ops block mem, inRange.ranges block mem,
      distinct block mem, inRange.targets block mem⟩

theorem verifyNodeBounds_eq_ok {nodeCount : Nat} : graph.verifyNodeBounds nodeCount = .ok () ↔
    ∀ block ∈ graph.blocks, block.ops.start ≤ block.ops.stop ∧ block.ops.stop ≤ nodeCount := by
  unfold verifyNodeBounds
  rw [forM_eq_ok]
  refine forall₂_congr fun block _ => ?_
  rw [mapError_eq_ok, verifyBounds_eq_ok]

/-- The operation lies in the range of the block. -/
def InBlock (graph : IlGraph) (operation : Nat) (block : IlBlockId) : Prop :=
  ∃ record, graph.blocks[block]? = some record ∧ record.ops.start ≤ operation ∧
    operation < record.ops.stop

/-- The ranges of two blocks have no operation in common. -/
theorem WellFormed.inBlock_unique (wf : graph.WellFormed) {operation : Nat}
    {left right : IlBlockId} (inLeft : graph.InBlock operation left)
    (inRight : graph.InBlock operation right) : left = right := by
  obtain ⟨a, foundA, lowA, highA⟩ := inLeft
  obtain ⟨b, foundB, lowB, highB⟩ := inRight
  obtain ⟨ltA, rfl⟩ := List.getElem?_eq_some_iff.mp foundA
  obtain ⟨ltB, rfl⟩ := List.getElem?_eq_some_iff.mp foundB
  have apart := pairwise_iff_getElem.mp wf.apart
  unfold Apart at apart
  rcases lt_trichotomy left right with lt | eq | gt
  · have := apart left right ltA ltB lt
    omega
  · exact eq
  · have := apart right left ltB ltA gt
    omega

/-- The fold of `op_blocks`: an entry is the last block that has the operation, or what it was
before. -/
theorem foldl_setOpBlock_spec : ∀ (blocks : List (IlBlock × IlBlockId))
    (entries : List (Option IlBlockId)),
    (blocks.foldl setOpBlock entries).length = entries.length ∧
    ∀ operation entry, (blocks.foldl setOpBlock entries)[operation]? = some entry →
      (entries[operation]? = some entry ∧
        ∀ block ∈ blocks, block.1.ops.containsIndex operation = false) ∨
      ∃ block ∈ blocks, block.1.ops.containsIndex operation = true ∧ entry = some block.2
  | [], entries => by simp
  | block :: blocks, entries => by
    obtain ⟨length, spec⟩ := foldl_setOpBlock_spec blocks (setOpBlock entries block)
    have lengthStep : (setOpBlock entries block).length = entries.length := by
      simp [setOpBlock]
    refine ⟨length.trans lengthStep, fun operation entry found => ?_⟩
    rcases spec operation entry found with ⟨before, absent⟩ | ⟨other, mem, has, eq⟩
    · unfold setOpBlock at before
      rw [getElem?_map, Option.map_eq_some_iff] at before
      obtain ⟨⟨old, index⟩, at_, eq⟩ := before
      rw [getElem?_zipIdx] at at_
      obtain ⟨old', oldFound, pairEq⟩ := Option.map_eq_some_iff.mp at_
      cases pairEq
      simp only [zero_add] at eq
      split at eq
      · rename_i has
        exact .inr ⟨block, .head _, has, eq.symm⟩
      · rename_i has
        refine .inl ⟨by rw [oldFound, eq], forall_mem_cons.mpr ⟨?_, absent⟩⟩
        simpa using has
    · exact .inr ⟨other, .tail _ mem, has, eq⟩

theorem WellFormed.opBlocks_spec (wf : graph.WellFormed) (count : Nat) :
    ∃ entries, graph.opBlocks count = some entries ∧ entries.length = count ∧
      ∀ operation, operation < count →
        ∃ entry, entries[operation]? = some entry ∧
          ∀ block, entry = some block ↔ graph.InBlock operation block := by
  obtain ⟨length, spec⟩ := foldl_setOpBlock_spec graph.blocks.zipIdx (List.replicate count none)
  rw [length_replicate] at length
  refine ⟨_, by rw [opBlocks, if_pos wf.blocks_le], length, fun operation lt => ?_⟩
  have inBlock_iff : ∀ record block, (record, block) ∈ graph.blocks.zipIdx →
      (record.ops.containsIndex operation = true ↔ graph.InBlock operation block) := by
    intro record block mem
    have found := mem_zipIdx_iff_getElem?.mp mem
    unfold InBlock IlIndexRange.containsIndex
    rw [found]
    simp
  refine ⟨_, getElem?_eq_getElem (by rw [length]; exact lt), fun block => ?_⟩
  rcases spec operation _ (getElem?_eq_getElem (by rw [length]; exact lt)) with
    ⟨before, absent⟩ | ⟨⟨record, block'⟩, mem, has, eq⟩
  · rw [getElem?_replicate_of_lt lt] at before
    rw [← Option.some.inj before]
    refine ⟨fun h => absurd h (by simp), fun ⟨record, found, low, high⟩ => ?_⟩
    have := absent (record, block) (mem_zipIdx_iff_getElem?.mpr found)
    simp [IlIndexRange.containsIndex, low, high] at this
  · rw [eq]
    have inBlock := (inBlock_iff record block' mem).mp has
    constructor
    · intro h
      cases h
      exact inBlock
    · intro other
      rw [wf.inBlock_unique other inBlock]

end IlGraph

/-- Ranges one after another, from an index on. -/
def Sequential : Nat → List IlIndexRange → Prop
  | _, [] => True
  | previousEnd, range :: ranges => previousEnd ≤ range.start ∧ Sequential range.stop ranges

theorem verifySpans_eq_ok {Span : Type} {destination : Span → IlIndexRange}
    {check : Span → Except StructureError Unit} {overlap : Nat → StructureError} :
    ∀ {spans : List Span} {previousEnd : Nat},
      verifySpans destination check overlap previousEnd spans = .ok () ↔
        (∀ span ∈ spans, check span = .ok ()) ∧ Sequential previousEnd (spans.map destination)
  | [], _ => by simp [verifySpans, Sequential]
  | span :: spans, previousEnd => by
    rw [verifySpans, andThen_eq_ok, andThen_eq_ok, ensure_eq_ok, decide_eq_true_eq,
      verifySpans_eq_ok, forall_mem_cons, map_cons, Sequential]
    tauto

theorem IlSourceSpan.verify_eq_ok {spans : List IlSourceSpan} {nodeCount : Nat} :
    IlSourceSpan.verify spans nodeCount = .ok () ↔
      (∀ span ∈ spans, span.destination.start ≤ span.destination.stop ∧
        span.destination.stop ≤ nodeCount) ∧ Sequential 0 (spans.map destination) := by
  rw [verify, verifySpans_eq_ok]
  refine and_congr_left fun _ => forall₂_congr fun span _ => ?_
  rw [mapError_eq_ok, verifyBounds_eq_ok]

theorem IlParentSpan.verify_eq_ok {spans : List IlParentSpan} {nodeCount : Nat} :
    IlParentSpan.verify spans nodeCount = .ok () ↔
      (∀ span ∈ spans, (span.destination.start ≤ span.destination.stop ∧
        span.destination.stop ≤ nodeCount) ∧
        span.source.start ≤ span.source.stop ∧ span.source.stop ≤ usizeMax) ∧
      Sequential 0 (spans.map destination) := by
  rw [verify, verifySpans_eq_ok]
  refine and_congr_left fun _ => forall₂_congr fun span _ => ?_
  rw [andThen_eq_ok, mapError_eq_ok, mapError_eq_ok, verifyBounds_eq_ok, verifyBounds_eq_ok]

theorem verifyStructure_eq_ok {graph : IlGraph} {sourceSpans : List IlSourceSpan}
    {parentSpans : List IlParentSpan} {nodeCount : Nat} :
    verifyStructure graph sourceSpans parentSpans nodeCount = .ok () ↔
      graph.WellFormed ∧
      (∀ block ∈ graph.blocks, block.ops.start ≤ block.ops.stop ∧ block.ops.stop ≤ nodeCount) ∧
      IlSourceSpan.verify sourceSpans nodeCount = .ok () ∧
      IlParentSpan.verify parentSpans nodeCount = .ok () := by
  rw [verifyStructure, andThen_eq_ok, andThen_eq_ok, andThen_eq_ok, IlGraph.verify_eq_ok,
    IlGraph.verifyNodeBounds_eq_ok]

end Fugue.Il
