import Fugue.Il.Common.Mapper

/-!
# Building graphs

`IlGraphBuilder` (`fugue-core/src/il/common/graph.rs:408-556`), the way to a graph other than the
empty one. `Assembled` is what holds of every graph that it builds.
-/

namespace Fugue.Il

open Fugue.Lib Fugue.Ir List

/-- `IlPool::append` (`pool.rs:348-354`): the pool keeps the values when the range does not fit. -/
def poolAppend {α : Type} (pool values : List α) : Except IlError IlIndexRange × List α :=
  (IlIndexRange.new pool.length (pool ++ values).length, pool ++ values)

/-- `IlGraphBuilderBlock` (`graph.rs:551-556`). -/
structure IlGraphBuilderBlock where
  operations : IlIndexRange
  properties : IlBlockProperties
  successors : List (IlBlockId × IlEdgeKinds)
  deriving DecidableEq, Repr

/-- `IlGraphBuilder` (`graph.rs:410-414`). -/
structure IlGraphBuilder where
  blocks : List IlGraphBuilderBlock
  blockSources : Option (List Address)
  deriving DecidableEq, Repr

namespace IlGraphBuilder

/-- `new` (`graph.rs:417-419`). -/
def new : IlGraphBuilder := ⟨[], none⟩

variable (builder : IlGraphBuilder) (operations : IlIndexRange) (properties : IlBlockProperties)

/-- `try_push_block` (`graph.rs:514-527`). -/
def tryPushBlock : Except IlError (IlBlockId × IlGraphBuilder) := do
  let id ← tryFromIndex "block" builder.blocks.length
  return (id, { builder with blocks := builder.blocks ++ [⟨operations, properties, []⟩] })

/-- `push_block` (`graph.rs:421-431`). -/
def pushBlock : Except IlError (IlBlockId × IlGraphBuilder) := do
  ensure builder.blockSources.isNone .inconsistentBlockSources
  builder.tryPushBlock operations properties

/-- `push_block_with_source` (`graph.rs:433-454`). -/
def pushBlockWithSource (source : Address) :
    Except IlError (IlBlockId × IlGraphBuilder) := do
  ensure (builder.blockSources.isSome || builder.blocks.isEmpty) .inconsistentBlockSources
  let (block, pushed) ← builder.tryPushBlock operations properties
  return (block, { pushed with blockSources := some (builder.blockSources.getD [] ++ [source]) })

/-- The kinds of a successor are joined with those it has, or the successor is new
(`graph.rs:475-483`). -/
def addKinds (successors : List (IlBlockId × IlEdgeKinds)) (successor : IlBlockId)
    (kinds : IlEdgeKinds) : List (IlBlockId × IlEdgeKinds) :=
  match successors with
  | [] => [(successor, kinds)]
  | (target, existing) :: rest =>
    if target = successor then (target, existing.union kinds) :: rest
    else (target, existing) :: addKinds rest successor kinds

/-- `add_successor` (`graph.rs:456-486`). -/
def addSuccessor (block successor : IlBlockId) (kinds : IlEdgeKinds) :
    Except IlError IlGraphBuilder := do
  ensure (decide (successor < builder.blocks.length))
    (.rangeOutOfBounds successor builder.blocks.length)
  let record ← okOr builder.blocks[block]? (.rangeOutOfBounds block builder.blocks.length)
  return { builder with
    blocks := builder.blocks.set block
      { record with successors := addKinds record.successors successor kinds } }

/-- The loop of `verify_op_ranges` over the sorted ranges (`graph.rs:538-545`). -/
def verifySorted (operationCount previousEnd : Nat) : List IlIndexRange → Except IlError Unit
  | [] => .ok ()
  | range :: ranges => do
    range.verifyBounds operationCount
    ensure (decide (previousEnd ≤ range.start)) (.overlappingRanges range.start previousEnd)
    verifySorted operationCount range.stop ranges

/-- `verify_op_ranges` (`graph.rs:529-548`). -/
def verifyOpRanges (operationCount : Nat) : Except IlError Unit :=
  verifySorted operationCount 0
    (((builder.blocks.map IlGraphBuilderBlock.operations).filter
      fun range => !range.isEmpty).insertionSort fun a b => a.start ≤ b.start)

/-- The loop of `build` over the blocks (`graph.rs:495-504`), with the pool of the successors. -/
def buildBlocks (pool : List IlBlockId) :
    List IlGraphBuilderBlock → Except IlError (List IlBlock × List IlBlockId)
  | [] => .ok ([], pool)
  | block :: blocks => do
    let (range, pool) := poolAppend pool (block.successors.map Prod.fst)
    let successors ← range
    let (rest, pool) ← buildBlocks pool blocks
    return (⟨block.operations, successors, block.properties⟩ :: rest, pool)

/-- `build` (`graph.rs:488-512`). -/
def build (operationCount : Nat) : Except IlError IlGraph := do
  builder.verifyOpRanges operationCount
  let (blocks, successors) ← buildBlocks [] builder.blocks
  return {
    blocks
    successors
    successorKinds := builder.blocks.flatMap fun block => block.successors.map Prod.snd
    blockSources := builder.blockSources.getD [] }

/-- The builders that calls of its functions lead to. -/
inductive Made : IlGraphBuilder → Prop
  | new : Made .new
  | pushBlock {builder pushed : IlGraphBuilder} {operations : IlIndexRange}
    {properties : IlBlockProperties} {block : IlBlockId} (made : Made builder)
    (call : builder.pushBlock operations properties = .ok (block, pushed)) : Made pushed
  | pushBlockWithSource {builder pushed : IlGraphBuilder} {operations : IlIndexRange}
    {properties : IlBlockProperties} {source : Address} {block : IlBlockId} (made : Made builder)
    (call : builder.pushBlockWithSource operations properties source = .ok (block, pushed)) :
    Made pushed
  | addSuccessor {builder added : IlGraphBuilder} {block successor : IlBlockId}
    {kinds : IlEdgeKinds} (made : Made builder)
    (call : builder.addSuccessor block successor kinds = .ok added) : Made added

end IlGraphBuilder

namespace IlGraph

/-- `IlGraph::default`. -/
def default : IlGraph := ⟨[], [], [], []⟩

/-- `set_op_ranges` (`graph.rs:257-274`). -/
def setOpRanges (graph : IlGraph) (ranges : List IlIndexRange) : Except IlError IlGraph := do
  ensure (ranges.length == graph.blocks.length)
    (.graphBlockCountMismatch graph.blocks.length ranges.length)
  return { graph with
    blocks := graph.blocks.zipWith (fun block ops => { block with ops }) ranges }

/-- The graphs that a program can get hold of: the empty one, those of the builder, and those with
other operation ranges. -/
inductive Made : IlGraph → Prop
  | default : Made IlGraph.default
  | build {builder : IlGraphBuilder} {operationCount : Nat} {graph : IlGraph}
    (made : builder.Made) (call : builder.build operationCount = .ok graph) : Made graph
  | setOpRanges {graph moved : IlGraph} {ranges : List IlIndexRange} (made : Made graph)
    (call : graph.setOpRanges ranges = .ok moved) : Made moved
  | remapOpRanges {graph moved : IlGraph} {operationMap : IlIndexMapper} (made : Made graph)
    (call : graph.remapOpRanges operationMap = .ok moved) : Made moved

/-- Every entry of the successor pool is a block, and a `u32` counts the pool. -/
structure Assembled (graph : IlGraph) : Prop where
  targets : ∀ target ∈ graph.successors, target < graph.blocks.length
  successors_le : graph.successors.length ≤ u32Max

end IlGraph

namespace IlGraphBuilder

variable {builder : IlGraphBuilder}

/-- The successors that the builder has are its blocks. -/
def TargetsExist (builder : IlGraphBuilder) : Prop :=
  ∀ block ∈ builder.blocks, ∀ entry ∈ block.successors, entry.1 < builder.blocks.length

theorem tryPushBlock_eq_ok {operations : IlIndexRange} {properties : IlBlockProperties}
    {block : IlBlockId} {pushed : IlGraphBuilder}
    (call : builder.tryPushBlock operations properties = .ok (block, pushed)) :
    pushed = { builder with blocks := builder.blocks ++ [⟨operations, properties, []⟩] } := by
  obtain ⟨id, -, eq⟩ := bind_eq_ok.mp call
  cases eq
  rfl

theorem TargetsExist.push (exist : builder.TargetsExist) {operations : IlIndexRange}
    {properties : IlBlockProperties} {sources : Option (List Address)} :
    TargetsExist ⟨builder.blocks ++ [⟨operations, properties, []⟩], sources⟩ := by
  intro block mem entry entryMem
  rw [length_append]
  rcases mem_append.mp mem with old | new
  · exact Nat.lt_add_right _ (exist block old entry entryMem)
  · rw [mem_singleton.mp new] at entryMem
    cases entryMem

theorem mem_addKinds {successors : List (IlBlockId × IlEdgeKinds)} {successor : IlBlockId}
    {kinds : IlEdgeKinds} {entry : IlBlockId × IlEdgeKinds}
    (mem : entry ∈ addKinds successors successor kinds) :
    entry.1 = successor ∨ ∃ old ∈ successors, old.1 = entry.1 := by
  induction successors with
  | nil =>
    rw [addKinds, mem_singleton] at mem
    exact .inl (by rw [mem])
  | cons head rest ih =>
    rw [addKinds] at mem
    split at mem
    · rename_i same
      rcases mem_cons.mp mem with eq | inRest
      · exact .inl (by rw [eq, same])
      · exact .inr ⟨entry, .tail _ inRest, rfl⟩
    · rcases mem_cons.mp mem with eq | inRest
      · exact .inr ⟨head, .head _, by rw [eq]⟩
      · rcases ih inRest with new | ⟨old, oldMem, eq⟩
        · exact .inl new
        · exact .inr ⟨old, .tail _ oldMem, eq⟩

theorem Made.targetsExist (made : builder.Made) : builder.TargetsExist := by
  induction made with
  | new =>
    intro block mem
    cases mem
  | pushBlock _ call ih =>
    rw [tryPushBlock_eq_ok (andThen_eq_ok.mp call).2]
    exact ih.push
  | pushBlockWithSource _ call ih =>
    obtain ⟨⟨block, pushed⟩, push, eq⟩ := bind_eq_ok.mp (andThen_eq_ok.mp call).2
    cases eq
    rw [tryPushBlock_eq_ok push]
    exact ih.push
  | @addSuccessor builder added block successor kinds _ call ih =>
    obtain ⟨lt, call⟩ := andThen_eq_ok.mp call
    obtain ⟨record, found, eq⟩ := bind_eq_ok.mp call
    cases eq
    rw [okOr_eq_ok] at found
    rw [ensure_eq_ok, decide_eq_true_eq] at lt
    intro other mem entry entryMem
    rw [length_set]
    rcases mem_or_eq_of_mem_set mem with old | eq
    · exact ih other old entry entryMem
    · rw [eq] at entryMem
      rcases mem_addKinds entryMem with new | ⟨old, oldMem, same⟩
      · rw [new]
        exact lt
      · rw [← same]
        exact ih record (mem_of_getElem? found) old oldMem

theorem buildBlocks_eq_ok : ∀ {source : List IlGraphBuilderBlock} {pool pool' : List IlBlockId}
    {blocks : List IlBlock}, buildBlocks pool source = .ok (blocks, pool') →
    pool.length ≤ u32Max →
    blocks.length = source.length ∧ pool'.length ≤ u32Max ∧
      pool' = pool ++ source.flatMap fun block => block.successors.map Prod.fst
  | [], pool, pool', blocks, run, fits => by
    cases run
    exact ⟨rfl, fits, by simp⟩
  | block :: source, pool, pool', blocks, run, fits => by
    obtain ⟨range, append, run⟩ := bind_eq_ok.mp run
    obtain ⟨⟨rest, pool''⟩, run, eq⟩ := bind_eq_ok.mp run
    cases eq
    obtain ⟨-, small, -⟩ := IlIndexRange.new_eq_ok.mp append
    obtain ⟨length, fits, rfl⟩ := buildBlocks_eq_ok run small
    refine ⟨by rw [length_cons, length, length_cons], fits, ?_⟩
    rw [flatMap_cons, append_assoc]

end IlGraphBuilder

theorem IlGraph.Made.assembled {graph : IlGraph} (made : graph.Made) : graph.Assembled := by
  induction made with
  | default => exact ⟨by simp [IlGraph.default], by simp [IlGraph.default]⟩
  | @build builder operationCount graph made call =>
    obtain ⟨-, call⟩ := andThen_eq_ok.mp call
    obtain ⟨⟨blocks, successors⟩, run, eq⟩ := bind_eq_ok.mp call
    cases eq
    obtain ⟨length, fits, rfl⟩ := IlGraphBuilder.buildBlocks_eq_ok run (by simp)
    refine ⟨?_, fits⟩
    intro target mem
    rw [nil_append, mem_flatMap] at mem
    obtain ⟨block, blockMem, mem⟩ := mem
    obtain ⟨entry, entryMem, rfl⟩ := mem_map.mp mem
    rw [length]
    exact made.targetsExist block blockMem entry entryMem
  | setOpRanges _ call ih =>
    obtain ⟨length, eq⟩ := andThen_eq_ok.mp call
    cases eq
    rw [ensure_eq_ok, beq_iff_eq] at length
    refine ⟨?_, ih.successors_le⟩
    intro target mem
    rw [length_zipWith, length, Nat.min_self]
    exact ih.targets target mem
  | remapOpRanges _ call ih =>
    obtain ⟨blocks, run, eq⟩ := bind_eq_ok.mp call
    cases eq
    refine ⟨?_, ih.successors_le⟩
    intro target mem
    rw [length_of_mapM_eq_ok run]
    exact ih.targets target mem

end Fugue.Il
