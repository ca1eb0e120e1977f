import Fugue.Il.Common.Constants
import Fugue.Il.Common.GraphBuilder
import Fugue.Il.ECode.Ir

/-!
# Building ECode

`ECodeBuilder` and `ECodeEmitter` (`fugue-core/src/il/ecode/ir/builder.rs`). A call that fails
leaves the tables as far as it had filled them, so each returns the builder next to its result.
`Made` is the reachability of builders through these calls, and `Made.ordered` what it makes sure
of: results and block arguments are numbered in the order in which they were emitted.
-/

namespace Fugue.Il

open Fugue.Lib Fugue.Ir Fugue.Bv List
open IlIndexRange (Ascending new_eq_ok)

/-- `ECodeOpSpec` (`operation.rs:8-15`). -/
structure ECodeOpSpec where
  opcode : ECodeOpcode
  width : Nat
  immediate : Nat
  address : Option Address
  addressSpace : Option AddressSpaceId
  deriving DecidableEq, Repr

/-- `ECodeBuilder` (`builder.rs:13-29`). -/
structure ECodeBuilder where
  metadata : IlMetadata
  graph : IlGraph
  sourceSpans : List IlSourceSpan
  parentSpans : List IlParentSpan
  values : List ECodeValue
  valueDomains : List (Option ECodeDomain)
  blockArgs : List ECodeBlockArg
  edgeArgs : List IlIndexRange
  edgeArgValues : List IlValueId
  operations : List ECodeOp
  valueOperands : List IlValueId
  memoryDomains : List ECodeMemoryDomain
  constantStorage : List UInt8
  constants : IlConstantInterner
  deriving DecidableEq, Repr

namespace ECodeBuilder

/-- `new` (`builder.rs:32-49`). -/
def new (metadata : IlMetadata) (graph : IlGraph) : ECodeBuilder where
  metadata := metadata
  graph := graph
  sourceSpans := []
  parentSpans := []
  values := []
  valueDomains := []
  blockArgs := []
  edgeArgs := []
  edgeArgValues := []
  operations := []
  valueOperands := []
  memoryDomains := []
  constantStorage := []
  constants := .new

variable (builder : ECodeBuilder)

/-- `intern_memory_domain` (`builder.rs:119-129`). -/
def internMemoryDomain (space : AddressSpaceId) : ECodeBuilder :=
  if builder.memoryDomains.any fun domain => domain.space == space then builder
  else { builder with memoryDomains := builder.memoryDomains ++ [⟨space⟩] }

/-- `set_value_domain` (`builder.rs:180-198`). -/
def setValueDomain (value : IlValueId) (domain : ECodeDomain) :
    Except IlError Unit × ECodeBuilder :=
  match builder.valueDomains[value]? with
  | none => (.error (.rangeOutOfBounds value builder.valueDomains.length), builder)
  | some (some _) => (.error (.invalidArtefact .ecode), builder)
  | some none =>
    let builder := { builder with valueDomains := builder.valueDomains.set value (some domain) }
    match domain with
    | .memory space => (.ok (), builder.internMemoryDomain space)
    | _ => (.ok (), builder)

/-- `intern_constant` (`builder.rs:200-204`). -/
def internConstant (value : BitVec) : Option (Nat × ECodeBuilder) := do
  let (immediate, constants, constantStorage) ←
    builder.constants.intern builder.constantStorage value
  return (immediate, { builder with constants, constantStorage })

/-- The memory domain of a load or store is interned with it (`builder.rs:231-236`). -/
def internOpDomain (spec : ECodeOpSpec) : ECodeBuilder :=
  match spec.addressSpace with
  | some space =>
    if spec.opcode.requiresMemoryDomain then builder.internMemoryDomain space else builder
  | none => builder

/-- `emit` (`builder.rs:210-241`). -/
def emit (spec : ECodeOpSpec) (operands : List IlValueId) (resultCount : Nat) :
    Except IlError (IlOpId × IlIndexRange) × ECodeBuilder :=
  match tryFromIndex "operation" builder.operations.length with
  | .error error => (.error error, builder)
  | .ok operation =>
    let withResults := { builder with
      values := builder.values ++ List.replicate resultCount ⟨spec.width, .op operation⟩
      valueDomains := builder.valueDomains ++ List.replicate resultCount none }
    match IlIndexRange.new builder.values.length withResults.values.length with
    | .error error => (.error error, withResults)
    | .ok results =>
      let (range, pool) := poolAppend builder.valueOperands operands
      let withOperands := { withResults with valueOperands := pool }
      match range with
      | .error error => (.error error, withOperands)
      | .ok operands =>
        let interned := withOperands.internOpDomain spec
        (.ok (operation, results), { interned with
          operations := builder.operations ++ [{
            opcode := spec.opcode
            results
            operands
            width := spec.width
            immediate := spec.immediate
            address := spec.address
            addressSpace := spec.addressSpace }] })

/-- `emit_block_arg` (`builder.rs:86-96`, `243-245`). -/
def emitBlockArg (block : IlBlockId) (width : Nat) : Except IlError IlValueId × ECodeBuilder :=
  match tryFromIndex "block argument" builder.blockArgs.length,
    tryFromIndex "value" builder.values.length with
  | .error error, _ => (.error error, builder)
  | .ok _, .error error => (.error error, builder)
  | .ok arg, .ok value => (.ok value, { builder with
      values := builder.values ++ [⟨width, .blockArg arg⟩]
      valueDomains := builder.valueDomains ++ [none]
      blockArgs := builder.blockArgs ++ [⟨block, value, width⟩] })

/-- `emit_edge_args` (`builder.rs:110-117`, `247-252`). -/
def emitEdgeArgs (args : List IlValueId) : Except IlError IlIndexRange × ECodeBuilder :=
  let (range, pool) := poolAppend builder.edgeArgValues args
  let withPool := { builder with edgeArgValues := pool }
  match range with
  | .error error => (.error error, withPool)
  | .ok range => (.ok range, { withPool with edgeArgs := builder.edgeArgs ++ [range] })

/-- `build_unchecked` (`builder.rs:141-168`). -/
def buildUnchecked : ECodeIr where
  metadata := builder.metadata
  graph := builder.graph
  sourceSpans := builder.sourceSpans
  parentSpans := builder.parentSpans
  values := builder.values
  valueDomains := builder.valueDomains
  blockArgs := builder.blockArgs
  edgeArgs :=
    if builder.edgeArgs.isEmpty && !builder.graph.successors.isEmpty then
      List.replicate builder.graph.successors.length .empty
    else builder.edgeArgs
  edgeArgValues := builder.edgeArgValues
  operations := builder.operations
  valueOperands := builder.valueOperands
  memoryDomains := builder.memoryDomains
  constantStorage := builder.constantStorage

end ECodeBuilder

namespace ECodeBuilder

/-- The builders that calls of its functions lead to, whether the calls succeed or fail. -/
inductive Made : ECodeBuilder → Prop
  | new (metadata : IlMetadata) {graph : IlGraph} (graphMade : graph.Made) :
    Made (.new metadata graph)
  | setGraph {builder : ECodeBuilder} {graph : IlGraph} (made : Made builder)
    (graphMade : graph.Made) : Made { builder with graph }
  | setSourceSpans {builder : ECodeBuilder} (made : Made builder)
    (sourceSpans : List IlSourceSpan) : Made { builder with sourceSpans }
  | setParentSpans {builder : ECodeBuilder} (made : Made builder)
    (parentSpans : List IlParentSpan) : Made { builder with parentSpans }
  | setValueDomain {builder : ECodeBuilder} (made : Made builder) (value : IlValueId)
    (domain : ECodeDomain) : Made (builder.setValueDomain value domain).2
  | internConstant {builder interned : ECodeBuilder} {value : BitVec} {immediate : Nat}
    (made : Made builder) (call : builder.internConstant value = some (immediate, interned)) :
    Made interned
  | internMemoryDomain {builder : ECodeBuilder} (made : Made builder) (space : AddressSpaceId) :
    Made (builder.internMemoryDomain space)
  | emit {builder : ECodeBuilder} (made : Made builder) (spec : ECodeOpSpec)
    (operands : List IlValueId) (resultCount : Nat) :
    Made (builder.emit spec operands resultCount).2
  | emitBlockArg {builder : ECodeBuilder} (made : Made builder) (block : IlBlockId)
    (width : Nat) : Made (builder.emitBlockArg block width).2
  | emitEdgeArgs {builder : ECodeBuilder} (made : Made builder) (args : List IlValueId) :
    Made (builder.emitEdgeArgs args).2

/-- The order in which a builder has numbered what it emitted. -/
structure Ordered (builder : ECodeBuilder) : Prop where
  graph : builder.graph.Assembled
  results : Ascending 0 (builder.operations.map ECodeOp.results) builder.values.length
  args : builder.blockArgs.Pairwise fun a b => a.value < b.value
  args_lt : ∀ arg ∈ builder.blockArgs, arg.value < builder.values.length
  operands : Ascending 0 (builder.operations.map ECodeOp.operands)
    (min builder.valueOperands.length u32Max)
  edgeArgs : Ascending 0 builder.edgeArgs
    (min builder.edgeArgValues.length u32Max)

def SameTables (left right : ECodeBuilder) : Prop :=
  left.graph = right.graph ∧ left.values = right.values ∧ left.blockArgs = right.blockArgs ∧
    left.operations = right.operations ∧ left.valueOperands = right.valueOperands ∧
    left.edgeArgs = right.edgeArgs ∧ left.edgeArgValues = right.edgeArgValues

theorem Ordered.of_sameTables {left right : ECodeBuilder} (ordered : right.Ordered)
    (same : SameTables left right) : left.Ordered := by
  obtain ⟨graph, values, blockArgs, operations, valueOperands, edgeArgs, edgeArgValues⟩ := same
  constructor
  · rw [graph]; exact ordered.graph
  · rw [operations, values]; exact ordered.results
  · rw [blockArgs]; exact ordered.args
  · rw [blockArgs, values]; exact ordered.args_lt
  · rw [operations, valueOperands]; exact ordered.operands
  · rw [edgeArgs, edgeArgValues]; exact ordered.edgeArgs

variable {builder : ECodeBuilder}

theorem internMemoryDomain_sameTables (space : AddressSpaceId) :
    SameTables (builder.internMemoryDomain space) builder := by
  unfold internMemoryDomain
  split <;> exact ⟨rfl, rfl, rfl, rfl, rfl, rfl, rfl⟩

theorem internOpDomain_sameTables (builder : ECodeBuilder) (spec : ECodeOpSpec) :
    SameTables (builder.internOpDomain spec) builder := by
  unfold internOpDomain
  split
  · split
    · exact internMemoryDomain_sameTables _
    · exact ⟨rfl, rfl, rfl, rfl, rfl, rfl, rfl⟩
  · exact ⟨rfl, rfl, rfl, rfl, rfl, rfl, rfl⟩

theorem setValueDomain_sameTables (value : IlValueId) (domain : ECodeDomain) :
    SameTables (builder.setValueDomain value domain).2 builder := by
  unfold setValueDomain
  split
  · exact ⟨rfl, rfl, rfl, rfl, rfl, rfl, rfl⟩
  · exact ⟨rfl, rfl, rfl, rfl, rfl, rfl, rfl⟩
  · cases domain with
    | memory space => exact internMemoryDomain_sameTables space
    | flag storage => exact ⟨rfl, rfl, rfl, rfl, rfl, rfl, rfl⟩
    | register storage => exact ⟨rfl, rfl, rfl, rfl, rfl, rfl, rfl⟩

theorem internConstant_sameTables {interned : ECodeBuilder} {value : BitVec} {immediate : Nat}
    (call : builder.internConstant value = some (immediate, interned)) :
    SameTables interned builder := by
  unfold internConstant at call
  cases run : builder.constants.intern builder.constantStorage value with
  | none => rw [run] at call; cases call
  | some result =>
    rw [run] at call
    cases call
    exact ⟨rfl, rfl, rfl, rfl, rfl, rfl, rfl⟩

theorem Ordered.grow (ordered : builder.Ordered) {grown : ECodeBuilder}
    (graph : grown.graph = builder.graph) (blockArgs : grown.blockArgs = builder.blockArgs)
    (operations : grown.operations = builder.operations)
    (edgeArgs : grown.edgeArgs = builder.edgeArgs)
    (values : builder.values.length ≤ grown.values.length)
    (valueOperands : builder.valueOperands.length ≤ grown.valueOperands.length)
    (edgeArgValues : builder.edgeArgValues.length ≤ grown.edgeArgValues.length) :
    grown.Ordered := by
  constructor
  · rw [graph]; exact ordered.graph
  · rw [operations]; exact ordered.results.mono values
  · rw [blockArgs]; exact ordered.args
  · rw [blockArgs]
    intro arg mem
    exact lt_of_lt_of_le (ordered.args_lt arg mem) values
  · rw [operations]; exact ordered.operands.mono (by omega)
  · rw [edgeArgs]; exact ordered.edgeArgs.mono (by omega)

theorem Ordered.emit (ordered : builder.Ordered) (spec : ECodeOpSpec) (operands : List IlValueId)
    (resultCount : Nat) : (builder.emit spec operands resultCount).2.Ordered := by
  unfold ECodeBuilder.emit
  split
  · exact ordered
  · rename_i operation operationEq
    have grown : builder.values.length ≤ (builder.values ++ List.replicate resultCount
        (⟨spec.width, .op operation⟩ : ECodeValue)).length := by
      rw [length_append]
      omega
    have pooled : builder.valueOperands.length ≤ (builder.valueOperands ++ operands).length := by
      rw [length_append]
      omega
    dsimp only [poolAppend]
    split
    · exact ordered.grow rfl rfl rfl rfl grown le_rfl le_rfl
    · rename_i results resultsEq
      obtain ⟨-, -, rfl⟩ := new_eq_ok.mp resultsEq
      split
      · exact ordered.grow rfl rfl rfl rfl grown pooled le_rfl
      · rename_i range rangeEq
        obtain ⟨-, fits, rfl⟩ := new_eq_ok.mp rangeEq
        have same := internOpDomain_sameTables { builder with
          values := builder.values ++ List.replicate resultCount ⟨spec.width, .op operation⟩
          valueDomains := builder.valueDomains ++ List.replicate resultCount none
          valueOperands := builder.valueOperands ++ operands } spec
        obtain ⟨graph, values, blockArgs, -, valueOperands, edgeArgs, edgeArgValues⟩ := same
        constructor
        · rw [graph]; exact ordered.graph
        · rw [map_append, values]
          exact ordered.results.concat le_rfl grown
        · rw [blockArgs]; exact ordered.args
        · rw [blockArgs, values]
          intro arg mem
          exact lt_of_lt_of_le (ordered.args_lt arg mem) grown
        · rw [map_append, valueOperands, min_eq_left fits]
          exact ordered.operands.concat (min_le_left _ _) pooled
        · rw [edgeArgs, edgeArgValues]; exact ordered.edgeArgs

theorem Ordered.emitBlockArg (ordered : builder.Ordered) (block : IlBlockId) (width : Nat) :
    (builder.emitBlockArg block width).2.Ordered := by
  unfold ECodeBuilder.emitBlockArg
  split
  · exact ordered
  · exact ordered
  · rename_i arg value argEq valueEq
    obtain ⟨rfl, -⟩ := tryFromIndex_eq_ok valueEq
    have grown : (builder.values ++ [(⟨width, .blockArg arg⟩ : ECodeValue)]).length =
        builder.values.length + 1 := by
      rw [length_append]
      rfl
    refine ⟨ordered.graph, ordered.results.mono (by dsimp only; omega), ?_, ?_, ordered.operands,
      ordered.edgeArgs⟩
    · refine pairwise_append.mpr ⟨ordered.args, pairwise_singleton _ _, ?_⟩
      intro old oldMem new newMem
      rw [mem_singleton.mp newMem]
      exact ordered.args_lt old oldMem
    · intro arg mem
      rw [grown]
      rcases mem_append.mp mem with old | new
      · exact Nat.lt_succ_of_lt (ordered.args_lt arg old)
      · rw [mem_singleton.mp new]
        exact Nat.lt_succ_self _

theorem Ordered.emitEdgeArgs (ordered : builder.Ordered) (args : List IlValueId) :
    (builder.emitEdgeArgs args).2.Ordered := by
  have pooled : builder.edgeArgValues.length ≤ (builder.edgeArgValues ++ args).length := by
    rw [length_append]
    omega
  unfold ECodeBuilder.emitEdgeArgs
  dsimp only [poolAppend]
  split
  · exact ordered.grow rfl rfl rfl rfl le_rfl le_rfl pooled
  · rename_i range rangeEq
    obtain ⟨-, fits, rfl⟩ := new_eq_ok.mp rangeEq
    refine ⟨ordered.graph, ordered.results, ordered.args, ordered.args_lt, ordered.operands, ?_⟩
    rw [min_eq_left fits]
    exact ordered.edgeArgs.concat (min_le_left _ _) pooled

theorem Made.ordered (made : builder.Made) : builder.Ordered := by
  induction made with
  | new metadata graphMade =>
    exact ⟨graphMade.assembled, le_refl 0, .nil, nofun, Nat.zero_le _, Nat.zero_le _⟩
  | setGraph _ graphMade ih =>
    exact ⟨graphMade.assembled, ih.results, ih.args, ih.args_lt, ih.operands, ih.edgeArgs⟩
  | setSourceSpans _ _ ih => exact ih.of_sameTables ⟨rfl, rfl, rfl, rfl, rfl, rfl, rfl⟩
  | setParentSpans _ _ ih => exact ih.of_sameTables ⟨rfl, rfl, rfl, rfl, rfl, rfl, rfl⟩
  | setValueDomain _ value domain ih =>
    exact ih.of_sameTables (setValueDomain_sameTables value domain)
  | internConstant _ call ih => exact ih.of_sameTables (internConstant_sameTables call)
  | internMemoryDomain _ space ih => exact ih.of_sameTables (internMemoryDomain_sameTables space)
  | emit _ spec operands resultCount ih => exact ih.emit spec operands resultCount
  | emitBlockArg _ block width ih => exact ih.emitBlockArg block width
  | emitEdgeArgs _ args ih => exact ih.emitEdgeArgs args

end ECodeBuilder

/-- What the builder makes sure of in the tables of an `ECodeIr`. -/
structure ECodeIr.Ordered (ir : ECodeIr) : Prop where
  graph : ir.graph.Assembled
  results : Ascending 0 (ir.operations.map ECodeOp.results) ir.values.length
  args : ir.blockArgs.Pairwise fun a b => a.value < b.value
  operands_le : (ir.operations.map fun operation => operation.operands.len).sum ≤ u32Max
  edgeArgs_le : (ir.edgeArgs.map IlIndexRange.len).sum ≤ u32Max

theorem ECodeBuilder.Made.buildUnchecked_ordered {builder : ECodeBuilder} (made : builder.Made) :
    builder.buildUnchecked.Ordered := by
  have ordered := made.ordered
  have operands := ordered.operands.sum_len_le
  have edgeArgs := ordered.edgeArgs.sum_len_le
  refine ⟨ordered.graph, ordered.results, ordered.args, ?_, ?_⟩
  · rw [map_map, zero_add] at operands
    exact le_trans operands (min_le_right _ _)
  · unfold ECodeBuilder.buildUnchecked
    split
    · simp [IlIndexRange.empty, IlIndexRange.len]
    · rw [zero_add] at edgeArgs
      exact le_trans edgeArgs (min_le_right _ _)

end Fugue.Il
