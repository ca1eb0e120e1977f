import Fugue.Il.Common.DominanceTree
import Fugue.Il.Common.Structure

/-!
# The SSA verifier

`fugue-core/src/il/common/verify.rs`: the checks that every language in SSA form shares. `SsaIl` is
the trait of such a language (`ssa.rs`). The dominance analysis and the tables can panic on a graph
or an argument list that the identifiers cannot count; the outer `none` of `verifyUses` stands for
that.
-/

namespace Fugue.Il

open Fugue.Lib Fugue.Ir

/-- `IlSsaDef` (`ssa.rs:8-14`). -/
inductive IlSsaDef where
  | blockArg (arg : IlBlockArgId)
  | op (operation : IlOpId)
  deriving DecidableEq, Repr

/-- `SsaIl` (`ssa.rs:16-42`), with the graph of `ControlFlowIl` and the form of `IlArtefact`. -/
class SsaIl (I : Type) where
  form : IlFormId
  graph : I → IlGraph
  valueCount : I → Nat
  valueDefinition : I → IlValueId → Option IlSsaDef
  valueWidth : I → IlValueId → Option Nat
  blockArgCount : I → Nat
  blockArgBlock : I → IlBlockArgId → Option IlBlockId
  blockArgValue : I → IlBlockArgId → Option IlValueId
  blockArgWidth : I → IlBlockArgId → Option Nat
  opCount : I → Nat
  opOperands : I → IlOpId → Option (List IlValueId)
  edgeArgs : I → List IlIndexRange
  edgeArgValues : I → List IlValueId
  memoryDomainCount : I → Nat
  memoryDomainSpace : I → Nat → Option AddressSpaceId

/-- `SsaVerifyError` (`verify.rs:43-71`). -/
inductive SsaVerifyError where
  | blockArgCount (block expected found : Nat)
  | duplicateMemoryDomain
  | edgeArgTableCount (expected found : Nat)
  | il (error : IlError)
  | invalidOpPlacement (operation : Nat)
  | invalidValueDef
  | nonDominatingEdgeArg (value predecessor successor : Nat)
  | nonDominatingUse (value user : Nat)
  deriving DecidableEq, Repr

/-- The dominance analysis of a graph (`dominance.rs:177-185`). -/
def IlGraph.dominance (graph : IlGraph) : Option IlDominance :=
  match graph.entryBlock with
  | none => some ⟨none, [], .default, [], [], []⟩
  | some entry => IlDominance.fromBlocks graph.blocks graph.successors entry

namespace SsaVerifier

open SsaIl

variable {I : Type} [SsaIl I] (ir : I)

/-- `verify_memory_domains` (`verify.rs:84-98`). -/
def verifyMemoryDomains : Except SsaVerifyError Unit :=
  (List.range (memoryDomainCount ir)).forM fun index => do
    let space ← okOr (memoryDomainSpace ir index)
      (.il (.rangeOutOfBounds (index + 1) (memoryDomainCount ir)))
    ensure (!(List.range index).any fun existing => memoryDomainSpace ir existing == some space)
      .duplicateMemoryDomain

/-- `verify_edge_args` (`verify.rs:100-121`). -/
def verifyEdgeArgs : Except SsaVerifyError Unit := do
  ensure ((edgeArgs ir).length == (graph ir).successors.length)
    (.edgeArgTableCount (graph ir).successors.length (edgeArgs ir).length)
  (edgeArgs ir).forM fun range =>
    (range.verifyBounds (edgeArgValues ir).length).mapError .il
  (edgeArgValues ir).forM fun value => ensure (decide (value < valueCount ir))
    (.il (.rangeOutOfBounds value (valueCount ir)))

/-- `verify_operands_precede` (`verify.rs:288-317`). -/
def verifyOperandsPrecede (operation : IlOpId) (operationIndex : Nat) :
    Except SsaVerifyError Unit := do
  let operands ← okOr (opOperands ir operation) (.invalidOpPlacement (idValue operation))
  operands.forM fun operand => do
    match ← okOr (valueDefinition ir operand) SsaVerifyError.invalidValueDef with
    | .op definition =>
      ensure (decide (definition < operationIndex))
        (.nonDominatingUse (idValue operand) (idValue operation))
    | .blockArg _ => .ok ()

/-- `verify_linear_uses` (`verify.rs:279-286`). -/
def verifyLinearUses : Except SsaVerifyError Unit :=
  (List.range (opCount ir)).forM fun operationIndex => do
    let operation ← (tryFromIndex "operation" operationIndex).mapError .il
    verifyOperandsPrecede ir operation operationIndex

/-- The block of a defining operation, as both dominance queries look it up. -/
def definitionBlock (operationBlocks : List (Option IlBlockId)) (operation : IlOpId) :
    Except SsaVerifyError IlBlockId :=
  okOr (operationBlocks[operation]?).join (.invalidOpPlacement (idValue operation))

/-- `value_dominates_op` (`verify.rs:319-357`). -/
def valueDominatesOp (value : IlValueId) (userBlock : IlBlockId) (userOperation : Nat)
    (dominance : IlDominance) (operationBlocks : List (Option IlBlockId)) :
    Except SsaVerifyError Bool := do
  match ← okOr (valueDefinition ir value) SsaVerifyError.invalidValueDef with
  | .op operation =>
    let definitionBlock ← definitionBlock operationBlocks operation
    return if definitionBlock = userBlock then decide (operation < userOperation)
      else dominance.dominates definitionBlock userBlock
  | .blockArg arg =>
    let block ← okOr (blockArgBlock ir arg) SsaVerifyError.invalidValueDef
    return dominance.dominates block userBlock

/-- `value_dominates_edge` (`verify.rs:359-394`). -/
def valueDominatesEdge (value : IlValueId) (predecessor : IlBlockId) (dominance : IlDominance)
    (operationBlocks : List (Option IlBlockId)) : Except SsaVerifyError Bool := do
  match ← okOr (valueDefinition ir value) SsaVerifyError.invalidValueDef with
  | .op operation =>
    let definitionBlock ← definitionBlock operationBlocks operation
    return decide (definitionBlock = predecessor) ||
      dominance.dominates definitionBlock predecessor
  | .blockArg arg =>
    let block ← okOr (blockArgBlock ir arg) SsaVerifyError.invalidValueDef
    return dominance.dominates block predecessor

section Uses

variable {E : Type} (fromSsa : SsaVerifyError → E)
  (verifyEdgeArg : IlValueId → IlValueId → Except E Unit)
  (dominance : IlDominance) (operationBlocks : List (Option IlBlockId))

/-- The entries of the block-argument table in `verify_edge_uses` (`verify.rs:191-202`). -/
def blockArgEntries : List (Nat × Nat) :=
  (List.range (blockArgCount ir)).map fun index =>
    ((blockArgBlock ir index).getD (graph ir).blocks.length, index)

/-- The check of one argument of an edge (`verify.rs:246-273`). -/
def verifyEdgeArgUse (predecessor successor : IlBlockId) (value : IlValueId) (argIndex : Nat) :
    Except E Unit := do
  let arg ← ((tryFromIndex "block argument" argIndex).mapError SsaVerifyError.il).mapError fromSsa
  let destination ← okOr (blockArgValue ir arg) (fromSsa .invalidValueDef)
  ensure (valueWidth ir value == blockArgWidth ir arg)
    (fromSsa (.il (.widthMismatch (form I))))
  verifyEdgeArg value destination
  if dominance.isReachable predecessor then
    let dominates ←
      (valueDominatesEdge ir value predecessor dominance operationBlocks).mapError fromSsa
    ensure dominates
      (fromSsa (.nonDominatingEdgeArg (idValue value) (idValue predecessor) (idValue successor)))

/-- The check of one edge (`verify.rs:222-274`). -/
def verifyEdgeUse (blockArgs : IlCsr Nat) (predecessor : IlBlockId) (edge : Nat)
    (successor : IlBlockId) : Except E Unit := do
  let args ← okOr ((edgeArgs ir)[edge]?.bind fun range =>
      (range.checkedSlice (edgeArgValues ir)).toOption)
    (fromSsa (.blockArgCount (idValue successor) (blockArgs.row successor).length 0))
  let targets := blockArgs.row successor
  ensure (args.length == targets.length)
    (fromSsa (.blockArgCount (idValue successor) targets.length args.length))
  (args.zip targets).forM fun (value, argIndex) =>
    verifyEdgeArgUse ir fromSsa verifyEdgeArg dominance operationBlocks predecessor successor value
      argIndex

/-- `verify_edge_uses` (`verify.rs:181-277`); the `expect` is on the number of block arguments. -/
def verifyEdgeUses : Option (Except E Unit) :=
  if blockArgCount ir ≤ u32Max then
    some do
      let blockArgs ← ((IlCsr.tryFromEntries (graph ir).blocks.length
        (blockArgEntries ir)).mapError SsaVerifyError.il).mapError fromSsa
      (graph ir).blocks.zipIdx.forM fun (predecessor, predecessorIndex) => do
        let predecessorId ←
          ((tryFromIndex "block" predecessorIndex).mapError SsaVerifyError.il).mapError fromSsa
        let successors ← ((predecessor.successors.checkedSlice (graph ir).successors).mapError
          SsaVerifyError.il).mapError fromSsa
        successors.zipIdx.forM fun (successor, successorOffset) =>
          verifyEdgeUse ir fromSsa verifyEdgeArg dominance operationBlocks blockArgs predecessorId
            (predecessor.successors.start + successorOffset) successor
  else none

/-- The check of one operation in `verify_uses` (`verify.rs:139-175`). -/
def verifyOpUses (operationIndex : Nat) : Except E Unit := do
  let operation ←
    ((tryFromIndex "operation" operationIndex).mapError SsaVerifyError.il).mapError fromSsa
  let userBlock ← okOr (operationBlocks[operationIndex]?).join
    (fromSsa (.invalidOpPlacement (idValue operation)))
  if !dominance.isReachable userBlock then
    (verifyOperandsPrecede ir operation operationIndex).mapError fromSsa
  else
    let operands ← okOr (opOperands ir operation)
      (fromSsa (.invalidOpPlacement (idValue operation)))
    operands.forM fun operand => do
      let dominates ← (valueDominatesOp ir operand userBlock operationIndex dominance
        operationBlocks).mapError fromSsa
      ensure dominates (fromSsa (.nonDominatingUse (idValue operand) (idValue operation)))

/-- `verify_uses` (`verify.rs:123-179`). -/
def verifyUses : Option (Except E Unit) :=
  if (graph ir).blocks.isEmpty then some ((verifyLinearUses ir).mapError fromSsa)
  else do
    let dominance ← (graph ir).dominance
    let operationBlocks ← (graph ir).opBlocks (opCount ir)
    let edges ← verifyEdgeUses ir fromSsa verifyEdgeArg dominance operationBlocks
    return do
      edges
      (List.range (opCount ir)).forM fun operationIndex =>
        verifyOpUses ir fromSsa dominance operationBlocks operationIndex

end Uses

end SsaVerifier

end Fugue.Il
