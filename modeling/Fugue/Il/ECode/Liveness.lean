import Fugue.Il.Common.BlockArgInputs
import Fugue.Il.Common.Rows
import Fugue.Il.ECode.Ir
import Fugue.Lib.Liveness

/-!
# The liveness analysis

`fugue-core/src/il/ecode/analysis/liveness.rs`: what every block defines, uses and passes on is
collected into bit matrices, and the blocks are visited in reverse order until nothing changes.
`none` stands for a panic: an index beyond a matrix, or a table with more entries than a `u32` counts.
-/

namespace Fugue.Il

open Fugue.Lib

/-! ## Bit sets -/

namespace FixedBitSet

/-- `FixedBitSet::union_with`, which grows the set to the other one's length. -/
def unionWith (bits other : List Bool) : List Bool :=
  (List.range (max bits.length other.length)).map fun i =>
    bits.getD i false || other.getD i false

/-- `FixedBitSet::difference_with`. -/
def differenceWith (bits other : List Bool) : List Bool :=
  (List.range bits.length).map fun i => bits.getD i false && !other.getD i false

/-- `FixedBitSet::ones`. -/
def ones (bits : List Bool) : List Nat :=
  (List.range bits.length).filter fun i => bits.getD i false

end FixedBitSet

/-- `LivenessMatrix` (`liveness.rs:14-16`). -/
structure LivenessMatrix where
  rows : List (List Bool)
  deriving DecidableEq, Repr

namespace LivenessMatrix

/-- `new` (`liveness.rs:19-25`). -/
def new (rowCount valueCount : Nat) : LivenessMatrix :=
  ⟨List.replicate rowCount (List.replicate valueCount false)⟩

variable (matrix : LivenessMatrix)

/-- `row` (`liveness.rs:31-33`). -/
def row (row : Nat) : Option (List Bool) := matrix.rows[row]?

/-- `contains` (`liveness.rs:27-29`). -/
def contains (row value : Nat) : Option Bool :=
  (matrix.row row).map fun bits => bits.getD value false

/-- `row_mut` (`liveness.rs:35-37`), and what is written there. -/
def setRow (row : Nat) (bits : List Bool) : LivenessMatrix :=
  ⟨matrix.rows.set row bits⟩

/-- `insert` (`liveness.rs:39-41`). -/
def insert (row value : Nat) : Option LivenessMatrix := do
  let bits ← matrix.row row
  let bits ← insertBit bits value
  return matrix.setRow row bits

/-- `into_sparse` (`liveness.rs:43-49`). -/
def intoSparse : Option (IlCsr IlValueId) := do
  let rows ← matrix.rows.mapM fun row =>
    (FixedBitSet.ones row).mapM fun value => (tryFromIndex "value" value).toOption
  IlCsr.fromRows rows

end LivenessMatrix

/-- `ECodeLiveness` (`liveness.rs:8-12`). -/
structure ECodeLiveness where
  liveInTable : IlCsr IlValueId
  liveOutTable : IlCsr IlValueId

/-- `ECodeLivenessSolver` (`liveness.rs:52-57`); the form is a parameter of its functions. -/
structure ECodeLivenessSolver where
  blockDefinitions : LivenessMatrix
  blockUses : LivenessMatrix
  edgeUses : LivenessMatrix

namespace ECodeLivenessSolver

variable (ir : ECodeIr)

/-- `new` (`liveness.rs:60-69`). -/
def new : ECodeLivenessSolver :=
  let empty := LivenessMatrix.new ir.graph.blocks.length ir.values.length
  ⟨empty, empty, empty⟩

variable (solver : ECodeLivenessSolver)

/-- `collect_block_args` (`liveness.rs:123-128`). -/
def collectBlockArgs : Option ECodeLivenessSolver := do
  let definitions ← ir.blockArgs.foldlM (fun definitions arg =>
    definitions.insert arg.block arg.value) solver.blockDefinitions
  return { solver with blockDefinitions := definitions }

/-- One argument of `collect_edge_uses`, with the `expect` of `args_for_edge`. -/
def collectEdge (blockIndex : Nat) (uses : LivenessMatrix) (edge : Nat) : Option LivenessMatrix := do
  let range ← ir.edgeArgs[edge]?
  (range.slice ir.edgeArgValues).foldlM (fun uses arg => uses.insert blockIndex arg) uses

/-- `collect_edge_uses` (`liveness.rs:130-139`). -/
def collectEdgeUses : Option ECodeLivenessSolver := do
  let uses ← ir.graph.blocks.zipIdx.foldlM (fun uses entry =>
    (List.range' entry.1.successors.start entry.1.successors.len).foldlM
      (collectEdge ir entry.2) uses) solver.edgeUses
  return { solver with edgeUses := uses }

/-- An operand that the block has not defined yet is used (`liveness.rs:144-150`). -/
def collectOperand (definitions : LivenessMatrix) (blockIndex : Nat) (uses : LivenessMatrix)
    (operand : IlValueId) : Option LivenessMatrix := do
  if ← definitions.contains blockIndex operand then return uses
  else uses.insert blockIndex operand

/-- One operation of `collect_op_uses` (`liveness.rs:143-155`). -/
def collectOp (blockIndex : Nat) (solver : ECodeLivenessSolver) (operation : ECodeOp) :
    Option ECodeLivenessSolver := do
  let uses ← (ir.opOperandsFor operation).foldlM
    (collectOperand solver.blockDefinitions blockIndex) solver.blockUses
  let definitions ← (List.range' operation.results.start operation.results.len).foldlM
    (fun definitions defined => definitions.insert blockIndex defined) solver.blockDefinitions
  return { solver with blockDefinitions := definitions, blockUses := uses }

/-- `collect_op_uses` (`liveness.rs:141-157`). -/
def collectOpUses : Option ECodeLivenessSolver :=
  ir.graph.blocks.zipIdx.foldlM (fun solver entry =>
    (entry.1.ops.slice ir.operations).foldlM (collectOp ir entry.2) solver) solver

/-- The variables of the loop in `solve`. -/
structure State where
  liveIn : LivenessMatrix
  liveOut : LivenessMatrix
  changed : Bool

/-- `next_live_out` of a block (`liveness.rs:92-97`). -/
def nextLiveOut (liveIn : LivenessMatrix) (block : IlBlock)
    (blockIndex : Nat) : Option (List Bool) := do
  let uses ← solver.edgeUses.row blockIndex
  (block.successors.slice ir.graph.successors).foldlM (fun liveOut successor => do
    return FixedBitSet.unionWith liveOut (← liveIn.row successor))
    (FixedBitSet.unionWith (List.replicate ir.values.length false) uses)

/-- `next_live_in` of a block (`liveness.rs:99-102`). -/
def nextLiveIn (liveOut : List Bool) (blockIndex : Nat) :
    Option (List Bool) := do
  let liveIn := FixedBitSet.unionWith (List.replicate ir.values.length false) liveOut
  let liveIn := FixedBitSet.differenceWith liveIn (← solver.blockDefinitions.row blockIndex)
  return FixedBitSet.unionWith liveIn (← solver.blockUses.row blockIndex)

/-- The visit of one block (`liveness.rs:91-113`). -/
def visit (s : State) (entry : IlBlock × Nat) : Option State := do
  let nextOut ← nextLiveOut ir solver s.liveIn entry.1 entry.2
  let nextIn ← nextLiveIn ir solver nextOut entry.2
  let liveOut ← s.liveOut.row entry.2
  let liveIn ← s.liveIn.row entry.2
  return {
    liveIn := if liveIn ≠ nextIn then s.liveIn.setRow entry.2 nextIn else s.liveIn
    liveOut := if liveOut ≠ nextOut then s.liveOut.setRow entry.2 nextOut else s.liveOut
    changed := s.changed || decide (liveOut ≠ nextOut) || decide (liveIn ≠ nextIn) }

/-- One round of the `while` loop (`liveness.rs:88-115`); the rounds go on when something
changed. -/
def round (s : State) : Option (State ⊕ State) := do
  let next ← ir.graph.blocks.zipIdx.reverse.foldlM (visit ir solver) { s with changed := false }
  return if next.changed then .inl next else .inr next

/-- `solve` (`liveness.rs:71-121`); a round that changes something sets one bit of the two
matrices at least, so the fuel is enough. -/
def solve : Option ECodeLiveness :=
  if ir.graph.blocks.isEmpty then some ⟨.default, .default⟩
  else do
    let solver ← collectBlockArgs ir solver
    let solver ← collectOpUses ir solver
    let solver ← collectEdgeUses ir solver
    let blockCount := ir.graph.blocks.length
    let valueCount := ir.values.length
    let empty := LivenessMatrix.new blockCount valueCount
    let last ← runLoop (round ir solver) (2 * (blockCount * valueCount) + 1) ⟨empty, empty, true⟩
    return ⟨← last.liveIn.intoSparse, ← last.liveOut.intoSparse⟩

end ECodeLivenessSolver

namespace ECodeLiveness

/-- `analyse` (`liveness.rs:160-164`). -/
def analyse (ir : ECodeIr) : Option ECodeLiveness := (ECodeLivenessSolver.new ir).solve ir

/-- `live_in` (`liveness.rs:167-169`). -/
def liveIn (liveness : ECodeLiveness) (block : IlBlockId) : List IlValueId :=
  (liveness.liveInTable.checkedRow block).getD []

/-- `live_out` (`liveness.rs:171-173`). -/
def liveOut (liveness : ECodeLiveness) (block : IlBlockId) : List IlValueId :=
  (liveness.liveOutTable.checkedRow block).getD []

end ECodeLiveness

/-! ## What the analysis is for -/

namespace ECodeIr

/-- The program as a flow graph: the arguments of a block are defined on entering it, and the
arguments of an edge are used on leaving its source. -/
def flow (ir : ECodeIr) : Flow IlBlockId ECodeOp IlValueId where
  code block := (ir.graph.blocks[block]?).elim [] fun record => record.ops.slice ir.operations
  edge := Edge ir.graph.blocks ir.graph.successors
  entryDefines block value := ∃ arg ∈ ir.blockArgs, arg.block = block ∧ arg.value = value
  exitUses block value := ∃ record, ir.graph.blocks[block]? = some record ∧
    ∃ offset < record.successors.len, value ∈ ir.argsForEdge (record.successors.start + offset)
  uses operation value := value ∈ ir.opOperandsFor operation
  defines operation value := operation.results.start ≤ value ∧ value < operation.results.stop

variable {ir : ECodeIr} {block : IlBlockId} {operation : ECodeOp} {value : Nat}

theorem flow_defines : ir.flow.defines operation value ↔
    operation.results.start ≤ value ∧ value < operation.results.stop := Iff.rfl

theorem flow_uses : ir.flow.uses operation value ↔ value ∈ ir.opOperandsFor operation := Iff.rfl

theorem flow_code {record : IlBlock} (found : ir.graph.blocks[block]? = some record) :
    ir.flow.code block = record.ops.slice ir.operations := by
  show (ir.graph.blocks[block]?).elim [] _ = _
  rw [found]
  rfl

end ECodeIr

end Fugue.Il
