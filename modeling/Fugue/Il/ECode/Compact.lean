import Fugue.Il.ECode.Required

/-!
# Compaction

`ECodeCompaction` (`fugue-core/src/il/ecode/optimise/compact.rs`): what is not required goes, and
the rest is emitted again through a new builder. Operations and block arguments are emitted in the
order of their values, so that the new numbers of the values are the ones that the index mapper
predicts for the operands. `none` is a failed `expect`.
-/

namespace Fugue.Il.ECodeCompaction

open Fugue.Lib Fugue.Bv

/-- What is emitted: an operation or a block argument, with its index. -/
inductive Item where
  | op (index : IlOpId) (operation : ECodeOp)
  | blockArg (index : IlBlockArgId) (arg : ECodeBlockArg)
  deriving DecidableEq, Repr

/-- The order of the `while` loop (`compact.rs:70-88`): the next block argument comes first as long
as its value lies before the results of the next operation. -/
def emissionOrder : List (ECodeOp × Nat) → List (ECodeBlockArg × Nat) → List Item
  | [], [] => []
  | [], (arg, index) :: args => .blockArg index arg :: emissionOrder [] args
  | (operation, index) :: operations, [] => .op index operation :: emissionOrder operations []
  | (operation, index) :: operations, (arg, argIndex) :: args =>
    if arg.value < operation.results.start then
      .blockArg argIndex arg :: emissionOrder ((operation, index) :: operations) args
    else .op index operation :: emissionOrder operations ((arg, argIndex) :: args)
  termination_by operations args => operations.length + args.length

variable (ir : ECodeIr) (valueMap : IlIndexMapper)

/-- `remap_value` (`compact.rs:23-26`). -/
def remapValue (value : IlValueId) : Option IlValueId := do
  let index ← valueMap.mapIndex value
  (tryFromIndex "value" index).toOption

/-- A domain of the old value is set on the new one (`compact.rs:84-88`, `121-125`). -/
def setDomain (builder : ECodeBuilder) (old new : IlValueId) : Option ECodeBuilder :=
  match ir.valueDomain old with
  | none => some builder
  | some domain =>
    let (result, builder) := builder.setValueDomain new domain
    result.toOption.map fun _ => builder

/-- A block argument is emitted again (`compact.rs:79-90`). -/
def emitArg (builder : ECodeBuilder) (arg : ECodeBlockArg) : Option ECodeBuilder := do
  let (value, builder) := builder.emitBlockArg arg.block arg.width
  setDomain ir builder arg.value (← value.toOption)

/-- The immediate of an operation; a wide constant is interned again (`compact.rs:93-100`). -/
def emitImmediate (builder : ECodeBuilder) (operation : ECodeOp) :
    Option (Nat × ECodeBuilder) :=
  if operation.opcode = .constant ∧ 64 < operation.width then do
    match ← operation.constant ir.constantStorage with
    | some value => builder.internConstant value
    | none => return (operation.immediate, builder)
  else some (operation.immediate, builder)

/-- The domain of one result (`compact.rs:117-126`). -/
def setResultDomain (builder : ECodeBuilder) (pair : Nat × Nat) : Option ECodeBuilder := do
  let old ← (tryFromIndex "value" pair.1).toOption
  let new ← (tryFromIndex "value" pair.2).toOption
  setDomain ir builder old new

/-- An operation is emitted again (`compact.rs:92-127`). -/
def emitOp (builder : ECodeBuilder) (operation : ECodeOp) : Option ECodeBuilder := do
  let (immediate, builder) ← emitImmediate ir builder operation
  let operands ← (ir.opOperandsFor operation).mapM (remapValue valueMap)
  let (result, builder) := builder.emit
    { opcode := operation.opcode
      width := operation.width
      immediate
      address := operation.address
      addressSpace := operation.addressSpace } operands operation.results.len
  let (_, results) ← result.toOption
  ((List.range' operation.results.start operation.results.len).zip
    (List.range' results.start results.len)).foldlM (setResultDomain ir) builder

/-- One round of the `while` loop. -/
def emitItem (builder : ECodeBuilder) : Item → Option ECodeBuilder
  | .op _ operation => emitOp ir valueMap builder operation
  | .blockArg _ arg => emitArg ir builder arg

/-- The arguments of one edge, at the positions that are kept (`compact.rs:130-141`). -/
def emitEdge (blockArgKept : IlCsr Bool) (builder : ECodeBuilder) (entry : IlBlockId × Nat) :
    Option ECodeBuilder := do
  let kept := blockArgKept.row entry.1
  let args ← (((ir.argsForEdge entry.2).zipIdx.filter fun arg =>
    (kept[arg.2]?).getD false).map Prod.fst).mapM (remapValue valueMap)
  let (result, builder) := builder.emitEdgeArgs args
  result.toOption.map fun _ => builder

/-- Whether a value stays (`compact.rs:14-20`). -/
def valueKept (required : IlRequiredDefs) (index : Nat) : Bool :=
  (ir.values.map fun value => required.contains value.definition).getD index false

/-- `rewrite` (`compact.rs:8-148`). -/
def rewrite : Option ECodeIr := do
  let required ← ECodeRequiredDefs.analyse ir
  let operationMap := IlIndexMapper.fromKept ir.operations.length required.opIsRequired
  let valueMap := IlIndexMapper.fromKept ir.values.length (valueKept ir required)
  let blockArgKept ← IlCsr.fromEntries ir.graph.blocks.length
    (ir.blockArgs.zipIdx.map fun (arg, index) => (arg.block, required.blockArgIsRequired index))
  let sourceSpans ← (operationMap.remapSourceSpans ir.sourceSpans).toOption
  let parentSpans ← (operationMap.remapParentSpans ir.parentSpans).toOption
  let graph ← (ir.graph.remapOpRanges operationMap).toOption
  let builder := { ECodeBuilder.new ir.metadata graph with sourceSpans, parentSpans }
  let builder := ir.memoryDomains.foldl (fun builder domain =>
    builder.internMemoryDomain domain.space) builder
  let builder ← (emissionOrder
    (ir.operations.zipIdx.filter fun entry => required.opIsRequired entry.2)
    (ir.blockArgs.zipIdx.filter fun entry => required.blockArgIsRequired entry.2)).foldlM
      (emitItem ir valueMap) builder
  let builder ← ir.graph.successors.zipIdx.foldlM (emitEdge ir valueMap blockArgKept) builder
  return builder.buildUnchecked

end Fugue.Il.ECodeCompaction
