import Fugue.Il.Common.DominanceEvents
import Fugue.Il.Common.Spans
import Fugue.Il.ECode.Builder
import Fugue.Il.ECode.LiftState
import Fugue.Il.ECode.Verify

/-!
# Lifting to SSA form

`PCodeToECodeSsaLifter` (`fugue-core/src/il/ecode/transform/ssa.rs`): the blocks are lifted in a walk
of the dominator tree, with the domains renamed to values, and the blocks that the walk does not
reach after it. Every effect is lifted by `liftOpAt`, which records the operations that it emitted;
from these records the spans are remapped. The expressions are lifted with a work stack, for which
`rounds` bounds the number of rounds: on cyclic expressions the source does not end.
-/

namespace Fugue.Il

open Fugue.Lib Fugue.Ir

/-- `ECodeBuilder::build` (`builder.rs:134-142`). -/
def ECodeBuilder.build (builder : ECodeBuilder) : Option (Except IlError ECodeIr) := do
  match ← builder.buildUnchecked.verify with
  | .ok () => return .ok builder.buildUnchecked
  | .error _ => return .error (.invalidArtefact .ecode)

/-- `PCodeToECodeSsaLifter` (`ssa.rs:84-100`), what it only reads. -/
structure PCodeToECodeSsaLifter where
  source : ECodeLiftState
  graph : IlGraph
  sourceSpans : List IlSourceSpan
  parentSpans : List IlParentSpan

/-- `PCodeToECodeSsaLifter`, what it updates, with the renaming that its functions are passed.
`lifted` is no field of the source: the history of the calls of `lift_op_at`, each with the
operations that it emitted. -/
structure Lifting where
  builder : ECodeBuilder
  values : List (Option IlValueId)
  builtExpressions : List IlExprId
  blockArgs : List (List (ECodeDomain × IlValueId))
  domainWidths : OrdMap ECodeDomain Nat
  entryBlock : Option IlBlockId
  inputDomains : List (ECodeDomain × Nat)
  blocks : List (Option IlBlock)
  edgeArgs : List (List IlValueId)
  opRanges : IlIndexRangeMap
  current : ECodeRenameState
  lifted : List (Nat × IlIndexRange)

namespace Lifting

/-- `op_count` of the emitter. -/
def opCount (s : Lifting) : Nat := s.builder.operations.length

end Lifting

abbrev LiftM := Stateful Lifting IlError

/-- `ExprVisit` (`ssa.rs:79-82`). -/
inductive ExprVisit where
  | enter (expression : IlExprId)
  | exit (expression : IlExprId)
  deriving DecidableEq, Repr

namespace PCodeToECodeSsaLifter

def emitting {α : Type} (call : ECodeBuilder → Except IlError α × ECodeBuilder) : LiftM α := do
  let s ← get
  let a ← .ofExcept (call s.builder).1
  modify fun s => { s with builder := (call s.builder).2 }
  return a

/-- `current.define`. -/
def define (domain : ECodeDomain) (value : IlValueId) : LiftM Unit :=
  modify fun s => { s with current := s.current.define domain value }

/-- An operation with one result in a domain (`ssa.rs:465-467`, `483-489`, `662-664`). -/
def emitInDomain (spec : ECodeOpSpec) (operands : List IlValueId) (domain : ECodeDomain) :
    LiftM IlValueId := do
  let (_, results) ← emitting fun builder => builder.emit spec operands 1
  let value ← .ofExcept (tryFromIndex "value" results.start)
  emitting fun builder => builder.setValueDomain value domain
  return value

/-- `push_undefined` (`ssa.rs:655-667`). -/
def pushUndefined (domain : ECodeDomain) (width : Nat) : LiftM IlValueId :=
  emitInDomain { opcode := .undefined, width, immediate := domain.storage, address := none,
                 addressSpace := none } [] domain

/-- `current_value` (`ssa.rs:638-653`). -/
def currentValue (domain : ECodeDomain) (width : Nat) : LiftM IlValueId := do
  match (← get).current.value domain with
  | some value => return value
  | none =>
    let value ← pushUndefined domain width
    define domain value
    return value

/-- An expression has its value (`ssa.rs:574-575`, `630-631`). -/
def setExpression (expression : IlExprId) (value : IlValueId) : LiftM Unit :=
  modify fun s => { s with
    values := s.values.set expression (some value)
    builtExpressions := s.builtExpressions ++ [expression] }

variable (lifter : PCodeToECodeSsaLifter) (rounds : Nat)

/-- The operands of an expression that is built, with the memory of a load (`ssa.rs:602-614`). -/
def expressionOperands (expression : ECodeLiftExpr) : LiftM (List IlValueId) := do
  let operands ← .ofOption (lifter.source.expressionOperandsFor expression)
  let operands ← operands.mapM fun operand => do
    let value ← .ofOption (← get).values[operand]?
    .ofExcept (okOr value (.missingComponent .ecode "operand"))
  if expression.kind = .op .load then do
    let space ← .ofExcept
      (okOr expression.addressSpace (.missingComponent .ecode "address space"))
    let memory ← currentValue (.memory space) 0
    return operands ++ [memory]
  else return operands

/-- The end of a visit (`ssa.rs:601-631`). -/
def buildExpression (expressionId : IlExprId) : LiftM Unit := do
  let expression ← .ofOption lifter.source.expressions[expressionId]?
  let operands ← lifter.expressionOperands expression
  match expression.kind with
  | .op opcode => do
    let (_, results) ← emitting fun builder => builder.emit
      { opcode, width := expression.width, immediate := expression.immediate, address := none,
        addressSpace := expression.addressSpace } operands 1
    let value ← .ofExcept (tryFromIndex "value" results.start)
    setExpression expressionId value
  | _ => .ofExcept (.error (.unsupportedOpcode .ecode))

/-- The start of a visit (`ssa.rs:561-592`): the visits to make before the others. -/
def enterExpression (expressionId : IlExprId) : LiftM (List ExprVisit) := do
  let expression ← .ofOption lifter.source.expressions[expressionId]?
  let read (domain : ECodeDomain) : LiftM (List ExprVisit) := do
    let value ← currentValue domain expression.width
    setExpression expressionId value
    return []
  match expression.kind with
  | .readFlag => read (.flag expression.immediate)
  | .readRegister => read (.register expression.immediate)
  | .op _ => do
    let operands ← .ofOption (lifter.source.expressionOperandsFor expression)
    return operands.map .enter ++ [.exit expressionId]

/-- One round of `lift_expression`; a visit of an expression that has a value is skipped. -/
def visitExpression (visit : ExprVisit) : LiftM (List ExprVisit) := do
  match visit with
  | .enter expressionId =>
    match ← .ofOption (← get).values[expressionId]? with
    | some _ => return []
    | none => lifter.enterExpression expressionId
  | .exit expressionId =>
    match ← .ofOption (← get).values[expressionId]? with
    | some _ => return []
    | none => do
      lifter.buildExpression expressionId
      return []

/-- The loop of `lift_expression` (`ssa.rs:554-632`); the next visit is the head of the list. -/
def visitExpressions : Nat → List ExprVisit → LiftM Unit
  | 0, _ => .panicked
  | _ + 1, [] => pure ()
  | rounds + 1, visit :: visits => do
    let more ← lifter.visitExpression visit
    visitExpressions rounds (more ++ visits)

/-- `lift_expression` (`ssa.rs:546-636`). -/
def liftExpression (id : IlExprId) : LiftM IlValueId := do
  lifter.visitExpressions rounds [.enter id]
  let value ← .ofOption (← get).values[id]?
  .ofExcept (okOr value (.missingComponent .ecode "expression value"))

/-- `lift_effect_operands` (`ssa.rs:524-544`). -/
def liftEffectOperands (op : ECodeLiftEffect) : LiftM (List IlValueId) := do
  let value ← op.value.toList.mapM (lifter.liftExpression rounds)
  let operands ← .ofOption (lifter.source.opOperandsFor op)
  let operands ← operands.mapM (lifter.liftExpression rounds)
  return value ++ operands

/-- A write to a register or a flag (`ssa.rs:447-469`). -/
def liftWrite (op : ECodeLiftEffect) (domain : ECodeDomain) : LiftM Unit := do
  let sourceExpression ← .ofExcept (okOr op.value (.missingComponent .ecode "value"))
  let expression ← .ofOption lifter.source.expressions[sourceExpression]?
  let source ← lifter.liftExpression rounds sourceExpression
  let value ← emitInDomain { opcode := op.opcode, width := expression.width,
                             immediate := op.immediate, address := none, addressSpace := none }
    [source] domain
  define domain value

/-- A store (`ssa.rs:470-491`). -/
def liftStore (op : ECodeLiftEffect) : LiftM Unit := do
  let space ← .ofExcept (okOr op.addressSpace (.missingComponent .ecode "address space"))
  let operands ← lifter.liftEffectOperands rounds op
  let memory ← currentValue (.memory space) 0
  let value ← emitInDomain { opcode := .store, width := 0, immediate := op.immediate,
                             address := none, addressSpace := some space }
    (operands ++ [memory]) (.memory space)
  define (.memory space) value

/-- The domains that a call keeps (`ssa.rs:511-516`). -/
def keepsAcrossCall : ECodeDomain → Bool
  | .register register =>
    (binarySearchBy (fun preserved => compare preserved register)
      lifter.source.callPreservedRegisters).isSome
  | .flag _ | .memory _ => false

/-- Any other effect (`ssa.rs:492-518`). -/
def liftOther (op : ECodeLiftEffect) : LiftM Unit := do
  let operands ← lifter.liftEffectOperands rounds op
  let _ ← emitting fun builder => builder.emit
    { opcode := op.opcode, width := 0, immediate := op.immediate, address := op.address,
      addressSpace := op.addressSpace } operands 0
  if op.opcode = .call ∨ op.opcode = .callIndirect then
    modify fun s => { s with current := s.current.retain lifter.keepsAcrossCall }

/-- `lift_op` (`ssa.rs:441-522`). -/
def liftOp (op : ECodeLiftEffect) : LiftM Unit :=
  match op.opcode with
  | .writeRegister => lifter.liftWrite rounds op (.register op.immediate)
  | .writeFlag => lifter.liftWrite rounds op (.flag op.immediate)
  | .store => lifter.liftStore rounds op
  | _ => lifter.liftOther rounds op

/-- `reset_expression_cache` (`ssa.rs:435-439`). -/
def resetExpressionCache : LiftM Unit :=
  modify fun s => { s with
    values := s.builtExpressions.foldl (fun values expression => values.set expression none) s.values
    builtExpressions := [] }

/-- Whether a source span starts at the effect (`ssa.rs:415-419`). -/
def startsSpan (index : Nat) : Bool :=
  let span := Lib.partitionPoint (fun span : IlSourceSpan => decide (span.destination.start < index))
    lifter.sourceSpans
  (lifter.sourceSpans[span]?).any fun span => span.destination.start == index

/-- `lift_op_at` (`ssa.rs:414-433`). -/
def liftOpAt (index : Nat) : LiftM Unit := do
  if lifter.startsSpan index then resetExpressionCache
  let start := (← get).opCount
  let op ← .ofOption lifter.source.ops[index]?
  lifter.liftOp rounds op
  let stop := (← get).opCount
  let range ← .ofExcept (IlIndexRange.new start stop)
  let opRanges ← .ofExcept ((← get).opRanges.setRange index range)
  modify fun s => { s with opRanges, lifted := s.lifted ++ [(index, range)] }

/-- `allocate_input_values` (`ssa.rs:399-412`). -/
def allocateInputValues : LiftM Unit := do
  (← get).inputDomains.forM fun (domain, width) => do
    if ((← get).current.value domain).isSome then return
    let value ← pushUndefined domain width
    define domain value

/-- The argument of an edge for a block argument (`ssa.rs:377-388`). -/
def edgeArg (arg : ECodeDomain × IlValueId) : LiftM IlValueId := do
  match (← get).current.value arg.1 with
  | some value => return value
  | none =>
    let width ← .ofOption ((← get).domainWidths.get? arg.1)
    let value ← pushUndefined arg.1 width
    define arg.1 value
    return value

/-- `lift_edge_args` (`ssa.rs:365-397`). -/
def liftEdgeArgs (sourceBlock : IlBlock) : LiftM Unit :=
  (List.range' sourceBlock.successors.start sourceBlock.successors.len).forM fun edge => do
    let successor ← .ofOption lifter.graph.successors[edge]?
    let blockArgs ← .ofOption (← get).blockArgs[successor]?
    let args ← blockArgs.mapM edgeArg
    modify fun s => { s with edgeArgs := s.edgeArgs.set edge args }

/-- `lift_block` (`ssa.rs:329-363`). -/
def liftBlock (block : IlBlockId) : LiftM Unit := do
  let args ← .ofOption (← get).blockArgs[block]?
  args.forM fun (domain, value) => define domain value
  let sourceBlock ← .ofExcept
    (okOr lifter.graph.blocks[block]? (.rangeOutOfBounds block lifter.graph.blocks.length))
  let start := (← get).opCount
  if (← get).entryBlock = some block then allocateInputValues
  resetExpressionCache
  (List.range' sourceBlock.ops.start sourceBlock.ops.len).forM (lifter.liftOpAt rounds)
  lifter.liftEdgeArgs sourceBlock
  let stop := (← get).opCount
  let ops ← .ofExcept (IlIndexRange.new start stop)
  modify fun s => { s with blocks := s.blocks.set block (some { sourceBlock with ops }) }

/-- The loop of `lift_block_tree` (`ssa.rs:310-324`). -/
def liftEvents : List IlDominanceEvent → List Nat → LiftM Unit
  | [], _ => pure ()
  | .enter block :: events, checkpoints => do
    let (checkpoint, current) := (← get).current.checkpoint
    modify fun s => { s with current }
    lifter.liftBlock rounds block
    liftEvents events (checkpoint :: checkpoints)
  | .exit _ :: events, checkpoint :: checkpoints => do
    modify fun s => { s with current := s.current.rollback checkpoint }
    liftEvents events checkpoints
  | .exit _ :: _, [] => .panicked

/-- The arguments that a domain needs (`ssa.rs:678-691`), with the pairs placed so far. -/
def placeDomain (frontiers : IlDominanceFrontier) (widths : OrdMap ECodeDomain Nat)
    (placed : List (IlBlockId × ECodeDomain)) (definition : ECodeDomain × List IlBlockId) :
    LiftM (List (IlBlockId × ECodeDomain)) := do
  let width ← .ofOption (widths.get? definition.1)
  let result ← .ofOption (frontiers.placePhis lifter.graph.blocks.length definition.2)
  let placement ← .ofExcept result
  placement.foldlM (fun placed block => do
    if (block, definition.1) ∈ placed then return placed
    let value ← emitting fun builder => builder.emitBlockArg block width
    emitting fun builder => builder.setValueDomain value definition.1
    let args ← .ofOption (← get).blockArgs[block]?
    modify fun s => { s with blockArgs := s.blockArgs.set block (args ++ [(definition.1, value)]) }
    return placed ++ [(block, definition.1)]) placed

/-- `place_block_args` (`ssa.rs:669-698`). -/
def placeBlockArgs (domains : ECodeDomains) (dominance : IlDominance) : LiftM Unit := do
  let frontiers ← .ofOption (dominance.frontiers lifter.graph.blocks lifter.graph.successors)
  let _ ← domains.definitions.entries.foldlM (lifter.placeDomain frontiers domains.widths) []
  modify fun s => { s with
    blockArgs := s.blockArgs.map fun args => args.insertionSort fun a b => a.1 ≤ b.1 }

/-- The spans go to the builder (`ssa.rs:253-256`, `295-298`). -/
def setSpans : LiftM Unit := do
  let sourceSpans ← .ofExcept ((← get).opRanges.remapSourceSpans lifter.sourceSpans)
  modify fun s => { s with builder := { s.builder with sourceSpans } }
  let parentSpans ← .ofExcept ((← get).opRanges.remapParentSpans lifter.parentSpans)
  modify fun s => { s with builder := { s.builder with parentSpans } }

/-- `lift_linear` (`ssa.rs:245-259`). -/
def liftLinear : LiftM Unit := do
  (List.range lifter.source.ops.length).forM (lifter.liftOpAt rounds)
  modify fun s => { s with builder := { s.builder with graph := lifter.graph } }
  lifter.setSpans

/-- The domains that are read and never written (`ssa.rs:268-273`). -/
def inputDomains (domains : ECodeDomains) : Option (List (ECodeDomain × Nat)) :=
  ((domains.reads.entries.map Prod.fst).filter fun domain =>
    (domains.definitions.get? domain).isNone).mapM fun domain =>
      (domains.widths.get? domain).map fun width => (domain, width)

/-- The blocks are lifted in the order of the dominator tree (`ssa.rs:262-275`). -/
def liftTree (entry : IlBlockId) : LiftM Unit := do
  let dominance ← .ofOption
    (IlDominance.fromBlocks lifter.graph.blocks lifter.graph.successors entry)
  let result ← .ofOption (ECodeDomains.new lifter.source lifter.graph)
  let domains ← .ofExcept result
  lifter.placeBlockArgs domains dominance
  let inputDomains ← .ofOption (inputDomains domains)
  let events ← .ofOption (dominance.eventsFrom entry)
  modify fun s => { s with
    entryBlock := some entry, inputDomains, domainWidths := domains.widths, current := .default }
  lifter.liftEvents rounds events []

/-- A block that the walk did not reach (`ssa.rs:277-283`). -/
def liftRemaining (blockIndex : Nat) : LiftM Unit := do
  let blockId ← .ofExcept (tryFromIndex "block" blockIndex)
  match ← .ofOption (← get).blocks[blockIndex]? with
  | some _ => return
  | none => do
    modify fun s => { s with current := .default }
    lifter.liftBlock rounds blockId

/-- The tables of the blocks and the edges go to the builder (`ssa.rs:285-294`). -/
def setBlocks : LiftM Unit := do
  (← get).edgeArgs.forM fun args => do
    let _ ← emitting fun builder => builder.emitEdgeArgs args
  let blocks ← .ofOption ((← get).blocks.mapM id)
  let graph ← .ofExcept (lifter.graph.setOpRanges (blocks.map IlBlock.ops))
  modify fun s => { s with builder := { s.builder with graph } }

/-- `lift_blocks` (`ssa.rs:261-301`). -/
def liftBlocks (entry : IlBlockId) : LiftM Unit := do
  lifter.liftTree rounds entry
  (List.range lifter.graph.blocks.length).forM (lifter.liftRemaining rounds)
  lifter.setBlocks
  lifter.setSpans

/-- `new` (`ssa.rs:204-234`). -/
def start (builder : ECodeBuilder) : Lifting where
  builder
  values := List.replicate lifter.source.expressions.length none
  builtExpressions := []
  blockArgs := List.replicate lifter.graph.blocks.length []
  domainWidths := .empty
  entryBlock := none
  inputDomains := []
  blocks := List.replicate lifter.graph.blocks.length none
  edgeArgs := List.replicate lifter.graph.successors.length []
  opRanges := .unmapped lifter.source.ops.length
  current := .default
  lifted := []

/-- The body of `lift`. -/
def run : LiftM ECodeIr := do
  match lifter.graph.entryBlock with
  | some entry => lifter.liftBlocks rounds entry
  | none => lifter.liftLinear rounds
  let result ← .ofOption (← get).builder.build
  .ofExcept result

/-- `lift` (`ssa.rs:236-243`), with the final state. -/
def lift (builder : ECodeBuilder) : Option (Except IlError (ECodeIr × Lifting)) :=
  (lifter.run rounds).outcome (lifter.start builder)

end PCodeToECodeSsaLifter

end Fugue.Il
