import Fugue.Analysis.Switch.Evaluator
import Fugue.Analysis.Value.StridedExact

/-!
# The interval analysis

`ECodeStridedIntervals` (`fugue-core/src/il/ecode/analysis/intervals.rs`): a worklist of values, each
of which is evaluated on the intervals of its operands; a block argument is widened by the join of
what the edges bring. `none` stands for a panic.
-/

namespace Fugue.Analysis.Value.StridedInterval

open Fugue.Bv

/-- `PartialEq`, with the one of bit vectors. -/
def eq : StridedInterval → StridedInterval → Bool
  | .empty width, .empty other => width == other
  | .interval lo hi stride, .interval lo' hi' stride' =>
    lo.eq lo' && hi.eq hi' && stride.eq stride'
  | _, _ => false

end Fugue.Analysis.Value.StridedInterval

namespace Fugue.Il

open Fugue.Lib Fugue.Bv Fugue.Analysis.Value

/-- `IlSsaBlockArgInputs::iter` (`il/common/ssa.rs:129-139`). -/
def IlSsaBlockArgInputs.iter (inputs : IlSsaBlockArgInputs) : List (IlValueId × List IlValueId) :=
  ((List.range inputs.inputs.len).filter fun index => inputs.args.getD index false).map
    fun index => (index, inputs.inputs.row index)

/-- `collect_ssa_uses` (`il/common/ssa.rs:142-162`): an operation and the index of its operand. -/
def collectSsaUses (valueCount : Nat) (operationOperands : List (List IlValueId)) :
    Option (IlCsr (IlOpId × Nat)) := do
  let entries ← operationOperands.zipIdx.mapM fun entry => do
    let user ← (tryFromIndex "operation" entry.2).toOption
    return entry.1.zipIdx.map fun operand => (operand.1, (user, operand.2))
  IlCsr.fromEntries valueCount entries.flatten

namespace ECodeStridedIntervals

variable (ir : ECodeIr)

/-- What `analyse` prepares before its loop (`intervals.rs:14-29`). -/
structure Tables where
  blockArgInputs : IlSsaBlockArgInputs
  dependents : IlCsr IlValueId
  uses : IlCsr (IlOpId × Nat)
  deriving DecidableEq

/-- `ECodeBlockArgInputs::analyse`, the arguments that depend on a value, and
`ECodeUses::analyse`. -/
def Tables.new : Option Tables := do
  let inputs ← IlSsaBlockArgInputs.new ir.values.length ir.graph
    (ir.blockArgs.map fun arg => (arg.block, arg.value)) ir.argsForEdge
  let dependents ← IlCsr.fromEntries ir.values.length
    (inputs.iter.flatMap fun entry => entry.2.map fun input => (input, entry.1))
  let uses ← collectSsaUses ir.values.length (ir.operations.map ir.opOperandsFor)
  return ⟨inputs, dependents, uses⟩

/-- The casts of `evaluate` (`intervals.rs:98-103`). -/
def unaryTransfer : ECodeOpcode → Option StridedInterval.CastOp
  | .copy | .writeFlag | .writeRegister => some .castTo
  | .zeroExtend => some .zeroExtend
  | .signExtend => some .signExtend
  | .truncate => some .truncate
  | _ => none

/-- The operations of two intervals in `evaluate` (`intervals.rs:104-113`). -/
def binaryTransfer : ECodeOpcode → Option StridedInterval.BinaryOp
  | .add => some .add
  | .sub => some .sub
  | .mul => some .mul
  | .leftShift => some .shl
  | .and => some .and
  | .or => some .or
  | .logicalRightShift => some .shr
  | _ => none

variable (intervals : List StridedInterval)

/-- The interval of an operand, if the operation has it (`intervals.rs:80-84`). -/
def operand (operands : List IlValueId) (index : Nat) :
    Option (Option StridedInterval) :=
  match operands[index]? with
  | none => some none
  | some value => intervals[value]?.map some

/-- The result of a cast (`intervals.rs:85-88`). -/
def unary (width : Nat) (transfer : StridedInterval.CastOp) :
    Option StridedInterval → Option StridedInterval
  | some arg => transfer.apply arg width
  | none => StridedInterval.full width

/-- The result of an operation of two intervals (`intervals.rs:89-94`). -/
def binary (width : Nat) (transfer : StridedInterval.BinaryOp) :
    Option StridedInterval → Option StridedInterval → Option StridedInterval
  | some left, some right => do
    let left ← left.castTo width
    let right ← right.castTo width
    transfer.apply left right
  | some left, none => do
    let _ ← left.castTo width
    StridedInterval.full width
  | none, _ => StridedInterval.full width

/-- The interval of an operation (`intervals.rs:96-118`). -/
def evaluateOp (width : Nat) (operation : ECodeOp) :
    Option StridedInterval :=
  match unaryTransfer operation.opcode with
  | some transfer => do
    unary width transfer (← operand intervals (ir.opOperandsFor operation) 0)
  | none =>
    match binaryTransfer operation.opcode with
    | some transfer => do
      let left ← operand intervals (ir.opOperandsFor operation) 0
      let right ← operand intervals (ir.opOperandsFor operation) 1
      binary width transfer left right
    | none => StridedInterval.full width

/-- `evaluate` (`intervals.rs:67-119`). -/
def evaluate (value : IlValueId) : Option StridedInterval :=
  let width := (ir.valueWidth value).getD 0
  if width = 0 then some (.empty 0)
  else do
    match ← ir.constantValue value with
    | some constant => StridedInterval.single constant
    | none =>
      match ir.definingOp value with
      | none => StridedInterval.full width
      | some operation => evaluateOp ir intervals width operation

/-- What the edges bring for a block argument (`intervals.rs:37-40`). -/
def joined (value : IlValueId) (inputs : List IlValueId) :
    Option StridedInterval :=
  inputs.foldlM (fun accumulated input => do accumulated.join (← intervals[input]?))
    (.empty ((ir.valueWidth value).getD 0))

variable (tables : Tables)

/-- The next interval of a value (`intervals.rs:34-44`). -/
def next (intervals : List StridedInterval) (value : IlValueId) :
    Option StridedInterval :=
  match tables.blockArgInputs.inputsFor value with
  | some [] => StridedInterval.full ((ir.valueWidth value).getD 0)
  | some inputs => do
    let joined ← joined ir intervals value inputs
    (← intervals[value]?).widen joined
  | none => evaluate ir intervals value

/-- The state of the loop; the top of the worklist is its head. -/
structure State where
  intervals : List StridedInterval
  worklist : List Nat
  deriving DecidableEq

/-- The results of the operations that use the value (`intervals.rs:51-54`). -/
def users (value : IlValueId) : Option (List Nat) := do
  let rows ← ((tables.uses.checkedRow value).getD []).mapM fun useSite => do
    let user ← ir.operations[useSite.1]?
    return List.range' user.results.start user.results.len
  return rows.flatten

/-- One round of the `while` loop (`intervals.rs:32-56`). -/
def round (s : State) : Option (State ⊕ List StridedInterval) :=
  match s.worklist with
  | [] => some (.inr s.intervals)
  | index :: worklist => do
    let value ← (tryFromIndex "value" index).toOption
    let next ← next ir tables s.intervals value
    let current ← s.intervals[index]?
    if next.eq current then return .inl ⟨s.intervals, worklist⟩
    else do
      let users ← users ir tables value
      return .inl ⟨s.intervals.set index next,
        (users ++ tables.dependents.row index).reverse ++ worklist⟩

def State.start : State :=
  ⟨ir.values.map fun value => .empty value.width, List.range ir.values.length⟩

/-- `analyse` (`intervals.rs:12-59`), for at most `fuel` rounds. -/
def analyse (fuel : Nat) : Option (List StridedInterval) := do
  let tables ← Tables.new ir
  runLoop (round ir tables) fuel (State.start ir)

/-- A run of the loop from its first state. -/
def Reached : State → Prop :=
  Relation.ReflTransGen (fun s t => round ir tables s = some (.inl t)) (State.start ir)

end ECodeStridedIntervals

end Fugue.Il
