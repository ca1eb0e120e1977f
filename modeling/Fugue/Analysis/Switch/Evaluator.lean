import Fugue.Il.Common.BlockArgInputs
import Fugue.Il.ECode.Evaluate

/-!
# Evaluation of switch targets

`SwitchTargetEvaluator` (`fugue-core/src/analysis/switch/interval/evaluator.rs`): the target of an
indirect branch is evaluated for one value of the switch index after the other. Results are
memoised; those that depend on the index are dropped after each evaluation. The hash map and the
hash set are functions; an outer `none` is a panic.
-/

namespace Fugue.Il

open Fugue.Bv

/-- `ECodeBlockArgInputs::common_input_for` (`il/ecode/analysis/def_use.rs:69-73`). -/
def IlSsaBlockArgInputs.commonInputFor (inputs : IlSsaBlockArgInputs) (arg : IlValueId) :
    Option IlValueId := do
  let incoming ← inputs.inputsFor arg
  let first ← incoming.head?
  if incoming.all (· == first) then some first else none

/-- `ECodeIr::constant_value` (`il/ecode/ir/mod.rs:175-188`), for the rounds that are left. -/
def ECodeIr.constantFrom (ir : ECodeIr) : Nat → IlValueId → Option (Option BitVec)
  | 0, _ => some none
  | rounds + 1, current =>
    match ir.definingOp current with
    | none => some none
    | some operation =>
      if operation.opcode = .writeFlag ∨ operation.opcode = .writeRegister then
        match (ir.opOperandsFor operation).head? with
        | none => some none
        | some next => ir.constantFrom rounds next
      else operation.constant ir.constantStorage

/-- `ECodeIr::constant_value`. -/
def ECodeIr.constantValue (ir : ECodeIr) (value : IlValueId) : Option (Option BitVec) :=
  ir.constantFrom ir.values.length value

end Fugue.Il

namespace Fugue.Analysis.Switch

open Fugue.Bv Fugue.Il Fugue.Ir

/-- What the evaluator reads of `SwitchIntervalRecovery`: the function, the inputs of its block
arguments and the step limit of the configuration. -/
structure SwitchContext where
  ssa : ECodeIr
  blockArgInputs : IlSsaBlockArgInputs
  maxTraceSteps : Nat
  space : AddressSpaceId

/-- `EvaluationStep` (`evaluator.rs:19-24`). -/
inductive EvaluationStep where
  | apply (value : IlValueId)
  | evaluate (value : IlValueId)
  | forward (value input : IlValueId)
  deriving DecidableEq, Repr

/-- `SwitchTargetEvaluator` (`evaluator.rs:11-17`); the top of the stack is the head of the list. -/
structure SwitchTargetEvaluator where
  memo : IlValueId → Option BitVec
  dependent : IlValueId → Bool
  stack : List EvaluationStep

/-- A pure `read_memory`, which gets an address and a number of bytes. -/
abbrev ReadMemory := Address → Nat → Option BitVec

namespace SwitchTargetEvaluator

/-- `new` (`evaluator.rs:27-35`). -/
def new : SwitchTargetEvaluator := ⟨fun _ => none, fun _ => false, []⟩

variable (context : SwitchContext) (readMemory : ReadMemory) (evaluator : SwitchTargetEvaluator)

/-- `load` (`evaluator.rs:150-164`). -/
def load (operation : ECodeOp) (pointer : BitVec) : OptionT Option BitVec := do
  let bytes := (operation.width + 7) / 8
  if bytes = 0 then failure
  let space := operation.addressSpace.getD context.space
  let offset ← OptionT.mk (some pointer.toU64)
  let value ← OptionT.mk (some (readMemory ⟨space, offset⟩ bytes))
  OptionT.lift (value.cast operation.width)

/-- `self.memo.get(&value)`. -/
def lookup (value : IlValueId) : OptionT Option BitVec := OptionT.mk (some (evaluator.memo value))

/-- `apply` (`evaluator.rs:122-148`). -/
def apply (value : IlValueId) (operation : ECodeOp) : OptionT Option BitVec :=
  match operation.opcode with
  | .constant => OptionT.mk (context.ssa.constantValue value)
  | .load => do
    let pointer ← OptionT.mk (some (context.ssa.pointerOperand operation))
    load context readMemory operation (← evaluator.lookup pointer)
  | .writeFlag | .writeRegister => do
    let input ← OptionT.mk (some (context.ssa.opOperandsFor operation).head?)
    OptionT.lift ((← evaluator.lookup input).cast operation.width)
  | opcode => do
    let operands ← OptionT.mk (some ((context.ssa.opOperandsFor operation).mapM evaluator.memo))
    opcode.evaluate operation.width operands

/-- `self.stack.push(step)`. -/
def push (step : EvaluationStep) : SwitchTargetEvaluator :=
  { evaluator with stack := step :: evaluator.stack }

/-- An operand is evaluated unless its value is known. -/
def pushUnknown (value : IlValueId) : SwitchTargetEvaluator :=
  if (evaluator.memo value).isSome then evaluator else evaluator.push (.evaluate value)

/-- `EvaluationStep::Evaluate` (`evaluator.rs:65-96`). -/
def evaluateValue (value : IlValueId) : Option SwitchTargetEvaluator :=
  if (evaluator.memo value).isSome then some evaluator
  else
    match context.ssa.definingOp value with
    | none =>
      match context.blockArgInputs.commonInputFor value with
      | none => some evaluator
      | some input => some ((evaluator.push (.forward value input)).pushUnknown input)
    | some operation =>
      if operation.opcode = .load then do
        let pointer ← context.ssa.pointerOperand operation
        return (evaluator.push (.apply value)).pushUnknown pointer
      else
        some ((context.ssa.opOperandsFor operation).foldl pushUnknown
          (evaluator.push (.apply value)))

/-- The result of a value is known, and depends on the index if `depends` says so. -/
def record (value : IlValueId) (result : BitVec) (depends : Bool) : SwitchTargetEvaluator :=
  { evaluator with
    memo := Function.update evaluator.memo value (some result)
    dependent := if depends then Function.update evaluator.dependent value true
      else evaluator.dependent }

/-- One step (`evaluator.rs:64-118`); the inner `none` is the early return. -/
def step : EvaluationStep → Option (Option SwitchTargetEvaluator)
  | .evaluate value => some (evaluator.evaluateValue context value)
  | .apply value =>
    match context.ssa.definingOp value with
    | none => some none
    | some operation =>
      (evaluator.apply context readMemory value operation).run.map fun result =>
        result.map fun result => evaluator.record value result
          ((context.ssa.opOperandsFor operation).any evaluator.dependent)
  | .forward value input =>
    some ((evaluator.memo input).map fun result =>
      evaluator.record value result (evaluator.dependent input))

/-- The loop, with the steps that are left: the state at its end, and whether the stack ran empty. -/
def run : Nat → SwitchTargetEvaluator → Option (SwitchTargetEvaluator × Bool)
  | 0, evaluator => some (evaluator, evaluator.stack.isEmpty)
  | limit + 1, evaluator =>
    match evaluator.stack with
    | [] => some (evaluator, true)
    | item :: stack =>
      match step context readMemory { evaluator with stack } item with
      | none => none
      | some none => some (evaluator, false)
      | some (some next) => run limit next

/-- The state in which an evaluation starts (`evaluator.rs:44-48`). -/
def start (target index : IlValueId) (assignment : BitVec) : SwitchTargetEvaluator where
  memo := Function.update evaluator.memo index (some assignment)
  dependent := Function.update (fun _ => false) index true
  stack := [.evaluate target]

/-- `evaluate` (`evaluator.rs:37-120`): the evaluator after it, and the result. -/
def evaluate (target index : IlValueId) (assignment : BitVec) :
    Option (SwitchTargetEvaluator × Option BitVec) := do
  let (final, finished) ←
    run context readMemory context.maxTraceSteps (evaluator.start target index assignment)
  let result := if finished then final.memo target else none
  return ({ final with
    memo := fun value => if final.dependent value then none else final.memo value }, result)

/-- The evaluator after a sequence of assignments; none if one of the evaluations panics. -/
def evaluateAll (target index : IlValueId) (assignments : List BitVec) :
    Option SwitchTargetEvaluator :=
  assignments.foldlM (fun evaluator assignment =>
    (evaluator.evaluate context readMemory target index assignment).map Prod.fst) evaluator

end SwitchTargetEvaluator

end Fugue.Analysis.Switch
