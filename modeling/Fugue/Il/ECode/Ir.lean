import Fugue.Bv.BitVec
import Fugue.Il.Common.SsaVerify

/-!
# The ECode form

`fugue-core/src/il/ecode`: the opcodes, the records of operations, values and block arguments, and
the tables of an `ECodeIr`. An operation names its operands and its results by ranges of the
operand pool and of the value table.
-/

namespace Fugue.Il

open Fugue.Lib Fugue.Ir Fugue.Bv

/-- `ECodeOpcode` (`opcode.rs:7-81`). -/
inductive ECodeOpcode where
  | add | address | and | arithmeticRightShift | boolAnd | boolNot | boolOr | boolXor | branch
  | branchIndirect | call | callIndirect | carry | conditionalBranch | constant | copy
  | countLeadingZeros | countOnes | extract | floatAbs | floatAdd | floatCeiling | floatDiv
  | floatEqual | floatFloor | floatIsNan | floatLess | floatLessEqual | floatMul | floatNegate
  | floatNotEqual | floatRound | floatSqrt | floatSub | floatToFloat | floatToInt | insert
  | intEqual | intLess | intLessEqual | intNotEqual | intSignedLess | intSignedLessEqual
  | intToFloat | intrinsic | intrinsicResult | leftShift | load | logicalRightShift | mul | negate
  | not | or | return | signExtend | signedBorrow | signedCarry | signedDiv | signedRem | store
  | sub | trap | truncate | undefined | unsignedDiv | unsignedRem | writeFlag | writeRegister
  | xor | zeroExtend
  deriving DecidableEq, Repr

namespace ECodeOpcode

/-- `has_side_effect` (`opcode.rs:84-100`). -/
def hasSideEffect : ECodeOpcode → Bool
  | .store | .intrinsic | .intrinsicResult | .branch | .conditionalBranch | .branchIndirect
  | .call | .callIndirect | .return | .trap | .writeRegister | .writeFlag => true
  | _ => false

/-- `has_uniform_operand_width` (`opcode.rs:102-120`). -/
def hasUniformOperandWidth : ECodeOpcode → Bool
  | .add | .sub | .mul | .unsignedDiv | .signedDiv | .unsignedRem | .signedRem | .negate | .and
  | .or | .xor | .not | .writeRegister | .writeFlag => true
  | _ => false

/-- `requires_memory_domain` (`opcode.rs:198-200`). -/
def requiresMemoryDomain : ECodeOpcode → Bool
  | .load | .store => true
  | _ => false

end ECodeOpcode

/-- `ECodeDomain` (`domain.rs:18-22`); the storage of a flag or a register is a `u64`. -/
inductive ECodeDomain where
  | flag (storage : Nat)
  | memory (space : AddressSpaceId)
  | register (storage : Nat)
  deriving DecidableEq, Repr

/-- `ECodeDomain::is_register_or_flag` (`domain.rs:37-39`). -/
def ECodeDomain.isRegisterOrFlag : ECodeDomain → Bool
  | .flag _ | .register _ => true
  | .memory _ => false

/-- `ECodeValue` (`value.rs:5-8`). -/
structure ECodeValue where
  width : Nat
  definition : IlSsaDef
  deriving DecidableEq, Repr

/-- `ECodeBlockArg` (`value.rs:34-38`). -/
structure ECodeBlockArg where
  block : IlBlockId
  value : IlValueId
  width : Nat
  deriving DecidableEq, Repr

/-- `ECodeMemoryDomain` (`memory.rs:5-7`). -/
structure ECodeMemoryDomain where
  space : AddressSpaceId
  deriving DecidableEq, Repr

/-- `ECodeOp` (`operation.rs:76-84`). -/
structure ECodeOp where
  opcode : ECodeOpcode
  results : IlIndexRange
  operands : IlIndexRange
  width : Nat
  immediate : Nat
  address : Option Address
  addressSpace : Option AddressSpaceId
  deriving DecidableEq, Repr

namespace ECodeOp

/-- The number of bytes of a constant (`width.div_ceil(8)`). -/
def constantLength (operation : ECodeOp) : Nat := (operation.width + 7) / 8

/-- `constant_bytes` (`operation.rs:163-170`). -/
def constantBytes (operation : ECodeOp) (constants : List UInt8) : Option (List UInt8) :=
  if operation.opcode ≠ .constant ∨ operation.width ≤ 64 then none
  else if operation.immediate + operation.constantLength ≤ constants.length then
    some ((constants.drop operation.immediate).take operation.constantLength)
  else none

/-- `constant` (`operation.rs:172-181`); the outer `none` is a panic of the bit vector, on a width
that it does not support. -/
def constant (operation : ECodeOp) (constants : List UInt8) : Option (Option BitVec) :=
  if operation.opcode ≠ .constant then some none
  else if operation.width ≤ 64 then
    (BitVec.fromU64 operation.immediate operation.width).map some
  else
    match operation.constantBytes constants with
    | none => some none
    | some bytes => do
      let value ← BitVec.fromLeBytesWith bytes (bytes.length * 8)
      return some (← value.cast operation.width)

end ECodeOp

/-- `IlMetadata` (`artefact.rs:37-40`). -/
structure IlMetadata where
  function : Nat
  inputRevision : Nat
  deriving DecidableEq, Repr

/-- `ECodeIr` (`ir/mod.rs:27-41`). -/
structure ECodeIr where
  metadata : IlMetadata
  graph : IlGraph
  sourceSpans : List IlSourceSpan
  parentSpans : List IlParentSpan
  values : List ECodeValue
  valueDomains : List (Option ECodeDomain)
  blockArgs : List ECodeBlockArg
  edgeArgs : List IlIndexRange
  edgeArgValues : List IlValueId
  operations : List ECodeOp
  valueOperands : List IlValueId
  memoryDomains : List ECodeMemoryDomain
  constantStorage : List UInt8
  deriving DecidableEq, Repr

namespace ECodeIr

/-- `value_domain` (`ir/mod.rs:68-70`). -/
def valueDomain (ir : ECodeIr) (value : IlValueId) : Option ECodeDomain :=
  (ir.valueDomains[value]?).join

/-- `memory_domain` (`ir/mod.rs:104-108`). -/
def memoryDomain (ir : ECodeIr) (space : AddressSpaceId) : Option ECodeMemoryDomain :=
  ir.memoryDomains.find? fun domain => domain.space == space

/-- `op_operands_for` (`ir/mod.rs:110-112`). -/
def opOperandsFor (ir : ECodeIr) (operation : ECodeOp) : List IlValueId :=
  operation.operands.slice ir.valueOperands

/-- `value_width` (`ir/mod.rs:118-120`). -/
def valueWidth (ir : ECodeIr) (value : IlValueId) : Option Nat :=
  (ir.values[value]?).map ECodeValue.width

/-- `args_for_edge` (`ir/mod.rs:122-127`) of an edge of the table. -/
def argsForEdge (ir : ECodeIr) (edge : Nat) : List IlValueId :=
  match ir.edgeArgs[edge]? with
  | some range => range.slice ir.edgeArgValues
  | none => []

/-- `defining_op` (`ir/mod.rs:136-142`). -/
def definingOp (ir : ECodeIr) (value : IlValueId) : Option ECodeOp := do
  let record ← ir.values[value]?
  match record.definition with
  | .op operation => ir.operations[operation]?
  | .blockArg _ => none

/-- `memory_operand` (`ir/mod.rs:217-223`). -/
def memoryOperand (ir : ECodeIr) (operation : ECodeOp) : Option IlValueId :=
  if operation.opcode.requiresMemoryDomain then (ir.opOperandsFor operation).getLast? else none

/-- `pointer_operand` (`ir/mod.rs:225-231`). -/
def pointerOperand (ir : ECodeIr) (operation : ECodeOp) : Option IlValueId :=
  match operation.opcode with
  | .load | .store => (ir.opOperandsFor operation).head?
  | _ => none

instance : SsaIl ECodeIr where
  form := .ecode
  graph := graph
  valueCount ir := ir.values.length
  valueDefinition ir value := (ir.values[value]?).map ECodeValue.definition
  valueWidth := valueWidth
  blockArgCount ir := ir.blockArgs.length
  blockArgBlock ir arg := (ir.blockArgs[arg]?).map ECodeBlockArg.block
  blockArgValue ir arg := (ir.blockArgs[arg]?).map ECodeBlockArg.value
  blockArgWidth ir arg := (ir.blockArgs[arg]?).map ECodeBlockArg.width
  opCount ir := ir.operations.length
  opOperands ir operation := (ir.operations[operation]?).map ir.opOperandsFor
  edgeArgs := edgeArgs
  edgeArgValues := edgeArgValues
  memoryDomainCount ir := ir.memoryDomains.length
  memoryDomainSpace ir index := (ir.memoryDomains[index]?).map ECodeMemoryDomain.space

end ECodeIr

end Fugue.Il
