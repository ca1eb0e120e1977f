import Fugue.Il.ECode.Ir

/-!
# The ECode verifier

`fugue-core/src/il/ecode/ir/verify.rs`. The loops of `ECodeVerifier::verify` are named after what
they check; each is a check of one record. `none` stands for a panic of the analyses that
`verify_uses` runs.
-/

namespace Fugue.Il

open Fugue.Lib Fugue.Ir

/-- `VerifyError` (`verify.rs:10-58`). -/
inductive VerifyError where
  | blockArgCount (block expected found : Nat)
  | duplicateMemoryDomain
  | edgeArgTableCount (expected found : Nat)
  | il (error : IlError)
  | inconsistentValueDomain (value : Nat)
  | invalidOpPlacement (operation : Nat)
  | invalidOperandCount (operation expected found : Nat)
  | invalidResultCount (operation expected found : Nat)
  | invalidValueDef
  | nonDominatingEdgeArg (value predecessor successor : Nat)
  | nonDominatingUse (value user : Nat)
  | structure (error : StructureError)
  | valueDomainCount (expected found : Nat)
  deriving DecidableEq, Repr

namespace VerifyError

/-- `from_structure` (`il/common/verify.rs:35-40`). -/
def fromStructure : StructureError → VerifyError
  | .il error => .il error
  | error => .structure error

/-- `From<SsaVerifyError>` (`verify.rs:99-138`). -/
def fromSsa : SsaVerifyError → VerifyError
  | .blockArgCount block expected found => .blockArgCount block expected found
  | .duplicateMemoryDomain => .duplicateMemoryDomain
  | .edgeArgTableCount expected found => .edgeArgTableCount expected found
  | .il error => .il error
  | .invalidOpPlacement operation => .invalidOpPlacement operation
  | .invalidValueDef => .invalidValueDef
  | .nonDominatingEdgeArg value predecessor successor =>
    .nonDominatingEdgeArg value predecessor successor
  | .nonDominatingUse value user => .nonDominatingUse value user

end VerifyError

namespace ECodeIr

variable (ir : ECodeIr)

/-- The domain of an operation's result fits the operation (`verify.rs:297-326`). -/
def opDomainIsConsistent (domain : ECodeDomain) (value : ECodeValue) (operation : ECodeOp) :
    Bool :=
  match domain with
  | .flag storage => value.width != 0 && operation.immediate == storage &&
      match operation.opcode with
      | .undefined | .writeFlag => true
      | _ => false
  | .memory space => value.width == 0 &&
      match operation.opcode with
      | .store => operation.addressSpace == some space
      | .undefined => operation.immediate == space
      | _ => false
  | .register storage => value.width != 0 && operation.immediate == storage &&
      match operation.opcode with
      | .undefined | .writeRegister => true
      | _ => false

/-- The domain of a value fits its definition (`verify.rs:287-327`). -/
def domainIsConsistent (domain : ECodeDomain) (value : ECodeValue) : Bool :=
  match value.definition with
  | .blockArg _ => if domain.isRegisterOrFlag then value.width != 0 else value.width == 0
  | .op operation =>
    match ir.operations[operation]? with
    | some operation => opDomainIsConsistent domain value operation
    | none => false

/-- `verify_value_domains` (`verify.rs:273-333`). -/
def verifyValueDomains : Except VerifyError Unit := do
  ensure (ir.valueDomains.length == ir.values.length)
    (.valueDomainCount ir.values.length ir.valueDomains.length)
  ir.values.zipIdx.forM fun (value, index) => do
    let valueId ← (tryFromIndex "value" index).mapError .il
    match ir.valueDomain valueId with
    | none => .ok ()
    | some domain =>
      ensure (ir.domainIsConsistent domain value) (.inconsistentValueDomain (idValue valueId))

/-- The loop over the block arguments (`verify.rs:160-183`). -/
def verifyBlockArg (arg : ECodeBlockArg) (argIndex : Nat) : Except VerifyError Unit := do
  let argId ← (tryFromIndex "block argument" argIndex).mapError .il
  ensure (decide (arg.block < ir.graph.blocks.length))
    (.il (.rangeOutOfBounds arg.block ir.graph.blocks.length))
  let value ← okOr ir.values[arg.value]? (.il (.rangeOutOfBounds arg.value ir.values.length))
  ensure (value.definition == .blockArg argId && value.width == arg.width) .invalidValueDef

variable (operation : ECodeOp)

/-- The ranges and the results of an operation (`verify.rs:186-201`). -/
def verifyOpResults (operationIndex : Nat) : Except VerifyError Unit := do
  let operationId ← (tryFromIndex "operation" operationIndex).mapError .il
  (operation.results.verifyBounds ir.values.length).mapError .il
  (operation.operands.verifyBounds ir.valueOperands.length).mapError .il
  (operation.results.slice ir.values).forM fun value => do
    ensure (value.definition == .op operationId) .invalidValueDef
    ensure (value.width == operation.width) (.il (.widthMismatch .ecode))

/-- The bytes of a wide constant (`verify.rs:203-217`). -/
def verifyConstant : Except VerifyError Unit :=
  if operation.opcode = .constant ∧ 64 < operation.width then
    ensure (decide (operation.immediate + operation.constantLength ≤ ir.constantStorage.length))
      (.il (.rangeOutOfBounds (operation.immediate + operation.constantLength)
        ir.constantStorage.length))
  else .ok ()

/-- `verify_domain_write` (`verify.rs:335-374`). -/
def verifyDomainWrite (operationId : IlOpId) : Except VerifyError Unit := do
  let expectedDomain := match operation.opcode with
    | .writeFlag => some (ECodeDomain.flag operation.immediate)
    | .writeRegister => some (ECodeDomain.register operation.immediate)
    | _ => none
  match expectedDomain with
  | none => .ok ()
  | some expected =>
    ensure (operation.operands.len == 1)
      (.invalidOperandCount (idValue operationId) 1 operation.operands.len)
    ensure (operation.results.len == 1)
      (.invalidResultCount (idValue operationId) 1 operation.results.len)
    let result ← (tryFromIndex "value" operation.results.start).mapError .il
    ensure (ir.valueDomain result == some expected) (.inconsistentValueDomain (idValue result))

/-- The operands of an operation (`verify.rs:221-231`). -/
def verifyOperands : Except VerifyError Unit := do
  let operands ← (operation.operands.checkedSlice ir.valueOperands).mapError .il
  operands.forM fun operand => do
    let value ← okOr ir.values[operand]? (.il (.rangeOutOfBounds operand ir.values.length))
    ensure (!(operation.opcode.hasUniformOperandWidth && value.width != operation.width))
      (.il (.widthMismatch .ecode))

/-- `verify_memory_op` (`verify.rs:376-413`). -/
def verifyMemoryOp (operationId : IlOpId) : Except VerifyError Unit := do
  ensure (ir.pointerOperand operation).isSome (.il (.missingComponent .ecode "pointer"))
  let memory ← okOr (ir.memoryOperand operation) (.il (.missingComponent .ecode "memory domain"))
  -- the operand was looked up before
  let record ← okOr ir.values[memory]? (.il (.rangeOutOfBounds memory ir.values.length))
  ensure (record.width == 0) (.il (.widthMismatch .ecode))
  if operation.opcode = .store then
    ensure (operation.results.len == 1)
      (.invalidResultCount (idValue operationId) 1 operation.results.len)
    let result ← okOr ir.values[operation.results.start]?
      (.il (.rangeOutOfBounds operation.results.start ir.values.length))
    ensure (result.width == 0) (.il (.widthMismatch .ecode))

/-- The memory domain of an operation (`verify.rs:233-243`). -/
def verifyMemory (operationId : IlOpId) : Except VerifyError Unit :=
  if operation.opcode.requiresMemoryDomain then do
    let space ← okOr operation.addressSpace (.il (.missingComponent .ecode "memory domain"))
    ensure (ir.memoryDomain space).isSome (.il (.missingComponent .ecode "memory domain"))
    ir.verifyMemoryOp operation operationId
  else .ok ()

/-- The loop over the operations (`verify.rs:185-244`). -/
def verifyOp (operationIndex : Nat) : Except VerifyError Unit := do
  ir.verifyOpResults operation operationIndex
  ir.verifyConstant operation
  ir.verifyDomainWrite operation operationIndex
  ir.verifyOperands operation
  ir.verifyMemory operation operationIndex

/-- The loop over the values (`verify.rs:246-269`). -/
def verifyValue (value : ECodeValue) (valueIndex : Nat) : Except VerifyError Unit := do
  let valueId ← (tryFromIndex "value" valueIndex).mapError .il
  match value.definition with
  | .op operation =>
    let record ← okOr ir.operations[operation]? .invalidValueDef
    ensure (record.results.containsIndex valueId) .invalidValueDef
  | .blockArg arg =>
    let record ← okOr ir.blockArgs[arg]? .invalidValueDef
    ensure (record.value == valueId && record.width == value.width) .invalidValueDef

/-- The predicate on the arguments of an edge (`verify.rs:271-276`). -/
def verifyEdgeArg (incoming destination : IlValueId) : Except VerifyError Unit :=
  ensure (ir.valueDomain incoming == ir.valueDomain destination)
    (.inconsistentValueDomain (idValue destination))

/-- The checks before `verify_uses` (`verify.rs:150-269`). -/
def verifyTables : Except VerifyError Unit := do
  (verifyStructure ir.graph ir.sourceSpans ir.parentSpans ir.operations.length).mapError
    .fromStructure
  (SsaVerifier.verifyMemoryDomains ir).mapError .fromSsa
  ir.verifyValueDomains
  (SsaVerifier.verifyEdgeArgs ir).mapError .fromSsa
  ir.blockArgs.zipIdx.forM fun (arg, argIndex) => ir.verifyBlockArg arg argIndex
  ir.operations.zipIdx.forM fun (operation, operationIndex) => ir.verifyOp operation operationIndex
  ir.values.zipIdx.forM fun (value, valueIndex) => ir.verifyValue value valueIndex

/-- `verify` (`verify.rs:149-279`). -/
def verify : Option (Except VerifyError Unit) :=
  match ir.verifyTables with
  | .error error => some (.error error)
  | .ok () => SsaVerifier.verifyUses ir .fromSsa ir.verifyEdgeArg

end ECodeIr

end Fugue.Il
