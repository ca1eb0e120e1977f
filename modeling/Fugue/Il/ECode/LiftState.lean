import Fugue.Il.ECode.Ir
import Fugue.Lib.Stateful

/-!
# What is lifted to ECode

`ECodeLiftState` (`fugue-core/src/il/ecode/transform/state`): effects and the expressions they use,
before the domains are renamed to values. `ECodeDomains` and `ECodeRenameState`
(`transform/ssa.rs`) are the tables that the renaming works with.
-/

namespace Fugue.Il

open Fugue.Lib Fugue.Ir

/-- `ECodeLiftExprKind` (`expression.rs:6-10`). -/
inductive ECodeLiftExprKind where
  | op (opcode : ECodeOpcode)
  | readFlag
  | readRegister
  deriving DecidableEq, Repr

/-- `ECodeLiftExpr` (`expression.rs:13-19`). -/
structure ECodeLiftExpr where
  kind : ECodeLiftExprKind
  width : Nat
  operands : IlIndexRange
  immediate : Nat
  addressSpace : Option AddressSpaceId
  deriving DecidableEq, Repr

/-- `ECodeLiftEffect` (`effect.rs:7-14`). -/
structure ECodeLiftEffect where
  opcode : ECodeOpcode
  operands : IlIndexRange
  value : Option IlExprId
  immediate : Nat
  address : Option Address
  addressSpace : Option AddressSpaceId
  deriving DecidableEq, Repr

/-- `ECodeLiftState` (`mod.rs:13-19`). -/
structure ECodeLiftState where
  callPreservedRegisters : List Nat
  expressions : List ECodeLiftExpr
  expressionOperands : List IlExprId
  ops : List ECodeLiftEffect
  opOperands : List IlExprId
  deriving DecidableEq, Repr

namespace ECodeLiftState

variable (source : ECodeLiftState)

/-- `expression_operands_for` (`mod.rs:46-50`); the slice panics when it does not fit. -/
def expressionOperandsFor (expression : ECodeLiftExpr) : Option (List IlExprId) :=
  (expression.operands.checkedSlice source.expressionOperands).toOption

/-- `op_operands_for` (`mod.rs:52-54`). -/
def opOperandsFor (operation : ECodeLiftEffect) : Option (List IlExprId) :=
  (operation.operands.checkedSlice source.opOperands).toOption

end ECodeLiftState

namespace ECodeDomain

/-- The derived order: by variant, then by the payload. -/
def position : ECodeDomain → ℕ ×ₗ ℕ
  | .flag storage => toLex (0, storage)
  | .memory space => toLex (1, space)
  | .register storage => toLex (2, storage)

theorem position_injective : Function.Injective position := by
  intro left right same
  cases left <;> cases right <;>
    simpa [position] using toLex.injective same

instance : LinearOrder ECodeDomain := LinearOrder.lift' position position_injective

/-- The immediate of an undefined value of the domain (`ssa.rs:656-660`). -/
def storage : ECodeDomain → Nat
  | .flag storage => storage
  | .memory space => space
  | .register storage => storage

end ECodeDomain

/-- `ECodeRenameState` (`ssa.rs:21-25`); the last change to undo is at the head. -/
structure ECodeRenameState where
  values : OrdMap ECodeDomain IlValueId
  undo : List (ECodeDomain × Option IlValueId)
  tracking : Bool

namespace ECodeRenameState

/-- `ECodeRenameState::default`. -/
def default : ECodeRenameState := ⟨.empty, [], false⟩

variable (current : ECodeRenameState)

/-- `value` (`ssa.rs:28-30`). -/
def value (domain : ECodeDomain) : Option IlValueId := current.values.get? domain

/-- `define` (`ssa.rs:36-41`). -/
def define (domain : ECodeDomain) (value : IlValueId) : ECodeRenameState :=
  { current with
    values := current.values.insert domain value
    undo := if current.tracking then (domain, current.values.get? domain) :: current.undo
      else current.undo }

/-- `retain` (`ssa.rs:43-53`); the entries that go are at distinct domains, so the order in which
the hash map visits them does not matter. -/
def retain (keep : ECodeDomain → Bool) : ECodeRenameState :=
  { current with
    values := current.values.retain fun domain _ => keep domain
    undo := if current.tracking then
        ((current.values.entries.filter fun entry => !keep entry.1).map fun entry =>
          (entry.1, some entry.2)) ++ current.undo
      else current.undo }

/-- `checkpoint` (`ssa.rs:55-58`), with the state it leaves. -/
def checkpoint : Nat × ECodeRenameState := (current.undo.length, { current with tracking := true })

/-- The loop of `rollback` (`ssa.rs:61-74`). -/
def unwind (checkpoint : Nat) (values : OrdMap ECodeDomain IlValueId) :
    List (ECodeDomain × Option IlValueId) →
      OrdMap ECodeDomain IlValueId × List (ECodeDomain × Option IlValueId)
  | [] => (values, [])
  | (domain, previous) :: undo =>
    if undo.length + 1 > checkpoint then
      match previous with
      | some value => unwind checkpoint (values.insert domain value) undo
      | none => unwind checkpoint (values.erase domain) undo
    else (values, (domain, previous) :: undo)

/-- `rollback` (`ssa.rs:60-75`). -/
def rollback (checkpoint : Nat) : ECodeRenameState :=
  let (values, undo) := unwind checkpoint current.values current.undo
  { current with values, undo }

end ECodeRenameState

/-- `ECodeDomains` (`ssa.rs:103-107`). -/
structure ECodeDomains where
  widths : OrdMap ECodeDomain Nat
  definitions : OrdMap ECodeDomain (List IlBlockId)
  reads : OrdMap ECodeDomain Unit

namespace ECodeDomains

/-- `record_width` (`ssa.rs:191-200`). -/
def recordWidth (domain : ECodeDomain) (width : Nat) : Stateful ECodeDomains IlError Unit := do
  let domains ← get
  match domains.widths.get? domain with
  | some existing => .ofExcept (ensure (existing == width) (.widthMismatch .ecode))
  | none => modify fun domains => { domains with widths := domains.widths.insert domain width }

/-- A block is pushed to the definitions of a domain. -/
def define (domain : ECodeDomain) (block : IlBlockId) : Stateful ECodeDomains IlError Unit :=
  modify fun domains => { domains with
    definitions := domains.definitions.insert domain
      ((domains.definitions.get? domain).getD [] ++ [block]) }

/-- One effect of a block (`ssa.rs:117-154`). -/
def addEffect (source : ECodeLiftState) (block : IlBlockId) (operationIndex : Nat) :
    Stateful ECodeDomains IlError Unit := do
  let operation ← .ofOption source.ops[operationIndex]?
  let write (domain : ECodeDomain) : Stateful ECodeDomains IlError Unit := do
    let value ← .ofExcept (okOr operation.value (.missingComponent .ecode "value"))
    let expression ← .ofOption source.expressions[value]?
    recordWidth domain expression.width
    define domain block
  match operation.opcode with
  | .writeRegister => write (.register operation.immediate)
  | .writeFlag => write (.flag operation.immediate)
  | .store => do
    let space ← .ofExcept
      (okOr operation.addressSpace (.missingComponent .ecode "address space"))
    recordWidth (.memory space) 0
    define (.memory space) block
  | _ => pure ()

/-- One expression (`ssa.rs:159-180`). -/
def addExpression (expression : ECodeLiftExpr) : Stateful ECodeDomains IlError Unit := do
  let read (domain : ECodeDomain) : Stateful ECodeDomains IlError Unit := do
    recordWidth domain expression.width
    modify fun domains => { domains with reads := domains.reads.insert domain () }
  match expression.kind with
  | .readFlag => read (.flag expression.immediate)
  | .readRegister => read (.register expression.immediate)
  | .op .load => do
    let space ← .ofExcept
      (okOr expression.addressSpace (.missingComponent .ecode "address space"))
    recordWidth (.memory space) 0
  | .op _ => pure ()

/-- The loops of `new` (`ssa.rs:110-189`). -/
def collect (source : ECodeLiftState) (graph : IlGraph) : Stateful ECodeDomains IlError Unit := do
  graph.blocks.zipIdx.forM fun (block, blockIndex) => do
    let blockId ← .ofExcept (tryFromIndex "block" blockIndex)
    (List.range' block.ops.start block.ops.len).forM (addEffect source blockId)
  source.expressions.forM addExpression
  modify fun domains => { domains with
    definitions := domains.definitions.filterMap fun _ definitions =>
      some (definitions.insertionSort (· ≤ ·)).dedup }

/-- `new` (`ssa.rs:110-189`). -/
def new (source : ECodeLiftState) (graph : IlGraph) : Option (Except IlError ECodeDomains) :=
  ((collect source graph).outcome ⟨.empty, .empty, .empty⟩).map fun result =>
    result.map Prod.snd

end ECodeDomains

end Fugue.Il
