import Fugue.Il.ECode.VerifySpec

/-!
# The table checks as properties

`verifyTables_eq_ok` reads the checks that `verify` makes before it looks at the uses: the
definitions, the domains of values and of memory, and what each operation asks of its operands.
-/

namespace Fugue.Il.ECodeIr

open Fugue.Lib Fugue.Ir List ECodeMemoryDomain

variable {ir : ECodeIr}

def writtenDomain (operation : ECodeOp) : Option ECodeDomain :=
  match operation.opcode with
  | .writeFlag => some (.flag operation.immediate)
  | .writeRegister => some (.register operation.immediate)
  | _ => none

/-- What the checks of one operation ask for, beyond its results. -/
structure OpChecks (ir : ECodeIr) (operation : ECodeOp) : Prop where
  constant : operation.opcode = .constant → 64 < operation.width →
    operation.immediate + operation.constantLength ≤ ir.constantStorage.length
  write : ∀ domain, writtenDomain operation = some domain → operation.operands.len = 1 ∧
    operation.results.len = 1 ∧ operation.results.start + 1 ≤ u32Max ∧
    ir.valueDomain operation.results.start = some domain
  operands : ∀ operand ∈ ir.opOperandsFor operation, ∃ value, ir.values[operand]? = some value ∧
    (operation.opcode.hasUniformOperandWidth = true → value.width = operation.width)
  memory : operation.opcode.requiresMemoryDomain = true → ∃ space,
    operation.addressSpace = some space ∧ ⟨space⟩ ∈ ir.memoryDomains ∧
    ∃ memory record, (ir.opOperandsFor operation).getLast? = some memory ∧
      ir.values[memory]? = some record ∧ record.width = 0 ∧
      (operation.opcode = .store → operation.results.len = 1 ∧
        ∃ result, ir.values[operation.results.start]? = some result ∧ result.width = 0)

variable {operation : ECodeOp}

theorem verifyConstant_eq_ok : ir.verifyConstant operation = .ok () ↔
    (operation.opcode = .constant → 64 < operation.width →
      operation.immediate + operation.constantLength ≤ ir.constantStorage.length) := by
  unfold verifyConstant
  split
  · rename_i wide
    rw [ensure_eq_ok, decide_eq_true_eq]
    exact ⟨fun le _ _ => le, fun h => h wide.1 wide.2⟩
  · rename_i narrow
    exact ⟨fun _ opcode width => absurd ⟨opcode, width⟩ narrow, fun _ => rfl⟩

theorem verifyDomainWrite_eq_ok {index : Nat} :
    ir.verifyDomainWrite operation index = .ok () ↔
      ∀ domain, writtenDomain operation = some domain → operation.operands.len = 1 ∧
        operation.results.len = 1 ∧ operation.results.start + 1 ≤ u32Max ∧
        ir.valueDomain operation.results.start = some domain := by
  have byDomain : ir.verifyDomainWrite operation index =
      (writtenDomain operation).elim (Except.ok ()) (fun expected => do
        ensure (operation.operands.len == 1)
          (VerifyError.invalidOperandCount (idValue index) 1 operation.operands.len)
        ensure (operation.results.len == 1)
          (.invalidResultCount (idValue index) 1 operation.results.len)
        let result ← (tryFromIndex "value" operation.results.start).mapError .il
        ensure (ir.valueDomain result == some expected)
          (.inconsistentValueDomain (idValue result))) := by
    unfold verifyDomainWrite writtenDomain
    cases operation.opcode <;> rfl
  rw [byDomain]
  cases written : writtenDomain operation with
  | none => simp
  | some expected =>
    simp only [Option.elim_some, Option.some.injEq, forall_eq']
    rw [andThen_eq_ok, andThen_eq_ok, ensure_eq_ok, ensure_eq_ok, beq_iff_eq, beq_iff_eq,
      bind_eq_ok]
    refine and_congr_right fun _ => and_congr_right fun _ => ?_
    constructor
    · rintro ⟨result, resultEq, domain⟩
      obtain ⟨eq, fits⟩ := tryFromIndex_eq_ok (mapError_eq_ok.mp resultEq)
      rw [ensure_eq_ok, beq_iff_eq, eq] at domain
      exact ⟨fits, domain⟩
    · rintro ⟨fits, domain⟩
      refine ⟨operation.results.start, mapError_eq_ok.mpr (tryFromIndex_ok fits), ?_⟩
      rw [ensure_eq_ok, beq_iff_eq]
      exact domain

theorem verifyOperands_eq_ok (within : operation.operands.start ≤ operation.operands.stop ∧
      operation.operands.stop ≤ ir.valueOperands.length) :
    ir.verifyOperands operation = .ok () ↔
      ∀ operand ∈ ir.opOperandsFor operation, ∃ value, ir.values[operand]? = some value ∧
        (operation.opcode.hasUniformOperandWidth = true → value.width = operation.width) := by
  unfold verifyOperands
  rw [bind_eq_ok]
  have operands : operation.operands.checkedSlice ir.valueOperands =
      .ok (ir.opOperandsFor operation) := IlIndexRange.checkedSlice_eq_ok.mpr ⟨within, rfl⟩
  simp only [operands, mapError_eq_ok, Except.ok.injEq, exists_eq_left', forM_eq_ok]
  refine forall₂_congr fun operand _ => ?_
  rw [bind_eq_ok]
  cases operation.opcode.hasUniformOperandWidth <;> simp

theorem memoryDomain_isSome {space : AddressSpaceId} :
    (ir.memoryDomain space).isSome = true ↔ ⟨space⟩ ∈ ir.memoryDomains := by
  unfold memoryDomain
  rw [find?_isSome]
  constructor
  · intro ⟨domain, mem, eq⟩
    rw [beq_iff_eq] at eq
    exact eq ▸ mem
  · intro mem
    exact ⟨_, mem, beq_self_eq_true _⟩

theorem verifyMemory_eq_ok {index : Nat} :
    ir.verifyMemory operation index = .ok () ↔
      (operation.opcode.requiresMemoryDomain = true → ∃ space,
        operation.addressSpace = some space ∧ ⟨space⟩ ∈ ir.memoryDomains ∧
        ∃ memory record, (ir.opOperandsFor operation).getLast? = some memory ∧
          ir.values[memory]? = some record ∧ record.width = 0 ∧
          (operation.opcode = .store → operation.results.len = 1 ∧
            ∃ result, ir.values[operation.results.start]? = some result ∧ result.width = 0)) := by
  unfold verifyMemory
  cases requires : operation.opcode.requiresMemoryDomain with
  | false => simp
  | true =>
    simp only [if_true, forall_const]
    rw [bind_eq_ok]
    refine exists_congr fun space => and_congr okOr_eq_ok ?_
    rw [andThen_eq_ok, ensure_eq_ok, memoryDomain_isSome]
    refine and_congr_right fun _ => ?_
    have pointer : ir.pointerOperand operation = (ir.opOperandsFor operation).head? := by
      unfold pointerOperand
      unfold ECodeOpcode.requiresMemoryDomain at requires
      split <;> simp_all
    have last : ir.memoryOperand operation = (ir.opOperandsFor operation).getLast? := by
      rw [memoryOperand, requires, if_pos rfl]
    unfold verifyMemoryOp
    rw [andThen_eq_ok, ensure_eq_ok, pointer, last, bind_eq_ok]
    simp only [okOr_eq_ok]
    constructor
    · rintro ⟨-, memory, memoryEq, rest⟩
      obtain ⟨record, found, rest⟩ := bind_eq_ok.mp rest
      obtain ⟨width, rest⟩ := andThen_eq_ok.mp rest
      rw [okOr_eq_ok] at found
      rw [ensure_eq_ok, beq_iff_eq] at width
      refine ⟨memory, record, memoryEq, found, width, fun store => ?_⟩
      rw [if_pos store] at rest
      obtain ⟨count, rest⟩ := andThen_eq_ok.mp rest
      obtain ⟨result, resultFound, resultWidth⟩ := bind_eq_ok.mp rest
      rw [ensure_eq_ok, beq_iff_eq] at count resultWidth
      exact ⟨count, result, okOr_eq_ok.mp resultFound, resultWidth⟩
    · rintro ⟨memory, record, memoryEq, found, width, store⟩
      refine ⟨?_, memory, memoryEq, bind_eq_ok.mpr ⟨record, okOr_eq_ok.mpr found,
        andThen_eq_ok.mpr ⟨by rw [ensure_eq_ok, beq_iff_eq]; exact width, ?_⟩⟩⟩
      · cases operands : ir.opOperandsFor operation with
        | nil =>
          rw [operands] at memoryEq
          cases memoryEq
        | cons head tail => rfl
      · split
        · rename_i isStore
          obtain ⟨count, result, resultFound, resultWidth⟩ := store isStore
          refine andThen_eq_ok.mpr ⟨by rw [ensure_eq_ok, beq_iff_eq]; exact count,
            bind_eq_ok.mpr ⟨result, okOr_eq_ok.mpr resultFound, ?_⟩⟩
          rw [ensure_eq_ok, beq_iff_eq]
          exact resultWidth
        · rfl

theorem verifyMemoryDomains_eq_ok : SsaVerifier.verifyMemoryDomains ir = .ok () ↔
    (ir.memoryDomains.map space).Nodup := by
  unfold SsaVerifier.verifyMemoryDomains
  rw [forM_eq_ok, List.Nodup, pairwise_iff_getElem]
  have space_at : ∀ index, SsaIl.memoryDomainSpace ir index =
      (ir.memoryDomains.map space)[index]? := by
    intro index
    rw [getElem?_map]
    rfl
  have count : SsaIl.memoryDomainCount ir = (ir.memoryDomains.map space).length :=
    (length_map _).symm
  rw [count]
  simp only [space_at]
  generalize ir.memoryDomains.map space = spaces
  constructor
  · intro all i j iLt jLt lt eq
    obtain ⟨space, found, check⟩ := bind_eq_ok.mp (all j (mem_range.mpr jLt))
    rw [okOr_eq_ok, getElem?_eq_getElem jLt] at found
    rw [ensure_eq_ok, Bool.not_eq_true', any_eq_false] at check
    apply check i (mem_range.mpr lt)
    rw [getElem?_eq_getElem iLt, eq, found]
    exact beq_self_eq_true _
  · intro apart j jMem
    have jLt := mem_range.mp jMem
    refine bind_eq_ok.mpr ⟨spaces[j], okOr_eq_ok.mpr (getElem?_eq_getElem jLt), ?_⟩
    rw [ensure_eq_ok, Bool.not_eq_true', any_eq_false]
    intro i iMem same
    have lt := mem_range.mp iMem
    rw [getElem?_eq_getElem (by omega : i < spaces.length), beq_iff_eq,
      Option.some.injEq] at same
    exact apart i j (by omega) jLt lt same

/-- What `verify_value_domains` asks for. -/
def DomainsFit (ir : ECodeIr) : Prop :=
  ir.valueDomains.length = ir.values.length ∧
    ∀ (i : Nat) (value : ECodeValue), ir.values[i]? = some value → i + 1 ≤ u32Max ∧
      ∀ domain, ir.valueDomain i = some domain → ir.domainIsConsistent domain value = true

theorem verifyValueDomains_eq_ok : ir.verifyValueDomains = .ok () ↔ DomainsFit ir := by
  unfold verifyValueDomains DomainsFit
  rw [andThen_eq_ok, ensure_eq_ok, beq_iff_eq, forM_zipIdx_eq_ok]
  refine and_congr_right fun _ => forall₃_congr fun i value _ => ?_
  rw [bind_eq_ok]
  constructor
  · intro ⟨id, idEq, check⟩
    obtain ⟨rfl, fits⟩ := tryFromIndex_eq_ok (mapError_eq_ok.mp idEq)
    refine ⟨fits, fun domain has => ?_⟩
    simpa [has] using check
  · intro ⟨fits, check⟩
    refine ⟨i, mapError_eq_ok.mpr (tryFromIndex_ok fits), ?_⟩
    cases has : ir.valueDomain i with
    | none => rfl
    | some domain => simpa using check domain has

structure TablesFit (ir : ECodeIr) : Prop where
  definitions : DefinitionChecks ir
  memoryDomains : (ir.memoryDomains.map ECodeMemoryDomain.space).Nodup
  domains : DomainsFit ir
  ops : ∀ (i : Nat) (operation : ECodeOp), ir.operations[i]? = some operation →
    OpChecks ir operation

theorem verifyOp_eq_ok {index : Nat} :
    ir.verifyOp operation index = .ok () ↔
      ir.verifyOpResults operation index = .ok () ∧ OpChecks ir operation := by
  unfold verifyOp
  rw [andThen_eq_ok, andThen_eq_ok, andThen_eq_ok, andThen_eq_ok, verifyConstant_eq_ok,
    verifyDomainWrite_eq_ok, verifyMemory_eq_ok]
  refine and_congr_right fun results => ?_
  rw [verifyOperands_eq_ok (verifyOpResults_eq_ok.mp results).2.2.1]
  exact ⟨fun ⟨constant, write, operands, memory⟩ => ⟨constant, write, operands, memory⟩,
    fun h => ⟨h.constant, h.write, h.operands, h.memory⟩⟩

theorem verifyTables_eq_ok : ir.verifyTables = .ok () ↔ TablesFit ir := by
  unfold verifyTables
  rw [andThen_eq_ok, andThen_eq_ok, andThen_eq_ok, andThen_eq_ok, andThen_eq_ok, andThen_eq_ok,
    mapError_eq_ok, mapError_eq_ok, mapError_eq_ok, forM_zipIdx_eq_ok, forM_zipIdx_eq_ok,
    forM_zipIdx_eq_ok, verifyMemoryDomains_eq_ok, verifyValueDomains_eq_ok]
  constructor
  · intro ⟨structure_ok, memory, domains, edgeArgs_ok, blockArgs_ok, ops_ok, values_ok⟩
    have ops : ∀ (i : Nat) (operation : ECodeOp), ir.operations[i]? = some operation →
        ir.verifyOpResults operation i = .ok () ∧ OpChecks ir operation :=
      fun i operation found => verifyOp_eq_ok.mp (ops_ok i operation found)
    exact ⟨⟨structure_ok, edgeArgs_ok, blockArgs_ok, fun i operation found =>
      (ops i operation found).1, values_ok⟩, memory, domains,
      fun i operation found => (ops i operation found).2⟩
  · intro ⟨definitions, memory, domains, ops⟩
    exact ⟨definitions.structure_ok, memory, domains, definitions.edgeArgs_ok,
      definitions.blockArgs_ok, fun i operation found =>
        verifyOp_eq_ok.mpr ⟨definitions.results_ok i operation found, ops i operation found⟩,
      definitions.values_ok⟩

end Fugue.Il.ECodeIr
