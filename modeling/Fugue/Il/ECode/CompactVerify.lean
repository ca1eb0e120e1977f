import Fugue.Il.ECode.CompactSpec

/-!
# The compacted tables pass the checks of the verifier

What a kept operation, a kept argument or a kept edge argument refers to is kept as well, so every
check of the old tables carries over to the ranks.
-/

namespace Fugue.Il.ECodeCompaction

open Fugue.Lib Fugue.Bv List ECodeIr

variable {ir new : ECodeIr} {required : IlRequiredDefs}

/-! ## What is kept is closed -/

theorem Marks.valueKept (marks : Marks ir required) {value : IlValueId} {record : ECodeValue}
    (found : ir.values[value]? = some record) (h : ir.RequiredDef record.definition) :
    valueKept ir required value = true :=
  valueKept_eq_true.mpr ⟨record, found, (marks _).mpr h⟩

theorem Marks.operand_kept (marks : Marks ir required) (tables : TablesFit ir)
    {index : Nat} {old : ECodeOp} (found : ir.operations[index]? = some old)
    (kept : required.opIsRequired index = true) {operand : IlValueId}
    (mem : operand ∈ ir.opOperandsFor old) : ECodeCompaction.valueKept ir required operand = true := by
  obtain ⟨record, recordFound, -⟩ := (tables.ops index old found).operands operand mem
  exact marks.valueKept recordFound (.uses ((marks (.op index)).mp kept) (.operand found mem recordFound))

theorem blockArg_kept (checks : DefinitionChecks ir) {index : Nat} {old : ECodeBlockArg}
    (found : ir.blockArgs[index]? = some old) (kept : required.blockArgIsRequired index = true) :
    valueKept ir required old.value = true :=
  valueKept_eq_true.mpr ⟨_, (checks.blockArg_at found).2, kept⟩

theorem mem_argsForEdge {edge : Nat} {value : IlValueId} (mem : value ∈ ir.argsForEdge edge) :
    value ∈ ir.edgeArgValues := by
  unfold argsForEdge at mem
  split at mem
  · exact mem_of_mem_slice mem
  · cases mem

theorem Marks.edgeArg_kept (marks : Marks ir required) (checks : DefinitionChecks ir)
    {edge : Nat} {target : IlBlockId} (found : ir.graph.successors[edge]? = some target)
    {pair : IlValueId × IlBlockArgId} (mem : pair ∈ keptArgs ir required edge target) :
    pair.1 < ir.values.length ∧ ECodeCompaction.valueKept ir required pair.1 = true := by
  obtain ⟨inZip, kept⟩ := mem_filter.mp mem
  obtain ⟨position, at_⟩ := mem_iff_getElem?.mp inZip
  obtain ⟨inputAt, argAt⟩ := getElem?_zip_eq_some.mp at_
  have lt : pair.1 < ir.values.length :=
    (ECodeIr.verifyEdgeArgs_eq_ok.mp checks.edgeArgs_ok).2.2 _
      (mem_argsForEdge (mem_of_getElem? inputAt))
  have record := getElem?_eq_getElem lt
  exact ⟨lt, marks.valueKept record
    (.uses ((marks (.blockArg pair.2)).mp kept) (.edgeArg argAt found inputAt record))⟩

/-! ## Old and new records -/

namespace CopiedOp

variable {kept : Nat → Bool} {old copy : ECodeOp}
  (copied : CopiedOp ir kept new.valueOperands new.constantStorage old copy)

include copied

theorem opOperandsFor_eq : new.opOperandsFor copy = (ir.opOperandsFor old).map (rank kept) :=
  copied.operands

theorem immediate_eq (other : old.opcode ≠ .constant) : copy.immediate = old.immediate := by
  have h := copied.immediate
  rwa [ECodeOp.ImmediateCopied, if_neg fun wide => other wide.1] at h

theorem writtenDomain_eq : writtenDomain copy = writtenDomain old := by
  unfold writtenDomain
  rw [copied.opcode]
  split <;> rename_i opcode
  · rw [copied.immediate_eq (by rw [opcode]; nofun)]
  · rw [copied.immediate_eq (by rw [opcode]; nofun)]
  · rfl

theorem opDomainIsConsistent {domain : ECodeDomain} {value value' : ECodeValue}
    (width : value'.width = value.width)
    (consistent : opDomainIsConsistent domain value old = true) :
    opDomainIsConsistent domain value' copy = true := by
  by_cases constant : old.opcode = .constant
  · unfold ECodeIr.opDomainIsConsistent at consistent
    rw [constant] at consistent
    cases domain <;> simp at consistent
  · unfold ECodeIr.opDomainIsConsistent at *
    rw [copied.opcode, copied.immediate_eq constant, copied.addressSpace, width]
    exact consistent

theorem operands_len (within : old.operands.start ≤ old.operands.stop ∧
    old.operands.stop ≤ ir.valueOperands.length) : copy.operands.len = old.operands.len := by
  rw [← IlIndexRange.length_slice copied.within.2, copied.operands, length_map,
    opOperandsFor, IlIndexRange.length_slice within.2]

end CopiedOp

namespace Compacted

variable (compacted : Compacted ir required new)

include compacted

theorem value_at {value : IlValueId} {record : ECodeValue}
    (found : ir.values[value]? = some record) (kept : valueKept ir required value = true) :
    new.values[rank (valueKept ir required) value]? =
      some ⟨record.width, renumber required record.definition⟩ := by
  obtain ⟨copy, copyFound, old, oldFound, rfl⟩ :=
    compacted.values.copied value (lt_of_getElem? found) kept
  rw [found, Option.some.injEq] at oldFound
  rw [copyFound, oldFound]

variable {position : Nat}

theorem value_of {copy : ECodeValue} (found : new.values[position]? = some copy) :
    ∃ value record, rank (valueKept ir required) value = position ∧
      valueKept ir required value = true ∧ ir.values[value]? = some record ∧
      copy = ⟨record.width, renumber required record.definition⟩ := by
  obtain ⟨value, -, kept, rankEq, record, recordFound, eq⟩ :=
    compacted.values.exists_of_getElem? found
  exact ⟨value, record, rankEq, kept, recordFound, eq⟩

theorem valueDomain_at {value : IlValueId} (lt : value < ir.values.length)
    (kept : valueKept ir required value = true) :
    new.valueDomain (rank (valueKept ir required) value) = ir.valueDomain value := by
  obtain ⟨copy, copyFound, eq⟩ := compacted.domains.copied value lt kept
  rw [valueDomain, copyFound, Option.join_some, eq]

theorem op_at {index : Nat} {old : ECodeOp} (found : ir.operations[index]? = some old)
    (kept : required.opIsRequired index = true) :
    ∃ copy, new.operations[rank required.opIsRequired index]? = some copy ∧
      CopiedOp ir (valueKept ir required) new.valueOperands new.constantStorage old copy := by
  obtain ⟨copy, copyFound, old', oldFound, copied⟩ :=
    compacted.ops.copied index (lt_of_getElem? found) kept
  rw [found, Option.some.injEq] at oldFound
  exact ⟨copy, copyFound, oldFound ▸ copied⟩

theorem op_of {copy : ECodeOp} (found : new.operations[position]? = some copy) :
    ∃ index old, rank required.opIsRequired index = position ∧
      required.opIsRequired index = true ∧ ir.operations[index]? = some old ∧
      CopiedOp ir (valueKept ir required) new.valueOperands new.constantStorage old copy := by
  obtain ⟨index, -, kept, rankEq, old, oldFound, copied⟩ := compacted.ops.exists_of_getElem? found
  exact ⟨index, old, rankEq, kept, oldFound, copied⟩

theorem arg_at {index : Nat} {old : ECodeBlockArg} (found : ir.blockArgs[index]? = some old)
    (kept : required.blockArgIsRequired index = true) :
    new.blockArgs[rank required.blockArgIsRequired index]? =
      some ⟨old.block, rank (valueKept ir required) old.value, old.width⟩ := by
  obtain ⟨copy, copyFound, old', oldFound, rfl⟩ :=
    compacted.args.copied index (lt_of_getElem? found) kept
  rw [found, Option.some.injEq] at oldFound
  rw [copyFound, oldFound]

theorem arg_of {copy : ECodeBlockArg} (found : new.blockArgs[position]? = some copy) :
    ∃ index old, rank required.blockArgIsRequired index = position ∧
      required.blockArgIsRequired index = true ∧ ir.blockArgs[index]? = some old ∧
      copy = ⟨old.block, rank (valueKept ir required) old.value, old.width⟩ := by
  obtain ⟨index, -, kept, rankEq, old, oldFound, eq⟩ := compacted.args.exists_of_getElem? found
  exact ⟨index, old, rankEq, kept, oldFound, eq⟩

/-! ## The checks of single records -/

section

variable (checks : ECodeIr.DefinitionChecks ir)
include checks

theorem verifyBlockArg_ok {copy : ECodeBlockArg} (found : new.blockArgs[position]? = some copy) :
    new.verifyBlockArg copy position = .ok () := by
  obtain ⟨index, old, rfl, kept, oldFound, rfl⟩ := compacted.arg_of found
  obtain ⟨fits, blockLt, valueFound⟩ :=
    ECodeIr.verifyBlockArg_eq_ok.mp (checks.blockArgs_ok index old oldFound)
  refine ECodeIr.verifyBlockArg_eq_ok.mpr ⟨?_, ?_, ?_⟩
  · exact le_trans (Nat.succ_le_succ rank_le_self) fits
  · rw [compacted.graph]
    exact lt_of_lt_of_eq blockLt (length_map _).symm
  · exact compacted.value_at valueFound (blockArg_kept checks oldFound kept)

theorem verifyOpResults_ok {copy : ECodeOp} (found : new.operations[position]? = some copy) :
    new.verifyOpResults copy position = .ok () := by
  obtain ⟨index, old, rfl, kept, oldFound, copied⟩ := compacted.op_of found
  obtain ⟨fits, ⟨ordered, results_le⟩, -, -⟩ :=
    ECodeIr.verifyOpResults_eq_ok.mp (checks.results_ok index old oldFound)
  refine ECodeIr.verifyOpResults_eq_ok.mpr ⟨?_, ?_, copied.within, ?_⟩
  · exact le_trans (Nat.succ_le_succ rank_le_self) fits
  · rw [copied.results, compacted.values.length]
    exact ⟨rank_mono ordered, rank_mono results_le⟩
  · intro value mem
    obtain ⟨offset, at_⟩ := mem_iff_getElem?.mp mem
    rw [copied.results, IlIndexRange.getElem?_slice] at at_
    split at at_
    · rename_i within
      obtain ⟨result, record, rankEq, resultKept, recordFound, rfl⟩ := compacted.value_of at_
      have low : old.results.start ≤ result :=
        (rank_le_iff resultKept).mp (by rw [rankEq]; exact Nat.le_add_right _ _)
      have high : result < old.results.stop := by
        apply (rank_lt_iff resultKept).mp
        rw [rankEq]
        exact Nat.add_lt_of_lt_sub' within
      rw [result_at checks oldFound low high, Option.some.injEq] at recordFound
      rw [← recordFound, copied.width]
      rfl
    · cases at_

theorem verifyValue_ok {copy : ECodeValue} (found : new.values[position]? = some copy) :
    new.verifyValue copy position = .ok () := by
  obtain ⟨value, record, rfl, kept, recordFound, rfl⟩ := compacted.value_of found
  obtain ⟨fits, check⟩ := ECodeIr.verifyValue_eq_ok.mp (checks.values_ok value record recordFound)
  refine ECodeIr.verifyValue_eq_ok.mpr ⟨le_trans (Nat.succ_le_succ rank_le_self) fits, ?_⟩
  have definitionKept : required.contains record.definition = true := by
    obtain ⟨other, otherFound, marked⟩ := valueKept_eq_true.mp kept
    rw [recordFound, Option.some.injEq] at otherFound
    rw [otherFound]
    exact marked
  cases definition : record.definition with
  | op index =>
    simp only [definition] at check definitionKept
    obtain ⟨old, oldFound, low, high⟩ := check
    obtain ⟨copy, copyFound, copied⟩ := compacted.op_at oldFound definitionKept
    refine ⟨copy, copyFound, ?_⟩
    rw [copied.results]
    exact ⟨rank_mono low, rank_lt kept high⟩
  | blockArg index =>
    simp only [definition] at check definitionKept
    obtain ⟨old, oldFound, valueEq, widthEq⟩ := check
    exact ⟨_, compacted.arg_at oldFound definitionKept, by rw [valueEq], widthEq⟩

theorem verifyEdgeArgs_ok (marks : Marks ir required) :
    SsaVerifier.verifyEdgeArgs new = .ok () := by
  have edges := compacted.edges
  have successors : new.graph.successors = ir.graph.successors := by
    rw [compacted.graph]
    rfl
  refine ECodeIr.verifyEdgeArgs_eq_ok.mpr ⟨by rw [edges.length, successors], ?_, ?_⟩
  · intro range mem
    obtain ⟨edge, found⟩ := mem_iff_getElem?.mp mem
    have lt : edge < ir.graph.successors.length :=
      lt_of_lt_of_eq (lt_of_getElem? found) edges.length
    obtain ⟨other, otherFound, within, -⟩ := edges.edge edge _ lt (getElem?_eq_getElem lt)
    rw [found, Option.some.injEq] at otherFound
    rw [otherFound]
    exact within
  · intro value mem
    obtain ⟨edge, target, found, inEdge⟩ := edges.pool value mem
    obtain ⟨pair, pairMem, rfl⟩ := mem_map.mp inEdge
    obtain ⟨lt, kept⟩ := marks.edgeArg_kept checks found pairMem
    rw [compacted.values.length]
    exact rank_lt kept lt

theorem verifyStructure_ok :
    verifyStructure new.graph new.sourceSpans new.parentSpans new.operations.length = .ok () := by
  obtain ⟨wellFormed, bounds, sourceOk, parentOk⟩ := verifyStructure_eq_ok.mp checks.structure_ok
  rw [compacted.graph, compacted.sourceSpans, compacted.parentSpans, compacted.ops.length]
  refine verifyStructure_eq_ok.mpr ⟨IlGraph.rankOps_wellFormed wellFormed, ?_, ?_, ?_⟩
  · intro block mem
    obtain ⟨old, oldMem, rfl⟩ := mem_map.mp mem
    exact ⟨rank_mono (bounds old oldMem).1, rank_mono (bounds old oldMem).2⟩
  · obtain ⟨within, sequential⟩ := IlSourceSpan.verify_eq_ok.mp sourceOk
    refine IlSourceSpan.verify_eq_ok.mpr ⟨?_, @Sequential.rank IlSourceSpan
      required.opIsRequired IlSourceSpan.destination _ (fun _ => rfl) ir.sourceSpans 0 0
      (Nat.zero_le _) (fun span mem => (within span mem).1) sequential⟩
    intro span mem
    obtain ⟨old, oldMem, rfl⟩ := mem_map.mp mem
    have h := within old (mem_filter.mp oldMem).1
    exact ⟨rank_mono h.1, rank_mono h.2⟩
  · obtain ⟨within, sequential⟩ := IlParentSpan.verify_eq_ok.mp parentOk
    refine IlParentSpan.verify_eq_ok.mpr ⟨?_, @Sequential.rank IlParentSpan
      required.opIsRequired IlParentSpan.destination _ (fun _ => rfl) ir.parentSpans 0 0
      (Nat.zero_le _) (fun span mem => (within span mem).1.1) sequential⟩
    intro span mem
    obtain ⟨old, oldMem, rfl⟩ := mem_map.mp mem
    have h := within old (mem_filter.mp oldMem).1
    exact ⟨⟨rank_mono h.1.1, rank_mono h.1.2⟩, h.2⟩

theorem definitionChecks (marks : Marks ir required) :
    DefinitionChecks new where
  structure_ok := compacted.verifyStructure_ok checks
  edgeArgs_ok := compacted.verifyEdgeArgs_ok checks marks
  blockArgs_ok := fun _ _ => compacted.verifyBlockArg_ok checks
  results_ok := fun _ _ => compacted.verifyOpResults_ok checks
  values_ok := fun _ _ => compacted.verifyValue_ok checks

end

theorem domainsFit (domains : DomainsFit ir) : DomainsFit new := by
  refine ⟨compacted.domains.length.trans compacted.values.length.symm, ?_⟩
  intro position copy found
  obtain ⟨value, record, rfl, kept, recordFound, rfl⟩ := compacted.value_of found
  obtain ⟨fits, consistent⟩ := domains.2 value record recordFound
  refine ⟨le_trans (Nat.succ_le_succ rank_le_self) fits, fun domain has => ?_⟩
  rw [compacted.valueDomain_at (lt_of_getElem? recordFound) kept] at has
  have old := consistent domain has
  obtain ⟨other, otherFound, marked⟩ := valueKept_eq_true.mp kept
  rw [recordFound, Option.some.injEq] at otherFound
  subst otherFound
  unfold domainIsConsistent at *
  cases definition : record.definition with
  | blockArg index => simpa only [definition, renumber] using old
  | op index =>
    simp only [definition] at old marked
    cases oldFound : ir.operations[index]? with
    | none => simp [oldFound] at old
    | some operation =>
      simp only [oldFound] at old
      obtain ⟨copy, copyFound, copied⟩ := compacted.op_at oldFound marked
      simp only [renumber, copyFound]
      exact copied.opDomainIsConsistent rfl old

theorem opChecks (tables : TablesFit ir) (marks : Marks ir required)
    {copy : ECodeOp} (found : new.operations[position]? = some copy) :
    OpChecks new copy := by
  obtain ⟨index, old, rfl, kept, oldFound, copied⟩ := compacted.op_of found
  have definitions := tables.definitions
  have checks := tables.ops index old oldFound
  obtain ⟨-, ⟨ordered, results_le⟩, operandsWithin, -⟩ :=
    ECodeIr.verifyOpResults_eq_ok.mp (definitions.results_ok index old oldFound)
  have keptResult : ∀ value, old.results.start ≤ value → value < old.results.stop →
      valueKept ir required value = true :=
    fun value low high =>
      valueKept_eq_true.mpr ⟨_, result_at definitions oldFound low high, kept⟩
  have resultsLen : copy.results.len = old.results.len := by
    have stop : old.results.start + old.results.len = old.results.stop := by
      unfold IlIndexRange.len
      omega
    have ranks : rank (valueKept ir required) old.results.stop =
        rank (valueKept ir required) old.results.start + old.results.len := by
      rw [← stop]
      exact rank_add_of_kept fun value low high => keptResult value low (by omega)
    rw [copied.results]
    show rank _ old.results.stop - rank _ old.results.start = _
    rw [ranks, Nat.add_sub_cancel_left]
  have resultStart : old.results.len = 1 → old.results.start < ir.values.length ∧
      valueKept ir required old.results.start = true := by
    unfold IlIndexRange.len
    intro one
    exact ⟨by omega, keptResult _ le_rfl (by omega)⟩
  refine ⟨?_, ?_, ?_, ?_⟩
  · intro opcode width
    rw [copied.opcode] at opcode
    rw [copied.width] at width
    have immediate := copied.immediate
    rw [ECodeOp.ImmediateCopied, if_pos ⟨opcode, width⟩] at immediate
    obtain ⟨value, -, -, stored⟩ := immediate
    rw [show copy.constantLength = old.constantLength by
      rw [ECodeOp.constantLength, copied.width]; rfl]
    unfold storedBytes at stored
    split at stored
    · assumption
    · cases stored
  · intro domain written
    rw [copied.writtenDomain_eq] at written
    obtain ⟨operands, results, fits, has⟩ := checks.write domain written
    obtain ⟨lt, startKept⟩ := resultStart results
    refine ⟨(copied.operands_len operandsWithin).trans operands, resultsLen.trans results, ?_, ?_⟩
    · rw [copied.results]
      exact le_trans (Nat.succ_le_succ rank_le_self) fits
    · rw [copied.results]
      exact (compacted.valueDomain_at lt startKept).trans has
  · intro operand mem
    rw [copied.opOperandsFor_eq] at mem
    obtain ⟨oldOperand, oldMem, rfl⟩ := mem_map.mp mem
    obtain ⟨record, recordFound, width⟩ := checks.operands oldOperand oldMem
    refine ⟨_, compacted.value_at recordFound (marks.operand_kept tables oldFound kept oldMem), ?_⟩
    rw [copied.opcode, copied.width]
    exact width
  · intro requires
    rw [copied.opcode] at requires
    obtain ⟨space, spaceEq, interned, memory, record, last, recordFound, width, store⟩ :=
      checks.memory requires
    refine ⟨space, copied.addressSpace.trans spaceEq, compacted.memory.keeps _ interned,
      rank (valueKept ir required) memory, _, ?_,
      compacted.value_at recordFound (marks.operand_kept tables oldFound kept
        (mem_of_getLast? last)), width, ?_⟩
    · rw [copied.opOperandsFor_eq, getLast?_map, last, Option.map_some]
    · intro isStore
      rw [copied.opcode] at isStore
      obtain ⟨one, result, resultFound, resultWidth⟩ := store isStore
      obtain ⟨-, startKept⟩ := resultStart one
      refine ⟨resultsLen.trans one, ⟨result.width, renumber required result.definition⟩, ?_,
        resultWidth⟩
      rw [copied.results]
      exact compacted.value_at resultFound startKept

theorem tablesFit (tables : TablesFit ir) (marks : Marks ir required) :
    TablesFit new where
  definitions := compacted.definitionChecks tables.definitions marks
  memoryDomains := compacted.memory.nodup tables.memoryDomains
  domains := compacted.domainsFit tables.domains
  ops := fun _ _ => compacted.opChecks tables marks

end Compacted

end Fugue.Il.ECodeCompaction
