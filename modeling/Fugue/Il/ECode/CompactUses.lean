import Fugue.Il.ECode.CompactVerify

/-!
# Compaction keeps the IR well formed

Compaction does not touch the blocks and the edges, so the dominance of the graph is the same. A
kept value is available where it is used as it was before, and the verifier accepts the result
(`rewrite_wellFormed`).
-/

namespace Fugue.Il

open Fugue.Lib Fugue.Bv SsaVerifier List Option SsaIl

theorem IlGraph.dominance_rankOps (kept : Nat → Bool) (graph : IlGraph) :
    (graph.rankOps kept).dominance = graph.dominance := by
  have entry : (graph.rankOps kept).entryBlock = graph.entryBlock := by
    unfold IlGraph.entryBlock IlGraph.rankOps
    simp only [isEmpty_map, findIdx?_map]
    rfl
  unfold IlGraph.dominance
  rw [entry]
  cases graph.entryBlock with
  | none => rfl
  | some entry =>
    exact @IlDominance.fromBlocks_map (fun block => { block with ops := block.ops.rank kept })
      (fun _ => rfl) graph.blocks graph.successors entry

theorem SsaVerifier.verifyLinearUses_eq_ok {I : Type} [SsaIl I] {ir : I}
    (ops_le : opCount ir ≤ u32Max) :
    verifyLinearUses ir = .ok () ↔ ∀ operation < opCount ir,
      ∃ operands, opOperands ir operation = some operands ∧
        ∀ value ∈ operands, Precedes ir value operation := by
  unfold verifyLinearUses
  rw [forM_eq_ok]
  simp only [mem_range]
  refine forall₂_congr fun operation lt => ?_
  rw [bind_eq_ok, tryFromIndex_ok (le_trans lt ops_le)]
  simp [Except.mapError, verifyOperandsPrecede_eq_ok]

namespace ECodeCompaction

variable {ir new : ECodeIr} {required : IlRequiredDefs}

theorem keptArgs_map_snd {edge : Nat} {target : IlBlockId}
    (length : (ir.argsForEdge edge).length = (argsOf ir target).length) :
    (keptArgs ir required edge target).map Prod.snd =
      (argsOf ir target).filter required.blockArgIsRequired := by
  conv_rhs => rw [← map_snd_zip length.ge, List.filter_map]
  rfl

namespace Compacted

variable (compacted : Compacted ir required new)

include compacted

theorem argsOf_eq (block : IlBlockId) :
    argsOf new block = ((argsOf ir block).filter required.blockArgIsRequired).map
      (rank required.blockArgIsRequired) := by
  unfold argsOf
  rw [show blockArgCount new = rank required.blockArgIsRequired ir.blockArgs.length from
    compacted.args.length, range_rank, List.filter_map, List.filter_filter, List.filter_filter]
  refine congrArg _ (filter_congr fun arg mem => ?_)
  have lt : arg < ir.blockArgs.length := mem_range.mp mem
  cases kept : required.blockArgIsRequired arg with
  | false => simp
  | true =>
    have old : blockArgBlock ir arg = some ir.blockArgs[arg].block := by
      show (ir.blockArgs[arg]?).map _ = _
      rw [getElem?_eq_getElem lt, map_some]
    have copy : blockArgBlock new (rank required.blockArgIsRequired arg) =
        some ir.blockArgs[arg].block := by
      show (new.blockArgs[_]?).map _ = _
      rw [compacted.arg_at (getElem?_eq_getElem lt) kept, map_some]
    simp [Function.comp, old, copy, Bool.true_and, Bool.and_true]

theorem argsForEdge_eq {edge : Nat} {target : IlBlockId}
    (found : ir.graph.successors[edge]? = some target) :
    new.argsForEdge edge = newEdgeArgs ir required edge target := by
  obtain ⟨range, rangeFound, -, slice⟩ := compacted.edges.edge edge target
    (lt_of_getElem? found) found
  rw [ECodeIr.argsForEdge, rangeFound]
  exact slice

variable {value : IlValueId}

section

variable (kept : valueKept ir required value = true)
include kept

theorem definition_at :
    ∃ definition, valueDefinition ir value = some definition ∧
      required.contains definition = true ∧
      valueDefinition new (rank (valueKept ir required) value) =
        some (renumber required definition) := by
  obtain ⟨record, found, marked⟩ := valueKept_eq_true.mp kept
  refine ⟨record.definition, ?_, marked, ?_⟩
  · show (ir.values[value]?).map _ = _
    rw [found, map_some]
  · show (new.values[_]?).map _ = _
    rw [compacted.value_at found kept, map_some]

variable {block : IlBlockId}

omit kept in
theorem blockArgBlock_at {arg : IlBlockArgId} (kept : required.blockArgIsRequired arg = true)
    (home : blockArgBlock ir arg = some block) :
    blockArgBlock new (rank required.blockArgIsRequired arg) = some block := by
  obtain ⟨record, found, rfl⟩ := map_eq_some_iff.mp home
  show (new.blockArgs[_]?).map _ = _
  rw [compacted.arg_at found kept, map_some]

omit kept in
theorem inBlock_iff {operation : Nat} (kept : required.opIsRequired operation = true) :
    new.graph.InBlock (rank required.opIsRequired operation) block ↔
      ir.graph.InBlock operation block := by
  rw [compacted.graph, IlGraph.inBlock_rankOps kept]

variable {dominance : IlDominance}

theorem availableAt {operation : Nat} (available : AvailableAt ir dominance value block operation) :
    AvailableAt new dominance (rank (valueKept ir required) value) block
      (rank required.opIsRequired operation) := by
  obtain ⟨definition, old, marked, copy⟩ := compacted.definition_at kept
  unfold AvailableAt at *
  rw [old] at available
  rw [copy]
  cases definition with
  | op definition =>
    obtain ⟨home, inBlock, before⟩ := available
    refine ⟨home, (compacted.inBlock_iff marked).mpr inBlock, ?_⟩
    have opMarked : required.opIsRequired definition = true := marked
    split at before
    · rename_i same
      rw [if_pos same]
      exact rank_lt opMarked before
    · rename_i other
      rw [if_neg other]
      exact before
  | blockArg arg =>
    obtain ⟨home, homeEq, dominates⟩ := available
    exact ⟨home, compacted.blockArgBlock_at marked homeEq, dominates⟩

theorem availableAfter (available : AvailableAfter ir dominance value block) :
    AvailableAfter new dominance (rank (valueKept ir required) value) block := by
  obtain ⟨definition, old, marked, copy⟩ := compacted.definition_at kept
  unfold AvailableAfter at *
  rw [old] at available
  rw [copy]
  cases definition with
  | op definition =>
    obtain ⟨home, inBlock, before⟩ := available
    exact ⟨home, (compacted.inBlock_iff marked).mpr inBlock, before⟩
  | blockArg arg =>
    obtain ⟨home, homeEq, dominates⟩ := available
    exact ⟨home, compacted.blockArgBlock_at marked homeEq, dominates⟩

theorem precedes {operation : Nat} (before : Precedes ir value operation) :
    Precedes new (rank (valueKept ir required) value) (rank required.opIsRequired operation) := by
  obtain ⟨definition, old, marked, copy⟩ := compacted.definition_at kept
  unfold Precedes at *
  rw [old] at before
  rw [copy]
  cases definition with
  | op definition => exact rank_lt marked before
  | blockArg arg => trivial

end

theorem edgeFits (checks : ECodeIr.DefinitionChecks ir) (marks : Marks ir required)
    {predecessor successor : IlBlockId} {edge : Nat}
    (found : ir.graph.successors[edge]? = some successor)
    (fits : EdgeFits ir dominance (fun value destination =>
      ir.verifyEdgeArg value destination = .ok ()) predecessor edge successor) :
    EdgeFits new dominance (fun value destination =>
      new.verifyEdgeArg value destination = .ok ()) predecessor edge successor := by
  have length : (ir.argsForEdge edge).length = (argsOf ir successor).length := fits.length
  have values : argsForEdge new edge = (keptArgs ir required edge successor).map fun pair =>
      rank (valueKept ir required) pair.1 := compacted.argsForEdge_eq found
  have args : argsOf new successor = (keptArgs ir required edge successor).map fun pair =>
      rank required.blockArgIsRequired pair.2 := by
    rw [compacted.argsOf_eq, ← keptArgs_map_snd length, List.map_map]
    rfl
  refine ⟨by rw [values, args, length_map, length_map], ?_⟩
  intro i value arg valueAt argAt
  rw [values, getElem?_map, map_eq_some_iff] at valueAt
  rw [args, getElem?_map, map_eq_some_iff] at argAt
  obtain ⟨pair, pairAt, rfl⟩ := valueAt
  obtain ⟨pair', pairAt', rfl⟩ := argAt
  rw [pairAt, Option.some.injEq] at pairAt'
  subst pairAt'
  have mem := mem_of_getElem? pairAt
  obtain ⟨inZip, argKept⟩ := mem_filter.mp mem
  obtain ⟨position, at_⟩ := mem_iff_getElem?.mp inZip
  obtain ⟨oldValueAt, oldArgAt⟩ := getElem?_zip_eq_some.mp at_
  obtain ⟨valueLt, valueKept⟩ := marks.edgeArg_kept checks found mem
  obtain ⟨width, accepted, available⟩ := fits.args position pair.1 pair.2 oldValueAt oldArgAt
  have argLt : pair.2 < ir.blockArgs.length :=
    (mem_argsOf.mp (mem_of_getElem? oldArgAt)).1
  have argFound := getElem?_eq_getElem argLt
  refine ⟨?_, ?_, fun reachable => compacted.availableAfter valueKept (available reachable)⟩
  · have old : (ir.values[pair.1]?).map ECodeValue.width =
        (ir.blockArgs[pair.2]?).map ECodeBlockArg.width := width
    show (new.values[_]?).map ECodeValue.width = (new.blockArgs[_]?).map ECodeBlockArg.width
    rw [compacted.value_at (getElem?_eq_getElem valueLt) valueKept,
      compacted.arg_at argFound argKept]
    rw [getElem?_eq_getElem valueLt, argFound] at old
    exact old
  · intro destination destinationEq
    have destinationEq : (new.blockArgs[_]?).map ECodeBlockArg.value = some destination :=
      destinationEq
    rw [compacted.arg_at argFound argKept, map_some, Option.some.injEq] at destinationEq
    have oldDestination : blockArgValue ir pair.2 = some ir.blockArgs[pair.2].value := by
      show (ir.blockArgs[_]?).map _ = _
      rw [argFound, map_some]
    have same := accepted _ oldDestination
    rw [ECodeIr.verifyEdgeArg, ensure_eq_ok, beq_iff_eq] at same ⊢
    have destinationLt :=
      (List.getElem?_eq_some_iff.mp (checks.blockArg_at argFound).2).1
    rw [← destinationEq, compacted.valueDomain_at valueLt valueKept,
      compacted.valueDomain_at destinationLt (blockArg_kept checks argFound argKept)]
    exact same

theorem blocks_length : new.graph.blocks.length = ir.graph.blocks.length := by
  rw [compacted.graph]
  exact length_map _

theorem opOperands_at {index : Nat} {old : ECodeOp} (found : ir.operations[index]? = some old)
    (kept : required.opIsRequired index = true) :
    opOperands new (rank required.opIsRequired index) =
      some ((ir.opOperandsFor old).map (rank (valueKept ir required))) := by
  obtain ⟨copy, copyFound, copied⟩ := compacted.op_at found kept
  show (new.operations[_]?).map _ = _
  rw [copyFound, map_some, copied.opOperandsFor_eq]

theorem exists_op {position : Nat} (lt : position < opCount new) :
    ∃ index old, rank required.opIsRequired index = position ∧
      required.opIsRequired index = true ∧ ir.operations[index]? = some old := by
  obtain ⟨index, old, rankEq, kept, found, -⟩ :=
    compacted.op_of (getElem?_eq_getElem (show position < new.operations.length from lt))
  exact ⟨index, old, rankEq, kept, found⟩

theorem usesFit (tables : ECodeIr.TablesFit ir) (marks : Marks ir required)
    (fits : UsesFit ir dominance fun value destination =>
      ir.verifyEdgeArg value destination = .ok ()) :
    UsesFit new dominance fun value destination =>
      new.verifyEdgeArg value destination = .ok () := by
  have checks := tables.definitions
  refine ⟨?_, ?_, ?_⟩
  · intro position lt
    obtain ⟨index, old, rfl, kept, found⟩ := compacted.exists_op lt
    obtain ⟨block, inBlock⟩ := fits.placed index (lt_of_getElem? found)
    exact ⟨block, (compacted.inBlock_iff kept).mpr inBlock⟩
  · intro position block operands inBlock operandsEq value mem
    have lt : position < opCount new :=
      (compacted.definitionChecks checks marks).checked.inBlock_lt inBlock
    obtain ⟨index, old, rfl, kept, found⟩ := compacted.exists_op lt
    rw [compacted.opOperands_at found kept, Option.some.injEq] at operandsEq
    subst operandsEq
    obtain ⟨operand, operandMem, rfl⟩ := List.mem_map.mp mem
    have operandKept := marks.operand_kept tables found kept operandMem
    have oldOperands : opOperands ir index = some (ir.opOperandsFor old) := by
      show (ir.operations[index]?).map _ = _
      rw [found, map_some]
    have use := fits.operands index block _ ((compacted.inBlock_iff kept).mp inBlock) oldOperands
      operand operandMem
    split
    · rename_i reachable
      rw [if_pos reachable] at use
      exact compacted.availableAt operandKept use
    · rename_i unreachable
      rw [if_neg unreachable] at use
      exact compacted.precedes operandKept use
  · intro predecessor record offset successor found at_
    have graph : SsaIl.graph new = ir.graph.rankOps required.opIsRequired := compacted.graph
    rw [graph] at found at_
    obtain ⟨old, oldFound, eq⟩ := map_eq_some_iff.mp
      ((getElem?_map).symm.trans found)
    subst eq
    refine compacted.edgeFits checks marks ?_
      (fits.edges predecessor old offset successor oldFound at_)
    have inSlice := at_
    rw [IlIndexRange.getElem?_slice] at inSlice
    split at inSlice
    · exact inSlice
    · cases inSlice

theorem verify_ok (tables : ECodeIr.TablesFit ir) (marks : Marks ir required)
    (uses : verifyUses ir .fromSsa ir.verifyEdgeArg = some (.ok ())) :
    new.verify = some (.ok ()) := by
  have newTables := compacted.tablesFit tables marks
  have checked := tables.definitions.checked
  have newChecked := newTables.definitions.checked
  rw [ECodeIr.verify, ECodeIr.verifyTables_eq_ok.mpr newTables]
  have graph : SsaIl.graph new = ir.graph.rankOps required.opIsRequired := compacted.graph
  by_cases empty : ir.graph.blocks = []
  · have oldEmpty : (SsaIl.graph ir).blocks.isEmpty = true := List.isEmpty_iff.mpr empty
    have newEmpty : (SsaIl.graph new).blocks.isEmpty = true := by
      refine List.isEmpty_iff.mpr (eq_nil_of_length_eq_zero ?_)
      exact compacted.blocks_length.trans (by rw [empty]; rfl)
    rw [verifyUses, if_pos oldEmpty, Option.some.injEq, mapError_eq_ok,
      verifyLinearUses_eq_ok checked.ops_le] at uses
    rw [verifyUses, if_pos newEmpty, Option.some.injEq, mapError_eq_ok,
      verifyLinearUses_eq_ok newChecked.ops_le]
    intro position lt
    obtain ⟨index, old, rfl, kept, found⟩ := compacted.exists_op lt
    refine ⟨_, compacted.opOperands_at found kept, fun value mem => ?_⟩
    obtain ⟨operand, operandMem, rfl⟩ := List.mem_map.mp mem
    obtain ⟨operands, operandsEq, precede⟩ := uses index (lt_of_getElem? found)
    have oldOperands : (ir.operations[index]?).map ir.opOperandsFor = some operands := operandsEq
    rw [found, map_some, Option.some.injEq] at oldOperands
    exact compacted.precedes (marks.operand_kept tables found kept operandMem)
      (precede operand (oldOperands ▸ operandMem))
  · have newNonempty : (SsaIl.graph new).blocks ≠ [] := by
      intro none
      have length := compacted.blocks_length
      rw [show new.graph.blocks = [] from none] at length
      exact empty (eq_nil_of_length_eq_zero length.symm)
    cases dominanceEq : ir.graph.dominance with
    | none =>
      have notEmpty : (SsaIl.graph ir).blocks.isEmpty = false := isEmpty_eq_false_iff.mpr empty
      have oldDominance : (SsaIl.graph ir).dominance = none := dominanceEq
      rw [verifyUses, notEmpty, oldDominance] at uses
      cases uses
    | some dominance =>
      have newDominance : (SsaIl.graph new).dominance = some dominance := by
        rw [graph, IlGraph.dominance_rankOps]
        exact dominanceEq
      rw [verifyUses_eq_ok newChecked newNonempty newDominance]
      exact compacted.usesFit tables marks
        ((verifyUses_eq_ok checked empty dominanceEq).mp uses)

end Compacted

/-! ## Compaction keeps the IR well formed -/

/-- `new` is `ir` without what is not required, renumbered by rank. -/
structure Keeps (ir : ECodeIr) (required : IlRequiredDefs) (new : ECodeIr) : Prop where
  required_iff : ∀ definition, required.contains definition = true ↔ ir.RequiredDef definition
  op_of_required : ∀ index, ir.RequiredDef (.op index) →
    rank required.opIsRequired index < new.operations.length
  required_of_op : ∀ position < new.operations.length, ∃ index,
    rank required.opIsRequired index = position ∧ ir.RequiredDef (.op index)
  op_order : ∀ i j, ir.RequiredDef (.op i) →
    (rank required.opIsRequired i < rank required.opIsRequired j ↔ i < j)
  op_block : ∀ index block, ir.RequiredDef (.op index) →
    (new.graph.InBlock (rank required.opIsRequired index) block ↔ ir.graph.InBlock index block)
  op_copy : ∀ index old, ir.operations[index]? = some old → ir.RequiredDef (.op index) →
    ∃ copy, new.operations[rank required.opIsRequired index]? = some copy ∧
      copy.opcode = old.opcode ∧ copy.width = old.width ∧ copy.address = old.address ∧
      copy.addressSpace = old.addressSpace ∧
      new.opOperandsFor copy = (ir.opOperandsFor old).map (rank (valueKept ir required)) ∧
      copy.constant new.constantStorage = old.constant ir.constantStorage
  arg_of_required : ∀ index, ir.RequiredDef (.blockArg index) →
    rank required.blockArgIsRequired index < new.blockArgs.length
  required_of_arg : ∀ position < new.blockArgs.length, ∃ index,
    rank required.blockArgIsRequired index = position ∧ ir.RequiredDef (.blockArg index)
  args : ∀ block, argsOf new block = ((argsOf ir block).filter required.blockArgIsRequired).map
    (rank required.blockArgIsRequired)
  successors : new.graph.successors = ir.graph.successors
  edgeArgs : ∀ edge target, ir.graph.successors[edge]? = some target →
    new.argsForEdge edge = (((ir.argsForEdge edge).zip (argsOf ir target)).filter fun pair =>
      required.blockArgIsRequired pair.2).map fun pair => rank (valueKept ir required) pair.1

theorem Compacted.keeps (compacted : Compacted ir required new)
    (checks : ECodeIr.DefinitionChecks ir) (marks : Marks ir required)
    (narrow : ∀ (index : Nat) (operation : ECodeOp), ir.operations[index]? = some operation →
      ir.RequiredDef (.op index) → operation.IsWideConstant → operation.width ≤ 2 ^ 31 - 8) :
    Keeps ir required new where
  required_iff := marks
  op_of_required := by
    intro index h
    rw [compacted.ops.length]
    exact rank_lt ((marks (.op index)).mpr h) (checks.hasDef_of_required h)
  required_of_op := by
    intro position lt
    obtain ⟨index, old, rankEq, kept, -⟩ := compacted.exists_op lt
    exact ⟨index, rankEq, (marks (.op index)).mp kept⟩
  op_order := fun i j h => rank_lt_iff ((marks (.op i)).mpr h)
  op_block := fun index block h => compacted.inBlock_iff ((marks (.op index)).mpr h)
  op_copy := by
    intro index old found h
    obtain ⟨copy, copyFound, copied⟩ := compacted.op_at found ((marks (.op index)).mpr h)
    exact ⟨copy, copyFound, copied.opcode, copied.width, copied.address, copied.addressSpace,
      copied.opOperandsFor_eq, copied.immediate.constant_eq copied.opcode copied.width
        (narrow index old found h)⟩
  arg_of_required := by
    intro index h
    rw [compacted.args.length]
    exact rank_lt ((marks (.blockArg index)).mpr h) (checks.hasDef_of_required h)
  required_of_arg := by
    intro position lt
    obtain ⟨index, old, rankEq, kept, -⟩ := compacted.arg_of (getElem?_eq_getElem lt)
    exact ⟨index, rankEq, (marks (.blockArg index)).mp kept⟩
  args := compacted.argsOf_eq
  successors := by
    rw [compacted.graph]
    rfl
  edgeArgs := fun _ _ found => compacted.argsForEdge_eq found

theorem tablesFit_of_verify {ir : ECodeIr} (verified : ir.verify = some (.ok ())) :
    ECodeIr.TablesFit ir ∧ verifyUses ir .fromSsa ir.verifyEdgeArg = some (.ok ()) := by
  unfold ECodeIr.verify at verified
  cases tables : ir.verifyTables with
  | error error =>
    rw [tables] at verified
    cases verified
  | ok =>
    rw [tables] at verified
    exact ⟨ECodeIr.verifyTables_eq_ok.mp tables, verified⟩

/-- Compaction of what was built and verified: the verifier accepts the result, and it has what is
required of the old tables, in order and in place. -/
theorem rewrite_wellFormed {builder : ECodeBuilder} (made : builder.Made)
    (verified : builder.buildUnchecked.verify = some (.ok ()))
    (narrow : ∀ (index : Nat) (operation : ECodeOp),
      builder.buildUnchecked.operations[index]? = some operation →
      builder.buildUnchecked.RequiredDef (.op index) → operation.opcode = .constant →
      operation.width ≤ 2 ^ 31 - 8) :
    ∃ required new, rewrite builder.buildUnchecked = some new ∧ new.verify = some (.ok ()) ∧
      Keeps builder.buildUnchecked required new := by
  obtain ⟨tables, uses⟩ := tablesFit_of_verify verified
  have narrowWide := fun index operation found h (wide : ECodeOp.IsWideConstant operation) =>
    narrow index operation found h wide.1
  obtain ⟨required, new, marks, run, compacted⟩ :=
    rewrite_spec tables made.buildUnchecked_ordered narrowWide
  exact ⟨required, new, run, compacted.verify_ok tables marks uses,
    compacted.keeps tables.definitions marks narrowWide⟩

/-- Three calls of `emit`: a constant that nothing uses, and one that is returned. -/
def returnSeven : ECodeBuilder :=
  ((((ECodeBuilder.new ⟨0, 0⟩ .default).emit ⟨.constant, 32, 5, none, none⟩ [] 1).2.emit
    ⟨.constant, 32, 7, none, none⟩ [] 1).2.emit ⟨.return, 0, 0, none, none⟩ [1] 0).2

theorem returnSeven_made : returnSeven.Made :=
  (((ECodeBuilder.Made.new _ .default).emit _ _ _).emit _ _ _).emit _ _ _

theorem rewrite_wellFormed_returnSeven : ∃ required new,
    rewrite returnSeven.buildUnchecked = some new ∧ new.verify = some (.ok ()) ∧
      Keeps returnSeven.buildUnchecked required new := by
  have verified : returnSeven.buildUnchecked.verify = some (.ok ()) := by decide +kernel
  apply rewrite_wellFormed returnSeven_made verified
  have widths : ∀ operation ∈ returnSeven.buildUnchecked.operations,
      operation.width ≤ 2 ^ 31 - 8 := by decide +kernel
  intro index operation found _ _
  exact widths operation (mem_of_getElem? found)

/-- A constant at the start of the storage, and its return. -/
def wideReturn (constants : IlConstantInterner) (constantStorage : List UInt8) (width : Nat) :
    ECodeBuilder :=
  (({ ECodeBuilder.new ⟨0, 0⟩ .default with constants, constantStorage }.emit
    ⟨.constant, width, 0, none, none⟩ [] 1).2.emit ⟨.return, 0, 0, none, none⟩ [0] 0).2

variable {constants : IlConstantInterner} {storage : List UInt8} {width : Nat}

theorem wideReturn_verify (fits : (width + 7) / 8 ≤ storage.length) :
    (wideReturn constants storage width).buildUnchecked.verify = some (.ok ()) := by
  have stored : ECodeIr.verifyConstant (wideReturn constants storage width).buildUnchecked
      ⟨.constant, ⟨0, 1⟩, ⟨0, 0⟩, width, 0, none, none⟩ = .ok () := by
    rw [ECodeIr.verifyConstant_eq_ok]
    intro _ _
    exact le_of_eq_of_le (zero_add _) fits
  have results : (wideReturn constants storage width).buildUnchecked.verifyOpResults
      ⟨.constant, ⟨0, 1⟩, ⟨0, 0⟩, width, 0, none, none⟩ 0 = .ok () := by
    refine ECodeIr.verifyOpResults_eq_ok.mpr ⟨by decide, ⟨Nat.zero_le _, le_rfl⟩,
      ⟨le_rfl, Nat.zero_le _⟩, fun value mem => mem_singleton.mp mem⟩
  have op : (wideReturn constants storage width).buildUnchecked.verifyOp
      ⟨.constant, ⟨0, 1⟩, ⟨0, 0⟩, width, 0, none, none⟩ 0 = .ok () := by
    rw [ECodeIr.verifyOp, andThen_eq_ok, andThen_eq_ok]
    exact ⟨results, stored, rfl⟩
  have values : (wideReturn constants storage width).buildUnchecked.verifyTables = .ok () := by
    rw [ECodeIr.verifyTables, andThen_eq_ok, andThen_eq_ok, andThen_eq_ok, andThen_eq_ok,
      andThen_eq_ok, andThen_eq_ok]
    refine ⟨rfl, rfl, rfl, rfl, rfl, ?_, rfl⟩
    exact andThen_eq_ok.mpr ⟨op, rfl⟩
  rw [ECodeIr.verify, values]
  rfl

theorem wideReturn_rewrite (wide : 64 < width) (undecodable :
      ECodeOp.constant ⟨.constant, ⟨0, 1⟩, ⟨0, 0⟩, width, 0, none, none⟩ storage = none) :
    rewrite (wideReturn constants storage width).buildUnchecked = none := by
  have immediate : ∀ builder, emitImmediate (wideReturn constants storage width).buildUnchecked
      builder ⟨.constant, ⟨0, 1⟩, ⟨0, 0⟩, width, 0, none, none⟩ = none := by
    intro builder
    have condition : (⟨.constant, ⟨0, 1⟩, ⟨0, 0⟩, width, 0, none, none⟩ : ECodeOp).opcode =
        .constant ∧ 64 < width := ⟨rfl, wide⟩
    rw [emitImmediate, if_pos condition]
    exact congrArg (Option.bind · _) undecodable
  have first : ∀ valueMap builder, emitItem (wideReturn constants storage width).buildUnchecked
      valueMap builder (.op 0 ⟨.constant, ⟨0, 1⟩, ⟨0, 0⟩, width, 0, none, none⟩) = none := by
    intro valueMap builder
    rw [emitItem, emitOp, immediate]
    rfl
  have order : emissionOrder
      ((wideReturn constants storage width).buildUnchecked.operations.zipIdx.filter fun entry =>
        IlRequiredDefs.opIsRequired ⟨[], [true, true]⟩ entry.2)
      ((wideReturn constants storage width).buildUnchecked.blockArgs.zipIdx.filter fun entry =>
        IlRequiredDefs.blockArgIsRequired ⟨[], [true, true]⟩ entry.2) =
      [.op 0 ⟨.constant, ⟨0, 1⟩, ⟨0, 0⟩, width, 0, none, none⟩,
        .op 1 ⟨.return, ⟨1, 1⟩, ⟨0, 1⟩, 0, 0, none, none⟩] := by
    show emissionOrder [(_, 0), (_, 1)] [] = _
    simp only [emissionOrder]
    rfl
  have analysis : ECodeRequiredDefs.analyse (wideReturn constants storage width).buildUnchecked =
      some ⟨[], [true, true]⟩ := rfl
  simp only [rewrite, analysis, some_bind, order, foldlM_cons, first]
  rfl

theorem constant_oversized {operation : ECodeOp} (opcode : operation.opcode = .constant)
    (width : operation.width = maxBits) (immediate : operation.immediate = 0)
    (length : storage.length = operation.constantLength) : operation.constant storage = none := by
  have wide : ¬ operation.width ≤ 64 := by rw [width]; decide
  have bytes : operation.constantBytes storage = some storage := by
    rw [ECodeOp.constantBytes, if_neg (not_or.mpr ⟨not_not.mpr opcode, wide⟩), immediate,
      if_pos (by rw [zero_add, length]), drop_zero, ← length, take_length]
  have refused : BitVec.fromLeBytesWith storage (storage.length * 8) = none := by
    have tooWide : ¬ (1 ≤ storage.length * 8 ∧ storage.length * 8 ≤ maxBits) := by
      rw [length, ECodeOp.constantLength, width]
      decide
    rw [BitVec.fromLeBytesWith, BitVec.packMeta, if_neg tooWide]
    rfl
  rw [ECodeOp.constant, if_neg (not_not.mpr opcode), if_neg wide, bytes]
  simp only [refused]
  rfl

/-- A returned constant of the greatest width that a bit vector can have: the verifier accepts it, and
compaction fails to decode it. -/
theorem rewrite_oversized_constant : ∃ builder : ECodeBuilder, builder.Made ∧
    builder.buildUnchecked.verify = some (.ok ()) ∧ rewrite builder.buildUnchecked = none := by
  obtain ⟨value, -, stores⟩ := @BitVec.fromU64_spec maxBits 0 (by decide) le_rfl
  have bits : value.bits = maxBits := by
    rw [stores.bits_eq]
    simpa using BitVec.packed_bits false maxBits
  have length := BitVec.length_leBytes ((maxBits + 7) / 8) value.toNat
  generalize bytesEq : BitVec.leBytes ((maxBits + 7) / 8) value.toNat = bytes at length
  have interned : (ECodeBuilder.new ⟨0, 0⟩ .default).internConstant value = some (0,
      { ECodeBuilder.new ⟨0, 0⟩ .default with
        constants := ⟨[(bytes, 0)]⟩, constantStorage := bytes }) := by
    have stored := BitVec.toLeBytes_spec stores.valid 
      (show (maxBits + 7) / 8 = (value.bits + 7) / 8 by rw [bits])
    rw [bytesEq] at stored
    simp only [ECodeBuilder.internConstant, IlConstantInterner.intern, bits, stored, some_bind]
    rfl
  refine ⟨wideReturn ⟨[(bytes, 0)]⟩ bytes maxBits,
    (((ECodeBuilder.Made.new _ .default).internConstant interned).emit _ _ _).emit _ _ _,
    wideReturn_verify length.ge, wideReturn_rewrite (by decide) ?_⟩
  exact constant_oversized rfl rfl rfl length

end ECodeCompaction

end Fugue.Il
