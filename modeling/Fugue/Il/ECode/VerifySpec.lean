import Fugue.Il.Common.SsaPaths
import Fugue.Il.ECode.Verify

/-!
# What the ECode verifier makes sure of

The checks of single records, read as properties of the tables: a value names the operation or the
block argument that defines it, and the other way around. With them the SSA verifier is exact for
definition before use.
-/

namespace Fugue.Il.ECodeIr

open Fugue.Lib SsaVerifier List Option IlIndexRange IlDominance

variable {ir : ECodeIr}

/-- An event defines a value: the block has it as an argument, or the operation has it among its
results. -/
def Defines (ir : ECodeIr) : Event → IlValueId → Prop
  | .enter block, value => ∃ arg ∈ ir.blockArgs, arg.block = block ∧ arg.value = value
  | .exec operation, value => ∃ record, ir.operations[operation]? = some record ∧
      record.results.start ≤ value ∧ value < record.results.stop

/-- The structure, value-definition and edge-argument checks succeed. -/
structure DefinitionChecks (ir : ECodeIr) : Prop where
  structure_ok :
    verifyStructure ir.graph ir.sourceSpans ir.parentSpans ir.operations.length = .ok ()
  edgeArgs_ok : SsaVerifier.verifyEdgeArgs ir = .ok ()
  blockArgs_ok : ∀ (i : Nat) (arg : ECodeBlockArg), ir.blockArgs[i]? = some arg →
    ir.verifyBlockArg arg i = .ok ()
  results_ok : ∀ (i : Nat) (operation : ECodeOp), ir.operations[i]? = some operation →
    ir.verifyOpResults operation i = .ok ()
  values_ok : ∀ (i : Nat) (value : ECodeValue), ir.values[i]? = some value →
    ir.verifyValue value i = .ok ()

theorem verifyBlockArg_eq_ok {arg : ECodeBlockArg} {index : Nat} :
    ir.verifyBlockArg arg index = .ok () ↔ index + 1 ≤ u32Max ∧
      arg.block < ir.graph.blocks.length ∧
      ir.values[arg.value]? = some ⟨arg.width, .blockArg index⟩ := by
  unfold verifyBlockArg
  rw [bind_eq_ok]
  constructor
  · rintro ⟨id, idEq, rest⟩
    obtain ⟨rfl, fits⟩ := tryFromIndex_eq_ok (mapError_eq_ok.mp idEq)
    rw [andThen_eq_ok, ensure_eq_ok, decide_eq_true_eq, bind_eq_ok] at rest
    obtain ⟨block, ⟨width, definition⟩, found, eqs⟩ := rest
    simp only [okOr_eq_ok] at found
    simp only [ensure_eq_ok, Bool.and_eq_true, beq_iff_eq] at eqs
    refine ⟨fits, block, ?_⟩
    rw [found, eqs.1, eqs.2]
  · rintro ⟨fits, block, found⟩
    refine ⟨index, mapError_eq_ok.mpr (tryFromIndex_ok fits), ?_⟩
    rw [andThen_eq_ok, ensure_eq_ok, decide_eq_true_eq, bind_eq_ok]
    exact ⟨block, _, okOr_eq_ok.mpr found, by simp⟩

theorem verifyOpResults_eq_ok {operation : ECodeOp} {index : Nat} :
    ir.verifyOpResults operation index = .ok () ↔ index + 1 ≤ u32Max ∧
      (operation.results.start ≤ operation.results.stop ∧
        operation.results.stop ≤ ir.values.length) ∧
      (operation.operands.start ≤ operation.operands.stop ∧
        operation.operands.stop ≤ ir.valueOperands.length) ∧
      ∀ value ∈ operation.results.slice ir.values, value = ⟨operation.width, .op index⟩ := by
  unfold verifyOpResults
  rw [bind_eq_ok]
  have record_iff : ∀ value : ECodeValue, (do
      ensure (value.definition == IlSsaDef.op index) VerifyError.invalidValueDef
      ensure (value.width == operation.width) (.il (.widthMismatch .ecode))) = .ok () ↔
      value = ⟨operation.width, .op index⟩ := by
    rintro ⟨width, definition⟩
    rw [andThen_eq_ok, ensure_eq_ok, ensure_eq_ok, beq_iff_eq, beq_iff_eq, ECodeValue.mk.injEq,
      and_comm]
  constructor
  · rintro ⟨id, idEq, rest⟩
    obtain ⟨rfl, fits⟩ := tryFromIndex_eq_ok (mapError_eq_ok.mp idEq)
    rw [andThen_eq_ok, andThen_eq_ok, mapError_eq_ok, mapError_eq_ok, forM_eq_ok,
      verifyBounds_eq_ok, verifyBounds_eq_ok] at rest
    obtain ⟨results, operands, values⟩ := rest
    exact ⟨fits, results, operands, fun value mem => (record_iff value).mp (values value mem)⟩
  · rintro ⟨fits, results, operands, values⟩
    refine ⟨index, mapError_eq_ok.mpr (tryFromIndex_ok fits), ?_⟩
    rw [andThen_eq_ok, andThen_eq_ok, mapError_eq_ok, mapError_eq_ok, forM_eq_ok,
      verifyBounds_eq_ok, verifyBounds_eq_ok]
    exact ⟨results, operands, fun value mem => (record_iff value).mpr (values value mem)⟩

theorem verifyValue_eq_ok {value : ECodeValue} {index : Nat} :
    ir.verifyValue value index = .ok () ↔ index + 1 ≤ u32Max ∧
      match value.definition with
      | .op operation => ∃ record, ir.operations[operation]? = some record ∧
          record.results.start ≤ index ∧ index < record.results.stop
      | .blockArg arg => ∃ record, ir.blockArgs[arg]? = some record ∧ record.value = index ∧
          record.width = value.width := by
  unfold verifyValue
  rw [bind_eq_ok]
  constructor
  · rintro ⟨id, idEq, rest⟩
    obtain ⟨rfl, fits⟩ := tryFromIndex_eq_ok (mapError_eq_ok.mp idEq)
    refine ⟨fits, ?_⟩
    cases definition : value.definition with
    | op operation =>
      simp only [definition, bind_eq_ok, okOr_eq_ok, ensure_eq_ok, IlIndexRange.containsIndex,
        Bool.and_eq_true, decide_eq_true_eq] at rest
      exact rest
    | blockArg arg =>
      simp only [definition, bind_eq_ok, okOr_eq_ok, ensure_eq_ok, Bool.and_eq_true,
        beq_iff_eq] at rest
      exact rest
  · rintro ⟨fits, rest⟩
    refine ⟨index, mapError_eq_ok.mpr (tryFromIndex_ok fits), ?_⟩
    cases definition : value.definition with
    | op operation =>
      simp only [definition] at rest ⊢
      simp only [bind_eq_ok, okOr_eq_ok, ensure_eq_ok, IlIndexRange.containsIndex,
        Bool.and_eq_true, decide_eq_true_eq]
      exact rest
    | blockArg arg =>
      simp only [definition] at rest ⊢
      simp only [bind_eq_ok, okOr_eq_ok, ensure_eq_ok, Bool.and_eq_true, beq_iff_eq]
      exact rest

theorem verifyEdgeArgs_eq_ok : SsaVerifier.verifyEdgeArgs ir = .ok () ↔
    ir.edgeArgs.length = ir.graph.successors.length ∧
    (∀ range ∈ ir.edgeArgs, range.start ≤ range.stop ∧ range.stop ≤ ir.edgeArgValues.length) ∧
    ∀ value ∈ ir.edgeArgValues, value < ir.values.length := by
  unfold SsaVerifier.verifyEdgeArgs
  rw [andThen_eq_ok, andThen_eq_ok, ensure_eq_ok, beq_iff_eq, forM_eq_ok, forM_eq_ok]
  refine and_congr_right fun _ => and_congr ?_ ?_
  · refine forall₂_congr fun range _ => ?_
    rw [mapError_eq_ok, verifyBounds_eq_ok]
    rfl
  · refine forall₂_congr fun value _ => ?_
    rw [ensure_eq_ok, decide_eq_true_eq]
    rfl

namespace DefinitionChecks

variable (checks : DefinitionChecks ir)

include checks

theorem wellFormed : ir.graph.WellFormed := (verifyStructure_eq_ok.mp checks.structure_ok).1

variable {value : IlValueId}

/-- A value that an operation defines is one of its results. -/
theorem definition_op_iff {operation : IlOpId} :
    SsaIl.valueDefinition ir value = some (.op operation) ↔
      ∃ record, ir.operations[operation]? = some record ∧ record.results.start ≤ value ∧
        value < record.results.stop := by
  show (ir.values[value]?).map ECodeValue.definition = _ ↔ _
  constructor
  · intro definition
    obtain ⟨record, found, eq⟩ := map_eq_some_iff.mp definition
    have check := (verifyValue_eq_ok.mp (checks.values_ok value record found)).2
    simp only [eq] at check
    exact check
  · rintro ⟨record, found, low, high⟩
    obtain ⟨-, bounds, -, results⟩ := verifyOpResults_eq_ok.mp (checks.results_ok _ _ found)
    have lt : value < ir.values.length := lt_of_lt_of_le high bounds.2
    have at_ : (record.results.slice ir.values)[value - record.results.start]? =
        some ir.values[value] := by
      rw [getElem?_slice, if_pos (Nat.sub_lt_sub_right low high),
        Nat.add_sub_cancel' low, getElem?_eq_getElem lt]
    rw [getElem?_eq_getElem lt, map_some, results _ (mem_of_getElem? at_)]

theorem definition_blockArg_iff {arg : IlBlockArgId} :
    SsaIl.valueDefinition ir value = some (.blockArg arg) ↔
      ∃ record, ir.blockArgs[arg]? = some record ∧ record.value = value := by
  show (ir.values[value]?).map ECodeValue.definition = _ ↔ _
  constructor
  · intro definition
    obtain ⟨record, found, eq⟩ := map_eq_some_iff.mp definition
    have check := (verifyValue_eq_ok.mp (checks.values_ok value record found)).2
    simp only [eq] at check
    obtain ⟨argRecord, argFound, valueEq, -⟩ := check
    exact ⟨argRecord, argFound, valueEq⟩
  · rintro ⟨record, found, rfl⟩
    rw [(verifyBlockArg_eq_ok.mp (checks.blockArgs_ok _ _ found)).2.2, map_some]

theorem checked : Checked ir := by
  obtain ⟨wellFormed, bounds, -, -⟩ := verifyStructure_eq_ok.mp checks.structure_ok
  obtain ⟨edgeLength, edgeBounds, -⟩ := verifyEdgeArgs_eq_ok.mp checks.edgeArgs_ok
  refine ⟨wellFormed, ?_, fun block mem => (bounds block mem).2, ?_, ?_, ?_, edgeLength, edgeBounds,
    ?_⟩
  · exact length_le_of_index fun i operation found =>
      (verifyOpResults_eq_ok.mp (checks.results_ok i operation found)).1
  · exact length_le_of_index fun i arg found =>
      (verifyBlockArg_eq_ok.mp (checks.blockArgs_ok i arg found)).1
  · intro arg lt
    have found : ir.blockArgs[arg]? = some ir.blockArgs[arg] := getElem?_eq_getElem lt
    refine ⟨ir.blockArgs[arg].block, ir.blockArgs[arg].value, ?_, ?_, ?_⟩
    · show (ir.blockArgs[arg]?).map _ = _
      rw [found, map_some]
    · exact (verifyBlockArg_eq_ok.mp (checks.blockArgs_ok _ _ found)).2.1
    · show (ir.blockArgs[arg]?).map _ = _
      rw [found, map_some]
  · intro operation lt
    refine ⟨ir.opOperandsFor ir.operations[operation], ?_⟩
    show (ir.operations[operation]?).map _ = _
    rw [getElem?_eq_getElem lt, map_some]
  · intro value operation definition
    obtain ⟨record, found, -⟩ := checks.definition_op_iff.mp definition
    exact lt_of_getElem? found

theorem namesDefinitions : NamesDefinitions ir ir.Defines := by
  refine ⟨fun operation value => checks.definition_op_iff.symm, fun block value => ?_⟩
  constructor
  · rintro ⟨arg, mem, rfl, rfl⟩
    obtain ⟨i, found⟩ := getElem?_of_mem mem
    refine ⟨i, checks.definition_blockArg_iff.mpr ⟨arg, found, rfl⟩, ?_⟩
    show (ir.blockArgs[i]?).map _ = _
    rw [found, map_some]
  · rintro ⟨i, definition, blockEq⟩
    obtain ⟨arg, found, rfl⟩ := checks.definition_blockArg_iff.mp definition
    have blockEq : (ir.blockArgs[i]?).map ECodeBlockArg.block = some block := blockEq
    rw [found, map_some] at blockEq
    exact ⟨arg, mem_of_getElem? found, Option.some.inj blockEq, rfl⟩

theorem blockArg_lt {arg : IlBlockArgId}
    (definition : SsaIl.valueDefinition ir value = some (.blockArg arg)) :
    arg < SsaIl.blockArgCount ir := by
  obtain ⟨record, found, -⟩ := checks.definition_blockArg_iff.mp definition
  exact lt_of_getElem? found

end DefinitionChecks

theorem definitionChecks_of_tables (ok : ir.verifyTables = .ok ()) : DefinitionChecks ir := by
  unfold verifyTables at ok
  rw [andThen_eq_ok, andThen_eq_ok, andThen_eq_ok, andThen_eq_ok, andThen_eq_ok, andThen_eq_ok,
    mapError_eq_ok, mapError_eq_ok, mapError_eq_ok, forM_zipIdx_eq_ok, forM_zipIdx_eq_ok,
    forM_zipIdx_eq_ok] at ok
  obtain ⟨structure_ok, -, -, edgeArgs_ok, blockArgs_ok, ops_ok, values_ok⟩ := ok
  refine ⟨structure_ok, edgeArgs_ok, blockArgs_ok, fun i operation found => ?_, values_ok⟩
  have ok : ir.verifyOp operation i = .ok () := ops_ok i operation found
  rw [verifyOp, andThen_eq_ok] at ok
  exact ok.1

theorem entryBlock_eq_some {graph : IlGraph} (nonempty : graph.blocks ≠ []) :
    ∃ entry, graph.entryBlock = some entry ∧ entry < graph.blocks.length := by
  have notEmpty : graph.blocks.isEmpty = false := by simpa using nonempty
  refine ⟨_, by rw [IlGraph.entryBlock, notEmpty]; rfl, ?_⟩
  cases found : graph.blocks.findIdx? IlBlock.isEntry with
  | none => exact length_pos_iff.mpr nonempty
  | some index => exact (findIdx?_eq_some_iff_getElem.mp found).1

/-- The SSA verifier is exact for definition before use: what it accepts defines every value before
its use along every path, and it accepts every such program with a graph that the counters of the
dominance analysis can hold. -/
theorem verifyUses_exact (ir : ECodeIr) {E : Type} (fromSsa : SsaVerifyError → E)
    (verifyEdgeArg : IlValueId → IlValueId → Except E Unit)
    (nonempty : ir.graph.blocks ≠ []) (checks : DefinitionChecks ir) :
    (verifyUses ir fromSsa verifyEdgeArg = some (.ok ()) →
      DefinedBeforeUse ir ir.Defines fun value destination =>
        verifyEdgeArg value destination = .ok ()) ∧
    (ir.graph.blocks.length < 2 ^ 31 → edgeCount ir.graph.blocks < 2 ^ 32 →
      (verifyUses ir fromSsa verifyEdgeArg = some (.ok ()) ↔
        DefinedBeforeUse ir ir.Defines fun value destination =>
          verifyEdgeArg value destination = .ok ())) := by
  have checked := checks.checked
  have wellFormed := checks.wellFormed
  obtain ⟨entry, entryEq, entryLt⟩ := entryBlock_eq_some nonempty
  have meaning : ∀ dominance, ir.graph.dominance = some dominance →
      (verifyUses ir fromSsa verifyEdgeArg = some (.ok ()) ↔
        DefinedBeforeUse ir ir.Defines fun value destination =>
          verifyEdgeArg value destination = .ok ()) := by
    intro dominance dominanceEq
    rw [verifyUses_eq_ok checked nonempty dominanceEq]
    apply usesFit_iff checked checks.namesDefinitions (fun _ _ => checks.blockArg_lt) entryEq
    rw [IlGraph.dominance, entryEq] at dominanceEq
    exact fromBlocks_sound wellFormed.inRange entryLt dominanceEq
  constructor
  · intro ok
    cases dominanceEq : ir.graph.dominance with
    | none =>
      have notEmpty : ir.graph.blocks.isEmpty = false := by simpa using nonempty
      have panics : verifyUses ir fromSsa verifyEdgeArg = none := by
        unfold verifyUses
        rw [show SsaIl.graph ir = ir.graph from rfl, notEmpty, dominanceEq]
        rfl
      rw [panics] at ok
      cases ok
    | some dominance => exact (meaning dominance dominanceEq).mp ok
  · intro fits small
    obtain ⟨dominance, run, -⟩ :=
      fromBlocks_spec wellFormed.inRange entryLt fits small
    exact meaning dominance (by rw [IlGraph.dominance, entryEq]; exact run)

/-- A loop whose block argument starts with a constant and is carried around. -/
def carriedLoop : ECodeIr where
  metadata := ⟨0, 0⟩
  graph :=
    { blocks := [⟨⟨0, 1⟩, ⟨0, 1⟩, ⟨true, false⟩⟩, ⟨⟨1, 2⟩, ⟨1, 2⟩, ⟨false, true⟩⟩]
      successors := [1, 1]
      successorKinds := [⟨false, true, false, false⟩, ⟨false, false, true, false⟩]
      blockSources := [] }
  sourceSpans := []
  parentSpans := []
  values := [⟨32, .op 0⟩, ⟨32, .blockArg 0⟩]
  valueDomains := [none, none]
  blockArgs := [⟨1, 1, 32⟩]
  edgeArgs := [⟨0, 1⟩, ⟨1, 2⟩]
  edgeArgValues := [0, 1]
  operations := [⟨.constant, ⟨0, 1⟩, ⟨0, 0⟩, 32, 7, none, none⟩,
    ⟨.return, ⟨2, 2⟩, ⟨0, 1⟩, 0, 0, none, none⟩]
  valueOperands := [1]
  memoryDomains := []
  constantStorage := []

theorem verifyUses_exact_carriedLoop :
    verifyUses carriedLoop .fromSsa carriedLoop.verifyEdgeArg = some (.ok ()) ↔
      DefinedBeforeUse carriedLoop carriedLoop.Defines fun value destination =>
        carriedLoop.verifyEdgeArg value destination = .ok () := by
  have tables : carriedLoop.verifyTables = .ok () := by decide +kernel
  have nonempty : carriedLoop.graph.blocks ≠ [] := by decide
  have fits : carriedLoop.graph.blocks.length < 2 ^ 31 := by decide
  have small : edgeCount carriedLoop.graph.blocks < 2 ^ 32 := by decide
  have spec := verifyUses_exact carriedLoop .fromSsa carriedLoop.verifyEdgeArg nonempty
    (definitionChecks_of_tables tables)
  exact spec.2 fits small

/-- The complete graph on `n` blocks, without operations and arguments. -/
def completeIr (n : Nat) : ECodeIr where
  metadata := ⟨0, 0⟩
  graph :=
    { blocks := IlDominance.completeBlocks n
      successors := List.range n
      successorKinds := List.replicate n ⟨true, false, false, false⟩
      blockSources := [] }
  sourceSpans := []
  parentSpans := []
  values := []
  valueDomains := []
  blockArgs := []
  edgeArgs := List.replicate n .empty
  edgeArgValues := []
  operations := []
  valueOperands := []
  memoryDomains := []
  constantStorage := []

theorem completeIr_checks {n : Nat} (fits : n ≤ u32Max) : DefinitionChecks (completeIr n) := by
  have ops : ∀ block ∈ completeBlocks n, block.ops = .empty := by
    intro block mem
    rw [eq_of_mem_replicate mem]
    rfl
  refine ⟨verifyStructure_eq_ok.mpr ⟨⟨?_, ?_, completeBlocks_inRange n, ?_, ?_, ?_, ?_⟩,
    ?_, rfl, rfl⟩, verifyEdgeArgs_eq_ok.mpr ⟨?_, ?_, by simp [completeIr]⟩, by simp [completeIr],
    by simp [completeIr], by simp [completeIr]⟩
  · show (completeBlocks n).length ≤ _
    rw [completeBlocks, length_replicate]
    exact fits
  · intro block mem
    rw [ops block mem]
    decide
  · intro block mem
    exact (nodup_range.sublist (drop_sublist _ _)).sublist (take_sublist _ _)
  · refine pairwise_of_forall_mem_list fun left leftMem right _ => ?_
    rw [ops left leftMem]
    exact .inl le_rfl
  · simp [completeIr]
  · exact .inl rfl
  · intro block mem
    rw [ops block mem]
    exact ⟨le_rfl, le_rfl⟩
  · simp [completeIr]
  · intro range mem
    rw [eq_of_mem_replicate mem]
    exact ⟨le_rfl, le_rfl⟩

theorem argsForEdge_completeIr (n edge : Nat) :
    SsaVerifier.argsForEdge (completeIr n) edge = [] := by
  unfold SsaVerifier.argsForEdge
  split
  · rename_i range found
    rw [eq_of_mem_replicate (mem_of_getElem? found)]
    rfl
  · rfl

theorem completeIr_definedBeforeUse (n : Nat) :
    DefinedBeforeUse (completeIr n) (completeIr n).Defines fun value destination =>
      (completeIr n).verifyEdgeArg value destination = .ok () := by
  have noArgs : ∀ block, argsOf (completeIr n) block = [] := fun _ => rfl
  refine ⟨?_, ?_, ?_, ?_, ?_⟩
  · intro operation lt
    exact absurd lt (Nat.not_lt_zero _)
  · intro block walk _ before operation after _ operands eq
    cases eq
  · intro block walk record offset successor _ _ _ value mem
    rw [argsForEdge_completeIr] at mem
    cases mem
  · intro block record offset successor _ _
    rw [argsForEdge_completeIr, noArgs]
    exact ⟨rfl, by simp⟩
  · intro operation block _ _ operands eq
    cases eq

theorem completeIr_panics {n : Nat} (positive : n ≠ 0) (large : u32Max < n * n) :
    (completeIr n).graph.blocks ≠ [] ∧
      verifyUses (completeIr n) .fromSsa (completeIr n).verifyEdgeArg = none := by
  have nonempty : (completeIr n).graph.blocks ≠ [] := by
    simpa [completeIr, completeBlocks] using positive
  refine ⟨nonempty, ?_⟩
  obtain ⟨entry, entryEq, -⟩ := entryBlock_eq_some nonempty
  have notEmpty : (completeIr n).graph.blocks.isEmpty = false := by simpa using nonempty
  have dominanceEq : (completeIr n).graph.dominance = none := by
    rw [IlGraph.dominance, entryEq]
    exact fromBlocks_completeBlocks large entry
  unfold verifyUses
  rw [show SsaIl.graph (completeIr n) = (completeIr n).graph from rfl, notEmpty, dominanceEq]
  rfl

/-- The complete graph on 65537 blocks meets every condition, but the dominance analysis panics on
it. -/
theorem verifyUses_complete_graph :
    (completeIr 65537).graph.blocks ≠ [] ∧ DefinitionChecks (completeIr 65537) ∧
      DefinedBeforeUse (completeIr 65537) (completeIr 65537).Defines (fun value destination =>
        (completeIr 65537).verifyEdgeArg value destination = .ok ()) ∧
      verifyUses (completeIr 65537) .fromSsa (completeIr 65537).verifyEdgeArg ≠ some (.ok ()) := by
  obtain ⟨nonempty, panics⟩ := @completeIr_panics 65537 (by decide) (by decide)
  refine ⟨nonempty, completeIr_checks (by decide), completeIr_definedBeforeUse 65537, ?_⟩
  rw [panics]
  exact nofun

end Fugue.Il.ECodeIr
