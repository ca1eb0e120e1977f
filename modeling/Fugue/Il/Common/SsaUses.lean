import Fugue.Il.Common.SsaVerify

/-!
# What the SSA verifier checks

`verifyUses_eq_ok` reads a successful `verify_uses` as a property of the program in terms of
dominance: every operation is placed, every operand is available where it is used, and every edge
brings available arguments of the right number and width.
-/

namespace Fugue.Il.SsaVerifier

open Fugue.Lib SsaIl List IlIndexRange

variable {I : Type} [SsaIl I]

/-- What the structure, value-definition and edge-argument checks make sure of. -/
structure Checked (ir : I) : Prop where
  wellFormed : (graph ir).WellFormed
  ops_le : opCount ir ≤ u32Max
  blockOps : ∀ block ∈ (graph ir).blocks, block.ops.stop ≤ opCount ir
  blockArgs_le : blockArgCount ir ≤ u32Max
  blockArg : ∀ arg, arg < blockArgCount ir → ∃ block value,
    blockArgBlock ir arg = some block ∧ block < (graph ir).blocks.length ∧
      blockArgValue ir arg = some value
  operands : ∀ operation, operation < opCount ir → ∃ operands, opOperands ir operation = some operands
  edgeArgs_length : (edgeArgs ir).length = (graph ir).successors.length
  edgeArgs_bounds : ∀ range ∈ edgeArgs ir,
    range.start ≤ range.stop ∧ range.stop ≤ (edgeArgValues ir).length
  valueOp : ∀ value operation, valueDefinition ir value = some (.op operation) →
    operation < opCount ir

/-- The arguments of a block, in order. -/
def argsOf (ir : I) (block : IlBlockId) : List IlBlockArgId :=
  (List.range (blockArgCount ir)).filter fun arg => blockArgBlock ir arg == some block

def argsForEdge (ir : I) (edge : Nat) : List IlValueId :=
  match (edgeArgs ir)[edge]? with
  | some range => range.slice (edgeArgValues ir)
  | none => []

/-- The value is defined before the operation of the block, by dominance. -/
def AvailableAt (ir : I) (dominance : IlDominance) (value : IlValueId) (block : IlBlockId)
    (operation : Nat) : Prop :=
  match valueDefinition ir value with
  | some (.op definition) => ∃ home, (graph ir).InBlock definition home ∧
      if home = block then definition < operation else dominance.dominates home block = true
  | some (.blockArg arg) => ∃ home, blockArgBlock ir arg = some home ∧
      dominance.dominates home block = true
  | none => False

/-- The value is defined at the end of the block, by dominance. -/
def AvailableAfter (ir : I) (dominance : IlDominance) (value : IlValueId) (block : IlBlockId) :
    Prop :=
  match valueDefinition ir value with
  | some (.op definition) => ∃ home, (graph ir).InBlock definition home ∧
      (home = block ∨ dominance.dominates home block = true)
  | some (.blockArg arg) => ∃ home, blockArgBlock ir arg = some home ∧
      dominance.dominates home block = true
  | none => False

/-- The value is a block argument or the result of an operation with a smaller index. -/
def Precedes (ir : I) (value : IlValueId) (operation : Nat) : Prop :=
  match valueDefinition ir value with
  | some (.op definition) => definition < operation
  | some (.blockArg _) => True
  | none => False

/-- The arguments of one edge fit the block that it enters. -/
structure EdgeFits (ir : I) (dominance : IlDominance) (accepts : IlValueId → IlValueId → Prop)
    (predecessor : IlBlockId) (edge : Nat) (successor : IlBlockId) : Prop where
  length : (argsForEdge ir edge).length = (argsOf ir successor).length
  args : ∀ (i : Nat) (value : IlValueId) (arg : IlBlockArgId),
    (argsForEdge ir edge)[i]? = some value → (argsOf ir successor)[i]? = some arg →
      valueWidth ir value = blockArgWidth ir arg ∧
      (∀ destination, blockArgValue ir arg = some destination → accepts value destination) ∧
      (dominance.isReachable predecessor = true → AvailableAfter ir dominance value predecessor)

/-- What `verify_uses` makes sure of. -/
structure UsesFit (ir : I) (dominance : IlDominance) (accepts : IlValueId → IlValueId → Prop) :
    Prop where
  placed : ∀ operation, operation < opCount ir → ∃ block, (graph ir).InBlock operation block
  operands : ∀ operation block operands, (graph ir).InBlock operation block →
    opOperands ir operation = some operands → ∀ value ∈ operands,
      if dominance.isReachable block then AvailableAt ir dominance value block operation
      else Precedes ir value operation
  edges : ∀ (predecessor : IlBlockId) (record : IlBlock) (offset : Nat) (successor : IlBlockId),
    (graph ir).blocks[predecessor]? = some record →
    (record.successors.slice (graph ir).successors)[offset]? = some successor →
      EdgeFits ir dominance accepts predecessor (record.successors.start + offset) successor

section Lemmas

variable {ir : I} {E : Type} {fromSsa : SsaVerifyError → E}
  {verifyEdgeArg : IlValueId → IlValueId → Except E Unit}
  {dominance : IlDominance} {operationBlocks : List (Option IlBlockId)}

/-- What `op_blocks` returned. -/
def IsPlacement (ir : I) (operationBlocks : List (Option IlBlockId)) : Prop :=
  ∀ operation block, (operationBlocks[operation]?).join = some block ↔
    operation < opCount ir ∧ (graph ir).InBlock operation block

variable {block : IlBlockId}

variable (checked : Checked ir)
include checked

theorem Checked.inBlock_lt {operation : Nat}
    (inBlock : (graph ir).InBlock operation block) : operation < opCount ir := by
  obtain ⟨record, found, -, high⟩ := inBlock
  exact lt_of_lt_of_le high (checked.blockOps record (mem_of_getElem? found))

theorem Checked.opBlocks_spec :
    ∃ operationBlocks, (graph ir).opBlocks (opCount ir) = some operationBlocks ∧
      IsPlacement ir operationBlocks := by
  obtain ⟨operationBlocks, run, length, spec⟩ := checked.wellFormed.opBlocks_spec (opCount ir)
  refine ⟨operationBlocks, run, fun operation block => ?_⟩
  by_cases lt : operation < opCount ir
  · obtain ⟨entry, found, entry_iff⟩ := spec operation lt
    rw [found, Option.join_some, entry_iff]
    exact ⟨fun inBlock => ⟨lt, inBlock⟩, fun h => h.2⟩
  · rw [getElem?_eq_none (by omega)]
    simp [lt]

omit checked in
theorem definitionBlock_eq_ok (placement : IsPlacement ir operationBlocks) {operation : IlOpId} :
    definitionBlock operationBlocks operation = .ok block ↔
      operation < opCount ir ∧ (graph ir).InBlock operation block := by
  rw [definitionBlock, okOr_eq_ok, placement]

omit checked in
theorem verifyOperandsPrecede_eq_ok {operation : IlOpId} {operationIndex : Nat} :
    verifyOperandsPrecede ir operation operationIndex = .ok () ↔
      ∃ operands, opOperands ir operation = some operands ∧
        ∀ value ∈ operands, Precedes ir value operationIndex := by
  unfold verifyOperandsPrecede
  rw [bind_eq_ok]
  refine exists_congr fun operands => and_congr okOr_eq_ok ?_
  rw [forM_eq_ok]
  refine forall₂_congr fun value _ => ?_
  rw [bind_eq_ok, Precedes]
  cases valueDefinition ir value with
  | none => simp
  | some definition =>
    cases definition with
    | op definition => simp
    | blockArg arg => simp

variable {value : IlValueId}

theorem valueDominatesOp_eq_true (placement : IsPlacement ir operationBlocks) {operation : Nat} :
    valueDominatesOp ir value block operation dominance operationBlocks = .ok true ↔
      AvailableAt ir dominance value block operation := by
  unfold valueDominatesOp AvailableAt
  rw [bind_eq_ok]
  simp only [okOr_eq_ok]
  cases found : valueDefinition ir value with
  | none => simp
  | some definition =>
    cases definition with
    | op definition =>
      have lt := checked.valueOp value definition found
      simp only [Option.some.injEq, exists_eq_left', bind_eq_ok, definitionBlock_eq_ok placement,
        lt, true_and]
      refine exists_congr fun home => and_congr_right fun _ => ?_
      split <;> simp [pure, Except.pure]
    | blockArg arg =>
      simp only [Option.some.injEq, exists_eq_left', bind_eq_ok, okOr_eq_ok]
      simp [pure, Except.pure]

theorem valueDominatesEdge_eq_true (placement : IsPlacement ir operationBlocks) :
    valueDominatesEdge ir value block dominance operationBlocks = .ok true ↔
      AvailableAfter ir dominance value block := by
  unfold valueDominatesEdge AvailableAfter
  rw [bind_eq_ok]
  simp only [okOr_eq_ok]
  cases found : valueDefinition ir value with
  | none => simp
  | some definition =>
    cases definition with
    | op definition =>
      have lt := checked.valueOp value definition found
      simp only [Option.some.injEq, exists_eq_left', bind_eq_ok, definitionBlock_eq_ok placement,
        lt, true_and]
      simp [pure, Except.pure]
    | blockArg arg =>
      simp only [Option.some.injEq, exists_eq_left', bind_eq_ok, okOr_eq_ok]
      simp [pure, Except.pure]

omit checked in
/-- A check that fails unless a query returns `true`. -/
theorem bind_ensure_eq_ok {ε : Type} {x : Except ε Bool} {error : ε} :
    (x >>= fun condition => ensure condition error) = .ok () ↔ x = .ok true := by
  rw [bind_eq_ok]
  simp only [ensure_eq_ok]
  constructor
  · rintro ⟨_, eq, rfl⟩
    exact eq
  · intro eq
    exact ⟨true, eq, rfl⟩

theorem verifyOpUses_eq_ok (placement : IsPlacement ir operationBlocks)
    {operation : Nat} (lt : operation < opCount ir) :
    verifyOpUses ir fromSsa dominance operationBlocks operation = .ok () ↔
      ∃ block, (graph ir).InBlock operation block ∧
        ∀ operands, opOperands ir operation = some operands → ∀ value ∈ operands,
          if dominance.isReachable block then AvailableAt ir dominance value block operation
          else Precedes ir value operation := by
  obtain ⟨operands, operandsEq⟩ := checked.operands operation lt
  have fits : operation + 1 ≤ u32Max := le_trans lt checked.ops_le
  unfold verifyOpUses
  rw [tryFromIndex_ok fits]
  show (okOr (operationBlocks[operation]?).join _ >>= _) = _ ↔ _
  rw [bind_eq_ok]
  refine exists_congr fun block => and_congr ?_ ?_
  · rw [okOr_eq_ok, placement]
    exact ⟨fun h => h.2, fun h => ⟨lt, h⟩⟩
  · simp only [operandsEq, Option.some.injEq, forall_eq']
    cases reachable : dominance.isReachable block with
    | false =>
      simp only [Bool.not_false, if_true, mapError_eq_ok, verifyOperandsPrecede_eq_ok, operandsEq]
      simp
    | true =>
      simp only [Bool.not_true, Bool.false_eq_true, if_false, if_true]
      show (operands.forM _) = _ ↔ _
      rw [forM_eq_ok]
      refine forall₂_congr fun value _ => ?_
      rw [bind_ensure_eq_ok, mapError_eq_ok, valueDominatesOp_eq_true checked placement]

theorem verifyEdgeArgUse_eq_ok (placement : IsPlacement ir operationBlocks)
    {predecessor successor : IlBlockId} {arg : IlBlockArgId} (lt : arg < blockArgCount ir) :
    verifyEdgeArgUse ir fromSsa verifyEdgeArg dominance operationBlocks predecessor successor
        value arg = .ok () ↔ valueWidth ir value = blockArgWidth ir arg ∧
      (∀ destination, blockArgValue ir arg = some destination →
        verifyEdgeArg value destination = .ok ()) ∧
      (dominance.isReachable predecessor = true → AvailableAfter ir dominance value predecessor) := by
  obtain ⟨block, destination, -, -, destinationEq⟩ := checked.blockArg arg lt
  have fits : arg + 1 ≤ u32Max := le_trans lt checked.blockArgs_le
  unfold verifyEdgeArgUse
  rw [tryFromIndex_ok fits]
  show (okOr (blockArgValue ir arg) _ >>= _) = _ ↔ _
  rw [bind_eq_ok]
  simp only [okOr_eq_ok, destinationEq, Option.some.injEq, exists_eq_left', forall_eq']
  rw [andThen_eq_ok, andThen_eq_ok, ensure_eq_ok, beq_iff_eq]
  cases reachable : dominance.isReachable predecessor with
  | false => simp [pure, Except.pure]
  | true =>
    simp only [if_true, forall_const]
    rw [bind_ensure_eq_ok, mapError_eq_ok, valueDominatesEdge_eq_true checked placement]

omit checked in
theorem rowOf_blockArgEntries (lt : block < (graph ir).blocks.length) :
    IlCsr.rowOf (blockArgEntries ir) block = argsOf ir block := by
  unfold IlCsr.rowOf blockArgEntries argsOf
  rw [filter_map, map_map]
  have id : (Prod.snd ∘ fun index => ((blockArgBlock ir index).getD (graph ir).blocks.length,
      index)) = (id : Nat → Nat) := rfl
  rw [id, map_id]
  refine filter_congr fun arg _ => ?_
  simp only [Function.comp]
  cases blockArgBlock ir arg with
  | none => simp [ne_of_gt lt]
  | some home => simp

theorem Checked.blockArgs_spec :
    ∃ blockArgs, IlCsr.tryFromEntries (graph ir).blocks.length (blockArgEntries ir) =
        .ok blockArgs ∧
      ∀ block, block < (graph ir).blocks.length → blockArgs.row block = argsOf ir block := by
  have rows : ∀ entry ∈ blockArgEntries ir, entry.1 < (graph ir).blocks.length := by
    intro entry mem
    obtain ⟨arg, argMem, rfl⟩ := mem_map.mp mem
    obtain ⟨block, value, blockEq, lt, -⟩ := checked.blockArg arg (mem_range.mp argMem)
    simpa [blockEq] using lt
  obtain ⟨blockArgs, run, holds⟩ := IlCsr.tryFromEntries_ok rows (by
    simpa [blockArgEntries] using checked.blockArgs_le)
  refine ⟨blockArgs, run, fun block lt => ?_⟩
  rw [holds.row_eq lt, rowOf_blockArgEntries lt]

omit checked in
theorem mem_argsOf {arg : IlBlockArgId} :
    arg ∈ argsOf ir block ↔ arg < blockArgCount ir ∧ blockArgBlock ir arg = some block := by
  simp [argsOf]

theorem verifyEdgeUse_eq_ok (placement : IsPlacement ir operationBlocks)
    {blockArgs : IlCsr Nat} {predecessor successor : IlBlockId} {edge : Nat}
    (row : blockArgs.row successor = argsOf ir successor)
    (lt : edge < (graph ir).successors.length) :
    verifyEdgeUse ir fromSsa verifyEdgeArg dominance operationBlocks blockArgs predecessor edge
        successor = .ok () ↔
      EdgeFits ir dominance (fun value destination => verifyEdgeArg value destination = .ok ())
        predecessor edge successor := by
  have edgeLt : edge < (edgeArgs ir).length := by rw [checked.edgeArgs_length]; exact lt
  have args : (edgeArgs ir)[edge]?.bind (fun range =>
      (range.checkedSlice (edgeArgValues ir)).toOption) = some (argsForEdge ir edge) := by
    rw [argsForEdge, getElem?_eq_getElem edgeLt, Option.bind_some]
    have bounds := checked.edgeArgs_bounds _ (getElem_mem edgeLt)
    rw [checkedSlice_eq_ok.mpr ⟨bounds, rfl⟩]
    rfl
  unfold verifyEdgeUse
  rw [bind_eq_ok]
  simp only [okOr_eq_ok, args, Option.some.injEq, exists_eq_left', row]
  rw [andThen_eq_ok, ensure_eq_ok, beq_iff_eq, forM_eq_ok]
  have lookup : ∀ (i : Nat) (value : IlValueId) (arg : IlBlockArgId),
      (argsForEdge ir edge)[i]? = some value → (argsOf ir successor)[i]? = some arg →
        (value, arg) ∈ (argsForEdge ir edge).zip (argsOf ir successor) := by
    intro i value arg left right
    exact mem_iff_getElem?.mpr ⟨i, by rw [getElem?_zip_eq_some]; exact ⟨left, right⟩⟩
  constructor
  · rintro ⟨length, checks⟩
    refine ⟨length, fun i value arg left right => ?_⟩
    have argLt := (mem_argsOf.mp (mem_of_getElem? right)).1
    exact (verifyEdgeArgUse_eq_ok checked placement argLt).mp
      (checks _ (lookup i value arg left right))
  · rintro ⟨length, fits⟩
    refine ⟨length, ?_⟩
    rintro ⟨value, arg⟩ mem
    obtain ⟨i, at_⟩ := getElem?_of_mem mem
    obtain ⟨left, right⟩ := getElem?_zip_eq_some.mp at_
    have argLt := (mem_argsOf.mp (mem_of_getElem? right)).1
    exact (verifyEdgeArgUse_eq_ok checked placement argLt).mpr (fits i value arg left right)

theorem verifyEdgeUses_eq_ok (placement : IsPlacement ir operationBlocks) :
    verifyEdgeUses ir fromSsa verifyEdgeArg dominance operationBlocks = some (.ok ()) ↔
      ∀ (predecessor : IlBlockId) (record : IlBlock) (offset : Nat) (successor : IlBlockId),
        (graph ir).blocks[predecessor]? = some record →
        (record.successors.slice (graph ir).successors)[offset]? = some successor →
          EdgeFits ir dominance
            (fun value destination => verifyEdgeArg value destination = .ok ()) predecessor
            (record.successors.start + offset) successor := by
  obtain ⟨blockArgs, table, rows⟩ := checked.blockArgs_spec
  have inRange := checked.wellFormed.inRange
  rw [verifyEdgeUses, if_pos checked.blockArgs_le, Option.some_inj, table]
  show ((graph ir).blocks.zipIdx.forM _) = _ ↔ _
  rw [forM_zipIdx_eq_ok]
  have inPool : ∀ {record : IlBlock} {offset : Nat} {successor : IlBlockId},
      (record.successors.slice (graph ir).successors)[offset]? = some successor →
        record.successors.start + offset < (graph ir).successors.length := by
    intro record offset successor at_
    rw [getElem?_slice] at at_
    split at at_
    · exact lt_of_getElem? at_
    · cases at_
  -- the lookups of a block and of its successors succeed, so its check is the check of its edges
  have block_iff : ∀ (predecessor : Nat) (record : IlBlock),
      (graph ir).blocks[predecessor]? = some record →
      ((do
        let predecessorId ←
          ((tryFromIndex "block" predecessor).mapError SsaVerifyError.il).mapError fromSsa
        let successors ← ((record.successors.checkedSlice (graph ir).successors).mapError
          SsaVerifyError.il).mapError fromSsa
        successors.zipIdx.forM fun entry =>
          verifyEdgeUse ir fromSsa verifyEdgeArg dominance operationBlocks blockArgs predecessorId
            (record.successors.start + entry.2) entry.1) = .ok () ↔
      ∀ (offset : Nat) (successor : IlBlockId),
        (record.successors.slice (graph ir).successors)[offset]? = some successor →
          EdgeFits ir dominance
            (fun value destination => verifyEdgeArg value destination = .ok ()) predecessor
            (record.successors.start + offset) successor) := by
    intro predecessor record found
    have mem := mem_of_getElem? found
    have fits : predecessor + 1 ≤ u32Max :=
      le_trans (lt_of_getElem? found) checked.wellFormed.blocks_le
    rw [tryFromIndex_ok fits, checkedSlice_eq_ok.mpr ⟨inRange.ranges record mem, rfl⟩]
    show ((record.successors.slice (graph ir).successors).zipIdx.forM _) = _ ↔ _
    rw [forM_zipIdx_eq_ok]
    refine forall₃_congr fun offset successor at_ => ?_
    exact verifyEdgeUse_eq_ok checked placement
      (rows successor (inRange.targets record mem successor (mem_of_getElem? at_)))
      (inPool at_)
  constructor
  · intro check predecessor record offset successor found
    exact (block_iff predecessor record found).mp (check predecessor record found) offset successor
  · intro edges predecessor record found
    exact (block_iff predecessor record found).mpr fun offset successor =>
      edges predecessor record offset successor found

/-- `verify_uses` succeeds exactly when the uses fit the dominance of the graph. -/
theorem verifyUses_eq_ok (nonempty : (graph ir).blocks ≠ [])
    (dominanceEq : (graph ir).dominance = some dominance) :
    verifyUses ir fromSsa verifyEdgeArg = some (.ok ()) ↔
      UsesFit ir dominance fun value destination => verifyEdgeArg value destination = .ok () := by
  obtain ⟨operationBlocks, placementEq, placement⟩ := checked.opBlocks_spec
  have unfolded : verifyUses ir fromSsa verifyEdgeArg = some (.ok ()) ↔
      verifyEdgeUses ir fromSsa verifyEdgeArg dominance operationBlocks = some (.ok ()) ∧
      ∀ operation, operation < opCount ir →
        verifyOpUses ir fromSsa dominance operationBlocks operation = .ok () := by
    have notEmpty : (graph ir).blocks.isEmpty = false := by simpa using nonempty
    rw [verifyUses, notEmpty]
    simp only [Bool.false_eq_true, if_false, dominanceEq, placementEq, Option.bind_eq_bind,
      Option.bind_some]
    rw [Option.bind_eq_some_iff]
    constructor
    · rintro ⟨edges, edgesEq, rest⟩
      have rest := Option.some.inj rest
      rw [andThen_eq_ok, forM_eq_ok] at rest
      obtain ⟨rfl, ops⟩ := rest
      exact ⟨edgesEq, fun operation lt => ops operation (mem_range.mpr lt)⟩
    · rintro ⟨edgesEq, ops⟩
      refine ⟨.ok (), edgesEq, congrArg some ?_⟩
      rw [andThen_eq_ok, forM_eq_ok]
      exact ⟨rfl, fun operation mem => ops operation (mem_range.mp mem)⟩
  rw [unfolded, verifyEdgeUses_eq_ok checked placement]
  constructor
  · rintro ⟨edges, ops⟩
    have op := fun operation lt => (verifyOpUses_eq_ok checked placement lt).mp (ops operation lt)
    refine ⟨fun operation lt => ?_, fun operation block operands inBlock operandsEq => ?_, edges⟩
    · obtain ⟨block, inBlock, -⟩ := op operation lt
      exact ⟨block, inBlock⟩
    · obtain ⟨block', inBlock', uses⟩ := op operation (checked.inBlock_lt inBlock)
      rw [checked.wellFormed.inBlock_unique inBlock inBlock']
      exact uses operands operandsEq
  · rintro ⟨placed, operands, edges⟩
    refine ⟨edges, fun operation lt => (verifyOpUses_eq_ok checked placement lt).mpr ?_⟩
    obtain ⟨block, inBlock⟩ := placed operation lt
    exact ⟨block, inBlock, fun list listEq => operands operation block list inBlock listEq⟩

end Lemmas

end Fugue.Il.SsaVerifier
