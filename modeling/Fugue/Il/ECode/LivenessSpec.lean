import Fugue.Il.Common.PhiPlacement
import Fugue.Il.ECode.LivenessSolve
import Fugue.Il.ECode.VerifyTables

/-!
# Liveness is exact

On a verified form with blocks the solver ends with the rows of `Flow.LiveIn` and `Flow.LiveOut`. The
result keeps them in tables with `u32` offsets, so it is made exactly when a `u32` counts the pairs
of either table.
-/

namespace Fugue.Il

open Fugue.Lib List FixedBitSet ECodeIr LivenessMatrix

theorem ECodeIr.TablesFit.indicesFit {ir : ECodeIr} (tables : ir.TablesFit) : ir.IndicesFit := by
  have wellFormed := tables.definitions.wellFormed
  obtain ⟨edgeLength, edgeBounds, edgeValues⟩ :=
    verifyEdgeArgs_eq_ok.mp tables.definitions.edgeArgs_ok
  refine ⟨wellFormed.inRange, ?_, fun arg mem => ?_, fun operation mem => ?_,
    fun operation mem operand mem' => ?_, fun block mem offset lt => ?_⟩
  · exact length_le_of_index fun i value found => (tables.domains.2 i value found).1
  · obtain ⟨i, found⟩ := getElem?_of_mem mem
    obtain ⟨-, block, value⟩ := verifyBlockArg_eq_ok.mp (tables.definitions.blockArgs_ok i arg found)
    exact ⟨block, (lt_of_getElem? value)⟩
  · obtain ⟨i, found⟩ := getElem?_of_mem mem
    exact (verifyOpResults_eq_ok.mp (tables.definitions.results_ok i operation found)).2.1.2
  · obtain ⟨i, found⟩ := getElem?_of_mem mem
    obtain ⟨value, at_, -⟩ := (tables.ops i operation found).operands operand mem'
    exact lt_of_getElem? at_
  · have bound := (wellFormed.inRange.ranges block mem).2
    have inside : block.successors.start + offset < ir.edgeArgs.length := by
      rw [IlIndexRange.len] at lt
      omega
    refine ⟨ir.edgeArgs[block.successors.start + offset], getElem?_eq_getElem inside,
      fun arg mem' => ?_⟩
    exact edgeValues arg (mem_of_mem_slice mem')

/-- The table of a matrix is made when a `u32` counts its bits. -/
theorem LivenessMatrix.Sized.intoSparse_eq {rowCount valueCount : Nat} {matrix : LivenessMatrix}
    (sized : matrix.Sized rowCount valueCount) (small : valueCount ≤ u32Max) :
    matrix.intoSparse = if (matrix.rows.map ones).flatten.length ≤ u32Max then
      some (IlCsr.ofRows (matrix.rows.map ones)) else none := by
  have rows : matrix.rows.mapM (fun row =>
      (ones row).mapM fun value => (tryFromIndex "value" value).toOption) =
      some (matrix.rows.map ones) := by
    refine mapM_eq_some fun row mem => ?_
    refine (mapM_eq_some (g := id) fun value one => ?_).trans (by rw [map_id])
    have lt := lt_of_getD (FixedBitSet.mem_ones.mp one)
    rw [sized.values row mem] at lt
    rw [tryFromIndex_ok (by omega)]
    rfl
  rw [intoSparse, rows, ← IlCsr.fromRows_eq]
  rfl

theorem LivenessMatrix.mem_ones_iff (matrix : LivenessMatrix) (row value : Nat) :
    value ∈ (matrix.rows.map ones).getD row [] ↔ matrix.Has row value := by
  have rowEq : (matrix.rows.map ones).getD row [] =
      ones (matrix.rows.getD row []) := by
    rw [getD_eq_getElem?_getD, getD_eq_getElem?_getD, getElem?_map]
    cases matrix.rows[row]? <;> rfl
  rw [rowEq, mem_ones, Has]

theorem LivenessMatrix.Sized.table_spec {rowCount valueCount : Nat} {matrix : LivenessMatrix}
    (sized : matrix.Sized rowCount valueCount) (small : valueCount ≤ u32Max)
    {rel : Nat → Nat → Prop} (holds : ∀ row value, matrix.Has row value ↔ rel row value) :
    ((∃ table, matrix.intoSparse = some table) ↔
      {pair : Nat × Nat | rel pair.1 pair.2}.ncard ≤ u32Max) ∧
    ∀ table, matrix.intoSparse = some table → ∀ row,
      ((table.checkedRow row).getD []).Pairwise (· < ·) ∧
      ∀ value, value ∈ (table.checkedRow row).getD [] ↔ rel row value := by
  have sorted : ∀ row ∈ matrix.rows.map ones, row.Pairwise (· < ·) := by
    intro row mem
    obtain ⟨bits, -, rfl⟩ := mem_map.mp mem
    exact pairwise_ones
  have member : ∀ row value, value ∈ (matrix.rows.map ones).getD row [] ↔
      rel row value := fun row value => (matrix.mem_ones_iff row value).trans (holds row value)
  rw [sized.intoSparse_eq small, length_flatten_eq_ncard
    (fun row mem => (sorted row mem).imp ne_of_lt) member]
  refine ⟨⟨?_, fun fits => ⟨_, if_pos fits⟩⟩, fun table made row => ?_⟩
  · rintro ⟨table, made⟩
    by_contra large
    rw [if_neg large] at made
    cases made
  · split at made
    · rw [← Option.some.inj made, IlCsr.ofRows_checkedRow, ← getD_eq_getElem?_getD]
      refine ⟨?_, member row⟩
      by_cases lt : row < (matrix.rows.map ones).length
      · rw [getD_eq_getElem _ _ lt]
        exact sorted _ (getElem_mem lt)
      · rw [getD_eq_default _ _ (not_lt.mp lt)]
        exact .nil
    · cases made

namespace ECodeLiveness

open ECodeLivenessSolver

variable {ir : ECodeIr}

theorem analyse_eq (fit : ir.IndicesFit) (nonempty : ir.graph.blocks ≠ []) :
    ∃ last : State, Inv ir last ∧
      (∀ block < ir.graph.blocks.length, Settled ir last block) ∧
      analyse ir = last.liveIn.intoSparse.bind fun liveIn =>
        last.liveOut.intoSparse.map fun liveOut => ⟨liveIn, liveOut⟩ := by
  obtain ⟨first, second, third, firstEq, secondEq, thirdEq, collected⟩ := collect_spec fit
  have start : Inv ir ⟨.new ir.graph.blocks.length ir.values.length,
      .new ir.graph.blocks.length ir.values.length, true⟩ := by
    refine ⟨sized_new, sized_new, ?_, ?_, ?_, ?_⟩ <;>
      exact fun block value has => absurd has (has_new block value)
  obtain ⟨last, run, inv, settled⟩ := rounds_spec fit collected start
  refine ⟨last, inv, settled, ?_⟩
  have notEmpty : ir.graph.blocks.isEmpty = false := by simpa using nonempty
  rw [analyse, solve, notEmpty]
  simp only [Bool.false_eq_true, if_false, firstEq, secondEq, thirdEq, run, some_bind]
  cases last.liveIn.intoSparse with
  | none => rfl
  | some liveIn =>
    cases last.liveOut.intoSparse with
    | none => rfl
    | some liveOut => rfl

/-- The tables are made when a `u32` counts their entries, and are exact. -/
theorem analyse_of_fit (fit : ir.IndicesFit) (nonempty : ir.graph.blocks ≠ []) :
    ((∃ liveness, analyse ir = some liveness) ↔
      {pair : IlBlockId × IlValueId | ir.flow.LiveIn pair.1 pair.2}.ncard ≤ u32Max ∧
      {pair : IlBlockId × IlValueId | ir.flow.LiveOut pair.1 pair.2}.ncard ≤ u32Max) ∧
    ∀ liveness, analyse ir = some liveness → ∀ block,
      ((liveness.liveIn block).Pairwise (· < ·) ∧
        ∀ value, value ∈ liveness.liveIn block ↔ ir.flow.LiveIn block value) ∧
      (liveness.liveOut block).Pairwise (· < ·) ∧
        ∀ value, value ∈ liveness.liveOut block ↔ ir.flow.LiveOut block value := by
  obtain ⟨last, inv, settled, eq⟩ := analyse_eq fit nonempty
  obtain ⟨inMade, inHolds⟩ := inv.inSized.table_spec fit.values
    fun block value => (inv.exact settled block value).1
  obtain ⟨outMade, outHolds⟩ := inv.outSized.table_spec fit.values
    fun block value => (inv.exact settled block value).2
  rw [← inMade, ← outMade, eq]
  cases inTable : last.liveIn.intoSparse with
  | none => simp
  | some liveIn =>
    cases outTable : last.liveOut.intoSparse with
    | none => simp
    | some liveOut =>
      refine ⟨⟨fun _ => ⟨⟨_, rfl⟩, _, rfl⟩, fun _ => ⟨_, rfl⟩⟩, fun liveness made block => ?_⟩
      rw [← Option.some.inj made]
      exact ⟨inHolds liveIn inTable block, outHolds liveOut outTable block⟩

/-- On a verified form with blocks the analysis returns when a `u32` counts what is live at the
starts of the blocks and what is live at their ends, and the result is then exact: `live_in` and
`live_out` list, in increasing order, the values for which a path leads from there to a use, with no
definition on the way. -/
theorem analyse_exact (ir : ECodeIr) (nonempty : ir.graph.blocks ≠ [])
    (verified : ir.verify = some (.ok ())) :
    ((∃ liveness, analyse ir = some liveness) ↔
      {pair : IlBlockId × IlValueId | ir.flow.LiveIn pair.1 pair.2}.ncard ≤ u32Max ∧
      {pair : IlBlockId × IlValueId | ir.flow.LiveOut pair.1 pair.2}.ncard ≤ u32Max) ∧
    ∀ liveness, analyse ir = some liveness → ∀ block,
      ((liveness.liveIn block).Pairwise (· < ·) ∧
        ∀ value, value ∈ liveness.liveIn block ↔ ir.flow.LiveIn block value) ∧
      (liveness.liveOut block).Pairwise (· < ·) ∧
        ∀ value, value ∈ liveness.liveOut block ↔ ir.flow.LiveOut block value := by
  have tables : ir.TablesFit := by
    apply ECodeIr.verifyTables_eq_ok.mp
    unfold verify at verified
    split at verified
    · cases verified
    · assumption
  exact analyse_of_fit tables.indicesFit nonempty

theorem analyse_exact_carriedLoop :
    (∃ liveness, analyse carriedLoop = some liveness) ↔
      {pair : IlBlockId × IlValueId |
        ECodeIr.carriedLoop.flow.LiveIn pair.1 pair.2}.ncard ≤ u32Max ∧
      {pair : IlBlockId × IlValueId |
        ECodeIr.carriedLoop.flow.LiveOut pair.1 pair.2}.ncard ≤ u32Max :=
  (analyse_exact carriedLoop (by decide) (by decide +kernel)).1

/-- The argument of the loop is live on entering neither block, and the constant only at the end of
the first one. -/
example : (analyse carriedLoop).map (fun liveness =>
    ([0, 1].map liveness.liveIn, [0, 1].map liveness.liveOut)) =
    some ([[], []], [[0], [1]]) := by
  decide +kernel

end ECodeLiveness

/-! ## Where the table overflows -/

namespace ECodeIr

open SsaVerifier

/-- The blocks of a chain; the first and the last one have an operation. -/
def wideBlocks (n : Nat) : List IlBlock :=
  (List.range n).map fun i =>
    ⟨⟨if i = 0 then 0 else 1, if i + 1 = n then 2 else 1⟩, ⟨i, min (i + 1) (n - 1)⟩,
      ⟨i == 0, i + 1 == n⟩⟩

/-- The first operation of the chain defines `n` values, the last one uses them. -/
def wideIr (n : Nat) : ECodeIr where
  metadata := ⟨0, 0⟩
  graph :=
    { blocks := wideBlocks n
      successors := List.range' 1 (n - 1)
      successorKinds := List.replicate (n - 1) ⟨true, false, false, false⟩
      blockSources := [] }
  sourceSpans := []
  parentSpans := []
  values := List.replicate n ⟨32, .op 0⟩
  valueDomains := List.replicate n none
  blockArgs := []
  edgeArgs := List.replicate (n - 1) .empty
  edgeArgValues := []
  operations := [⟨.intrinsic, ⟨0, n⟩, ⟨0, 0⟩, 32, 0, none, none⟩,
    ⟨.return, ⟨n, n⟩, ⟨0, n⟩, 0, 0, none, none⟩]
  valueOperands := List.range n
  memoryDomains := []
  constantStorage := []

section Wide

variable {n i j : Nat}

theorem wide_getElem? (lt : i < n) : (wideBlocks n)[i]? = some
    ⟨⟨if i = 0 then 0 else 1, if i + 1 = n then 2 else 1⟩, ⟨i, min (i + 1) (n - 1)⟩,
      ⟨i == 0, i + 1 == n⟩⟩ := by
  rw [wideBlocks, getElem?_map, getElem?_range lt]
  rfl

theorem wide_length : (wideBlocks n).length = n := by simp [wideBlocks]

theorem wide_nonempty (many : 1 < n) : (wideIr n).graph.blocks ≠ [] := by
  have length : (wideIr n).graph.blocks.length = n := wide_length
  rw [← length_pos_iff, length]
  omega

theorem wide_successors (lt : i < n) :
    (IlIndexRange.mk i (min (i + 1) (n - 1))).slice (List.range' 1 (n - 1)) =
      if i + 1 < n then [i + 1] else [] := by
  refine ext_getElem? fun k => ?_
  rw [IlIndexRange.getElem?_slice]
  dsimp only
  split
  · have last : i + 1 < n := by omega
    obtain rfl : k = 0 := by omega
    rw [if_pos last, getElem?_range' (by omega)]
    simp [add_comm]
  · split
    · rw [getElem?_eq_none]
      rw [length_singleton]
      omega
    · rfl

theorem wide_edge_iff : Edge (wideBlocks n) (List.range' 1 (n - 1)) i j ↔ i + 1 < n ∧ j = i + 1 := by
  unfold Edge successorsFor
  by_cases lt : i < n
  · rw [wide_getElem? lt]
    simp only [wide_successors lt]
    split
    · simp [*]
    · simp [*]
  · rw [getElem?_eq_none (by rw [wide_length]; omega)]
    simp only [not_mem_nil, false_iff]
    omega

theorem wide_inRange : GraphInRange (wideBlocks n) (List.range' 1 (n - 1)) := by
  refine ⟨fun block mem => ?_, fun block mem target within => ?_⟩
  · obtain ⟨i, memI, rfl⟩ := mem_map.mp mem
    have lt := mem_range.mp memI
    rw [length_range']
    simp only
    omega
  · obtain ⟨i, memI, rfl⟩ := mem_map.mp mem
    have lt := mem_range.mp memI
    simp only [wide_successors lt] at within
    split at within
    · rw [mem_singleton.mp within, wide_length]
      assumption
    · cases within

theorem wide_wellFormed (many : 1 < n) (few : n ≤ u32Max) : (wideIr n).graph.WellFormed := by
  refine ⟨by rw [show (wideIr n).graph.blocks = wideBlocks n from rfl, wide_length]; exact few,
    fun block mem => ?_, wide_inRange, fun block mem => ?_, ?_, by simp [wideIr], .inl rfl⟩
  · obtain ⟨i, memI, rfl⟩ := mem_map.mp mem
    constructor
    · simp only
      split <;> split <;> omega
    · have big : 2 ≤ usizeMax := by decide
      simp only
      split <;> omega
  · obtain ⟨i, memI, rfl⟩ := mem_map.mp mem
    show ((IlIndexRange.mk i (min (i + 1) (n - 1))).slice (List.range' 1 (n - 1))).Nodup
    rw [wide_successors (mem_range.mp memI)]
    split <;> simp
  · show (wideBlocks n).Pairwise fun a b => IlGraph.Apart a.ops b.ops
    rw [wideBlocks, pairwise_map]
    refine pairwise_lt_range.imp_of_mem fun {a b} _ memB lt => .inr (.inr (.inl ?_))
    have within := mem_range.mp memB
    simp only
    split <;> split <;> omega

theorem wide_tables (many : 1 < n) (few : n ≤ u32Max) : (wideIr n).TablesFit := by
  have none_domain : ∀ value, (wideIr n).valueDomain value = none := by
    intro value
    show ((List.replicate n none)[value]?).join = none
    rw [getElem?_replicate]
    split <;> rfl
  have ops : ∀ (k : Nat) (operation : ECodeOp), (wideIr n).operations[k]? = some operation →
      k = 0 ∧ operation = ⟨.intrinsic, ⟨0, n⟩, ⟨0, 0⟩, 32, 0, none, none⟩ ∨
      k = 1 ∧ operation = ⟨.return, ⟨n, n⟩, ⟨0, n⟩, 0, 0, none, none⟩ := by
    intro k operation found
    rcases k with _ | _ | k
    · exact .inl ⟨rfl, (Option.some.inj found).symm⟩
    · exact .inr ⟨rfl, (Option.some.inj found).symm⟩
    · cases found
  refine ⟨⟨verifyStructure_eq_ok.mpr ⟨wide_wellFormed many few, fun block mem => ?_, rfl, rfl⟩,
    verifyEdgeArgs_eq_ok.mpr ⟨by simp [wideIr], ?_, by simp [wideIr]⟩, by simp [wideIr], ?_, ?_⟩,
    by simp [wideIr], ⟨by simp [wideIr], fun k value found => ⟨?_, ?_⟩⟩, ?_⟩
  · obtain ⟨i, memI, rfl⟩ := mem_map.mp mem
    have count : (wideIr n).operations.length = 2 := rfl
    simp only
    split <;> split <;> omega
  · intro range mem
    rw [eq_of_mem_replicate mem]
    exact ⟨le_rfl, le_rfl⟩
  · intro k operation found
    have values : (wideIr n).values.length = n := length_replicate
    have operands : (wideIr n).valueOperands.length = n := length_range
    rw [verifyOpResults_eq_ok, values, operands]
    rcases ops k operation found with ⟨rfl, rfl⟩ | ⟨rfl, rfl⟩
    · refine ⟨by decide, ⟨Nat.zero_le _, le_rfl⟩, ⟨le_rfl, Nat.zero_le _⟩, fun value mem => ?_⟩
      exact eq_of_mem_replicate (mem_of_mem_slice mem)
    · refine ⟨by decide, ⟨le_rfl, le_rfl⟩, ⟨Nat.zero_le _, le_rfl⟩, fun value mem => ?_⟩
      simp [IlIndexRange.slice] at mem
  · intro k value found
    have lt := lt_of_getElem? found
    have values : (wideIr n).values.length = n := length_replicate
    rw [values] at lt
    rw [verifyValue_eq_ok, eq_of_mem_replicate (mem_of_getElem? found)]
    exact ⟨by omega, _, rfl, Nat.zero_le _, lt⟩
  · have lt := lt_of_getElem? found
    have values : (wideIr n).values.length = n := length_replicate
    omega
  · intro domain has
    rw [none_domain] at has
    cases has
  · intro k operation found
    rcases ops k operation found with ⟨rfl, rfl⟩ | ⟨rfl, rfl⟩
    · exact ⟨by simp, by simp [writtenDomain], by simp [opOperandsFor, IlIndexRange.slice],
        by simp [ECodeOpcode.requiresMemoryDomain]⟩
    · refine ⟨by simp, by simp [writtenDomain], fun operand mem => ?_,
        by simp [ECodeOpcode.requiresMemoryDomain]⟩
      have lt := mem_range.mp (mem_of_mem_slice mem)
      refine ⟨⟨32, .op 0⟩, ?_, by simp [ECodeOpcode.hasUniformOperandWidth]⟩
      show (List.replicate n _)[operand]? = _
      rw [getElem?_replicate, if_pos lt]

theorem wide_entryBlock (many : 1 < n) : (wideIr n).graph.entryBlock = some 0 := by
  have first : (wideBlocks n)[0]? = some
      ⟨⟨0, 1⟩, ⟨0, min 1 (n - 1)⟩, ⟨true, false⟩⟩ := by
    rw [wide_getElem? (by omega)]
    have apart : 0 + 1 ≠ n := by omega
    simp [apart]
  obtain ⟨block, rest, eq⟩ : ∃ block rest, wideBlocks n = block :: rest := by
    cases blocks : wideBlocks n with
    | nil =>
      rw [blocks] at first
      cases first
    | cons block rest => exact ⟨block, rest, rfl⟩
  rw [eq] at first
  cases first
  have blocks : (wideIr n).graph.blocks = _ :: rest := eq
  rw [IlGraph.entryBlock, blocks, findIdx?_cons]
  rfl

theorem wide_opsOf (many : 1 < n) : (wideIr n).graph.opsOf 0 = [0] := by
  unfold IlGraph.opsOf
  rw [show (wideIr n).graph.blocks = wideBlocks n from rfl, wide_getElem? (by omega)]
  have apart : 0 + 1 ≠ n := by omega
  simp [apart]

theorem wide_trace (many : 1 < n) {block : IlBlockId} {walk : List IlBlockId}
    (path : (wideIr n).graph.IsPath block walk) :
    ∃ rest, (wideIr n).graph.trace walk = .enter 0 :: .exec 0 :: rest := by
  obtain ⟨entry, entryEq, ends⟩ := path
  rw [wide_entryBlock many] at entryEq
  cases entryEq
  induction ends with
  | start => exact ⟨[], by rw [IlGraph.trace, IlGraph.trace, wide_opsOf many]; rfl⟩
  | step prior edge ih =>
    obtain ⟨rest, eq⟩ := ih
    exact ⟨_, by rw [IlGraph.trace, eq]; rfl⟩

theorem wide_argsForEdge (edge : Nat) : SsaVerifier.argsForEdge (wideIr n) edge = [] := by
  unfold SsaVerifier.argsForEdge
  split
  · rename_i range found
    rw [eq_of_mem_replicate (mem_of_getElem? found)]
    rfl
  · rfl

theorem wide_operands {operation : IlOpId} {operands : List IlValueId}
    (eq : SsaIl.opOperands (wideIr n) operation = some operands) {value : IlValueId}
    (mem : value ∈ operands) : operation = 1 ∧ (wideIr n).Defines (.exec 0) value := by
  rcases operation with _ | _ | k
  · have none : operands = [] := (Option.some.inj eq).symm
    rw [none] at mem
    cases mem
  · have all : operands = (IlIndexRange.mk 0 n).slice (List.range n) := (Option.some.inj eq).symm
    rw [all] at mem
    exact ⟨rfl, _, rfl, Nat.zero_le _, mem_range.mp (mem_of_mem_slice mem)⟩
  · cases eq

theorem wide_definedBeforeUse (many : 1 < n) :
    DefinedBeforeUse (wideIr n) (wideIr n).Defines fun value destination =>
      (wideIr n).verifyEdgeArg value destination = .ok () := by
  have noArgs : ∀ block, argsOf (wideIr n) block = [] := fun _ => rfl
  refine ⟨fun operation lt => ?_, ?_, ?_, ?_, ?_⟩
  · by_cases first : operation = 0
    · refine ⟨0, _, wide_getElem? (by omega), ?_, ?_⟩
      · exact Nat.zero_le _
      · simp only
        split <;> omega
    · refine ⟨n - 1, _, wide_getElem? (by omega), ?_, ?_⟩
      · simp only
        split <;> omega
      · simp only
        rw [if_pos (by omega)]
        exact lt
  · intro block walk path before operation after split operands eq value mem
    obtain ⟨rfl, defines⟩ := wide_operands eq mem
    obtain ⟨rest, trace⟩ := wide_trace many path
    have split : Event.enter 0 :: .exec 0 :: rest = before ++ .exec 1 :: after := trace ▸ split
    rcases before with _ | ⟨first, _ | ⟨second, before⟩⟩
    · cases split
    · cases split
    · obtain ⟨-, split⟩ := List.cons.inj split
      obtain ⟨rfl, -⟩ := List.cons.inj split
      exact ⟨.exec 0, .tail _ (.head _), defines⟩
  · intro block walk record offset successor _ _ _ value mem
    rw [wide_argsForEdge] at mem
    cases mem
  · intro block record offset successor _ _
    rw [wide_argsForEdge, noArgs]
    exact ⟨rfl, by simp⟩
  · intro operation block _ _ operands eq value mem
    obtain ⟨rfl, defines⟩ := wide_operands eq mem
    exact .inr ⟨0, Nat.zero_lt_one, defines⟩

theorem wide_verify (many : 1 < n) (few : n < 2 ^ 31) : (wideIr n).verify = some (.ok ()) := by
  have tables := wide_tables many (by rw [u32Max]; omega)
  have length : (wideIr n).graph.blocks.length = n := wide_length
  have edges : edgeCount (wideBlocks n) ≤ n := by
    have bound : ∀ entry ∈ (wideBlocks n).map fun block => block.successors.len, entry ≤ 1 := by
      intro entry mem
      obtain ⟨block, blockMem, rfl⟩ := mem_map.mp mem
      obtain ⟨i, -, rfl⟩ := mem_map.mp blockMem
      simp only [IlIndexRange.len]
      omega
    have sum := sum_le_card_nsmul _ 1 bound
    rwa [length_map, wide_length, smul_eq_mul, mul_one] at sum
  rw [verify, verifyTables_eq_ok.mpr tables]
  refine ((verifyUses_exact (wideIr n) .fromSsa (wideIr n).verifyEdgeArg
    (wide_nonempty many) tables.definitions).2 (by rwa [length]) ?_).mpr (wide_definedBeforeUse many)
  exact lt_of_le_of_lt edges (by omega)

theorem wide_code (positive : 0 < i) (lt : i < n) : (wideIr n).flow.code i =
    if i + 1 = n then [⟨.return, ⟨n, n⟩, ⟨0, n⟩, 0, 0, none, none⟩] else [] := by
  rw [flow_code (wide_getElem? lt), if_neg (by omega)]
  split <;> rfl

theorem wide_liveIn (jLt : j < n) (i : Nat) (positive : 0 < i) (lt : i < n) :
    (wideIr n).flow.LiveIn i j := by
  have noArgs : ¬ (wideIr n).flow.entryDefines i j := by
    rintro ⟨arg, mem, -⟩
    cases mem
  rw [Flow.liveIn_iff, wide_code positive lt]
  refine ⟨noArgs, ?_⟩
  split
  · refine .inl (.inl ?_)
    show j ∈ (IlIndexRange.mk 0 n).slice (List.range n)
    simpa [IlIndexRange.slice] using jLt
  · refine .inr ⟨Flow.writes_nil, .inr ⟨i + 1, wide_edge_iff.mpr ⟨by omega, rfl⟩, ?_⟩⟩
    exact wide_liveIn jLt (i + 1) (Nat.succ_pos i) (by omega)
termination_by n - i

end Wide

end ECodeIr

namespace ECodeLiveness

theorem wide_ncard {n : Nat} (many : 1 < n) (few : n ≤ u32Max) :
    (n - 1) * n ≤ {pair : IlBlockId × IlValueId |
      (wideIr n).flow.LiveIn pair.1 pair.2}.ncard := by
  obtain ⟨last, inv, settled, -⟩ :=
    analyse_eq (wide_tables many few).indicesFit (wide_nonempty many)
  have finite : {pair : IlBlockId × IlValueId |
      (wideIr n).flow.LiveIn pair.1 pair.2}.Finite := by
    refine ((Finset.range (wideIr n).graph.blocks.length) ×ˢ
      (Finset.range (wideIr n).values.length)).finite_toSet.subset fun pair live => ?_
    have lt := inv.inSized.has_lt ((inv.exact settled pair.1 pair.2).1.mpr live)
    rw [Finset.mem_coe, Finset.mem_product, Finset.mem_range, Finset.mem_range]
    exact lt
  have rectangle : (((Finset.Ico 1 n) ×ˢ (Finset.range n) : Finset (Nat × Nat)) :
      Set (Nat × Nat)).ncard = (n - 1) * n := by
    rw [Set.ncard_coe_finset, Finset.card_product, Nat.card_Ico, Finset.card_range]
  rw [← rectangle]
  refine Set.ncard_le_ncard (fun pair mem => ?_) finite
  rw [Finset.mem_coe, Finset.mem_product, Finset.mem_Ico, Finset.mem_range] at mem
  exact wide_liveIn mem.2 _ mem.1.1 mem.1.2

/-- In a chain of 65537 blocks 65537 values that the first block defines and the last one uses are
live on entering all others. The form is verified, and the `expect` in `IlCsr::from_rows`
panics. -/
theorem analyse_wide_overflow :
    (wideIr 65537).graph.blocks ≠ [] ∧
      (wideIr 65537).verify = some (.ok ()) ∧
      analyse (wideIr 65537) = none := by
  have few : 65537 ≤ u32Max := by decide
  have nonempty := @wide_nonempty 65537 (by norm_num)
  refine ⟨nonempty, wide_verify (by norm_num) (by norm_num), ?_⟩
  cases made : analyse (wideIr 65537) with
  | none => rfl
  | some liveness =>
    have fits := (analyse_of_fit (wide_tables (by norm_num) few).indicesFit nonempty).1.mp
      ⟨liveness, made⟩
    have many := (wide_ncard (by norm_num) few).trans fits.1
    exact absurd many (by norm_num [u32Max])

end ECodeLiveness

end Fugue.Il
