import Fugue.Il.ECode.Liveness

/-!
# What the liveness solver collects

A matrix is read by its bits. Every loop of the collecting functions adds a set of cells to a matrix,
so `Adds` and `Adds.foldlM` give what `block_definitions`, `block_uses` and `edge_uses` hold at the
end.
-/

namespace Fugue.Il

open Fugue.Lib List

namespace FixedBitSet

variable {bits other : List Bool}

theorem getD_map_range (n : Nat) (f : Nat → Bool) (i : Nat) :
    ((List.range n).map f).getD i false = (decide (i < n) && f i) := by
  by_cases lt : i < n
  · simp [lt]
  · simp [not_lt.mp lt]

theorem lt_of_getD {i : Nat} (set : bits.getD i false = true) : i < bits.length := by
  by_contra beyond
  rw [getD_eq_default _ _ (not_lt.mp beyond)] at set
  cases set

@[simp] theorem length_unionWith :
    (unionWith bits other).length = max bits.length other.length := by simp [unionWith]

@[simp] theorem length_differenceWith :
    (differenceWith bits other).length = bits.length := by simp [differenceWith]

theorem getD_unionWith (i : Nat) : (unionWith bits other).getD i false = true ↔
    bits.getD i false = true ∨ other.getD i false = true := by
  rw [unionWith, getD_map_range, Bool.and_eq_true, Bool.or_eq_true, decide_eq_true_eq, lt_max_iff]
  refine ⟨And.right, fun either => ⟨either.imp lt_of_getD lt_of_getD, either⟩⟩

theorem getD_differenceWith (i : Nat) : (differenceWith bits other).getD i false = true ↔
    bits.getD i false = true ∧ ¬ other.getD i false = true := by
  rw [differenceWith, getD_map_range, Bool.and_eq_true, Bool.and_eq_true, decide_eq_true_eq,
    Bool.not_eq_true', Bool.not_eq_true]
  exact ⟨And.right, fun both => ⟨lt_of_getD both.1, both⟩⟩

theorem getD_replicate (n i : Nat) : ¬ (List.replicate n false).getD i false = true := by
  rw [getD_eq_getElem?_getD, getElem?_replicate]
  split <;> simp

theorem mem_ones {i : Nat} : i ∈ ones bits ↔ bits.getD i false = true := by
  rw [ones, mem_filter, mem_range]
  exact ⟨And.right, fun set => ⟨lt_of_getD set, set⟩⟩

theorem pairwise_ones : (ones bits).Pairwise (· < ·) :=
  pairwise_lt_range.sublist filter_sublist

theorem ext_getD (length : bits.length = other.length)
    (same : ∀ i, bits.getD i false = true ↔ other.getD i false = true) : bits = other := by
  refine ext_getElem length fun i lt lt' => ?_
  have at_ := same i
  rw [getD_eq_getElem _ _ lt, getD_eq_getElem _ _ lt'] at at_
  exact Bool.eq_iff_iff.mpr at_

end FixedBitSet

namespace LivenessMatrix

variable {rowCount valueCount : Nat} {matrix : LivenessMatrix}

/-- A bit of the matrix is set. -/
def Has (matrix : LivenessMatrix) (row value : Nat) : Prop :=
  (matrix.rows.getD row []).getD value false = true

/-- The matrix has its number of rows, each as long as the value table. -/
structure Sized (rowCount valueCount : Nat) (matrix : LivenessMatrix) : Prop where
  rows : matrix.rows.length = rowCount
  values : ∀ row ∈ matrix.rows, row.length = valueCount

theorem sized_new : (new rowCount valueCount).Sized rowCount valueCount :=
  ⟨length_replicate, fun row mem => by rw [eq_of_mem_replicate mem, length_replicate]⟩

theorem has_new (row value : Nat) : ¬ (new rowCount valueCount).Has row value := by
  have rowEq : (new rowCount valueCount).rows.getD row [] =
      if row < rowCount then List.replicate valueCount false else [] := by
    rw [new, getD_eq_getElem?_getD, getElem?_replicate]
    split <;> rfl
  rw [Has, rowEq]
  split
  · exact FixedBitSet.getD_replicate _ _
  · simp

section

variable (sized : matrix.Sized rowCount valueCount)

include sized

theorem Sized.row_eq {row : Nat} (lt : row < rowCount) : ∃ bits, matrix.row row = some bits ∧
    bits.length = valueCount ∧ ∀ value, bits.getD value false = true ↔ matrix.Has row value := by
  have within : row < matrix.rows.length := by rwa [sized.rows]
  refine ⟨matrix.rows[row], getElem?_eq_getElem within,
    sized.values _ (getElem_mem within), fun value => ?_⟩
  rw [Has, getD_eq_getElem _ [] within]

theorem Sized.has_lt {row value : Nat} (has : matrix.Has row value) :
    row < rowCount ∧ value < valueCount := by
  have within : row < matrix.rows.length := by
    by_contra beyond
    rw [Has, getD_eq_default _ [] (not_lt.mp beyond)] at has
    cases has
  have lt := FixedBitSet.lt_of_getD has
  rw [getD_eq_getElem _ [] within, sized.values _ (getElem_mem within)] at lt
  exact ⟨sized.rows ▸ within, lt⟩

theorem Sized.setRow {bits : List Bool} (length : bits.length = valueCount) (row : Nat) :
    (matrix.setRow row bits).Sized rowCount valueCount := by
  refine ⟨by rw [LivenessMatrix.setRow, length_set, sized.rows], fun other mem => ?_⟩
  rcases mem_or_eq_of_mem_set mem with old | rfl
  · exact sized.values other old
  · exact length

theorem Sized.has_setRow {bits : List Bool} {row : Nat} (lt : row < rowCount) (other value : Nat) :
    (matrix.setRow row bits).Has other value ↔
      if other = row then bits.getD value false = true else matrix.Has other value := by
  have within : row < matrix.rows.length := by rwa [sized.rows]
  have rowEq : (matrix.setRow row bits).rows.getD other [] =
      if other = row then bits else matrix.rows.getD other [] := by
    rw [LivenessMatrix.setRow, getD_eq_getElem?_getD, getElem?_set]
    by_cases same : other = row
    · subst same
      simp [within]
    · rw [if_neg (Ne.symm same), if_neg same, getD_eq_getElem?_getD]
  rw [Has, rowEq]
  split <;> rfl

end

/-! ## Steps that set bits -/

/-- The step succeeds on every matrix of the size, and sets the cells. -/
def Adds (rowCount valueCount : Nat) (step : LivenessMatrix → Option LivenessMatrix)
    (cells : Nat → Nat → Prop) : Prop :=
  ∀ matrix : LivenessMatrix, matrix.Sized rowCount valueCount → ∃ next, step matrix = some next ∧
    next.Sized rowCount valueCount ∧
    ∀ row value, next.Has row value ↔ matrix.Has row value ∨ cells row value

theorem adds_insert {row value : Nat} (rowLt : row < rowCount) (valueLt : value < valueCount) :
    Adds rowCount valueCount (fun matrix => matrix.insert row value)
      fun other value' => other = row ∧ value' = value := by
  intro matrix sized
  obtain ⟨bits, rowEq, length, has⟩ := sized.row_eq rowLt
  have set : insertBit bits value = some (bits.set value true) :=
    if_pos (by rwa [length])
  refine ⟨matrix.setRow row (bits.set value true), by simp [insert, rowEq, set],
    sized.setRow (by rw [length_set, length]) row, fun other value' => ?_⟩
  rw [sized.has_setRow rowLt]
  by_cases same : other = row
  · subst same
    rw [if_pos rfl, ← has, getD_eq_getElem?_getD, getElem?_set, getD_eq_getElem?_getD]
    by_cases at_ : value = value'
    · subst at_
      simp [length, valueLt]
    · simp [at_, Ne.symm at_]
  · simp [same]

theorem Adds.foldlM {α : Type} (step : LivenessMatrix → α → Option LivenessMatrix)
    {cells : α → Nat → Nat → Prop} (xs : List α)
    (each : ∀ x ∈ xs, Adds rowCount valueCount (fun matrix => step matrix x) (cells x)) :
    Adds rowCount valueCount (fun matrix => xs.foldlM step matrix)
      fun row value => ∃ x ∈ xs, cells x row value := by
  induction xs with
  | nil =>
    intro matrix sized
    exact ⟨matrix, rfl, sized, by simp⟩
  | cons x xs ih =>
    intro matrix sized
    obtain ⟨next, run, sized', has⟩ := each x (.head _) matrix sized
    obtain ⟨last, run', sized'', has'⟩ :=
      ih (fun other mem => each other (.tail _ mem)) next sized'
    refine ⟨last, ?_, sized'', fun row value => ?_⟩
    · simp only [foldlM_cons, run]
      exact run'
    · rw [has', has]
      simp [or_assoc]

end LivenessMatrix

/-! ## The solver -/

/-- What the loops rely on: every index is one of the tables. -/
structure ECodeIr.IndicesFit (ir : ECodeIr) : Prop where
  inRange : GraphInRange ir.graph.blocks ir.graph.successors
  values : ir.values.length ≤ u32Max
  blockArgs : ∀ arg ∈ ir.blockArgs, arg.block < ir.graph.blocks.length ∧
    arg.value < ir.values.length
  results : ∀ operation ∈ ir.operations, operation.results.stop ≤ ir.values.length
  operands : ∀ operation ∈ ir.operations, ∀ operand ∈ ir.opOperandsFor operation,
    operand < ir.values.length
  edges : ∀ block ∈ ir.graph.blocks, ∀ offset < block.successors.len, ∃ range,
    ir.edgeArgs[block.successors.start + offset]? = some range ∧
    ∀ arg ∈ range.slice ir.edgeArgValues, arg < ir.values.length

namespace ECodeLivenessSolver

variable {ir : ECodeIr} {rowCount valueCount blockIndex : Nat} {solver : ECodeLivenessSolver}

open LivenessMatrix

/-- The next solver has the sizes, and some more definitions and uses. -/
structure Gains (rowCount valueCount : Nat) (solver next : ECodeLivenessSolver)
    (definitions uses : Nat → Nat → Prop) : Prop where
  definitionsSized : next.blockDefinitions.Sized rowCount valueCount
  usesSized : next.blockUses.Sized rowCount valueCount
  edgeUses : next.edgeUses = solver.edgeUses
  definitions_iff : ∀ row value, next.blockDefinitions.Has row value ↔
    solver.blockDefinitions.Has row value ∨ definitions row value
  uses_iff : ∀ row value, next.blockUses.Has row value ↔
    solver.blockUses.Has row value ∨ uses row value

theorem adds_collectOperand {definitions : LivenessMatrix}
    (sized : definitions.Sized rowCount valueCount) (rowLt : blockIndex < rowCount)
    {operand : IlValueId} (operandLt : operand < valueCount) :
    Adds rowCount valueCount (fun uses => collectOperand definitions blockIndex uses operand)
      fun row value => row = blockIndex ∧ ¬ definitions.Has blockIndex value ∧ value = operand := by
  intro uses usesSized
  obtain ⟨bits, rowEq, -, has⟩ := sized.row_eq rowLt
  have contains : definitions.contains blockIndex operand = some (bits.getD operand false) := by
    rw [LivenessMatrix.contains, rowEq, Option.map_some]
  simp only [collectOperand, contains, some_bind]
  by_cases defined : bits.getD operand false = true
  · refine ⟨uses, by rw [if_pos defined]; rfl, usesSized, fun row value => ?_⟩
    refine ⟨.inl, fun either => either.elim id ?_⟩
    rintro ⟨-, undefined, rfl⟩
    exact absurd ((has value).mp defined) undefined
  · obtain ⟨next, run, sized', added⟩ := adds_insert rowLt operandLt uses usesSized
    refine ⟨next, by rw [if_neg defined]; exact run, sized', fun row value => ?_⟩
    rw [added]
    refine or_congr_right ⟨?_, fun h => ⟨h.1, h.2.2⟩⟩
    rintro ⟨rfl, rfl⟩
    exact ⟨rfl, fun at_ => defined ((has value).mpr at_), rfl⟩

theorem collectOp_spec (ir : ECodeIr)
    (definitionsSized : solver.blockDefinitions.Sized rowCount valueCount)
    (usesSized : solver.blockUses.Sized rowCount valueCount) (rowLt : blockIndex < rowCount)
    {operation : ECodeOp} (results : operation.results.stop ≤ valueCount)
    (operands : ∀ operand ∈ ir.opOperandsFor operation, operand < valueCount) :
    ∃ next, collectOp ir blockIndex solver operation = some next ∧
      Gains rowCount valueCount solver next
        (fun row value => row = blockIndex ∧ ir.flow.defines operation value)
        (fun row value => row = blockIndex ∧ ¬ solver.blockDefinitions.Has blockIndex value ∧
          ir.flow.uses operation value) := by
  obtain ⟨uses, usesEq, usesSized', hasUses⟩ := Adds.foldlM
    (collectOperand solver.blockDefinitions blockIndex) (ir.opOperandsFor operation)
    (fun operand mem => adds_collectOperand definitionsSized rowLt (operands operand mem))
    solver.blockUses usesSized
  obtain ⟨definitions, definitionsEq, definitionsSized', hasDefinitions⟩ :=
    Adds.foldlM (fun definitions defined => definitions.insert blockIndex defined)
      (List.range' operation.results.start operation.results.len)
      (fun defined mem => adds_insert rowLt (by
        rw [mem_range'_1, IlIndexRange.len] at mem
        omega)) solver.blockDefinitions definitionsSized
  refine ⟨{ solver with blockDefinitions := definitions, blockUses := uses }, ?_,
    definitionsSized', usesSized', rfl, fun row value => ?_, fun row value => ?_⟩
  · simp only [collectOp, usesEq, definitionsEq, some_bind]
    rfl
  · rw [hasDefinitions]
    refine or_congr_right ⟨?_, ?_⟩
    · rintro ⟨defined, mem, rfl, rfl⟩
      rw [mem_range'_1, IlIndexRange.len] at mem
      exact ⟨rfl, ECodeIr.flow_defines.mpr ⟨mem.1, by omega⟩⟩
    · rintro ⟨rfl, defines⟩
      rw [ECodeIr.flow_defines] at defines
      refine ⟨value, ?_, rfl, rfl⟩
      rw [mem_range'_1, IlIndexRange.len]
      exact ⟨defines.1, by omega⟩
  · rw [hasUses]
    refine or_congr_right ⟨?_, ?_⟩
    · rintro ⟨operand, mem, rfl, undefined, rfl⟩
      exact ⟨rfl, undefined, mem⟩
    · rintro ⟨rfl, undefined, mem⟩
      exact ⟨value, mem, rfl, undefined, rfl⟩

theorem collectOps_spec (ir : ECodeIr) (rowLt : blockIndex < rowCount) :
    ∀ (operations : List ECodeOp) (solver : ECodeLivenessSolver),
    solver.blockDefinitions.Sized rowCount valueCount →
    solver.blockUses.Sized rowCount valueCount →
    (∀ operation ∈ operations, operation.results.stop ≤ valueCount ∧
      ∀ operand ∈ ir.opOperandsFor operation, operand < valueCount) →
    ∃ next, operations.foldlM (collectOp ir blockIndex) solver = some next ∧
      Gains rowCount valueCount solver next
        (fun row value => row = blockIndex ∧ ir.flow.Writes value operations)
        (fun row value => row = blockIndex ∧ ¬ solver.blockDefinitions.Has blockIndex value ∧
          ir.flow.Reads value operations)
  | [], solver, definitionsSized, usesSized, _ =>
    ⟨solver, rfl, definitionsSized, usesSized, rfl, by simp, by simp [Flow.Reads]⟩
  | operation :: operations, solver, definitionsSized, usesSized, valid => by
    obtain ⟨results, operands⟩ := valid operation (.head _)
    obtain ⟨next, step, gains⟩ := collectOp_spec ir definitionsSized usesSized rowLt results
      operands
    obtain ⟨last, run, gains'⟩ := collectOps_spec ir rowLt operations next gains.definitionsSized
      gains.usesSized fun other mem => valid other (.tail _ mem)
    refine ⟨last, ?_, gains'.definitionsSized, gains'.usesSized,
      gains'.edgeUses.trans gains.edgeUses, fun row value => ?_, fun row value => ?_⟩
    · rw [foldlM_cons, step]
      exact run
    · rw [gains'.definitions_iff, gains.definitions_iff, Flow.writes_cons]
      tauto
    · rw [gains'.uses_iff, gains.uses_iff, gains.definitions_iff, Flow.Reads]
      tauto

theorem collectBlocks_spec (ir : ECodeIr) : ∀ (entries : List (IlBlock × Nat))
    (solver : ECodeLivenessSolver),
    solver.blockDefinitions.Sized rowCount valueCount →
    solver.blockUses.Sized rowCount valueCount → (entries.map Prod.snd).Nodup →
    (∀ entry ∈ entries, entry.2 < rowCount ∧ ∀ operation ∈ entry.1.ops.slice ir.operations,
      operation.results.stop ≤ valueCount ∧
      ∀ operand ∈ ir.opOperandsFor operation, operand < valueCount) →
    ∃ next, entries.foldlM (fun solver entry =>
        (entry.1.ops.slice ir.operations).foldlM (collectOp ir entry.2) solver) solver = some next ∧
      Gains rowCount valueCount solver next
        (fun row value => ∃ entry ∈ entries, entry.2 = row ∧
          ir.flow.Writes value (entry.1.ops.slice ir.operations))
        (fun row value => ¬ solver.blockDefinitions.Has row value ∧ ∃ entry ∈ entries,
          entry.2 = row ∧ ir.flow.Reads value (entry.1.ops.slice ir.operations))
  | [], solver, definitionsSized, usesSized, _, _ =>
    ⟨solver, rfl, definitionsSized, usesSized, rfl, by simp, by simp⟩
  | entry :: entries, solver, definitionsSized, usesSized, nodup, valid => by
    obtain ⟨rowLt, operations⟩ := valid entry (.head _)
    rw [map_cons, nodup_cons] at nodup
    obtain ⟨next, step, gains⟩ := collectOps_spec ir rowLt
      (entry.1.ops.slice ir.operations) solver definitionsSized usesSized operations
    obtain ⟨last, run, gains'⟩ := collectBlocks_spec ir entries next gains.definitionsSized
      gains.usesSized nodup.2 fun other mem => valid other (.tail _ mem)
    refine ⟨last, ?_, gains'.definitionsSized, gains'.usesSized,
      gains'.edgeUses.trans gains.edgeUses, fun row value => ?_, fun row value => ?_⟩
    · rw [foldlM_cons, step]
      exact run
    · rw [gains'.definitions_iff, gains.definitions_iff, exists_mem_cons_iff, or_assoc,
        eq_comm (a := row)]
    · rw [gains'.uses_iff, gains.uses_iff, gains.definitions_iff, exists_mem_cons_iff, or_assoc]
      apply or_congr_right
      constructor
      · rintro (⟨rfl, undefined, reads⟩ | ⟨undefined, other, mem, rfl, reads⟩)
        · exact ⟨undefined, .inl ⟨rfl, reads⟩⟩
        · exact ⟨fun defined => undefined (.inl defined), .inr ⟨other, mem, rfl, reads⟩⟩
      · rintro ⟨undefined, ⟨rfl, reads⟩ | ⟨other, mem, rfl, reads⟩⟩
        · exact .inl ⟨rfl, undefined, reads⟩
        · refine .inr ⟨?_, other, mem, rfl, reads⟩
          rintro (defined | ⟨same, -⟩)
          · exact undefined defined
          · exact nodup.1 (same ▸ mem_map_of_mem mem)

/-- The three matrices hold what the blocks define, use and pass on. -/
structure Collected (ir : ECodeIr) (solver : ECodeLivenessSolver) : Prop where
  definitionsSized : solver.blockDefinitions.Sized ir.graph.blocks.length ir.values.length
  usesSized : solver.blockUses.Sized ir.graph.blocks.length ir.values.length
  edgesSized : solver.edgeUses.Sized ir.graph.blocks.length ir.values.length
  definitions_iff : ∀ row value, solver.blockDefinitions.Has row value ↔
    ir.flow.entryDefines row value ∨ ir.flow.Writes value (ir.flow.code row)
  uses_iff : ∀ row value, solver.blockUses.Has row value ↔
    ¬ ir.flow.entryDefines row value ∧ ir.flow.Reads value (ir.flow.code row)
  edges_iff : ∀ row value, solver.edgeUses.Has row value ↔ ir.flow.exitUses row value

theorem exists_entry_iff {P : List ECodeOp → Prop} (nothing : ¬ P []) (row : Nat) :
    (∃ entry ∈ ir.graph.blocks.zipIdx, entry.2 = row ∧ P (entry.1.ops.slice ir.operations)) ↔
      P (ir.flow.code row) := by
  constructor
  · rintro ⟨entry, mem, rfl, holds⟩
    rwa [ECodeIr.flow_code (mem_zipIdx_iff_getElem?.mp mem)]
  · intro holds
    cases found : ir.graph.blocks[row]? with
    | none =>
      have empty : ir.flow.code row = [] := by
        show (ir.graph.blocks[row]?).elim [] _ = _
        rw [found]
        rfl
      exact absurd (empty ▸ holds) nothing
    | some record =>
      rw [ECodeIr.flow_code found] at holds
      exact ⟨(record, row), mem_zipIdx_iff_getElem?.mpr found, rfl, holds⟩

/-- The collecting loops succeed, and collect what the flow graph of the form says. -/
theorem collect_spec (fit : ir.IndicesFit) : ∃ first second third,
    collectBlockArgs ir (new ir) = some first ∧ collectOpUses ir first = some second ∧
    collectEdgeUses ir second = some third ∧ Collected ir third := by
  have emptySized : (LivenessMatrix.new ir.graph.blocks.length ir.values.length).Sized
      ir.graph.blocks.length ir.values.length := sized_new
  obtain ⟨arguments, argumentsEq, argumentsSized, hasArguments⟩ := Adds.foldlM
    (fun definitions arg => definitions.insert arg.block arg.value) ir.blockArgs
    (fun arg mem => adds_insert (fit.blockArgs arg mem).1 (fit.blockArgs arg mem).2)
    (new ir).blockDefinitions emptySized
  obtain ⟨second, secondEq, gains⟩ := collectBlocks_spec ir ir.graph.blocks.zipIdx
    { new ir with blockDefinitions := arguments } argumentsSized emptySized
    (by rw [zipIdx_map_snd]; exact nodup_range')
    (fun entry mem => by
      have found := mem_zipIdx_iff_getElem?.mp mem
      refine ⟨(lt_of_getElem? found), fun operation mem => ?_⟩
      have mem := mem_of_mem_slice mem
      exact ⟨fit.results operation mem, fit.operands operation mem⟩)
  have each : ∀ entry ∈ ir.graph.blocks.zipIdx, Adds ir.graph.blocks.length ir.values.length
      (fun uses => (List.range' entry.1.successors.start entry.1.successors.len).foldlM
        (collectEdge ir entry.2) uses)
      (fun row value => ∃ edge ∈ List.range' entry.1.successors.start entry.1.successors.len,
        row = entry.2 ∧ value ∈ ir.argsForEdge edge) := by
    intro entry mem
    have found := mem_zipIdx_iff_getElem?.mp mem
    refine Adds.foldlM (collectEdge ir entry.2) _ fun edge edgeMem uses usesSized => ?_
    rw [mem_range'_1] at edgeMem
    obtain ⟨range, rangeEq, valid⟩ := fit.edges entry.1 (mem_of_getElem? found)
      (edge - entry.1.successors.start) (by omega)
    rw [Nat.add_sub_cancel' edgeMem.1] at rangeEq
    have args : ir.argsForEdge edge = range.slice ir.edgeArgValues := by
      rw [ECodeIr.argsForEdge, rangeEq]
    obtain ⟨next, run, sized, has⟩ := Adds.foldlM
      (fun uses arg => uses.insert entry.2 arg) (range.slice ir.edgeArgValues)
      (fun arg mem => adds_insert (lt_of_getElem? found) (valid arg mem)) uses
      usesSized
    refine ⟨next, by simp only [collectEdge, rangeEq]; exact run, sized, fun row value => ?_⟩
    rw [has, args]
    refine or_congr_right ⟨?_, fun h => ⟨value, h.2, h.1, rfl⟩⟩
    rintro ⟨arg, mem, rfl, rfl⟩
    exact ⟨rfl, mem⟩
  have emptyEdges : second.edgeUses =
      LivenessMatrix.new ir.graph.blocks.length ir.values.length := gains.edgeUses
  obtain ⟨edges, edgesEq, edgesSized, hasEdges⟩ := Adds.foldlM
    (fun uses entry => (List.range' entry.1.successors.start entry.1.successors.len).foldlM
      (collectEdge ir entry.2) uses) ir.graph.blocks.zipIdx each second.edgeUses
    (emptyEdges ▸ emptySized)
  have definedIff : ∀ row value, arguments.Has row value ↔ ir.flow.entryDefines row value := by
    intro row value
    have empty : ¬ (new ir).blockDefinitions.Has row value := has_new row value
    rw [hasArguments, or_iff_right empty]
    refine exists_congr fun arg => and_congr_right fun _ => ?_
    rw [eq_comm, eq_comm (a := value)]
  refine ⟨{ new ir with blockDefinitions := arguments }, second, { second with edgeUses := edges },
    ?_, secondEq, ?_, gains.definitionsSized, gains.usesSized, edgesSized, fun row value => ?_,
    fun row value => ?_, fun row value => ?_⟩
  · simp only at argumentsEq
    rw [collectBlockArgs, argumentsEq]
    rfl
  · simp only at edgesEq
    rw [collectEdgeUses, edgesEq]
    rfl
  · rw [gains.definitions_iff, definedIff, exists_entry_iff Flow.writes_nil]
  · have empty : ¬ (new ir).blockUses.Has row value := has_new row value
    rw [gains.uses_iff, or_iff_right empty, definedIff, exists_entry_iff (by simp [Flow.Reads])]
  · rw [hasEdges, emptyEdges, or_iff_right (has_new row value)]
    constructor
    · rintro ⟨entry, mem, edge, edgeMem, rfl, used⟩
      rw [mem_range'_1] at edgeMem
      refine ⟨entry.1, mem_zipIdx_iff_getElem?.mp mem, edge - entry.1.successors.start,
        by omega, ?_⟩
      rwa [Nat.add_sub_cancel' edgeMem.1]
    · rintro ⟨record, found, offset, lt, used⟩
      refine ⟨(record, row), mem_zipIdx_iff_getElem?.mpr found,
        record.successors.start + offset, ?_, rfl, used⟩
      rw [mem_range'_1]
      exact ⟨Nat.le_add_right _ _, Nat.add_lt_add_left lt _⟩

end ECodeLivenessSolver

end Fugue.Il
