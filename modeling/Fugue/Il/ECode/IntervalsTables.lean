import Fugue.Il.ECode.Intervals
import Fugue.Il.ECode.VerifyTables

/-!
# The tables of the interval analysis

Of a verified form, the tables list exactly what the edges bring for a block argument, the arguments
that depend on a value, and the operations that use it.
-/

namespace Fugue.Il

open Fugue.Lib Fugue.Bv List Option IlCsr

theorem IlCsr.fromEntries_holds {α : Type} {rowCount : Nat} {entries : List (Nat × α)}
    {csr : IlCsr α} (rows : ∀ entry ∈ entries, entry.1 < rowCount)
    (built : fromEntries rowCount entries = some csr) : csr.Holds rowCount entries := by
  by_cases small : entries.length ≤ u32Max
  · obtain ⟨other, run, holds⟩ := fromEntries_some rows small
    cases built.symm.trans run
    exact holds
  · obtain ⟨error, failed⟩ := tryFromEntries_overflow rows (Nat.lt_of_not_le small)
    rw [fromEntries, failed] at built
    cases built

theorem IlCsr.Holds.mem_row {α : Type} {rowCount : Nat} {entries : List (Nat × α)}
    {csr : IlCsr α} (holds : csr.Holds rowCount entries)
    (rows : ∀ entry ∈ entries, entry.1 < rowCount) {row : Nat} {x : α} :
    x ∈ csr.row row ↔ (row, x) ∈ entries := by
  rw [IlCsr.row, holds.checkedRow_getD rows, IlCsr.mem_rowOf]

namespace IlSsaBlockArgInputs

/-- What the table of the inputs has, when it could be built. -/
structure Exact (valueCount : Nat) (args : List (IlBlockId × IlValueId))
    (argsForEdge : Nat → List IlValueId) (inputs : IlSsaBlockArgInputs) : Prop where
  isArg : ∀ arg, (inputs.inputsFor arg).isSome ↔ arg ∈ args.map Prod.snd
  len : inputs.inputs.len = valueCount
  brought : ∀ arg values, inputs.inputsFor arg = some values → ∀ input ∈ values,
    ∃ edge : Nat, input ∈ argsForEdge edge

theorem new_exact {valueCount : Nat} {graph : IlGraph} {args : List (IlBlockId × IlValueId)}
    {argsForEdge : Nat → List IlValueId} {inputs : IlSsaBlockArgInputs}
    (argsWithin : ∀ arg ∈ args, arg.1 < graph.blocks.length ∧ arg.2 < valueCount)
    (built : new valueCount graph args argsForEdge = some inputs) :
    inputs.Exact valueCount args argsForEdge := by
  obtain ⟨present, presentRun, built⟩ := bind_eq_some_iff.mp built
  obtain ⟨argRows, argRun, built⟩ := bind_eq_some_iff.mp built
  obtain ⟨incoming, -, built⟩ := bind_eq_some_iff.mp built
  obtain ⟨table, tableRun, built⟩ := bind_eq_some_iff.mp built
  cases built
  obtain ⟨present', presentRun', length, presentSpec⟩ :=
    foldlM_insertBit_spec (args.map Prod.snd) (List.replicate valueCount false) (by
      intro index mem
      obtain ⟨arg, argMem, rfl⟩ := List.mem_map.mp mem
      rw [length_replicate]
      exact (argsWithin arg argMem).2)
  cases presentRun.symm.trans presentRun'
  have argHolds := fromEntries_holds (fun arg mem => (argsWithin arg mem).1) argRun
  have entered : ∀ entry ∈ (List.range graph.blocks.length).flatMap fun block =>
      blockEntries argsForEdge (argRows.row block) (incoming.row block),
      entry.1 < valueCount ∧ ∃ edge : Nat, entry.2 ∈ argsForEdge edge := by
    intro entry mem
    obtain ⟨block, blockMem, mem⟩ := mem_flatMap.mp mem
    obtain ⟨position, edge, at_, -, found⟩ := mem_blockEntries.mp mem
    rw [argHolds.row_eq (mem_range.mp blockMem)] at at_
    exact ⟨(argsWithin _ (IlCsr.mem_rowOf.mp (mem_of_getElem? at_))).2, edge, mem_of_getElem? found⟩
  have tableHolds := fromEntries_holds (fun entry mem => (entered entry mem).1) tableRun
  have present_iff : ∀ arg, present.getD arg false = true ↔ arg ∈ args.map Prod.snd := by
    intro arg
    have empty : ¬ (List.replicate valueCount false).getD arg false = true := by
      rw [getD_eq_getElem?_getD, getElem?_replicate]
      split <;> simp
    rw [presentSpec]
    exact ⟨fun either => either.resolve_left empty, .inr⟩
  refine ⟨fun arg => ?_, ?_, fun arg values eq input mem => ?_⟩
  · rw [← present_iff arg]
    unfold inputsFor
    split
    · exact ⟨fun _ => ‹_›, fun _ => rfl⟩
    · exact ⟨fun some => absurd some (by simp), fun set => absurd set ‹_›⟩
  · simp [IlCsr.len, tableHolds.length]
  · unfold inputsFor at eq
    split at eq
    · cases eq
      exact (entered _ ((tableHolds.mem_row fun entry mem => (entered entry mem).1).mp mem)).2
    · cases eq

end IlSsaBlockArgInputs

theorem collectSsaUses_exact {valueCount : Nat} {operationOperands : List (List IlValueId)}
    {uses : IlCsr (IlOpId × Nat)}
    (within : ∀ operands ∈ operationOperands, ∀ operand ∈ operands, operand < valueCount)
    (small : operationOperands.length ≤ u32Max)
    (built : collectSsaUses valueCount operationOperands = some uses) (value user index : Nat) :
    (user, index) ∈ (uses.checkedRow value).getD [] ↔
      ∃ operands, operationOperands[user]? = some operands ∧ operands[index]? = some value := by
  obtain ⟨entries, collected, built⟩ := bind_eq_some_iff.mp built
  have all : operationOperands.zipIdx.mapM (fun entry => do
      let user ← (tryFromIndex "operation" entry.2).toOption
      return entry.1.zipIdx.map fun operand => (operand.1, (user, operand.2))) =
      some (operationOperands.zipIdx.map fun entry =>
        entry.1.zipIdx.map fun operand => (operand.1, (entry.2, operand.2))) :=
    mapM_eq_some fun entry mem => by
      have lt := (List.getElem?_eq_some_iff.mp (mem_zipIdx_iff_getElem?.mp mem)).1
      rw [tryFromIndex_ok (lt_of_lt_of_le lt small)]
      rfl
  have same : entries = operationOperands.zipIdx.map fun entry =>
      entry.1.zipIdx.map fun operand => (operand.1, (entry.2, operand.2)) :=
    Option.some.inj (collected.symm.trans all)
  have mem_entries : ∀ value user index : Nat, (value, (user, index)) ∈ entries.flatten ↔
      ∃ operands, operationOperands[user]? = some operands ∧ operands[index]? = some value := by
    intro value user index
    rw [same, mem_flatten]
    constructor
    · rintro ⟨row, rowMem, mem⟩
      obtain ⟨entry, entryMem, rfl⟩ := List.mem_map.mp rowMem
      obtain ⟨operand, operandMem, eq⟩ := List.mem_map.mp mem
      cases eq
      exact ⟨entry.1, mem_zipIdx_iff_getElem?.mp entryMem, mem_zipIdx_iff_getElem?.mp operandMem⟩
    · rintro ⟨operands, found, at_⟩
      have listed : (operands, user) ∈ operationOperands.zipIdx :=
        mem_zipIdx_iff_getElem?.mpr found
      have operandListed : (value, index) ∈ operands.zipIdx := mem_zipIdx_iff_getElem?.mpr at_
      exact ⟨_, List.mem_map.mpr ⟨_, listed, rfl⟩, List.mem_map.mpr ⟨_, operandListed, rfl⟩⟩
  have rows : ∀ entry ∈ entries.flatten, entry.1 < valueCount := by
    intro entry mem
    obtain ⟨operands, found, at_⟩ := (mem_entries entry.1 entry.2.1 entry.2.2).mp mem
    exact within operands (mem_of_getElem? found) _ (mem_of_getElem? at_)
  rw [← mem_entries]
  exact (fromEntries_holds rows built).mem_row rows

namespace ECodeStridedIntervals

variable {ir : ECodeIr}

structure Tables.Exact (ir : ECodeIr) (tables : Tables) : Prop where
  isArg : ∀ value, (tables.blockArgInputs.inputsFor value).isSome ↔
    ∃ arg ∈ ir.blockArgs, arg.value = value
  inputs : ∀ value inputs, tables.blockArgInputs.inputsFor value = some inputs →
    ∀ input ∈ inputs, input < ir.values.length
  dependents : ∀ input arg : Nat, arg ∈ tables.dependents.row input ↔
    ∃ inputs, tables.blockArgInputs.inputsFor arg = some inputs ∧ input ∈ inputs
  uses : ∀ value user index : Nat,
    (user, index) ∈ (tables.uses.checkedRow value).getD [] ↔
      ∃ record, ir.operations[user]? = some record ∧
        (ir.opOperandsFor record)[index]? = some value

/-- A block argument that the flags name is a value. -/
theorem blockArg_lt (fit : ir.TablesFit) {arg : ECodeBlockArg} (mem : arg ∈ ir.blockArgs) :
    arg.block < ir.graph.blocks.length ∧ arg.value < ir.values.length := by
  obtain ⟨index, found⟩ := mem_iff_getElem?.mp mem
  obtain ⟨-, block, value⟩ :=
    ECodeIr.verifyBlockArg_eq_ok.mp (fit.definitions.blockArgs_ok index arg found)
  exact ⟨block, (lt_of_getElem? value)⟩

theorem argsForEdge_lt (fit : ir.TablesFit) {edge : Nat} {input : IlValueId}
    (mem : input ∈ ir.argsForEdge edge) : input < ir.values.length := by
  unfold ECodeIr.argsForEdge at mem
  split at mem
  · exact (ECodeIr.verifyEdgeArgs_eq_ok.mp fit.definitions.edgeArgs_ok).2.2 input
      (mem_of_mem_drop (mem_of_mem_take mem))
  · cases mem

theorem Tables.new_exact {tables : Tables} (fit : ir.TablesFit)
    (built : Tables.new ir = some tables) : tables.Exact ir := by
  obtain ⟨inputs, inputsRun, built⟩ := bind_eq_some_iff.mp built
  obtain ⟨dependents, dependentsRun, built⟩ := bind_eq_some_iff.mp built
  obtain ⟨uses, usesRun, built⟩ := bind_eq_some_iff.mp built
  cases built
  have exact_ := IlSsaBlockArgInputs.new_exact (fun arg mem => by
    obtain ⟨record, recordMem, rfl⟩ := List.mem_map.mp mem
    exact blockArg_lt fit recordMem) inputsRun
  have isArg : ∀ value, (inputs.inputsFor value).isSome ↔
      ∃ arg ∈ ir.blockArgs, arg.value = value := by
    intro value
    rw [exact_.isArg, List.map_map, List.mem_map]
    exact Iff.rfl
  have inputsLt : ∀ value values, inputs.inputsFor value = some values →
      ∀ input ∈ values, input < ir.values.length := by
    intro value values eq input mem
    obtain ⟨edge, brought⟩ := exact_.brought value values eq input mem
    exact argsForEdge_lt fit brought
  have mem_entries : ∀ input arg : Nat, (input, arg) ∈
      (inputs.iter.flatMap fun entry => entry.2.map fun input => (input, entry.1)) ↔
      ∃ values, inputs.inputsFor arg = some values ∧ input ∈ values := by
    intro input arg
    simp only [IlSsaBlockArgInputs.iter, mem_flatMap, List.mem_map, mem_filter, mem_range]
    constructor
    · rintro ⟨entry, ⟨index, ⟨-, set⟩, rfl⟩, other, otherMem, eq⟩
      cases eq
      exact ⟨_, if_pos set, otherMem⟩
    · rintro ⟨values, eq, mem⟩
      have isSome : (inputs.inputsFor arg).isSome := by rw [eq, isSome_some]
      obtain ⟨record, recordMem, valueEq⟩ := (isArg arg).mp isSome
      have lt : arg < inputs.inputs.len := by
        rw [exact_.len, ← valueEq]
        exact (blockArg_lt fit recordMem).2
      unfold IlSsaBlockArgInputs.inputsFor at eq
      split at eq
      · rename_i set
        cases eq
        exact ⟨_, ⟨arg, ⟨lt, set⟩, rfl⟩, input, mem, rfl⟩
      · cases eq
  have dependentsHolds := fromEntries_holds (fun entry mem => by
    obtain ⟨values, eq, inputMem⟩ := (mem_entries entry.1 entry.2).mp mem
    exact inputsLt _ _ eq _ inputMem) dependentsRun
  refine ⟨isArg, inputsLt, fun input arg => ?_, fun value user index => ?_⟩
  · rw [dependentsHolds.mem_row (fun entry mem => by
      obtain ⟨values, eq, inputMem⟩ := (mem_entries entry.1 entry.2).mp mem
      exact inputsLt _ _ eq _ inputMem), mem_entries]
  · have small : (ir.operations.map ir.opOperandsFor).length ≤ u32Max := by
      rw [length_map]
      exact length_le_of_index fun index record found =>
        (ECodeIr.verifyOpResults_eq_ok.mp (fit.definitions.results_ok index record found)).1
    have within : ∀ operands ∈ ir.operations.map ir.opOperandsFor, ∀ operand ∈ operands,
        operand < ir.values.length := by
      intro operands mem operand operandMem
      obtain ⟨record, recordMem, rfl⟩ := List.mem_map.mp mem
      obtain ⟨index, found⟩ := mem_iff_getElem?.mp recordMem
      obtain ⟨value, at_, -⟩ := (fit.ops index record found).operands operand operandMem
      exact lt_of_getElem? at_
    rw [collectSsaUses_exact within small usesRun, getElem?_map]
    constructor
    · rintro ⟨operands, found, at_⟩
      obtain ⟨record, recordAt, rfl⟩ := map_eq_some_iff.mp found
      exact ⟨record, recordAt, at_⟩
    · rintro ⟨record, recordAt, at_⟩
      exact ⟨_, by rw [recordAt, map_some], at_⟩

end ECodeStridedIntervals

end Fugue.Il
