import Fugue.Il.Common.SsaVerify
import Mathlib.Algebra.Order.Ring.Nat

/-!
# The inputs of block arguments

`IlSsaBlockArgInputs` (`fugue-core/src/il/common/ssa.rs:73-140`): for every block argument the
values that the incoming edges bring for it, at its position among the arguments of its block.
`new_spec` is the specification; the table is large enough whenever a `u32` counts the arguments of
all edges together.
-/

namespace Fugue.Il

open Fugue.Lib List IlCsr

/-- `IlSsaBlockArgInputs` (`ssa.rs:73-77`); the bit set is a list of flags. -/
structure IlSsaBlockArgInputs where
  args : List Bool
  inputs : IlCsr IlValueId
  deriving DecidableEq, Repr

/-- `FixedBitSet::insert`, which panics beyond the capacity. -/
def insertBit (bits : List Bool) (index : Nat) : Option (List Bool) :=
  if index < bits.length then some (bits.set index true) else none

namespace IlSsaBlockArgInputs

/-- The entries of one block (`ssa.rs:106-113`): for each argument what the incoming edges have at
its position. -/
def blockEntries (argsForEdge : Nat → List IlValueId) (args : List IlValueId)
    (incoming : List Nat) : List (Nat × IlValueId) :=
  args.zipIdx.flatMap fun arg =>
    incoming.filterMap fun edge => ((argsForEdge edge)[arg.2]?).map fun input => (arg.1, input)

/-- `new` (`ssa.rs:80-121`). -/
def new (valueCount : Nat) (graph : IlGraph) (args : List (IlBlockId × IlValueId))
    (argsForEdge : Nat → List IlValueId) : Option IlSsaBlockArgInputs := do
  let blockCount := graph.blocks.length
  let present ← (args.map Prod.snd).foldlM insertBit (List.replicate valueCount false)
  let argRows ← IlCsr.fromEntries blockCount args
  let incoming ← IlCsr.fromEntries blockCount graph.successors.zipIdx
  let entries := (List.range blockCount).flatMap fun block =>
    blockEntries argsForEdge (argRows.row block) (incoming.row block)
  let inputs ← IlCsr.fromEntries valueCount entries
  return ⟨present, inputs⟩

/-- `inputs_for` (`ssa.rs:123-127`). -/
def inputsFor (inputs : IlSsaBlockArgInputs) (arg : IlValueId) : Option (List IlValueId) :=
  if inputs.args.getD arg false then some (inputs.inputs.row arg) else none

end IlSsaBlockArgInputs

/-! ## The size of the table -/

namespace IlCsr

variable {α : Type}

theorem rowOf_cons (entry : Nat × α) (entries : List (Nat × α)) (row : Nat) :
    rowOf (entry :: entries) row =
      if entry.1 = row then entry.2 :: rowOf entries row else rowOf entries row := by
  unfold rowOf
  split <;> simp_all

theorem sum_single_le (row weight rowCount : Nat) :
    ((List.range rowCount).map fun other => if row = other then weight else 0).sum ≤ weight := by
  induction rowCount with
  | zero => exact Nat.zero_le _
  | succ rowCount ih =>
    rw [range_succ, map_append, sum_append]
    by_cases eq : row = rowCount
    · have none : ((List.range rowCount).map fun other => if row = other then weight else 0).sum =
          0 := by
        rw [sum_eq_zero]
        intro entry mem
        obtain ⟨other, otherMem, rfl⟩ := mem_map.mp mem
        rw [mem_range] at otherMem
        rw [if_neg (by omega)]
      rw [none]
      simp [eq]
    · simpa [eq] using ih

theorem sum_rows_le (weight : α → Nat) (entries : List (Nat × α)) (rowCount : Nat) :
    ((List.range rowCount).map fun row => ((rowOf entries row).map weight).sum).sum ≤
      (entries.map fun entry => weight entry.2).sum := by
  induction entries with
  | nil => simp [rowOf]
  | cons entry entries ih =>
    have split : ∀ row, ((rowOf (entry :: entries) row).map weight).sum =
        (if entry.1 = row then weight entry.2 else 0) + ((rowOf entries row).map weight).sum := by
      intro row
      rw [rowOf_cons]
      split <;> simp
    simp only [split, sum_map_add, map_cons, sum_cons]
    have single := sum_single_le entry.1 (weight entry.2) rowCount
    omega

end IlCsr

namespace IlSsaBlockArgInputs

variable {argsForEdge : Nat → List IlValueId}

theorem length_blockEntries_le (args : List IlValueId) (incoming : List Nat) :
    (blockEntries argsForEdge args incoming).length ≤
      (incoming.map fun edge => (argsForEdge edge).length).sum := by
  unfold blockEntries
  rw [length_flatMap]
  induction incoming with
  | nil => simp
  | cons edge incoming ih =>
    have positions : (args.zipIdx.map fun entry : IlValueId × Nat =>
        if entry.2 < (argsForEdge edge).length then 1 else 0).sum ≤ (argsForEdge edge).length := by
      have indices : (args.zipIdx.map fun entry : IlValueId × Nat =>
          if entry.2 < (argsForEdge edge).length then 1 else 0) =
            (List.range args.length).map fun position =>
              if position < (argsForEdge edge).length then 1 else 0 := by
        rw [range_eq_range', ← zipIdx_map_snd 0 args, map_map]
        rfl
      rw [indices]
      generalize args.length = count
      suffices bound : ((List.range count).map fun position =>
          if position < (argsForEdge edge).length then 1 else 0).sum ≤
            min count (argsForEdge edge).length from le_trans bound (min_le_right _ _)
      induction count with
      | zero => exact Nat.zero_le _
      | succ count ih =>
        rw [range_succ, map_append, sum_append, map_singleton, sum_singleton]
        split <;> omega
    have split : ∀ entry : IlValueId × Nat,
        ((edge :: incoming).filterMap fun edge =>
          ((argsForEdge edge)[entry.2]?).map fun input => (entry.1, input)).length =
        (if entry.2 < (argsForEdge edge).length then 1 else 0) +
          (incoming.filterMap fun edge =>
            ((argsForEdge edge)[entry.2]?).map fun input => (entry.1, input)).length := by
      intro entry
      rw [filterMap_cons]
      split
      · rename_i absent
        rw [Option.map_eq_none_iff, List.getElem?_eq_none_iff] at absent
        rw [if_neg (by omega), zero_add]
      · rename_i input found
        obtain ⟨value, at_, -⟩ := Option.map_eq_some_iff.mp found
        rw [if_pos (lt_of_getElem? at_), length_cons, add_comm]
    simp only [split, sum_map_add, map_cons, sum_cons]
    omega

theorem mem_blockEntries {args : List IlValueId} {incoming : List Nat} {arg input : IlValueId} :
    (arg, input) ∈ blockEntries argsForEdge args incoming ↔
      ∃ position edge : Nat, args[position]? = some arg ∧ edge ∈ incoming ∧
        (argsForEdge edge)[position]? = some input := by
  simp only [blockEntries, mem_flatMap, mem_filterMap, Option.map_eq_some_iff,
    Prod.mk.injEq, Prod.exists, mem_zipIdx_iff_getElem?]
  constructor
  · intro ⟨value, position, found, edge, edgeMem, other, at_, valueEq, inputEq⟩
    subst valueEq inputEq
    exact ⟨position, edge, found, edgeMem, at_⟩
  · intro ⟨position, edge, found, edgeMem, at_⟩
    exact ⟨arg, position, found, edge, edgeMem, input, at_, rfl, rfl⟩

theorem foldlM_insertBit_spec : ∀ (indices : List Nat) (bits : List Bool),
    (∀ index ∈ indices, index < bits.length) →
    ∃ final, indices.foldlM insertBit bits = some final ∧ final.length = bits.length ∧
      ∀ index, final.getD index false = true ↔ bits.getD index false = true ∨ index ∈ indices
  | [], bits, _ => ⟨bits, rfl, rfl, by simp⟩
  | first :: indices, bits, within => by
    obtain ⟨firstLt, rest⟩ := forall_mem_cons.mp within
    obtain ⟨final, run, length, spec⟩ := foldlM_insertBit_spec indices (bits.set first true)
      (by simpa using rest)
    refine ⟨final, ?_, by simpa using length, fun index => ?_⟩
    · rw [foldlM_cons, insertBit, if_pos firstLt]
      exact run
    · rw [spec, mem_cons]
      by_cases eq : first = index
      · subst eq
        simp [getD_eq_getElem?_getD, firstLt]
      · have ne : ¬ index = first := fun h => eq h.symm
        simp [getD_eq_getElem?_getD, eq, ne]

/-- The inputs of an argument are what the edges into its block bring at its position. -/
theorem new_spec {valueCount : Nat} {graph : IlGraph} {args : List (IlBlockId × IlValueId)}
    (argsWithin : ∀ arg ∈ args, arg.1 < graph.blocks.length ∧ arg.2 < valueCount)
    (args_le : args.length ≤ u32Max)
    (targets : ∀ target ∈ graph.successors, target < graph.blocks.length)
    (successors_le : graph.successors.length ≤ u32Max)
    (edgeArgs_le : (graph.successors.zipIdx.map fun entry => (argsForEdge entry.2).length).sum ≤
      u32Max) :
    ∃ inputs, new valueCount graph args argsForEdge = some inputs ∧
      ∀ arg, arg < valueCount →
        (inputs.inputsFor arg).isSome = (args.map Prod.snd).contains arg ∧
        ∀ values, inputs.inputsFor arg = some values → ∀ input, input ∈ values ↔
          ∃ (block : IlBlockId) (position edge : Nat), (rowOf args block)[position]? = some arg ∧
            graph.successors[edge]? = some block ∧
            (argsForEdge edge)[position]? = some input := by
  obtain ⟨present, presentRun, -, presentSpec⟩ :=
    foldlM_insertBit_spec (args.map Prod.snd) (List.replicate valueCount false) (by
      intro index mem
      obtain ⟨arg, argMem, rfl⟩ := mem_map.mp mem
      rw [length_replicate]
      exact (argsWithin arg argMem).2)
  obtain ⟨argRows, argRun, argHolds⟩ :=
    fromEntries_some (fun arg mem => (argsWithin arg mem).1) args_le
  have edgeTargets : ∀ entry ∈ graph.successors.zipIdx, entry.1 < graph.blocks.length :=
    fun entry mem => targets entry.1 (fst_mem_of_mem_zipIdx mem)
  obtain ⟨incoming, incomingRun, incomingHolds⟩ :=
    fromEntries_some edgeTargets (by simpa using successors_le)
  -- the rows of the two tables, in terms of what was entered
  have rows : ∀ block ∈ List.range graph.blocks.length,
      blockEntries argsForEdge (argRows.row block) (incoming.row block) =
        blockEntries argsForEdge (rowOf args block)
          (rowOf graph.successors.zipIdx block) := by
    intro block mem
    rw [argHolds.row_eq (mem_range.mp mem), incomingHolds.row_eq (mem_range.mp mem)]
  let entries := (List.range graph.blocks.length).flatMap fun block =>
    blockEntries argsForEdge (argRows.row block) (incoming.row block)
  have mem_entries : ∀ arg input : IlValueId, (arg, input) ∈ entries ↔
      ∃ (block : IlBlockId) (position edge : Nat),
        (rowOf args block)[position]? = some arg ∧ graph.successors[edge]? = some block ∧
          (argsForEdge edge)[position]? = some input := by
    intro arg input
    simp only [entries, mem_flatMap]
    constructor
    · intro ⟨block, blockMem, mem⟩
      rw [rows block blockMem] at mem
      obtain ⟨position, edge, at_, edgeMem, found⟩ := mem_blockEntries.mp mem
      rw [mem_rowOf, mem_zipIdx_iff_getElem?] at edgeMem
      exact ⟨block, position, edge, at_, edgeMem, found⟩
    · intro ⟨block, position, edge, at_, edgeAt, found⟩
      have lt : block < graph.blocks.length := targets block (mem_of_getElem? edgeAt)
      refine ⟨block, mem_range.mpr lt, ?_⟩
      rw [rows block (mem_range.mpr lt)]
      refine mem_blockEntries.mpr ⟨position, edge, at_, ?_, found⟩
      rw [mem_rowOf, mem_zipIdx_iff_getElem?]
      exact edgeAt
  have arg_lt : ∀ entry ∈ entries, entry.1 < valueCount := by
    intro entry mem
    obtain ⟨block, position, edge, at_, -, -⟩ := (mem_entries entry.1 entry.2).mp mem
    exact (argsWithin _ (IlCsr.mem_rowOf.mp (mem_of_getElem? at_))).2
  have entries_le : entries.length ≤ u32Max := by
    refine le_trans ?_ edgeArgs_le
    refine le_trans ?_ (sum_rows_le (fun edge => (argsForEdge edge).length)
      graph.successors.zipIdx graph.blocks.length)
    rw [length_flatMap]
    refine sum_le_sum fun block mem => ?_
    rw [rows block mem]
    exact length_blockEntries_le _ _
  obtain ⟨table, tableRun, tableHolds⟩ := fromEntries_some arg_lt entries_le
  refine ⟨⟨present, table⟩, ?_, fun arg lt => ?_⟩
  · simp only [new, presentRun, argRun, incomingRun, some_bind]
    rw [show fromEntries valueCount _ = some table from tableRun]
    rfl
  · have present_iff := presentSpec arg
    unfold inputsFor
    constructor
    · cases flag : present.getD arg false with
      | true =>
        simpa using (present_iff.mp flag)
      | false =>
        have absent : ¬ arg ∈ args.map Prod.snd := fun mem => by
          rw [present_iff.mpr (.inr mem)] at flag
          cases flag
        simpa using absent
    · intro values eq input
      split at eq
      · cases eq
        rw [tableHolds.row_eq lt, mem_rowOf]
        exact mem_entries arg input
      · cases eq

end IlSsaBlockArgInputs

end Fugue.Il
