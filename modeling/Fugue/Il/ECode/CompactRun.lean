import Fugue.Il.ECode.CompactEmit
import Fugue.Il.ECode.VerifyTables

/-!
# A run of compaction

The items come in the order of their values (`emissionOrder_ascending`), and each of them keeps the
relation `Emitted` between the old tables and the new ones: what lies below the frontier has been
copied to its rank.
-/

namespace Fugue.Il.ECodeCompaction

open Fugue.Lib Fugue.Bv List

/-! ## The order of the items -/

def Item.values : Item → IlIndexRange
  | .op _ operation => operation.results
  | .blockArg _ arg => ⟨arg.value, arg.value + 1⟩

def Item.opRange : Item → Option IlIndexRange
  | .op index _ => some ⟨index, index + 1⟩
  | .blockArg _ _ => none

/-- The index of a block argument, as a range. -/
def Item.argRange : Item → Option IlIndexRange
  | .op _ _ => none
  | .blockArg index _ => some ⟨index, index + 1⟩

variable {operations : List (ECodeOp × Nat)} {args : List (ECodeBlockArg × Nat)}

theorem emissionOrder_opRanges : (emissionOrder operations args).filterMap Item.opRange =
    operations.map fun entry => ⟨entry.2, entry.2 + 1⟩ := by
  fun_induction emissionOrder operations args with
  | case1 => rfl
  | case2 arg index args ih => rw [filterMap_cons_none rfl, ih]
  | case3 operation index operations ih => exact congrArg (List.cons _) ih
  | case4 operation index operations arg argIndex args before ih =>
    rw [filterMap_cons_none rfl, ih]
  | case5 operation index operations arg argIndex args after ih =>
    exact congrArg (List.cons _) ih

theorem emissionOrder_argRanges : (emissionOrder operations args).filterMap Item.argRange =
    args.map fun entry => ⟨entry.2, entry.2 + 1⟩ := by
  fun_induction emissionOrder operations args with
  | case1 => rfl
  | case2 arg index args ih => exact congrArg (List.cons _) ih
  | case3 operation index operations ih => rw [filterMap_cons_none rfl, ih]
  | case4 operation index operations arg argIndex args before ih =>
    exact congrArg (List.cons _) ih
  | case5 operation index operations arg argIndex args after ih =>
    rw [filterMap_cons_none rfl, ih]

theorem mem_emissionOrder {item : Item} : item ∈ emissionOrder operations args ↔
    (∃ entry ∈ operations, item = .op entry.2 entry.1) ∨
      ∃ entry ∈ args, item = .blockArg entry.2 entry.1 := by
  fun_induction emissionOrder operations args with
  | case1 => simp
  | case2 arg index args ih => simp [ih, or_comm]
  | case3 operation index operations ih => simp [ih]
  | case4 operation index operations arg argIndex args before ih =>
    rw [mem_cons, ih, exists_mem_cons_iff (l := args)]
    exact or_left_comm
  | case5 operation index operations arg argIndex args after ih =>
    rw [mem_cons, ih, exists_mem_cons_iff (l := operations)]
    exact or_assoc.symm

/-- The values come in ascending order: an argument before an operation exactly when its value is
numbered before the results. -/
theorem emissionOrder_ascending {high : Nat} : ∀ {low : Nat},
    IlIndexRange.Ascending low (operations.map fun entry => entry.1.results) high →
    args.Pairwise (fun a b => a.1.value < b.1.value) →
    (∀ arg ∈ args, low ≤ arg.1.value ∧ arg.1.value < high) →
    (∀ operation ∈ operations, ∀ arg ∈ args, arg.1.value < operation.1.results.start ∨
      operation.1.results.stop ≤ arg.1.value) →
    IlIndexRange.Ascending low ((emissionOrder operations args).map Item.values) high := by
  fun_induction emissionOrder operations args with
  | case1 => exact fun ascending _ _ _ => ascending
  | case2 arg index args ih =>
    intro low ascending sorted bounds _
    obtain ⟨after, sorted⟩ := pairwise_cons.mp sorted
    obtain ⟨head, rest⟩ := forall_mem_cons.mp bounds
    refine ⟨head.1, Nat.le_succ _, ih ?_ sorted (fun other mem => ?_) nofun⟩
    · exact head.2
    · exact ⟨after other mem, (rest other mem).2⟩
  | case3 operation index operations ih =>
    intro low ascending _ _ _
    obtain ⟨start, ordered, rest⟩ := ascending
    exact ⟨start, ordered, ih rest .nil nofun fun _ _ => nofun⟩
  | case4 operation index operations arg argIndex args before ih =>
    intro low ascending sorted bounds apart
    obtain ⟨after, sorted⟩ := pairwise_cons.mp sorted
    obtain ⟨head, rest⟩ := forall_mem_cons.mp bounds
    obtain ⟨start, ordered, ascending⟩ := ascending
    refine ⟨head.1, Nat.le_succ _, ih ⟨before, ordered, ascending⟩ sorted (fun other mem => ?_) ?_⟩
    · exact ⟨after other mem, (rest other mem).2⟩
    · exact fun operation mem other otherMem =>
        apart operation mem other (.tail _ otherMem)
  | case5 operation index operations arg argIndex args notBefore ih =>
    intro low ascending sorted bounds apart
    obtain ⟨start, ordered, ascending⟩ := ascending
    have stop : operation.results.stop ≤ arg.value := by
      rcases apart _ (.head _) _ (.head _) with before | after
      · exact absurd before notBefore
      · exact after
    refine ⟨start, ordered, ih ascending sorted (fun other mem => ?_) ?_⟩
    · refine ⟨?_, (bounds other mem).2⟩
      rcases mem_cons.mp mem with eq | inRest
      · rw [eq]
        exact stop
      · exact le_trans stop (le_of_lt ((pairwise_cons.mp sorted).1 other inRest))
    · exact fun operation mem => apart operation (.tail _ mem)

/-! ## What has been emitted -/

/-- The operation `copy` is what compaction makes of `operation`, with the operand pool and the byte
storage that it refers to. -/
structure CopiedOp (ir : ECodeIr) (kept : Nat → Bool) (pool : List IlValueId)
    (storage : List UInt8) (operation copy : ECodeOp) : Prop where
  opcode : copy.opcode = operation.opcode
  width : copy.width = operation.width
  address : copy.address = operation.address
  addressSpace : copy.addressSpace = operation.addressSpace
  results : copy.results = operation.results.rank kept
  within : copy.operands.start ≤ copy.operands.stop ∧ copy.operands.stop ≤ pool.length
  operands : copy.operands.slice pool = (ir.opOperandsFor operation).map (rank kept)
  immediate : operation.ImmediateCopied ir.constantStorage storage copy.immediate

theorem slice_append {α : Type} {range : IlIndexRange} {pool : List α}
    (within : range.start ≤ range.stop ∧ range.stop ≤ pool.length) (suffix : List α) :
    range.slice (pool ++ suffix) = range.slice pool := by
  unfold IlIndexRange.slice
  rw [drop_append_of_le_length (by omega),
    take_append_of_le_length (by rw [length_drop]; omega)]

theorem slice_at_end {α : Type} (pool suffix : List α) :
    IlIndexRange.slice ⟨pool.length, pool.length + suffix.length⟩ (pool ++ suffix) = suffix := by
  unfold IlIndexRange.slice
  rw [drop_left, Nat.add_sub_cancel_left, take_length]

theorem CopiedOp.append {ir : ECodeIr} {kept : Nat → Bool} {pool : List IlValueId}
    {storage : List UInt8} {operation copy : ECodeOp}
    (copied : CopiedOp ir kept pool storage operation copy) (operands : List IlValueId)
    (bytes : List UInt8) :
    CopiedOp ir kept (pool ++ operands) (storage ++ bytes) operation copy where
  opcode := copied.opcode
  width := copied.width
  address := copied.address
  addressSpace := copied.addressSpace
  results := copied.results
  within := ⟨copied.within.1, by rw [length_append]; exact Nat.le_add_right_of_le copied.within.2⟩
  operands := by rw [slice_append copied.within]; exact copied.operands
  immediate := copied.immediate.append bytes

section Emitted

variable (ir : ECodeIr) (required : IlRequiredDefs)

/-- The new name of a kept definition. -/
def renumber : IlSsaDef → IlSsaDef
  | .blockArg arg => .blockArg (rank required.blockArgIsRequired arg)
  | .op operation => .op (rank required.opIsRequired operation)

/-- The builder holds the copies of what lies below the three frontiers. -/
structure Emitted (value operation arg : Nat) (builder : ECodeBuilder) : Prop where
  ops : CopiedBelow required.opIsRequired operation builder.operations fun index copy =>
    ∃ old, ir.operations[index]? = some old ∧
      CopiedOp ir (valueKept ir required) builder.valueOperands builder.constantStorage old copy
  args : CopiedBelow required.blockArgIsRequired arg builder.blockArgs fun index copy =>
    ∃ old, ir.blockArgs[index]? = some old ∧
      copy = ⟨old.block, rank (valueKept ir required) old.value, old.width⟩
  values : CopiedBelow (valueKept ir required) value builder.values fun index copy =>
    ∃ old, ir.values[index]? = some old ∧ copy = ⟨old.width, renumber required old.definition⟩
  domains : CopiedBelow (valueKept ir required) value builder.valueDomains fun index copy =>
    copy = ir.valueDomain index
  indexes : builder.constants.Indexes builder.constantStorage

/-- The items that are left list what is kept from the frontiers on. -/
structure Pending (value operation arg : Nat) (items : List Item) : Prop where
  values : Enumerates (valueKept ir required) value (items.map Item.values)
  ops : Enumerates required.opIsRequired operation (items.filterMap Item.opRange)
  args : Enumerates required.blockArgIsRequired arg (items.filterMap Item.argRange)
  op : ∀ index operation, Item.op index operation ∈ items → ir.operations[index]? = some operation
  blockArg : ∀ index arg, Item.blockArg index arg ∈ items → ir.blockArgs[index]? = some arg

def operandCount : List Item → Nat
  | [] => 0
  | .op _ operation :: items => (ir.opOperandsFor operation).length + operandCount items
  | .blockArg _ _ :: items => operandCount items

/-- What changes from item to item, and what never does. -/
structure SameFrame (before after : ECodeBuilder) : Prop where
  metadata : after.metadata = before.metadata
  graph : after.graph = before.graph
  sourceSpans : after.sourceSpans = before.sourceSpans
  parentSpans : after.parentSpans = before.parentSpans
  edgeArgs : after.edgeArgs = before.edgeArgs
  edgeArgValues : after.edgeArgValues = before.edgeArgValues
  memory : MemoryGrows before.memoryDomains after.memoryDomains

theorem SameFrame.refl (builder : ECodeBuilder) : SameFrame builder builder :=
  ⟨rfl, rfl, rfl, rfl, rfl, rfl, .refl _⟩

theorem SameFrame.trans {a b c : ECodeBuilder} (ab : SameFrame a b) (bc : SameFrame b c) :
    SameFrame a c :=
  ⟨bc.metadata.trans ab.metadata, bc.graph.trans ab.graph, bc.sourceSpans.trans ab.sourceSpans,
    bc.parentSpans.trans ab.parentSpans, bc.edgeArgs.trans ab.edgeArgs,
    bc.edgeArgValues.trans ab.edgeArgValues, ab.memory.trans bc.memory⟩

variable {ir required} {value operation arg : Nat} {builder : ECodeBuilder} {items : List Item}

variable {index : Nat}

theorem Pending.tail_of_op {old : ECodeOp}
    (pending : Pending ir required value operation arg (.op index old :: items)) :
    Pending ir required old.results.stop (index + 1) arg items where
  values := pending.values.tail
  ops := pending.ops.tail
  args := pending.args
  op := fun i o mem => pending.op i o (.tail _ mem)
  blockArg := fun i a mem => pending.blockArg i a (.tail _ mem)

theorem Pending.tail_of_blockArg {old : ECodeBlockArg}
    (pending : Pending ir required value operation arg (.blockArg index old :: items)) :
    Pending ir required (old.value + 1) operation (index + 1) items where
  values := pending.values.tail
  ops := pending.ops
  args := pending.args.tail
  op := fun i o mem => pending.op i o (.tail _ mem)
  blockArg := fun i a mem => pending.blockArg i a (.tail _ mem)

theorem single_len (index : Nat) : IlIndexRange.len ⟨index, index + 1⟩ = 1 :=
  Nat.add_sub_cancel_left _ _

theorem rank_lt_of_lt {kept : Nat → Bool} {index count : Nat} (lt : index < count)
    (fits : count ≤ u32Max) : rank kept index + 1 ≤ u32Max := by
  have : rank kept index ≤ index := rank_le_self
  omega

theorem Emitted.blockArg {old : ECodeBlockArg}
    (emitted : Emitted ir required value operation arg builder)
    (pending : Pending ir required value operation arg (.blockArg index old :: items))
    (tables : ECodeIr.DefinitionChecks ir) :
    ∃ next, emitArg ir builder old = some next ∧
      Emitted ir required (old.value + 1) operation (index + 1) next ∧ SameFrame builder next ∧
      next.valueOperands = builder.valueOperands := by
  have found := pending.blockArg index old (.head _)
  have valueAt := (tables.blockArg_at found).2
  have values : Enumerates (valueKept ir required) value
    (⟨old.value, old.value + 1⟩ :: items.map Item.values) := pending.values
  have args : Enumerates required.blockArgIsRequired arg
    (⟨index, index + 1⟩ :: items.filterMap Item.argRange) := pending.args
  have argsLength := emitted.args.length.trans args.rank_head.1
  have valuesLength := emitted.values.length.trans values.rank_head.1
  have argsFit : builder.blockArgs.length + 1 ≤ u32Max := by
    rw [argsLength]
    exact rank_lt_of_lt (lt_of_getElem? found) tables.checked.blockArgs_le
  have valuesFit : builder.values.length + 1 ≤ u32Max := by
    rw [valuesLength]
    exact rank_lt_of_lt (lt_of_getElem? valueAt) tables.values_le
  obtain ⟨memoryDomains, run, grows⟩ := emitArg_eq ir builder old
    (emitted.domains.length.trans emitted.values.length.symm) argsFit valuesFit
  refine ⟨_, run, ⟨emitted.ops, ?_, ?_, ?_, emitted.indexes⟩,
    ⟨rfl, rfl, rfl, rfl, rfl, rfl, grows⟩, rfl⟩
  · refine emitted.args.append args (single_len index).symm fun offset lt => ?_
    rw [single_len, Nat.lt_one_iff] at lt
    subst lt
    exact ⟨_, rfl, old, found, by rw [valuesLength]⟩
  · refine emitted.values.append values (single_len old.value).symm fun offset lt => ?_
    rw [single_len, Nat.lt_one_iff] at lt
    subst lt
    exact ⟨_, rfl, _, valueAt, by rw [argsLength]; rfl⟩
  · refine emitted.domains.append values (single_len old.value).symm fun offset lt => ?_
    rw [single_len, Nat.lt_one_iff] at lt
    subst lt
    exact ⟨_, rfl, rfl⟩

theorem Emitted.op {old : ECodeOp} (emitted : Emitted ir required value operation arg builder)
    (pending : Pending ir required value operation arg (.op index old :: items))
    (tables : ECodeIr.TablesFit ir) (narrow : old.IsWideConstant → old.width ≤ 2 ^ 31 - 8)
    (operandsFit : builder.valueOperands.length + (ir.opOperandsFor old).length ≤ u32Max) :
    ∃ next, emitOp ir (.fromKept ir.values.length (valueKept ir required)) builder old = some next ∧
      Emitted ir required old.results.stop (index + 1) arg next ∧ SameFrame builder next ∧
      next.valueOperands.length = builder.valueOperands.length + (ir.opOperandsFor old).length := by
  have found := pending.op index old (.head _)
  have lt := lt_of_getElem? found
  have definitions := tables.definitions
  obtain ⟨-, ⟨ordered, results_le⟩, -, results⟩ :=
    ECodeIr.verifyOpResults_eq_ok.mp (definitions.results_ok index old found)
  have checks := tables.ops index old found
  have values : Enumerates (valueKept ir required) value
    (old.results :: items.map Item.values) := pending.values
  have ops : Enumerates required.opIsRequired operation
    (⟨index, index + 1⟩ :: items.filterMap Item.opRange) := pending.ops
  have opsLength := emitted.ops.length.trans ops.rank_head.1
  have valuesLength := emitted.values.length.trans values.rank_head.1
  have resultRanks := values.rank_head.2
  have stop : old.results.start + old.results.len = old.results.stop := by
    unfold IlIndexRange.len
    omega
  have opsFit : builder.operations.length + 1 ≤ u32Max := by
    rw [opsLength]
    exact rank_lt_of_lt lt definitions.checked.ops_le
  have valuesFit : builder.values.length + old.results.len ≤ u32Max := by
    rw [valuesLength, ← resultRanks _ le_rfl, stop]
    exact le_trans rank_le_self (le_trans results_le definitions.values_le)
  have operands_lt : ∀ operand ∈ ir.opOperandsFor old, operand < ir.values.length := by
    intro operand mem
    obtain ⟨record, recordFound, -⟩ := checks.operands operand mem
    exact lt_of_getElem? recordFound
  obtain ⟨immediate, constants, suffix, memoryDomains, run, indexes, copied, grows⟩ :=
    @emitOp_eq ir builder old (valueKept ir required) emitted.indexes
      (fun wide => checks.constant wide.1 wide.2) narrow definitions.values_le operands_lt ordered
      results_le (emitted.domains.length.trans emitted.values.length.symm) opsFit valuesFit
      operandsFit
  refine ⟨_, run, ⟨?_, emitted.args, ?_, ?_, indexes⟩, ⟨rfl, rfl, rfl, rfl, rfl, rfl, grows⟩, ?_⟩
  · refine CopiedBelow.append (emitted.ops.imp fun other copy ⟨oldOther, otherFound, otherCopied⟩ =>
      ⟨oldOther, otherFound, otherCopied.append _ _⟩) ops (single_len index).symm
      fun offset lt => ?_
    rw [single_len, Nat.lt_one_iff] at lt
    subst lt
    refine ⟨_, rfl, old, found, rfl, rfl, rfl, rfl, ?_, ?_, ?_, copied⟩
    · rw [valuesLength, ← resultRanks _ le_rfl, stop]
      rfl
    · exact ⟨Nat.le_add_right _ _, by simp⟩
    · have := slice_at_end builder.valueOperands
        ((ir.opOperandsFor old).map (rank (valueKept ir required)))
      rwa [length_map] at this
  · refine emitted.values.append values length_replicate fun offset lt => ?_
    have within : old.results.start + offset < ir.values.length := by omega
    have record := results ir.values[old.results.start + offset] (by
      rw [mem_iff_getElem?]
      refine ⟨offset, ?_⟩
      rw [IlIndexRange.getElem?_slice, if_pos (show offset < _ - _ from lt),
        getElem?_eq_getElem within])
    refine ⟨_, getElem?_replicate_of_lt lt, _, getElem?_eq_getElem within, ?_⟩
    rw [record, opsLength]
    rfl
  · refine emitted.domains.append values (by simp) fun offset lt => ?_
    refine ⟨_, ?_, rfl⟩
    rw [getElem?_map, getElem?_range' lt, Option.map_some, one_mul]
  · simp

/-- Emitting the items copies everything that is kept. -/
theorem emitItems_spec (tables : ECodeIr.TablesFit ir) : ∀ (items : List Item)
    {value operation arg : Nat} {builder : ECodeBuilder},
    Emitted ir required value operation arg builder →
    Pending ir required value operation arg items →
    (∀ index old, Item.op index old ∈ items → old.IsWideConstant → old.width ≤ 2 ^ 31 - 8) →
    builder.valueOperands.length + operandCount ir items ≤ u32Max →
    ∃ final, items.foldlM
        (emitItem ir (.fromKept ir.values.length (valueKept ir required))) builder = some final ∧
      (∃ value operation arg, Emitted ir required value operation arg final ∧
        Pending ir required value operation arg []) ∧ SameFrame builder final
  | [], value, operation, arg, builder, emitted, pending, _, _ =>
    ⟨builder, rfl, ⟨value, operation, arg, emitted, pending⟩, .refl builder⟩
  | .op index old :: items, value, operation, arg, builder, emitted, pending, narrow, fits => by
    rw [operandCount] at fits
    obtain ⟨next, run, emittedNext, frame, pool⟩ := emitted.op pending tables
      (narrow index old (.head _)) (by omega)
    obtain ⟨final, rest, last, frameRest⟩ := emitItems_spec tables items emittedNext
      pending.tail_of_op (fun i o mem => narrow i o (.tail _ mem)) (by omega)
    refine ⟨final, ?_, last, frame.trans frameRest⟩
    rw [foldlM_cons, emitItem, run]
    exact rest
  | .blockArg index old :: items, value, operation, arg, builder, emitted, pending, narrow,
      fits => by
    obtain ⟨next, run, emittedNext, frame, pool⟩ := emitted.blockArg pending tables.definitions
    obtain ⟨final, rest, last, frameRest⟩ := emitItems_spec tables items emittedNext
      pending.tail_of_blockArg (fun i o mem => narrow i o (.tail _ mem))
      (by rw [pool]; exact fits)
    refine ⟨final, ?_, last, frame.trans frameRest⟩
    rw [foldlM_cons, emitItem, run]
    exact rest

end Emitted

end Fugue.Il.ECodeCompaction
