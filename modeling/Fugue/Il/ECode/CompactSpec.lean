import Fugue.Il.ECode.CompactRun

/-!
# What compaction returns

`rewrite_spec`: compaction returns the tables in which everything that is required has been copied
to its rank (`Compacted`).
-/

namespace Fugue.Il

open Fugue.Lib Fugue.Bv List ECodeIr

theorem enumerates_zipIdx {α : Type} {kept : Nat → Bool} : ∀ (xs : List α) (start : Nat),
    (∀ index, start + xs.length ≤ index → kept index = false) →
    Enumerates kept start (((xs.zipIdx start).filter fun entry => kept entry.2).map
      fun entry => ⟨entry.2, entry.2 + 1⟩)
  | [], start, beyond =>
    ⟨⟨start, le_refl _⟩, nofun, fun k above keptK => by
      rw [beyond k above] at keptK
      cases keptK⟩
  | x :: xs, start, beyond => by
    have rest := enumerates_zipIdx xs (start + 1) fun index above =>
      beyond index (by rw [length_cons]; omega)
    obtain ⟨high, ascending⟩ := rest.ascending
    rw [zipIdx_cons, filter_cons]
    split
    · rename_i keptStart
      refine ⟨⟨high, le_refl _, Nat.le_succ _, ascending⟩, ?_, ?_⟩
      · intro range mem k low high'
        rcases mem_cons.mp mem with eq | inRest
        · subst eq
          dsimp only at low high'
          rw [show k = start by omega]
          exact keptStart
        · exact rest.inside range inRest k low high'
      · intro k above keptK
        by_cases first : k = start
        · exact ⟨_, .head _, first.ge, by dsimp only; omega⟩
        · obtain ⟨range, mem, within⟩ := rest.covers k (by omega) keptK
          exact ⟨range, .tail _ mem, within⟩
    · rename_i dropped
      refine ⟨⟨high, ascending.lower (Nat.le_succ _)⟩, rest.inside, ?_⟩
      intro k above keptK
      refine rest.covers k ?_ keptK
      by_contra below
      exact dropped (by rw [show start = k by omega]; exact keptK)

namespace ECodeCompaction

variable {ir : ECodeIr} {required : IlRequiredDefs}

variable {index : Nat}

theorem valueKept_eq_true : valueKept ir required index = true ↔
    ∃ value, ir.values[index]? = some value ∧ required.contains value.definition = true := by
  rw [valueKept, getD_eq_getElem?_getD, getElem?_map]
  cases ir.values[index]? <;> simp

/-- The flags are those of the required definitions. -/
def Marks (ir : ECodeIr) (required : IlRequiredDefs) : Prop :=
  ∀ definition, required.contains definition = true ↔ ir.RequiredDef definition

theorem Marks.op_beyond (marks : Marks ir required) (checks : ECodeIr.DefinitionChecks ir)
    (beyond : ir.operations.length ≤ index) :
    required.opIsRequired index = false := by
  rw [← Bool.not_eq_true]
  intro marked
  have lt := checks.hasDef_of_required ((marks (.op index)).mp marked)
  exact absurd lt (not_lt.mpr beyond)

theorem Marks.arg_beyond (marks : Marks ir required) (checks : ECodeIr.DefinitionChecks ir)
    (beyond : ir.blockArgs.length ≤ index) :
    required.blockArgIsRequired index = false := by
  rw [← Bool.not_eq_true]
  intro marked
  have lt := checks.hasDef_of_required ((marks (.blockArg index)).mp marked)
  exact absurd lt (not_lt.mpr beyond)

theorem value_beyond (beyond : ir.values.length ≤ index) :
    valueKept ir required index = false := by
  by_contra marked
  obtain ⟨value, found, -⟩ := valueKept_eq_true.mp (by simpa using marked)
  rw [getElem?_eq_none beyond] at found
  cases found

def items (ir : ECodeIr) (required : IlRequiredDefs) : List Item :=
  emissionOrder (ir.operations.zipIdx.filter fun entry => required.opIsRequired entry.2)
    (ir.blockArgs.zipIdx.filter fun entry => required.blockArgIsRequired entry.2)

theorem mem_items_op {operation : ECodeOp} :
    Item.op index operation ∈ items ir required ↔
      ir.operations[index]? = some operation ∧ required.opIsRequired index = true := by
  simp [items, mem_emissionOrder, mem_filter, mem_zipIdx_iff_getElem?]

theorem mem_items_blockArg {arg : ECodeBlockArg} :
    Item.blockArg index arg ∈ items ir required ↔
      ir.blockArgs[index]? = some arg ∧ required.blockArgIsRequired index = true := by
  simp [items, mem_emissionOrder, mem_filter, mem_zipIdx_iff_getElem?]

theorem result_at (checks : ECodeIr.DefinitionChecks ir) {operation : ECodeOp}
    (found : ir.operations[index]? = some operation) {value : Nat}
    (low : operation.results.start ≤ value) (high : value < operation.results.stop) :
    ir.values[value]? = some ⟨operation.width, .op index⟩ := by
  obtain ⟨-, ⟨-, results_le⟩, -, results⟩ :=
    verifyOpResults_eq_ok.mp (checks.results_ok index operation found)
  have lt : value < ir.values.length := by omega
  rw [getElem?_eq_getElem lt, Option.some.injEq]
  apply results _
  rw [mem_iff_getElem?]
  refine ⟨value - operation.results.start, ?_⟩
  rw [IlIndexRange.getElem?_slice, if_pos (by omega), Nat.add_sub_cancel' low,
    getElem?_eq_getElem lt]

theorem pending_items (checks : ECodeIr.DefinitionChecks ir) (ordered : ir.Ordered)
    (marks : Marks ir required) : Pending ir required 0 0 0 (items ir required) := by
  refine ⟨⟨⟨ir.values.length, ?_⟩, ?_, ?_⟩, ?_, ?_, fun index operation mem =>
    (mem_items_op.mp mem).1, fun index arg mem => (mem_items_blockArg.mp mem).1⟩
  · apply emissionOrder_ascending
    · apply ordered.results.sublist
      have sub : (ir.operations.zipIdx.filter fun entry => required.opIsRequired entry.2).Sublist
          ir.operations.zipIdx := filter_sublist
      have := sub.map fun entry : ECodeOp × Nat => entry.1.results
      rwa [show ir.operations.zipIdx.map (fun entry : ECodeOp × Nat => entry.1.results) =
        ir.operations.map ECodeOp.results by
          rw [← zipIdx_map_fst 0 ir.operations, map_map]; simp [Function.comp_def]] at this
    · have pairs : ir.blockArgs.zipIdx.Pairwise fun a b => a.1.value < b.1.value := by
        rw [← pairwise_map (f := Prod.fst) (R := fun a b : ECodeBlockArg => a.value < b.value),
          zipIdx_map_fst]
        exact ordered.args
      exact pairs.filter _
    · intro entry mem
      have found := mem_zipIdx_iff_getElem?.mp (mem_filter.mp mem).1
      exact ⟨Nat.zero_le _, (List.getElem?_eq_some_iff.mp (checks.blockArg_at found).2).1⟩
    · intro operation operationMem arg argMem
      have foundOp := mem_zipIdx_iff_getElem?.mp (mem_filter.mp operationMem).1
      have foundArg := mem_zipIdx_iff_getElem?.mp (mem_filter.mp argMem).1
      by_contra inside
      rw [not_or, not_lt, not_le] at inside
      have definition := (checks.blockArg_at foundArg).2
      rw [result_at checks foundOp inside.1 inside.2, Option.some.injEq,
        ECodeValue.mk.injEq] at definition
      exact nomatch definition.2
  · intro range mem value low high
    obtain ⟨item, itemMem, rfl⟩ := mem_map.mp mem
    rw [valueKept_eq_true]
    cases item with
    | op index operation =>
      obtain ⟨found, marked⟩ := mem_items_op.mp itemMem
      exact ⟨_, result_at checks found low high, marked⟩
    | blockArg index arg =>
      obtain ⟨found, marked⟩ := mem_items_blockArg.mp itemMem
      have eq : value = arg.value := by
        dsimp only [Item.values] at low high
        omega
      subst eq
      exact ⟨_, (checks.blockArg_at found).2, marked⟩
  · intro value _ kept
    obtain ⟨record, found, marked⟩ := valueKept_eq_true.mp kept
    have check := (verifyValue_eq_ok.mp (checks.values_ok value record found)).2
    cases definition : record.definition with
    | op index =>
      simp only [definition] at check marked
      obtain ⟨operation, operationFound, low, high⟩ := check
      exact ⟨_, mem_map.mpr ⟨.op index operation,
        mem_items_op.mpr ⟨operationFound, marked⟩, rfl⟩, low, high⟩
    | blockArg index =>
      simp only [definition] at check marked
      obtain ⟨arg, argFound, valueEq, -⟩ := check
      refine ⟨_, mem_map.mpr ⟨.blockArg index arg,
        mem_items_blockArg.mpr ⟨argFound, marked⟩, rfl⟩, ?_⟩
      dsimp only [Item.values]
      rw [valueEq]
      exact ⟨le_rfl, Nat.lt_succ_self _⟩
  · rw [items, emissionOrder_opRanges]
    exact enumerates_zipIdx ir.operations 0 fun index beyond =>
      marks.op_beyond checks (by omega)
  · rw [items, emissionOrder_argRanges]
    exact enumerates_zipIdx ir.blockArgs 0 fun index beyond =>
      marks.arg_beyond checks (by omega)

theorem operandCount_emissionOrder (operations : List (ECodeOp × Nat))
    (args : List (ECodeBlockArg × Nat)) :
    operandCount ir (emissionOrder operations args) =
      (operations.map fun entry => (ir.opOperandsFor entry.1).length).sum := by
  fun_induction emissionOrder operations args with
  | case1 => rfl
  | case2 arg index args ih => rw [operandCount, ih]
  | case3 operation index operations ih => rw [operandCount, ih, map_cons, sum_cons]
  | case4 operation index operations arg argIndex args before ih => rw [operandCount, ih]
  | case5 operation index operations arg argIndex args after ih =>
    rw [operandCount, ih, map_cons, sum_cons]

theorem operandCount_items_le (checks : ECodeIr.DefinitionChecks ir) (ordered : ir.Ordered) :
    operandCount ir (items ir required) ≤ u32Max := by
  rw [items, operandCount_emissionOrder]
  refine le_trans ?_ ordered.operands_le
  have lengths : ir.operations.map (fun operation => operation.operands.len) =
      ir.operations.zipIdx.map fun entry => (ir.opOperandsFor entry.1).length := by
    conv_lhs => rw [← zipIdx_map_fst 0 ir.operations, map_map]
    refine map_congr_left fun entry mem => ?_
    have found := mem_zipIdx_iff_getElem?.mp mem
    obtain ⟨-, -, ⟨-, operands_le⟩, -⟩ :=
      verifyOpResults_eq_ok.mp (checks.results_ok _ _ found)
    exact (IlIndexRange.length_slice operands_le).symm
  rw [lengths]
  exact (filter_sublist.map _).sum_le_sum fun _ _ => Nat.zero_le _

/-! ## The edges -/

/-- The arguments of an edge at the positions of the kept arguments of its target, each with the
argument. -/
def keptArgs (ir : ECodeIr) (required : IlRequiredDefs) (edge : Nat) (target : IlBlockId) :
    List (IlValueId × IlBlockArgId) :=
  ((ir.argsForEdge edge).zip (SsaVerifier.argsOf ir target)).filter fun pair =>
    required.blockArgIsRequired pair.2

def newEdgeArgs (ir : ECodeIr) (required : IlRequiredDefs) (edge : Nat) (target : IlBlockId) :
    List IlValueId :=
  (keptArgs ir required edge target).map fun pair => rank (valueKept ir required) pair.1

theorem filter_zipIdx_eq {α β : Type} (keep : β → Bool) : ∀ (xs : List α) (ys skipped : List β),
    (((xs.zipIdx skipped.length).filter fun entry =>
      (((skipped ++ ys).map keep)[entry.2]?).getD false).map Prod.fst) =
        ((xs.zip ys).filter fun pair => keep pair.2).map Prod.fst
  | [], _, _ => rfl
  | x :: xs, [], skipped => by
    rw [zip_nil_right, filter_nil, map_nil, map_eq_nil_iff, filter_eq_nil_iff]
    intro entry mem
    have le := le_snd_of_mem_zipIdx mem
    rw [append_nil, getElem?_eq_none (by rw [length_map]; exact le)]
    simp
  | x :: xs, y :: ys, skipped => by
    have rest := filter_zipIdx_eq keep xs ys (skipped ++ [y])
    rw [length_append, length_singleton, append_assoc, singleton_append] at rest
    rw [zipIdx_cons, zip_cons_cons, filter_cons, filter_cons]
    have head : ((((skipped ++ y :: ys).map keep)[skipped.length]?).getD false) = keep y := by
      simp
    simp only [head]
    split
    · rw [map_cons, map_cons, rest]
    · exact rest

structure EdgesEmitted (ir : ECodeIr) (required : IlRequiredDefs) (count : Nat)
    (edgeArgs : List IlIndexRange) (pool : List IlValueId) : Prop where
  length : edgeArgs.length = count
  edge : ∀ (edge : Nat) (target : IlBlockId), edge < count →
    ir.graph.successors[edge]? = some target → ∃ range, edgeArgs[edge]? = some range ∧
      (range.start ≤ range.stop ∧ range.stop ≤ pool.length) ∧
      range.slice pool = newEdgeArgs ir required edge target
  pool : ∀ value ∈ pool, ∃ (edge : Nat) (target : IlBlockId),
    ir.graph.successors[edge]? = some target ∧ value ∈ newEdgeArgs ir required edge target

theorem newEdgeArgs_length_le (ir : ECodeIr) (required : IlRequiredDefs) (edge : Nat)
    (target : IlBlockId) :
    (newEdgeArgs ir required edge target).length ≤ (ir.argsForEdge edge).length := by
  rw [newEdgeArgs, length_map]
  apply le_trans (length_filter_le _ _)
  rw [length_zip]
  exact min_le_left _ _

section Edges

variable {blockArgKept : IlCsr Bool}

theorem emitEdge_eq (checks : ECodeIr.DefinitionChecks ir) (builder : ECodeBuilder) (edge : Nat)
    {target : IlBlockId} (row : blockArgKept.row target =
      (SsaVerifier.argsOf ir target).map required.blockArgIsRequired)
    (fits : builder.edgeArgValues.length + (newEdgeArgs ir required edge target).length ≤ u32Max) :
    emitEdge ir (.fromKept ir.values.length (valueKept ir required)) blockArgKept builder
        (target, edge) = some { builder with
      edgeArgValues := builder.edgeArgValues ++ newEdgeArgs ir required edge target
      edgeArgs := builder.edgeArgs ++ [⟨builder.edgeArgValues.length,
        builder.edgeArgValues.length + (newEdgeArgs ir required edge target).length⟩] } := by
  have positions : ((ir.argsForEdge edge).zipIdx.filter fun arg =>
      ((blockArgKept.row target)[arg.2]?).getD false).map Prod.fst =
        (keptArgs ir required edge target).map Prod.fst := by
    rw [row]
    exact filter_zipIdx_eq required.blockArgIsRequired _ (SsaVerifier.argsOf ir target) []
  have remapped : ((keptArgs ir required edge target).map Prod.fst).mapM
      (remapValue (.fromKept ir.values.length (valueKept ir required))) =
        some (newEdgeArgs ir required edge target) := by
    have values_lt : ∀ value ∈ ir.edgeArgValues, value < ir.values.length :=
      (verifyEdgeArgs_eq_ok.mp checks.edgeArgs_ok).2.2
    rw [mapM_eq_some (g := rank (valueKept ir required)), map_map]
    · rfl
    · intro value mem
      obtain ⟨pair, pairMem, rfl⟩ := mem_map.mp mem
      have inEdge := (of_mem_zip (mem_filter.mp pairMem).1).1
      refine remapValue_eq checks.values_le (values_lt _ ?_)
      unfold ECodeIr.argsForEdge at inEdge
      split at inEdge
      · exact mem_of_mem_slice inEdge
      · cases inEdge
  simp only [emitEdge, positions, remapped, some_bind,
    builder.emitEdgeArgs_eq _ fits, Except.toOption, Option.map_some]

theorem EdgesEmitted.next {count : Nat} {edgeArgs : List IlIndexRange} {pool : List IlValueId}
    (emitted : EdgesEmitted ir required count edgeArgs pool) {target : IlBlockId}
    (found : ir.graph.successors[count]? = some target) :
    EdgesEmitted ir required (count + 1)
      (edgeArgs ++ [⟨pool.length, pool.length + (newEdgeArgs ir required count target).length⟩])
      (pool ++ newEdgeArgs ir required count target) := by
  refine ⟨by rw [length_append, emitted.length]; rfl, ?_, ?_⟩
  · intro edge other lt otherFound
    by_cases old : edge < count
    · obtain ⟨range, rangeFound, within, slice⟩ := emitted.edge edge other old otherFound
      refine ⟨range, ?_, ⟨within.1, ?_⟩, ?_⟩
      · rw [getElem?_append_left (by rw [emitted.length]; exact old)]
        exact rangeFound
      · rw [length_append]
        exact Nat.le_add_right_of_le within.2
      · rw [slice_append within]
        exact slice
    · have eq : edge = count := by omega
      subst eq
      rw [found, Option.some.injEq] at otherFound
      subst otherFound
      refine ⟨_, ?_, ⟨Nat.le_add_right _ _, ?_⟩, slice_at_end _ _⟩
      · rw [getElem?_append_right (by rw [emitted.length]), emitted.length, Nat.sub_self]
        rfl
      · rw [length_append]
  · intro value mem
    rcases mem_append.mp mem with old | new
    · exact emitted.pool value old
    · exact ⟨count, target, found, new⟩

theorem emitEdges_spec (checks : ECodeIr.DefinitionChecks ir)
    (rows : ∀ target ∈ ir.graph.successors, blockArgKept.row target =
      (SsaVerifier.argsOf ir target).map required.blockArgIsRequired) :
    ∀ (targets : List IlBlockId) (count : Nat) (builder : ECodeBuilder),
      (∀ offset, targets[offset]? = ir.graph.successors[count + offset]?) →
      EdgesEmitted ir required count builder.edgeArgs builder.edgeArgValues →
      builder.edgeArgValues.length +
        ((targets.zipIdx count).map fun entry => (ir.argsForEdge entry.2).length).sum ≤ u32Max →
      ∃ edgeArgs pool, (targets.zipIdx count).foldlM
          (emitEdge ir (.fromKept ir.values.length (valueKept ir required)) blockArgKept) builder =
          some { builder with edgeArgs, edgeArgValues := pool } ∧
        EdgesEmitted ir required (count + targets.length) edgeArgs pool
  | [], count, builder, _, emitted, _ => ⟨builder.edgeArgs, builder.edgeArgValues, rfl, emitted⟩
  | target :: targets, count, builder, same, emitted, fits => by
    have found : ir.graph.successors[count]? = some target := (same 0).symm
    have le := newEdgeArgs_length_le ir required count target
    rw [zipIdx_cons, map_cons, sum_cons] at fits
    dsimp only at fits
    have run := emitEdge_eq checks builder count (rows target (mem_of_getElem? found))
      (by omega)
    obtain ⟨edgeArgs, pool, rest, final⟩ := emitEdges_spec checks rows targets (count + 1)
      { builder with
        edgeArgValues := builder.edgeArgValues ++ newEdgeArgs ir required count target
        edgeArgs := builder.edgeArgs ++ [⟨builder.edgeArgValues.length,
          builder.edgeArgValues.length + (newEdgeArgs ir required count target).length⟩] }
      (fun offset => by
        have := same (offset + 1)
        rwa [getElem?_cons_succ, ← add_assoc, Nat.add_right_comm] at this)
      (emitted.next found)
      (by dsimp only; rw [length_append]; omega)
    refine ⟨edgeArgs, pool, ?_, ?_⟩
    · rw [zipIdx_cons, foldlM_cons, run]
      exact rest
    · rwa [length_cons, ← add_assoc, Nat.add_right_comm]

end Edges

/-- Spans whose destination does not vanish, renumbered. -/
def keptSpans {Span : Type} (kept : Nat → Bool) (destination : Span → IlIndexRange)
    (withDestination : Span → IlIndexRange → Span) (spans : List Span) : List Span :=
  (spans.filter fun span => !((destination span).rank kept).isEmpty).map fun span =>
    withDestination span ((destination span).rank kept)

/-- The tables of `new` hold what is required of `ir`, at its rank. -/
structure Compacted (ir : ECodeIr) (required : IlRequiredDefs) (new : ECodeIr) : Prop where
  metadata : new.metadata = ir.metadata
  graph : new.graph = ir.graph.rankOps required.opIsRequired
  sourceSpans : new.sourceSpans = keptSpans required.opIsRequired IlSourceSpan.destination
    (fun span destination => { span with destination }) ir.sourceSpans
  parentSpans : new.parentSpans = keptSpans required.opIsRequired IlParentSpan.destination
    (fun span destination => { span with destination }) ir.parentSpans
  ops : CopiedBelow required.opIsRequired ir.operations.length new.operations fun index copy =>
    ∃ old, ir.operations[index]? = some old ∧
      CopiedOp ir (valueKept ir required) new.valueOperands new.constantStorage old copy
  args : CopiedBelow required.blockArgIsRequired ir.blockArgs.length new.blockArgs
    fun index copy => ∃ old, ir.blockArgs[index]? = some old ∧
      copy = ⟨old.block, rank (valueKept ir required) old.value, old.width⟩
  values : CopiedBelow (valueKept ir required) ir.values.length new.values fun index copy =>
    ∃ old, ir.values[index]? = some old ∧ copy = ⟨old.width, renumber required old.definition⟩
  domains : CopiedBelow (valueKept ir required) ir.values.length new.valueDomains
    fun index copy => copy = ir.valueDomain index
  edges : EdgesEmitted ir required ir.graph.successors.length new.edgeArgs new.edgeArgValues
  memory : MemoryGrows ir.memoryDomains new.memoryDomains

theorem internMemoryDomains_eq : ∀ (domains : List ECodeMemoryDomain) (builder : ECodeBuilder),
    ∃ memoryDomains, domains.foldl (fun builder domain =>
        builder.internMemoryDomain domain.space) builder = { builder with memoryDomains } ∧
      MemoryGrows builder.memoryDomains memoryDomains ∧ ∀ domain ∈ domains, domain ∈ memoryDomains
  | [], builder => ⟨builder.memoryDomains, rfl, .refl _, nofun⟩
  | domain :: domains, builder => by
    obtain ⟨first, firstEq, firstGrows, interned⟩ := builder.internMemoryDomain_eq domain.space
    obtain ⟨memoryDomains, eq, grows, all⟩ :=
      internMemoryDomains_eq domains { builder with memoryDomains := first }
    refine ⟨memoryDomains, ?_, firstGrows.trans grows, ?_⟩
    · rw [foldl_cons, firstEq]
      exact eq
    · exact forall_mem_cons.mpr ⟨grows.keeps _ interned, all⟩

def startBuilder (ir : ECodeIr) (required : IlRequiredDefs)
    (memoryDomains : List ECodeMemoryDomain) : ECodeBuilder :=
  { ECodeBuilder.new ir.metadata (ir.graph.rankOps required.opIsRequired) with
    sourceSpans := keptSpans required.opIsRequired IlSourceSpan.destination
      (fun span destination => { span with destination }) ir.sourceSpans
    parentSpans := keptSpans required.opIsRequired IlParentSpan.destination
      (fun span destination => { span with destination }) ir.parentSpans
    memoryDomains }

theorem emitted_startBuilder (memoryDomains : List ECodeMemoryDomain) :
    Emitted ir required 0 0 0 (startBuilder ir required memoryDomains) :=
  ⟨.nil, .nil, .nil, .nil, IlConstantInterner.new_indexes _⟩

theorem compacted_buildUnchecked {memoryDomains : List ECodeMemoryDomain} {final : ECodeBuilder}
    {value operation arg : Nat} (checks : ECodeIr.DefinitionChecks ir)
    (marks : Marks ir required) (emitted : Emitted ir required value operation arg final)
    (pending : Pending ir required value operation arg [])
    (frame : SameFrame (startBuilder ir required memoryDomains) final)
    (memory : MemoryGrows ir.memoryDomains memoryDomains)
    {edgeArgs : List IlIndexRange} {pool : List IlValueId}
    (edges : EdgesEmitted ir required ir.graph.successors.length edgeArgs pool) :
    Compacted ir required
      { final with edgeArgs, edgeArgValues := pool : ECodeBuilder }.buildUnchecked := by
  have graph : final.graph = ir.graph.rankOps required.opIsRequired := frame.graph
  have edgeTable : { final with edgeArgs, edgeArgValues := pool : ECodeBuilder
      }.buildUnchecked.edgeArgs = edgeArgs := by
    show (if edgeArgs.isEmpty && !final.graph.successors.isEmpty then _ else edgeArgs) = edgeArgs
    have same : final.graph.successors = ir.graph.successors := by
      rw [graph]
      rfl
    apply if_neg
    rw [same, Bool.and_eq_true, List.isEmpty_iff, Bool.not_eq_true', isEmpty_eq_false_iff]
    intro ⟨noArgs, successors⟩
    have length := edges.length
    rw [noArgs] at length
    exact successors (eq_nil_of_length_eq_zero length.symm)
  exact
    { metadata := frame.metadata
      graph
      sourceSpans := frame.sourceSpans
      parentSpans := frame.parentSpans
      ops := emitted.ops.complete pending.ops fun _ => marks.op_beyond checks
      args := emitted.args.complete pending.args fun _ => marks.arg_beyond checks
      values := emitted.values.complete pending.values fun _ => value_beyond
      domains := emitted.domains.complete pending.values fun _ => value_beyond
      edges := by
        rw [edgeTable]
        exact edges
      memory := memory.trans frame.memory }

/-- Compaction returns the compacted tables. -/
theorem rewrite_spec (tables : ECodeIr.TablesFit ir) (ordered : ir.Ordered)
    (narrow : ∀ (index : Nat) (operation : ECodeOp), ir.operations[index]? = some operation →
      ir.RequiredDef (.op index) → operation.IsWideConstant → operation.width ≤ 2 ^ 31 - 8) :
    ∃ required new, Marks ir required ∧ rewrite ir = some new ∧ Compacted ir required new := by
  have checks := tables.definitions
  obtain ⟨required, analysis, marks⟩ := ECodeRequiredDefs.analyse_spec checks ordered
  obtain ⟨wellFormed, bounds, sourceOk, parentOk⟩ := verifyStructure_eq_ok.mp checks.structure_ok
  have ops_le := checks.checked.ops_le
  -- the table of the block arguments
  have rowsExist : ∀ entry ∈ ir.blockArgs.zipIdx.map fun entry : ECodeBlockArg × Nat =>
      (entry.1.block, required.blockArgIsRequired entry.2), entry.1 < ir.graph.blocks.length := by
    intro entry mem
    obtain ⟨arg, argMem, rfl⟩ := mem_map.mp mem
    exact (checks.blockArg_at (mem_zipIdx_iff_getElem?.mp argMem)).1
  obtain ⟨blockArgKept, keptRun, keptHolds⟩ := IlCsr.fromEntries_some rowsExist (by
    rw [length_map, length_zipIdx]
    exact checks.checked.blockArgs_le)
  have rows : ∀ target ∈ ir.graph.successors, blockArgKept.row target =
      (SsaVerifier.argsOf ir target).map required.blockArgIsRequired := by
    intro target mem
    rw [keptHolds.row_eq (ordered.graph.targets target mem), rowOf_zipIdx]
  -- the spans and the graph
  have sourceRun : (IlIndexMapper.fromKept ir.operations.length
      required.opIsRequired).remapSourceSpans ir.sourceSpans = .ok (keptSpans
        required.opIsRequired IlSourceSpan.destination
        (fun span destination => { span with destination }) ir.sourceSpans) :=
    IlIndexMapper.remapSpans_eq_ok ops_le (IlSourceSpan.verify_eq_ok.mp sourceOk).1
  have parentRun : (IlIndexMapper.fromKept ir.operations.length
      required.opIsRequired).remapParentSpans ir.parentSpans = .ok (keptSpans
        required.opIsRequired IlParentSpan.destination
        (fun span destination => { span with destination }) ir.parentSpans) :=
    IlIndexMapper.remapSpans_eq_ok ops_le fun span mem =>
      ((IlParentSpan.verify_eq_ok.mp parentOk).1 span mem).1
  have graphRun : ir.graph.remapOpRanges (.fromKept ir.operations.length required.opIsRequired) =
      .ok (ir.graph.rankOps required.opIsRequired) := IlGraph.remapOpRanges_eq_ok ops_le bounds
  obtain ⟨memoryDomains, memoryRun, memoryGrows, interned⟩ := internMemoryDomains_eq
    ir.memoryDomains (startBuilder ir required [])
  -- the items and the edges
  obtain ⟨final, itemsRun, ⟨value, operation, arg, emitted, pending⟩, frame⟩ :=
    emitItems_spec tables (items ir required) (emitted_startBuilder memoryDomains)
      (pending_items checks ordered marks)
      (fun index old mem wide => narrow index old (mem_items_op.mp mem).1
        ((marks (.op index)).mp (mem_items_op.mp mem).2) wide)
      (by
        rw [startBuilder, ECodeBuilder.new, length_nil, zero_add]
        exact operandCount_items_le checks ordered)
  have noArgs : final.edgeArgs = [] := frame.edgeArgs
  have noPool : final.edgeArgValues = [] := frame.edgeArgValues
  obtain ⟨edgeLength, edgeWithin, -⟩ := verifyEdgeArgs_eq_ok.mp checks.edgeArgs_ok
  obtain ⟨edgeArgs, pool, edgesRun, edges⟩ := emitEdges_spec checks rows ir.graph.successors 0
    final (fun offset => by rw [zero_add])
    (by
      rw [noArgs, noPool]
      exact ⟨rfl, nofun, nofun⟩)
    (by
      rw [noPool, length_nil, zero_add,
        sum_argsForEdge edgeLength fun range mem => (edgeWithin range mem).2]
      exact ordered.edgeArgs_le)
  rw [zero_add] at edges
  refine ⟨required, _, marks, ?_, compacted_buildUnchecked checks marks emitted pending frame
    ⟨interned, fun _ => memoryGrows.nodup .nil⟩ edges⟩
  simp only [rewrite, analysis, keptRun, sourceRun, parentRun, graphRun, some_bind, Except.toOption]
  have run : (items ir required).foldlM
      (emitItem ir (.fromKept ir.values.length (valueKept ir required)))
      (ir.memoryDomains.foldl (fun builder domain => builder.internMemoryDomain domain.space)
        (startBuilder ir required [])) = some final := by
    rw [memoryRun]
    exact itemsRun
  apply (congrArg (Option.bind · _) run).trans
  simp only [Option.bind_some, edgesRun]
  rfl

end ECodeCompaction

end Fugue.Il
