import Fugue.Il.ECode.LiftFrames
import Fugue.Il.ECode.VerifySpec

/-!
# Provenance through lifting

Each step of the lifter is described by the effects that it lifts and the blocks that it finishes
(`Lifts`); the descriptions are composed along the run. No block is lifted twice, so the records tell
where every effect went, and the remapped spans attribute every operation to the instruction that
it was lifted from.
-/

namespace Fugue.Il

open Fugue.Lib Fugue.Ir List IlSourceSpan

theorem IlIndexRange.Ascending.append : ∀ {left right : List IlIndexRange} {low middle high : Nat},
    Ascending low left middle → Ascending middle right high → Ascending low (left ++ right) high
  | [], _, _, _, _, first, second => second.lower first
  | _ :: _, _, _, _, _, ⟨start, ordered, rest⟩, second => ⟨start, ordered, rest.append second⟩

theorem IlIndexRange.Ascending.stop_le : ∀ {ranges : List IlIndexRange} {low high : Nat},
    Ascending low ranges high → ∀ range ∈ ranges, range.stop ≤ high
  | _ :: _, _, _, ⟨_, _, rest⟩, range, mem => by
    rcases mem_cons.mp mem with rfl | later
    · exact rest.le
    · exact rest.stop_le range later

def setRanges (ranges : List IlIndexRange) (entries : List (Nat × IlIndexRange)) :
    List IlIndexRange :=
  entries.foldl (fun ranges entry => ranges.set entry.1 entry.2) ranges

theorem length_setRanges (ranges : List IlIndexRange) (entries : List (Nat × IlIndexRange)) :
    (setRanges ranges entries).length = ranges.length := by
  induction entries generalizing ranges with
  | nil => rfl
  | cons entry entries ih =>
    change (setRanges _ entries).length = _
    rw [ih, length_set]

variable {entries : List (Nat × IlIndexRange)}

theorem setRanges_of_notMem {index : Nat} (ranges : List IlIndexRange)
    (absent : index ∉ entries.map Prod.fst) :
    (setRanges ranges entries)[index]? = ranges[index]? := by
  induction entries generalizing ranges with
  | nil => rfl
  | cons entry entries ih =>
    rw [map_cons, mem_cons, not_or] at absent
    change (setRanges _ entries)[index]? = _
    rw [ih _ absent.2, getElem?_set_ne (Ne.symm absent.1)]

theorem setRanges_of_mem {ranges : List IlIndexRange}
    (nodup : (entries.map Prod.fst).Nodup) {index : Nat} {range : IlIndexRange}
    (mem : (index, range) ∈ entries) (lt : index < ranges.length) :
    (setRanges ranges entries)[index]? = some range := by
  induction entries generalizing ranges with
  | nil => cases mem
  | cons entry entries ih =>
    obtain ⟨fresh, nodup⟩ := nodup_cons.mp nodup
    change (setRanges _ entries)[index]? = _
    rcases mem_cons.mp mem with rfl | later
    · rw [setRanges_of_notMem _ fresh, getElem?_set_self lt]
    · exact ih nodup later (by rwa [length_set])

theorem mem_setRanges {ranges : List IlIndexRange}
    {range : IlIndexRange} (mem : range ∈ setRanges ranges entries) :
    range ∈ ranges ∨ range ∈ entries.map Prod.snd := by
  induction entries generalizing ranges with
  | nil => exact .inl mem
  | cons entry entries ih =>
    rw [map_cons, mem_cons]
    rcases ih mem with before | later
    · rcases mem_or_eq_of_mem_set before with old | new
      · exact .inl old
      · exact .inr (.inl new)
    · exact .inr (.inr later)

/-- The effects with these indices have been lifted, in this order, and these blocks finished. -/
structure Lifting.Lifts (effects : List Nat) (finished : List IlBlockId) (s t : Lifting) : Prop where
  history : ∃ entries : List (Nat × IlIndexRange), entries.map Prod.fst = effects ∧
    t.lifted = s.lifted ++ entries ∧
    IlIndexRange.Ascending s.opCount (entries.map Prod.snd) t.opCount ∧
    (∀ entry ∈ entries, entry.2.start < entry.2.stop ∧ entry.1 < s.opRanges.ranges.length) ∧
    t.opRanges.ranges = setRanges s.opRanges.ranges entries
  finished : ∀ block ∈ finished, t.blocks[block]? ≠ some none
  kept : ∀ block : Nat, s.blocks[block]? ≠ some none → t.blocks[block]? ≠ some none

namespace Lifting.Lifts

theorem trans {effects effects' : List Nat} {finished finished' : List IlBlockId}
    {s t u : Lifting} (left : Lifts effects finished s t) (right : Lifts effects' finished' t u) :
    Lifts (effects ++ effects') (finished ++ finished') s u := by
  obtain ⟨entries, rfl, lifted, ascending, nonempty, ranges⟩ := left.history
  obtain ⟨entries', rfl, lifted', ascending', nonempty', ranges'⟩ := right.history
  constructor
  · refine ⟨entries ++ entries', map_append, ?_, ?_, ?_, ?_⟩
    · rw [lifted', lifted, append_assoc]
    · rw [map_append]
      exact ascending.append ascending'
    · intro entry mem
      rcases mem_append.mp mem with mem | mem
      · exact nonempty entry mem
      · rw [ranges, length_setRanges] at nonempty'
        exact nonempty' entry mem
    · rw [ranges', ranges]
      exact foldl_append.symm
  · intro block mem
    rcases mem_append.mp mem with mem | mem
    · exact right.kept block (left.finished block mem)
    · exact right.finished block mem
  · exact fun block done => right.kept block (left.kept block done)

theorem of_emits {s t : Lifting} (emits : Emits s t) : Lifts [] [] s t where
  history := ⟨[], rfl, by rw [emits.lifted, append_nil], emits.count, nofun,
    by rw [emits.opRanges]; rfl⟩
  finished := nofun
  kept := by rw [emits.blocks]; exact fun _ done => done

theorem emits_then {effects : List Nat} {finished : List IlBlockId} {s t u : Lifting}
    (left : Emits s t) (right : Lifts effects finished t u) : Lifts effects finished s u :=
  (of_emits left).trans right

theorem then_emits {effects : List Nat} {finished : List IlBlockId} {s t u : Lifting}
    (left : Lifts effects finished s t) (right : Emits t u) : Lifts effects finished s u := by
  have whole := left.trans (of_emits right)
  rwa [append_nil, append_nil] at whole

end Lifting.Lifts

namespace PCodeToECodeSsaLifter

open Lifting Stateful

variable {lifter : PCodeToECodeSsaLifter} {rounds : Nat}

def blockOps (lifter : PCodeToECodeSsaLifter) (block : IlBlockId) : List Nat :=
  match lifter.graph.blocks[block]? with
  | some record => List.range' record.ops.start record.ops.len
  | none => []

section Compose

variable {α β : Type} {x : LiftM α} {f : α → LiftM β} {effects : List Nat}
  {finished : List IlBlockId}

theorem lifts_after (first : Keeps Emits x) (second : ∀ a, Keeps (Lifts effects finished) (f a)) :
    Keeps (Lifts effects finished) (x >>= f) :=
  first.comp second fun _ _ _ => Lifts.emits_then

theorem lifts_append {effects' : List Nat} {finished' : List IlBlockId}
    (first : Keeps (Lifts effects finished) x)
    (second : ∀ a, Keeps (Lifts effects' finished') (f a)) :
    Keeps (Lifts (effects ++ effects') (finished ++ finished')) (x >>= f) :=
  first.comp second fun _ _ _ => Lifts.trans

theorem lifts_finish (first : Keeps (Lifts effects []) x)
    (second : ∀ a, Keeps (Lifts [] finished) (f a)) :
    Keeps (Lifts effects finished) (x >>= f) := by
  have whole := lifts_append first second
  rwa [append_nil, nil_append] at whole

end Compose

theorem liftOpAt_lifts (index : Nat) : Keeps (Lifts [index] []) (lifter.liftOpAt rounds index) := by
  have record : Keeps (Lifts [index] []) (do
      let start := (← get).opCount
      let op ← .ofOption lifter.source.ops[index]?
      lifter.liftOp rounds op
      let stop := (← get).opCount
      let range ← .ofExcept (IlIndexRange.new start stop)
      let opRanges ← .ofExcept ((← get).opRanges.setRange index range)
      modify fun s => { s with opRanges, lifted := s.lifted ++ [(index, range)] }) := by
    intro s _ t run
    obtain ⟨op, -, run⟩ := returns_ofOption_bind.mp (returns_get_bind.mp run)
    obtain ⟨_, u, lifted, run⟩ := returns_bind.mp run
    obtain ⟨range, newRun, run⟩ := returns_ofExcept_bind.mp (returns_get_bind.mp run)
    obtain ⟨opRanges, setRun, run⟩ := returns_ofExcept_bind.mp (returns_get_bind.mp run)
    rw [returns_modify.mp run]
    have emits := liftOp_emits op _ _ _ lifted
    obtain ⟨le, -, rfl⟩ := IlIndexRange.new_eq_ok.mp newRun
    unfold IlIndexRangeMap.setRange at setRun
    split at setRun
    · cases setRun
    · rename_i inside
      cases setRun
      rw [emits.opRanges] at inside ⊢
      refine ⟨⟨[(index, ⟨_, _⟩)], rfl, congrArg (· ++ [(index, _)]) emits.lifted,
        ⟨le_rfl, le, le_rfl⟩, ?_, rfl⟩, nofun, ?_⟩
      · intro entry mem
        rw [mem_singleton.mp mem]
        exact ⟨emits.some, not_le.mp inside⟩
      · rw [emits.blocks]
        exact fun _ done => done
  unfold liftOpAt
  split
  · exact lifts_after resetExpressionCache_emits fun _ => record
  · exact record

theorem liftOps_lifts (indices : List Nat) :
    Keeps (Lifts indices []) (indices.forM (lifter.liftOpAt rounds)) := by
  induction indices with
  | nil =>
    intro s _ t run
    obtain ⟨-, rfl⟩ := returns_pure.mp run
    exact .of_emits (Std.Refl.refl t)
  | cons index indices ih => exact lifts_append (liftOpAt_lifts index) fun _ => ih

theorem finishBlock_lifts (block : IlBlockId) (record : IlBlock) :
    Keeps (Lifts [] [block])
      (modify fun s => { s with blocks := s.blocks.set block (some record) } : LiftM Unit) := by
  refine Keeps.modify fun s => ⟨⟨[], rfl, (append_nil _).symm, le_rfl, nofun, rfl⟩, ?_, ?_⟩
  · grind
  · grind

theorem liftBlock_lifts (block : IlBlockId) :
    Keeps (Lifts (lifter.blockOps block) [block]) (lifter.liftBlock rounds block) := by
  refine lifts_after Keeps.get fun s => lifts_after (Keeps.ofOption _) fun args => ?_
  refine lifts_after (Keeps.forM fun arg _ => define_emits _ _) fun _ => ?_
  intro s _ t run
  obtain ⟨sourceBlock, found, rest⟩ := returns_ofExcept_bind.mp run
  have ops : lifter.blockOps block = List.range' sourceBlock.ops.start sourceBlock.ops.len := by
    rw [blockOps, okOr_eq_ok.mp found]
  rw [ops]
  refine (?_ : Keeps (Lifts _ [block]) _) _ _ _ rest
  refine lifts_after Keeps.get fun before => lifts_after Keeps.get fun _ => ?_
  have body : Keeps (Lifts (List.range' sourceBlock.ops.start sourceBlock.ops.len) [block]) (do
      resetExpressionCache
      (List.range' sourceBlock.ops.start sourceBlock.ops.len).forM (lifter.liftOpAt rounds)
      lifter.liftEdgeArgs sourceBlock
      let stop := (← get).opCount
      let ops ← .ofExcept (IlIndexRange.new before.opCount stop)
      modify fun s => { s with blocks := s.blocks.set block (some { sourceBlock with ops }) }) := by
    refine lifts_after resetExpressionCache_emits fun _ => ?_
    refine lifts_finish (liftOps_lifts _) fun _ => lifts_after (liftEdgeArgs_emits _) fun _ => ?_
    refine lifts_after Keeps.get fun after => lifts_after (Keeps.ofExcept _) fun ops => ?_
    exact finishBlock_lifts _ _
  split
  · exact lifts_after allocateInputValues_emits fun _ => body
  · exact body

theorem liftEvents_lifts (events : List IlDominanceEvent) (checkpoints : List Nat) :
    Keeps (Lifts ((IlDominanceEvent.entered events).flatMap lifter.blockOps)
      (IlDominanceEvent.entered events)) (lifter.liftEvents rounds events checkpoints) := by
  induction events generalizing checkpoints with
  | nil =>
    intro s _ t run
    obtain ⟨-, rfl⟩ := returns_pure.mp run
    exact .of_emits (Std.Refl.refl t)
  | cons event events ih =>
    cases event with
    | enter block =>
      refine lifts_after Keeps.get fun s => lifts_after (modify_emits ?_ ?_ ?_ ?_) fun _ => ?_
      case refine_5 => exact lifts_append (liftBlock_lifts block) fun _ => ih _
      all_goals exact fun _ => rfl
    | exit block =>
      cases checkpoints with
      | nil => exact Keeps.panicked
      | cons checkpoint checkpoints =>
        refine lifts_after (modify_emits ?_ ?_ ?_ ?_) fun _ => ih _
        all_goals exact fun _ => rfl

variable {s t : Lifting}

variable {a : Unit}

theorem liftTree_lifts (inRange : GraphInRange lifter.graph.blocks lifter.graph.successors)
    {entry : IlBlockId} (entryLt : entry < lifter.graph.blocks.length)
    (run : Returns (lifter.liftTree rounds entry) s a t) :
    ∃ finished, finished.Nodup ∧ Lifts (finished.flatMap lifter.blockOps) finished s t := by
  obtain ⟨dominance, computed, run⟩ := returns_ofOption_bind.mp run
  obtain ⟨result, -, run⟩ := returns_ofOption_bind.mp run
  obtain ⟨domains, -, run⟩ := returns_ofExcept_bind.mp run
  obtain ⟨_, u, placed, run⟩ := returns_bind.mp run
  obtain ⟨inputs, -, run⟩ := returns_ofOption_bind.mp run
  obtain ⟨events, walk, run⟩ := returns_ofOption_bind.mp run
  have exact_ := IlDominance.fromBlocks_sound inRange entryLt computed
  refine ⟨IlDominanceEvent.entered events, exact_.nodup_entered inRange entryLt walk, ?_⟩
  refine .emits_then (placeBlockArgs_emits domains dominance _ _ _ placed) ?_
  refine lifts_after (modify_emits ?_ ?_ ?_ ?_) (fun _ => liftEvents_lifts events []) _ _ _ run
  all_goals exact fun _ => rfl

theorem liftRemaining_lifts {index : Nat}
    (run : Returns (lifter.liftRemaining rounds index) s a t) :
    Emits s t ∨ s.blocks[index]? = some none ∧ Lifts (lifter.blockOps index) [index] s t := by
  obtain ⟨blockId, id, run⟩ := returns_ofExcept_bind.mp run
  obtain ⟨rfl, -⟩ := tryFromIndex_eq_ok id
  obtain ⟨block, found, run⟩ := returns_ofOption_bind.mp (returns_get_bind.mp run)
  cases block with
  | some record => exact .inl (Keeps.pure () _ _ _ run)
  | none =>
    refine .inr ⟨found, lifts_after (modify_emits ?_ ?_ ?_ ?_) (fun _ => liftBlock_lifts blockId)
      _ _ _ run⟩
    all_goals exact fun _ => rfl

theorem liftRemainings_lifts (indices : List Nat)
    (run : Returns (indices.forM (lifter.liftRemaining rounds)) s a t) :
    ∃ finished, finished.Sublist indices ∧ (∀ block ∈ finished, s.blocks[block]? = some none) ∧
      Lifts (finished.flatMap lifter.blockOps) finished s t := by
  induction indices generalizing s with
  | nil =>
    obtain ⟨-, rfl⟩ := returns_pure.mp run
    exact ⟨[], .slnil, nofun, .of_emits (Std.Refl.refl t)⟩
  | cons index indices ih =>
    obtain ⟨_, u, first, rest⟩ := returns_bind.mp run
    obtain ⟨finished, sub, unfinished, lifts⟩ := ih rest
    rcases liftRemaining_lifts first with emits | ⟨found, lifted⟩
    · refine ⟨finished, sub.cons _, ?_, lifts.emits_then emits⟩
      rw [← emits.blocks]
      exact unfinished
    · refine ⟨index :: finished, sub.cons_cons _, ?_, lifted.trans lifts⟩
      refine forall_mem_cons.mpr ⟨found, fun block mem => ?_⟩
      by_contra done
      exact lifted.kept block done (unfinished block mem)

theorem setBlocks_returns (run : Returns lifter.setBlocks s a t) :
    Emits s t ∧ ∃ ranges, lifter.graph.setOpRanges ranges = .ok t.builder.graph := by
  obtain ⟨_, u, edges, run⟩ := returns_bind.mp (returns_get_bind.mp run)
  have emits : Emits s u := Keeps.forM (fun args _ =>
    (emitting_emits fun _ => ECodeBuilder.emitEdgeArgs_operations args).bind fun _ =>
      Keeps.pure ()) _ _ _ edges
  obtain ⟨blocks, -, run⟩ := returns_ofOption_bind.mp (returns_get_bind.mp run)
  obtain ⟨graph, moved, run⟩ := returns_ofExcept_bind.mp run
  rw [returns_modify.mp run]
  exact ⟨⟨emits.count, emits.lifted, emits.opRanges, emits.blocks⟩, _, moved⟩

theorem setSpans_returns (run : Returns lifter.setSpans s a t) :
    t.lifted = s.lifted ∧ t.builder.operations = s.builder.operations ∧
      t.builder.graph = s.builder.graph ∧
      s.opRanges.remapSourceSpans lifter.sourceSpans = .ok t.builder.sourceSpans := by
  obtain ⟨sourceSpans, remapped, run⟩ := returns_ofExcept_bind.mp (returns_get_bind.mp run)
  have run := returns_get_bind.mp (returns_modify_bind.mp run)
  obtain ⟨parentSpans, -, run⟩ := returns_ofExcept_bind.mp run
  rw [returns_modify.mp run]
  exact ⟨rfl, rfl, rfl, remapped⟩

theorem mem_blockOps {block : IlBlockId} {index : Nat} (mem : index ∈ lifter.blockOps block) :
    ∃ record, lifter.graph.blocks[block]? = some record ∧ record.ops.Contains index := by
  unfold blockOps at mem
  split at mem
  · rename_i record found
    refine ⟨record, found, ?_⟩
    rw [mem_range'_1] at mem
    unfold IlIndexRange.Contains
    unfold IlIndexRange.len at mem
    omega
  · cases mem

variable {finished : List IlBlockId}

theorem nodup_blockOps (apart : lifter.graph.blocks.Pairwise fun a b => IlGraph.Apart a.ops b.ops)
    (nodup : finished.Nodup) :
    (finished.flatMap lifter.blockOps).Nodup := by
  refine nodup_flatMap.mpr ⟨fun block _ => ?_, nodup.imp fun {a b} ne index inA inB => ?_⟩
  · unfold blockOps
    split
    · exact nodup_range'
    · exact nodup_nil
  · obtain ⟨recordA, foundA, low, high⟩ := mem_blockOps inA
    obtain ⟨recordB, foundB, low', high'⟩ := mem_blockOps inB
    obtain ⟨ltA, rfl⟩ := List.getElem?_eq_some_iff.mp foundA
    obtain ⟨ltB, rfl⟩ := List.getElem?_eq_some_iff.mp foundB
    have disjoint := pairwise_iff_getElem.mp apart
    rcases Nat.lt_or_gt_of_ne ne with lt | gt
    · have := disjoint a b ltA ltB lt
      unfold IlGraph.Apart at this
      omega
    · have := disjoint b a ltB ltA gt
      unfold IlGraph.Apart at this
      omega

theorem inRange_of_setOpRanges {graph moved : IlGraph} {ranges : List IlIndexRange}
    (run : graph.setOpRanges ranges = .ok moved) (wf : moved.WellFormed) :
    GraphInRange graph.blocks graph.successors := by
  obtain ⟨counted, eq⟩ := andThen_eq_ok.mp run
  cases eq
  have length : ranges.length = graph.blocks.length := by simpa using counted
  have same : ∀ block ∈ graph.blocks, ∃ other ∈ graph.blocks.zipWith
      (fun block ops => { block with ops }) ranges, other.successors = block.successors := by
    intro block mem
    obtain ⟨index, lt, rfl⟩ := getElem_of_mem mem
    have inside : index <
        (graph.blocks.zipWith (fun block ops => { block with ops }) ranges).length := by
      rw [length_zipWith]
      omega
    exact ⟨_, getElem_mem inside, by rw [getElem_zipWith]⟩
  constructor
  · intro block mem
    obtain ⟨other, otherMem, successors⟩ := same block mem
    rw [← successors]
    exact wf.inRange.ranges other otherMem
  · intro block mem target targetMem
    obtain ⟨other, otherMem, successors⟩ := same block mem
    rw [← successors] at targetMem
    have lt := wf.inRange.targets other otherMem target targetMem
    rwa [length_zipWith, length, Nat.min_self] at lt

variable {builder : ECodeBuilder}

theorem build_returns {ir : ECodeIr} (run : builder.build = some (.ok ir)) :
    ir = builder.buildUnchecked ∧ builder.buildUnchecked.verifyTables = .ok () := by
  obtain ⟨result, verified, run⟩ := Option.bind_eq_some_iff.mp run
  cases result with
  | error error => cases run
  | ok _ =>
    cases run
    refine ⟨rfl, ?_⟩
    unfold ECodeIr.verify at verified
    split at verified
    · cases verified
    · rename_i ok
      exact ok

theorem run_lifts (apart : lifter.graph.blocks.Pairwise fun a b => IlGraph.Apart a.ops b.ops)
    {ir : ECodeIr} (run : Returns (lifter.run rounds) s ir t) :
    ∃ effects finished u, effects.Nodup ∧ Lifts effects finished s u ∧ t.lifted = u.lifted ∧
      ir.operations.length = u.opCount ∧
      u.opRanges.remapSourceSpans lifter.sourceSpans = .ok ir.sourceSpans := by
  unfold PCodeToECodeSsaLifter.run at run
  split at run
  · rename_i entry entryEq
    obtain ⟨_, v, lifted, run⟩ := returns_bind.mp run
    obtain ⟨result, built, run⟩ := returns_ofOption_bind.mp (returns_get_bind.mp run)
    obtain ⟨rfl, rfl⟩ := returns_ofExcept.mp run
    obtain ⟨rfl, verified⟩ := build_returns built
    obtain ⟨_, s₁, tree, lifted⟩ := returns_bind.mp lifted
    obtain ⟨_, s₂, remaining, lifted⟩ := returns_bind.mp lifted
    obtain ⟨_, s₃, blocks, spans⟩ := returns_bind.mp lifted
    obtain ⟨emits, ranges, moved⟩ := setBlocks_returns blocks
    obtain ⟨sameLifted, operations, graph, remapped⟩ := setSpans_returns spans
    have wf := (ECodeIr.definitionChecks_of_tables verified).wellFormed
    have inRange : GraphInRange lifter.graph.blocks lifter.graph.successors := by
      apply inRange_of_setOpRanges moved
      rw [← graph]
      exact wf
    have nonempty : lifter.graph.blocks ≠ [] := by
      intro empty
      simp [IlGraph.entryBlock, empty] at entryEq
    obtain ⟨_, found, entryLt⟩ := ECodeIr.entryBlock_eq_some nonempty
    rw [entryEq] at found
    cases found
    obtain ⟨first, firstNodup, firstLifts⟩ := liftTree_lifts inRange entryLt tree
    obtain ⟨second, sub, unfinished, secondLifts⟩ := liftRemainings_lifts _ remaining
    have nodup : (first ++ second).Nodup := by
      refine nodup_append.mpr ⟨firstNodup, sub.nodup nodup_range, ?_⟩
      rintro block early _ late rfl
      exact firstLifts.finished block early (unfinished block late)
    refine ⟨_, _, s₃, ?_, (firstLifts.trans secondLifts).then_emits emits, sameLifted, ?_, remapped⟩
    · rw [← flatMap_append]
      exact nodup_blockOps apart nodup
    · exact congrArg List.length operations
  · obtain ⟨_, v, lifted, run⟩ := returns_bind.mp run
    obtain ⟨result, built, run⟩ := returns_ofOption_bind.mp (returns_get_bind.mp run)
    obtain ⟨rfl, rfl⟩ := returns_ofExcept.mp run
    obtain ⟨rfl, -⟩ := build_returns built
    obtain ⟨_, s₁, ops, lifted⟩ := returns_bind.mp lifted
    obtain ⟨sameLifted, operations, -, remapped⟩ :=
      setSpans_returns (returns_modify_bind.mp lifted)
    refine ⟨_, _, s₁, nodup_range, liftOps_lifts _ _ _ _ ops, sameLifted, ?_, remapped⟩
    exact congrArg List.length operations

variable {effects : List Nat} {t : Lifting}

theorem sends_iff (nodup : effects.Nodup) (lifts : Lifts effects finished (lifter.start builder) t)
    (index k : Nat) :
    t.opRanges.Sends index k ↔ ∃ range, (index, range) ∈ t.lifted ∧ range.Contains k := by
  obtain ⟨entries, rfl, lifted, -, inside, ranges⟩ := lifts.history
  rw [lifted]
  unfold IlIndexRangeMap.Sends
  rw [ranges]
  constructor
  · rintro ⟨range, found, contains⟩
    by_cases mem : index ∈ entries.map Prod.fst
    · obtain ⟨⟨_, other⟩, entryMem, rfl⟩ := mem_map.mp mem
      rw [setRanges_of_mem nodup entryMem (inside _ entryMem).2] at found
      cases found
      exact ⟨_, entryMem, contains⟩
    · -- an effect that was not lifted has the empty range
      rw [setRanges_of_notMem _ mem] at found
      have unmapped := eq_of_mem_replicate (mem_of_getElem? found)
      rw [unmapped] at contains
      exact absurd contains.2 (Nat.not_lt_zero k)
  · rintro ⟨range, mem, contains⟩
    exact ⟨range, setRanges_of_mem nodup mem (inside _ mem).2, contains⟩

theorem separate_lifted (lifts : Lifts effects finished (lifter.start builder) t) :
    IlIndexRange.Separate (t.lifted.map Prod.snd) ∧
      ∀ entry ∈ t.lifted, entry.2.stop ≤ t.opCount := by
  obtain ⟨entries, -, lifted, ascending, inside, -⟩ := lifts.history
  rw [lifted]
  refine ⟨⟨fun range mem => ?_, ascending.pairwise⟩, fun entry mem => ?_⟩
  · obtain ⟨entry, entryMem, rfl⟩ := mem_map.mp mem
    exact (inside entry entryMem).1
  · exact ascending.stop_le entry.2 (mem_map_of_mem mem)

theorem unshared_of_lifts
    (nodup : effects.Nodup) (lifts : Lifts effects finished (lifter.start builder) t) :
    t.opRanges.Unshared := by
  intro i j k sentI sentJ
  obtain ⟨left, leftMem, inLeft⟩ := (sends_iff nodup lifts i k).mp sentI
  obtain ⟨right, rightMem, inRight⟩ := (sends_iff nodup lifts j k).mp sentJ
  exact congrArg Prod.fst ((separate_lifted lifts).1.eq_of_contains leftMem rightMem inLeft inRight)

theorem ranges_ordered (lifts : Lifts effects finished (lifter.start builder) t) :
    ∀ range ∈ t.opRanges.ranges, range.start ≤ range.stop := by
  obtain ⟨entries, -, -, -, inside, ranges⟩ := lifts.history
  intro range mem
  rw [ranges] at mem
  rcases mem_setRanges mem with unmapped | recorded
  · rw [eq_of_mem_replicate unmapped]
    exact le_refl 0
  · obtain ⟨entry, entryMem, rfl⟩ := mem_map.mp recorded
    exact (inside entry entryMem).1.le

/-- In a lift of a graph whose blocks have no operation in common, the new spans are sorted, disjoint
and in bounds. An operation that an effect emitted has a span, which stands for the span of the effect;
an operation that no effect emitted has none. -/
theorem lift_keeps_provenance (lifter : PCodeToECodeSsaLifter) (rounds : Nat)
    (builder : ECodeBuilder) (ir : ECodeIr) (final : Lifting)
    (graphApart : lifter.graph.blocks.Pairwise fun a b => IlGraph.Apart a.ops b.ops)
    (spansApart : lifter.sourceSpans.Pairwise fun a b => a.destination.stop ≤ b.destination.start)
    (run : lifter.lift rounds builder = some (.ok (ir, final))) :
    IlIndexRange.Separate (ir.sourceSpans.map destination) ∧
      (∀ span ∈ ir.sourceSpans, span.destination.stop ≤ ir.operations.length) ∧
      (∀ entry ∈ final.lifted, ∀ span ∈ lifter.sourceSpans, span.destination.Contains entry.1 →
        ∀ operation, entry.2.Contains operation →
          ∃ found, find ir.sourceSpans operation = some found ∧ found.Subsumes span) ∧
      ∀ operation, (∀ entry ∈ final.lifted, ¬ entry.2.Contains operation) →
        find ir.sourceSpans operation = none := by
  obtain ⟨effects, finished, t, nodup, lifts, sameLifted, count, remapped⟩ :=
    run_lifts graphApart (run : Returns (lifter.run rounds) (lifter.start builder) ir final)
  obtain ⟨separate, kept, nothingElse⟩ := IlIndexRangeMap.remapSourceSpans_spec
    (ranges_ordered lifts) (unshared_of_lifts nodup lifts) spansApart remapped
  -- whatever a span covers was recorded
  have recorded : ∀ found ∈ ir.sourceSpans, ∀ k, found.destination.Contains k →
      ∃ entry ∈ t.lifted, entry.2.Contains k := by
    intro found mem k contains
    obtain ⟨_, -, index, -, sent⟩ := nothingElse found mem k contains
    obtain ⟨range, entryMem, inside⟩ := (sends_iff nodup lifts index k).mp sent
    exact ⟨(index, range), entryMem, inside⟩
  rw [sameLifted]
  refine ⟨separate, ?_, ?_, ?_⟩
  · intro span mem
    have nonempty := separate.nonempty _ (mem_map_of_mem mem)
    obtain ⟨entry, entryMem, inside⟩ := recorded span mem (span.destination.stop - 1)
      ⟨by omega, by omega⟩
    have bounded := (separate_lifted lifts).2 entry entryMem
    have := inside.2
    omega
  · intro entry entryMem span mem inside operation emitted
    have sent := (sends_iff nodup lifts entry.1 operation).mpr ⟨entry.2, entryMem, emitted⟩
    obtain ⟨found, foundMem, covers, subsumes⟩ := kept span mem entry.1 operation inside sent
    exact ⟨found, (findDestinationSpan_eq_some separate).mpr ⟨foundMem, covers⟩, subsumes⟩
  · intro operation outside
    by_contra some_
    obtain ⟨found, foundEq⟩ := Option.ne_none_iff_exists'.mp some_
    obtain ⟨mem, contains⟩ := (findDestinationSpan_eq_some separate).mp foundEq
    obtain ⟨entry, entryMem, inside⟩ := recorded found mem operation contains
    exact outside entry entryMem inside

/-- Two traps of two instructions, in two blocks without edges. -/
def twoTraps (first second : IlIndexRange) : PCodeToECodeSsaLifter where
  source :=
    { callPreservedRegisters := []
      expressions := []
      expressionOperands := []
      ops := List.replicate 2 ⟨.trap, .empty, none, 0, none, none⟩
      opOperands := [] }
  graph :=
    { blocks := [⟨first, .empty, ⟨true, true⟩⟩, ⟨second, .empty, ⟨false, true⟩⟩]
      successors := []
      successorKinds := []
      blockSources := [] }
  sourceSpans := [⟨⟨0, 1⟩, ⟨0, 16⟩, 0, 1⟩, ⟨⟨1, 2⟩, ⟨0, 20⟩, 0, 1⟩]
  parentSpans := []

/-- The spans of the lifted program and the records. -/
def report (lifter : PCodeToECodeSsaLifter) :
    Option (Except IlError (List IlSourceSpan × List (Nat × IlIndexRange))) :=
  (lifter.lift 1 (.new ⟨0, 0⟩ lifter.graph)).map fun result =>
    result.map fun (ir, final) => (ir.sourceSpans, final.lifted)

theorem lift_of_report {spans : List IlSourceSpan} {lifted : List (Nat × IlIndexRange)}
    (run : report lifter = some (.ok (spans, lifted))) :
    ∃ ir final, lifter.lift 1 (.new ⟨0, 0⟩ lifter.graph) = some (.ok (ir, final)) ∧
      ir.sourceSpans = spans ∧ final.lifted = lifted := by
  obtain ⟨result, found, mapped⟩ := Option.map_eq_some_iff.mp run
  cases result with
  | error error => cases mapped
  | ok pair =>
    cases mapped
    exact ⟨pair.1, pair.2, found, rfl, rfl⟩

/-- The second effect is emitted first, and its span follows it. -/
theorem lift_keeps_provenance_twoTraps :
    ∃ ir final, (twoTraps ⟨1, 2⟩ ⟨0, 1⟩).lift 1 (.new ⟨0, 0⟩ (twoTraps ⟨1, 2⟩ ⟨0, 1⟩).graph) =
        some (.ok (ir, final)) ∧ (1, ⟨0, 1⟩) ∈ final.lifted ∧
      ∃ found, find ir.sourceSpans 0 = some found ∧
        found.Subsumes ⟨⟨1, 2⟩, ⟨0, 20⟩, 0, 1⟩ := by
  have reported : report (twoTraps ⟨1, 2⟩ ⟨0, 1⟩) =
      some (.ok ([⟨⟨0, 1⟩, ⟨0, 20⟩, 0, 1⟩, ⟨⟨1, 2⟩, ⟨0, 16⟩, 0, 1⟩],
        [(1, ⟨0, 1⟩), (0, ⟨1, 2⟩)])) := by
    decide +kernel
  obtain ⟨ir, final, run, -, lifted⟩ := lift_of_report reported
  have recorded : (1, ⟨0, 1⟩) ∈ final.lifted := by simp [lifted]
  obtain ⟨-, -, kept, -⟩ := lift_keeps_provenance _ 1 _ ir final
    (by simp [twoTraps, IlGraph.Apart]) (by simp [twoTraps]) run
  exact ⟨ir, final, run, recorded, kept _ recorded ⟨⟨1, 2⟩, ⟨0, 20⟩, 0, 1⟩ (by simp [twoTraps])
    ⟨le_rfl, Nat.one_lt_two⟩ 0 ⟨le_rfl, Nat.one_pos⟩⟩

/-- With an effect in two blocks, what the first of them emitted has no span. -/
theorem lift_loses_provenance_shared_effect :
    (twoTraps ⟨0, 1⟩ ⟨0, 1⟩).sourceSpans.Pairwise
        (fun a b => a.destination.stop ≤ b.destination.start) ∧
      ∃ ir final, (twoTraps ⟨0, 1⟩ ⟨0, 1⟩).lift 1 (.new ⟨0, 0⟩ (twoTraps ⟨0, 1⟩ ⟨0, 1⟩).graph) =
          some (.ok (ir, final)) ∧
        ∃ entry ∈ final.lifted, ∃ span ∈ (twoTraps ⟨0, 1⟩ ⟨0, 1⟩).sourceSpans,
          span.destination.Contains entry.1 ∧ ∃ operation, entry.2.Contains operation ∧
            find ir.sourceSpans operation = none := by
  have reported : report (twoTraps ⟨0, 1⟩ ⟨0, 1⟩) =
      some (.ok ([⟨⟨1, 2⟩, ⟨0, 16⟩, 0, 1⟩], [(0, ⟨0, 1⟩), (0, ⟨1, 2⟩)])) := by
    decide +kernel
  obtain ⟨ir, final, run, spans, lifted⟩ := lift_of_report reported
  refine ⟨by simp [twoTraps], ir, final, run, (0, ⟨0, 1⟩), by simp [lifted],
    ⟨⟨0, 1⟩, ⟨0, 16⟩, 0, 1⟩, by simp [twoTraps], ⟨le_rfl, Nat.one_pos⟩, 0, ⟨le_rfl, Nat.one_pos⟩, ?_⟩
  rw [spans]
  decide +kernel

end PCodeToECodeSsaLifter

end Fugue.Il
