import Fugue.Il.Common.Structure
import Fugue.Lib.Rank

/-!
# Renumbering by what is kept

`IlIndexMapper` (`fugue-core/src/il/common/pool.rs:69-165`) and the renumbering of graphs and spans.
A mapper that is made from the kept indices maps an index to its rank.
-/

namespace Fugue.Il

open Fugue.Lib List

/-- `IlIndexMapper` (`pool.rs:69-72`): the new index of every old one, and of the end. -/
structure IlIndexMapper where
  indices : List Nat
  deriving DecidableEq, Repr

namespace IlIndexMapper

/-- `from_kept` (`pool.rs:87-95`). -/
def fromKept (len : Nat) (kept : Nat → Bool) : IlIndexMapper :=
  ⟨(List.range len).foldl (fun indices index =>
    indices ++ [indices.getD index 0 + (kept index).toNat]) [0]⟩

/-- `source_len` (`pool.rs:97-99`). -/
def sourceLen (map : IlIndexMapper) : Nat := map.indices.length - 1

/-- `map_index` (`pool.rs:101-108`); `none` is the `expect` on an index beyond the end. -/
def mapIndex (map : IlIndexMapper) (index : Nat) : Option Nat := map.indices[index]?

/-- `checked_map_range` (`pool.rs:110-113`). -/
def checkedMapRange (map : IlIndexMapper) (range : IlIndexRange) : Except IlError IlIndexRange := do
  range.verifyBounds map.sourceLen
  IlIndexRange.new (map.indices.getD range.start 0) (map.indices.getD range.stop 0)

/-- The common loop of `remap_source_spans` and `remap_parent_spans`: a span whose destination
is empty after the renumbering goes. -/
def remapSpans {Span : Type} (map : IlIndexMapper) (destination : Span → IlIndexRange)
    (withDestination : Span → IlIndexRange → Span) : List Span → Except IlError (List Span)
  | [] => .ok []
  | span :: spans => do
    let range ← map.checkedMapRange (destination span)
    let rest ← map.remapSpans destination withDestination spans
    return if range.isEmpty then rest else withDestination span range :: rest

/-- `remap_source_spans` (`pool.rs:133-151`). -/
def remapSourceSpans (map : IlIndexMapper) : List IlSourceSpan → Except IlError (List IlSourceSpan) :=
  map.remapSpans IlSourceSpan.destination fun span destination => { span with destination }

/-- `remap_parent_spans` (`pool.rs:153-165`). -/
def remapParentSpans (map : IlIndexMapper) : List IlParentSpan → Except IlError (List IlParentSpan) :=
  map.remapSpans IlParentSpan.destination fun span destination => { span with destination }

end IlIndexMapper

/-- `remap_op_ranges` (`graph.rs:304-313`). -/
def IlGraph.remapOpRanges (graph : IlGraph) (operationMap : IlIndexMapper) :
    Except IlError IlGraph := do
  let blocks ← graph.blocks.mapM fun block => do
    let ops ← operationMap.checkedMapRange block.ops
    return { block with ops }
  return { graph with blocks }

def IlIndexRange.rank (kept : Nat → Bool) (range : IlIndexRange) : IlIndexRange :=
  ⟨Lib.rank kept range.start, Lib.rank kept range.stop⟩

namespace IlIndexMapper

variable {kept : Nat → Bool} {len : Nat}

theorem fromKept_indices : (fromKept len kept).indices = (List.range (len + 1)).map (rank kept) := by
  unfold fromKept
  induction len with
  | zero => rfl
  | succ len ih =>
    simp only at ih ⊢
    rw [range_succ, foldl_append, ih, range_succ (n := len + 1), map_append]
    simp [rank, getD_eq_getElem?_getD]

theorem fromKept_sourceLen : (fromKept len kept).sourceLen = len := by
  rw [sourceLen, fromKept_indices]
  simp

theorem fromKept_mapIndex {index : Nat} (le : index ≤ len) :
    (fromKept len kept).mapIndex index = some (rank kept index) := by
  rw [mapIndex, fromKept_indices]
  simp [Nat.lt_succ_of_le le]

theorem fromKept_getD {index : Nat} (le : index ≤ len) :
    (fromKept len kept).indices.getD index 0 = rank kept index := by
  have found : (fromKept len kept).indices[index]? = _ := fromKept_mapIndex le
  rw [getD_eq_getElem?_getD, found, Option.getD_some]

theorem fromKept_checkedMapRange (fits : len ≤ u32Max) {range : IlIndexRange}
    (ordered : range.start ≤ range.stop) (within : range.stop ≤ len) :
    (fromKept len kept).checkedMapRange range = .ok (range.rank kept) := by
  have le : rank kept range.start ≤ rank kept range.stop := rank_mono ordered
  have small : rank kept range.stop ≤ range.stop := rank_le_self
  rw [checkedMapRange, andThen_eq_ok, IlIndexRange.verifyBounds_eq_ok, fromKept_sourceLen,
    fromKept_getD (le_trans ordered within), fromKept_getD within]
  refine ⟨⟨ordered, within⟩, ?_⟩
  rw [IlIndexRange.new, if_neg (by omega), if_neg (by omega), if_neg (by omega)]
  rfl

theorem remapSpans_eq_ok {Span : Type} {destination : Span → IlIndexRange}
    {withDestination : Span → IlIndexRange → Span} (fits : len ≤ u32Max) :
    ∀ {spans : List Span}, (∀ span ∈ spans, (destination span).start ≤ (destination span).stop ∧
        (destination span).stop ≤ len) →
      (fromKept len kept).remapSpans destination withDestination spans =
        .ok ((spans.filter fun span => !((destination span).rank kept).isEmpty).map fun span =>
          withDestination span ((destination span).rank kept))
  | [], _ => rfl
  | span :: spans, within => by
    obtain ⟨⟨ordered, le⟩, rest⟩ := forall_mem_cons.mp within
    rw [remapSpans, fromKept_checkedMapRange fits ordered le, remapSpans_eq_ok fits rest,
      filter_cons]
    cases empty : ((destination span).rank kept).isEmpty <;>
      simp [bind, Except.bind, pure, Except.pure, empty]

end IlIndexMapper

/-- The ranges are, in order, the kept indices from `low` on. -/
structure Enumerates (kept : Nat → Bool) (low : Nat) (ranges : List IlIndexRange) : Prop where
  ascending : ∃ high, IlIndexRange.Ascending low ranges high
  inside : ∀ range ∈ ranges, ∀ k, range.start ≤ k → k < range.stop → kept k = true
  covers : ∀ k, low ≤ k → kept k = true → ∃ range ∈ ranges, range.start ≤ k ∧ k < range.stop

namespace Enumerates

variable {kept : Nat → Bool} {low : Nat} {range : IlIndexRange} {ranges : List IlIndexRange}

theorem rank_eq_of_nil (all : Enumerates kept low []) {high : Nat} (le : low ≤ high) :
    Lib.rank kept low = Lib.rank kept high := by
  refine rank_eq_of_dropped le fun k above _ => ?_
  by_contra notDropped
  obtain ⟨range, mem, -⟩ := all.covers k above (by simpa using notDropped)
  cases mem

variable (all : Enumerates kept low (range :: ranges))
include all

/-- What lies before the first range is dropped, and what lies in it is kept. -/
theorem rank_head :
    Lib.rank kept low = Lib.rank kept range.start ∧
      ∀ offset, offset ≤ range.len →
        Lib.rank kept (range.start + offset) = Lib.rank kept range.start + offset := by
  obtain ⟨high, start, ordered, rest⟩ := all.ascending
  refine ⟨rank_eq_of_dropped start fun k above below => ?_, fun offset le => ?_⟩
  · by_contra notDropped
    obtain ⟨other, mem, low', high'⟩ := all.covers k above (by simpa using notDropped)
    rcases mem_cons.mp mem with eq | inRest
    · rw [eq] at low'
      omega
    · have := rest.start_ge other inRest
      omega
  · refine rank_add_of_kept fun k low' high' => all.inside range (.head _) k low' ?_
    unfold IlIndexRange.len at le
    omega

theorem tail : Enumerates kept range.stop ranges := by
  obtain ⟨high, start, ordered, rest⟩ := all.ascending
  refine ⟨⟨high, rest⟩, fun other mem => all.inside other (.tail _ mem), ?_⟩
  intro k above keptK
  obtain ⟨other, mem, low', high'⟩ := all.covers k (by omega) keptK
  rcases mem_cons.mp mem with eq | inRest
  · rw [eq] at high'
    omega
  · exact ⟨other, inRest, low', high'⟩

theorem start_le {index : Nat} (le : low ≤ index)
    (h : kept index = true) : range.start ≤ index := by
  by_contra before
  have lt := rank_lt h (not_le.mp before)
  rw [← all.rank_head.1] at lt
  exact absurd (rank_mono le) (not_le.mpr lt)

end Enumerates

/-- The list has, at the rank of every kept index below the frontier, what `Copies` says, and
nothing else. -/
structure CopiedBelow {α : Type} (kept : Nat → Bool) (frontier : Nat) (copies : List α)
    (Copies : Nat → α → Prop) : Prop where
  length : copies.length = Lib.rank kept frontier
  copied : ∀ index < frontier, kept index = true →
    ∃ copy, copies[Lib.rank kept index]? = some copy ∧ Copies index copy

namespace CopiedBelow

variable {α : Type} {kept : Nat → Bool} {frontier : Nat} {copies : List α}
  {Copies : Nat → α → Prop}

theorem nil : CopiedBelow kept 0 [] Copies := ⟨rfl, nofun⟩

variable (h : CopiedBelow kept frontier copies Copies)
include h

theorem imp {Copies' : Nat → α → Prop}
    (imp : ∀ index copy, Copies index copy → Copies' index copy) :
    CopiedBelow kept frontier copies Copies' := by
  refine ⟨h.length, fun index lt keptIndex => ?_⟩
  obtain ⟨copy, found, copied⟩ := h.copied index lt keptIndex
  exact ⟨copy, found, imp index copy copied⟩

/-- The copies of the next range go to the end. -/
theorem append {range : IlIndexRange}
    {ranges : List IlIndexRange} (all : Enumerates kept frontier (range :: ranges))
    {more : List α} (moreLength : more.length = range.len)
    (new : ∀ offset < range.len, ∃ copy, more[offset]? = some copy ∧
      Copies (range.start + offset) copy) :
    CopiedBelow kept range.stop (copies ++ more) Copies := by
  obtain ⟨high, start, ordered, -⟩ := all.ascending
  obtain ⟨head, ranks⟩ := all.rank_head
  have stop : range.stop = range.start + range.len := by
    unfold IlIndexRange.len
    omega
  refine ⟨?_, fun index lt keptIndex => ?_⟩
  · rw [length_append, h.length, moreLength, head, stop, ranks _ le_rfl]
  · by_cases below : index < frontier
    · obtain ⟨copy, found, copied⟩ := h.copied index below keptIndex
      refine ⟨copy, ?_, copied⟩
      rw [getElem?_append_left (lt_of_getElem? found)]
      exact found
    · have le := all.start_le (not_lt.mp below) keptIndex
      obtain ⟨offset, rfl⟩ := Nat.exists_eq_add_of_le le
      have offsetLt : offset < range.len := by omega
      obtain ⟨copy, found, copied⟩ := new offset offsetLt
      refine ⟨copy, ?_, copied⟩
      rw [getElem?_append_right (by rw [h.length, head, ranks offset offsetLt.le]; omega),
        h.length, head, ranks offset offsetLt.le, Nat.add_sub_cancel_left]
      exact found

/-- With nothing left to copy, everything has been. -/
theorem complete (all : Enumerates kept frontier [])
    {count : Nat} (beyond : ∀ index, count ≤ index → kept index = false) :
    CopiedBelow kept count copies Copies := by
  have total : Lib.rank kept frontier = Lib.rank kept count := by
    rw [all.rank_eq_of_nil (le_max_left frontier count),
      rank_eq_of_dropped (le_max_right frontier count) fun index above _ => beyond index above]
  refine ⟨h.length.trans total, fun index _ keptIndex => ?_⟩
  refine h.copied index ?_ keptIndex
  by_contra above
  obtain ⟨range, mem, -⟩ := all.covers index (not_lt.mp above) keptIndex
  cases mem

theorem exists_of_getElem? {position : Nat} {copy : α} (found : copies[position]? = some copy) :
    ∃ index < frontier, kept index = true ∧ Lib.rank kept index = position ∧ Copies index copy := by
  have lt := lt_of_getElem? found
  rw [h.length] at lt
  obtain ⟨index, indexLt, keptIndex, rfl⟩ := exists_rank_eq lt
  obtain ⟨other, otherFound, copied⟩ := h.copied index indexLt keptIndex
  rw [found, Option.some.injEq] at otherFound
  exact ⟨index, indexLt, keptIndex, rfl, otherFound ▸ copied⟩

end CopiedBelow

/-- Spans one after another stay so when each is renumbered and the empty ones go. -/
theorem Sequential.rank {Span : Type} {kept : Nat → Bool} {destination : Span → IlIndexRange}
    {renumbered : Span → Span}
    (renumber : ∀ span, destination (renumbered span) = (destination span).rank kept) :
    ∀ {spans : List Span} {previousEnd bound : Nat},
      bound ≤ Lib.rank kept previousEnd →
      (∀ span ∈ spans, (destination span).start ≤ (destination span).stop) →
      Sequential previousEnd (spans.map destination) →
      Sequential bound ((((spans.filter fun span =>
        !((destination span).rank kept).isEmpty).map renumbered)).map destination)
  | [], _, _, _, _, _ => trivial
  | span :: spans, previousEnd, bound, le, ordered, sequential => by
    obtain ⟨head, rest⟩ := forall_mem_cons.mp ordered
    obtain ⟨first, sequential⟩ := sequential
    have start : Lib.rank kept previousEnd ≤ Lib.rank kept (destination span).start := rank_mono first
    have stop : Lib.rank kept (destination span).start ≤ Lib.rank kept (destination span).stop :=
      rank_mono head
    rw [filter_cons]
    split
    · refine ⟨?_, Sequential.rank renumber ?_ rest sequential⟩
      · rw [renumber]
        exact le_trans le start
      · rw [renumber]
        rfl
    · exact Sequential.rank renumber (by omega) rest sequential

theorem IlGraph.Apart.rank {kept : Nat → Bool} {left right : IlIndexRange}
    (apart : Apart left right) : Apart (left.rank kept) (right.rank kept) := by
  rcases apart with empty | empty | before | after
  · exact .inl (rank_mono empty)
  · exact .inr (.inl (rank_mono empty))
  · exact .inr (.inr (.inl (rank_mono before)))
  · exact .inr (.inr (.inr (rank_mono after)))

/-- The graph with its operation ranges renumbered. -/
def IlGraph.rankOps (kept : Nat → Bool) (graph : IlGraph) : IlGraph :=
  { graph with blocks := graph.blocks.map fun block => { block with ops := block.ops.rank kept } }

namespace IlGraph

variable {graph : IlGraph} {kept : Nat → Bool} {len : Nat}

theorem remapOpRanges_eq_ok (fits : len ≤ u32Max)
    (within : ∀ block ∈ graph.blocks, block.ops.start ≤ block.ops.stop ∧ block.ops.stop ≤ len) :
    graph.remapOpRanges (.fromKept len kept) = .ok (graph.rankOps kept) := by
  unfold remapOpRanges
  rw [mapM_eq_ok (g := fun block : IlBlock => { block with ops := block.ops.rank kept })]
  · rfl
  · intro block mem
    rw [IlIndexMapper.fromKept_checkedMapRange fits (within block mem).1 (within block mem).2]
    rfl

theorem rankOps_wellFormed (wf : graph.WellFormed) : (graph.rankOps kept).WellFormed := by
  have length : (graph.rankOps kept).blocks.length = graph.blocks.length := length_map _
  have mem_iff : ∀ block ∈ (graph.rankOps kept).blocks, ∃ old ∈ graph.blocks,
      block.successors = old.successors ∧ block.ops = old.ops.rank kept := by
    intro block mem
    obtain ⟨old, oldMem, rfl⟩ := mem_map.mp mem
    exact ⟨old, oldMem, rfl, rfl⟩
  refine ⟨length ▸ wf.blocks_le, ?_, ⟨?_, ?_⟩, ?_, ?_, wf.kinds, length ▸ wf.sources⟩
  · intro block mem
    obtain ⟨old, oldMem, -, opsEq⟩ := mem_iff block mem
    obtain ⟨ordered, le⟩ := wf.ops old oldMem
    rw [opsEq]
    exact ⟨rank_mono ordered, le_trans rank_le_self le⟩
  · intro block mem
    obtain ⟨old, oldMem, successorsEq, -⟩ := mem_iff block mem
    rw [successorsEq]
    exact wf.inRange.ranges old oldMem
  · intro block mem
    obtain ⟨old, oldMem, successorsEq, -⟩ := mem_iff block mem
    rw [successorsEq, length]
    exact wf.inRange.targets old oldMem
  · intro block mem
    obtain ⟨old, oldMem, successorsEq, -⟩ := mem_iff block mem
    rw [successorsEq]
    exact wf.distinct old oldMem
  · exact pairwise_map.mpr (wf.apart.imp fun apart => apart.rank)

theorem inBlock_rankOps {operation : Nat} {block : IlBlockId} (h : kept operation = true) :
    (graph.rankOps kept).InBlock (rank kept operation) block ↔ graph.InBlock operation block := by
  unfold InBlock rankOps
  simp only [getElem?_map, Option.map_eq_some_iff]
  constructor
  · intro ⟨record, ⟨old, found, eq⟩, low, high⟩
    subst eq
    exact ⟨old, found, (rank_le_iff h).mp low, (rank_lt_iff h).mp high⟩
  · intro ⟨old, found, low, high⟩
    exact ⟨_, ⟨old, found, rfl⟩, rank_mono low, rank_lt h high⟩

end IlGraph

end Fugue.Il
