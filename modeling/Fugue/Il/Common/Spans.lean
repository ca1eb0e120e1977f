import Fugue.Il.Common.Structure
import Fugue.Lib.BinarySearch

/-!
# Spans and where they go

The search for the span of an operation and the merging of neighbouring spans
(`fugue-core/src/il/common/span.rs`), and `IlIndexRangeMap` (`pool.rs`), which sends every index to
a range. The image of a span is a list of ranges, since indices that are next to one another need
not stay so; `remapSourceSpans_spec` says which span covers what afterwards.
-/

namespace Fugue.Il

open Fugue.Lib Fugue.Ir List IlIndexRange IlSourceSpan

def IlIndexRange.Contains (range : IlIndexRange) (index : Nat) : Prop :=
  range.start ≤ index ∧ index < range.stop

theorem IlIndexRange.containsIndex_iff {range : IlIndexRange} {index : Nat} :
    range.containsIndex index = true ↔ range.Contains index := by
  simp [containsIndex, Contains]

/-- The comparison of `find_destination_span` (`span.rs:12-21`). -/
def compareDestination (node : Nat) (range : IlIndexRange) : Ordering :=
  if range.containsIndex node then .eq else if node < range.start then .gt else .lt

/-- `find_destination_span` (`span.rs:7-24`). -/
def findDestinationSpan {Span : Type} (destination : Span → IlIndexRange) (spans : List Span)
    (node : Nat) : Option Span :=
  (binarySearchBy (fun span => compareDestination node (destination span)) spans).bind
    fun index => spans[index]?

namespace IlSourceSpan

/-- `find` (`span.rs:69-71`). -/
def find (spans : List IlSourceSpan) (node : Nat) : Option IlSourceSpan :=
  findDestinationSpan destination spans node

/-- `try_merge` (`span.rs:151-170`); `none` leaves the span as it is. -/
def tryMerge (previous span : IlSourceSpan) : Except IlError (Option IlSourceSpan) :=
  if previous.firstSourceIndex + previous.sourceCount > u32Max then
    .error (.integerOverflow "source range")
  else if previous.address ≠ span.address ∨
      previous.destination.stop ≠ span.destination.start ∨
      previous.firstSourceIndex + previous.sourceCount ≠ span.firstSourceIndex then .ok none
  else do
    let destination ← IlIndexRange.new previous.destination.start span.destination.stop
    if previous.sourceCount + span.sourceCount > u32Max then
      .error (.integerOverflow "source count")
    else
      return some { previous with
        destination, sourceCount := previous.sourceCount + span.sourceCount }

/-- The loop of `remap_source_spans` over the sorted spans (`pool.rs:270-278`); `previous` is the
last span so far. -/
def mergeFrom (previous : IlSourceSpan) : List IlSourceSpan → Except IlError (List IlSourceSpan)
  | [] => .ok [previous]
  | span :: spans => do
    match ← previous.tryMerge span with
    | some merged => mergeFrom merged spans
    | none => return previous :: (← mergeFrom span spans)

def merge : List IlSourceSpan → Except IlError (List IlSourceSpan)
  | [] => .ok []
  | span :: spans => mergeFrom span spans

end IlSourceSpan

/-- `IlIndexRangeMap` (`pool.rs:168-170`). -/
structure IlIndexRangeMap where
  ranges : List IlIndexRange
  deriving DecidableEq, Repr

namespace IlIndexRangeMap

/-- `unmapped` (`pool.rs:173-177`). -/
def unmapped (sourceLen : Nat) : IlIndexRangeMap := ⟨List.replicate sourceLen .empty⟩

variable (map : IlIndexRangeMap)

/-- `set_range` (`pool.rs:199-206`). -/
def setRange (index : Nat) (range : IlIndexRange) : Except IlError IlIndexRangeMap :=
  if index ≥ map.ranges.length then .error (.rangeOutOfBounds index map.ranges.length)
  else .ok ⟨map.ranges.set index range⟩

/-- The loop of `remap_into` (`pool.rs:225-245`); `previous` is the last range that was retained. -/
def joinFrom (previous : IlIndexRange) : List IlIndexRange → Except IlError (List IlIndexRange)
  | [] => .ok [previous]
  | destination :: rest =>
    if destination.start < previous.stop then
      .error (.overlappingRanges destination.start previous.stop)
    else if previous.stop = destination.start then do
      joinFrom (← IlIndexRange.new previous.start destination.stop) rest
    else return previous :: (← joinFrom destination rest)

def join : List IlIndexRange → Except IlError (List IlIndexRange)
  | [] => .ok []
  | range :: ranges => joinFrom range ranges

/-- `remap_into` (`pool.rs:208-249`). -/
def remapInto (source : IlIndexRange) : Except IlError (List IlIndexRange) := do
  source.verifyBounds map.ranges.length
  join (((source.slice map.ranges).filter fun range => !range.isEmpty).insertionSort
    fun a b => a.start ≤ b.start)

/-- The common part of `remap_source_spans` and `remap_parent_spans`: a span for each range that
a span goes to, in the order of the ranges. -/
def remapSpans {Span : Type} (destination : Span → IlIndexRange)
    (withDestination : Span → IlIndexRange → Span) (spans : List Span) :
    Except IlError (List Span) := do
  let remapped ← spans.mapM fun span => do
    return (← map.remapInto (destination span)).map (withDestination span)
  return remapped.flatten.insertionSort fun a b => (destination a).start ≤ (destination b).start

/-- `remap_source_spans` (`pool.rs:252-281`). -/
def remapSourceSpans (spans : List IlSourceSpan) : Except IlError (List IlSourceSpan) := do
  IlSourceSpan.merge (← map.remapSpans IlSourceSpan.destination
    (fun span destination => { span with destination }) spans)

/-- `remap_parent_spans` (`pool.rs:296-310`). -/
def remapParentSpans : List IlParentSpan → Except IlError (List IlParentSpan) :=
  map.remapSpans IlParentSpan.destination fun span destination => { span with destination }

end IlIndexRangeMap

/-! ## Searching -/

/-- None is empty, and each one ends before the next one starts. -/
structure IlIndexRange.Separate (ranges : List IlIndexRange) : Prop where
  nonempty : ∀ range ∈ ranges, range.start < range.stop
  ordered : ranges.Pairwise fun a b => a.stop ≤ b.start

namespace IlIndexRange

theorem Separate.nil : Separate [] := ⟨nofun, .nil⟩

theorem Separate.cons {range : IlIndexRange} {ranges : List IlIndexRange}
    (nonempty : range.start < range.stop) (first : ∀ other ∈ ranges, range.stop ≤ other.start)
    (separate : Separate ranges) : Separate (range :: ranges) :=
  ⟨forall_mem_cons.mpr ⟨nonempty, separate.nonempty⟩, pairwise_cons.mpr ⟨first, separate.ordered⟩⟩

/-- No index lies in the ranges of two spans. -/
theorem Separate.eq_of_contains {Span : Type} {destination : Span → IlIndexRange}
    {spans : List Span} (separate : Separate (spans.map destination)) {index : Nat}
    {left right : Span} (memLeft : left ∈ spans) (memRight : right ∈ spans)
    (inLeft : (destination left).Contains index) (inRight : (destination right).Contains index) :
    left = right := by
  by_contra ne
  let Apart (a b : Span) : Prop := (destination a).stop ≤ (destination b).start ∨
    (destination b).stop ≤ (destination a).start
  have : Std.Symm Apart := ⟨fun _ _ => Or.symm⟩
  have apart : spans.Pairwise Apart := (pairwise_map.mp separate.ordered).imp .inl
  rcases apart.forall memLeft memRight ne with before | after
  · exact absurd (inLeft.2.trans_le before) (not_lt.mpr inRight.1)
  · exact absurd (inRight.2.trans_le after) (not_lt.mpr inLeft.1)

end IlIndexRange

theorem compareDestination_eq {node : Nat} {range : IlIndexRange} :
    compareDestination node range = .eq ↔ range.Contains node := by
  rw [← containsIndex_iff]
  unfold compareDestination
  split
  · simp [*]
  · split <;> simp [*]

theorem compareDestination_inOrder {Span : Type} {destination : Span → IlIndexRange}
    {spans : List Span} (separate : Separate (spans.map destination)) (node : Nat) :
    InOrder (fun span => compareDestination node (destination span)) spans := by
  have ordered := pairwise_map.mp separate.ordered
  refine ordered.imp_of_mem fun {a b} memA memB le => ?_
  have nonemptyA := separate.nonempty _ (mem_map_of_mem memA)
  unfold compareDestination containsIndex
  grind

/-- A span is found if and only if it contains the node. -/
theorem findDestinationSpan_eq_some {Span : Type} {destination : Span → IlIndexRange}
    {spans : List Span} (separate : Separate (spans.map destination)) {node : Nat}
    {span : Span} :
    findDestinationSpan destination spans node = some span ↔
      span ∈ spans ∧ (destination span).Contains node := by
  unfold findDestinationSpan
  constructor
  · intro found
    obtain ⟨index, run, atIndex⟩ := Option.bind_eq_some_iff.mp found
    obtain ⟨value, valueAt, equal⟩ := binarySearchBy_eq_some run
    rw [atIndex] at valueAt
    cases valueAt
    exact ⟨mem_of_getElem? atIndex, compareDestination_eq.mp equal⟩
  · rintro ⟨mem, contains⟩
    obtain ⟨index, run⟩ := binarySearchBy_isSome (compareDestination_inOrder separate node) mem
      (compareDestination_eq.mpr contains)
    obtain ⟨value, valueAt, equal⟩ := binarySearchBy_eq_some run
    rw [run, Option.bind_some, valueAt, separate.eq_of_contains (mem_of_getElem? valueAt) mem
      (compareDestination_eq.mp equal) contains]

/-! ## Joining and merging neighbours -/

theorem IlIndexRangeMap.joinFrom_spec : ∀ {ranges joined : List IlIndexRange}
    {previous : IlIndexRange}, joinFrom previous ranges = .ok joined →
      (∀ range ∈ previous :: ranges, range.start < range.stop) →
      Separate joined ∧ (∀ range ∈ joined, previous.start ≤ range.start) ∧
        ∀ k, (∃ range ∈ joined, range.Contains k) ↔ ∃ range ∈ previous :: ranges, range.Contains k
  | [], joined, previous, run, nonempty => by
    cases run
    refine ⟨.cons (nonempty previous (.head _)) nofun .nil, ?_, fun k => Iff.rfl⟩
    simp
  | destination :: rest, joined, previous, run, nonempty => by
    obtain ⟨previousNonempty, restNonempty⟩ := forall_mem_cons.mp nonempty
    have destinationNonempty := restNonempty destination (.head _)
    unfold joinFrom at run
    split at run
    · cases run
    · split at run
      · obtain ⟨grown, newRun, rest_run⟩ := bind_eq_ok.mp run
        obtain ⟨le, -, rfl⟩ := IlIndexRange.new_eq_ok.mp newRun
        obtain ⟨separate, from_, covers⟩ := joinFrom_spec rest_run
          (forall_mem_cons.mpr ⟨by dsimp only; omega,
            fun range mem => restNonempty range (.tail _ mem)⟩)
        refine ⟨separate, from_, fun k => (covers k).trans ?_⟩
        simp only [exists_mem_cons_iff, ← or_assoc]
        apply or_congr_left
        unfold Contains
        dsimp only
        omega
      · obtain ⟨joined, rest_run, eq⟩ := bind_eq_ok.mp run
        cases eq
        obtain ⟨separate, from_, covers⟩ := joinFrom_spec rest_run restNonempty
        refine ⟨.cons previousNonempty ?_ separate, ?_, fun k => ?_⟩
        · intro range mem
          have := from_ range mem
          omega
        · refine forall_mem_cons.mpr ⟨le_rfl, fun range mem => ?_⟩
          have := from_ range mem
          omega
        · rw [exists_mem_cons_iff, exists_mem_cons_iff, covers k]

theorem IlIndexRangeMap.join_spec {ranges joined : List IlIndexRange} (run : join ranges = .ok joined)
    (nonempty : ∀ range ∈ ranges, range.start < range.stop) :
    Separate joined ∧
      ∀ k, (∃ range ∈ joined, range.Contains k) ↔ ∃ range ∈ ranges, range.Contains k := by
  cases ranges with
  | nil =>
    cases run
    exact ⟨.nil, fun k => Iff.rfl⟩
  | cons range ranges =>
    obtain ⟨separate, -, covers⟩ := joinFrom_spec run nonempty
    exact ⟨separate, covers⟩

namespace IlSourceSpan

/-- The span stands for the source operations of the other one, and perhaps for more of the same
address. -/
structure Subsumes (found span : IlSourceSpan) : Prop where
  address : found.address = span.address
  first : found.firstSourceIndex ≤ span.firstSourceIndex
  last : span.firstSourceIndex + span.sourceCount ≤ found.firstSourceIndex + found.sourceCount

/-- The span stands for the other one and covers its destination. -/
structure Covers (found span : IlSourceSpan) : Prop extends Subsumes found span where
  start : found.destination.start ≤ span.destination.start
  stop : span.destination.stop ≤ found.destination.stop

theorem Covers.refl (span : IlSourceSpan) : Covers span span := ⟨⟨rfl, le_rfl, le_rfl⟩, le_rfl, le_rfl⟩

theorem Covers.trans {a b c : IlSourceSpan} (left : Covers a b) (right : Covers b c) :
    Covers a c where
  address := left.address.trans right.address
  first := left.first.trans right.first
  last := right.last.trans left.last
  start := left.start.trans right.start
  stop := right.stop.trans left.stop

theorem Covers.contains {found span : IlSourceSpan} (covers : Covers found span) {k : Nat}
    (inside : span.destination.Contains k) : found.destination.Contains k :=
  ⟨covers.start.trans inside.1, inside.2.trans_le covers.stop⟩

theorem tryMerge_eq_some {previous span merged : IlSourceSpan}
    (run : previous.tryMerge span = .ok (some merged))
    (nonemptyPrevious : previous.destination.start < previous.destination.stop)
    (nonemptySpan : span.destination.start < span.destination.stop) :
    merged.Covers previous ∧ merged.Covers span ∧
      merged.destination.start = previous.destination.start ∧
      merged.destination.stop = span.destination.stop ∧
      previous.destination.stop = span.destination.start := by
  unfold tryMerge at run
  split at run
  · cases run
  · split at run
    · cases run
    · rename_i fits neighbours
      push Not at neighbours
      obtain ⟨address, touching, consecutive⟩ := neighbours
      obtain ⟨destination, newRun, counted⟩ := bind_eq_ok.mp run
      obtain ⟨-, -, rfl⟩ := IlIndexRange.new_eq_ok.mp newRun
      split at counted
      · cases counted
      · cases counted
        refine ⟨⟨⟨rfl, le_rfl, ?_⟩, le_rfl, ?_⟩, ⟨⟨address, ?_, ?_⟩, ?_, le_rfl⟩, rfl, rfl, touching⟩
        all_goals
          dsimp only
          omega

theorem mergeFrom_spec : ∀ {spans merged : List IlSourceSpan} {previous : IlSourceSpan},
    mergeFrom previous spans = .ok merged →
    Separate ((previous :: spans).map destination) →
      Separate (merged.map destination) ∧
      (∀ found ∈ merged, previous.destination.start ≤ found.destination.start) ∧
      (∀ span ∈ previous :: spans, ∃ found ∈ merged, found.Covers span) ∧
      ∀ found ∈ merged, ∀ k, found.destination.Contains k →
        ∃ span ∈ previous :: spans, span.destination.Contains k
  | [], merged, previous, run, separate => by
    cases run
    refine ⟨separate, by simp, ?_, fun found mem k inside => ⟨found, mem, inside⟩⟩
    intro span mem
    exact ⟨span, mem, .refl span⟩
  | span :: spans, merged, previous, run, separate => by
    have nonemptyPrevious := separate.nonempty _ (.head _)
    have nonemptySpan := separate.nonempty span.destination (by simp)
    obtain ⟨firstApart, restOrdered⟩ := pairwise_cons.mp separate.ordered
    have restSeparate : Separate ((span :: spans).map destination) :=
      ⟨fun range mem => separate.nonempty range (.tail _ mem), restOrdered⟩
    have afterPrevious := firstApart span.destination (.head _)
    obtain ⟨result, mergeRun, rest_run⟩ := bind_eq_ok.mp run
    cases result with
    | some grown =>
      obtain ⟨coversPrevious, coversSpan, start, stop, touching⟩ :=
        tryMerge_eq_some mergeRun nonemptyPrevious nonemptySpan
      have grownSeparate : Separate ((grown :: spans).map destination) := by
        obtain ⟨spanApart, ordered⟩ := pairwise_cons.mp restOrdered
        refine .cons (by omega) ?_ ⟨fun range mem => restSeparate.nonempty range
          (.tail _ mem), ordered⟩
        intro range mem
        rw [stop]
        exact spanApart range mem
      obtain ⟨separate, from_, kept, nothingElse⟩ := mergeFrom_spec rest_run grownSeparate
      obtain ⟨⟨found, foundMem, coversGrown⟩, kept⟩ := forall_mem_cons.mp kept
      refine ⟨separate, start ▸ from_, ?_, fun other mem k inside => ?_⟩
      · refine forall_mem_cons.mpr ⟨⟨found, foundMem, coversGrown.trans coversPrevious⟩, ?_⟩
        exact forall_mem_cons.mpr ⟨⟨found, foundMem, coversGrown.trans coversSpan⟩, kept⟩
      · obtain ⟨source, sourceMem, inSource⟩ := nothingElse other mem k inside
        rcases mem_cons.mp sourceMem with rfl | later
        · by_cases below : k < previous.destination.stop
          · exact ⟨previous, .head _, start ▸ inSource.1, below⟩
          · exact ⟨span, by simp, by omega, stop ▸ inSource.2⟩
        · exact ⟨source, by simp [later], inSource⟩
    | none =>
      obtain ⟨rest, tail_run, eq⟩ := bind_eq_ok.mp rest_run
      cases eq
      obtain ⟨separateRest, from_, kept, nothingElse⟩ := mergeFrom_spec tail_run restSeparate
      refine ⟨?_, ?_, ?_, ?_⟩
      · refine .cons nonemptyPrevious (fun range mem => ?_) separateRest
        obtain ⟨found, foundMem, rfl⟩ := mem_map.mp mem
        exact afterPrevious.trans (from_ found foundMem)
      · refine forall_mem_cons.mpr ⟨le_rfl, fun found mem => ?_⟩
        have := from_ found mem
        omega
      · refine forall_mem_cons.mpr ⟨⟨previous, .head _, .refl _⟩, ?_⟩
        intro other mem
        obtain ⟨found, foundMem, covers⟩ := kept other mem
        exact ⟨found, .tail _ foundMem, covers⟩
      · refine forall_mem_cons.mpr ⟨fun k inside => ⟨previous, .head _, inside⟩, ?_⟩
        intro found mem k inside
        obtain ⟨source, sourceMem, inSource⟩ := nothingElse found mem k inside
        exact ⟨source, .tail _ sourceMem, inSource⟩

theorem merge_spec {spans merged : List IlSourceSpan} (run : merge spans = .ok merged)
    (separate : Separate (spans.map destination)) :
    Separate (merged.map destination) ∧
      (∀ span ∈ spans, ∃ found ∈ merged, found.Covers span) ∧
      ∀ found ∈ merged, ∀ k, found.destination.Contains k →
        ∃ span ∈ spans, span.destination.Contains k := by
  cases spans with
  | nil =>
    cases run
    exact ⟨.nil, nofun, nofun⟩
  | cons span spans =>
    obtain ⟨separate, -, kept, nothingElse⟩ := mergeFrom_spec run separate
    exact ⟨separate, kept, nothingElse⟩

end IlSourceSpan

/-! ## Remapping -/

namespace IlIndexRangeMap

variable {map : IlIndexRangeMap}

/-- The index goes to a range with `k` in it. -/
def Sends (map : IlIndexRangeMap) (index k : Nat) : Prop :=
  ∃ range, map.ranges[index]? = some range ∧ range.Contains k

/-- Nothing is sent to one place from two indices. -/
def Unshared (map : IlIndexRangeMap) : Prop :=
  ∀ i j k, map.Sends i k → map.Sends j k → i = j

variable (ordered : ∀ range ∈ map.ranges, range.start ≤ range.stop)
include ordered

theorem remapInto_spec {source : IlIndexRange} {destinations : List IlIndexRange}
    (run : map.remapInto source = .ok destinations) :
    Separate destinations ∧ ∀ k, (∃ range ∈ destinations, range.Contains k) ↔
      ∃ index, source.Contains index ∧ map.Sends index k := by
  obtain ⟨bounds, joined⟩ := andThen_eq_ok.mp run
  have mem_sorted : ∀ {range}, range ∈ ((source.slice map.ranges).filter fun range =>
      !range.isEmpty).insertionSort (fun a b => a.start ≤ b.start) ↔
      range ∈ source.slice map.ranges ∧ range.start ≠ range.stop := by
    simp [IlIndexRange.isEmpty]
  obtain ⟨separate, covers⟩ := join_spec joined fun range mem => by
    obtain ⟨inSlice, ne⟩ := mem_sorted.mp mem
    exact lt_of_le_of_ne (ordered range (mem_of_mem_slice inSlice)) ne
  refine ⟨separate, fun k => (covers k).trans ?_⟩
  constructor
  · rintro ⟨range, mem, contains⟩
    obtain ⟨offset, found⟩ := mem_iff_getElem?.mp (mem_sorted.mp mem).1
    rw [getElem?_slice] at found
    split at found
    · exact ⟨source.start + offset, ⟨by omega, by omega⟩, range, found, contains⟩
    · cases found
  · rintro ⟨index, ⟨low, high⟩, range, found, contains⟩
    refine ⟨range, mem_sorted.mpr ⟨mem_iff_getElem?.mpr ⟨index - source.start, ?_⟩, ?_⟩, contains⟩
    · rw [getElem?_slice, if_pos (by omega), Nat.add_sub_cancel' low, found]
    · unfold Contains at contains
      omega

omit ordered in
/-- What a span goes to: spans like it, for exactly the places that its indices are sent to. -/
structure Images (map : IlIndexRangeMap) (span : IlSourceSpan) (images : List IlSourceSpan) :
    Prop where
  like : ∀ image ∈ images, ∃ destination, image = { span with destination }
  separate : IlIndexRange.Separate (images.map IlSourceSpan.destination)
  covers : ∀ k, (∃ image ∈ images, image.destination.Contains k) ↔
    ∃ index, span.destination.Contains index ∧ map.Sends index k

theorem images_of_remapInto {span : IlSourceSpan} {destinations : List IlIndexRange}
    (run : map.remapInto span.destination = .ok destinations) :
    map.Images span (destinations.map fun destination => { span with destination }) := by
  obtain ⟨separate, covers⟩ := remapInto_spec ordered run
  refine ⟨fun image mem => ?_, ?_, fun k => ?_⟩
  · obtain ⟨destination, -, rfl⟩ := mem_map.mp mem
    exact ⟨destination, rfl⟩
  · rw [map_map]
    exact (map_id destinations).symm ▸ separate
  · rw [← covers k]
    simp

omit ordered in
/-- Where the spans go all together, in any order. -/
structure Scattered (map : IlIndexRangeMap) (spans images : List IlSourceSpan) : Prop where
  reached : ∀ span ∈ spans, ∀ index k, span.destination.Contains index → map.Sends index k →
    ∃ image ∈ images, image.destination.Contains k ∧ ∃ destination, image = { span with destination }
  only : ∀ image ∈ images, ∀ k, image.destination.Contains k →
    ∃ span ∈ spans, ∃ index, span.destination.Contains index ∧ map.Sends index k
  nonempty : ∀ image ∈ images, image.destination.start < image.destination.stop
  apart : images.Pairwise fun a b => ∀ k, a.destination.Contains k → ¬ b.destination.Contains k

omit ordered in
theorem scattered_of_images (unshared : map.Unshared) {spans : List IlSourceSpan}
    {rows : List (List IlSourceSpan)} (images : List.Forall₂ map.Images spans rows)
    (apart : spans.Pairwise fun a b => a.destination.stop ≤ b.destination.start) :
    map.Scattered spans rows.flatten := by
  induction images with
  | nil => exact ⟨nofun, nofun, nofun, .nil⟩
  | @cons span row spans rows head _ ih =>
    obtain ⟨after, apart⟩ := pairwise_cons.mp apart
    have rest := ih apart
    constructor
    · refine forall_mem_cons.mpr ⟨fun index k inside sent => ?_, ?_⟩
      · obtain ⟨image, mem, contains⟩ := (head.covers k).mpr ⟨index, inside, sent⟩
        exact ⟨image, mem_append_left _ mem, contains, head.like image mem⟩
      · intro other mem index k inside sent
        obtain ⟨image, imageMem, found⟩ := rest.reached other mem index k inside sent
        exact ⟨image, mem_append_right _ imageMem, found⟩
    · intro image mem k contains
      rcases mem_append.mp mem with mem | mem
      · exact ⟨span, .head _, (head.covers k).mp ⟨image, mem, contains⟩⟩
      · obtain ⟨other, otherMem, found⟩ := rest.only image mem k contains
        exact ⟨other, .tail _ otherMem, found⟩
    · intro image mem
      rcases mem_append.mp mem with mem | mem
      · exact head.separate.nonempty _ (mem_map_of_mem mem)
      · exact rest.nonempty image mem
    · refine pairwise_append.mpr ⟨?_, rest.apart, fun a memA b memB k inA inB => ?_⟩
      · refine (pairwise_map.mp head.separate.ordered).imp fun le k inA inB => ?_
        exact absurd (inA.2.trans_le le) (not_lt.mpr inB.1)
      · -- both places come from one index, which lies in two spans
        obtain ⟨index, inside, sent⟩ := (head.covers k).mp ⟨a, memA, inA⟩
        obtain ⟨other, otherMem, index', inside', sent'⟩ := rest.only b memB k inB
        obtain rfl := unshared index index' k sent sent'
        exact absurd (inside.2.trans_le (after other otherMem)) (not_lt.mpr inside'.1)

omit ordered in
theorem separate_of_sorted {images : List IlSourceSpan}
    (nonempty : ∀ image ∈ images, image.destination.start < image.destination.stop)
    (sorted : images.Pairwise fun a b => a.destination.start ≤ b.destination.start)
    (apart : images.Pairwise fun a b =>
      ∀ k, a.destination.Contains k → ¬ b.destination.Contains k) :
    Separate (images.map destination) := by
  refine ⟨fun range mem => ?_, pairwise_map.mpr ?_⟩
  · obtain ⟨image, imageMem, rfl⟩ := mem_map.mp mem
    exact nonempty image imageMem
  · refine (sorted.and apart).imp_of_mem fun {a b} _ memB ⟨le, disjoint⟩ => ?_
    by_contra overlap
    exact disjoint b.destination.start ⟨le, not_le.mp overlap⟩ ⟨le_rfl, nonempty b memB⟩

theorem remapSpans_spec (unshared : map.Unshared) {spans images : List IlSourceSpan}
    (apart : spans.Pairwise fun a b => a.destination.stop ≤ b.destination.start)
    (run : map.remapSpans destination (fun span destination =>
      { span with destination }) spans = .ok images) :
    map.Scattered spans images ∧ Separate (images.map destination) := by
  obtain ⟨rows, collected, eq⟩ := bind_eq_ok.mp run
  cases eq
  have rowOf : List.Forall₂ map.Images spans rows := by
    refine (forall₂_of_mapM_eq_ok collected).imp fun span row remapped => ?_
    obtain ⟨destinations, into, eq⟩ := bind_eq_ok.mp remapped
    cases eq
    exact images_of_remapInto ordered into
  have scattered := scattered_of_images unshared rowOf apart
  have perm := perm_insertionSort (fun a b : IlSourceSpan =>
    a.destination.start ≤ b.destination.start) rows.flatten
  have sorted := pairwise_insertionSort (fun a b : IlSourceSpan =>
    a.destination.start ≤ b.destination.start) rows.flatten
  have disjoint := (perm.pairwise_iff fun {a b} h k inB inA => h k inA inB).mpr scattered.apart
  have nonempty := fun image mem => scattered.nonempty image (perm.mem_iff.mp mem)
  refine ⟨⟨?_, fun image mem => scattered.only image (perm.mem_iff.mp mem), nonempty, disjoint⟩,
    separate_of_sorted nonempty sorted disjoint⟩
  intro span mem index k inside sent
  obtain ⟨image, imageMem, found⟩ := scattered.reached span mem index k inside sent
  exact ⟨image, perm.mem_iff.mpr imageMem, found⟩

/-- The remapped spans are separate; a place to which an index of a span is sent is covered by a
span that stands for it; and nothing else is covered. -/
theorem remapSourceSpans_spec (unshared : map.Unshared) {spans remapped : List IlSourceSpan}
    (apart : spans.Pairwise fun a b => a.destination.stop ≤ b.destination.start)
    (run : map.remapSourceSpans spans = .ok remapped) :
    Separate (remapped.map destination) ∧
      (∀ span ∈ spans, ∀ index k, span.destination.Contains index → map.Sends index k →
        ∃ found ∈ remapped, found.destination.Contains k ∧ found.Subsumes span) ∧
      ∀ found ∈ remapped, ∀ k, found.destination.Contains k →
        ∃ span ∈ spans, ∃ index, span.destination.Contains index ∧ map.Sends index k := by
  obtain ⟨images, imagesRun, merged⟩ := bind_eq_ok.mp run
  obtain ⟨scattered, separate⟩ := remapSpans_spec ordered unshared apart imagesRun
  obtain ⟨separate, kept, nothingElse⟩ := merge_spec merged separate
  refine ⟨separate, fun span mem index k inside sent => ?_, fun found mem k contains => ?_⟩
  · obtain ⟨image, imageMem, inImage, destination, rfl⟩ :=
      scattered.reached span mem index k inside sent
    obtain ⟨found, foundMem, covers⟩ := kept _ imageMem
    exact ⟨found, foundMem, covers.contains inImage, covers.address, covers.first, covers.last⟩
  · obtain ⟨image, imageMem, inImage⟩ := nothingElse found mem k contains
    exact scattered.only image imageMem k inImage

end IlIndexRangeMap

end Fugue.Il
