import Fugue.Lib.Loop
import Fugue.Queries.ChangeIndexSpec

/-!
# Runs of the change index

A record makes the index move: it touches a range of a group, raises watermarks or resynchronises.
What every move of a run keeps is kept by the run (`applyAll_keeps`), whatever the order of the
records and wherever a group is compacted.
-/

namespace Fugue.Queries.ChangeIndex

open Fugue.Lib Fugue.Ir Fugue.Project List RegionGroupKind RegionGroup
open GlobalWatermarks (le_latest_bump le_latest_resynchronise bumpedKinds)

variable {index index' left right : ChangeIndex} {kinds : ChangeKinds} {region : AddressRangeSet}
  {record : ChangeRecord} {revision v bound : Revision} {compacted flag : Bool}

/-- What a record does to an index in one round of the loops of `apply`, and whether the round
compacts a group. -/
inductive Move (revision : Revision) (record : ChangeRecord) :
    Bool → ChangeIndex → ChangeIndex → Prop
  | touched {index : ChangeIndex} {group : RegionGroupKind} {range : AddressRange}
      {touched : RegionGroup} {compacted : Bool}
      (of : RegionGroupKind.ofRecord record.kind = some group) (mem : range ∈ record.ranges)
      (call : (index.groups group).touch range revision = some (touched, compacted)) :
      Move revision record compacted index
        { index with groups := Function.update index.groups group touched }
  | bumped {index : ChangeIndex} (of : RegionGroupKind.ofRecord record.kind = none) :
      Move revision record false index
        { index with global := index.global.bump record.kind revision }
  | resynchronised {index : ChangeIndex} (kind : record.kind = .resynchronise) :
      Move revision record false index (index.resynchronise revision)

theorem Move.keeps (move : Move revision record compacted left right) (le : v ≤ revision)
    (told : v ≤ left.latestChange kinds region) : v ≤ right.latestChange kinds region := by
  rw [le_latestChange_iff] at told ⊢
  cases move with
  | @touched _ group range touched compacted of mem call =>
    rcases told with told | ⟨other, meets, told⟩
    · exact .inl told
    · refine .inr ⟨other, meets, ?_⟩
      by_cases same : other = group
      · subst same
        simpa using le_latestOver_touch le call told
      · simpa [same] using told
  | bumped of =>
    rcases told with told | told
    · exact .inl (le_latest_bump.mpr (.inl told))
    · exact .inr told
  | resynchronised kind =>
    rcases told with told | ⟨other, meets, -⟩
    · exact .inl (le_latest_resynchronise.mpr (.inl told))
    · exact .inr ⟨other, meets, le.trans revision_le_latestOver_resynchronise⟩

/-- No revision of an index is above a bound. -/
structure Bounded (index : ChangeIndex) (bound : Revision) : Prop where
  groups : ∀ group, (index.groups group).Bounded bound
  global : ∀ kinds, index.global.latest kinds ≤ bound

theorem bounded_new (le : revision ≤ bound) : (new revision).Bounded bound where
  groups := fun _ => RegionGroup.bounded_new le
  global := by
    intro kinds
    rcases GlobalWatermarks.le_latest_new.mp (le_refl ((new revision).global.latest kinds)) with
      zero | ⟨-, latest⟩
    · exact zero ▸ Nat.zero_le bound
    · exact latest.trans le

theorem Bounded.latestChange_le (bounded : index.Bounded bound) :
    index.latestChange kinds region ≤ bound := by
  rcases le_latestChange_iff.mp (le_refl (index.latestChange kinds region)) with
    latest | ⟨group, -, latest⟩
  · exact latest.trans (bounded.global kinds)
  · exact latest.trans (bounded.groups group).latestOver_le

theorem Move.bounded (move : Move revision record compacted left right) (le : revision ≤ bound)
    (bounded : left.Bounded bound) : right.Bounded bound := by
  cases move with
  | @touched _ group range touched compacted of mem call =>
    refine ⟨fun other => ?_, bounded.global⟩
    by_cases same : other = group
    · subst same
      simpa using (bounded.groups other).touch le call
    · simpa [same] using bounded.groups other
  | bumped of =>
    refine ⟨bounded.groups, fun kinds => ?_⟩
    rcases le_latest_bump.mp (le_refl _) with latest | ⟨-, latest⟩
    · exact latest.trans (bounded.global kinds)
    · exact latest.trans le
  | resynchronised kind =>
    refine ⟨fun group => (bounded.groups group).resynchronise le, fun kinds => ?_⟩
    rcases le_latest_resynchronise.mp (le_refl _) with latest | ⟨-, latest⟩
    · exact latest.trans (bounded.global kinds)
    · exact latest.trans le

/-- The region meets a range of the record: an empty region stands for all addresses, and a record
without ranges for a change anywhere. -/
def Touches (record : ChangeRecord) (region : AddressRangeSet) : Prop :=
  region.isEmpty = true ∨ record.ranges = [] ∨
    ∃ range ∈ record.ranges, ∃ address, region.Contains address ∧ range.Contains address

/-- The record is of what a query asks for, as far as the index tells kinds apart: it knows the
groups, and no regions for the watermarks. -/
def Concerns (record : ChangeRecord) (kinds : ChangeKinds) (region : AddressRangeSet) : Prop :=
  match RegionGroupKind.ofRecord record.kind with
  | some group => kinds.intersects group.mask = true ∧ Touches record region
  | none => ∃ mask ∈ bumpedKinds,
      record.kind.intersects mask = true ∧ kinds.intersects mask = true

theorem Move.quiet (move : Move revision record false left right)
    (kind : record.kind ≠ .resynchronise) (apart : ¬ Concerns record kinds region) :
    right.latestChange kinds region = left.latestChange kinds region := by
  refine eq_of_forall_le_iff fun v => ?_
  rw [le_latestChange_iff, le_latestChange_iff]
  unfold Concerns at apart
  cases move with
  | @touched _ group range touched compacted of mem call =>
    rw [of] at apart
    refine or_congr_right (exists_congr fun other => and_congr_right fun meets => ?_)
    by_cases same : other = group
    · subst same
      have same := latestOver_touch_apart call fun touches => apart ⟨meets,
        touches.imp_right fun met => .inr ⟨range, mem, met⟩⟩
      simp [same]
    · simp [same]
  | bumped of =>
    rw [of] at apart
    refine or_congr_left (le_latest_bump.trans ?_)
    exact or_iff_left fun raised => apart raised.1
  | resynchronised same => exact absurd same kind

variable {s t : ChangeIndex × Bool}

theorem touch_move {group : RegionGroupKind} {range : AddressRange}
    (of : ofRecord record.kind = some group) (mem : range ∈ record.ranges)
    (call : touch group revision s range = some t) : ∃ compacted,
      t.2 = (s.2 || compacted) ∧ Move revision record compacted s.1 t.1 := by
  obtain ⟨⟨touched, compacted⟩, step, result⟩ := Option.bind_eq_some_iff.mp call
  cases result
  exact ⟨compacted, rfl, .touched of mem step⟩

/-- What the moves of a record keep is kept by the record. The moves that compact a group count only
if the result shows a compaction. -/
theorem applyRecord_keeps (inv : ChangeIndex → Prop)
    (keeps : ∀ compacted left right, Move revision record compacted left right →
      (compacted = true → flag = true) → inv left → inv right)
    (call : applyRecord revision s record = some t) (holds : (s.2 = true → flag = true) → inv s.1) :
    (t.2 = true → flag = true) → inv t.1 := by
  unfold applyRecord at call
  split at call
  · rename_i kind
    cases call
    exact fun shown => keeps false _ _ (.resynchronised kind) (by simp) (holds shown)
  · split at call
    · rename_i group of
      refine foldlM_keeps (fun s => (s.2 = true → flag = true) → inv s.1)
        (fun range mem s t step holds shown => ?_) call holds
      obtain ⟨compacted, eq, move⟩ := touch_move of mem step
      rw [eq, Bool.or_eq_true] at shown
      exact keeps compacted _ _ move (fun c => shown (.inr c)) (holds fun c => shown (.inl c))
    · rename_i of
      cases call
      exact fun shown => keeps false _ _ (.bumped of) (by simp) (holds shown)

variable {changes : ChangeSet}

theorem applyAll_keeps (inv : ChangeIndex → Prop) : ∀ {sets : List ChangeSet} {index : ChangeIndex}
    {compacted : Bool}, (∀ changes ∈ sets, ∀ record ∈ changes.records, ∀ compacted left right,
      Move changes.revision record compacted left right → (compacted = true → flag = true) →
        inv left → inv right) →
    index.applyAll sets = some (index', compacted) → (compacted = true → flag = true) →
    inv index → inv index'
  | [], index, compacted, _, call, _, holds => by
    cases call
    exact holds
  | changes :: sets, index, compacted, keeps, call, shown, holds => by
    obtain ⟨first, rest⟩ := forall_mem_cons.mp keeps
    obtain ⟨⟨mid, here⟩, step, call⟩ := Option.bind_eq_some_iff.mp call
    obtain ⟨⟨last, later⟩, steps, result⟩ := Option.bind_eq_some_iff.mp call
    cases result
    simp only [Bool.or_eq_true] at shown
    have run := foldlM_keeps (fun s => (s.2 = true → flag = true) → inv s.1)
      (fun record mem s t step => applyRecord_keeps inv (first record mem) step) step
    exact applyAll_keeps inv rest steps (fun c => shown (.inr c))
      (run (fun _ => holds) fun c => shown (.inl c))

/-- The record is of the kinds of a query and in its region. -/
def Affects (record : ChangeRecord) (kinds : ChangeKinds) (region : AddressRangeSet) : Prop :=
  kinds.intersects record.kind = true ∧ Touches record region

/-- The record is kept somewhere: a record of a region group is kept by its ranges. -/
def Kept (record : ChangeRecord) : Prop :=
  record.ranges = [] → RegionGroupKind.ofRecord record.kind = none

theorem applyRecord_reaches (affects : Affects record kinds region)
    (kept : Kept record) (call : applyRecord revision s record = some t) :
    revision ≤ t.1.latestChange kinds region := by
  obtain ⟨meets, touches⟩ := affects
  unfold applyRecord at call
  split at call
  · rename_i kind
    cases call
    rw [kind] at meets
    exact le_latestChange_iff.mpr (.inl (le_latest_resynchronise.mpr
      (.inr ⟨⟨_, .head _, meets⟩, le_rfl⟩)))
  · rename_i other
    split at call
    · rename_i group of
      -- the region is empty or meets one of the ranges, and there is a range in both cases
      obtain ⟨range, mem, met⟩ : ∃ range ∈ record.ranges, region.isEmpty = true ∨
          ∃ address, region.Contains address ∧ range.Contains address := by
        have some : record.ranges ≠ [] := fun none => by
          rw [kept none] at of
          cases of
        rcases touches with empty | none | ⟨range, mem, met⟩
        · obtain ⟨range, mem⟩ := exists_mem_of_ne_nil _ some
          exact ⟨range, mem, .inl empty⟩
        · exact absurd none some
        · exact ⟨range, mem, .inr met⟩
      refine foldlM_reaches (fun s => revision ≤ s.1.latestChange kinds region)
        (fun range mem s t step => ?_) (fun s t step => ?_) mem call
      · obtain ⟨compacted, -, move⟩ := touch_move of mem step
        exact move.keeps le_rfl
      · obtain ⟨⟨touched, compacted⟩, touch, result⟩ := Option.bind_eq_some_iff.mp step
        cases result
        refine le_latestChange_iff.mpr (.inr ⟨group,
          intersects_mask (kind_and_mask of) meets, ?_⟩)
        simpa using revision_le_latestOver touch met
    · rename_i of
      cases call
      obtain ⟨mask, mem, inside⟩ := (kind_without_group of).resolve_left other
      refine le_latestChange_iff.mpr (.inl (le_latest_bump.mpr
        (.inr ⟨⟨mask, mem, ?_, intersects_mask inside meets⟩, le_rfl⟩)))
      rw [ChangeKinds.intersects, inside]
      exact bne_iff_ne.mpr record.kind_ne_zero

theorem apply_reaches (mem : record ∈ changes.records)
    (affects : Affects record kinds region) (kept : Kept record)
    (call : index.apply changes = some (index', compacted)) :
    changes.revision ≤ index'.latestChange kinds region := by
  refine foldlM_reaches (fun s => changes.revision ≤ s.1.latestChange kinds region)
    (fun other otherMem s t step told => ?_)
    (fun s t step => applyRecord_reaches affects kept step) mem call
  exact applyRecord_keeps (fun index => changes.revision ≤ index.latestChange kinds region)
    (fun _ _ _ move _ => move.keeps le_rfl) step (fun _ => told) id

theorem applyAll_reaches (mem : record ∈ changes.records)
    (affects : Affects record kinds region) (kept : Kept record) : ∀ {sets : List ChangeSet}
    {index : ChangeIndex} {compacted : Bool},
    sets.Pairwise (fun left right => left.revision ≤ right.revision) → changes ∈ sets →
    index.applyAll sets = some (index', compacted) →
    changes.revision ≤ index'.latestChange kinds region
  | first :: sets, index, compacted, ordered, setMem, call => by
    obtain ⟨below, ordered⟩ := pairwise_cons.mp ordered
    obtain ⟨⟨mid, here⟩, step, call⟩ := Option.bind_eq_some_iff.mp call
    obtain ⟨⟨last, later⟩, steps, result⟩ := Option.bind_eq_some_iff.mp call
    cases result
    rcases mem_cons.mp setMem with rfl | setMem
    · exact applyAll_keeps (fun index => changes.revision ≤ index.latestChange kinds region)
        (fun other otherMem _ _ _ _ _ move _ => move.keeps (below other otherMem)) steps id
        (apply_reaches mem affects kept step)
    · exact applyAll_reaches mem affects kept ordered setMem steps

theorem applyRecord_isSome (proper : ∀ range ∈ record.ranges, range.start ≤ range.stop)
    (s : ChangeIndex × Bool) : ∃ t, applyRecord revision s record = some t := by
  unfold applyRecord
  split
  · exact ⟨_, rfl⟩
  · split
    · refine foldlM_isSome s fun range mem s => ?_
      unfold touch RegionGroup.touch
      rw [if_neg (not_lt.mpr (proper range mem))]
      split <;> exact ⟨_, rfl⟩
    · exact ⟨_, rfl⟩

theorem applyAll_isSome : ∀ {sets : List ChangeSet} (index : ChangeIndex),
    (∀ changes ∈ sets, ∀ record ∈ changes.records, ∀ range ∈ record.ranges,
      range.start ≤ range.stop) → ∃ result, index.applyAll sets = some result
  | [], index, _ => ⟨_, rfl⟩
  | changes :: sets, index, proper => by
    obtain ⟨first, rest⟩ := forall_mem_cons.mp proper
    obtain ⟨⟨mid, here⟩, step⟩ : ∃ t, index.apply changes = some t :=
      foldlM_isSome _ fun record mem s => applyRecord_isSome (first record mem) s
    obtain ⟨⟨last, later⟩, steps⟩ := applyAll_isSome mid rest
    exact ⟨(last, here || later), by simp [applyAll, step, steps]⟩

/-- The change index is conservative: a run over proper ranges succeeds, a kept record is told to
the queries that it affects, no query is told more than the largest revision, and a query that no
record concerns is told the initial revision. -/
theorem change_index_is_conservative (sets : List ChangeSet) (initial : Revision)
    (ordered : sets.Pairwise fun left right => left.revision ≤ right.revision) :
    ((∀ changes ∈ sets, ∀ record ∈ changes.records, ∀ range ∈ record.ranges,
      range.start ≤ range.stop) → ∃ result, (new initial).applyAll sets = some result) ∧
    ∀ index compacted, (new initial).applyAll sets = some (index, compacted) →
      ∀ (kinds : ChangeKinds) (region : AddressRangeSet),
        (∀ changes ∈ sets, ∀ record ∈ changes.records, Affects record kinds region → Kept record →
          changes.revision ≤ index.latestChange kinds region) ∧
        (index.latestChange kinds region ≤ initial ∨
          ∃ changes ∈ sets, index.latestChange kinds region ≤ changes.revision) ∧
        (compacted = false → kinds.intersects .all = true →
          (∀ changes ∈ sets, ∀ record ∈ changes.records,
            record.kind ≠ .resynchronise ∧ ¬ Concerns record kinds region) →
          index.latestChange kinds region = initial) := by
  refine ⟨applyAll_isSome _, fun index compacted call kinds region => ⟨?_, ?_, ?_⟩⟩
  · intro changes setMem record mem affects kept
    exact applyAll_reaches mem affects kept ordered setMem call
  · by_contra above
    obtain ⟨initialBelow, below⟩ := not_or.mp above
    -- all revisions would be at most one less than the answer, and the answer with them
    have less : ∀ {revision}, ¬ index.latestChange kinds region ≤ revision →
        revision ≤ index.latestChange kinds region - 1 :=
      fun above => Nat.le_sub_one_of_lt (not_le.mp above)
    have bounded := applyAll_keeps
      (fun index' => index'.Bounded (index.latestChange kinds region - 1))
      (fun changes setMem _ _ _ _ _ move _ => move.bounded
        (less fun le => below ⟨changes, setMem, le⟩)) call id (bounded_new (less initialBelow))
    have le : index.latestChange kinds region ≤ _ := bounded.latestChange_le
    exact absurd le (not_le.mpr (Nat.sub_lt (Nat.zero_lt_of_lt (not_le.mp initialBelow))
      Nat.one_pos))
  · intro detailed meets quiet
    refine applyAll_keeps (fun index => index.latestChange kinds region = initial)
      (fun changes setMem record mem compacts _ _ move shown same => ?_) call id
      (latestChange_new meets)
    obtain ⟨kind, apart⟩ := quiet changes setMem record mem
    cases compacts with
    | true => exact absurd (detailed.symm.trans (shown rfl)) Bool.false_ne_true
    | false => exact (move.quiet kind apart).trans same

/-- The answer to a query after a run from a revision, and whether the run compacted a group. -/
def answer (initial : Revision) (sets : List ChangeSet) (kinds : ChangeKinds)
    (region : AddressRangeSet) : Option (Revision × Bool) :=
  ((new initial).applyAll sets).map fun result => (result.1.latestChange kinds region, result.2)

def firstPage : AddressRangeSet := .insertRange .new ⟨0, 0x1000, 0x1fff⟩

/-- Two writes to the first page, the second one with the change of a mapping elsewhere. -/
def twoWrites : List ChangeSet :=
  [.withRecords 6 [.bytesWritten ⟨0, 0x1000, 0x1003⟩],
    .withRecords 7 [.bytesWritten ⟨0, 0x1002, 0x1005⟩,
      .segmentMappingChanged 3 [⟨0, 0x8000, 0x8fff⟩]]]

theorem change_index_is_conservative_twoWrites :
    ∃ index, (new 5).applyAll twoWrites = some (index, false) ∧
      7 ≤ index.latestChange .bytesWritten firstPage ∧
      7 ≤ index.latestChange .segmentMappingChanged .new ∧
      (index.latestChange .bytesWritten firstPage ≤ 5 ∨
        ∃ changes ∈ twoWrites, index.latestChange .bytesWritten firstPage ≤ changes.revision) ∧
      index.latestChange .symbolAdded firstPage = 5 := by
  have ordered : twoWrites.Pairwise fun left right => left.revision ≤ right.revision := by decide
  obtain ⟨runs, told⟩ := change_index_is_conservative twoWrites 5 ordered
  obtain ⟨⟨index, compacted⟩, call⟩ := runs (by decide)
  have detailed : compacted = false := by
    have shown : ((new 5).applyAll twoWrites).map Prod.snd = some false := by decide
    rw [call] at shown
    exact Option.some.inj shown
  obtain ⟨writes, bounded, -⟩ := told index compacted call .bytesWritten firstPage
  obtain ⟨mappings, -, -⟩ := told index compacted call .segmentMappingChanged .new
  obtain ⟨-, -, exact_⟩ := told index compacted call .symbolAdded firstPage
  refine ⟨index, detailed ▸ call, ?_, ?_, bounded, exact_ detailed (by decide) ?_⟩
  · refine writes _ (.tail _ (.head _)) _ (.head _)
      ⟨by decide, .inr (.inr ⟨_, .head _, ⟨0, 0x1003⟩, ?_, rfl, by decide⟩)⟩
      fun none => absurd none (cons_ne_nil _ _)
    exact (AddressRangeSet.contains_insertRange (by decide)).mpr (.inl ⟨rfl, by decide⟩)
  · exact mappings _ (.tail _ (.head _)) _
      (.tail _ (.head _)) ⟨by decide, .inl rfl⟩ fun _ => by decide
  · intro changes setMem record mem
    simp only [twoWrites, mem_cons, not_mem_nil, or_false] at setMem
    rcases setMem with rfl | rfl
    · rcases mem_singleton.mp mem with rfl
      exact ⟨by decide, fun concerns => absurd concerns.1 (by decide)⟩
    · rcases mem_cons.mp mem with rfl | mem
      · exact ⟨by decide, fun concerns => absurd concerns.1 (by decide)⟩
      · rcases mem_singleton.mp mem with rfl
        refine ⟨by decide, fun concerns => ?_⟩
        obtain ⟨mask, maskMem, -, meets⟩ := concerns
        have apart : (GlobalWatermarks.bumpedKinds.any (ChangeKinds.intersects .symbolAdded)) =
            false := by decide
        exact Bool.false_ne_true (apart.symm.trans (any_eq_true.mpr ⟨mask, maskMem, meets⟩))

/-- The maps miss a record without ranges, tell the kinds of one group alike, know no regions of the
watermarks, and a query for nothing is told no revision. -/
theorem change_index_is_not_exact :
    answer 0 [.withRecords 1 [.problemRecorded .global .unknown]] .problemRecorded .new =
      some (0, false) ∧
    answer 0 [.withRecords 1 [.functionRemoved ⟨0, 0x1000⟩ firstPage]] .functionAdded firstPage =
      some (1, false) ∧
    answer 0 [.withRecords 1 [.segmentMappingChanged 3 [⟨0, 0x8000, 0x8fff⟩]]]
      .segmentMappingChanged firstPage = some (1, false) ∧
    answer 5 [] 0 firstPage = some (0, false) := by
  decide

end Fugue.Queries.ChangeIndex
