import Fugue.Ir.ReferenceOperations

/-!
# Runs of the reference staging

What a transaction does to the references, over all its operations: a replacement of derived
references is exactly its batches one after the other, and what is prepared in the end are the
entries that differ from those of the index.
-/

namespace Fugue.Ir

open Fugue.Lib AddressRangeSet ReferenceEntry ReferenceStaging

/-- What a batch does to the entries. A key of another kind only changes if it has no entry and the
batch has a reference of it, which an assertion of debug builds rules out. -/
structure Replaced (batch : DerivedReferenceBatch) (before after : ReferenceView) : Prop where
  covered : ∀ key, key.kind = batch.kind → batch.coverage.Contains key.from_ →
    propertiesAt (after key) batch.provenance = batch.propertiesOf key
  otherProvenance : ∀ key provenance, provenance ≠ batch.provenance →
    propertiesAt (after key) provenance = propertiesAt (before key) provenance
  otherKind : ∀ key, key.kind ≠ batch.kind → before key ≠ none ∨ batch.propertiesOf key = none →
    after key = before key
  uncovered : ∀ key, ¬ batch.coverage.Contains key.from_ → after key = before key
  added : ∀ key, before key = none →
    after key = (batch.propertiesOf key).map (ReferenceEntry.new batch.provenance)
  dropped : ∀ key, after key = none ↔ ∀ provenance, propertiesAt (after key) provenance = none

/-- The batches one after the other, with those that change an entry at their turn. -/
inductive Processed : List DerivedReferenceBatch → ReferenceView → ReferenceView →
    List DerivedReferenceBatch → Prop where
  | nil (view : ReferenceView) : Processed [] view view []
  | keep {batch : DerivedReferenceBatch} {batches changing : List DerivedReferenceBatch}
      {before after : ReferenceView} : Replaced batch before before →
      Processed batches before after changing → Processed (batch :: batches) before after changing
  | change {batch : DerivedReferenceBatch} {batches changing : List DerivedReferenceBatch}
      {before between after : ReferenceView} : Replaced batch before between → between ≠ before →
      Processed batches between after changing →
      Processed (batch :: batches) before after (batch :: changing)

/-- References are merged under a provenance: each into the entry of its own key. -/
structure Merged (references : List Reference) (provenance : ReferenceProvenance)
    (before after : ReferenceView) : Prop where
  own : ∀ key properties, mergedProperties references key = some properties →
    propertiesAt (after key) provenance =
      some ((propertiesAt (before key) provenance).getD 0 ||| properties)
  otherProvenance : ∀ key other, other ≠ provenance →
    propertiesAt (after key) other = propertiesAt (before key) other
  otherKey : ∀ key, (∀ reference ∈ references, reference.key ≠ key) → after key = before key

/-- The asserted reference of a key is removed. -/
structure Unasserted (key : ReferenceKey) (before after : ReferenceView) : Prop where
  own : propertiesAt (after key) .asserted = none
  otherProvenance : ∀ other, other ≠ .asserted →
    propertiesAt (after key) other = propertiesAt (before key) other
  otherKey : ∀ other, other ≠ key → after other = before other
  dropped : after key = none ↔ ∀ provenance, propertiesAt (after key) provenance = none

namespace DerivedReferenceBatch

variable {batch : DerivedReferenceBatch} {view : ReferenceView}

variable {key : ReferenceKey}

theorem propertiesOf_uncovered (uncovered : ¬ batch.coverage.Contains key.from_) :
    batch.propertiesOf key = none := by
  refine mergedProperties_eq_none.mpr fun reference mem same => uncovered ?_
  rw [← same]
  exact batch.covers reference mem

theorem apply_uncovered (outside : ¬ (key.kind = batch.kind ∧ batch.coverage.Contains key.from_)) :
    batch.apply view key =
      if view key = none then (batch.propertiesOf key).map (ReferenceEntry.new batch.provenance)
      else view key := by
  unfold apply add cover
  rw [if_neg fun both => outside ⟨both.1, contains_iff.mp both.2⟩]
  cases seen : view key with
  | none => rfl
  | some entry => rfl

theorem apply_of_none (absent : view key = none) :
    batch.apply view key = (batch.propertiesOf key).map (ReferenceEntry.new batch.provenance) := by
  unfold apply add cover
  rw [absent]
  split
  · rename_i seen
    split at seen
    · cases seen
    · cases seen
  · rfl

theorem propertiesAt_apply (kind : key.kind = batch.kind)
    (covered : batch.coverage.Contains key.from_) (provenance : ReferenceProvenance) :
    propertiesAt (batch.apply view key) provenance =
      if provenance = batch.provenance then batch.propertiesOf key
      else propertiesAt (view key) provenance := by
  cases seen : view key with
  | none =>
    rw [apply_of_none seen]
    cases batch.propertiesOf key with
    | none =>
      split
      · rfl
      · rfl
    | some properties => exact ReferenceEntry.get?_new properties provenance
  | some entry =>
    have set : batch.cover view key =
        entry.setProvenance batch.provenance (batch.propertiesOf key) := by
      unfold cover
      rw [if_pos ⟨kind, contains_iff.mpr covered⟩, seen]
      rfl
    have same : batch.apply view key = batch.cover view key := by
      unfold apply add
      cases dropped : batch.cover view key with
      | some entry => rfl
      | none =>
        have none := propertiesOf_of_dropped (by rw [seen]; exact nofun) dropped
        rw [none]
        rfl
    rw [same, set]
    exact propertiesAt_setProvenance _ provenance

theorem replaced_apply (batch : DerivedReferenceBatch) (view : ReferenceView) :
    Replaced batch view (batch.apply view) where
  covered key kind covered := by
    rw [propertiesAt_apply kind covered, if_pos rfl]
  otherProvenance key provenance other := by
    by_cases inside : key.kind = batch.kind ∧ batch.coverage.Contains key.from_
    · rw [propertiesAt_apply inside.1 inside.2, if_neg other]
    · rw [apply_uncovered inside]
      split
      · rename_i absent
        rw [absent]
        cases batch.propertiesOf key with
        | none => rfl
        | some properties =>
          refine (ReferenceEntry.get?_new properties provenance).trans ?_
          rw [if_neg other]
          rfl
      · rfl
  otherKind key kind either := by
    rw [apply_uncovered fun both => kind both.1]
    split
    · rename_i absent
      rw [either.resolve_left (not_not.mpr absent), absent]
      rfl
    · rfl
  uncovered key uncovered := by
    rw [apply_uncovered fun both => uncovered both.2, propertiesOf_uncovered uncovered]
    split
    · rename_i absent
      rw [absent]
      rfl
    · rfl
  added key absent := apply_of_none absent
  dropped key := propertiesAt_eq_none

end DerivedReferenceBatch

namespace ReferenceStaging

variable {index : ReferenceIndex} {staging : ReferenceStaging} {coverage : AddressRangeSet}

/-- What a replacement does: the batches are processed, and those that change an entry are noted. -/
structure ReplacesAll (index : ReferenceIndex) (batches changing : List DerivedReferenceBatch)
    (state next : Bool × ReferenceStaging) : Prop where
  processed : Processed batches (state.2.entry index) (next.2.entry index) changing
  changed : next.1 = true ↔ state.1 = true ∨ changing ≠ []
  derivedCoverage : ∀ address, next.2.derivedCoverage.Contains address ↔
    state.2.derivedCoverage.Contains address ∨ ∃ batch ∈ changing, batch.coverage.Contains address
  asserted : next.2.asserted = state.2.asserted
  remembers : Remembers index state.2 → Remembers index next.2

theorem contains_combined : ∀ (batches : List DerivedReferenceBatch) (set : AddressRangeSet)
    (address : Address),
    (batches.foldl (fun set batch => set.insertRanges batch.coverage.ranges) set).Contains address ↔
      set.Contains address ∨ ∃ batch ∈ batches, batch.coverage.Contains address := by
  intro batches
  induction batches with
  | nil => simp
  | cons batch batches ih =>
    intro set address
    rw [List.foldl_cons, ih, contains_insertRanges_ranges,
      List.exists_mem_cons_iff, or_comm (a := batch.coverage.Contains address), or_assoc]

theorem processed_uncovered (view : ReferenceView) : ∀ (batches : List DerivedReferenceBatch),
    (∀ batch ∈ batches, ∀ address, ¬ batch.coverage.Contains address) →
    Processed batches view view [] := by
  intro batches
  induction batches with
  | nil => exact fun _ => .nil view
  | cons batch batches ih =>
    intro empty
    obtain ⟨uncovered, empty⟩ := List.forall_mem_cons.mp empty
    refine .keep ?_ (ih empty)
    have replaced := batch.replaced_apply view
    have same : batch.apply view = view :=
      funext fun key => replaced.uncovered key (uncovered key.from_)
    rw [same] at replaced
    exact replaced

theorem replacesAll_foldlM : ∀ (batches : List DerivedReferenceBatch) {state : Replacing},
    Works index coverage state →
    (∀ batch ∈ batches, ∀ address, batch.coverage.Contains address → coverage.Contains address) →
    ∃ next changing, batches.foldlM replaceBatch state = some next ∧
      ReplacesAll index batches changing (state.changed, state.staging)
        (next.changed, next.staging) := by
  intro batches
  induction batches with
  | nil =>
    intro state _ _
    exact ⟨state, [], rfl, .nil _, by simp, by simp, rfl, id⟩
  | cons batch batches ih =>
    intro state works within
    obtain ⟨here, within⟩ := List.forall_mem_cons.mp within
    obtain ⟨between, step, replaces⟩ := replaces_replaceBatch works here
    obtain ⟨next, changing, run, rest⟩ := ih replaces.works within
    have replaced := batch.replaced_apply (state.staging.entry index)
    have processed := rest.processed
    have changed := rest.changed
    have extended := rest.derivedCoverage
    rw [← replaces.entries] at replaced
    have unfolded : (batch :: batches).foldlM replaceBatch state = some next := by
      rw [List.foldlM_cons, step]
      exact run
    by_cases same : between.staging.entry index = state.staging.entry index
    · have stays := (replaces.entries.symm.trans same)
      refine ⟨next, changing, unfolded, ?_, ?_, ?_, rest.asserted.trans replaces.asserted,
        fun known => rest.remembers (replaces.remembers known)⟩
      · rw [same] at replaced processed
        exact .keep replaced processed
      · rw [changed, replaces.changed, or_iff_left (not_not.mpr stays)]
      · intro address
        rw [extended, replaces.derivedCoverage]
        exact or_congr_left (or_iff_left fun both => both.1 stays)
    · have moves : batch.apply (state.staging.entry index) ≠ state.staging.entry index := by
        rw [← replaces.entries]
        exact same
      refine ⟨next, batch :: changing, unfolded, .change replaced same processed, ?_, ?_,
        rest.asserted.trans replaces.asserted,
        fun known => rest.remembers (replaces.remembers known)⟩
      · rw [changed, replaces.changed]
        exact iff_of_true (.inl (.inr moves)) (.inr (List.cons_ne_nil _ _))
      · intro address
        rw [extended, replaces.derivedCoverage, and_iff_right moves, or_assoc,
          List.exists_mem_cons_iff]

theorem replacesAll (index : ReferenceIndex) (staging : ReferenceStaging)
    (batches : List DerivedReferenceBatch) :
    ∃ next changing, staging.replaceDerivedReferenceBatches index batches = some next ∧
      ReplacesAll index batches changing (false, staging) next := by
  have combined := contains_combined batches .new
  unfold replaceDerivedReferenceBatches
  dsimp only
  generalize batches.foldl (fun set batch => AddressRangeSet.insertRanges set batch.coverage.ranges)
    AddressRangeSet.new = coverage at combined
  cases empty : coverage.isEmpty with
  | true =>
    refine ⟨(false, staging), [], rfl, processed_uncovered _ _ ?_, by simp, by simp, rfl, id⟩
    intro batch mem address inside
    exact AddressRangeSet.isEmpty_iff.mp empty address
      ((combined address).mpr (.inr ⟨batch, mem, inside⟩))
  | false =>
    obtain ⟨next, changing, run, replaces⟩ := @replacesAll_foldlM index coverage batches
      ⟨staging.referencesIn index coverage, staging, false⟩ (get?_referencesIn coverage)
      fun batch mem address inside => (combined address).mpr (.inr ⟨batch, mem, inside⟩)
    exact ⟨_, changing, Option.bind_eq_some_iff.mpr ⟨next, run, rfl⟩, replaces⟩

theorem merged_of_withMerged {references : List Reference} {provenance : ReferenceProvenance}
    {before after : ReferenceView} (entries : ∀ key, after key =
      withMerged (before key) provenance (mergedProperties references key)) :
    Merged references provenance before after where
  own key properties found := by
    rw [entries key, found]
    exact (propertiesAt_mergeInto _ _).trans (if_pos rfl)
  otherProvenance key other ne := by
    rw [entries key]
    cases mergedProperties references key with
    | none => rfl
    | some properties => exact (propertiesAt_mergeInto _ _).trans (if_neg ne)
  otherKey key absent := by
    rw [entries key, mergedProperties_eq_none.mpr absent]
    rfl

theorem ne_iff_exists {before after : ReferenceView} :
    after ≠ before ↔ ∃ key, after key ≠ before key := Function.ne_iff

theorem insert_exact (index : ReferenceIndex) (staging : ReferenceStaging) (reference : Reference) :
    Merged [reference] .asserted (staging.entry index)
        ((staging.insert index reference).2.entry index) ∧
      ((staging.insert index reference).1 = true ↔
        (staging.insert index reference).2.entry index ≠ staging.entry index) ∧
      (staging.insert index reference).2.derivedCoverage = staging.derivedCoverage ∧
      (Remembers index staging → Remembers index (staging.insert index reference).2) := by
  obtain ⟨changed, staged⟩ := @insert_eq index staging reference
  have merges := @merges_mergeReference index .asserted (false, staging) reference
  rw [entry_congr staged, changed]
  refine ⟨merged_of_withMerged merges.entries, ?_, ?_,
    fun known => (merges.remembers known).congr staged⟩
  · rw [merges.changed, or_iff_right Bool.false_ne_true, ne_iff_exists]
  · unfold ReferenceStaging.insert
    dsimp only
    split
    · rfl
    · rfl

theorem remove_exact (index : ReferenceIndex) (staging : ReferenceStaging) (key : ReferenceKey) :
    Unasserted key (staging.entry index) ((staging.remove index key).2.entry index) ∧
      ((staging.remove index key).1 = true ↔
        (staging.remove index key).2.entry index ≠ staging.entry index) ∧
      (staging.remove index key).2.derivedCoverage = staging.derivedCoverage ∧
      (Remembers index staging → Remembers index (staging.remove index key).2) := by
  have keep : propertiesAt (staging.entry index key) .asserted = none →
      Unasserted key (staging.entry index) (staging.entry index) := fun absent =>
    ⟨absent, fun _ _ => rfl, fun _ _ => rfl, propertiesAt_eq_none⟩
  unfold ReferenceStaging.remove
  cases seen : staging.entry index key with
  | none =>
    rw [seen] at keep
    exact ⟨keep rfl, by simp, rfl, id⟩
  | some entry =>
    dsimp only
    by_cases has : entry.hasProvenance .asserted = true
    · rw [if_pos has]
      have after := @entry_stageChange staging index key (some entry)
        (entry.setProvenance .asserted none)
      have own : propertiesAt (entry.setProvenance .asserted none) .asserted = none := by
        rw [propertiesAt_setProvenance, if_pos rfl]
      refine ⟨⟨?_, ?_, ?_, propertiesAt_eq_none⟩, ?_, rfl,
        fun known => known.stageChange seen.symm _⟩
      · apply (congrArg (propertiesAt · _) (after key)).trans
        rw [if_pos rfl]
        exact own
      · intro other ne
        apply (congrArg (propertiesAt · _) (after key)).trans
        rw [if_pos rfl, propertiesAt_setProvenance, if_neg ne, seen]
        rfl
      · intro other ne
        exact (after other).trans (if_neg ne)
      · refine iff_of_true rfl fun same => ?_
        have here := (after key).symm.trans (congrFun same key)
        rw [if_pos rfl, seen] at here
        rw [here] at own
        unfold hasProvenance at has
        rw [show entry.provenances.get? .asserted = none from own] at has
        cases has
    · have absent : entry.provenances.get? .asserted = none :=
        Option.not_isSome_iff_eq_none.mp has
      rw [seen] at keep
      rw [if_neg has]
      exact ⟨keep absent, by simp, rfl, id⟩

theorem mergeDerivedReferences_exact (index : ReferenceIndex) (staging : ReferenceStaging)
    (provenance : ReferenceProvenance) (references : List Reference) :
    Merged references provenance (staging.entry index)
        ((staging.mergeDerivedReferences index provenance references).2.entry index) ∧
      ((staging.mergeDerivedReferences index provenance references).1 = true ↔
        (staging.mergeDerivedReferences index provenance references).2.entry index ≠
          staging.entry index) ∧
      (staging.mergeDerivedReferences index provenance references).2.asserted = staging.asserted ∧
      (Remembers index staging →
        Remembers index (staging.mergeDerivedReferences index provenance references).2) := by
  have merges := @merges_foldl index provenance references (false, staging)
  refine ⟨merged_of_withMerged merges.entries, ?_, merges.asserted, merges.remembers⟩
  apply merges.changed.trans
  rw [or_iff_right Bool.false_ne_true, ne_iff_exists]
  rfl

end ReferenceStaging

inductive ReferenceOperation where
  | insert (reference : Reference)
  | remove (key : ReferenceKey)
  | mergeDerived (provenance : ReferenceProvenance) (references : List Reference)
  | replaceDerived (batches : List DerivedReferenceBatch)

namespace ReferenceOperation

/-- An operation, with whether it reports a change. -/
def run (index : ReferenceIndex) (staging : ReferenceStaging) :
    ReferenceOperation → Option (Bool × ReferenceStaging)
  | .insert reference => some (staging.insert index reference)
  | .remove key => some (staging.remove index key)
  | .mergeDerived provenance references =>
    some (staging.mergeDerivedReferences index provenance references)
  | .replaceDerived batches => staging.replaceDerivedReferenceBatches index batches

def runAll (index : ReferenceIndex) (operations : List ReferenceOperation)
    (staging : ReferenceStaging) : Option ReferenceStaging :=
  operations.foldlM (fun staging operation => (operation.run index staging).map Prod.snd) staging

theorem exists_run (index : ReferenceIndex) (staging : ReferenceStaging)
    (operation : ReferenceOperation) : ∃ next, operation.run index staging = some next ∧
      (staging.Remembers index → next.2.Remembers index) := by
  cases operation with
  | insert reference =>
    exact ⟨_, rfl, (insert_exact index staging reference).2.2.2⟩
  | remove key => exact ⟨_, rfl, (remove_exact index staging key).2.2.2⟩
  | mergeDerived provenance references =>
    exact ⟨_, rfl,
      (mergeDerivedReferences_exact index staging provenance references).2.2.2⟩
  | replaceDerived batches =>
    obtain ⟨next, _, run, replaces⟩ := replacesAll index staging batches
    exact ⟨next, run, replaces.remembers⟩

theorem exists_runAll (index : ReferenceIndex) : ∀ (operations : List ReferenceOperation)
    (staging : ReferenceStaging), ∃ next, runAll index operations staging = some next ∧
      (staging.Remembers index → next.Remembers index) := by
  intro operations
  induction operations with
  | nil => exact fun staging => ⟨staging, rfl, id⟩
  | cons operation operations ih =>
    intro staging
    obtain ⟨between, step, kept⟩ := operation.exists_run index staging
    obtain ⟨next, rest, kept'⟩ := ih between.2
    refine ⟨next, ?_, fun known => kept' (kept known)⟩
    unfold runAll
    rw [List.foldlM_cons, step]
    exact rest

end ReferenceOperation

namespace ReferenceStaging

theorem mem_prepare {index : ReferenceIndex} {staging : ReferenceStaging}
    (remembers : Remembers index staging) {key : ReferenceKey} {entry : Option ReferenceEntry} :
    (key, entry) ∈ staging.prepare ↔ staging.entry index key = entry ∧ entry ≠ index.get key := by
  unfold prepare
  rw [List.mem_map]
  constructor
  · intro ⟨staged, mem, eq⟩
    obtain ⟨isStaged, differs⟩ := List.mem_filter.mp mem
    cases eq
    refine ⟨(entry_of_staged isStaged).symm, ?_⟩
    rw [← remembers staged isStaged]
    exact of_decide_eq_true differs
  · intro ⟨seen, differs⟩
    cases found : staging.stagedReferences.get? key with
    | none =>
      unfold ReferenceStaging.entry at seen
      rw [found] at seen
      exact absurd seen.symm differs
    | some staged =>
      have isStaged := OrdMap.get?_eq_some.mp found
      have same : staged.entry = entry := (entry_of_staged isStaged).trans seen
      refine ⟨(key, staged), List.mem_filter.mpr ⟨isStaged, decide_eq_true ?_⟩, ?_⟩
      · rw [same, remembers _ isStaged]
        exact differs
      · rw [same]

/-- Replacing derived references is exact: from every staging, the batches are processed one after
the other, a change is reported and the derived coverage extended exactly for those that change an
entry; the other operations change what is theirs; and what is prepared after any operations is what
differs from the index. A batch has the merged properties of its references, and covers where they
come from. -/
theorem replaces_exactly (index : ReferenceIndex) (staging : ReferenceStaging) :
    (∀ batches, ∃ next changing, staging.replaceDerivedReferenceBatches index batches = some next ∧
        Processed batches (staging.entry index) (next.2.entry index) changing ∧
        (next.1 = true ↔ changing ≠ []) ∧
        (∀ address, next.2.derivedCoverage.Contains address ↔
          staging.derivedCoverage.Contains address ∨
            ∃ batch ∈ changing, batch.coverage.Contains address) ∧
        next.2.asserted = staging.asserted) ∧
      (∀ reference, Merged [reference] .asserted (staging.entry index)
          ((staging.insert index reference).2.entry index) ∧
        ((staging.insert index reference).1 = true ↔
          (staging.insert index reference).2.entry index ≠ staging.entry index)) ∧
      (∀ key, Unasserted key (staging.entry index) ((staging.remove index key).2.entry index) ∧
        ((staging.remove index key).1 = true ↔
          (staging.remove index key).2.entry index ≠ staging.entry index)) ∧
      (∀ provenance references, Merged references provenance (staging.entry index)
          ((staging.mergeDerivedReferences index provenance references).2.entry index) ∧
        ((staging.mergeDerivedReferences index provenance references).1 = true ↔
          (staging.mergeDerivedReferences index provenance references).2.entry index ≠
            staging.entry index)) ∧
      (∀ operations, ∃ reached, ReferenceOperation.runAll index operations .default = some reached ∧
          ∀ key entry, (key, entry) ∈ reached.prepare ↔
            reached.entry index key = entry ∧ entry ≠ index.get key) ∧
      ∀ coverage kind provenance references typed,
        (∀ key, (DerivedReferenceBatch.new coverage kind provenance references typed).propertiesOf
          key = mergedProperties references key) ∧
        ∀ address, (DerivedReferenceBatch.new coverage kind provenance references
          typed).coverage.Contains address ↔
            coverage.Contains address ∨ ∃ reference ∈ references, reference.from_ = address := by
  refine ⟨?_, ?_, ?_, ?_, ?_, ?_⟩
  · intro batches
    obtain ⟨next, changing, run, replaces⟩ := replacesAll index staging batches
    exact ⟨next, changing, run, replaces.processed,
      replaces.changed.trans (or_iff_right Bool.false_ne_true), replaces.derivedCoverage,
      replaces.asserted⟩
  · intro reference
    obtain ⟨merged, changed, -⟩ := insert_exact index staging reference
    exact ⟨merged, changed⟩
  · intro key
    obtain ⟨removed, changed, -⟩ := remove_exact index staging key
    exact ⟨removed, changed⟩
  · intro provenance references
    obtain ⟨merged, changed, -⟩ :=
      mergeDerivedReferences_exact index staging provenance references
    exact ⟨merged, changed⟩
  · intro operations
    obtain ⟨reached, run, kept⟩ := ReferenceOperation.exists_runAll index operations .default
    exact ⟨reached, run, fun key entry => mem_prepare (kept nofun)⟩
  · intro coverage kind provenance references typed
    exact ⟨DerivedReferenceBatch.mergedProperties_normalise references,
      fun address => DerivedReferenceBatch.contains_new⟩

/-- Two references of one key in one batch, which covers where they come from. -/
theorem replaces_exactly_merged :
    (DerivedReferenceBatch.new .new .data .asserted
        [⟨⟨0, 16⟩, .address ⟨0, 32⟩, .data, 1, .derived⟩,
          ⟨⟨0, 16⟩, .address ⟨0, 32⟩, .data, 4, .derived⟩] (by decide)).propertiesOf
        ⟨⟨0, 16⟩, .address ⟨0, 32⟩, .data⟩ = some 5 ∧
      (DerivedReferenceBatch.new .new .data .asserted
        [⟨⟨0, 16⟩, .address ⟨0, 32⟩, .data, 1, .derived⟩,
          ⟨⟨0, 16⟩, .address ⟨0, 32⟩, .data, 4, .derived⟩] (by decide)).coverage.Contains
        ⟨0, 16⟩ := by
  have all := replaces_exactly .new .default
  obtain ⟨-, -, -, -, -, batches⟩ := all
  obtain ⟨properties, covers⟩ := batches .new .data .asserted
    [⟨⟨0, 16⟩, .address ⟨0, 32⟩, .data, 1, .derived⟩,
      ⟨⟨0, 16⟩, .address ⟨0, 32⟩, .data, 4, .derived⟩] (by decide)
  refine ⟨(properties _).trans (by decide), (covers _).mpr (.inr ?_)⟩
  exact ⟨_, .head _, rfl⟩

end ReferenceStaging

end Fugue.Ir
