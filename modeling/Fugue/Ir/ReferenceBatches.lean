import Fugue.Ir.ReferenceReplacement

/-!
# Replacing derived references

`replace_derived_reference_batches` works off its batches one after the other: a batch sets its
provenance for the keys that it covers, and adds the references of keys that have no entry. The
loops change the working copy and the staging together.
-/

namespace Fugue.Ir

open Fugue.Lib AddressRangeSet DerivedReferenceBatch

namespace DerivedReferenceBatch

variable (batch : DerivedReferenceBatch) (view : ReferenceKey → Option ReferenceEntry)

/-- The provenance of the batch is set or taken away at the keys of its kind that it covers. -/
def cover (key : ReferenceKey) : Option ReferenceEntry :=
  if key.kind = batch.kind ∧ batch.coverage.contains key.from_ = true then
    (view key).bind fun entry => entry.setProvenance batch.provenance (batch.propertiesOf key)
  else view key

/-- The references of the batch are added at the keys without an entry. -/
def add (key : ReferenceKey) : Option ReferenceEntry :=
  match view key with
  | some entry => some entry
  | none => (batch.propertiesOf key).map (ReferenceEntry.new batch.provenance)

/-- What a batch makes of the references. -/
def apply : ReferenceKey → Option ReferenceEntry := batch.add (batch.cover view)

variable {batch view}

theorem propertiesOf_of_dropped {key : ReferenceKey} (present : view key ≠ none)
    (dropped : batch.cover view key = none) : batch.propertiesOf key = none := by
  obtain ⟨entry, seen⟩ := Option.ne_none_iff_exists'.mp present
  unfold cover at dropped
  rw [seen] at dropped
  split at dropped
  · by_contra found
    obtain ⟨properties, has⟩ := Option.ne_none_iff_exists'.mp found
    have properties? := @ReferenceEntry.propertiesAt_setProvenance entry batch.provenance
      (some properties) batch.provenance
    rw [Option.bind_some] at dropped
    rw [← has, dropped, if_pos rfl, has] at properties?
    cases properties?
  · cases dropped

theorem apply_eq_iff : batch.apply view = view ↔
    batch.cover view = view ∧ batch.add (batch.cover view) = batch.cover view := by
  constructor
  · intro same
    have covered : batch.cover view = view := by
      funext key
      have here := congrFun same key
      unfold apply add at here
      cases seen : batch.cover view key with
      | some entry =>
        rw [seen] at here
        exact here
      | none =>
        rw [seen] at here
        by_contra ne
        have none := propertiesOf_of_dropped (Ne.symm ne) seen
        rw [none] at here
        exact ne here
    refine ⟨covered, ?_⟩
    rw [covered]
    unfold apply at same
    rw [covered] at same
    exact same
  · intro ⟨covered, added⟩
    unfold apply
    rw [added, covered]

end DerivedReferenceBatch
open DerivedReferenceBatch (add)

namespace ReferenceStaging

/-- What is staged knows the entry that its key has in the index. -/
def Remembers (index : ReferenceIndex) (staging : ReferenceStaging) : Prop :=
  ∀ x ∈ staging.stagedReferences.entries, x.2.previous = index.get x.1

variable {index : ReferenceIndex} {staging : ReferenceStaging} {coverage : AddressRangeSet}
  {batch : DerivedReferenceBatch} {state next last : Replacing}

theorem Remembers.stageChange (remembers : Remembers index staging) {key : ReferenceKey}
    {previous : Option ReferenceEntry} (known : previous = staging.entry index key)
    (entry : Option ReferenceEntry) : Remembers index (staging.stageChange key previous entry) := by
  unfold Remembers ReferenceStaging.stageChange
  intro x mem
  cases found : staging.stagedReferences.get? key with
  | some staged =>
    rw [found] at mem
    rcases OrdMap.mem_insert.mp mem with eq | ⟨old, -⟩
    · rw [eq]
      exact remembers (key, staged) (OrdMap.get?_eq_some.mp found)
    · exact remembers x old
  | none =>
    rw [found] at mem
    rcases OrdMap.mem_insert.mp mem with eq | ⟨old, -⟩
    · rw [eq, known]
      unfold ReferenceStaging.entry
      rw [found]
    · exact remembers x old

/-- The working copy has the entries that are seen in the coverage. -/
def Works (index : ReferenceIndex) (coverage : AddressRangeSet) (state : Replacing) : Prop :=
  ∀ key, state.current.get? key =
    if coverage.contains key.from_ then state.staging.entry index key else none

/-- What some rounds of a loop do: some keys get new values, which is noted if they differ. -/
structure Rounds (index : ReferenceIndex) (coverage : AddressRangeSet) (state next : Replacing)
    (keys : ReferenceKey → Prop) (value : ReferenceKey → Option ReferenceEntry) : Prop where
  works : Works index coverage next
  inside : ∀ key, keys key → next.staging.entry index key = value key
  outside : ∀ key, ¬ keys key → next.staging.entry index key = state.staging.entry index key
  changed : next.changed = true ↔ state.changed = true ∨
    ∃ key, keys key ∧ value key ≠ state.staging.entry index key
  asserted : next.staging.asserted = state.staging.asserted
  derivedCoverage : next.staging.derivedCoverage = state.staging.derivedCoverage
  remembers : Remembers index state.staging → Remembers index next.staging

variable {value value' : ReferenceKey → Option ReferenceEntry} {keys keys' : ReferenceKey → Prop}

theorem Rounds.keep (works : Works index coverage state)
    (same : ∀ key, keys key → value key = state.staging.entry index key) :
    Rounds index coverage state state keys value where
  works := works
  inside key mem := (same key mem).symm
  outside _ _ := rfl
  changed := by
    refine (or_iff_left ?_).symm
    intro ⟨key, mem, ne⟩
    exact ne (same key mem)
  asserted := rfl
  derivedCoverage := rfl
  remembers := id

theorem Rounds.change (works : Works index coverage state) {key : ReferenceKey}
    (covered : coverage.contains key.from_ = true)
    (differs : value key ≠ state.staging.entry index key) :
    Rounds index coverage state ⟨state.current.put key (value key),
      state.staging.stageChange key (state.staging.entry index key) (value key), true⟩
      (· = key) value where
  works other := by
    rw [OrdMap.get?_put, entry_stageChange, works other]
    split
    · rename_i same
      rw [same, if_pos covered]
    · rfl
  inside other same := by
    rw [entry_stageChange, if_pos same, same]
  outside other ne := by
    rw [entry_stageChange, if_neg ne]
  changed := iff_of_true rfl (.inr ⟨key, rfl, differs⟩)
  asserted := rfl
  derivedCoverage := rfl
  remembers remembers := remembers.stageChange rfl _

theorem Rounds.trans (first : Rounds index coverage state next keys value)
    (second : Rounds index coverage next last keys' value') (apart : ∀ key, keys key → ¬ keys' key)
    (same : ∀ key, keys' key → value' key = value key) :
    Rounds index coverage state last (fun key => keys key ∨ keys' key) value where
  works := second.works
  inside key either := by
    rcases either with early | late
    · rw [second.outside key (apart key early), first.inside key early]
    · rw [second.inside key late, same key late]
  outside key neither := by
    obtain ⟨early, late⟩ := not_or.mp neither
    rw [second.outside key late, first.outside key early]
  changed := by
    rw [second.changed, first.changed, or_assoc]
    apply or_congr_right
    constructor
    · intro either
      rcases either with ⟨key, early, ne⟩ | ⟨key, late, ne⟩
      · exact ⟨key, .inl early, ne⟩
      · rw [same key late, first.outside key fun early => apart key early late] at ne
        exact ⟨key, .inr late, ne⟩
    · intro ⟨key, either, ne⟩
      rcases either with early | late
      · exact .inl ⟨key, early, ne⟩
      · refine .inr ⟨key, late, ?_⟩
        rw [same key late, first.outside key fun early => apart key early late]
        exact ne
  asserted := second.asserted.trans first.asserted
  derivedCoverage := second.derivedCoverage.trans first.derivedCoverage
  remembers known := second.remembers (first.remembers known)

theorem Rounds.congr (rounds : Rounds index coverage state next keys value)
    (same : ∀ key, keys' key ↔ keys key) : Rounds index coverage state next keys' value := by
  have eq : keys' = keys := funext fun key => propext (same key)
  rw [eq]
  exact rounds

theorem rounds_replaceCovered (works : Works index coverage state) {key : ReferenceKey}
    (inBatch : batch.coverage.contains key.from_ = true)
    (covered : coverage.contains key.from_ = true)
    (present : state.staging.entry index key ≠ none) :
    ∃ next, replaceCovered batch state key = some next ∧
      Rounds index coverage state next (· = key) (batch.cover (state.staging.entry index)) := by
  obtain ⟨previous, seen⟩ := Option.ne_none_iff_exists'.mp present
  have current : state.current.get? key = some previous := by
    rw [works key, if_pos covered, seen]
  unfold replaceCovered
  rw [current, batch.map_find key]
  change ∃ next, (if key.kind ≠ batch.kind then some state
    else if previous.setProvenance batch.provenance (batch.propertiesOf key) = some previous then
      some state
    else some _) = some next ∧ _
  by_cases kind : key.kind = batch.kind
  · have value : batch.cover (state.staging.entry index) key =
        previous.setProvenance batch.provenance (batch.propertiesOf key) := by
      unfold cover
      rw [if_pos ⟨kind, inBatch⟩, seen]
      rfl
    rw [if_neg (not_not.mpr kind)]
    split
    · rename_i same
      refine ⟨state, rfl, Rounds.keep works fun other isKey => ?_⟩
      rw [isKey, value, same, seen]
    · rename_i differs
      have change := @Rounds.change index coverage state (batch.cover (state.staging.entry index))
        works key covered (by rw [value, seen]; exact differs)
      rw [value, seen] at change
      exact ⟨_, rfl, change⟩
  · rw [if_pos kind]
    refine ⟨state, rfl, Rounds.keep works fun other isKey => ?_⟩
    rw [isKey]
    exact if_neg fun both => kind both.1

theorem rounds_foldlM_replaceCovered : ∀ (keys : List ReferenceKey) {state : Replacing},
    Works index coverage state → keys.Nodup →
    (∀ key ∈ keys, batch.coverage.contains key.from_ = true ∧
      coverage.contains key.from_ = true ∧ state.staging.entry index key ≠ none) →
    ∃ next, keys.foldlM (replaceCovered batch) state = some next ∧
      Rounds index coverage state next (· ∈ keys) (batch.cover (state.staging.entry index)) := by
  intro keys
  induction keys with
  | nil =>
    intro state works _ _
    exact ⟨state, rfl, Rounds.keep works fun key mem => nomatch mem⟩
  | cons key keys ih =>
    intro state works nodup inside
    obtain ⟨fresh, nodup⟩ := List.nodup_cons.mp nodup
    obtain ⟨⟨inBatch, covered, present⟩, inside⟩ := List.forall_mem_cons.mp inside
    obtain ⟨next, step, round⟩ := rounds_replaceCovered works inBatch covered present
    have unseen : ∀ other ∈ keys,
        next.staging.entry index other = state.staging.entry index other :=
      fun other mem => round.outside other fun same => fresh (same ▸ mem)
    have inside' : ∀ other ∈ keys, batch.coverage.contains other.from_ = true ∧
        coverage.contains other.from_ = true ∧ next.staging.entry index other ≠ none := by
      intro other mem
      rw [unseen other mem]
      exact inside other mem
    obtain ⟨last, run, rounds⟩ := ih round.works nodup inside'
    refine ⟨last, ?_, ?_⟩
    · rw [List.foldlM_cons, step]
      exact run
    · refine (round.trans rounds ?_ ?_).congr fun other => List.mem_cons
      · intro other same mem
        exact fresh (same ▸ mem)
      · intro other mem
        unfold cover
        rw [unseen other mem]

theorem rounds_addAbsent (works : Works index coverage state) {reference : Reference}
    (mem : reference ∈ batch.references) (covered : coverage.contains reference.from_ = true) :
    Rounds index coverage state (addAbsent batch state reference) (· = reference.key)
      (batch.add (state.staging.entry index)) := by
  have current : state.current.get? reference.key = state.staging.entry index reference.key := by
    rw [works reference.key]
    exact if_pos covered
  unfold addAbsent
  dsimp only
  rw [current]
  cases seen : state.staging.entry index reference.key with
  | some entry =>
    refine Rounds.keep works fun key isKey => ?_
    unfold add
    rw [isKey, seen]
  | none =>
    have value : batch.add (state.staging.entry index) reference.key =
        some (.new batch.provenance reference.properties) := by
      unfold add
      rw [seen, propertiesOf_mem mem]
      rfl
    have change := @Rounds.change index coverage state (batch.add (state.staging.entry index))
      works reference.key covered (by rw [value, seen]; exact nofun)
    rw [value, seen] at change
    exact change

theorem rounds_foldl_addAbsent : ∀ (references : List Reference) {state : Replacing},
    Works index coverage state → references.Pairwise (fun x y => x.key < y.key) →
    (∀ reference ∈ references, reference ∈ batch.references ∧
      coverage.contains reference.from_ = true) →
    Rounds index coverage state (references.foldl (addAbsent batch) state)
      (· ∈ references.map Reference.key) (batch.add (state.staging.entry index)) := by
  intro references
  induction references with
  | nil =>
    intro state works _ _
    exact Rounds.keep works fun key mem => nomatch mem
  | cons reference references ih =>
    intro state works sorted inside
    obtain ⟨above, sorted⟩ := List.pairwise_cons.mp sorted
    obtain ⟨⟨isOf, covered⟩, inside⟩ := List.forall_mem_cons.mp inside
    have round := rounds_addAbsent works isOf covered
    have later : ∀ key ∈ references.map Reference.key, key ≠ reference.key := by
      intro key mem
      obtain ⟨other, otherMem, eq⟩ := List.mem_map.mp mem
      rw [← eq]
      exact (above other otherMem).ne'
    refine (round.trans (ih round.works sorted inside) ?_ ?_).congr fun other => List.mem_cons
    · intro other same mem
      exact later other mem same
    · intro other mem
      unfold add
      rw [round.outside other (later other mem)]

theorem Rounds.everywhere (rounds : Rounds index coverage state next keys value)
    (same : ∀ key, ¬ keys key → value key = state.staging.entry index key) :
    next.staging.entry index = value ∧
      (next.changed = true ↔ state.changed = true ∨ value ≠ state.staging.entry index) := by
  constructor
  · funext key
    by_cases mem : keys key
    · exact rounds.inside key mem
    · rw [rounds.outside key mem, same key mem]
  · rw [rounds.changed]
    apply or_congr_right
    constructor
    · intro ⟨key, _, ne⟩ eq
      exact ne (congrFun eq key)
    · intro ne
      by_contra none
      refine ne (funext fun key => ?_)
      by_cases mem : keys key
      · by_contra differs
        exact none ⟨key, mem, differs⟩
      · exact same key mem

structure Replaces (index : ReferenceIndex) (coverage : AddressRangeSet)
    (batch : DerivedReferenceBatch) (state next : Replacing) : Prop where
  works : Works index coverage next
  entries : next.staging.entry index = batch.apply (state.staging.entry index)
  changed : next.changed = true ↔ state.changed = true ∨
    batch.apply (state.staging.entry index) ≠ state.staging.entry index
  asserted : next.staging.asserted = state.staging.asserted
  derivedCoverage : ∀ address, next.staging.derivedCoverage.Contains address ↔
    state.staging.derivedCoverage.Contains address ∨
      batch.apply (state.staging.entry index) ≠ state.staging.entry index ∧
        batch.coverage.Contains address
  remembers : Remembers index state.staging → Remembers index next.staging

/-- A batch whose coverage is within that of the working copy is worked off. -/
theorem replaces_replaceBatch (works : Works index coverage state)
    (within : ∀ address, batch.coverage.Contains address → coverage.Contains address) :
    ∃ next, replaceBatch state batch = some next ∧ Replaces index coverage batch state next := by
  have start : Works index coverage { state with changed := false } := works
  have inside : ∀ key ∈ (batch.coverage.ranges.flatMap (entriesIn state.current)).map Prod.fst,
      batch.coverage.contains key.from_ = true ∧ coverage.contains key.from_ = true ∧
        state.staging.entry index key ≠ none := by
    intro key mem
    obtain ⟨x, found, eq⟩ := List.mem_map.mp mem
    subst eq
    obtain ⟨present, covered⟩ := mem_covered.mp found
    have isIn := contains_iff.mpr (within _ covered)
    refine ⟨contains_iff.mpr covered, isIn, ?_⟩
    have seen := works x.1
    rw [OrdMap.get?_eq_some.mpr present, if_pos isIn] at seen
    rw [← seen]
    exact nofun
  obtain ⟨middle, run, covering⟩ := rounds_foldlM_replaceCovered _ start (nodup_covered _ _) inside
  have adding := @rounds_foldl_addAbsent index coverage batch batch.references middle covering.works
    batch.sorted fun reference mem =>
      ⟨mem, contains_iff.mpr (within _ (batch.covers reference mem))⟩
  obtain ⟨coverEntries, coverChanged⟩ := covering.everywhere (by
    intro key notCovered
    refine ite_eq_right_iff.mpr fun both => ?_
    cases seen : state.staging.entry index key with
    | none => rfl
    | some entry =>
      have covered := contains_iff.mp both.2
      have present : state.current.get? key = some entry := by
        rw [works key, if_pos (contains_iff.mpr (within _ covered)), seen]
      exact absurd (List.mem_map.mpr ⟨(key, entry),
        mem_covered.mpr ⟨OrdMap.get?_eq_some.mp present, covered⟩, rfl⟩) notCovered)
  obtain ⟨addEntries, addChanged⟩ := adding.everywhere (by
    intro key notAdded
    unfold add
    have absent : batch.propertiesOf key = none :=
      mergedProperties_eq_none.mpr fun reference mem same =>
        notAdded (List.mem_map.mpr ⟨reference, mem, same⟩)
    rw [absent]
    cases middle.staging.entry index key with
    | none => rfl
    | some entry => rfl)
  rw [coverEntries] at addEntries addChanged
  have entries : (batch.references.foldl (addAbsent batch) middle).staging.entry index =
      batch.apply (state.staging.entry index) := addEntries
  have changed : (batch.references.foldl (addAbsent batch) middle).changed = true ↔
      batch.apply (state.staging.entry index) ≠ state.staging.entry index := by
    have differs := @apply_eq_iff batch (state.staging.entry index)
    have covers := coverChanged.trans (or_iff_right Bool.false_ne_true)
    exact addChanged.trans
      ((or_congr_left covers).trans (not_and_or.symm.trans (not_congr differs).symm))
  refine ⟨_, Option.bind_eq_some_iff.mpr ⟨middle, run, rfl⟩, ?_⟩
  cases differs : (batch.references.foldl (addAbsent batch) middle).changed with
  | true =>
    have apart := changed.mp differs
    exact {
      works := adding.works
      entries := entries
      changed := iff_of_true (Bool.or_true _) (.inr apart)
      asserted := adding.asserted.trans covering.asserted
      derivedCoverage := by
        intro address
        rw [if_pos rfl]
        rw [contains_insertRanges_ranges, adding.derivedCoverage, covering.derivedCoverage, or_comm]
        exact or_congr_right (and_iff_right apart).symm
      remembers := fun known => adding.remembers (covering.remembers known) }
  | false =>
    have same : batch.apply (state.staging.entry index) = state.staging.entry index := by
      by_contra apart
      rw [changed.mpr apart] at differs
      cases differs
    exact {
      works := adding.works
      entries := entries
      changed := by
        rw [Bool.or_false]
        exact (or_iff_left fun apart => apart same).symm
      asserted := adding.asserted.trans covering.asserted
      derivedCoverage := by
        intro address
        rw [if_neg Bool.false_ne_true, adding.derivedCoverage, covering.derivedCoverage]
        exact (or_iff_left fun both => both.1 same).symm
      remembers := fun known => adding.remembers (covering.remembers known) }

end ReferenceStaging

end Fugue.Ir
