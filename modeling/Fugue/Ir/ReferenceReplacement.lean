import Fugue.Ir.ReferenceStaging

/-!
# What staging does to the references

The entries that are seen through a staging, as a function of the keys: what a staged change and the
working copy of a replacement make of it, and which keys the scans of a coverage see.
-/

namespace Fugue.Ir

open Fugue.Lib List OrdMap

def propertiesAt (entry : Option ReferenceEntry) (provenance : ReferenceProvenance) :
    Option ReferenceProperties := entry.bind fun entry => entry.provenances.get? provenance

namespace ReferenceEntry

variable {entry : ReferenceEntry} {provenance : ReferenceProvenance}

theorem propertiesAt_setProvenance (properties : Option ReferenceProperties)
    (other : ReferenceProvenance) :
    propertiesAt (entry.setProvenance provenance properties) other =
      if other = provenance then properties else entry.provenances.get? other := by
  rw [← get?_put entry.provenances provenance properties other]
  unfold setProvenance
  dsimp only
  split
  · rfl
  · rename_i empty
    have empty := not_not.mp empty
    refine (get?_eq_none.mpr fun value mem => ?_).symm
    rw [empty] at mem
    cases mem

theorem get?_mergeProvenance (properties : ReferenceProperties) (other : ReferenceProvenance) :
    (entry.mergeProvenance provenance properties).provenances.get? other =
      if other = provenance then
        some (((entry.provenances.get? provenance).getD 0) ||| properties)
      else entry.provenances.get? other := by
  unfold mergeProvenance
  by_cases same : other = provenance
  · subst same
    rw [if_pos rfl, get?_insert_self]
    cases entry.provenances.get? other with
    | some known => rfl
    | none => exact congrArg some BitVec.zero_or.symm
  · rw [if_neg same]
    exact get?_insert_ne same

theorem get?_new (properties : ReferenceProperties) (other : ReferenceProvenance) :
    (new provenance properties).provenances.get? other =
      if other = provenance then some properties else none := by
  split
  · rename_i same
    subst same
    exact get?_insert_self
  · rename_i ne
    exact get?_insert_ne ne

end ReferenceEntry

theorem AddressRangeSet.ranges_disjoint (set : AddressRangeSet) :
    set.ranges.Pairwise fun x y => ∀ address, x.Contains address → ¬ y.Contains address := by
  refine pairwise_flatMap.mpr ⟨fun entry mem => ?_, ?_⟩
  · obtain ⟨space, ranges⟩ := entry
    refine pairwise_map.mpr (ranges.separated.gaps.imp fun {x y} gap => ?_)
    intro address inside inside'
    have le := inside.2.2
    have ge := inside'.2.1
    dsimp only at le ge
    omega
  · refine set.spaces.sorted.imp fun {x y} lt range mem range' mem' address inside inside' => ?_
    obtain ⟨pair, -, eq⟩ := mem_map.mp mem
    obtain ⟨pair', -, eq'⟩ := mem_map.mp mem'
    subst eq
    subst eq'
    exact lt.ne (inside.1.trans inside'.1.symm)

theorem mem_entriesIn {V : Type} {entries : OrdMap ReferenceKey V} {range : AddressRange}
    {x : ReferenceKey × V} :
    x ∈ entriesIn entries range ↔ x ∈ entries.entries ∧ range.Contains x.1.from_ := by
  unfold entriesIn
  rw [takeWhile_eq_filter, mem_filter, mem_filter, decide_eq_true_eq, decide_eq_true_eq,
    ReferenceIndex.forward_low, ReferenceIndex.contains_iff_key, and_assoc]
  refine (entries.sorted.filter _).imp fun {x y} lt below => ?_
  have order : x.1.from_.key ≤ y.1.from_.key := by
    rcases Prod.Lex.toLex_lt_toLex.mp lt with less | ⟨same, -⟩
    · exact less.le
    · exact same.le
  exact decide_eq_true (order.trans (of_decide_eq_true below))

/-- The scans of the ranges of a set see each covered key once. -/
theorem mem_covered {V : Type} {entries : OrdMap ReferenceKey V} {coverage : AddressRangeSet}
    {x : ReferenceKey × V} :
    x ∈ coverage.ranges.flatMap (entriesIn entries) ↔
      x ∈ entries.entries ∧ coverage.Contains x.1.from_ := by
  rw [mem_flatMap, AddressRangeSet.contains_iff_ranges]
  constructor
  · intro ⟨range, isRange, mem⟩
    obtain ⟨inside, contains⟩ := mem_entriesIn.mp mem
    exact ⟨inside, range, isRange, contains⟩
  · intro ⟨inside, range, isRange, contains⟩
    exact ⟨range, isRange, mem_entriesIn.mpr ⟨inside, contains⟩⟩

theorem nodup_covered {V : Type} (entries : OrdMap ReferenceKey V) (coverage : AddressRangeSet) :
    ((coverage.ranges.flatMap (entriesIn entries)).map Prod.fst).Nodup := by
  rw [map_flatMap, nodup_flatMap]
  constructor
  · intro range _
    have sublist : (entriesIn entries range).Sublist entries.entries :=
      (takeWhile_sublist _).trans filter_sublist
    exact pairwise_map.mpr ((entries.sorted.sublist sublist).imp fun lt => lt.ne)
  · refine coverage.ranges_disjoint.imp_of_mem fun {range range'} isRange isRange' apart => ?_
    intro key mem mem'
    obtain ⟨x, xMem, eq⟩ := mem_map.mp mem
    obtain ⟨y, yMem, eq'⟩ := mem_map.mp mem'
    have first := mem_entriesIn.mp xMem
    have second := mem_entriesIn.mp yMem
    rw [eq] at first
    rw [eq'] at second
    exact apart key.from_ first.2 second.2

theorem get?_foldl_set {K V ι : Type} [LinearOrder K] {step : OrdMap K V → ι → OrdMap K V}
    {keyOf : ι → K} {value : K → Option V} : ∀ (items : List ι) (m : OrdMap K V),
    (∀ x ∈ items, ∀ m : OrdMap K V, (∀ k, m.get? k = none ∨ m.get? k = value k) →
      ∀ k, (step m x).get? k = if k = keyOf x then value k else m.get? k) →
    (∀ k, m.get? k = none ∨ m.get? k = value k) →
    ∀ k, (items.foldl step m).get? k =
      if ∃ x ∈ items, keyOf x = k then value k else m.get? k := by
  intro items
  induction items with
  | nil =>
    simp
  | cons x items ih =>
    intro m sets part k
    obtain ⟨here, rest⟩ := forall_mem_cons.mp sets
    have next := here m part
    rw [foldl_cons, ih _ rest ?_ k, next k]
    · by_cases later : ∃ y ∈ items, keyOf y = k
      · rw [if_pos later, if_pos]
        rw [exists_mem_cons_iff]
        exact .inr later
      · rw [if_neg later]
        refine if_congr ?_ rfl rfl
        rw [exists_mem_cons_iff, or_iff_left later, eq_comm]
    · intro k'
      rw [next k']
      split
      · exact .inr rfl
      · exact part k'

namespace ReferenceStaging

variable {staging : ReferenceStaging} {index : ReferenceIndex}

theorem entry_stageChange (key : ReferenceKey) (previous entry : Option ReferenceEntry)
    (other : ReferenceKey) :
    (staging.stageChange key previous entry).entry index other =
      if other = key then entry else staging.entry index other := by
  unfold ReferenceStaging.entry stageChange
  by_cases same : other = key
  · subst same
    rw [if_pos rfl]
    cases staging.stagedReferences.get? other with
    | some staged =>
      rw [get?_insert_self]
    | none =>
      rw [get?_insert_self]
  · rw [if_neg same]
    cases staging.stagedReferences.get? key with
    | some staged =>
      rw [get?_insert_ne same]
    | none =>
      rw [get?_insert_ne same]

theorem entry_of_staged {x : ReferenceKey × StagedReferenceRecord}
    (mem : x ∈ staging.stagedReferences.entries) : x.2.entry = staging.entry index x.1 := by
  unfold ReferenceStaging.entry
  rw [get?_eq_some.mpr mem]

/-- The working copy has the entries that are seen in the coverage. -/
theorem get?_referencesIn (coverage : AddressRangeSet) (key : ReferenceKey) :
    (staging.referencesIn index coverage).get? key =
      if coverage.contains key.from_ then staging.entry index key else none := by
  have committed := @get?_foldl_set _ _ _ _ (staging.addEntry index) Reference.key
    (staging.entry index) (index.referencesIn coverage) .empty
    (by
      intro reference _ m part k
      unfold addEntry
      by_cases same : k = reference.key
      · subst same
        rw [if_pos rfl]
        cases found : staging.entry index reference.key with
        | some entry => exact get?_insert_self
        | none =>
          have known := part reference.key
          rw [found, or_self] at known
          exact known
      · rw [if_neg same]
        cases staging.entry index reference.key with
        | some entry => exact get?_insert_ne same
        | none => rfl)
    (fun k => .inl (get?_eq_none.mpr nofun))
  have staged := @get?_foldl_set _ _ _ _ (fun entries staged =>
      OrdMap.put entries staged.1 staged.2.entry) Prod.fst (staging.entry index)
    (coverage.ranges.flatMap (entriesIn staging.stagedReferences)) _
    (by
      intro x mem m _ k
      rw [get?_put, entry_of_staged (mem_covered.mp mem).1]
      split
      · rename_i same
        rw [same]
      · rfl)
    (fun k => by
      rw [committed k]
      split
      · exact .inr rfl
      · exact .inl (get?_eq_none.mpr nofun)) key
  unfold referencesIn
  rw [staged, committed]
  have isCommitted := @ReferenceIndex.mem_referencesIn index coverage key
  have none : (OrdMap.empty : OrdMap ReferenceKey ReferenceEntry).get? key = none :=
    get?_eq_none.mpr nofun
  rw [none]
  by_cases covered : coverage.Contains key.from_
  · rw [if_pos (AddressRangeSet.contains_iff.mpr covered)]
    split
    · rfl
    · rename_i notStaged
      split
      · rfl
      · rename_i notCommitted
        unfold ReferenceStaging.entry
        cases isStaged : staging.stagedReferences.get? key with
        | some record =>
          exact absurd ⟨(key, record), mem_covered.mpr ⟨get?_eq_some.mp isStaged, covered⟩,
            rfl⟩ notStaged
        | none =>
          cases found : index.get key with
          | none => rfl
          | some entry => exact absurd (isCommitted.mpr ⟨⟨entry, found⟩, covered⟩) notCommitted
  · rw [if_neg fun inside => covered (AddressRangeSet.contains_iff.mp inside), if_neg, if_neg]
    · exact fun found => covered (isCommitted.mp found).2
    · intro ⟨x, mem, same⟩
      have inside := (mem_covered.mp mem).2
      rw [same] at inside
      exact covered inside

end ReferenceStaging

end Fugue.Ir
