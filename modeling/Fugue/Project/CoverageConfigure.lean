import Fugue.Project.Coverage

/-!
# What a reconfiguration does

`configure_cases` says what becomes of each analyser: one that stays in its phase keeps its entry,
and one that is new in its phase starts without coverage, with all that the phase had covered
pending. `contains_invalidated` bounds what the reconfiguration reports as invalidated from below.
-/

namespace Fugue.Project

open Fugue.Lib Fugue.Ir List
open OrdMap (get?_eq_none get?_eq_some mem_insert)
open AddressRangeSet (contains_iff_ranges contains_insertRange contains_insertRanges_ranges
  not_contains_new ranges_proper)

namespace CoverageConfiguration

/-- The same names and phases, and no region lost. -/
structure Grows (old new : OrdMap AnalyserName Replacement) : Prop where
  keeps : ∀ name replacement, (name, replacement) ∈ old.entries → ∃ grown,
    (name, grown) ∈ new.entries ∧ ∀ address, replacement.regions.Contains address →
      grown.regions.Contains address
  names : ∀ name grown, (name, grown) ∈ new.entries → ∃ replacement,
    (name, replacement) ∈ old.entries

theorem Grows.refl (replacements : OrdMap AnalyserName Replacement) :
    Grows replacements replacements :=
  ⟨fun _ replacement mem => ⟨replacement, mem, fun _ inside => inside⟩,
    fun _ grown mem => ⟨grown, mem⟩⟩

theorem Grows.trans {a b c : OrdMap AnalyserName Replacement} (ab : Grows a b) (bc : Grows b c) :
    Grows a c := by
  refine ⟨fun name replacement mem => ?_, fun name grown mem => ?_⟩
  · obtain ⟨middle, middleMem, more⟩ := ab.keeps name replacement mem
    obtain ⟨grown, grownMem, evenMore⟩ := bc.keeps name middle middleMem
    exact ⟨grown, grownMem, fun address inside => evenMore address (more address inside)⟩
  · obtain ⟨middle, middleMem⟩ := bc.names name grown mem
    exact ab.names name middle middleMem

section Extend

variable {select : AnalyserName → AnalysisPhase → Bool} {range : AddressRange}
  {replacements : OrdMap AnalyserName Replacement}

theorem extend_grows (lt : range.stop < 2 ^ 64) :
    Grows replacements (extend select range replacements) := by
  refine ⟨fun name replacement mem => ?_, fun name grown mem => ?_⟩
  · refine ⟨_, OrdMap.mem_filterMap.mpr ⟨replacement, mem, rfl⟩, fun address inside => ?_⟩
    split
    · exact (contains_insertRange lt).mpr (.inr inside)
    · exact inside
  · obtain ⟨replacement, old, -⟩ := OrdMap.mem_filterMap.mp mem
    exact ⟨replacement, old⟩

theorem contains_extend (lt : range.stop < 2 ^ 64) {name : AnalyserName}
    {replacement : Replacement} (mem : (name, replacement) ∈ replacements.entries)
    (selected : select name replacement.phase = true) :
    ∃ grown, (name, grown) ∈ (extend select range replacements).entries ∧
      ∀ address, range.Contains address → grown.regions.Contains address := by
  refine ⟨_, OrdMap.mem_filterMap.mpr ⟨replacement, mem, rfl⟩, fun address inside => ?_⟩
  rw [if_pos selected]
  exact (contains_insertRange lt).mpr (.inl inside)

theorem foldl_grows {round : OrdMap AnalyserName Replacement → AddressRange →
      OrdMap AnalyserName Replacement} :
    ∀ (ranges : List AddressRange) (replacements : OrdMap AnalyserName Replacement),
    (∀ range ∈ ranges, ∀ replacements, Grows replacements (round replacements range)) →
    Grows replacements (ranges.foldl round replacements)
  | [], replacements, _ => .refl replacements
  | range :: ranges, replacements, grows => by
    obtain ⟨head, rest⟩ := forall_mem_cons.mp grows
    exact (head replacements).trans (foldl_grows ranges _ rest)

end Extend

theorem contains_phaseChanged {name : AnalyserName} {previous : AnalysisPhase} :
    ∀ (ranges : List AddressRange) {replacements : OrdMap AnalyserName Replacement}
      {replacement : Replacement}, (∀ range ∈ ranges, range.stop < 2 ^ 64) →
      (name, replacement) ∈ replacements.entries →
      ∃ grown, (name, grown) ∈ (ranges.foldl (fun replacements range =>
          extend (fun _ phase => phase == previous) range
            (extend (fun other _ => other == name) range replacements)) replacements).entries ∧
        ∀ address, (∃ range ∈ ranges, range.Contains address) → grown.regions.Contains address
  | [], replacements, replacement, _, mem => ⟨replacement, mem, fun _ ⟨_, mem, _⟩ => nomatch mem⟩
  | range :: ranges, replacements, replacement, proper, mem => by
    obtain ⟨head, rest⟩ := forall_mem_cons.mp proper
    obtain ⟨own, ownMem, inOwn⟩ := @contains_extend (fun other _ => other == name) range
      replacements head name replacement mem (beq_self_eq_true name)
    obtain ⟨next, nextMem, inNext⟩ :=
      (@extend_grows (fun _ phase => phase == previous) range _ head).keeps name own ownMem
    obtain ⟨last, lastMem, inLast⟩ := @contains_phaseChanged name previous ranges _ _ rest nextMem
    have grows := @foldl_grows (fun replacements range =>
        extend (fun _ phase => phase == previous) range
          (extend (fun other _ => other == name) range replacements)) ranges
      (extend (fun _ phase => phase == previous) range
        (extend (fun other _ => other == name) range replacements))
      fun range mem replacements => (extend_grows (rest range mem)).trans (extend_grows (rest range mem))
    obtain ⟨kept, keptMem, inKept⟩ := grows.keeps name next nextMem
    have same := OrdMap.unique keptMem lastMem
    refine ⟨last, lastMem, fun address ⟨other, otherMem, inside⟩ => ?_⟩
    rcases mem_cons.mp otherMem with eq | inRest
    · subst eq
      exact same ▸ inKept address (inNext address (inOwn address inside))
    · exact inLast address ⟨other, inRest, inside⟩

theorem applyChange_grows (state : State) (change : CoverageConfigurationChange) :
    Grows state.replacements (applyChange state change).replacements := by
  cases change with
  | added name phase ranges =>
    rw [applyChange]
    split
    · exact .refl _
    · exact .refl _
  | phaseChanged name previous current ranges targetRanges =>
    refine foldl_grows _ _ fun range mem replacements => ?_
    have lt := (ranges_proper range mem).stop_lt
    exact (extend_grows lt).trans (extend_grows lt)
  | removed name phase ranges =>
    exact foldl_grows _ _ fun range mem replacements =>
      extend_grows (ranges_proper range mem).stop_lt

theorem applyChanges_grows : ∀ (changes : List CoverageConfigurationChange) (state : State),
    Grows state.replacements (changes.foldl applyChange state).replacements
  | [], _ => .refl _
  | change :: changes, state =>
    (applyChange_grows state change).trans (applyChanges_grows changes _)

/-- What a change takes from the coverage of a phase. -/
def Invalidates : CoverageConfigurationChange → Address → Prop
  | .added _ _ ranges, address => ranges.Contains address
  | .phaseChanged _ _ _ ranges targetRanges, address =>
    ranges.Contains address ∨ targetRanges.Contains address
  | .removed _ _ ranges, address => ranges.Contains address

variable {address : Address}

theorem contains_applyChange {state : State} {change : CoverageConfigurationChange} :
    (applyChange state change).invalidated.Contains address ↔
      Invalidates change address ∨ state.invalidated.Contains address := by
  cases change with
  | added name phase ranges =>
    rw [applyChange, Invalidates]
    split
    · rename_i empty
      rw [or_iff_right (AddressRangeSet.isEmpty_iff.mp empty address)]
    · exact contains_insertRanges_ranges
  | phaseChanged name previous current ranges targetRanges =>
    have proper : ∀ range ∈ ranges.ranges ++ targetRanges.ranges, range.stop < 2 ^ 64 := by
      intro range mem
      rcases mem_append.mp mem with own | target
      · exact (ranges_proper range own).stop_lt
      · exact (ranges_proper range target).stop_lt
    rw [applyChange, Invalidates, AddressRangeSet.contains_insertRanges proper,
      @contains_iff_ranges ranges,
      @contains_iff_ranges targetRanges]
    simp [mem_append, or_and_right, exists_or]
  | removed name phase ranges => exact contains_insertRanges_ranges

theorem contains_applyChanges :
    ∀ (changes : List CoverageConfigurationChange) (state : State),
    (changes.foldl applyChange state).invalidated.Contains address ↔
      (∃ change ∈ changes, Invalidates change address) ∨ state.invalidated.Contains address
  | [], state => by simp
  | change :: changes, state => by
    rw [foldl_cons, contains_applyChanges changes, contains_applyChange, exists_mem_cons_iff]
    exact or_left_comm.trans or_assoc.symm

theorem mem_addReplacements {name : AnalyserName} {replacement : Replacement} :
    ∀ (changes : List CoverageConfigurationChange) (replacements : OrdMap AnalyserName Replacement),
    (changes.filterMap replacementOf).Pairwise (fun x y => x.1 ≠ y.1) →
    (∀ entry ∈ changes.filterMap replacementOf, replacements.get? entry.1 = none) →
    ((name, replacement) ∈ (changes.foldl addReplacement replacements).entries ↔
      (name, replacement) ∈ changes.filterMap replacementOf ∨
        (name, replacement) ∈ replacements.entries)
  | [], replacements, _, _ => by simp
  | change :: changes, replacements, distinct, fresh => by
    rw [foldl_cons]
    cases asked : replacementOf change with
    | none =>
      rw [filterMap_cons_none asked] at distinct fresh ⊢
      have same : addReplacement replacements change = replacements := by
        rw [addReplacement, asked]
      rw [same]
      exact mem_addReplacements changes replacements distinct fresh
    | some entry =>
      rw [filterMap_cons_some asked] at distinct fresh ⊢
      obtain ⟨apart, distinct⟩ := pairwise_cons.mp distinct
      obtain ⟨freshHead, freshRest⟩ := forall_mem_cons.mp fresh
      have next : addReplacement replacements change = replacements.insert entry.1 entry.2 := by
        rw [addReplacement, asked]
        dsimp only
        rw [freshHead]
        rfl
      rw [next, mem_addReplacements changes _ distinct ?_, mem_insert, mem_cons]
      · constructor
        · intro h
          rcases h with later | eq | ⟨old, -⟩
          · exact .inl (.inr later)
          · exact .inl (.inl eq)
          · exact .inr old
        · intro h
          rcases h with (eq | later) | old
          · exact .inr (.inl eq)
          · exact .inl later
          · refine .inr (.inr ⟨old, fun same => ?_⟩)
            exact get?_eq_none.mp freshHead replacement (same ▸ old)
      · intro other mem
        refine get?_eq_none.mpr fun value inside => ?_
        rcases mem_insert.mp inside with eq | ⟨old, -⟩
        · exact apart other mem (Prod.mk.inj eq).1.symm
        · exact get?_eq_none.mp (freshRest other mem) value old

theorem reanalysis_of_grown {changes : List CoverageConfigurationChange} {name : AnalyserName}
    (h : ∃ grown, (name, grown) ∈ (changes.foldl applyChange
        ⟨[], .new, changes.foldl addReplacement .empty⟩).replacements.entries ∧
      grown.regions.Contains address) :
    ∃ reanalysis ∈ (fromChanges changes).reanalysis, reanalysis.analyser = name ∧
      reanalysis.regions.Contains address := by
  obtain ⟨grown, mem, inside⟩ := h
  refine ⟨⟨name, grown.regions⟩, mem_filterMap.mpr ⟨(name, grown), mem, ?_⟩, rfl, inside⟩
  have notEmpty : grown.regions.isEmpty ≠ true := fun empty =>
    AddressRangeSet.isEmpty_iff.mp empty address inside
  exact if_neg notEmpty

section FromChanges

variable {changes : List CoverageConfigurationChange}
  (distinct : (changes.filterMap replacementOf).Pairwise fun x y => x.1 ≠ y.1)

include distinct

theorem replacement_of_reanalysis {reanalysis : CoverageReanalysis}
    (mem : reanalysis ∈ (fromChanges changes).reanalysis) :
    ∃ replacement, (reanalysis.analyser, replacement) ∈ changes.filterMap replacementOf := by
  obtain ⟨⟨name, grown⟩, entry, eq⟩ := mem_filterMap.mp mem
  split at eq
  · cases eq
  · cases eq
    obtain ⟨replacement, old⟩ := (applyChanges_grows changes _).names name grown entry
    have first := @mem_addReplacements name replacement changes .empty distinct fun _ _ => rfl
    rcases first.mp old with asked | none
    · exact ⟨replacement, asked⟩
    · cases none

theorem reanalysis_of_replacement {name : AnalyserName} {replacement : Replacement}
    (asked : (name, replacement) ∈ changes.filterMap replacementOf) {address : Address}
    (inside : replacement.regions.Contains address) :
    ∃ reanalysis ∈ (fromChanges changes).reanalysis, reanalysis.analyser = name ∧
      reanalysis.regions.Contains address := by
  apply reanalysis_of_grown
  have first := (mem_addReplacements changes .empty distinct fun _ _ => rfl).mpr (.inl asked)
  obtain ⟨grown, mem, more⟩ := (applyChanges_grows changes
    ⟨[], .new, changes.foldl addReplacement .empty⟩).keeps name replacement first
  exact ⟨grown, mem, more address inside⟩

theorem reanalysis_of_phaseChanged {name : AnalyserName} {previous current : AnalysisPhase}
    {ranges targetRanges : AddressRangeSet}
    (mem : .phaseChanged name previous current ranges targetRanges ∈ changes) {address : Address}
    (inside : ranges.Contains address) :
    ∃ reanalysis ∈ (fromChanges changes).reanalysis, reanalysis.analyser = name ∧
      reanalysis.regions.Contains address := by
  apply reanalysis_of_grown
  have asked : (name, ⟨current, targetRanges⟩) ∈ changes.filterMap replacementOf :=
    mem_filterMap.mpr ⟨_, mem, rfl⟩
  have first := (mem_addReplacements changes .empty distinct fun _ _ => rfl).mpr (.inl asked)
  obtain ⟨before, after, split⟩ := append_of_mem mem
  generalize start : (⟨[], .new, changes.foldl addReplacement .empty⟩ : State) = state
  have first : (name, ⟨current, targetRanges⟩) ∈ state.replacements.entries := by
    rw [← start]
    exact first
  rw [split, foldl_append, foldl_cons]
  obtain ⟨reached, reachedMem, -⟩ := (applyChanges_grows before state).keeps name _ first
  obtain ⟨own, ownMem, inOwn⟩ := @contains_phaseChanged name previous ranges.ranges _ _
    (fun range mem => (ranges_proper range mem).stop_lt) reachedMem
  obtain ⟨grown, grownMem, more⟩ := (applyChanges_grows after (applyChange
    (before.foldl applyChange state)
    (.phaseChanged name previous current ranges targetRanges))).keeps name own ownMem
  exact ⟨grown, grownMem, more address (inOwn address (contains_iff_ranges.mp inside))⟩

end FromChanges

end CoverageConfiguration

namespace AnalysisCoverage

open CoverageConfiguration

variable {coverage : AnalysisCoverage}

/-- The members of `covered`: all analysers of the phase have covered them, and there is one. -/
theorem contains_covered {phase : AnalysisPhase} {address : Address} :
    (coverage.covered phase).Contains address ↔
      (∃ name entry, (name, entry) ∈ coverage.analysers.entries ∧ entry.phase = phase) ∧
      ∀ name entry, (name, entry) ∈ coverage.analysers.entries → entry.phase = phase →
        entry.ranges.Contains address := by
  have fold : ∀ (ranges : List AddressRangeSet) (first : AddressRangeSet),
      (ranges.foldl AddressRangeSet.intersection first).Contains address ↔
        first.Contains address ∧ ∀ set ∈ ranges, set.Contains address := by
    intro ranges
    induction ranges with
    | nil => simp
    | cons set ranges ih =>
      intro first
      rw [foldl_cons, ih, AddressRangeSet.contains_intersection, forall_mem_cons, and_assoc]
  have listed : ∀ set, set ∈ (coverage.analysers.entries.filter fun entry =>
      entry.2.phase == phase).map (fun entry => entry.2.ranges) ↔
      ∃ name entry, (name, entry) ∈ coverage.analysers.entries ∧ entry.phase = phase ∧
        entry.ranges = set := by
    simp [and_assoc]
  unfold covered
  generalize (coverage.analysers.entries.filter fun entry => entry.2.phase == phase).map
    (fun entry => entry.2.ranges) = sets at listed
  cases sets with
  | nil =>
    refine ⟨fun inside => absurd inside not_contains_new, fun ⟨exists_, _⟩ => ?_⟩
    obtain ⟨name, entry, mem, inPhase⟩ := exists_
    exact absurd ((listed entry.ranges).mpr ⟨name, entry, mem, inPhase, rfl⟩) not_mem_nil
  | cons first ranges =>
    have cons : (∀ set ∈ first :: ranges, set.Contains address) ↔
        first.Contains address ∧ ∀ set ∈ ranges, set.Contains address := forall_mem_cons
    refine (fold ranges first).trans (cons.symm.trans ?_)
    constructor
    · intro all
      obtain ⟨name, entry, mem, inPhase, -⟩ := (listed first).mp (.head _)
      exact ⟨⟨name, entry, mem, inPhase⟩, fun other record otherMem otherPhase =>
        all _ ((listed _).mpr ⟨other, record, otherMem, otherPhase, rfl⟩)⟩
    · intro ⟨_, all⟩ set mem
      obtain ⟨name, entry, entryMem, inPhase, rfl⟩ := (listed set).mp mem
      exact all name entry entryMem inPhase

variable {configured : OrdMap AnalyserName AnalysisPhase}

theorem mem_added {name : AnalyserName} {phase : AnalysisPhase} :
    (name, phase) ∈ (coverage.added configured).entries ↔
      (name, phase) ∈ configured.entries ∧ ∀ entry, (name, entry) ∉ coverage.analysers.entries := by
  rw [added, OrdMap.mem_retain, Option.isNone_iff_eq_none, get?_eq_none]

/-- The analysers that are new in their phase, and what their phase had covered. -/
theorem mem_replacements {name : AnalyserName} {replacement : Replacement} :
    (name, replacement) ∈ (coverage.changes configured).filterMap replacementOf ↔
      (name, replacement.phase) ∈ configured.entries ∧
      replacement.regions = coverage.covered replacement.phase ∧
      ∀ entry, (name, entry) ∈ coverage.analysers.entries → entry.phase ≠ replacement.phase := by
  rw [changes, filterMap_append, mem_append, mem_filterMap, mem_filterMap]
  constructor
  · intro h
    rcases h with ⟨change, changeMem, asked⟩ | ⟨change, changeMem, asked⟩
    · obtain ⟨⟨other, entry⟩, mem, changeEq⟩ := mem_filterMap.mp changeMem
      unfold changeOf at changeEq
      split at changeEq
      · rename_i phase found
        split at changeEq
        · cases changeEq
        · rename_i changed
          cases changeEq
          cases asked
          refine ⟨get?_eq_some.mp found, rfl, fun record recordMem same => changed ?_⟩
          rw [OrdMap.unique mem recordMem]
          exact same.symm
      · cases changeEq
        cases asked
    · obtain ⟨⟨other, phase⟩, mem, rfl⟩ := mem_map.mp changeMem
      cases asked
      obtain ⟨inConfigured, absent⟩ := mem_added.mp mem
      exact ⟨inConfigured, rfl, fun entry entryMem => absurd entryMem (absent entry)⟩
  · intro ⟨inConfigured, regions, moved⟩
    obtain ⟨phase, set⟩ := replacement
    dsimp only at inConfigured regions moved
    subst regions
    cases found : coverage.analysers.get? name with
    | none =>
      refine .inr ⟨_, mem_map.mpr ⟨(name, phase), mem_added.mpr ⟨inConfigured, ?_⟩, rfl⟩, rfl⟩
      exact get?_eq_none.mp found
    | some entry =>
      have mem := get?_eq_some.mp found
      refine .inl ⟨.phaseChanged name entry.phase phase entry.ranges (coverage.covered phase),
        mem_filterMap.mpr ⟨(name, entry), mem, ?_⟩, rfl⟩
      rw [changeOf, get?_eq_some.mpr inConfigured]
      exact if_neg fun same => moved entry mem same.symm

theorem replacements_distinct :
    ((coverage.changes configured).filterMap replacementOf).Pairwise fun x y => x.1 ≠ y.1 := by
  rw [changes, filterMap_append, filterMap_filterMap, filterMap_map, pairwise_append]
  have nameOf : ∀ entry replacement, (coverage.changeOf configured entry).bind replacementOf =
      some replacement → replacement.1 = entry.1 := by
    intro entry replacement asked
    unfold changeOf at asked
    split at asked
    · split at asked
      · cases asked
      · cases asked
        rfl
    · cases asked
  have addedName : ∀ (entry : AnalyserName × AnalysisPhase) replacement,
      replacementOf (.added entry.1 entry.2 (coverage.covered entry.2)) = some replacement →
        replacement.1 = entry.1 := by
    intro entry replacement asked
    cases asked
    rfl
  refine ⟨?_, ?_, ?_⟩
  · refine List.Pairwise.filterMap _ ?_ coverage.analysers.sorted
    intro x y lt a aEq b bEq
    rw [nameOf x a aEq, nameOf y b bEq]
    exact lt.ne
  · refine List.Pairwise.filterMap _ ?_ (coverage.added configured).sorted
    intro x y lt a aEq b bEq
    rw [addedName x a aEq, addedName y b bEq]
    exact lt.ne
  · intro a aMem b bMem
    obtain ⟨x, xMem, aEq⟩ := mem_filterMap.mp aMem
    obtain ⟨⟨name, phase⟩, yMem, bEq⟩ := mem_filterMap.mp bMem
    rw [nameOf x a aEq, addedName (name, phase) b bEq]
    intro same
    apply (mem_added.mp yMem).2 x.2
    rw [show name = x.1 from same.symm]
    exact xMem

theorem mem_insertAll {name : AnalyserName} {record : AnalyserCoverage} :
    ∀ (entries : List (AnalyserName × AnalysisPhase))
      (analysers : OrdMap AnalyserName AnalyserCoverage),
    entries.Pairwise (fun x y => x.1 < y.1) →
    (∀ entry ∈ entries, ∀ record, (entry.1, record) ∉ analysers.entries) →
    ((name, record) ∈ (entries.foldl (fun analysers entry =>
        analysers.insert entry.1 (⟨.new, entry.2, .new⟩ : AnalyserCoverage)) analysers).entries ↔
      (name, record) ∈ analysers.entries ∨
        ∃ phase, (name, phase) ∈ entries ∧ record = ⟨.new, phase, .new⟩)
  | [], analysers, _, _ => by simp
  | (other, phase) :: entries, analysers, sorted, fresh => by
    obtain ⟨above, sorted⟩ := pairwise_cons.mp sorted
    obtain ⟨freshHead, freshRest⟩ := forall_mem_cons.mp fresh
    have next : ∀ entry ∈ entries, ∀ record, (entry.1, record) ∉
        (analysers.insert other (⟨.new, phase, .new⟩ : AnalyserCoverage)).entries := by
      intro entry mem record inside
      rcases mem_insert.mp inside with eq | ⟨old, -⟩
      · exact absurd (Prod.mk.inj eq).1 (above entry mem).ne'
      · exact freshRest entry mem record old
    rw [foldl_cons, mem_insertAll entries _ sorted next, mem_insert]
    simp only [mem_cons, Prod.mk.injEq]
    constructor
    · intro h
      rcases h with (⟨rfl, rfl⟩ | ⟨old, -⟩) | ⟨later, mem, eq⟩
      · exact .inr ⟨phase, .inl ⟨rfl, rfl⟩, rfl⟩
      · exact .inl old
      · exact .inr ⟨later, .inr mem, eq⟩
    · intro h
      rcases h with old | ⟨later, ⟨rfl, rfl⟩ | mem, eq⟩
      · refine .inl (.inr ⟨old, fun same => ?_⟩)
        exact freshHead record (same ▸ old)
      · exact .inl (.inl ⟨rfl, eq⟩)
      · exact .inr ⟨later, mem, eq⟩

theorem mem_configuredTable {name : AnalyserName} {record : AnalyserCoverage} :
    (name, record) ∈ (coverage.configuredTable configured).entries ↔
      (∃ entry, (name, entry) ∈ coverage.analysers.entries ∧
        reconfigured configured name entry = some record) ∨
      ∃ phase, (name, phase) ∈ (coverage.added configured).entries ∧
        record = ⟨.new, phase, .new⟩ := by
  rw [configuredTable, mem_insertAll _ _ (coverage.added configured).sorted ?_,
    OrdMap.mem_filterMap]
  intro entry mem record inside
  obtain ⟨old, oldMem, -⟩ := OrdMap.mem_filterMap.mp inside
  exact (mem_added.mp mem).2 old oldMem

theorem addPending_spec : ∀ (reanalysis : List CoverageReanalysis)
    (table : OrdMap AnalyserName AnalyserCoverage),
    (∀ entry ∈ reanalysis, ∃ record, (entry.analyser, record) ∈ table.entries) →
    ∃ after, reanalysis.foldlM addPending table = some after ∧
      ∀ name record, (name, record) ∈ table.entries → ∃ grown, (name, grown) ∈ after.entries ∧
        grown.phase = record.phase ∧ grown.ranges = record.ranges ∧
        ∀ address, grown.pending.Contains address ↔ record.pending.Contains address ∨
          ∃ entry ∈ reanalysis, entry.analyser = name ∧ entry.regions.Contains address
  | [], table, _ => ⟨table, rfl, fun name record mem => ⟨record, mem, rfl, rfl, by simp⟩⟩
  | entry :: reanalysis, table, known => by
    obtain ⟨⟨record, mem⟩, knownRest⟩ := forall_mem_cons.mp known
    have step : addPending table entry = some (table.insert entry.analyser
        { record with pending := record.pending.insertRanges entry.regions.ranges }) := by
      rw [addPending, get?_eq_some.mpr mem]
      rfl
    obtain ⟨after, run, spec⟩ := addPending_spec reanalysis (table.insert entry.analyser
      { record with pending := record.pending.insertRanges entry.regions.ranges }) (by
        intro other otherMem
        obtain ⟨otherRecord, otherKnown⟩ := knownRest other otherMem
        by_cases same : other.analyser = entry.analyser
        · exact ⟨_, mem_insert.mpr (.inl (by rw [same]))⟩
        · exact ⟨otherRecord, mem_insert.mpr (.inr ⟨otherKnown, same⟩)⟩)
    refine ⟨after, ?_, fun name old oldMem => ?_⟩
    · rw [foldlM_cons, step]
      exact run
    · by_cases same : name = entry.analyser
      · subst same
        rw [OrdMap.unique oldMem mem]
        obtain ⟨grown, grownMem, phase, ranges, pending⟩ :=
          spec _ _ (mem_insert.mpr (.inl rfl))
        refine ⟨grown, grownMem, phase, ranges, fun address => ?_⟩
        rw [pending, contains_insertRanges_ranges, exists_mem_cons_iff]
        constructor
        · intro h
          rcases h with (inside | old) | later
          · exact .inr (.inl ⟨rfl, inside⟩)
          · exact .inl old
          · exact .inr (.inr later)
        · intro h
          rcases h with old | ⟨-, inside⟩ | later
          · exact .inl (.inr old)
          · exact .inl (.inl inside)
          · exact .inr later
      · obtain ⟨grown, grownMem, phase, ranges, pending⟩ :=
          spec name old (mem_insert.mpr (.inr ⟨oldMem, same⟩))
        refine ⟨grown, grownMem, phase, ranges, fun address => ?_⟩
        rw [pending, exists_mem_cons_iff]
        refine or_congr_right ⟨.inr, fun h => h.elim (fun ⟨eq, _⟩ => ?_) id⟩
        exact absurd eq.symm same

theorem addPending_names : ∀ (reanalysis : List CoverageReanalysis)
    {table after : OrdMap AnalyserName AnalyserCoverage},
    reanalysis.foldlM addPending table = some after → ∀ name record,
      (name, record) ∈ after.entries → ∃ old, (name, old) ∈ table.entries
  | [], table, after, run, name, record, mem => by
    cases run
    exact ⟨record, mem⟩
  | entry :: reanalysis, table, after, run, name, record, mem => by
    obtain ⟨next, step, rest⟩ := Option.bind_eq_some_iff.mp run
    obtain ⟨old, oldMem⟩ := addPending_names reanalysis rest name record mem
    obtain ⟨found, foundEq, insertEq⟩ := Option.bind_eq_some_iff.mp step
    cases insertEq
    rcases mem_insert.mp oldMem with eq | ⟨older, -⟩
    · rw [(Prod.mk.inj eq).1]
      exact ⟨found, get?_eq_some.mp foundEq⟩
    · exact ⟨old, older⟩

structure Becomes (coverage : AnalysisCoverage) (name : AnalyserName)
    (record : AnalyserCoverage) : Prop where
  stays : ∀ old, (name, old) ∈ coverage.analysers.entries → old.phase = record.phase →
    record.ranges = old.ranges ∧
      ∀ address, record.pending.Contains address ↔ old.pending.Contains address
  enters : (∀ old, (name, old) ∈ coverage.analysers.entries → old.phase ≠ record.phase) →
    record.ranges = .new ∧
      ∀ address, (coverage.covered record.phase).Contains address → record.pending.Contains address
  moves : ∀ old, (name, old) ∈ coverage.analysers.entries → old.phase ≠ record.phase →
    ∀ address, old.ranges.Contains address ∨ old.pending.Contains address →
      record.pending.Contains address

theorem configure_spec (coverage : AnalysisCoverage)
    (configured : OrdMap AnalyserName AnalysisPhase) :
    ∃ after, (fromChanges (coverage.changes configured)).reanalysis.foldlM addPending
        (coverage.configuredTable configured) = some after ∧
      (∀ name record, (name, record) ∈ after.entries →
        (name, record.phase) ∈ configured.entries ∧ Becomes coverage name record) ∧
      ∀ name phase, (name, phase) ∈ configured.entries → ∃ record,
        (name, record) ∈ after.entries ∧ record.phase = phase := by
  have distinct := @replacements_distinct coverage configured
  -- every analyser that is configured has an entry in its phase
  have listed : ∀ name phase, (name, phase) ∈ configured.entries → ∃ record,
      (name, record) ∈ (coverage.configuredTable configured).entries ∧ record.phase = phase := by
    intro name phase mem
    cases found : coverage.analysers.get? name with
    | none =>
      exact ⟨⟨.new, phase, .new⟩, mem_configuredTable.mpr (.inr ⟨phase, mem_added.mpr
        ⟨mem, get?_eq_none.mp found⟩, rfl⟩), rfl⟩
    | some entry =>
      have entryMem := get?_eq_some.mp found
      by_cases same : phase = entry.phase
      · refine ⟨entry, mem_configuredTable.mpr (.inl ⟨entry, entryMem, ?_⟩), same.symm⟩
        rw [reconfigured, get?_eq_some.mpr mem]
        exact if_pos same
      · refine ⟨⟨entry.pending, phase, .new⟩,
          mem_configuredTable.mpr (.inl ⟨entry, entryMem, ?_⟩), rfl⟩
        rw [reconfigured, get?_eq_some.mpr mem]
        exact if_neg same
  obtain ⟨after, run, spec⟩ := addPending_spec
    (fromChanges (coverage.changes configured)).reanalysis (coverage.configuredTable configured) (by
      intro entry mem
      obtain ⟨replacement, asked⟩ := replacement_of_reanalysis distinct mem
      obtain ⟨record, recordMem, -⟩ := listed _ _ (mem_replacements.mp asked).1
      exact ⟨record, recordMem⟩)
  refine ⟨after, run, fun name record mem => ?_, fun name phase mem => ?_⟩
  · obtain ⟨before, beforeMem⟩ := addPending_names _ run name record mem
    obtain ⟨grown, grownMem, phaseEq, rangesEq, pending⟩ := spec name before beforeMem
    have same := OrdMap.unique grownMem mem
    subst same
    have inConfigured : (name, grown.phase) ∈ configured.entries := by
      rw [phaseEq]
      rcases mem_configuredTable.mp beforeMem with ⟨entry, -, eq⟩ | ⟨phase, addedMem, rfl⟩
      · unfold reconfigured at eq
        split at eq
        · rename_i phase found
          have inPhase := get?_eq_some.mp found
          split at eq
          · rename_i samePhase
            cases eq
            exact samePhase ▸ inPhase
          · cases eq
            exact inPhase
        · cases eq
      · exact (mem_added.mp addedMem).1
    have lookup := get?_eq_some.mpr inConfigured
    refine ⟨inConfigured, ?_, ?_, ?_⟩
    · intro old oldMem samePhase
      have kept : before = old := by
        rcases mem_configuredTable.mp beforeMem with ⟨entry, entryMem, eq⟩ | ⟨phase, addedMem, -⟩
        · rw [OrdMap.unique entryMem oldMem, reconfigured, lookup] at eq
          dsimp only at eq
          rw [if_pos samePhase.symm, Option.some.injEq] at eq
          exact eq.symm
        · exact absurd oldMem ((mem_added.mp addedMem).2 old)
      refine ⟨by rw [rangesEq, kept], fun address => ?_⟩
      rw [pending, kept]
      refine or_iff_left fun ⟨entry, entryMem, nameEq, _⟩ => ?_
      obtain ⟨replacement, asked⟩ := replacement_of_reanalysis distinct entryMem
      rw [nameEq] at asked
      obtain ⟨inPhase, -, moved⟩ := mem_replacements.mp asked
      exact moved old oldMem (samePhase.trans (OrdMap.unique inConfigured inPhase))
    · intro entered
      have fresh : before.ranges = .new := by
        rcases mem_configuredTable.mp beforeMem with ⟨entry, entryMem, eq⟩ | ⟨phase, -, rfl⟩
        · rw [reconfigured, lookup] at eq
          dsimp only at eq
          rw [if_neg fun samePhase => entered entry entryMem samePhase.symm,
            Option.some.injEq] at eq
          rw [← eq]
        · rfl
      refine ⟨rangesEq.trans fresh, fun address inside => (pending address).mpr (.inr ?_)⟩
      have asked : (name, ⟨grown.phase, coverage.covered grown.phase⟩) ∈
          (coverage.changes configured).filterMap replacementOf :=
        mem_replacements.mpr ⟨inConfigured, rfl, entered⟩
      exact reanalysis_of_replacement distinct asked inside
    · intro old oldMem moved address inside
      rw [pending]
      rcases inside with covered | waiting
      · have changed : .phaseChanged name old.phase grown.phase old.ranges
            (coverage.covered grown.phase) ∈ coverage.changes configured := by
          refine mem_append_left _ (mem_filterMap.mpr ⟨(name, old), oldMem, ?_⟩)
          rw [changeOf, lookup]
          exact if_neg fun samePhase => moved samePhase.symm
        exact .inr (reanalysis_of_phaseChanged distinct changed covered)
      · refine .inl ?_
        rcases mem_configuredTable.mp beforeMem with ⟨entry, entryMem, eq⟩ | ⟨phase, addedMem, -⟩
        · rw [OrdMap.unique entryMem oldMem, reconfigured, lookup] at eq
          dsimp only at eq
          rw [if_neg fun samePhase => moved samePhase.symm, Option.some.injEq] at eq
          rw [← eq]
          exact waiting
        · exact absurd oldMem ((mem_added.mp addedMem).2 old)
  · obtain ⟨record, recordMem, rfl⟩ := listed name phase mem
    obtain ⟨grown, grownMem, phaseEq, -⟩ := spec name record recordMem
    exact ⟨grown, grownMem, phaseEq⟩

/-- What a reconfiguration takes from the coverage of a phase is invalidated. -/
theorem contains_invalidated {address : Address} :
    (fromChanges (coverage.changes configured)).invalidated.Contains address ↔
      ∃ change ∈ coverage.changes configured, Invalidates change address := by
  apply (contains_applyChanges (coverage.changes configured) _).trans
  exact or_iff_left not_contains_new

end AnalysisCoverage

end Fugue.Project
