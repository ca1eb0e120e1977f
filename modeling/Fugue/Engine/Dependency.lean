import Fugue.Engine.WorkStep
import Fugue.Lib.RangeMap
import Fugue.Project.Read

/-!
# The dependency index

`DependencyIndex` (`fugue-core/src/engine/view.rs:24-174`): for each analyser, the read set of the
production that is current at each address and of its production without a range. A production is
recorded over the addresses it covers, and a continuation takes over the reads of what it covers.

Shared read sets are compared by identity: `sets` holds the set of each production, and the index
stores positions in it. An empty set has a position that the index never stores.
-/

namespace Fugue.Engine

open Fugue.Lib Fugue.Ir Fugue.Project Option AnalysisWorkQueue
open AddressRangeSet (contains_iff_ranges contains_insertRange ranges_proper)

/-- `AnalyserDependencies` (`view.rs:49-53`); a `DependencyReadSet` is a position in `sets`. -/
structure AnalyserDependencies where
  global : Option Nat
  regional : OrdMap AddressSpaceId (RangeMap Nat)

/-- `DependencyIndex` (`view.rs:79-81`). -/
structure DependencyIndex where
  sets : List ReadSet
  entries : List AnalyserDependencies

/-- `DependencyInvalidation` (`view.rs:55-59`). -/
structure DependencyInvalidation where
  global : Bool
  regions : AddressRangeSet

/-- `DependencyInvalidation::is_empty` (`view.rs:74-76`). -/
def DependencyInvalidation.isEmpty (invalidation : DependencyInvalidation) : Bool :=
  !invalidation.global && invalidation.regions.isEmpty

/-- An argument of `record`. -/
structure Production where
  analyser : AnalyserId
  regions : AddressRangeSet
  reads : ReadSet
  continuation : Bool

namespace DependencyIndex

/-- `DependencyIndex::new` (`view.rs:84-88`). -/
def new (count : Nat) : DependencyIndex := ⟨[], List.replicate count ⟨none, .empty⟩⟩

variable (index : DependencyIndex)

/-- The read set at a position. -/
def deref (set : Nat) : ReadSet := index.sets[set]?.getD .new

variable (dependencies : AnalyserDependencies)

/-- The positions of the read sets over the ranges, each of them once (`view.rs:112-122`). -/
def previous (ranges : List AddressRange) : List Nat :=
  ranges.foldl (fun previous range =>
    match dependencies.regional.get? range.space with
    | none => previous
    | some regional => (regional.overlapping range.start range.stop).foldl
        (fun previous run =>
          if previous.contains run.value then previous else previous ++ [run.value]) previous) []

/-- The range map of a space with a range replaced (`view.rs:129-139`). -/
def replace (set : Option Nat) (regional : OrdMap AddressSpaceId (RangeMap Nat))
    (range : AddressRange) : OrdMap AddressSpaceId (RangeMap Nat) :=
  let map := (regional.get? range.space).getD .empty
  regional.insert range.space (match set with
    | some set => map.insert range.start range.stop set
    | none => map.remove range.start range.stop)

/-- The reads of a production together with those of the sets at the positions. -/
def inherit (reads : ReadSet) (sets : List Nat) : ReadSet :=
  sets.foldl (fun reads set => (reads.merge (index.deref set)).1) reads

/-- The position of a new read set; an empty one is not stored. -/
def store (reads : ReadSet) : Option Nat :=
  if reads.isEmpty then none else some index.sets.length

/-- The dependencies of an analyser with a production recorded. -/
def update (production : Production) : ReadSet × AnalyserDependencies :=
  if production.regions.isEmpty then
    let reads := index.inherit production.reads
      (if production.continuation then dependencies.global.toList else [])
    (reads, { dependencies with global := index.store reads })
  else
    let reads := index.inherit production.reads
      (if production.continuation then previous dependencies production.regions.ranges else [])
    (reads, { dependencies with regional :=
      production.regions.ranges.foldl (replace (index.store reads)) dependencies.regional })

/-- `DependencyIndex::record` (`view.rs:90-140`); `none` is the failed `expect`. -/
def record (production : Production) : Option DependencyIndex := do
  let dependencies ← index.entries[production.analyser]?
  let (reads, dependencies) := index.update dependencies production
  return ⟨index.sets ++ [reads], index.entries.set production.analyser dependencies⟩

/-- The test of `invalidated` on a read set (`view.rs:152-155`). -/
def affected (kinds : ChangeKinds) (changed : Option AddressRangeSet) (reads : ReadSet) : Bool :=
  match changed with
  | some changed => reads.intersects kinds changed
  | none => reads.observes kinds

/-- One round of the loop of `invalidated` (`view.rs:160-170`): the results so far by position, and
the regions. -/
def invalidateRun (kinds : ChangeKinds) (changed : Option AddressRangeSet) (space : AddressSpaceId)
    (state : List (Nat × Bool) × AddressRangeSet) (run : Run Nat) :
    List (Nat × Bool) × AddressRangeSet :=
  let (evaluated, hit) :=
    match state.1.find? fun known => known.1 == run.value with
    | some known => (state.1, known.2)
    | none =>
      let hit := affected kinds changed (index.deref run.value)
      (state.1 ++ [(run.value, hit)], hit)
  (evaluated, if hit then state.2.insertRange ⟨space, run.start, run.stop⟩ else state.2)

/-- `DependencyIndex::invalidated` (`view.rs:142-173`). -/
def invalidated (analyser : AnalyserId) (kinds : ChangeKinds)
    (changed : Option AddressRangeSet) : DependencyInvalidation :=
  match index.entries[analyser]? with
  | none => ⟨false, .new⟩
  | some dependencies =>
    ⟨dependencies.global.any fun set => affected kinds changed (index.deref set),
      (dependencies.regional.entries.foldl (fun state entry =>
        entry.2.runs.foldl (index.invalidateRun kinds changed entry.1) state) ([], .new)).2⟩

/-! ## What is stored -/

/-- The position stored for a space and an address. -/
def RegionalAt (regional : OrdMap AddressSpaceId (RangeMap Nat)) (address : Address) (set : Nat) :
    Prop :=
  ∃ map, (address.space, map) ∈ regional.entries ∧ map.At address.address set

/-- The position stored for a piece of work. -/
def Stored : Target → Nat → Prop
  | .whole, set => dependencies.global = some set
  | .address address, set => RegionalAt dependencies.regional address set

variable {index : DependencyIndex} {dependencies : AnalyserDependencies} {address : Address}
  {set : Nat} {regional : OrdMap AddressSpaceId (RangeMap Nat)}

theorem regionalAt_replace {range : AddressRange} (le : range.start ≤ range.stop)
    (stored : Option Nat) : RegionalAt (replace stored regional range) address set ↔
      (range.Contains address ∧ stored = some set) ∨
        (¬ range.Contains address ∧ RegionalAt regional address set) := by
  -- the map of the space of the range, empty if there is none yet
  have old : ∀ x, ((regional.get? range.space).getD .empty).At x set ↔
      RegionalAt regional ⟨range.space, x⟩ set := by
    intro x
    cases found : regional.get? range.space with
    | none =>
      apply iff_of_false RangeMap.not_at_empty
      intro h
      obtain ⟨map, mem, -⟩ := h
      exact OrdMap.get?_eq_none.mp found map mem
    | some map =>
      have mem := OrdMap.get?_eq_some.mp found
      constructor
      · intro at_
        exact ⟨map, mem, at_⟩
      · intro h
        obtain ⟨map', mem', at_⟩ := h
        rw [getD_some, OrdMap.unique mem mem']
        exact at_
  have new : ∀ x, (match stored with
      | some stored => ((regional.get? range.space).getD .empty).insert range.start range.stop stored
      | none => ((regional.get? range.space).getD .empty).remove range.start range.stop).At x set ↔
      ((range.start ≤ x ∧ x ≤ range.stop) ∧ stored = some set) ∨
        (¬ (range.start ≤ x ∧ x ≤ range.stop) ∧ RegionalAt regional ⟨range.space, x⟩ set) := by
    intro x
    cases stored with
    | none =>
      rw [RangeMap.at_remove le, old]
      simp
    | some stored =>
      rw [RangeMap.at_insert le, old, Option.some.injEq]
  obtain ⟨space, x⟩ := address
  constructor
  · intro h
    obtain ⟨map, mem, at_⟩ := h
    rcases OrdMap.mem_insert.mp mem with eq | ⟨mem, ne⟩
    · cases eq
      rcases (new x).mp at_ with ⟨inside, stored⟩ | ⟨outside, rest⟩
      · exact .inl ⟨⟨rfl, inside⟩, stored⟩
      · exact .inr ⟨fun inside => outside inside.2, rest⟩
    · exact .inr ⟨fun inside => ne inside.1.symm, map, mem, at_⟩
  · intro h
    by_cases same : space = range.space
    · subst same
      refine ⟨_, OrdMap.mem_insert.mpr (.inl rfl), (new x).mpr ?_⟩
      rcases h with ⟨inside, stored⟩ | ⟨outside, rest⟩
      · exact .inl ⟨inside.2, stored⟩
      · exact .inr ⟨fun inside => outside ⟨rfl, inside⟩, rest⟩
    · rcases h with ⟨inside, -⟩ | ⟨-, map, mem, at_⟩
      · exact absurd inside.1.symm same
      · exact ⟨map, OrdMap.mem_insert.mpr (.inr ⟨mem, same⟩), at_⟩

theorem regionalAt_foldl_replace (stored : Option Nat) : ∀ (ranges : List AddressRange)
    {regional : OrdMap AddressSpaceId (RangeMap Nat)},
    (∀ range ∈ ranges, range.start ≤ range.stop) →
    (RegionalAt (ranges.foldl (replace stored) regional) address set ↔
      ((∃ range ∈ ranges, range.Contains address) ∧ stored = some set) ∨
        ((¬ ∃ range ∈ ranges, range.Contains address) ∧ RegionalAt regional address set))
  | [], regional, _ => by simp
  | range :: ranges, regional, proper => by
    obtain ⟨le, rest⟩ := List.forall_mem_cons.mp proper
    rw [List.foldl_cons, regionalAt_foldl_replace stored ranges rest, regionalAt_replace le]
    by_cases first : range.Contains address
    · by_cases later : ∃ range ∈ ranges, range.Contains address <;> simp [first, later]
    · by_cases later : ∃ range ∈ ranges, range.Contains address <;> simp [first, later]

/-! ## Inherited reads -/

theorem subset_foldl_distinct {ys : List (Run Nat)} {previous : List Nat} :
    previous ⊆ ys.foldl (fun previous run =>
      if previous.contains run.value then previous else previous ++ [run.value]) previous ∧
    ∀ run ∈ ys, run.value ∈ ys.foldl (fun previous run =>
      if previous.contains run.value then previous else previous ++ [run.value]) previous := by
  induction ys generalizing previous with
  | nil => simp
  | cons run ys ih =>
    have grows : previous ⊆ (if previous.contains run.value then previous
        else previous ++ [run.value]) := by
      split
      · exact List.Subset.refl _
      · exact List.subset_append_left _ _
    have adds : run.value ∈ (if previous.contains run.value then previous
        else previous ++ [run.value]) := by
      split
      · rename_i known
        exact List.contains_iff_mem.mp known
      · exact List.mem_append_right _ (List.mem_singleton.mpr rfl)
    obtain ⟨sub, all⟩ := @ih (if previous.contains run.value then previous
      else previous ++ [run.value])
    refine ⟨List.Subset.trans grows sub, ?_⟩
    intro found mem
    rcases List.mem_cons.mp mem with rfl | mem
    · exact sub adds
    · exact all found mem

theorem mem_previous {ranges : List AddressRange} {range : AddressRange} (mem : range ∈ ranges)
    (inside : range.Contains address) (stored : RegionalAt dependencies.regional address set) :
    set ∈ previous dependencies ranges := by
  have general : ∀ (ranges : List AddressRange) (start : List Nat),
      (set ∈ start ∨ range ∈ ranges) →
      set ∈ ranges.foldl (fun previous range =>
        match dependencies.regional.get? range.space with
        | none => previous
        | some regional => (regional.overlapping range.start range.stop).foldl
            (fun previous run =>
              if previous.contains run.value then previous else previous ++ [run.value])
            previous) start := by
    intro ranges
    induction ranges with
    | nil => simp
    | cons head rest ih =>
      intro start h
      rw [List.foldl_cons]
      apply ih _
      rcases h with known | mem
      · left
        split
        · exact known
        · exact subset_foldl_distinct.1 known
      · rcases List.mem_cons.mp mem with rfl | mem
        · left
          obtain ⟨map, entry, at_⟩ := stored
          rw [← inside.1] at entry
          rw [OrdMap.get?_eq_some.mpr entry]
          obtain ⟨run, overlaps, rfl⟩ := RangeMap.exists_overlapping at_ inside.2.1 inside.2.2
          exact subset_foldl_distinct.2 run overlaps
        · exact .inr mem
  exact general ranges [] (.inr mem)

theorem inherit_spec (index : DependencyIndex) : ∀ (sets : List Nat) (reads : ReadSet),
    reads.Le (index.inherit reads sets) ∧
      ∀ set ∈ sets, (index.deref set).Inhabited → (index.deref set).Le (index.inherit reads sets)
  | [], reads => ⟨ReadSet.Le.refl reads, by simp⟩
  | head :: sets, reads => by
    obtain ⟨le, all⟩ := inherit_spec index sets (reads.merge (index.deref head)).1
    refine ⟨(ReadSet.merge_le_left reads _).trans le, ?_⟩
    intro set mem inhabited
    rcases List.mem_cons.mp mem with rfl | mem
    · exact (ReadSet.merge_le_right reads inhabited).trans le
    · exact all set mem inhabited

end DependencyIndex

/-! ## The productions -/

def Production.Covers (production : Production) (target : Target) : Prop :=
  AnalysisWorkQueue.Scheduled production.regions target

open Classical in
/-- The read sets of the production of an analyser that is current for a piece of work, with those
that it inherited: each production starts anew, each continuation adds to the ones before. -/
noncomputable def currentReads (analyser : AnalyserId) (target : Target) :
    List Production → List ReadSet
  | [] => []
  | production :: earlier =>
    if production.analyser = analyser ∧ production.Covers target then
      if production.continuation then production.reads :: currentReads analyser target earlier
      else [production.reads]
    else currentReads analyser target earlier

namespace DependencyIndex

variable {index : DependencyIndex} {dependencies : AnalyserDependencies} {set : Nat}
  {production : Production} {target : Target}

/-- The read sets that a continuation inherits have no entry without an address. -/
def Inheritable (index : DependencyIndex) (production : Production) : Prop :=
  production.continuation = true →
    ∀ dependencies, index.entries[production.analyser]? = some dependencies →
      ∀ target set, production.Covers target → Stored dependencies target set →
        (index.deref set).Inhabited

/-- The index represents the productions, the last one first. -/
structure Represents (index : DependencyIndex) (productions : List Production) : Prop where
  valid : ∀ (analyser : AnalyserId) (dependencies : AnalyserDependencies),
    index.entries[analyser]? = some dependencies → ∀ target set, Stored dependencies target set → set < index.sets.length ∧
      ∀ address, target = .address address → address.address < 2 ^ 64
  current : ∀ (analyser : AnalyserId) (dependencies : AnalyserDependencies),
    index.entries[analyser]? = some dependencies → ∀ target, ∀ reads ∈ currentReads analyser target productions, reads.Le .new ∨
      ∃ set, Stored dependencies target set ∧ reads.Le (index.deref set)

theorem new_represents (count : Nat) : (new count).Represents [] := by
  refine ⟨?_, by simp [currentReads]⟩
  intro analyser dependencies found target set stored
  obtain rfl := List.eq_of_mem_replicate (List.mem_of_getElem? found)
  cases target with
  | whole => cases stored
  | address address =>
    obtain ⟨map, mem, -⟩ := stored
    cases mem

theorem le_new_of_isEmpty {reads : ReadSet} (empty : reads.isEmpty = true) :
    reads.Le .new := by
  rw [ReadSet.isEmpty, Bool.and_eq_true, List.isEmpty_iff] at empty
  have nowhere : ∀ kind, reads.unbounded.intersects kind = false := fun kind =>
    ChangeKinds.intersects_of_isEmpty empty.1
  refine ⟨?_, ?_, ?_⟩
  · intro kind seen
    rcases ReadSet.observes_iff.mp seen with anywhere | ⟨entry, mem, -⟩
    · exact absurd ((nowhere kind).symm.trans anywhere) Bool.noConfusion
    · rw [empty.2] at mem
      cases mem
  · intro kind anywhere
    exact absurd ((nowhere kind).symm.trans anywhere) Bool.noConfusion
  · intro kind address seen
    obtain ⟨entry, mem, -⟩ := seen
    rw [empty.2] at mem
    cases mem

theorem stored_update (index : DependencyIndex) (dependencies : AnalyserDependencies)
    (production : Production) (target : Target) (set : Nat) :
    Stored (index.update dependencies production).2 target set ↔
      (production.Covers target ∧ index.store (index.update dependencies production).1 = some set) ∨
      (¬ production.Covers target ∧ Stored dependencies target set) := by
  unfold update Production.Covers
  cases empty : production.regions.isEmpty with
  | true =>
    cases target with
    | whole => simp [Scheduled, empty, Stored]
    | address address =>
      have outside : ¬ production.regions.Contains address :=
        AddressRangeSet.isEmpty_iff.mp empty address
      simp [Scheduled, outside, Stored]
  | false =>
    rw [if_neg Bool.false_ne_true]
    cases target with
    | whole => simp [Scheduled, empty, Stored]
    | address address =>
      dsimp only [Stored, Scheduled]
      rw [regionalAt_foldl_replace _ _ fun range mem =>
        (ranges_proper range mem).start_le, contains_iff_ranges]

theorem reads_update (index : DependencyIndex) (dependencies : AnalyserDependencies)
    (production : Production) :
    production.reads.Le (index.update dependencies production).1 ∧
      ∀ target set, production.continuation = true → production.Covers target →
        Stored dependencies target set → (index.deref set).Inhabited →
        (index.deref set).Le (index.update dependencies production).1 := by
  unfold update Production.Covers
  cases empty : production.regions.isEmpty with
  | true =>
    obtain ⟨le, all⟩ := inherit_spec index
      (if production.continuation then dependencies.global.toList else []) production.reads
    refine ⟨le, ?_⟩
    intro target set continuation covers stored inhabited
    refine all set ?_ inhabited
    rw [if_pos continuation]
    cases target with
    | whole => exact mem_toList.mpr stored
    | address address => exact absurd covers (AddressRangeSet.isEmpty_iff.mp empty address)
  | false =>
    obtain ⟨le, all⟩ := inherit_spec index (if production.continuation then
      previous dependencies production.regions.ranges else []) production.reads
    refine ⟨le, ?_⟩
    intro target set continuation covers stored inhabited
    refine all set ?_ inhabited
    rw [if_pos continuation]
    cases target with
    | whole => exact absurd (empty.symm.trans covers) Bool.noConfusion
    | address address =>
      obtain ⟨range, mem, inside⟩ := contains_iff_ranges.mp covers
      exact mem_previous mem inside stored

theorem deref_append {reads : ReadSet} {entries : List AnalyserDependencies}
    (lt : set < index.sets.length) :
    (DependencyIndex.mk (index.sets ++ [reads]) entries).deref set = index.deref set := by
  unfold deref
  rw [List.getElem?_append_left lt]

theorem record_represents {productions : List Production} {index' : DependencyIndex}
    (represents : index.Represents productions) (inheritable : index.Inheritable production)
    (call : index.record production = some index') :
    index'.Represents (production :: productions) := by
  unfold record at call
  cases found : index.entries[production.analyser]? with
  | none => simp [found] at call
  | some dependencies =>
    rw [found, some_bind] at call
    cases call
    obtain ⟨own, inherited⟩ := reads_update index dependencies production
    have stored := stored_update index dependencies production
    have old := represents.valid _ _ found
    have lt := lt_of_getElem? found
    have entries : ∀ (analyser : AnalyserId) (after : AnalyserDependencies),
        (index.entries.set production.analyser (index.update dependencies production).2)[analyser]? =
          some after →
        (analyser = production.analyser ∧ after = (index.update dependencies production).2) ∨
        (analyser ≠ production.analyser ∧ index.entries[analyser]? = some after) := by
      intro analyser after at_
      rw [List.getElem?_set] at at_
      by_cases same : production.analyser = analyser
      · rw [if_pos same, if_pos lt] at at_
        cases at_
        exact .inl ⟨same.symm, rfl⟩
      · rw [if_neg same] at at_
        exact .inr ⟨Ne.symm same, at_⟩
    -- the reads of the production are stored, unless they are empty
    have latest : ∀ reads : ReadSet, reads.Le (index.update dependencies production).1 →
        reads.Le .new ∨ (index.store (index.update dependencies production).1 =
          some index.sets.length ∧ reads.Le (deref ⟨index.sets ++
            [(index.update dependencies production).1], index.entries.set production.analyser
              (index.update dependencies production).2⟩ index.sets.length)) := by
      intro reads le
      cases empty : (index.update dependencies production).1.isEmpty with
      | true => exact .inl (le.trans (le_new_of_isEmpty empty))
      | false =>
        refine .inr ⟨by simp [store, empty], ?_⟩
        simpa [deref] using le
    refine ⟨?_, ?_⟩
    · intro analyser after at_ target set isStored
      rw [List.length_append, List.length_singleton]
      rcases entries analyser after at_ with ⟨-, rfl⟩ | ⟨-, at_⟩
      · rcases (stored target set).mp isStored with ⟨covers, position⟩ | ⟨-, before⟩
        · unfold store at position
          split at position
          · cases position
          · cases position
            refine ⟨Nat.lt_succ_self _, ?_⟩
            intro address eq
            subst eq
            obtain ⟨range, mem, inside⟩ := contains_iff_ranges.mp covers
            have := (ranges_proper range mem).stop_lt
            have := inside.2.2
            omega
        · obtain ⟨bound, address⟩ := old target set before
          exact ⟨by omega, address⟩
      · obtain ⟨bound, address⟩ := represents.valid analyser after at_ target set isStored
        exact ⟨by omega, address⟩
    · intro analyser after at_ target reads mem
      rcases entries analyser after at_ with ⟨rfl, rfl⟩ | ⟨ne, at_⟩
      · by_cases covers : production.Covers target
        · -- the reads are those of the production, or inherited by it
          have below : reads.Le .new ∨ reads.Le (index.update dependencies production).1 := by
            rw [currentReads, if_pos ⟨rfl, covers⟩] at mem
            split at mem
            · rename_i continuation
              rcases List.mem_cons.mp mem with rfl | mem
              · exact .inr own
              · rcases represents.current _ _ found target reads mem with none | ⟨set, isStored, le⟩
                · exact .inl none
                · exact .inr (le.trans (inherited target set continuation covers isStored
                    (inheritable continuation dependencies found target set covers isStored)))
            · rw [List.mem_singleton.mp mem]
              exact .inr own
          rcases below with none | le
          · exact .inl none
          · rcases latest reads le with none | ⟨position, le⟩
            · exact .inl none
            · exact .inr ⟨_, (stored target _).mpr (.inl ⟨covers, position⟩), le⟩
        · rw [currentReads, if_neg fun h => covers h.2] at mem
          rcases represents.current _ _ found target reads mem with none | ⟨set, isStored, le⟩
          · exact .inl none
          · refine .inr ⟨set, (stored target set).mpr (.inr ⟨covers, isStored⟩), ?_⟩
            rw [deref_append (old target set isStored).1]
            exact le
      · rw [currentReads, if_neg fun h => ne h.1.symm] at mem
        rcases represents.current _ _ at_ target reads mem with none | ⟨set, isStored, le⟩
        · exact .inl none
        · refine .inr ⟨set, isStored, ?_⟩
          rw [deref_append (represents.valid _ _ at_ target set isStored).1]
          exact le

/-! ## Invalidation -/

variable {kinds : ChangeKinds} {changed : Option AddressRangeSet}

/-- The results that `invalidated` keeps are those of the test. -/
def Evaluated (index : DependencyIndex) (kinds : ChangeKinds) (changed : Option AddressRangeSet)
    (evaluated : List (Nat × Bool)) : Prop :=
  ∀ known ∈ evaluated, known.2 = affected kinds changed (index.deref known.1)

theorem invalidateRun_spec (space : AddressSpaceId) {state : List (Nat × Bool) × AddressRangeSet}
    (evaluated : index.Evaluated kinds changed state.1) (run : Run Nat)
    (bound : run.stop < 2 ^ 64) :
    index.Evaluated kinds changed (index.invalidateRun kinds changed space state run).1 ∧
      (∀ address, state.2.Contains address →
        (index.invalidateRun kinds changed space state run).2.Contains address) ∧
      (affected kinds changed (index.deref run.value) = true → ∀ x, run.start ≤ x → x ≤ run.stop →
          (index.invalidateRun kinds changed space state run).2.Contains ⟨space, x⟩) := by
  have added : ∀ hit : Bool, hit = affected kinds changed (index.deref run.value) →
      (∀ address, state.2.Contains address → (if hit then
        state.2.insertRange ⟨space, run.start, run.stop⟩ else state.2).Contains address) ∧
      (affected kinds changed (index.deref run.value) = true →
        ∀ x, run.start ≤ x → x ≤ run.stop → (if hit then
          state.2.insertRange ⟨space, run.start, run.stop⟩ else state.2).Contains ⟨space, x⟩) := by
    intro hit eq
    constructor
    · intro address inside
      split
      · exact (contains_insertRange bound).mpr (.inr inside)
      · exact inside
    · intro affects x low high
      rw [if_pos (eq.trans affects)]
      exact (contains_insertRange bound).mpr (.inl ⟨rfl, low, high⟩)
  unfold invalidateRun
  cases found : state.1.find? fun known => known.1 == run.value with
  | some known =>
    have right := evaluated known (List.mem_of_find?_eq_some found)
    have same := List.find?_some found
    rw [beq_iff_eq] at same
    rw [same] at right
    exact ⟨evaluated, added known.2 right⟩
  | none =>
    refine ⟨?_, added _ rfl⟩
    intro known mem
    rcases List.mem_append.mp mem with old | new
    · exact evaluated known old
    · rw [List.mem_singleton.mp new]

theorem foldl_invalidateRun_spec (space : AddressSpaceId) : ∀ (runs : List (Run Nat))
    {state : List (Nat × Bool) × AddressRangeSet}, index.Evaluated kinds changed state.1 →
    (∀ run ∈ runs, run.stop < 2 ^ 64) →
    index.Evaluated kinds changed (runs.foldl (index.invalidateRun kinds changed space) state).1 ∧
      (∀ address, state.2.Contains address →
        (runs.foldl (index.invalidateRun kinds changed space) state).2.Contains address) ∧
      ∀ run ∈ runs, affected kinds changed (index.deref run.value) = true →
        ∀ x, run.start ≤ x → x ≤ run.stop →
          (runs.foldl (index.invalidateRun kinds changed space) state).2.Contains ⟨space, x⟩
  | [], state, evaluated, _ => ⟨evaluated, fun _ => id, by simp⟩
  | run :: runs, state, evaluated, bounded => by
    obtain ⟨bound, rest⟩ := List.forall_mem_cons.mp bounded
    obtain ⟨right, grows, adds⟩ := invalidateRun_spec space evaluated run bound
    obtain ⟨right', grows', adds'⟩ := foldl_invalidateRun_spec space runs right rest
    refine ⟨right', fun address inside => grows' address (grows address inside), ?_⟩
    intro found mem affects x low high
    rcases List.mem_cons.mp mem with rfl | mem
    · exact grows' _ (adds affects x low high)
    · exact adds' found mem affects x low high

/-- What is stored with an affected read set is invalidated. -/
theorem invalidated_spec {analyser : AnalyserId}
    (found : index.entries[analyser]? = some dependencies)
    (bounded : ∀ address set, Stored dependencies (.address address) set →
      address.address < 2 ^ 64) (stored : Stored dependencies target set)
    (affects : affected kinds changed (index.deref set) = true) :
    match target with
    | .whole => (index.invalidated analyser kinds changed).global = true
    | .address address => (index.invalidated analyser kinds changed).regions.Contains address := by
  unfold invalidated
  rw [found]
  cases target with
  | whole =>
    dsimp only
    rw [show dependencies.global = some set from stored]
    exact affects
  | address address =>
    have runs : ∀ entry ∈ dependencies.regional.entries, ∀ run ∈ entry.2.runs,
        run.stop < 2 ^ 64 := by
      intro entry mem run runMem
      exact bounded ⟨entry.1, run.stop⟩ run.value ⟨entry.2, mem, run, runMem,
        ⟨entry.2.ordered.nonempty run runMem, le_rfl⟩, rfl⟩
    have general : ∀ (entries : List (AddressSpaceId × RangeMap Nat))
        (state : List (Nat × Bool) × AddressRangeSet), index.Evaluated kinds changed state.1 →
        (∀ entry ∈ entries, ∀ run ∈ entry.2.runs, run.stop < 2 ^ 64) →
        (state.2.Contains address ∨ ∃ map, (address.space, map) ∈ entries ∧
          map.At address.address set) →
        (entries.foldl (fun state entry =>
          entry.2.runs.foldl (index.invalidateRun kinds changed entry.1) state)
            state).2.Contains address := by
      intro entries
      induction entries with
      | nil => simp
      | cons entry entries ih =>
        intro state evaluated bounded h
        obtain ⟨first, rest⟩ := List.forall_mem_cons.mp bounded
        obtain ⟨right, grows, adds⟩ := foldl_invalidateRun_spec entry.1 entry.2.runs evaluated first
        apply ih _ right rest
        rcases h with inside | ⟨map, mem, at_⟩
        · exact .inl (grows address inside)
        · rcases List.mem_cons.mp mem with rfl | mem
          · left
            obtain ⟨run, runMem, inside, rfl⟩ := at_
            exact adds run runMem affects _ inside.1 inside.2
          · exact .inr ⟨map, mem, at_⟩
    exact general _ _ (by intro known mem; cases mem) runs (.inr stored)

end DependencyIndex

end Fugue.Engine
