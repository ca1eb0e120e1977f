import Fugue.Engine.Routing

/-!
# What the routing of changes schedules

One lemma for each step of `route_changes`: it succeeds, keeps all work that is queued (but for the
work that a retraction cancels), and queues what it is asked to.
-/

namespace Fugue.Engine

open Fugue.Lib Fugue.Ir Fugue.Project Option OrdMap AddressRangeSet

/-! ## The groups -/

/-- The groups of the selected records, with the ranges that each of them adds. -/
structure GroupsOf (groups : Groups) (select : ChangeRecord → Prop)
    (ranges : ChangeRecord → List AddressRange) (records : List ChangeRecord) : Prop where
  present : ∀ record ∈ records, select record →
    ∃ regions, (record.kind.toNat, regions) ∈ groups.entries
  regions : ∀ bits regions, (bits, regions) ∈ groups.entries →
    (∃ record ∈ records, select record ∧ record.kind.toNat = bits) ∧
    ∀ address, regions.Contains address ↔ ∃ record ∈ records, (select record ∧
      record.kind.toNat = bits) ∧ ∃ range ∈ ranges record, range.Contains address

section Groups

variable {groups : Groups} {select : ChangeRecord → Prop}
  {ranges : ChangeRecord → List AddressRange} {records : List ChangeRecord} {record : ChangeRecord}

theorem GroupsOf.nil : GroupsOf .empty select ranges [] := by
  refine ⟨by simp, ?_⟩
  intro bits regions mem
  cases mem

theorem GroupsOf.skip (of : GroupsOf groups select ranges records) (not : ¬ select record) :
    GroupsOf groups select ranges (records ++ [record]) := by
  have same : ∀ P : ChangeRecord → Prop, (∀ found, P found → select found) →
      ((∃ found ∈ records ++ [record], P found) ↔ ∃ found ∈ records, P found) := by
    intro P selects
    simp only [List.mem_append, List.mem_singleton, or_and_right, exists_or, exists_eq_left]
    exact or_iff_left fun holds => not (selects record holds)
  refine ⟨?_, ?_⟩
  · intro found mem selected
    rcases List.mem_append.mp mem with mem | mem
    · exact of.present found mem selected
    · rw [List.mem_singleton.mp mem] at selected
      exact absurd selected not
  · intro bits regions mem
    obtain ⟨some, contains⟩ := of.regions bits regions mem
    refine ⟨(same _ fun _ => And.left).mpr some, ?_⟩
    intro address
    rw [contains, same _ fun _ holds => holds.1.1]

theorem GroupsOf.add (of : GroupsOf groups select ranges records) (selected : select record)
    (bounded : ∀ range ∈ ranges record, range.stop < 2 ^ 64) :
    GroupsOf (groups.add record.kind (ranges record)) select ranges (records ++ [record]) := by
  have split : ∀ P : ChangeRecord → Prop,
      ((∃ found ∈ records ++ [record], P found) ↔ (∃ found ∈ records, P found) ∨ P record) := by
    intro P
    simp [List.mem_append, or_and_right, exists_or]
  have old : ∀ address, ((groups.get? record.kind.toNat).getD .new).Contains address ↔
      ∃ found ∈ records, (select found ∧ found.kind.toNat = record.kind.toNat) ∧
        ∃ range ∈ ranges found, range.Contains address := by
    intro address
    cases found : groups.get? record.kind.toNat with
    | none =>
      apply iff_of_false not_contains_new
      intro h
      obtain ⟨other, mem, ⟨otherSelected, same⟩, -⟩ := h
      obtain ⟨regions, present⟩ := of.present other mem otherSelected
      rw [same] at present
      exact get?_eq_none.mp found regions present
    | some regions => exact (of.regions _ _ (get?_eq_some.mp found)).2 address
  refine ⟨?_, ?_⟩
  · intro found mem foundSelected
    by_cases same : found.kind.toNat = record.kind.toNat
    · exact ⟨_, mem_insert.mpr (.inl (by rw [same]))⟩
    · rcases List.mem_append.mp mem with mem | mem
      · obtain ⟨regions, present⟩ := of.present found mem foundSelected
        exact ⟨regions, mem_insert.mpr (.inr ⟨present, same⟩)⟩
      · rw [List.mem_singleton.mp mem] at same
        exact absurd rfl same
  · intro bits regions mem
    rcases mem_insert.mp mem with eq | ⟨mem, ne⟩
    · cases eq
      refine ⟨⟨record, by simp, selected, rfl⟩, ?_⟩
      intro address
      rw [contains_insertRanges bounded, old, split]
      simp [selected, or_comm]
    · obtain ⟨some, contains⟩ := of.regions bits regions mem
      refine ⟨(split _).mpr (.inl some), ?_⟩
      intro address
      rw [contains, split]
      refine (or_iff_left ?_).symm
      intro holds
      exact ne holds.1.2.symm

end Groups

/-- The ends of the ranges of a record are 64-bit addresses. -/
def BoundedRecord (record : ChangeRecord) : Prop :=
  ∀ range ∈ record.ranges ++ triggerRanges record, range.stop < 2 ^ 64

def Tracked (record : ChangeRecord) : Prop := trackedDependencyKinds.contains record.kind = true

/-- What `route_changes` collects from some records. -/
structure GroupedOf (grouped : Grouped) (records : List ChangeRecord) : Prop where
  retract : ∀ address, grouped.retract.Contains address ↔
    ∃ record ∈ records, record.requiresRetraction = true ∧
      ∃ range ∈ record.ranges, range.Contains address
  triggered : GroupsOf grouped.triggered (fun _ => True) triggerRanges records
  byKind : GroupsOf grouped.byKind Tracked ChangeRecord.ranges records

theorem GroupedOf.add {grouped : Grouped} {records : List ChangeRecord} {record : ChangeRecord}
    (of : GroupedOf grouped records) (bounded : BoundedRecord record) :
    GroupedOf (grouped.add record) (records ++ [record]) := by
  have nonempty : record.kind.isEmpty = false := by
    rw [ChangeKinds.isEmpty, beq_eq_false_iff_ne]
    exact record.kind_ne_zero
  have ranges : ∀ range ∈ record.ranges, range.stop < 2 ^ 64 := fun range mem =>
    bounded range (List.mem_append_left _ mem)
  have trigger : ∀ range ∈ triggerRanges record, range.stop < 2 ^ 64 := fun range mem =>
    bounded range (List.mem_append_right _ mem)
  unfold Grouped.add
  rw [nonempty, if_neg Bool.false_ne_true]
  refine ⟨?_, of.triggered.add trivial trigger, ?_⟩
  · intro address
    simp only [List.mem_append, List.mem_singleton, or_and_right, exists_or, exists_eq_left,
      ← of.retract]
    split
    · rename_i requires
      rw [contains_insertRanges ranges]
      simp [requires, or_comm]
    · rename_i requires
      simp [requires]
  · dsimp only
    split
    · rename_i tracked
      exact of.byKind.add tracked ranges
    · rename_i tracked
      exact of.byKind.skip tracked

theorem group_of (changes : ChangeSet) (bounded : ∀ record ∈ changes.records, BoundedRecord record) :
    GroupedOf (group changes) changes.records := by
  have general : ∀ (records done : List ChangeRecord) (grouped : Grouped),
      (∀ record ∈ records, BoundedRecord record) → GroupedOf grouped done →
      GroupedOf (records.foldl Grouped.add grouped) (done ++ records) := by
    intro records
    induction records with
    | nil =>
      intro done grouped _ of
      rwa [List.append_nil]
    | cons record records ih =>
      intro done grouped bounded of
      obtain ⟨first, rest⟩ := List.forall_mem_cons.mp bounded
      rw [List.append_cons]
      exact ih _ _ rest (of.add first)
  refine general changes.records [] _ bounded ⟨?_, .nil, .nil⟩
  intro address
  apply iff_of_false not_contains_new
  simp

/-! ## Scheduling -/

namespace Worker

open AnalysisWorkQueue

variable {analysers : Analysers} {worker worker' : Worker} {kind : ChangeKinds}
  {regions : AddressRangeSet} {revision : Revision} {provenance : ChangeProvenance}
  {target : Target} {id : AnalyserId}

/-- What holds of a worker with these analysers. -/
structure Inv (analysers : Analysers) (worker : Worker) : Prop where
  count : worker.analysers.length = analysers.count
  same : ∀ (id : AnalyserId) (state : ScheduledAnalyser), worker.analysers[id]? = some state →
    state.order = analysers.order id ∧ state.phase = analysers.phase id
  queue : AnalysisWorkQueue.Inv analysers worker.queue

/-- The worker after a step that only schedules work. -/
structure Schedules (worker worker' : Worker) : Prop where
  analysers : worker'.analysers = worker.analysers
  dependencies : worker'.dependencies = worker.dependencies
  coverage : worker'.coverage = worker.coverage
  recentChanges : worker'.recentChanges = worker.recentChanges
  covers : ∀ id target, Covers worker.queue id target → Covers worker'.queue id target

theorem Schedules.refl (worker : Worker) : Schedules worker worker :=
  ⟨rfl, rfl, rfl, rfl, fun _ _ => id⟩

theorem Schedules.trans {first second third : Worker} (left : Schedules first second)
    (right : Schedules second third) : Schedules first third :=
  ⟨right.analysers.trans left.analysers, right.dependencies.trans left.dependencies,
    right.coverage.trans left.coverage, right.recentChanges.trans left.recentChanges,
    fun id target covers => right.covers id target (left.covers id target covers)⟩

theorem scheduleAnalyser_spec (inv : Inv analysers worker) (lt : id < worker.analysers.length)
    (regions : AddressRangeSet) (kind : ChangeKinds) (trigger : WorkTrigger) (revision : Revision)
    (provenance : ChangeProvenance) :
    ∃ worker', worker.scheduleAnalyser id regions kind trigger revision provenance = some worker' ∧
      Inv analysers worker' ∧ Schedules worker worker' ∧
      ∀ target, Scheduled regions target → Covers worker'.queue id target := by
  have found : worker.analysers[id]? = some worker.analysers[id] := List.getElem?_eq_getElem lt
  obtain ⟨order, phase⟩ := inv.same id _ found
  obtain ⟨queue', report, call, kept, covers⟩ := schedule_spec inv.queue
    (inv.count ▸ lt) worker.analysers[id].priority regions
    fun range => ⟨range, kind.toNat, provenance, trigger, revision⟩
  refine ⟨{ worker with queue := queue' }.deferDegradations report, ?_, ?_, ?_, covers⟩
  · unfold scheduleAnalyser
    rw [found, some_bind, order, phase, call]
    rfl
  · exact ⟨inv.count, inv.same, kept.inv⟩
  · refine ⟨rfl, rfl, rfl, rfl, ?_⟩
    intro other target before
    exact (kept.covers other target before).resolve_right fun gone => gone

theorem routeDirectTo_spec (inv : Inv analysers worker) (lt : id < worker.analysers.length) :
    ∃ worker', routeDirectTo kind regions revision provenance worker id = some worker' ∧
      Inv analysers worker' ∧ Schedules worker worker' ∧
      ∀ state, worker.analysers[id]? = some state → selfProduced state kind provenance = false →
        state.triggers.intersects kind = true →
        ∀ target, Scheduled regions target → Covers worker'.queue id target := by
  have found : worker.analysers[id]? = some worker.analysers[id] := List.getElem?_eq_getElem lt
  unfold routeDirectTo
  rw [found, some_bind]
  split
  · rename_i skipped
    refine ⟨worker, rfl, inv, Schedules.refl worker, ?_⟩
    intro state at_ own triggered
    cases at_
    rw [own, triggered] at skipped
    cases skipped
  · obtain ⟨worker', call, inv', schedules, covers⟩ :=
      scheduleAnalyser_spec inv lt regions kind .change revision provenance
    exact ⟨worker', call, inv', schedules, fun _ _ _ _ => covers⟩

/-- `route_direct` schedules every analyser that the kind triggers. -/
theorem routeDirect_spec (inv : Inv analysers worker) :
    ∃ worker', worker.routeDirect kind regions revision provenance = some worker' ∧
      Inv analysers worker' ∧ Schedules worker worker' ∧
      ∀ (id : AnalyserId) (state : ScheduledAnalyser), worker.analysers[id]? = some state →
        selfProduced state kind provenance = false → state.triggers.intersects kind = true →
        ∀ target, Scheduled regions target → Covers worker'.queue id target := by
  obtain ⟨worker', call, ⟨inv', -⟩, schedules, goals⟩ := @foldlM_meets _ _
    (routeDirectTo kind regions revision provenance)
    (fun current => Inv analysers current ∧ current.analysers = worker.analysers) Schedules
    (fun id current => ∀ state, worker.analysers[id]? = some state →
      selfProduced state kind provenance = false → state.triggers.intersects kind = true →
      ∀ target, Scheduled regions target → Covers current.queue id target)
    Schedules.refl (fun _ _ _ => Schedules.trans)
    (fun id _ _ schedules goal state found own triggered target asked =>
      schedules.covers id target (goal state found own triggered target asked))
    (List.range worker.analysers.length)
    (fun id mem current holds => by
      obtain ⟨next, call, inv', schedules, goal⟩ := routeDirectTo_spec holds.1
        (by rw [holds.2]; exact List.mem_range.mp mem)
      refine ⟨next, call, ⟨inv', schedules.analysers.trans holds.2⟩, schedules, ?_⟩
      rwa [holds.2] at goal) worker ⟨inv, rfl⟩
  refine ⟨worker', call, inv', schedules, ?_⟩
  intro id state found
  exact goals id (List.mem_range.mpr (lt_of_getElem? found)) state found

def Invalidated (dependencies : DependencyIndex) (id : AnalyserId) (kind : ChangeKinds)
    (scope : Option AddressRangeSet) : Target → Prop
  | .whole => (dependencies.invalidated id kind scope).global = true
  | .address address => (dependencies.invalidated id kind scope).regions.Contains address

theorem routeDependenciesTo_spec (inv : Inv analysers worker) (lt : id < worker.analysers.length)
    {scope : Option AddressRangeSet} :
    ∃ worker', routeDependenciesTo kind scope revision provenance worker id = some worker' ∧
      Inv analysers worker' ∧ Schedules worker worker' ∧
      ∀ state, worker.analysers[id]? = some state → selfProduced state kind provenance = false →
        ∀ target, Invalidated worker.dependencies id kind scope target →
          Covers worker'.queue id target := by
  have found : worker.analysers[id]? = some worker.analysers[id] := List.getElem?_eq_getElem lt
  unfold routeDependenciesTo
  rw [found, some_bind]
  split
  · rename_i own
    refine ⟨worker, rfl, inv, Schedules.refl worker, ?_⟩
    intro state at_ notOwn
    cases at_
    rw [own] at notOwn
    cases notOwn
  · dsimp only
    split
    · rename_i empty
      refine ⟨worker, rfl, inv, Schedules.refl worker, ?_⟩
      intro _ _ _ target invalidated
      rw [DependencyInvalidation.isEmpty, Bool.and_eq_true, Bool.not_eq_true'] at empty
      cases target with
      | whole => exact absurd (empty.1.symm.trans invalidated) Bool.noConfusion
      | address address => exact absurd invalidated (AddressRangeSet.isEmpty_iff.mp empty.2 address)
    · -- the production without a range first, then the regions
      have first : ∃ middle, worker.rescheduleGlobal id
          (worker.dependencies.invalidated id kind scope) kind revision provenance =
            some middle ∧ Inv analysers middle ∧ Schedules worker middle ∧
          ((worker.dependencies.invalidated id kind scope).global = true →
            Covers middle.queue id .whole) := by
        unfold rescheduleGlobal
        split
        · obtain ⟨middle, call, inv', schedules, covers⟩ :=
            scheduleAnalyser_spec inv lt .new kind .dependency revision provenance
          refine ⟨middle, call, inv', schedules, fun _ => covers .whole ?_⟩
          exact AddressRangeSet.isEmpty_iff.mpr fun _ => not_contains_new
        · rename_i none
          exact ⟨worker, rfl, inv, Schedules.refl worker, fun global => absurd global none⟩
      obtain ⟨middle, call, inv', schedules, whole⟩ := first
      rw [call, some_bind]
      unfold rescheduleRegions
      split
      · rename_i empty
        refine ⟨middle, rfl, inv', schedules, ?_⟩
        intro _ _ _ target invalidated
        cases target with
        | whole => exact whole invalidated
        | address address => exact absurd invalidated (AddressRangeSet.isEmpty_iff.mp empty address)
      · obtain ⟨last, call', inv'', schedules', covers⟩ := scheduleAnalyser_spec inv'
          (by rw [schedules.analysers]; exact lt)
          (worker.dependencies.invalidated id kind scope).regions kind .dependency revision provenance
        refine ⟨last, call', inv'', schedules.trans schedules', ?_⟩
        intro _ _ _ target invalidated
        cases target with
        | whole => exact schedules'.covers id .whole (whole invalidated)
        | address address => exact covers (.address address) invalidated

/-- `route_dependencies` schedules every analyser for what the index invalidates. -/
theorem routeDependencies_spec (inv : Inv analysers worker) (nonempty : kind.isEmpty = false) :
    ∃ worker', worker.routeDependencies kind regions provenance revision = some worker' ∧
      Inv analysers worker' ∧ Schedules worker worker' ∧
      ∀ (id : AnalyserId) (state : ScheduledAnalyser), worker.analysers[id]? = some state →
        selfProduced state kind provenance = false →
        ∀ target, Invalidated worker.dependencies id kind
            (if regions.isEmpty then none else some regions) target →
          Covers worker'.queue id target := by
  unfold routeDependencies
  rw [nonempty, if_neg Bool.false_ne_true]
  obtain ⟨worker', call, ⟨inv', -⟩, schedules, goals⟩ := @foldlM_meets _ _
    (routeDependenciesTo kind (if regions.isEmpty then none else some regions) revision provenance)
    (fun current => Inv analysers current ∧ Schedules worker current) Schedules
    (fun id current => ∀ state, worker.analysers[id]? = some state →
      selfProduced state kind provenance = false →
      ∀ target, Invalidated worker.dependencies id kind
        (if regions.isEmpty then none else some regions) target → Covers current.queue id target)
    Schedules.refl (fun _ _ _ => Schedules.trans)
    (fun id _ _ schedules goal state found own target asked =>
      schedules.covers id target (goal state found own target asked))
    (List.range worker.analysers.length)
    (fun id mem current holds => by
      obtain ⟨next, call, inv', schedules, goal⟩ := routeDependenciesTo_spec holds.1
        (by rw [holds.2.analysers]; exact List.mem_range.mp mem)
      refine ⟨next, call, ⟨inv', holds.2.trans schedules⟩, schedules, ?_⟩
      rwa [holds.2.analysers, holds.2.dependencies] at goal) worker ⟨inv, Schedules.refl worker⟩
  refine ⟨worker', call, inv', schedules, ?_⟩
  intro id state found
  exact goals id (List.mem_range.mpr (lt_of_getElem? found)) state found

/-! ## Retraction -/

structure SameAnalyser (state state' : ScheduledAnalyser) : Prop where
  name : state'.name = state.name
  produces : state'.produces = state.produces
  triggers : state'.triggers = state.triggers
  order : state'.order = state.order
  phase : state'.phase = state.phase

theorem foldlM_removeRange_isSome : ∀ (ranges : List AddressRange) (set : AddressRangeSet),
    (∀ range ∈ ranges, range.Proper) →
    ∃ removed, ranges.foldlM AddressRangeSet.removeRange set = some removed
  | [], set, _ => ⟨set, rfl⟩
  | range :: ranges, set, proper => by
    obtain ⟨first, rest⟩ := List.forall_mem_cons.mp proper
    obtain ⟨middle, call⟩ := removeRange_isSome set first.start_le
    obtain ⟨removed, calls⟩ := foldlM_removeRange_isSome ranges middle rest
    refine ⟨removed, ?_⟩
    rw [List.foldlM_cons, call]
    exact calls

theorem retractClaimed_spec (region : AddressRangeSet) (phases : List AnalysisPhase)
    (state : ScheduledAnalyser) :
    ∃ state', retractClaimed region phases state = some state' ∧ SameAnalyser state state' := by
  unfold retractClaimed
  split
  · obtain ⟨claimed, call⟩ := foldlM_removeRange_isSome region.ranges state.claimed
      ranges_proper
    rw [call]
    exact ⟨_, rfl, rfl, rfl, rfl, rfl, rfl⟩
  · exact ⟨state, rfl, rfl, rfl, rfl, rfl, rfl⟩

theorem mapM_retractClaimed_spec (region : AddressRangeSet) (phases : List AnalysisPhase) :
    ∀ states : List ScheduledAnalyser, ∃ states',
      states.mapM (retractClaimed region phases) = some states' ∧
      List.Forall₂ SameAnalyser states states'
  | [] => ⟨[], rfl, .nil⟩
  | state :: states => by
    obtain ⟨state', call, same⟩ := retractClaimed_spec region phases state
    obtain ⟨states', calls, rest⟩ := mapM_retractClaimed_spec region phases states
    refine ⟨state' :: states', ?_, .cons same rest⟩
    rw [List.mapM_cons, call, calls]
    rfl

def SameAnalysers (worker worker' : Worker) : Prop :=
  List.Forall₂ SameAnalyser worker.analysers worker'.analysers

theorem SameAnalysers.getElem? (same : SameAnalysers worker worker') {state : ScheduledAnalyser}
    (found : worker.analysers[id]? = some state) :
    ∃ state', worker'.analysers[id]? = some state' ∧ SameAnalyser state state' := by
  obtain ⟨lt, rfl⟩ := List.getElem?_eq_some_iff.mp found
  have lt' : id < worker'.analysers.length := same.length_eq ▸ lt
  exact ⟨_, List.getElem?_eq_getElem lt', same.get lt lt'⟩

theorem selfProduced_same {state state' : ScheduledAnalyser} (same : SameAnalyser state state') :
    selfProduced state' kind provenance = selfProduced state kind provenance := by
  rw [selfProduced, selfProduced, same.name, same.produces]

theorem foldlM_clear_spec : ∀ (ranges : List AddressRange) (coverage : AnalysisCoverage),
    (∀ range ∈ ranges, range.Proper) →
    ∃ after, ranges.foldlM AnalysisCoverage.clear coverage = some after ∧
      ∀ name entry, (name, entry) ∈ after.analysers.entries → ∃ old,
        (name, old) ∈ coverage.analysers.entries ∧ ∀ address, entry.ranges.Contains address →
          old.ranges.Contains address ∧ ∀ range ∈ ranges, ¬ range.Contains address
  | [], coverage, _ => ⟨coverage, rfl, fun _ entry mem => ⟨entry, mem, by simp⟩⟩
  | range :: ranges, coverage, proper => by
    obtain ⟨first, rest⟩ := List.forall_mem_cons.mp proper
    obtain ⟨middle, call⟩ := AnalysisCoverage.clear_isSome coverage first.start_le
    obtain ⟨after, calls, spec⟩ := foldlM_clear_spec ranges middle rest
    refine ⟨after, ?_, ?_⟩
    · rw [List.foldlM_cons, call]
      exact calls
    · intro name entry mem
      obtain ⟨between, betweenMem, later⟩ := spec name entry mem
      obtain ⟨old, oldMem, -, cleared, -⟩ :=
        (AnalysisCoverage.clear_spec first.stop_lt call).1 name between betweenMem
      refine ⟨old, oldMem, ?_⟩
      intro address inside
      obtain ⟨before, notLater⟩ := later address inside
      obtain ⟨original, notFirst⟩ := (cleared address).mp before
      exact ⟨original, List.forall_mem_cons.mpr ⟨notFirst, notLater⟩⟩

/-- The coverage has nothing of a region, and nothing that it did not have before. -/
def Retracted (before after : AnalysisCoverage) (region : AddressRangeSet) : Prop :=
  ∀ name entry, (name, entry) ∈ after.analysers.entries → ∃ old,
    (name, old) ∈ before.analysers.entries ∧ ∀ address, entry.ranges.Contains address →
      old.ranges.Contains address ∧ ¬ region.Contains address

theorem cancelPhases_spec (inv : Inv analysers worker) (region : AddressRangeSet)
    (phases : List AnalysisPhase) :
    ∃ worker', worker.cancelPhases region phases = some worker' ∧ Inv analysers worker' ∧
      SameAnalysers worker worker' ∧ worker'.dependencies = worker.dependencies ∧
      worker'.recentChanges = worker.recentChanges ∧ worker'.coverage = worker.coverage := by
  obtain ⟨queue, report, cancels, kept⟩ := cancel_spec inv.queue phases region
  obtain ⟨states, maps, same⟩ := mapM_retractClaimed_spec region phases worker.analysers
  unfold cancelPhases
  rw [cancels, some_bind]
  rw [maps]
  refine ⟨_, rfl, ⟨same.length_eq ▸ inv.count, ?_, kept.inv⟩, same, rfl, rfl, rfl⟩
  intro id state found
  obtain ⟨lt, rfl⟩ := List.getElem?_eq_some_iff.mp found
  have lt' : id < worker.analysers.length := same.length_eq ▸ lt
  have eq := same.get lt' lt
  obtain ⟨order, phase⟩ := inv.same id _ (List.getElem?_eq_getElem lt')
  exact ⟨eq.order.trans order, eq.phase.trans phase⟩

theorem retractCoverage_spec (inv : Inv analysers worker) (region : AddressRangeSet) :
    ∃ worker', worker.retractCoverage region = some worker' ∧ Inv analysers worker' ∧
      worker'.analysers = worker.analysers ∧ worker'.dependencies = worker.dependencies ∧
      worker'.recentChanges = worker.recentChanges ∧
      Retracted worker.coverage worker'.coverage region := by
  obtain ⟨coverage, clears, cleared⟩ := foldlM_clear_spec region.ranges worker.coverage
    ranges_proper
  unfold retractCoverage
  rw [clears]
  refine ⟨_, rfl, ⟨inv.count, inv.same, inv.queue⟩, rfl, rfl, rfl, ?_⟩
  intro name entry mem
  obtain ⟨old, oldMem, covered⟩ := cleared name entry mem
  refine ⟨old, oldMem, ?_⟩
  intro address inside
  obtain ⟨before, outside⟩ := covered address inside
  refine ⟨before, ?_⟩
  rw [contains_iff_ranges]
  intro h
  obtain ⟨range, rangeMem, within⟩ := h
  exact outside range rangeMem within

theorem retract_spec (inv : Inv analysers worker) (region : AddressRangeSet) :
    ∃ worker', worker.retract region = some worker' ∧ Inv analysers worker' ∧
      SameAnalysers worker worker' ∧ worker'.dependencies = worker.dependencies ∧
      worker'.recentChanges = worker.recentChanges ∧
      Retracted worker.coverage worker'.coverage region := by
  unfold retract
  split
  · rename_i empty
    refine ⟨worker, rfl, inv, ?_, rfl, rfl, ?_⟩
    · exact List.forall₂_same.mpr fun _ _ => ⟨rfl, rfl, rfl, rfl, rfl⟩
    · intro name entry mem
      exact ⟨entry, mem, fun address inside =>
        ⟨inside, AddressRangeSet.isEmpty_iff.mp empty address⟩⟩
  · obtain ⟨middle, cancels, inv', same, dependencies, recent, coverage⟩ :=
      cancelPhases_spec inv region phasesCancelledByRetraction
    obtain ⟨last, retracts, inv'', analysers', dependencies', recent', retracted⟩ :=
      retractCoverage_spec inv' region
    refine ⟨last, ?_, inv'', ?_, dependencies'.trans dependencies, recent'.trans recent,
      coverage ▸ retracted⟩
    · rw [cancels]
      exact retracts
    · unfold SameAnalysers
      rw [analysers']
      exact same

/-! ## A change set -/

/-- What `route_changes` has done with a change set: `grouped` is what it collected. -/
structure Routed (worker worker' : Worker) (changes : ChangeSet) (grouped : Grouped) : Prop where
  coverage : Retracted worker.coverage worker'.coverage grouped.retract
  recentChanges : worker'.recentChanges = worker.recentChanges
  direct : ∀ (id : AnalyserId) (state : ScheduledAnalyser), worker.analysers[id]? = some state →
    ∀ entry ∈ grouped.triggered.entries,
      selfProduced state (.ofNat 32 entry.1) changes.provenance = false →
      state.triggers.intersects (.ofNat 32 entry.1) = true →
      ∀ target, Scheduled entry.2 target → Covers worker'.queue id target
  dependencies : ∀ (id : AnalyserId) (state : ScheduledAnalyser),
    worker.analysers[id]? = some state → ∀ entry ∈ grouped.byKind.entries,
      selfProduced state (.ofNat 32 entry.1) changes.provenance = false →
      ∀ target, Invalidated worker.dependencies id (.ofNat 32 entry.1)
        (if entry.2.isEmpty then none else some entry.2) target → Covers worker'.queue id target

theorem routeChanges_spec (inv : Inv analysers worker) (changes : ChangeSet)
    (tracked : ∀ entry ∈ (group changes).byKind.entries,
      ChangeKinds.isEmpty (.ofNat 32 entry.1) = false) :
    ∃ worker', worker.routeChanges changes = some worker' ∧ Inv analysers worker' ∧
      Routed worker worker' changes (group changes) := by
  obtain ⟨first, retracts, inv₁, same, dependencies, recent, retracted⟩ :=
    retract_spec inv (group changes).retract
  obtain ⟨second, routes, ⟨inv₂, _⟩, schedules, direct⟩ := @foldlM_meets _ _
    (fun (worker : Worker) (entry : Nat × AddressRangeSet) =>
      worker.routeDirect (.ofNat 32 entry.1) entry.2 changes.revision changes.provenance)
    (fun current => Inv analysers current ∧ Schedules first current) Schedules
    (fun entry current => ∀ (id : AnalyserId) (state : ScheduledAnalyser),
      first.analysers[id]? = some state →
      selfProduced state (.ofNat 32 entry.1) changes.provenance = false →
      state.triggers.intersects (.ofNat 32 entry.1) = true →
      ∀ target, Scheduled entry.2 target → Covers current.queue id target)
    Schedules.refl (fun _ _ _ => Schedules.trans)
    (fun entry _ _ schedules goal id state found own triggered target asked =>
      schedules.covers id target (goal id state found own triggered target asked))
    (group changes).triggered.entries
    (fun entry _ current holds => by
      obtain ⟨next, call, inv', schedules, goal⟩ := routeDirect_spec holds.1
      refine ⟨next, call, ⟨inv', holds.2.trans schedules⟩, schedules, ?_⟩
      rwa [holds.2.analysers] at goal) first ⟨inv₁, Schedules.refl first⟩
  obtain ⟨third, routes', ⟨inv₃, _⟩, schedules', indirect⟩ := @foldlM_meets _ _
    (fun (worker : Worker) (entry : Nat × AddressRangeSet) =>
      worker.routeDependencies (.ofNat 32 entry.1) entry.2 changes.provenance changes.revision)
    (fun current => Inv analysers current ∧ Schedules second current) Schedules
    (fun entry current => ∀ (id : AnalyserId) (state : ScheduledAnalyser),
      second.analysers[id]? = some state →
      selfProduced state (.ofNat 32 entry.1) changes.provenance = false →
      ∀ target, Invalidated second.dependencies id (.ofNat 32 entry.1)
        (if entry.2.isEmpty then none else some entry.2) target → Covers current.queue id target)
    Schedules.refl (fun _ _ _ => Schedules.trans)
    (fun entry _ _ schedules goal id state found own target asked =>
      schedules.covers id target (goal id state found own target asked))
    (group changes).byKind.entries
    (fun entry mem current holds => by
      obtain ⟨next, call, inv', schedules, goal⟩ :=
        routeDependencies_spec holds.1 (tracked entry mem)
      refine ⟨next, call, ⟨inv', holds.2.trans schedules⟩, schedules, ?_⟩
      rwa [holds.2.analysers, holds.2.dependencies] at goal) second ⟨inv₂, Schedules.refl second⟩
  refine ⟨third, ?_, inv₃, ?_, ?_, ?_, ?_⟩
  · unfold routeChanges
    dsimp only
    rw [retracts, bind_eq_bind, bind_some, routes, bind_some]
    exact routes'
  · rw [schedules'.coverage, schedules.coverage]
    exact retracted
  · rw [schedules'.recentChanges, schedules.recentChanges, recent]
  · intro id state found entry mem own triggered target asked
    obtain ⟨state', found', eq⟩ := same.getElem? found
    refine schedules'.covers id target (direct entry mem id state' found' ?_ ?_ target asked)
    · rw [selfProduced_same eq]
      exact own
    · rw [eq.triggers]
      exact triggered
  · intro id state found entry mem own target asked
    obtain ⟨state', found', eq⟩ := same.getElem? found
    refine indirect entry mem id state' ?_ ?_ target ?_
    · rw [schedules.analysers]
      exact found'
    · rw [selfProduced_same eq]
      exact own
    · rw [schedules.dependencies, dependencies]
      exact asked

end Worker

end Fugue.Engine
