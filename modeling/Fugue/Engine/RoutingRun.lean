import Fugue.Engine.RoutingSpec
import Fugue.Engine.WorkRun
import Fugue.Project.ChangeStaging

/-!
# Notifications of a published change set

Stale productions are scheduled again, over every sequence of recorded productions; and what a
transaction stages reaches the analysers that it triggers, the productions that read it, the
admissions that started before it, and the coverage. The records of a change set are grouped by
kind, so both need that no kind occurs with and without ranges (`Unmixed`); and a collapsed
transaction, which is published as one `Resynchronise` record, reaches none of them.
-/

namespace Fugue.Engine

open Fugue.Lib Fugue.Ir Fugue.Project AnalysisWorkQueue List DependencyIndex ChangeStaging Worker
open ChangeRecord (ranges)

/-- The sequences of recorded productions in which each meets a condition, the last one first. -/
inductive Recorded (condition : DependencyIndex → Production → Prop) (count : Nat) :
    DependencyIndex → List Production → Prop
  | new : Recorded condition count (.new count) []
  | record {index index' : DependencyIndex} {productions : List Production}
    {production : Production} (run : Recorded condition count index productions)
    (meets : condition index production) (call : index.record production = some index') :
    Recorded condition count index' (production :: productions)

/-- No kind of the selected records occurs both in a record without ranges, which stands for a
change anywhere, and in one with a range. -/
def Unmixed (select : ChangeRecord → Prop) (ranges : ChangeRecord → List AddressRange)
    (records : List ChangeRecord) : Prop :=
  ∀ record ∈ records, select record → ranges record = [] →
    ∀ other ∈ records, other.kind = record.kind → ∀ range ∈ ranges other, range.isEmpty = true

variable {condition : DependencyIndex → Production → Prop} {count : Nat} {index : DependencyIndex}
  {productions : List Production}

theorem Recorded.length (run : Recorded condition count index productions) :
    index.entries.length = count := by
  induction run with
  | new => exact length_replicate
  | @record index index' _ production _ _ call length =>
    unfold DependencyIndex.record at call
    cases found : index.entries[production.analyser]? with
    | none => simp [found] at call
    | some dependencies =>
      rw [found, some_bind] at call
      cases call
      rw [length_set, length]

theorem Recorded.represents (run : Recorded Inheritable count index productions) :
    index.Represents productions := by
  induction run with
  | new => exact new_represents count
  | record _ meets call represents =>
    exact record_represents represents meets call

theorem ofNat_toNat_kind (record : ChangeRecord) :
    (.ofNat 32 record.kind.toNat : ChangeKinds) = record.kind := by
  rw [BitVec.ofNat_toNat, BitVec.setWidth_eq]

theorem kind_isEmpty (record : ChangeRecord) : record.kind.isEmpty = false := by
  rw [ChangeKinds.isEmpty, beq_eq_false_iff_ne]
  exact record.kind_ne_zero

theorem kind_eq_of_toNat {record other : ChangeRecord} (eq : other.kind.toNat = record.kind.toNat) :
    other.kind = record.kind :=
  BitVec.eq_of_toNat_eq eq

variable {record : ChangeRecord}

theorem GroupsOf.isEmpty {groups : Groups} {select : ChangeRecord → Prop}
    {ranges : ChangeRecord → List AddressRange} {records : List ChangeRecord}
    {regions : AddressRangeSet} (of : GroupsOf groups select ranges records)
    (unmixed : Unmixed select ranges records) (mem : record ∈ records) (selected : select record)
    (found : (record.kind.toNat, regions) ∈ groups.entries) (none : ranges record = []) :
    regions.isEmpty = true := by
  apply AddressRangeSet.isEmpty_iff.mpr
  intro address inside
  obtain ⟨other, otherMem, ⟨-, same⟩, range, rangeMem, within⟩ :=
    ((of.regions _ _ found).2 address).mp inside
  have empty := unmixed record mem selected none other otherMem (kind_eq_of_toNat same) range rangeMem
  rw [AddressRange.isEmpty, decide_eq_true_eq] at empty
  exact not_lt.mpr (within.2.1.trans within.2.2) empty

theorem affected_of_conflict {groups : Groups} {records : List ChangeRecord}
    {regions : AddressRangeSet} {reads : ReadSet}
    (of : GroupsOf groups Tracked ranges records)
    (unmixed : Unmixed Tracked ranges records) (mem : record ∈ records)
    (found : (record.kind.toNat, regions) ∈ groups.entries)
    (conflict : reads.conflictsRecord trackedDependencyKinds record = true) :
    affected record.kind (if regions.isEmpty then none else some regions) reads =
      true := by
  obtain ⟨tracked, observed, where_⟩ := ReadSet.conflictsRecord_iff.mp conflict
  cases empty : regions.isEmpty with
  | true => exact observed
  | false =>
    apply Bool.or_eq_true_iff.mpr
    rcases where_ with none | ⟨range, rangeMem, anywhere | ⟨address, within, entry, entryMem, kind,
      inside⟩⟩
    · have := of.isEmpty unmixed mem tracked found none
      exact absurd (empty.symm.trans this) Bool.noConfusion
    · exact .inl anywhere
    · refine .inr (any_eq_true.mpr ⟨entry, entryMem, ?_⟩)
      rw [kind, Bool.true_and, AddressRangeSet.intersects_iff]
      exact ⟨address, inside, ((of.regions _ _ found).2 address).mpr
        ⟨record, mem, ⟨tracked, rfl⟩, range, rangeMem, within⟩⟩

variable {changes : ChangeSet}

/-- `route_changes` succeeds on bounded records, and groups them. -/
theorem routeChanges_routed {analysers : Analysers} {worker : Worker}
    (inv : Worker.Inv analysers worker)
    (bounded : ∀ record ∈ changes.records, BoundedRecord record) :
    ∃ worker', worker.routeChanges changes = some worker' ∧
      Routed worker worker' changes (group changes) := by
  have of := group_of changes bounded
  have kinds : ∀ entry ∈ (group changes).byKind.entries,
      ChangeKinds.isEmpty (.ofNat 32 entry.1) = false := by
    intro entry mem
    obtain ⟨⟨record, -, -, same⟩, -⟩ := of.byKind.regions entry.1 entry.2 mem
    rw [← same, ofNat_toNat_kind]
    exact kind_isEmpty record
  obtain ⟨worker', call, -, routed⟩ := routeChanges_spec inv changes kinds
  exact ⟨worker', call, routed⟩

theorem covers_of_conflict {worker worker' : Worker}
    (routed : Routed worker worker' changes (group changes))
    (of : GroupedOf (group changes) changes.records)
    (run : Recorded Inheritable worker.analysers.length worker.dependencies productions)
    (unmixed : Unmixed Tracked ranges changes.records) {id : AnalyserId}
    {state : ScheduledAnalyser} (found : worker.analysers[id]? = some state) {target : Target}
    {reads : ReadSet} (current : reads ∈ currentReads id target productions)
    (mem : record ∈ changes.records)
    (conflict : reads.conflictsRecord trackedDependencyKinds record = true)
    (own : selfProduced state record.kind changes.provenance = false) :
    Covers worker'.queue id target := by
  obtain ⟨regions, entry⟩ := of.byKind.present record mem
    (ReadSet.conflictsRecord_iff.mp conflict).1
  have lt : id < worker.dependencies.entries.length := by
    rw [run.length]
    exact lt_of_getElem? found
  have dependencies := getElem?_eq_getElem lt
  rcases run.represents.current id _ dependencies target reads current with none | ⟨set, stored, le⟩
  · -- a read set that sees nothing has no conflict
    obtain ⟨-, observed, -⟩ := ReadSet.conflictsRecord_iff.mp conflict
    have seen := none.observes _ observed
    simp [ReadSet.observes, ReadSet.new, ChangeKinds.intersects] at seen
  · have affects := affected_of_conflict of.byKind unmixed mem entry (le.conflictsRecord conflict)
    have invalid := invalidated_spec dependencies
      (fun address set isStored =>
        (run.represents.valid id _ dependencies (.address address) set isStored).2 address rfl)
      stored affects
    refine routed.dependencies id state found _ entry ?_ target ?_
    · rw [ofNat_toNat_kind]
      exact own
    · rw [ofNat_toNat_kind]
      cases target with
      | whole => exact invalid
      | address address => exact invalid

/-- Every stale production is scheduled again: for every sequence of productions (in which a
continuation inherits no reads without an address) and every change set that does not mix records of
one tracked kind with and without ranges, an analyser gets work for each address, and for its
production without a range, whose current reads conflict with a record, unless it produced the kind
of the record itself. -/
theorem stale_productions_are_scheduled {analysers : Analysers} {worker : Worker}
    {changes : ChangeSet} (inv : Worker.Inv analysers worker)
    (run : Recorded Inheritable worker.analysers.length worker.dependencies productions)
    (bounded : ∀ record ∈ changes.records, BoundedRecord record)
    (unmixed : Unmixed Tracked ChangeRecord.ranges changes.records) :
    ∃ worker', worker.routeChanges changes = some worker' ∧
      ∀ (id : AnalyserId) (state : ScheduledAnalyser), worker.analysers[id]? = some state →
        ∀ target, ∀ reads ∈ currentReads id target productions, ∀ record ∈ changes.records,
          reads.conflictsRecord trackedDependencyKinds record = true →
          selfProduced state record.kind changes.provenance = false →
          Covers worker'.queue id target := by
  obtain ⟨worker', call, routed⟩ := routeChanges_routed inv bounded
  refine ⟨worker', call, ?_⟩
  intro id state found target reads current record mem conflict own
  exact covers_of_conflict routed (group_of changes bounded) run unmixed found current mem conflict
    own

def oneAnalyser : Analysers := ⟨1, fun _ => 0, fun _ => .propagate, fun _ _ _ _ _ => by omega⟩

/-- A worker with the analyser, its dependencies and no work. -/
def watching (triggers : ChangeKinds) (dependencies : DependencyIndex) : Worker :=
  ⟨[⟨"watcher", 0, triggers, 0, .propagate, 0, .new⟩], .withAnalysers 1, dependencies, .new,
    fun _ => none, .new 0⟩

theorem watching_inv (triggers : ChangeKinds) (dependencies : DependencyIndex) :
    Worker.Inv oneAnalyser (watching triggers dependencies) := by
  refine ⟨rfl, ?_, @withAnalysers_inv oneAnalyser⟩
  intro id state found
  obtain ⟨lt, rfl⟩ := List.getElem?_eq_some_iff.mp found
  obtain rfl : id = 0 := Nat.lt_one_iff.mp lt
  exact ⟨rfl, rfl⟩

/-- A production for a page that looked for problems at one address of another page. -/
def problemProduction : Production :=
  ⟨0, AddressRangeSet.new.insertRange ⟨0, 0x1000, 0x1fff⟩,
    (ReadSet.new.record .problems (.point ⟨0, 0x2000⟩)).1, false⟩

def problemIndex : DependencyIndex :=
  ((DependencyIndex.new 1).record problemProduction).getD (.new 1)

theorem problemIndex_recorded :
    Recorded Inheritable 1 problemIndex [problemProduction] := by
  refine .record .new ?_ rfl
  intro continuation
  cases continuation

theorem problemProduction_current :
    problemProduction.reads ∈ currentReads 0 (.address ⟨0, 0x1000⟩) [problemProduction] := by
  have covers : problemProduction.Covers (.address ⟨0, 0x1000⟩) :=
    AddressRangeSet.contains_iff.mp (by decide)
  rw [currentReads, if_pos ⟨rfl, covers⟩]
  exact mem_singleton.mpr rfl

/-- A problem at the address that was read. -/
def problemThere : ChangeSet := .withRecords 1 [.problemRecorded (.address ⟨0, 0x2000⟩) .unknown]

theorem stale_productions_are_scheduled_problem :
    ∃ worker', (watching 0 problemIndex).routeChanges problemThere = some worker' ∧
      Covers worker'.queue 0 (.address ⟨0, 0x1000⟩) := by
  have bounded : ∀ record ∈ problemThere.records, BoundedRecord record := by
    intro record mem
    rw [mem_singleton.mp mem]
    unfold BoundedRecord
    decide
  have unmixed : Unmixed Tracked ChangeRecord.ranges problemThere.records := by
    intro record mem _ none
    rw [mem_singleton.mp mem] at none
    cases none
  obtain ⟨worker', call, covers⟩ := stale_productions_are_scheduled
    (watching_inv 0 problemIndex) problemIndex_recorded bounded unmixed
  exact ⟨worker', call, covers 0 _ rfl _ _ problemProduction_current _
    (mem_singleton.mpr rfl) (by decide +kernel) (by decide +kernel)⟩

/-- A problem anywhere and a problem at a third address. -/
def mixedProblems : ChangeSet :=
  .withRecords 1 [.problemRecorded .global .unknown, .problemRecorded (.address ⟨0, 0x3000⟩) .unknown]

/-- The problem anywhere conflicts with the production, but the router only looks at the address of
the other record: nothing is scheduled. -/
theorem mixed_records_hide_stale_production :
    ∃ worker', (watching 0 problemIndex).routeChanges mixedProblems = some worker' ∧
      Recorded Inheritable 1 problemIndex [problemProduction] ∧
      problemProduction.reads ∈ currentReads 0 (.address ⟨0, 0x1000⟩) [problemProduction] ∧
      problemProduction.reads.conflictsWith mixedProblems trackedDependencyKinds = true ∧
      ¬ Covers worker'.queue 0 (.address ⟨0, 0x1000⟩) := by
  have idle : ((watching 0 problemIndex).routeChanges mixedProblems).map
      (fun worker => worker.queue.items.entries.isEmpty) = some true := by decide +kernel
  obtain ⟨worker', call, empty⟩ := Option.map_eq_some_iff.mp idle
  refine ⟨worker', call, problemIndex_recorded, problemProduction_current, by decide +kernel, ?_⟩
  intro covers
  obtain ⟨key, item, mem, -⟩ := covers
  rw [List.isEmpty_iff.mp empty] at mem
  cases mem

/-! ## Recent changes -/

namespace RecentChanges

variable {recent recent' : RecentChanges} {changes set : ChangeSet} {base : Revision}
  {reads : ReadSet}

/-- What holds of the window of recent changes. -/
structure Inv (recent : RecentChanges) : Prop where
  latest : ∀ changes ∈ recent.changes, changes.revision ≤ recent.latest
  floor : recent.floor ≤ recent.latest
  records : recent.records = (recent.changes.map ChangeSet.len).sum

/-- The change set is in the window, or the window starts after it. -/
def Remembers (recent : RecentChanges) (set : ChangeSet) : Prop :=
  set ∈ recent.changes ∨ set.revision ≤ recent.floor

theorem discard_spec : ∀ (sets : List ChangeSet) (floor : Revision) (records : Nat),
    records = (sets.map ChangeSet.len).sum →
    ∃ kept, discard sets floor records = some kept ∧
      kept.records = (kept.changes.map ChangeSet.len).sum ∧ kept.changes ⊆ sets ∧
      (∀ bound, floor ≤ bound → (∀ set ∈ sets, set.revision ≤ bound) → kept.floor ≤ bound) ∧
      floor ≤ kept.floor ∧ ∀ set ∈ sets, set ∈ kept.changes ∨ set.revision ≤ kept.floor
  | [], floor, records, sum => by
    have zero : records = 0 := sum
    refine ⟨⟨[], floor, 0, records⟩, ?_, zero, List.Subset.refl _, fun _ le _ => le, le_rfl, by simp⟩
    rw [discard, if_neg (by simp [zero])]
  | oldest :: sets, floor, records, sum => by
    unfold discard
    split
    · obtain ⟨kept, call, sum', sub, upper, lower, all⟩ :=
        discard_spec sets (max floor oldest.revision) (records - oldest.len) (by
          rw [sum, map_cons, sum_cons, Nat.add_sub_cancel_left])
      refine ⟨kept, call, sum', subset_cons_of_subset _ sub, ?_, (le_max_left _ _).trans lower, ?_⟩
      · intro bound le bounded
        obtain ⟨first, rest⟩ := forall_mem_cons.mp bounded
        exact upper bound (max_le le first) rest
      · exact forall_mem_cons.mpr ⟨.inr ((le_max_right _ _).trans lower), all⟩
    · exact ⟨_, rfl, sum, List.Subset.refl _, fun _ le _ => le, le_rfl, fun _ => .inl⟩

theorem record_spec (inv : recent.Inv) (order : recent.latest ≤ changes.revision) :
    ∃ recent', recent.record changes = some recent' ∧ recent'.Inv ∧
      recent'.latest = changes.revision ∧ recent'.Remembers changes ∧
      ∀ set, recent.Remembers set → recent'.Remembers set := by
  unfold record
  split
  · refine ⟨_, rfl, ⟨by simp, le_rfl, rfl⟩, rfl, .inr le_rfl, ?_⟩
    intro set remembered
    right
    rcases remembered with inside | before
    · exact (inv.latest set inside).trans order
    · exact before.trans (inv.floor.trans order)
  · obtain ⟨kept, call, sum, sub, upper, lower, all⟩ := discard_spec (recent.changes ++ [changes])
      recent.floor (recent.records + changes.len) (by
        rw [inv.records, map_append, sum_append]
        simp)
    have bounded : ∀ set ∈ recent.changes ++ [changes], set.revision ≤ changes.revision := by
      intro set mem
      rcases mem_append.mp mem with old | new
      · exact (inv.latest set old).trans order
      · rw [mem_singleton.mp new]
    rw [call]
    refine ⟨_, rfl, ⟨fun set mem => bounded set (sub mem),
      upper _ (inv.floor.trans order) bounded, sum⟩, rfl, ?_, ?_⟩
    · exact all changes (mem_append_right _ (mem_singleton.mpr rfl))
    · intro set remembered
      rcases remembered with inside | before
      · exact all set (mem_append_left _ inside)
      · exact .inr (before.trans lower)

/-- An admission that started before a remembered change set and whose reads conflict with it is
refused. -/
theorem conflict_of_remembers (remembers : recent.Remembers set) (before : base < set.revision)
    (after : set.revision ≤ recent.latest)
    (conflict : reads.conflictsWith set trackedDependencyKinds = true) :
    recent.conflict base reads ≠ none := by
  have ne : base ≠ recent.latest := ne_of_lt (lt_of_lt_of_le before after)
  unfold RecentChanges.conflict
  rw [if_neg ne]
  split
  · exact Option.some_ne_none _
  · rename_i within
    rcases remembers with inside | early
    · have found : (recent.changes.filter fun changes => decide (base < changes.revision)).any
          (fun changes => reads.conflictsWith changes trackedDependencyKinds) = true := by
        refine any_eq_true.mpr ⟨set, mem_filter.mpr ⟨inside, ?_⟩, conflict⟩
        exact decide_eq_true before
      rw [if_pos found]
      exact Option.some_ne_none _
    · exact absurd (.inl (lt_of_lt_of_le before early)) within

/-- The windows that later change sets lead to. -/
inductive Later : RecentChanges → RecentChanges → Prop
  | refl (recent : RecentChanges) : Later recent recent
  | record {recent middle recent' : RecentChanges} {changes : ChangeSet}
    (run : Later recent middle) (order : middle.latest ≤ changes.revision)
    (call : middle.record changes = some recent') : Later recent recent'

theorem Later.keeps (run : Later recent recent') (inv : recent.Inv) :
    recent'.Inv ∧ recent.latest ≤ recent'.latest ∧
      ∀ set, recent.Remembers set → recent'.Remembers set := by
  induction run with
  | refl => exact ⟨inv, le_rfl, fun _ => id⟩
  | record _ order call ih =>
    obtain ⟨inv', le, keeps⟩ := ih
    obtain ⟨next, call', inv'', latest, -, keeps'⟩ := record_spec inv' order
    rw [call] at call'
    cases call'
    exact ⟨inv'', le.trans (order.trans latest.ge), fun set held => keeps' set (keeps set held)⟩

end RecentChanges

/-! ## A transaction -/

/-- Everything that has to hear of a record did: the worker before and after its publication. -/
structure Notified (worker worker' : Worker) (productions : List Production) (revision : Revision)
    (provenance : ChangeProvenance) (record : ChangeRecord) : Prop where
  /-- Every analyser that the kind triggers has work for the addresses of the record, or for a
  record without addresses the work without a range. -/
  triggered : ∀ (id : AnalyserId) (state : ScheduledAnalyser), worker.analysers[id]? = some state →
    state.triggers.intersects record.kind = true →
    Worker.selfProduced state record.kind provenance = false →
    (∀ range ∈ triggerRanges record, ∀ address, range.Contains address →
      Covers worker'.queue id (.address address)) ∧
    (triggerRanges record = [] → Covers worker'.queue id .whole)
  stale : ∀ (id : AnalyserId) (state : ScheduledAnalyser), worker.analysers[id]? = some state →
    ∀ target, ∀ reads ∈ currentReads id target productions,
      reads.conflictsRecord trackedDependencyKinds record = true →
      Worker.selfProduced state record.kind provenance = false → Covers worker'.queue id target
  admission : ∀ recent, RecentChanges.Later worker'.recentChanges recent → ∀ base reads,
    base < revision → reads.conflictsRecord trackedDependencyKinds record = true →
    recent.conflict base reads ≠ none
  retracted : record.requiresRetraction = true → ∀ range ∈ record.ranges, ∀ address,
    range.Contains address → ∀ name entry, (name, entry) ∈ worker'.coverage.analysers.entries →
      ¬ entry.ranges.Contains address

/-- The condition on a transaction: it never stages more records than are kept in detail, and what
it stages has no kind both with and without ranges. -/
structure Detailed (pushes : List ChangeRecord) (staging : ChangeStaging) : Prop where
  staged : ChangeStaging.stageDetailed pushes = some staging
  fits : ChangeStaging.Fits pushes
  triggers : Unmixed (fun _ => True) triggerRanges staging.records
  tracked : Unmixed Tracked ranges staging.records

theorem triggered_of_routed {worker worker' : Worker}
    (routed : Routed worker worker' changes (group changes))
    (of : GroupedOf (group changes) changes.records)
    (unmixed : Unmixed (fun _ => True) triggerRanges changes.records)
    (mem : record ∈ changes.records) {id : AnalyserId} {state : ScheduledAnalyser}
    (found : worker.analysers[id]? = some state)
    (triggers : state.triggers.intersects record.kind = true)
    (own : selfProduced state record.kind changes.provenance = false) :
    (∀ range ∈ triggerRanges record, ∀ address, range.Contains address →
      Covers worker'.queue id (.address address)) ∧
    (triggerRanges record = [] → Covers worker'.queue id .whole) := by
  obtain ⟨regions, entry⟩ := of.triggered.present record mem trivial
  have scheduled : ∀ target, Scheduled regions target → Covers worker'.queue id target := by
    apply routed.direct id state found _ entry
    · rw [ofNat_toNat_kind]
      exact own
    · rw [ofNat_toNat_kind]
      exact triggers
  refine ⟨?_, ?_⟩
  · intro range rangeMem address within
    apply scheduled (.address address)
    exact ((of.triggered.regions _ _ entry).2 address).mpr
      ⟨record, mem, ⟨trivial, rfl⟩, range, rangeMem, within⟩
  · intro none
    exact scheduled .whole (of.triggered.isEmpty unmixed mem trivial entry none)

/-- A change set that does not mix records with and without ranges is published to everything that
has to hear of it. -/
theorem publish_notifies {analysers : Analysers} {worker : Worker}
    (inv : Worker.Inv analysers worker)
    (run : Recorded Inheritable worker.analysers.length worker.dependencies productions)
    (recent : worker.recentChanges.Inv) (order : worker.recentChanges.latest ≤ changes.revision)
    (bounded : ∀ record ∈ changes.records, BoundedRecord record)
    (triggers : Unmixed (fun _ => True) triggerRanges changes.records)
    (tracked : Unmixed Tracked ranges changes.records) :
    ∃ worker', worker.publish changes = some worker' ∧ ∀ record ∈ changes.records,
        Notified worker worker' productions changes.revision changes.provenance record := by
  have of := group_of changes bounded
  obtain ⟨window, remembered, inv', latest, remembers, -⟩ := RecentChanges.record_spec recent order
  have begins : ∃ begun, worker.beginPublish changes = some begun ∧
      begun.analysers = worker.analysers ∧ begun.queue = worker.queue ∧
      begun.dependencies = worker.dependencies ∧ begun.recentChanges = window := by
    unfold beginPublish
    rw [remembered]
    exact ⟨_, rfl, rfl, rfl, rfl, rfl⟩
  obtain ⟨begun, begins, analysers_, queue, dependencies, recent_⟩ := begins
  have begunInv : Worker.Inv analysers begun := by
    refine ⟨?_, ?_, ?_⟩
    · rw [analysers_]
      exact inv.count
    · rw [analysers_]
      exact inv.same
    · rw [queue]
      exact inv.queue
  obtain ⟨worker', routes, routed⟩ := routeChanges_routed begunInv bounded
  rw [← analysers_, ← dependencies] at run
  refine ⟨worker', ?_, ?_⟩
  · unfold publish
    rw [begins]
    exact routes
  intro record mem
  refine ⟨?_, ?_, ?_, ?_⟩
  · rw [← analysers_]
    intro id state found triggered own
    exact triggered_of_routed routed of triggers mem found triggered own
  · rw [← analysers_]
    intro id state found target reads current conflict own
    exact covers_of_conflict routed of run tracked found current mem conflict own
  · rw [routed.recentChanges, recent_]
    intro recent' later base reads before conflict
    obtain ⟨-, le, keeps⟩ := later.keeps inv'
    apply RecentChanges.conflict_of_remembers (keeps changes remembers) before (latest ▸ le)
    exact any_eq_true.mpr ⟨record, mem, conflict⟩
  · intro requires range rangeMem address within name entry entryMem inside
    obtain ⟨old, -, kept⟩ := routed.coverage name entry entryMem
    exact (kept address inside).2
      ((of.retract address).mpr ⟨record, mem, requires, range, rangeMem, within⟩)

/-- A transaction that stays detailed and does not mix records with and without ranges loses no
notification: its pushes and its publication succeed, and everything that has to hear of a record
that it stages does, also in every later window of recent changes. -/
theorem staged_records_are_notified {analysers : Analysers} {worker : Worker}
    {pushes : List ChangeRecord} {staging : ChangeStaging} {revision : Revision}
    {source : ChangeSource} (inv : Worker.Inv analysers worker)
    (run : Recorded Inheritable worker.analysers.length worker.dependencies productions)
    (recent : worker.recentChanges.Inv) (order : worker.recentChanges.latest ≤ revision)
    (bounded : ∀ record ∈ staging.records, BoundedRecord record)
    (detailed : Detailed pushes staging) :
    ∃ committed worker', stage pushes = some committed ∧
      worker.publish (committed.finish revision source) = some worker' ∧
      ∀ record ∈ staging.records, Notified worker worker' productions revision
        (committed.finish revision source).provenance record := by
  obtain ⟨staged, collapsed⟩ := stage_of_fits detailed.fits detailed.staged
  refine ⟨staging, ?_⟩
  have records : (staging.finish revision source).records = staging.records := by
    unfold finish
    rw [collapsed, if_neg Bool.false_ne_true]
    rfl
  obtain ⟨worker', publishes, notified⟩ := publish_notifies inv run recent order (records ▸ bounded)
    (records ▸ detailed.triggers) (records ▸ detailed.tracked)
  exact ⟨worker', staged, publishes, records ▸ notified⟩

def oneWrite : ChangeRecord := .bytesWritten ⟨0, 0x1000, 0x1000⟩

def oneWriteStaging : ChangeStaging := ChangeStaging.new.append oneWrite

theorem watching_recent_inv (triggers : ChangeKinds) (dependencies : DependencyIndex) :
    (watching triggers dependencies).recentChanges.Inv :=
  ⟨by simp [watching, RecentChanges.new], le_rfl, rfl⟩

theorem staged_records_are_notified_one_write :
    ∃ worker', (watching .bytesWritten problemIndex).publish
        (oneWriteStaging.finish 1 ⟨.agent, "update"⟩) = some worker' ∧
      Covers worker'.queue 0 (.address ⟨0, 0x1000⟩) := by
  have only : ∀ record ∈ oneWriteStaging.records, record = oneWrite := by
    intro record mem
    exact mem_singleton.mp mem
  have detailed : Detailed [oneWrite] oneWriteStaging := by
    refine ⟨rfl, ?_, ?_, ?_⟩
    · intro early shorter staging call
      rcases prefix_cons_iff.mp shorter with rfl | ⟨rest, rfl, nil⟩
      · cases call
        exact Nat.zero_le _
      · obtain rfl := prefix_nil.mp nil
        cases call
        decide
    · intro record mem _ none
      rw [only record mem] at none
      cases none
    · intro record mem _ none
      rw [only record mem] at none
      cases none
  have bounded : ∀ record ∈ oneWriteStaging.records, BoundedRecord record := by
    intro record mem
    rw [only record mem]
    unfold BoundedRecord
    decide
  obtain ⟨committed, worker', staged, publishes, notified⟩ := staged_records_are_notified
    (watching_inv .bytesWritten problemIndex) problemIndex_recorded
    (watching_recent_inv .bytesWritten problemIndex) (Nat.zero_le 1) bounded detailed
  cases staged
  refine ⟨worker', publishes, ?_⟩
  exact ((notified oneWrite (mem_singleton.mpr rfl)).triggered 0 _ rfl (by decide)
    (by decide +kernel)).1 _ (mem_singleton.mpr rfl) ⟨0, 0x1000⟩ ⟨rfl, le_rfl, le_rfl⟩

/-- A transaction that writes more than the staging holds in detail. -/
def collapsedWrites : List ChangeRecord := List.replicate (maxDetailedChangeRecords + 1) oneWrite

/-- An analyser that written bytes trigger gets no work from a collapsed transaction that writes
bytes: the published record is a `Resynchronise` record, which triggers nothing and has no range. -/
theorem collapsed_writes_trigger_nothing :
    ∃ committed worker' staging, stage collapsedWrites = some committed ∧
      (watching .bytesWritten (.new 1)).publish (committed.finish 1 ⟨.agent, "update"⟩) =
        some worker' ∧
      stageDetailed collapsedWrites = some staging ∧ oneWrite ∈ staging.records ∧
      ¬ Notified (watching .bytesWritten (.new 1)) worker' [] 1
        (committed.finish 1 ⟨.agent, "update"⟩).provenance oneWrite := by
  have unkeyed : ∀ n, ∀ record ∈ List.replicate n oneWrite,
      StagedChangeKey.forRecord record = none := by
    intro n record mem
    rw [eq_of_mem_replicate mem]
    rfl
  obtain ⟨committed, staged, collapsed, records⟩ := @stage_unkeyed_collapses oneWrite
    _ (unkeyed maxDetailedChangeRecords) length_replicate rfl
  rw [← replicate_succ'] at staged
  obtain ⟨detailed, call, all⟩ := @foldlM_pushDetailed_unkeyed collapsedWrites
    ChangeStaging.new (unkeyed _)
  have finished : committed.finish 1 ⟨.agent, "update"⟩ =
      (ChangeSet.withRecords 1 [.resynchronise 1]).withProvenance ⟨.agent, "update"⟩ := by
    unfold finish
    rw [collapsed, records, if_pos rfl]
    rfl
  have idle : ((watching .bytesWritten (.new 1)).publish
      ((ChangeSet.withRecords 1 [.resynchronise 1]).withProvenance ⟨.agent, "update"⟩)).map
        (fun worker => worker.queue.items.entries.isEmpty) = some true := by decide +kernel
  obtain ⟨worker', publishes, empty⟩ := Option.map_eq_some_iff.mp idle
  refine ⟨committed, worker', detailed, staged, finished ▸ publishes, call, ?_, ?_⟩
  · rw [all]
    exact mem_replicate.mpr ⟨by decide, rfl⟩
  · rw [finished]
    intro notified
    obtain ⟨key, item, mem, -⟩ := (notified.triggered 0 _ rfl (by decide) (by decide +kernel)).1 _
      (mem_singleton.mpr rfl) ⟨0, 0x1000⟩ ⟨rfl, le_rfl, le_rfl⟩
    rw [List.isEmpty_iff.mp empty] at mem
    cases mem

end Fugue.Engine
