import Fugue.Engine.Dependency
import Fugue.Lib.Loop
import Fugue.Project.CoverageRun

/-!
# Routing of changes

What the worker does with a published change set (`fugue-core/src/engine/worker.rs`): it retracts the
coverage and cancels the work of the ranges whose bytes changed, schedules every analyser that a
kind of the set triggers, and schedules again every analyser whose productions read what changed.
The records are grouped by kind first, and a group without ranges stands for a change anywhere.
`none` stands for a failed assertion or `expect`.
-/

namespace Fugue.Engine

open Fugue.Lib Fugue.Ir Fugue.Project

/-- `TRACKED_DEPENDENCY_KINDS` (`engine/mod.rs:61-63`). -/
def trackedDependencyKinds : ChangeKinds :=
  (ChangeKinds.all.difference .segments).difference .addressSpaceCreated

/-- `PHASES_CANCELLED_BY_RETRACTION` (`engine/mod.rs:59-60`). -/
def phasesCancelledByRetraction : List AnalysisPhase := [.decode, .partition]

/-- `ScheduledAnalyser` (`scheduler/analyser.rs:166-176`), with the name and the kinds that its
analyser produces. -/
structure ScheduledAnalyser where
  name : String
  produces : ChangeKinds
  triggers : ChangeKinds
  order : Nat
  phase : AnalysisPhase
  priority : Int
  claimed : AddressRangeSet

/-- `PendingDiagnostics` (`worker.rs:234-237`). -/
abbrev PendingDiagnostics := ProblemKind → Option ProblemScope

/-- `PendingDiagnostics::defer` (`worker.rs:248-253`). -/
def PendingDiagnostics.defer (pending : PendingDiagnostics) (scope : ProblemScope)
    (kind : ProblemKind) : PendingDiagnostics :=
  Function.update pending kind (match pending kind with
    | some existing => existing.covering scope
    | none => scope)

/-- `AdmissionConflict` (`worker.rs:167-171`). -/
inductive AdmissionConflict where
  | inputsChanged | resynchronisationRequired
  deriving DecidableEq, Repr

/-- `RecentChanges` (`worker.rs:173-178`). -/
structure RecentChanges where
  changes : List ChangeSet
  floor : Revision
  latest : Revision
  records : Nat

namespace RecentChanges

/-- `RecentChanges::new` (`worker.rs:181-188`). -/
def new (revision : Revision) : RecentChanges := ⟨[], revision, revision, 0⟩

/-- The loop of `record` that discards the oldest change sets (`worker.rs:203-210`). -/
def discard : List ChangeSet → Revision → Nat → Option RecentChanges
  | [], floor, records =>
    if maxDetailedChangeRecords < records then none else some ⟨[], floor, 0, records⟩
  | oldest :: changes, floor, records =>
    if maxDetailedChangeRecords < records then
      discard changes (max floor oldest.revision) (records - oldest.len)
    else some ⟨oldest :: changes, floor, 0, records⟩

/-- `RecentChanges::record` (`worker.rs:190-211`). -/
def record (recent : RecentChanges) (changes : ChangeSet) : Option RecentChanges :=
  if maxDetailedChangeRecords < changes.len then
    some ⟨[], changes.revision, changes.revision, 0⟩
  else do
    let kept ← discard (recent.changes ++ [changes]) recent.floor (recent.records + changes.len)
    return { kept with latest := changes.revision }

/-- `RecentChanges::conflict` (`worker.rs:213-225`). -/
def conflict (recent : RecentChanges) (base : Revision) (reads : ReadSet) :
    Option AdmissionConflict :=
  if base = recent.latest then none
  else if base < recent.floor ∨ recent.latest < base then some .resynchronisationRequired
  else if (recent.changes.filter fun changes => decide (base < changes.revision)).any
      fun changes => reads.conflictsWith changes trackedDependencyKinds then some .inputsChanged
  else none

end RecentChanges

/-- The state of the worker that the routing of changes reads and writes (`worker.rs:149-165`). -/
structure Worker where
  analysers : List ScheduledAnalyser
  queue : AnalysisWorkQueue
  dependencies : DependencyIndex
  coverage : AnalysisCoverage
  pendingDiagnostics : PendingDiagnostics
  recentChanges : RecentChanges

/-- The addresses that a record schedules an analyser for (`worker.rs:639-651`): the entry of a
function, the ranges of any other record. -/
def triggerRanges : ChangeRecord → List AddressRange
  | .functionAdded entry _ | .functionChanged entry _ _ | .functionRemoved entry _ =>
    [.point entry]
  | record => record.ranges

/-- Records by kind: the bits of the kind with the regions of its records. -/
abbrev Groups := OrdMap Nat AddressRangeSet

/-- The group of a kind with more ranges. -/
def Groups.add (groups : Groups) (kind : ChangeKinds) (ranges : List AddressRange) : Groups :=
  groups.insert kind.toNat (((groups.get? kind.toNat).getD .new).insertRanges ranges)

/-- What `route_changes` collects from the records. -/
structure Grouped where
  retract : AddressRangeSet
  triggered : Groups
  byKind : Groups

/-- One round of the loop of `route_changes` over the records (`worker.rs:618-652`). -/
def Grouped.add (grouped : Grouped) (record : ChangeRecord) : Grouped :=
  let retract := if record.requiresRetraction then grouped.retract.insertRanges record.ranges
    else grouped.retract
  if record.kind.isEmpty then { grouped with retract }
  else
    { retract
      byKind := if trackedDependencyKinds.contains record.kind then
          grouped.byKind.add record.kind record.ranges
        else grouped.byKind
      triggered := grouped.triggered.add record.kind (triggerRanges record) }

/-- The records of a change set by kind. -/
def group (changes : ChangeSet) : Grouped :=
  changes.records.foldl Grouped.add ⟨.new, .empty, .empty⟩

namespace Worker

variable (worker : Worker)

/-- `Worker::defer_degradations` (`worker.rs:936-950`). -/
def deferDegradations (degradations : DegradationReport) : Worker :=
  { worker with pendingDiagnostics := degradations.foldl (fun pending degradation =>
      pending.defer degradation.scope (match degradation.kind with
        | .causesMerged => .workCausesMerged
        | .rangesCollapsed => .pendingWorkCollapsed)) worker.pendingDiagnostics }

/-- `Worker::schedule_analyser` (`worker.rs:843-866`). -/
def scheduleAnalyser (id : AnalyserId) (regions : AddressRangeSet)
    (kind : ChangeKinds) (trigger : WorkTrigger) (revision : Revision)
    (provenance : ChangeProvenance) : Option Worker := do
  let state ← worker.analysers[id]?
  let (queue, degradations) ← worker.queue.schedule id state.order state.phase state.priority
    regions fun range => ⟨range, kind.toNat, provenance, trigger, revision⟩
  return { worker with queue }.deferDegradations degradations

/-- An analyser is not scheduled for what it produced itself (`worker.rs:683-687`). -/
def selfProduced (state : ScheduledAnalyser) (kind : ChangeKinds) (provenance : ChangeProvenance) :
    Bool :=
  provenance.containsLabel state.name && state.produces.contains kind

variable (kind : ChangeKinds)

/-- The loop of `route_direct` on one analyser. -/
def routeDirectTo (regions : AddressRangeSet) (revision : Revision)
    (provenance : ChangeProvenance) (worker : Worker) (id : AnalyserId) : Option Worker := do
  let state ← worker.analysers[id]?
  if selfProduced state kind provenance || !state.triggers.intersects kind then return worker
  else worker.scheduleAnalyser id regions kind .change revision provenance

/-- `Worker::route_direct` (`worker.rs:720-738`). -/
def routeDirect (regions : AddressRangeSet)
    (revision : Revision) (provenance : ChangeProvenance) : Option Worker :=
  (List.range worker.analysers.length).foldlM (routeDirectTo kind regions revision provenance)
    worker

/-- The production without a range is scheduled again if it is invalidated
(`worker.rs:694-704`). -/
def rescheduleGlobal (id : AnalyserId) (invalidated : DependencyInvalidation)
    (kind : ChangeKinds) (revision : Revision) (provenance : ChangeProvenance) : Option Worker :=
  if invalidated.global then worker.scheduleAnalyser id .new kind .dependency revision provenance
  else some worker

/-- The invalidated regions are scheduled again (`worker.rs:705-715`). -/
def rescheduleRegions (id : AnalyserId) (invalidated : DependencyInvalidation)
    (kind : ChangeKinds) (revision : Revision) (provenance : ChangeProvenance) : Option Worker :=
  if invalidated.regions.isEmpty then some worker
  else worker.scheduleAnalyser id invalidated.regions kind .dependency revision provenance

/-- The loop of `route_dependencies` on one analyser (`worker.rs:682-717`). -/
def routeDependenciesTo (scope : Option AddressRangeSet) (revision : Revision)
    (provenance : ChangeProvenance) (worker : Worker) (id : AnalyserId) : Option Worker := do
  let state ← worker.analysers[id]?
  if selfProduced state kind provenance then return worker
  else
    let invalidated := worker.dependencies.invalidated id kind scope
    if invalidated.isEmpty then return worker
    else
      let worker ← worker.rescheduleGlobal id invalidated kind revision provenance
      worker.rescheduleRegions id invalidated kind revision provenance

/-- `Worker::route_dependencies` (`worker.rs:669-718`). -/
def routeDependencies (changed : AddressRangeSet)
    (provenance : ChangeProvenance) (revision : Revision) : Option Worker :=
  if kind.isEmpty then some worker
  else
    let scope := if changed.isEmpty then none else some changed
    (List.range worker.analysers.length).foldlM
      (routeDependenciesTo kind scope revision provenance) worker

variable (region : AddressRangeSet)

/-- The claims of an analyser without the ranges of a region. -/
def retractClaimed (phases : List AnalysisPhase)
    (state : ScheduledAnalyser) : Option ScheduledAnalyser :=
  if phases.contains state.phase then do
    let claimed ← region.ranges.foldlM AddressRangeSet.removeRange state.claimed
    return { state with claimed }
  else some state

/-- `Worker::cancel_phases` (`worker.rs:913-924`). -/
def cancelPhases (phases : List AnalysisPhase) :
    Option Worker := do
  let (queue, degradations) ← worker.queue.cancel phases region
  let analysers ← worker.analysers.mapM (retractClaimed region phases)
  return { worker with queue, analysers }.deferDegradations degradations

/-- `Worker::retract_coverage` (`worker.rs:926-934`). -/
def retractCoverage : Option Worker := do
  let coverage ← region.ranges.foldlM AnalysisCoverage.clear worker.coverage
  return { worker with coverage }

/-- The retraction of `route_changes` (`worker.rs:654-658`); what an analyser itself does with
`retract` is not part of the worker. -/
def retract : Option Worker :=
  if region.isEmpty then some worker
  else do
    let worker ← worker.cancelPhases region phasesCancelledByRetraction
    worker.retractCoverage region

/-- `Worker::route_changes` (`worker.rs:610-667`). -/
def routeChanges (changes : ChangeSet) : Option Worker := do
  let grouped := group changes
  let worker ← worker.retract grouped.retract
  let worker ← grouped.triggered.entries.foldlM (fun worker entry =>
    worker.routeDirect (.ofNat 32 entry.1) entry.2 changes.revision changes.provenance) worker
  grouped.byKind.entries.foldlM (fun worker entry =>
    worker.routeDependencies (.ofNat 32 entry.1) entry.2 changes.provenance changes.revision) worker

/-- `Worker::begin_publish` (`worker.rs:1622-1634`), without the query index. -/
def beginPublish (changes : ChangeSet) : Option Worker := do
  let recentChanges ← worker.recentChanges.record changes
  return { worker with
    recentChanges
    pendingDiagnostics := if changes.contains .resynchronise then
        worker.pendingDiagnostics.defer .global .changeIndexCollapsed
      else worker.pendingDiagnostics }

/-- `Worker::begin_publish` and `Worker::finish_publish` (`worker.rs:1636-1641`) for a change set,
without the subscribers. -/
def publish (changes : ChangeSet) : Option Worker := do
  let worker ← worker.beginPublish changes
  worker.routeChanges changes

end Worker

end Fugue.Engine
