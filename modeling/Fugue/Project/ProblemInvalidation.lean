import Fugue.Project.ChangeStaging
import Fugue.Project.CommitWrites
import Fugue.Project.Problems

/-!
# The commit of a transaction and the problems that it resolves

`ProjectTransaction::commit` (`fugue-core/src/project/transaction/mod.rs:427-536`), as far as the
records that it publishes and the table of problems go. In the middle of the commit the problems
whose inputs have changed are staged for removal; the records of symbols, switches and references
are only pushed when their tables are published, after that.

The records that the tables of switches, symbols and references have prepared are the input here,
and the entity store takes the writes. `none` stands for a failed assertion.
-/

namespace Fugue.Project

open Fugue.Lib Fugue.Ir Fugue.Engine

namespace ChangeKinds

/-- `ChangeKinds::for_problem` (`change.rs:182-206`). -/
def forProblem : ProblemKind → ChangeKinds
  | .avoidedBytes | .cannotCreateFunctionFromHint => bytesWritten ||| segments
  | .cannotCreateFunction | .decodeFailed | .functionTooLarge | .passFailed =>
    bytesWritten ||| functions ||| segments ||| symbols
  | .hinderedByAssertedFact => functions
  | .switchBoundExceeded | .switchUnresolved => bytesWritten ||| functions ||| segments ||| switches
  | .unknown => all.difference problems
  | .analysisCoverageInvalidated | .changeIndexCollapsed | .pendingWorkCollapsed
  | .readSetCollapsed | .retryBudgetExhausted | .workCausesMerged => 0

theorem forProblem_problems (kind : ProblemKind) :
    (forProblem kind).intersects .problemRecorded = false ∧
      (forProblem kind).intersects .problemResolved = false := by
  cases kind <;> exact of_decide_eq_true rfl

/-- A collapsed change set is an input of the problems of unknown kind only. -/
theorem forProblem_resynchronise (kind : ProblemKind) :
    (forProblem kind).intersects .resynchronise = true ↔ kind = .unknown := by
  cases kind <;> exact of_decide_eq_true rfl

end ChangeKinds

/-- `ProjectTransaction::problem_scope_affected` (`mod.rs:524-538`). -/
def problemScopeAffected (scope : ProblemScope) (record : ChangeRecord) : Bool :=
  let ranges := record.ranges
  ranges.isEmpty ||
    match scope with
    | .global => true
    | .addressSpace space => ranges.any fun range => range.space == space
    | .address address => ranges.any fun range => range.containsAddress address
    | .range problem => ranges.any fun range => range.intersects problem

/-- The record is of the kinds that a problem depends on and affects its scope. -/
def affects (key : ProblemKey) (record : ChangeRecord) : Bool :=
  (ChangeKinds.forProblem key.kind).intersects record.kind && problemScopeAffected key.scope record

/-- The keys that the first loop of `invalidate_semantic_problems` collects
(`mod.rs:486-506`). The set is a list here: a round of the second loop changes nothing at a key that
had one. -/
def candidates (problems : ProblemTable) (records : List ChangeRecord) : List ProblemKey :=
  let candidates := records.flatMap fun record => record.ranges.flatMap problems.keysInRange
  if records.any fun record => record.ranges.isEmpty then candidates ++ problems.keys
  else candidates

/-- The condition on the inputs of a candidate in the second loop (`mod.rs:510-518`). -/
def inputsChanged (changes : ChangeStaging) (key : ProblemKey) : Bool :=
  if changes.collapsed then (ChangeKinds.forProblem key.kind).intersects changes.kinds
  else changes.records.any (affects key)

/-- One round of the second loop (`mod.rs:508-522`). -/
def invalidateKey (changes : ChangeStaging) (staging : ProblemTableStaging) (key : ProblemKey) :
    ProblemTableStaging :=
  if staging.containsKey key || !inputsChanged changes key then staging else staging.remove key

/-- `invalidate_semantic_problems` (`mod.rs:485-523`). -/
def invalidateSemanticProblems (problems : ProblemTable) (changes : ChangeStaging)
    (staging : ProblemTableStaging) : ProblemTableStaging :=
  (candidates problems changes.records).foldl (invalidateKey changes) staging

/-- `IlStagedChange` (`il/storage.rs:164-173`). -/
inductive IlStagedChange where
  | materialised (function : ℕ) (form : String)
  | removed (function : ℕ) (form : String)
  deriving DecidableEq, Repr

/-- The record of a staged artefact (`mod.rs:433-440`). -/
def IlStagedChange.record : IlStagedChange → ChangeRecord
  | .materialised function form => .liftedMaterialised function form
  | .removed function form => .liftedRemoved function form

/-- The record of a problem of a batch (`publish_problems`, `mod.rs:540-551`). -/
def problemRecord (change : ProblemKey × Bool) : ChangeRecord :=
  if change.2 then .problemRecorded change.1.scope change.1.kind
  else .problemResolved change.1.scope change.1.kind

/-- The record of a switch of a batch (`publish_switches`, `mod.rs:553-562`). -/
def switchRecord (change : Address × Bool) : ChangeRecord :=
  if change.2 then .switchAdded change.1 else .switchRemoved change.1

/-- A symbol of a batch: its address and name now and before the commit. -/
structure SymbolChange where
  entry : Option (Address × String)
  previous : Option (Address × String)

/-- The record of a symbol of a batch (`publish_symbols`, `mod.rs:564-580`). -/
def SymbolChange.record (change : SymbolChange) : Option ChangeRecord :=
  match change.entry, change.previous with
  | some entry, some _ => some (.symbolChanged entry.1 entry.2)
  | some entry, none => some (.symbolAdded entry.1 entry.2)
  | none, some previous => some (.symbolRemoved previous.1 previous.2)
  | none, none => none

/-- The record of an asserted reference of a batch (`publish_references`, `mod.rs:583-598`). -/
def referenceRecord (change : ReferenceKey × Bool) : ChangeRecord :=
  if change.2 then .referenceAdded change.1.origin change.1.target change.1.kind
  else .referenceRemoved change.1.origin change.1.target change.1.kind

/-- `ProjectRevisionState` (`project/mod.rs:85-88`). -/
structure ProjectRevisionState where
  revision : Revision
  semanticRevision : Revision

/-- `ProjectRevisionState::advance` (`project/mod.rs:104-110`). -/
def ProjectRevisionState.advance (state : ProjectRevisionState) (semantic : Bool) :
    ProjectRevisionState :=
  let revision := state.revision + 1
  ⟨revision, if semantic then revision else state.semanticRevision⟩

/-- What a commit reads of a transaction and of its project. -/
structure Transaction where
  /-- the table of problems of the project -/
  problems : ProblemTable
  /-- the ids that the table gives next -/
  pendingId : ℕ → IrId
  revisions : ProjectRevisionState
  changes : ChangeStaging
  problemStaging : ProblemTableStaging
  /-- the changes of the staged artefacts, as `for_each_change` gives them -/
  ilChanges : List IlStagedChange
  /-- the prepared changes of the switches -/
  switches : List (Address × Bool)
  symbols : List SymbolChange
  /-- the prepared changes of the asserted references -/
  references : List (ReferenceKey × Bool)
  /-- the coverage of the derived references, if they have changed -/
  derivedCoverage : Option AddressRangeSet
  source : ChangeSource

namespace Transaction

/-- The records that are pushed when the tables after the problems are published. -/
def laterRecords (transaction : Transaction) : Option (List ChangeRecord) := do
  let symbols ← transaction.symbols.mapM SymbolChange.record
  return transaction.switches.map switchRecord ++ symbols ++
    transaction.references.map referenceRecord ++
    (transaction.derivedCoverage.map ChangeRecord.referencesChanged).toList

/-- `ProjectTransaction::commit` (`mod.rs:427-483`): the table of problems, the revisions and the
change set that is published. -/
def commit (transaction : Transaction) :
    Option (ProblemTable × ProjectRevisionState × ChangeSet) := do
  let changes ← (transaction.ilChanges.map IlStagedChange.record).foldlM ChangeStaging.push
    transaction.changes
  let staging :=
    invalidateSemanticProblems transaction.problems changes transaction.problemStaging
  let batch := staging.prepare transaction.problems transaction.pendingId
  let changes ← (batch.changes.map problemRecord).foldlM ChangeStaging.push changes
  let changes ← (← transaction.laterRecords).foldlM ChangeStaging.push changes
  let revisions := if changes.records.isEmpty then transaction.revisions
    else transaction.revisions.advance (changes.semanticCount != 0)
  return (batch.publish transaction.problems, revisions,
    changes.finish revisions.revision transaction.source)

end Transaction

end Fugue.Project
