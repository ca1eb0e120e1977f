import Fugue.Ir.AddressSets
import Mathlib.Data.String.Basic

/-!
# Analysis coverage

`AnalysisCoverage` (`fugue-core/src/project/analysis.rs`): for each analyser the ranges that it has
covered in its phase, and those that it still has to analyse again. `configure` compares a list of
analysers with the table and passes what a phase had covered on to the analysers that are new in it.
The set operations refuse an empty range to remove; `none` stands for that and for a failed
`expect`.
-/

namespace Fugue.Project

open Fugue.Lib Fugue.Ir

/-- `AnalysisPhase` (`analysis.rs:28-35`). -/
inductive AnalysisPhase where
  | retract
  | decode
  | partition
  | derive
  | propagate
  | identify
  deriving DecidableEq, Repr

abbrev AnalyserName := String

/-- `AnalyserCoverage` (`analysis.rs:94-99`). -/
structure AnalyserCoverage where
  pending : AddressRangeSet
  phase : AnalysisPhase
  ranges : AddressRangeSet

/-- `AnalysisCoverage` (`analysis.rs:89-92`). -/
structure AnalysisCoverage where
  analysers : OrdMap AnalyserName AnalyserCoverage

/-- `CoverageConfigurationChange` (`analysis.rs:101-119`). -/
inductive CoverageConfigurationChange where
  | added (name : AnalyserName) (phase : AnalysisPhase) (ranges : AddressRangeSet)
  | phaseChanged (name : AnalyserName) (previous current : AnalysisPhase)
    (ranges targetRanges : AddressRangeSet)
  | removed (name : AnalyserName) (phase : AnalysisPhase) (ranges : AddressRangeSet)

/-- `CoverageReanalysis` (`analysis.rs:125-128`). -/
structure CoverageReanalysis where
  analyser : AnalyserName
  regions : AddressRangeSet

/-- `CoverageReconfiguration` (`analysis.rs:140-144`). -/
structure CoverageReconfiguration where
  analysers : List AnalyserName
  invalidated : AddressRangeSet
  reanalysis : List CoverageReanalysis

/-- `Replacement` (`analysis.rs:164-167`). -/
structure Replacement where
  phase : AnalysisPhase
  regions : AddressRangeSet

namespace CoverageConfiguration

/-- The replacement that a change asks for (`analysis.rs:173-202`). -/
def replacementOf : CoverageConfigurationChange → Option (AnalyserName × Replacement)
  | .added name phase ranges => some (name, ⟨phase, ranges⟩)
  | .phaseChanged name _ current _ targetRanges => some (name, ⟨current, targetRanges⟩)
  | .removed _ _ _ => none

/-- The first loop: `entry(name).or_insert_with(..)`. -/
def addReplacement (replacements : OrdMap AnalyserName Replacement)
    (change : CoverageConfigurationChange) : OrdMap AnalyserName Replacement :=
  match replacementOf change with
  | none => replacements
  | some (name, replacement) =>
    if (replacements.get? name).isSome then replacements else replacements.insert name replacement

/-- `replacement.regions.insert_range(range)` for the replacements that `to` selects. -/
def extend (select : AnalyserName → AnalysisPhase → Bool) (range : AddressRange)
    (replacements : OrdMap AnalyserName Replacement) : OrdMap AnalyserName Replacement :=
  replacements.filterMap fun name replacement => some
    (if select name replacement.phase then
      { replacement with regions := replacement.regions.insertRange range } else replacement)

/-- What the second loop keeps. -/
structure State where
  analysers : List AnalyserName
  invalidated : AddressRangeSet
  replacements : OrdMap AnalyserName Replacement

/-- One round of the second loop (`analysis.rs:204-249`). -/
def applyChange (state : State) : CoverageConfigurationChange → State
  | .added name _ ranges =>
    if ranges.isEmpty then state
    else { state with
      analysers := state.analysers ++ [name]
      invalidated := state.invalidated.insertRanges ranges.ranges }
  | .phaseChanged name previous _ ranges targetRanges =>
    { analysers := state.analysers ++ [name]
      invalidated := state.invalidated.insertRanges (ranges.ranges ++ targetRanges.ranges)
      replacements := ranges.ranges.foldl (fun replacements range =>
        extend (fun _ phase => phase == previous) range
          (extend (fun other _ => other == name) range replacements)) state.replacements }
  | .removed name phase ranges =>
    { analysers := state.analysers ++ [name]
      invalidated := state.invalidated.insertRanges ranges.ranges
      replacements := ranges.ranges.foldl (fun replacements range =>
        extend (fun _ other => other == phase) range replacements) state.replacements }

/-- `from_changes` (`analysis.rs:161-269`). -/
def fromChanges (changes : List CoverageConfigurationChange) : CoverageReconfiguration :=
  let replacements := changes.foldl addReplacement .empty
  let state := changes.foldl applyChange ⟨[], .new, replacements⟩
  { analysers := state.analysers
    invalidated := state.invalidated
    reanalysis := state.replacements.entries.filterMap fun entry =>
      if entry.2.regions.isEmpty then none else some ⟨entry.1, entry.2.regions⟩ }

end CoverageConfiguration

namespace AnalysisCoverage

/-- `new` (`analysis.rs:294-296`). -/
def new : AnalysisCoverage := ⟨.empty⟩

/-- `AnalyserCoverageRecord` (`analysis.rs:282-287`). -/
structure Record where
  name : AnalyserName
  pending : List AddressRange
  phase : AnalysisPhase
  ranges : List AddressRange
  deriving Repr

variable (coverage : AnalysisCoverage)

/-- `persist` (`analysis.rs:498-514`): the record that goes to the storage. -/
def persist : List Record :=
  coverage.analysers.entries.map fun entry =>
    ⟨entry.1, entry.2.pending.ranges, entry.2.phase, entry.2.ranges.ranges⟩

/-- `from_storage` (`analysis.rs:298-326`) of a stored record. -/
def fromStorage (records : List Record) : AnalysisCoverage :=
  ⟨records.foldl (fun analysers record => analysers.insert record.name
    { pending := AddressRangeSet.new.insertRanges record.pending
      phase := record.phase
      ranges := AddressRangeSet.new.insertRanges record.ranges }) .empty⟩

/-- `covered` (`analysis.rs:356-369`). -/
def covered (phase : AnalysisPhase) : AddressRangeSet :=
  match (coverage.analysers.entries.filter fun entry => entry.2.phase == phase).map
    fun entry => entry.2.ranges with
  | [] => .new
  | first :: ranges => ranges.foldl AddressRangeSet.intersection first

variable (configured : OrdMap AnalyserName AnalysisPhase)

/-- What becomes of an analyser of the table (`analysis.rs:390-420`). Names are distinct, so taking
a name out of the configured ones is looking it up. -/
def reconfigured (name : AnalyserName) (entry : AnalyserCoverage) : Option AnalyserCoverage :=
  match configured.get? name with
  | some phase => if phase = entry.phase then some entry else some ⟨entry.pending, phase, .new⟩
  | none => none

/-- The change that an analyser of the table brings. -/
def changeOf (entry : AnalyserName × AnalyserCoverage) : Option CoverageConfigurationChange :=
  match configured.get? entry.1 with
  | some phase =>
    if phase = entry.2.phase then none
    else some (.phaseChanged entry.1 entry.2.phase phase entry.2.ranges (coverage.covered phase))
  | none => some (.removed entry.1 entry.2.phase entry.2.ranges)

/-- The analysers that the table does not have (`analysis.rs:422-440`). -/
def added : OrdMap AnalyserName AnalysisPhase :=
  configured.retain fun name _ => (coverage.analysers.get? name).isNone

def changes : List CoverageConfigurationChange :=
  coverage.analysers.entries.filterMap (coverage.changeOf configured) ++
    (coverage.added configured).entries.map fun entry =>
      .added entry.1 entry.2 (coverage.covered entry.2)

/-- The table after the two loops of `configure`. -/
def configuredTable :
    OrdMap AnalyserName AnalyserCoverage :=
  (coverage.added configured).entries.foldl (fun analysers entry =>
    analysers.insert entry.1 ⟨.new, entry.2, .new⟩) (coverage.analysers.filterMap
      (reconfigured configured))

/-- The regions of one reanalysis become pending (`analysis.rs:443-451`). -/
def addPending (analysers : OrdMap AnalyserName AnalyserCoverage) (reanalysis : CoverageReanalysis) :
    Option (OrdMap AnalyserName AnalyserCoverage) := do
  let entry ← analysers.get? reanalysis.analyser
  return analysers.insert reanalysis.analyser
    { entry with pending := entry.pending.insertRanges reanalysis.regions.ranges }

/-- The reanalysis that is reported (`analysis.rs:452-461`). -/
def pendingReanalysis (analysers : OrdMap AnalyserName AnalyserCoverage) :
    List CoverageReanalysis :=
  analysers.entries.filterMap fun entry =>
    if entry.2.pending.isEmpty then none else some ⟨entry.1, entry.2.pending⟩

/-- `configure` (`analysis.rs:375-464`). -/
def configure (analysers : List (AnalyserName × AnalysisPhase)) :
    Option (AnalysisCoverage × CoverageReconfiguration) := do
  let configured := analysers.foldl (fun configured entry => configured.insert entry.1 entry.2)
    .empty
  let reconfiguration := CoverageConfiguration.fromChanges (coverage.changes configured)
  let table ← reconfiguration.reanalysis.foldlM addPending (coverage.configuredTable configured)
  return (⟨table⟩, { reconfiguration with reanalysis := pendingReanalysis table })

/-- `mark` (`analysis.rs:466-483`). -/
def mark (analyser : AnalyserName) (phase : AnalysisPhase) (range : AddressRange) :
    Option AnalysisCoverage :=
  match coverage.analysers.get? analyser with
  | some entry => do
    let pending ← entry.pending.removeRange range
    return ⟨coverage.analysers.insert analyser ⟨pending, phase, entry.ranges.insertRange range⟩⟩
  | none => some ⟨coverage.analysers.insert analyser
      ⟨.new, phase, AddressRangeSet.new.insertRange range⟩⟩

/-- One analyser of `clear`. -/
def clearEntry (range : AddressRange) (entry : AnalyserCoverage) : Option AnalyserCoverage := do
  let invalidated := entry.ranges.intersection (AddressRangeSet.new.insertRange range)
  let ranges ← entry.ranges.removeRange range
  return { entry with pending := entry.pending.insertRanges invalidated.ranges, ranges }

/-- `clear` (`analysis.rs:485-494`). -/
def clear (range : AddressRange) : Option AnalysisCoverage :=
  if coverage.analysers.entries.all fun entry => (clearEntry range entry.2).isSome then
    some ⟨coverage.analysers.filterMap fun _ => clearEntry range⟩
  else none

end AnalysisCoverage

end Fugue.Project
