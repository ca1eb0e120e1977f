import Fugue.Ir.DerivedReferences

/-!
# Staged references

`ReferenceStaging` (`fugue-core/src/ir/reference/index/mod.rs:230-516`) collects the changes of the
reference index until a transaction commits: an entry for each key that was changed, none if it is
removed, with the entry before the first change.
-/

namespace Fugue.Ir

open Fugue.Lib

/-- `StagedReferenceRecord` (`index/mod.rs:237-241`). -/
structure StagedReferenceRecord where
  previous : Option ReferenceEntry
  entry : Option ReferenceEntry

/-- `ReferenceStaging` (`index/mod.rs:230-235`). -/
structure ReferenceStaging where
  asserted : Finset ReferenceKey
  derivedCoverage : AddressRangeSet
  stagedReferences : OrdMap ReferenceKey StagedReferenceRecord

/-- The entries with a key of the range: a scan from the start of the range that stops behind its
end (`index/mod.rs:331-343`, `480-498`). -/
def entriesIn {V : Type} (entries : OrdMap ReferenceKey V) (range : AddressRange) :
    List (ReferenceKey × V) :=
  (entries.entries.filter fun entry =>
      decide ((⟨range.startAddress, .minimum, .flow⟩ : ReferenceKey) ≤ entry.1)).takeWhile
    fun entry => decide (entry.1.from_.key ≤ range.endAddress.key)

namespace ReferenceStaging

/-- `ReferenceStaging::default`. -/
def default : ReferenceStaging := ⟨∅, .new, .empty⟩

variable (staging : ReferenceStaging) (index : ReferenceIndex)

/-- `ReferenceStaging::entry` (`index/mod.rs:453-465`). -/
def entry (key : ReferenceKey) : Option ReferenceEntry :=
  match staging.stagedReferences.get? key with
  | some staged => staged.entry
  | none => index.get key

/-- `ReferenceStaging::stage_change` (`index/mod.rs:503-515`). -/
def stageChange (key : ReferenceKey) (previous entry : Option ReferenceEntry) : ReferenceStaging :=
  { staging with
    stagedReferences := match staging.stagedReferences.get? key with
      | some staged => staging.stagedReferences.insert key { staged with entry }
      | none => staging.stagedReferences.insert key ⟨previous, entry⟩ }

/-- `ReferenceStaging::insert` (`index/mod.rs:269-287`). -/
def insert (reference : Reference) : Bool × ReferenceStaging :=
  let key := reference.key
  let existing := staging.entry index key
  let entry := (existing.getD (.new .asserted reference.properties)).mergeProvenance .asserted
    reference.properties
  if existing = some entry then (false, staging)
  else
    let staging := staging.stageChange key existing (some entry)
    (true, { staging with asserted := Insert.insert key staging.asserted })

/-- `ReferenceStaging::remove` (`index/mod.rs:289-308`). -/
def remove (key : ReferenceKey) : Bool × ReferenceStaging :=
  match staging.entry index key with
  | none => (false, staging)
  | some entry =>
    if entry.hasProvenance .asserted then
      let staging := staging.stageChange key (some entry) (entry.setProvenance .asserted none)
      (true, { staging with asserted := Insert.insert key staging.asserted })
    else (false, staging)

/-- A round of `merge_derived_references` (`index/mod.rs:406-420`). -/
def mergeReference (provenance : ReferenceProvenance) (state : Bool × ReferenceStaging)
    (reference : Reference) : Bool × ReferenceStaging :=
  let key := reference.key
  let existing := state.2.entry index key
  let entry := (existing.getD (.new provenance reference.properties)).mergeProvenance provenance
    reference.properties
  if existing = some entry then state
  else
    let staging := state.2.stageChange key existing (some entry)
    (true, { staging with
      derivedCoverage := staging.derivedCoverage.insertRange (.point key.from_) })

/-- `ReferenceStaging::merge_derived_references` (`index/mod.rs:400-422`). -/
def mergeDerivedReferences (provenance : ReferenceProvenance) (references : List Reference) :
    Bool × ReferenceStaging :=
  references.foldl (mergeReference index provenance) (false, staging)

/-- A committed reference that `references_in` reads (`index/mod.rs:474-479`). -/
def addEntry (entries : OrdMap ReferenceKey ReferenceEntry) (reference : Reference) :
    OrdMap ReferenceKey ReferenceEntry :=
  match staging.entry index reference.key with
  | some entry => entries.insert reference.key entry
  | none => entries

/-- `ReferenceStaging::references_in` (`index/mod.rs:467-501`): the entries of the committed keys in
the coverage, and then those that are staged there. -/
def referencesIn (coverage : AddressRangeSet) : OrdMap ReferenceKey ReferenceEntry :=
  let entries := (index.referencesIn coverage).foldl (staging.addEntry index) .empty
  (coverage.ranges.flatMap (entriesIn staging.stagedReferences)).foldl
    (fun entries staged => entries.put staged.1 staged.2.entry) entries

/-- What `replace_derived_reference_batches` goes on with: the entries in the coverage, the staging
and whether anything has changed. -/
structure Replacing where
  current : OrdMap ReferenceKey ReferenceEntry
  staging : ReferenceStaging
  changed : Bool

/-- A covered key (`index/mod.rs:346-376`). -/
def replaceCovered (batch : DerivedReferenceBatch) (state : Replacing) (key : ReferenceKey) :
    Option Replacing := do
  let previous ← state.current.get? key
  if key.kind ≠ batch.kind then return state
  let properties := (batch.find key).map Reference.properties
  let entry := previous.setProvenance batch.provenance properties
  if entry = some previous then return state
  return ⟨state.current.put key entry, state.staging.stageChange key (some previous) entry, true⟩

/-- A reference of the batch (`index/mod.rs:378-387`). -/
def addAbsent (batch : DerivedReferenceBatch) (state : Replacing) (reference : Reference) :
    Replacing :=
  let key := reference.key
  if (state.current.get? key).isSome then state
  else
    let entry := ReferenceEntry.new batch.provenance reference.properties
    ⟨state.current.insert key entry, state.staging.stageChange key none (some entry), true⟩

/-- A batch (`index/mod.rs:329-395`). -/
def replaceBatch (state : Replacing) (batch : DerivedReferenceBatch) : Option Replacing := do
  let covered := (batch.coverage.ranges.flatMap (entriesIn state.current)).map Prod.fst
  let replacing ← covered.foldlM (replaceCovered batch) { state with changed := false }
  let replacing := batch.references.foldl (addAbsent batch) replacing
  let staging := if replacing.changed then
    { replacing.staging with
      derivedCoverage := replacing.staging.derivedCoverage.insertRanges batch.coverage.ranges }
    else replacing.staging
  return ⟨replacing.current, staging, state.changed || replacing.changed⟩

/-- `ReferenceStaging::replace_derived_reference_batches` (`index/mod.rs:310-398`). -/
def replaceDerivedReferenceBatches (batches : List DerivedReferenceBatch) :
    Option (Bool × ReferenceStaging) := do
  let combinedCoverage := batches.foldl
    (fun coverage batch => coverage.insertRanges batch.coverage.ranges) AddressRangeSet.new
  if combinedCoverage.isEmpty then return (false, staging)
  let current := staging.referencesIn index combinedCoverage
  let replacing ← batches.foldlM replaceBatch ⟨current, staging, false⟩
  return (replacing.changed, replacing.staging)

/-- The records of `ReferenceStaging::prepare` (`index/mod.rs:424-451`): the keys whose entry is not
what it was, each with its entry. -/
def prepare : List (ReferenceKey × Option ReferenceEntry) :=
  (staging.stagedReferences.entries.filter fun staged =>
    decide (staged.2.entry ≠ staged.2.previous)).map fun staged => (staged.1, staged.2.entry)

end ReferenceStaging

end Fugue.Ir
