import Mathlib.Data.BitVec
import Fugue.Engine.Work
import Fugue.Ir.AddressSets

/-!
# Changes of a project

`fugue-core/src/project/change.rs`: the kinds of changes are a bit set, a record names the kind and
the ranges of one change, and a change set is what a committed transaction publishes. A record
without ranges stands for a change anywhere.
-/

namespace Fugue.Project

open Fugue.Ir Fugue.Engine

/-- `MAX_DETAILED_CHANGE_RECORDS` (`change.rs:15`). -/
def maxDetailedChangeRecords : Nat := 8192

/-- `Revision` (`types/revision.rs:17`). -/
abbrev Revision := Nat

/-- `ProblemKind` (`ir/problem/mod.rs:34-52`). -/
inductive ProblemKind where
  | analysisCoverageInvalidated | avoidedBytes | cannotCreateFunction
  | cannotCreateFunctionFromHint | changeIndexCollapsed | decodeFailed | functionTooLarge
  | hinderedByAssertedFact | passFailed | pendingWorkCollapsed | readSetCollapsed
  | retryBudgetExhausted | switchBoundExceeded | switchUnresolved | unknown | workCausesMerged
  deriving DecidableEq, Repr

/-- `ReferenceKind` (`ir/reference/mod.rs:31-34`). -/
inductive ReferenceKind where
  | flow | data
  deriving DecidableEq, Repr

/-- `ReferenceTarget` (`ir/reference/mod.rs:150-152`). -/
inductive ReferenceTarget where
  | address (address : Address)
  deriving DecidableEq, Repr

/-- `ReferenceTarget::address` (`ir/reference/mod.rs:169-173`). -/
def ReferenceTarget.address? : ReferenceTarget → Option Address
  | .address found => some found

/-- `ProblemScope::range` (`ir/problem/mod.rs:135-141`). -/
def scopeRange : ProblemScope → Option AddressRange
  | .address address => some (.point address)
  | .range range => some range
  | .global | .addressSpace _ => none

/-- `FunctionChangeKind` (`change.rs:129-135`). -/
inductive FunctionChangeKind where
  | body | frame | name | properties
  deriving DecidableEq, Repr

/-- `ChangeKinds` (`change.rs:137-182`), a set of 32 flags. -/
abbrev ChangeKinds := BitVec 32

namespace ChangeKinds

def addressSpaceCreated : ChangeKinds := 0x00000001
def bytesWritten : ChangeKinds := 0x00000002
def functionAdded : ChangeKinds := 0x00000004
def functionChanged : ChangeKinds := 0x00000008
def functionProperties : ChangeKinds := 0x00000010
def functionRemoved : ChangeKinds := 0x00000020
def liftedMaterialised : ChangeKinds := 0x00000040
def liftedRemoved : ChangeKinds := 0x00000080
def problemRecorded : ChangeKinds := 0x00000100
def problemResolved : ChangeKinds := 0x00000200
def referenceAdded : ChangeKinds := 0x00000400
def referenceRemoved : ChangeKinds := 0x00000800
def resynchronise : ChangeKinds := 0x00001000
def segmentMapped : ChangeKinds := 0x00002000
def segmentMappingChanged : ChangeKinds := 0x00004000
def segmentMappingCreated : ChangeKinds := 0x00008000
def segmentUnmapped : ChangeKinds := 0x00010000
def switchAdded : ChangeKinds := 0x00020000
def switchRemoved : ChangeKinds := 0x00040000
def symbolAdded : ChangeKinds := 0x00080000
def symbolChanged : ChangeKinds := 0x00100000
def symbolRemoved : ChangeKinds := 0x00200000

def functions : ChangeKinds :=
  functionAdded ||| functionChanged ||| functionProperties ||| functionRemoved
def lifted : ChangeKinds := liftedMaterialised ||| liftedRemoved
def problems : ChangeKinds := problemRecorded ||| problemResolved
def references : ChangeKinds := referenceAdded ||| referenceRemoved
def segments : ChangeKinds :=
  segmentMapped ||| segmentMappingChanged ||| segmentMappingCreated ||| segmentUnmapped
def switches : ChangeKinds := switchAdded ||| switchRemoved
def symbols : ChangeKinds := symbolAdded ||| symbolChanged ||| symbolRemoved

/-- `ChangeKinds::all`: the union of the flags. -/
def all : ChangeKinds := 0x003fffff

/-- `ChangeKinds::intersects` of the `bitflags` crate. -/
def intersects (kinds other : ChangeKinds) : Bool := kinds &&& other != 0

/-- `ChangeKinds::contains` of the `bitflags` crate. -/
def contains (kinds other : ChangeKinds) : Bool := kinds &&& other == other

/-- `ChangeKinds::difference` of the `bitflags` crate. -/
def difference (kinds other : ChangeKinds) : ChangeKinds := kinds &&& ~~~other

/-- `ChangeKinds::is_empty` of the `bitflags` crate. -/
def isEmpty (kinds : ChangeKinds) : Bool := kinds == 0

variable {kinds other third : ChangeKinds}

theorem eq_zero_iff : kinds = 0 ↔ ∀ i, kinds.getLsbD i = false := by
  constructor
  · intro eq i
    simp [eq]
  · intro off
    refine BitVec.eq_of_getLsbD_eq fun i _ => ?_
    rw [off i]
    simp

theorem intersects_iff : kinds.intersects other = true ↔
    ∃ i, kinds.getLsbD i = true ∧ other.getLsbD i = true := by
  rw [intersects, bne_iff_ne, ne_eq, eq_zero_iff]
  simp [BitVec.getLsbD_and, not_forall, Bool.not_eq_false]

theorem intersects_comm : kinds.intersects other = other.intersects kinds := by
  rw [intersects, intersects, BitVec.and_comm]

@[simp]
theorem intersects_or : (kinds ||| other).intersects third = true ↔
    kinds.intersects third = true ∨ other.intersects third = true := by
  simp [intersects_iff, BitVec.getLsbD_or, Bool.or_eq_true, or_and_right, exists_or]

@[simp]
theorem not_intersects_zero : (0 : ChangeKinds).intersects kinds = false := by
  simp [intersects]

/-- A set meets another one in what the set has outside a third, or through the third. -/
theorem intersects_difference : kinds.intersects third = true →
    (kinds.difference other).intersects third = true ∨ other.intersects third = true := by
  simp only [intersects_iff, difference, BitVec.getLsbD_and, Bool.and_eq_true]
  intro h
  obtain ⟨i, left, right⟩ := h
  by_cases inside : other.getLsbD i = true
  · exact .inr ⟨i, inside, right⟩
  · refine .inl ⟨i, ⟨left, ?_⟩, right⟩
    rw [BitVec.getLsbD_not, decide_eq_true (BitVec.lt_of_getLsbD left), Bool.true_and,
      Bool.not_eq_true', ← Bool.not_eq_true]
    exact inside

theorem intersects_of_isEmpty (empty : kinds.isEmpty = true) : kinds.intersects other = false := by
  rw [isEmpty, beq_iff_eq] at empty
  rw [empty, not_intersects_zero]

end ChangeKinds

/-- `ChangeRecord` (`change.rs:209-294`). -/
inductive ChangeRecord where
  | addressSpaceCreated (space : AddressSpaceId)
  | bytesWritten (range : AddressRange)
  | functionAdded (entry : Address) (coverage : AddressRangeSet)
  | functionChanged (entry : Address) (kind : FunctionChangeKind) (coverage : AddressRangeSet)
  | functionRemoved (entry : Address) (coverage : AddressRangeSet)
  | liftedMaterialised (function : Nat) (form : String)
  | liftedRemoved (function : Nat) (form : String)
  | problemRecorded (scope : ProblemScope) (kind : ProblemKind)
  | problemResolved (scope : ProblemScope) (kind : ProblemKind)
  | referenceAdded (origin : Address) (target : ReferenceTarget) (kind : ReferenceKind)
  | referenceRemoved (origin : Address) (target : ReferenceTarget) (kind : ReferenceKind)
  | referencesChanged (coverage : AddressRangeSet)
  | resynchronise (revision : Revision)
  | segmentMapped (mapping : Nat) (range : AddressRange)
  | segmentMappingChanged (mapping : Nat) (ranges : List AddressRange)
  | segmentMappingCreated (mapping : Nat)
  | segmentUnmapped (mapping : Nat) (range : AddressRange)
  | switchAdded (branch : Address)
  | switchRemoved (branch : Address)
  | symbolAdded (address : Address) (symbol : String)
  | symbolChanged (address : Address) (symbol : String)
  | symbolRemoved (address : Address) (symbol : String)

namespace ChangeRecord

/-- `ChangeRecord::kind` (`change.rs:297-326`). -/
def kind : ChangeRecord → ChangeKinds
  | .addressSpaceCreated _ => .addressSpaceCreated
  | .bytesWritten _ => .bytesWritten
  | .functionAdded _ _ => .functionAdded
  | .functionChanged _ .properties _ => .functionProperties
  | .functionChanged _ _ _ => .functionChanged
  | .functionRemoved _ _ => .functionRemoved
  | .liftedMaterialised _ _ => .liftedMaterialised
  | .liftedRemoved _ _ => .liftedRemoved
  | .problemRecorded _ _ => .problemRecorded
  | .problemResolved _ _ => .problemResolved
  | .referenceAdded _ _ _ => .referenceAdded
  | .referenceRemoved _ _ _ => .referenceRemoved
  | .referencesChanged _ => .references
  | .resynchronise _ => .resynchronise
  | .segmentMapped _ _ => .segmentMapped
  | .segmentMappingChanged _ _ => .segmentMappingChanged
  | .segmentMappingCreated _ => .segmentMappingCreated
  | .segmentUnmapped _ _ => .segmentUnmapped
  | .switchAdded _ => .switchAdded
  | .switchRemoved _ => .switchRemoved
  | .symbolAdded _ _ => .symbolAdded
  | .symbolChanged _ _ => .symbolChanged
  | .symbolRemoved _ _ => .symbolRemoved

/-- `ChangeRecord::affects_lifted_inputs` (`change.rs:328-348`). -/
def affectsLiftedInputs : ChangeRecord → Bool
  | .liftedMaterialised _ _ | .liftedRemoved _ _ | .referencesChanged _ | .referenceAdded _ _ _
  | .referenceRemoved _ _ _ | .symbolAdded _ _ | .symbolChanged _ _ | .symbolRemoved _ _
  | .switchAdded _ | .switchRemoved _ | .problemRecorded _ _ | .problemResolved _ _
  | .functionChanged _ .properties _ => false
  | _ => true

/-- `ChangeRecord::requires_retraction` (`change.rs:353-361`). -/
def requiresRetraction : ChangeRecord → Bool
  | .bytesWritten _ | .segmentMapped _ _ | .segmentMappingChanged _ _ | .segmentUnmapped _ _ => true
  | _ => false

/-- `ChangeRecord::ranges` (`change.rs:363-400`). -/
def ranges : ChangeRecord → List AddressRange
  | .bytesWritten range | .segmentMapped _ range | .segmentUnmapped _ range => [range]
  | .segmentMappingChanged _ ranges => ranges
  | .functionAdded _ coverage | .functionChanged _ _ coverage | .functionRemoved _ coverage
  | .referencesChanged coverage => coverage.ranges
  | .symbolAdded address _ | .symbolChanged address _ | .symbolRemoved address _ =>
    [.point address]
  | .switchAdded branch | .switchRemoved branch => [.point branch]
  | .problemRecorded scope _ | .problemResolved scope _ => (scopeRange scope).toList
  | .referenceAdded origin target _ | .referenceRemoved origin target _ =>
    .point origin :: (target.address?.map AddressRange.point).toList
  | .resynchronise _ | .liftedMaterialised _ _ | .liftedRemoved _ _ | .segmentMappingCreated _
  | .addressSpaceCreated _ => []

theorem kind_ne_zero (record : ChangeRecord) : record.kind ≠ 0 := by
  cases record with
  | functionChanged entry change coverage => cases change <;> exact of_decide_eq_true rfl
  | _ => exact of_decide_eq_true rfl

end ChangeRecord

/-- `ChangeProvenance` (`change.rs:79-82`). -/
abbrev ChangeProvenance := List ChangeSource

/-- `ChangeProvenance::contains` (`change.rs:103-106`). -/
def ChangeProvenance.containsLabel (provenance : ChangeProvenance) (label : String) : Bool :=
  provenance.any fun source => source.label == label

/-- `ChangeSet` (`change.rs:403-409`). -/
structure ChangeSet where
  revision : Revision
  records : List ChangeRecord
  kinds : ChangeKinds
  provenance : ChangeProvenance

namespace ChangeSet

/-- `ChangeSet::with_records` (`change.rs:417-428`). -/
def withRecords (revision : Revision) (records : List ChangeRecord) : ChangeSet where
  revision := revision
  records := records
  kinds := records.foldl (fun kinds record => kinds ||| record.kind) 0
  provenance := []

/-- `ChangeSet::with_provenance` (`change.rs:434-441`). -/
def withProvenance (changes : ChangeSet) (source : ChangeSource) : ChangeSet :=
  { changes with provenance := [source] }

/-- `ChangeSet::merge_provenance` (`change.rs:479-481`). -/
def mergeProvenance (changes : ChangeSet) (provenance : ChangeProvenance) : ChangeSet :=
  { changes with provenance := Engine.mergeProvenance changes.provenance provenance }

/-- `ChangeSet::contains` (`change.rs:463-465`). -/
def contains (changes : ChangeSet) (kinds : ChangeKinds) : Bool := changes.kinds.intersects kinds

/-- `ChangeSet::len` (`change.rs:459-461`). -/
def len (changes : ChangeSet) : Nat := changes.records.length

theorem intersects_foldl_kind {kinds : ChangeKinds} : ∀ (records : List ChangeRecord)
    (start : ChangeKinds),
    (records.foldl (fun kinds record => kinds ||| record.kind) start).intersects kinds = true ↔
      start.intersects kinds = true ∨ ∃ record ∈ records, record.kind.intersects kinds = true
  | [], start => by simp
  | record :: records, start => by
    rw [List.foldl_cons, intersects_foldl_kind records, ChangeKinds.intersects_or, or_assoc]
    simp [List.mem_cons, exists_eq_or_imp]

theorem contains_withRecords {revision : Revision} {records : List ChangeRecord}
    {kinds : ChangeKinds} : (withRecords revision records).contains kinds = true ↔
      ∃ record ∈ records, record.kind.intersects kinds = true := by
  rw [contains, withRecords, intersects_foldl_kind, ChangeKinds.not_intersects_zero,
    or_iff_right Bool.false_ne_true]

end ChangeSet

end Fugue.Project
