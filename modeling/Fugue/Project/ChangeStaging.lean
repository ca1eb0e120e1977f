import Fugue.Project.Change

/-!
# The staged records of a transaction

`ChangeStaging` (`fugue-core/src/project/transaction/mod.rs:65-287`): the records of a transaction in
the order of their first push, with an index by key, the number of records of each kind and the
number of records that affect lifted code. Records of one key are merged; beyond
`MAX_DETAILED_CHANGE_RECORDS` records the staging is collapsed to one `Resynchronise` record. `none`
stands for a failed `expect`, an index out of range or a subtraction that overflows.
-/

namespace Fugue.Project

open Fugue.Ir Fugue.Engine List Option Function Bool

/-- `StagedChangeKey` (`mod.rs:34-41`). -/
inductive StagedChangeKey where
  | function (entry : Address)
  | segmentMapped (mapping : Nat) (range : AddressRange)
  | segmentMappingChanged (mapping : Nat)
  | segmentMappingCreated (mapping : Nat)
  | segmentUnmapped (mapping : Nat) (range : AddressRange)
  deriving DecidableEq, Repr

/-- `StagedChangeKey::for_record` (`mod.rs:44-63`). -/
def StagedChangeKey.forRecord : ChangeRecord → Option StagedChangeKey
  | .functionAdded entry _ | .functionChanged entry _ _ | .functionRemoved entry _ =>
    some (.function entry)
  | .segmentMapped mapping range => some (.segmentMapped mapping range)
  | .segmentMappingChanged mapping _ => some (.segmentMappingChanged mapping)
  | .segmentMappingCreated mapping => some (.segmentMappingCreated mapping)
  | .segmentUnmapped mapping range => some (.segmentUnmapped mapping range)
  | _ => none

/-- `ChangeStaging` (`mod.rs:66-74`). -/
structure ChangeStaging where
  collapsed : Bool
  indices : StagedChangeKey → Option Nat
  kindCounts : Fin 32 → Nat
  kinds : ChangeKinds
  records : List ChangeRecord
  semanticCount : Nat

/-- `Vec::swap_remove`: the last element takes the place of the removed one. -/
def swapRemove {α : Type} (list : List α) (index : Nat) : List α :=
  match list.getLast? with
  | some last => (list.set index last).dropLast
  | none => []

namespace ChangeStaging

open StagedChangeKey

/-- `ChangeStaging::default`. -/
def new : ChangeStaging where
  collapsed := false
  indices := fun _ => none
  kindCounts := fun _ => 0
  kinds := 0
  records := []
  semanticCount := 0

/-- `merge_coverage` (`mod.rs:155-160`). -/
def mergeCoverage (previous current : AddressRangeSet) : AddressRangeSet :=
  previous.insertRanges current.ranges

/-- `ChangeStaging::coalesce` (`mod.rs:154-245`). -/
def coalesce : ChangeRecord → ChangeRecord → Option ChangeRecord
  | .functionAdded entry coverage, .functionAdded _ current
  | .functionAdded entry coverage, .functionChanged _ _ current =>
    some (.functionAdded entry (mergeCoverage coverage current))
  | .functionAdded _ _, .functionRemoved _ _ => none
  | .functionChanged entry kind coverage, .functionAdded _ current =>
    some (.functionChanged entry kind (mergeCoverage coverage current))
  | .functionChanged entry kind coverage, .functionChanged _ currentKind current =>
    some (.functionChanged entry
      (if kind = .body ∨ currentKind = .body then .body else .properties)
      (mergeCoverage coverage current))
  | .functionChanged entry _ coverage, .functionRemoved _ current =>
    some (.functionRemoved entry (mergeCoverage coverage current))
  | .functionRemoved entry coverage, .functionAdded _ current
  | .functionRemoved entry coverage, .functionChanged _ _ current =>
    some (.functionChanged entry .body (mergeCoverage coverage current))
  | .functionRemoved entry coverage, .functionRemoved _ current =>
    some (.functionRemoved entry (mergeCoverage coverage current))
  | previous, _ => some previous

/-- `ChangeStaging::add_metadata` (`mod.rs:247-258`); the loop goes over the bits of the kind. -/
def addMetadata (staging : ChangeStaging) (record : ChangeRecord) : ChangeStaging :=
  { staging with
    kindCounts := fun i => staging.kindCounts i + (record.kind.getLsbD i).toNat
    kinds := staging.kinds ||| record.kind
    semanticCount := staging.semanticCount + record.affectsLiftedInputs.toNat }

/-- The kinds that remain of a set once a record of a kind is gone: the loop of `remove_metadata`
takes the bits away whose count becomes zero. -/
def remainingKinds (counts : Fin 32 → Nat) (kind kinds : ChangeKinds) : ChangeKinds :=
  (List.finRange 32).foldl (fun kinds (i : Fin 32) =>
    if kind.getLsbD i && counts i - 1 == 0 then kinds.difference (.twoPow 32 i) else kinds) kinds

/-- `ChangeStaging::remove_metadata` (`mod.rs:260-278`). -/
def removeMetadata (staging : ChangeStaging) (record : ChangeRecord) : Option ChangeStaging :=
  if (∀ i : Fin 32, (record.kind.getLsbD i).toNat ≤ staging.kindCounts i) ∧
      record.affectsLiftedInputs.toNat ≤ staging.semanticCount then
    some { staging with
      kindCounts := fun i => staging.kindCounts i - (record.kind.getLsbD i).toNat
      kinds := remainingKinds staging.kindCounts record.kind staging.kinds
      semanticCount := staging.semanticCount - record.affectsLiftedInputs.toNat }
  else none

/-- The record that a push is merged into: its key and its position. -/
def existing (staging : ChangeStaging) (record : ChangeRecord) : Option (StagedChangeKey × Nat) := do
  let key ← forRecord record
  let index ← staging.indices key
  return (key, index)

/-- The index after the record of a key was removed from a position (`mod.rs:121-128`). -/
def indicesAfter (indices : StagedChangeKey → Option Nat) (key : StagedChangeKey) (index : Nat)
    (moved : Option ChangeRecord) : StagedChangeKey → Option Nat :=
  let indices := Function.update indices key none
  match moved.bind forRecord with
  | some key => if (indices key).isSome then Function.update indices key (some index) else indices
  | none => indices

/-- The branch of `push` that merges a record into the one of its key (`mod.rs:106-132`). -/
def pushExisting (staging : ChangeStaging) (record : ChangeRecord) (key : StagedChangeKey)
    (index : Nat) : Option ChangeStaging := do
  let previous ← staging.records[index]?
  let staging ← staging.removeMetadata previous
  match coalesce previous record with
  | some record =>
    return { staging.addMetadata record with records := staging.records.set index record }
  | none =>
    let records := swapRemove staging.records index
    return { staging with
      records, indices := indicesAfter staging.indices key index records[index]? }

/-- The branch of `push` that appends a record (`mod.rs:145-151`). -/
def append (staging : ChangeStaging) (record : ChangeRecord) : ChangeStaging :=
  { staging.addMetadata record with
    indices := match forRecord record with
      | some key => Function.update staging.indices key (some staging.records.length)
      | none => staging.indices
    records := staging.records ++ [record] }

/-- The branch of `push` that collapses the staging (`mod.rs:135-144`). -/
def collapse (staging : ChangeStaging) (record : ChangeRecord) : ChangeStaging where
  collapsed := true
  indices := fun _ => none
  kindCounts := fun _ => 0
  kinds := staging.kinds ||| record.kind
  records := [.resynchronise 0]
  semanticCount := staging.semanticCount + record.affectsLiftedInputs.toNat

/-- `ChangeStaging::push` (`mod.rs:99-152`). -/
def push (staging : ChangeStaging) (record : ChangeRecord) : Option ChangeStaging :=
  if staging.collapsed then
    some { staging with
      kinds := staging.kinds ||| record.kind
      semanticCount := staging.semanticCount + record.affectsLiftedInputs.toNat }
  else
    match staging.existing record with
    | some (key, index) => staging.pushExisting record key index
    | none =>
      if staging.records.length = maxDetailedChangeRecords then some (staging.collapse record)
      else some (staging.append record)

/-- `ChangeStaging::finish` (`mod.rs:280-286`). -/
def finish (staging : ChangeStaging) (revision : Revision) (source : ChangeSource) : ChangeSet :=
  let records := if staging.collapsed then staging.records.set 0 (.resynchronise revision)
    else staging.records
  (ChangeSet.withRecords revision records).withProvenance source

variable (records : List ChangeRecord)

/-- The pushes of a transaction, from the empty staging on. -/
def stage : Option ChangeStaging := records.foldlM push new

/-- `push` without the limit: the records that a transaction stages, whether it is collapsed or
not. -/
def pushDetailed (staging : ChangeStaging) (record : ChangeRecord) : Option ChangeStaging :=
  match staging.existing record with
  | some (key, index) => staging.pushExisting record key index
  | none => some (staging.append record)

/-- The staging of a transaction without the limit. -/
def stageDetailed : Option ChangeStaging :=
  records.foldlM pushDetailed new

/-! ## Removal from a list -/

section SwapRemove

variable {α : Type} {list : List α} {index : Nat} {x : α}

theorem getElem?_swapRemove (found : list[index]? = some x) (j : Nat) :
    (swapRemove list index)[j]? = if j < list.length - 1 then
      if j = index then list.getLast? else list[j]? else none := by
  have lt := Lib.lt_of_getElem? found
  have nonempty : list ≠ [] := ne_nil_of_length_pos (by omega)
  rw [swapRemove, getLast?_eq_some_getLast nonempty]
  rw [getElem?_dropLast, length_set]
  split
  · rw [getElem?_set]
    by_cases same : j = index
    · subst same
      simp [lt]
    · rw [if_neg (Ne.symm same), if_neg same]
  · rfl

theorem length_swapRemove (found : list[index]? = some x) :
    (swapRemove list index).length = list.length - 1 := by
  have lt := Lib.lt_of_getElem? found
  rw [swapRemove, getLast?_eq_some_getLast (ne_nil_of_length_pos (by omega))]
  simp

theorem countP_swapRemove (p : α → Bool) (found : list[index]? = some x) :
    (swapRemove list index).countP p + (p x).toNat = list.countP p := by
  obtain ⟨lt, rfl⟩ := List.getElem?_eq_some_iff.mp found
  have nonempty : list ≠ [] := ne_nil_of_length_pos (by omega)
  rw [swapRemove, getLast?_eq_some_getLast nonempty]
  have nonempty' : list.set index (list.getLast nonempty) ≠ [] := by simpa using nonempty
  have last : (list.set index (list.getLast nonempty)).getLast nonempty' =
      list.getLast nonempty := by
    rw [getLast_eq_getElem, getElem_set]
    split
    · rfl
    · simp [getLast_eq_getElem]
  have whole := congrArg (List.countP p) (dropLast_concat_getLast nonempty')
  rw [countP_append, countP_set lt, last, countP_singleton] at whole
  have pos : p list[index] = true → 0 < list.countP p := fun holds =>
    countP_pos_iff.mpr ⟨_, getElem_mem lt, holds⟩
  cases holds : p list[index] with
  | false =>
    simp only [holds, false_eq_true, if_false, toNat_false] at whole ⊢
    omega
  | true =>
    simp only [holds, if_true, toNat_true] at whole ⊢
    have := pos holds
    omega

end SwapRemove

/-! ## The index and the counts -/

variable {staging staging' : ChangeStaging} {record previous : ChangeRecord}

/-- What holds of a staging that was not collapsed: the index gives the position of the record of
each key, and the counts are those of the records. -/
structure Detailed (staging : ChangeStaging) : Prop where
  indexed : ∀ key i, staging.indices key = some i ↔
    ∃ record, staging.records[i]? = some record ∧ forRecord record = some key
  counts : ∀ i : Fin 32, staging.kindCounts i =
    staging.records.countP fun record => record.kind.getLsbD i
  kinds : ∀ i : Fin 32, staging.kinds.getLsbD i = true ↔ 0 < staging.kindCounts i
  semantic : staging.semanticCount = staging.records.countP ChangeRecord.affectsLiftedInputs

theorem new_detailed : new.Detailed := by
  refine ⟨?_, by simp [new], by simp [new], by simp [new]⟩
  simp [new]

variable {key : StagedChangeKey}

theorem forRecord_coalesce {merged : ChangeRecord}
    (left : forRecord previous = some key) (call : coalesce previous record = some merged) :
    forRecord merged = some key := by
  unfold coalesce at call
  split at call <;> cases call <;> exact left

theorem getLsbD_foldl_difference (p : Fin 32 → Bool) (j : Fin 32) : ∀ (bits : List (Fin 32))
    (kinds : ChangeKinds),
    (bits.foldl (fun kinds (i : Fin 32) =>
      if p i then kinds.difference (.twoPow 32 i) else kinds) kinds).getLsbD j =
      (kinds.getLsbD j && !(decide (j ∈ bits) && p j))
  | [], kinds => by simp
  | bit :: bits, kinds => by
    rw [foldl_cons, getLsbD_foldl_difference p j bits]
    by_cases same : j = bit
    · subst same
      cases p j <;> simp [ChangeKinds.difference]
    · have ne : (j : Nat) ≠ bit := fun eq => same (Fin.ext eq)
      cases p bit <;> simp [same, ne, ChangeKinds.difference]

theorem getLsbD_remainingKinds {counts : Fin 32 → Nat} {kind kinds : ChangeKinds} (j : Fin 32) :
    (remainingKinds counts kind kinds).getLsbD j =
      (kinds.getLsbD j && !(kind.getLsbD j && counts j - 1 == 0)) := by
  rw [remainingKinds, getLsbD_foldl_difference (fun i => kind.getLsbD i && counts i - 1 == 0)]
  simp

/-- The counts, the kinds and the semantic count fit a list of records. -/
structure Metadata (staging : ChangeStaging) (records : List ChangeRecord) : Prop where
  counts : ∀ i : Fin 32, staging.kindCounts i = records.countP fun record => record.kind.getLsbD i
  kinds : ∀ i : Fin 32, staging.kinds.getLsbD i = true ↔ 0 < staging.kindCounts i
  semantic : staging.semanticCount = records.countP ChangeRecord.affectsLiftedInputs

theorem Detailed.metadata (detailed : staging.Detailed) : staging.Metadata staging.records :=
  ⟨detailed.counts, detailed.kinds, detailed.semantic⟩

theorem addMetadata_metadata {records records' : List ChangeRecord}
    (metadata : staging.Metadata records)
    (added : ∀ p : ChangeRecord → Bool, records'.countP p = records.countP p + (p record).toNat) :
    (staging.addMetadata record).Metadata records' := by
  refine ⟨?_, ?_, ?_⟩
  · intro i
    rw [added, ← metadata.counts]
    rfl
  · intro i
    have kinds := metadata.kinds i
    simp only [addMetadata, BitVec.getLsbD_or, or_eq_true, kinds]
    cases record.kind.getLsbD i <;> simp
  · rw [added, ← metadata.semantic]
    rfl

theorem removeMetadata_metadata {records records' : List ChangeRecord}
    (metadata : staging.Metadata records)
    (removed : ∀ p : ChangeRecord → Bool, records'.countP p + (p record).toNat = records.countP p) :
    ∃ staging', staging.removeMetadata record = some staging' ∧ staging'.Metadata records' ∧
      staging'.records = staging.records ∧ staging'.indices = staging.indices ∧
      staging'.collapsed = staging.collapsed := by
  have counts : ∀ i : Fin 32, (records'.countP fun record => record.kind.getLsbD i) +
      (record.kind.getLsbD i).toNat = staging.kindCounts i := by
    intro i
    rw [metadata.counts, ← removed]
  have semantic : records'.countP ChangeRecord.affectsLiftedInputs +
      record.affectsLiftedInputs.toNat = staging.semanticCount := by
    rw [metadata.semantic, ← removed]
  have enough : (∀ i : Fin 32, (record.kind.getLsbD i).toNat ≤ staging.kindCounts i) ∧
      record.affectsLiftedInputs.toNat ≤ staging.semanticCount := by
    refine ⟨fun i => ?_, by omega⟩
    have := counts i
    omega
  refine ⟨_, if_pos enough, ⟨?_, ?_, ?_⟩, rfl, rfl, rfl⟩
  · intro i
    have := counts i
    dsimp only
    omega
  · intro i
    have kinds := metadata.kinds i
    have count := counts i
    dsimp only
    rw [getLsbD_remainingKinds, and_eq_true, kinds]
    cases bit : record.kind.getLsbD i <;> simp at count ⊢
    omega
  · dsimp only
    omega

theorem getElem?_concat_eq_some {α : Type} {list : List α} {a x : α} {i : Nat} :
    (list ++ [a])[i]? = some x ↔ list[i]? = some x ∨ (i = list.length ∧ x = a) := by
  by_cases lt : i < list.length
  · rw [getElem?_append_left lt, or_iff_left]
    omega
  · rw [getElem?_append_right (by omega), getElem?_singleton,
      getElem?_eq_none (by omega)]
    by_cases eq : i = list.length
    · simp [eq, eq_comm]
    · rw [if_neg (by omega)]
      simp [eq]

section

variable (detailed : staging.Detailed)
include detailed

theorem append_detailed (fresh : staging.existing record = none) :
    (staging.append record).Detailed := by
  have metadata : (staging.addMetadata record).Metadata (staging.records ++ [record]) := by
    refine addMetadata_metadata detailed.metadata fun p => ?_
    rw [countP_append, countP_singleton]
    cases p record <;> rfl
  refine ⟨?_, metadata.counts, metadata.kinds, metadata.semantic⟩
  intro key i
  have old := detailed.indexed key i
  have right : (∃ other, (staging.records ++ [record])[i]? = some other ∧
      forRecord other = some key) ↔
      staging.indices key = some i ∨ (i = staging.records.length ∧ forRecord record = some key) := by
    rw [old]
    simp only [getElem?_concat_eq_some, or_and_right, exists_or]
    apply or_congr_right
    constructor
    · intro h
      obtain ⟨other, ⟨eq, rfl⟩, keyed⟩ := h
      exact ⟨eq, keyed⟩
    · intro h
      exact ⟨record, ⟨h.1, rfl⟩, h.2⟩
  dsimp only [append]
  rw [right]
  cases own : forRecord record with
  | none => simp
  | some ownKey =>
    by_cases same : key = ownKey
    · subst same
      have absent : staging.indices key = none := by
        cases found : staging.indices key with
        | none => rfl
        | some index => simp [existing, own, found] at fresh
      simp [absent, eq_comm]
    · have other : ¬ ownKey = key := fun eq => same eq.symm
      simp [update_of_ne same, other]

variable {index : Nat}

/-- The record of a key that is staged already. -/
theorem existing_eq_some (call : staging.existing record = some (key, index)) :
    forRecord record = some key ∧
      ∃ previous, staging.records[index]? = some previous ∧ forRecord previous = some key := by
  unfold existing at call
  cases own : forRecord record with
  | none => simp [own] at call
  | some ownKey =>
    cases found : staging.indices ownKey with
    | none => simp [own, found] at call
    | some position =>
      simp only [own, found, Option.pure_def, Lib.some_bind,
        Option.some.injEq, Prod.mk.injEq] at call
      obtain ⟨rfl, rfl⟩ := call
      exact ⟨rfl, (detailed.indexed ownKey position).mp found⟩

omit detailed in
theorem countP_set_toNat {α : Type} {list : List α} {x y : α} (p : α → Bool)
    (found : list[index]? = some x) :
    (list.set index y).countP p + (p x).toNat = list.countP p + (p y).toNat := by
  obtain ⟨lt, rfl⟩ := List.getElem?_eq_some_iff.mp found
  rw [countP_set lt]
  have pos : p list[index] = true → 0 < list.countP p := fun holds =>
    countP_pos_iff.mpr ⟨_, getElem_mem lt, holds⟩
  cases holds : p list[index] with
  | false => cases p y <;> simp
  | true =>
    have := pos holds
    cases p y <;> simp <;> omega

theorem Detailed.position_unique {i j : Nat}
    {left right : ChangeRecord} (at_ : staging.records[i]? = some left)
    (at_' : staging.records[j]? = some right) (keyed : forRecord left = some key)
    (keyed' : forRecord right = some key) : i = j := by
  have first := (detailed.indexed key i).mpr ⟨left, at_, keyed⟩
  have second := (detailed.indexed key j).mpr ⟨right, at_', keyed'⟩
  exact Option.some.inj (first.symm.trans second)

/-- The keys of the records that remain when one is removed: each keeps its position, but the last
record takes the removed one's. -/
theorem remains_iff
    (found : staging.records[index]? = some previous) (keyed : forRecord previous = some key)
    (other : StagedChangeKey) (i : Nat) :
    (∃ record, (swapRemove staging.records index)[i]? = some record ∧
      forRecord record = some other) ↔ other ≠ key ∧ ∃ j, staging.indices other = some j ∧
        i = if j = staging.records.length - 1 then index else j := by
  have lt := Lib.lt_of_getElem? found
  constructor
  · intro h
    obtain ⟨record, at_, k⟩ := h
    rw [getElem?_swapRemove found] at at_
    split at at_
    · split at at_
      · rename_i same
        rw [getLast?_eq_getElem?] at at_
        refine ⟨?_, staging.records.length - 1, (detailed.indexed _ _).mpr ⟨record, at_, k⟩, ?_⟩
        · intro eq
          subst eq
          have := detailed.position_unique at_ found k keyed
          omega
        · rw [if_pos rfl, same]
      · rename_i ne
        refine ⟨?_, i, (detailed.indexed _ _).mpr ⟨record, at_, k⟩, ?_⟩
        · intro eq
          subst eq
          exact ne (detailed.position_unique at_ found k keyed)
        · rw [if_neg (by omega)]
    · cases at_
  · intro h
    obtain ⟨ne, j, indexed, position⟩ := h
    obtain ⟨record, at_, k⟩ := (detailed.indexed other j).mp indexed
    have within := Lib.lt_of_getElem? at_
    have notIndex : j ≠ index := by
      intro eq
      rw [eq, found] at at_
      cases at_
      exact ne (Option.some.inj (k.symm.trans keyed))
    refine ⟨record, ?_, k⟩
    rw [getElem?_swapRemove found, position]
    split
    · rename_i last
      rw [if_pos (by omega), if_pos rfl, getLast?_eq_getElem?, ← last]
      exact at_
    · rw [if_pos (by omega)]
      exact at_

theorem indicesAfter_indexed
    (found : staging.records[index]? = some previous) (keyed : forRecord previous = some key)
    (other : StagedChangeKey) (i : Nat) :
    indicesAfter staging.indices key index (swapRemove staging.records index)[index]? other =
        some i ↔ ∃ record, (swapRemove staging.records index)[i]? = some record ∧
        forRecord record = some other := by
  have apart : ∀ {k j}, staging.indices k = some j → k ≠ key → j ≠ index := by
    intro k j indexed ne eq
    subst eq
    obtain ⟨record, at_, keyed'⟩ := (detailed.indexed k j).mp indexed
    rw [found] at at_
    cases at_
    exact ne (Option.some.inj (keyed'.symm.trans keyed))
  -- a key that does not stand last keeps its position
  have keeps : other ≠ key → staging.indices other ≠ some (staging.records.length - 1) →
      (staging.indices other = some i ↔ other ≠ key ∧ ∃ j, staging.indices other = some j ∧
        i = if j = staging.records.length - 1 then index else j) := by
    intro ne notLast
    constructor
    · intro indexed
      refine ⟨ne, i, indexed, (if_neg ?_).symm⟩
      intro eq
      exact notLast (eq ▸ indexed)
    · intro h
      obtain ⟨-, j, indexed, position⟩ := h
      have notLast' : j ≠ staging.records.length - 1 := by
        intro eq
        exact notLast (eq ▸ indexed)
      rw [if_neg notLast'] at position
      exact position ▸ indexed
  rw [remains_iff detailed found keyed]
  unfold indicesAfter
  cases moved : (swapRemove staging.records index)[index]?.bind forRecord with
  | none =>
    by_cases same : other = key
    · simp [same]
    · dsimp only
      rw [update_of_ne same]
      refine keeps same fun last => ?_
      obtain ⟨record, at_, keyed'⟩ := (remains_iff detailed found keyed other index).mpr
        ⟨same, _, last, (if_pos rfl).symm⟩
      simp [at_, keyed'] at moved
  | some k =>
    obtain ⟨record, at_, keyed'⟩ := bind_eq_some_iff.mp moved
    obtain ⟨ne, j, indexed, position⟩ :=
      (remains_iff detailed found keyed k index).mp ⟨record, at_, keyed'⟩
    have last : staging.indices k = some (staging.records.length - 1) := by
      by_cases eq : j = staging.records.length - 1
      · exact eq ▸ indexed
      · rw [if_neg eq] at position
        exact absurd position.symm (apart indexed ne)
    dsimp only
    rw [if_pos (by rw [update_of_ne ne, last]; rfl)]
    by_cases same : other = k
    · subst same
      simp [ne, last, eq_comm]
    · rw [update_of_ne same]
      by_cases same' : other = key
      · simp [same']
      · rw [update_of_ne same']
        refine keeps same' fun last' => ?_
        obtain ⟨left, leftAt, leftKey⟩ := (detailed.indexed _ _).mp last
        obtain ⟨right, rightAt, rightKey⟩ := (detailed.indexed _ _).mp last'
        rw [leftAt] at rightAt
        cases rightAt
        exact same (Option.some.inj (rightKey.symm.trans leftKey))

theorem pushExisting_detailed (call : staging.existing record = some (key, index)) :
    ∃ staging', staging.pushExisting record key index = some staging' ∧ staging'.Detailed ∧
      staging'.collapsed = staging.collapsed ∧
      staging'.records.length ≤ staging.records.length := by
  obtain ⟨own, previous, found, keyed⟩ := existing_eq_some detailed call
  obtain ⟨reduced, removes, metadata, records, indices, collapsed⟩ :=
    @removeMetadata_metadata staging previous _ _ detailed.metadata
      fun p => countP_swapRemove p found
  unfold pushExisting
  rw [found, Lib.some_bind, removes, Lib.some_bind]
  cases merged : coalesce previous record with
  | some result =>
    have metadata' : (reduced.addMetadata result).Metadata (staging.records.set index result) := by
      refine addMetadata_metadata metadata fun p => ?_
      have left := countP_swapRemove p found
      have right := @countP_set_toNat _ _ _ _ result p found
      omega
    refine ⟨_, rfl, ⟨?_, ?_, metadata'.kinds, ?_⟩, collapsed, ?_⟩
    · intro key' i
      dsimp only [addMetadata]
      rw [indices, records, detailed.indexed]
      have lt := Lib.lt_of_getElem? found
      by_cases same : i = index
      · subst same
        rw [getElem?_set_self lt, found]
        simp [Option.some.injEq, exists_eq_left', keyed, forRecord_coalesce keyed merged]
      · rw [getElem?_set_ne (Ne.symm same)]
    · intro i
      rw [metadata'.counts, records]
    · rw [records]
      exact metadata'.semantic
    · rw [records, length_set]
  | none =>
    refine ⟨_, rfl, ⟨?_, ?_, metadata.kinds, ?_⟩, collapsed, ?_⟩
    · intro key' i
      rw [indices, records, indicesAfter_indexed detailed found keyed]
    · intro i
      rw [metadata.counts, records]
    · rw [records]
      exact metadata.semantic
    · rw [records, length_swapRemove found]
      omega

end

/-! ## Pushes -/

/-- What holds of a staging at any time. -/
structure Inv (staging : ChangeStaging) : Prop where
  detailed : staging.collapsed = false →
    staging.Detailed ∧ staging.records.length ≤ maxDetailedChangeRecords
  collapsed : staging.collapsed = true → staging.records = [.resynchronise 0]

theorem new_inv : new.Inv :=
  ⟨fun _ => ⟨new_detailed, Nat.zero_le _⟩, fun collapsed => Bool.noConfusion collapsed⟩

/-- No push fails, and the invariant is kept. A push that leaves the staging detailed is the one
without the limit. -/
theorem push_spec (inv : staging.Inv) (record : ChangeRecord) :
    ∃ staging', staging.push record = some staging' ∧ staging'.Inv ∧
      (staging'.collapsed = false →
        staging.collapsed = false ∧ staging.pushDetailed record = some staging') := by
  cases collapsed : staging.collapsed with
  | true =>
    refine ⟨_, if_pos collapsed, ⟨?_, ?_⟩, ?_⟩
    · intro detailed
      exact absurd (collapsed.symm.trans detailed) Bool.noConfusion
    · intro _
      exact inv.collapsed collapsed
    · intro detailed
      exact absurd (collapsed.symm.trans detailed) Bool.noConfusion
  | false =>
    obtain ⟨detailed, bound⟩ := inv.detailed collapsed
    unfold push pushDetailed
    rw [collapsed]
    cases found : staging.existing record with
    | some entry =>
      obtain ⟨staging', call, detailed', same, length⟩ := pushExisting_detailed detailed found
      refine ⟨staging', call, ⟨fun _ => ⟨detailed', length.trans bound⟩, ?_⟩, fun _ => ⟨rfl, call⟩⟩
      intro collapsed'
      rw [same, collapsed] at collapsed'
      cases collapsed'
    | none =>
      by_cases full : staging.records.length = maxDetailedChangeRecords
      · refine ⟨staging.collapse record, by simp [full], ⟨?_, fun _ => rfl⟩, ?_⟩
        · intro detailed'
          cases detailed'
        · intro detailed'
          cases detailed'
      · refine ⟨staging.append record, by simp [full], ⟨fun _ => ⟨?_, ?_⟩, ?_⟩, fun _ => ⟨rfl, rfl⟩⟩
        · exact append_detailed detailed found
        · simp only [append, addMetadata, length_append, length_singleton]
          omega
        · intro collapsed'
          exact absurd (collapsed.symm.trans collapsed') Bool.noConfusion

theorem foldlM_push_spec : ∀ (records : List ChangeRecord) {staging : ChangeStaging}, staging.Inv →
    ∃ staging', records.foldlM push staging = some staging' ∧ staging'.Inv ∧
      (staging'.collapsed = false →
        staging.collapsed = false ∧ records.foldlM pushDetailed staging = some staging')
  | [], staging, inv => ⟨staging, rfl, inv, fun detailed => ⟨detailed, rfl⟩⟩
  | record :: records, staging, inv => by
    obtain ⟨middle, first, inv', same⟩ := push_spec inv record
    obtain ⟨staging', rest, inv'', same'⟩ := foldlM_push_spec records inv'
    refine ⟨staging', ?_, inv'', ?_⟩
    · rw [foldlM_cons, first]
      exact rest
    · intro detailed
      obtain ⟨before, restDetailed⟩ := same' detailed
      obtain ⟨start, firstDetailed⟩ := same before
      refine ⟨start, ?_⟩
      rw [foldlM_cons, firstDetailed]
      exact restDetailed

theorem stage_spec :
    ∃ staging, stage records = some staging ∧ staging.Inv ∧
      (staging.collapsed = false → stageDetailed records = some staging) := by
  obtain ⟨staging, call, inv, same⟩ := foldlM_push_spec records new_inv
  exact ⟨staging, call, inv, fun detailed => (same detailed).2⟩

/-- The transaction never stages more records than are kept in detail. -/
def Fits : Prop :=
  ∀ early, early <+: records → ∀ staging, stageDetailed early = some staging →
    staging.records.length ≤ maxDetailedChangeRecords

theorem push_of_pushDetailed {staging' : ChangeStaging} (inv : staging.Inv)
    (collapsed : staging.collapsed = false) (call : staging.pushDetailed record = some staging')
    (bound : staging'.records.length ≤ maxDetailedChangeRecords) :
    staging.push record = some staging' ∧ staging'.collapsed = false := by
  obtain ⟨detailed, -⟩ := inv.detailed collapsed
  unfold pushDetailed at call
  unfold push
  rw [collapsed]
  cases found : staging.existing record with
  | some entry =>
    obtain ⟨_, call', -, same, -⟩ := pushExisting_detailed detailed found
    rw [found] at call
    dsimp only at call
    rw [call] at call'
    cases call'
    exact ⟨call, same.trans collapsed⟩
  | none =>
    rw [found] at call
    cases call
    have length : (staging.append record).records.length = staging.records.length + 1 := by
      simp [append, addMetadata]
    have room : staging.records.length ≠ maxDetailedChangeRecords := by omega
    refine ⟨?_, collapsed⟩
    rw [if_neg Bool.false_ne_true, if_neg room]

theorem foldlM_push_of_fits : ∀ (records : List ChangeRecord) {staging staging' : ChangeStaging},
    staging.Inv → staging.collapsed = false →
    (∀ early, early <+: records → ∀ middle, early.foldlM pushDetailed staging = some middle →
      middle.records.length ≤ maxDetailedChangeRecords) →
    records.foldlM pushDetailed staging = some staging' →
    records.foldlM push staging = some staging' ∧ staging'.collapsed = false
  | [], staging, staging', _, collapsed, _, call => by
    cases call
    exact ⟨rfl, collapsed⟩
  | record :: records, staging, staging', inv, collapsed, fits, call => by
    obtain ⟨middle, first, rest⟩ := bind_eq_some_iff.mp call
    have bound : middle.records.length ≤ maxDetailedChangeRecords := by
      refine fits [record] ⟨records, rfl⟩ middle ?_
      rw [foldlM_cons, first]
      rfl
    obtain ⟨push, collapsed'⟩ := push_of_pushDetailed inv collapsed first bound
    obtain ⟨_, push', inv', -⟩ := push_spec inv record
    rw [push] at push'
    cases push'
    rw [foldlM_cons, push]
    refine foldlM_push_of_fits records inv' collapsed' ?_ rest
    intro early shorter late lateCall
    apply fits (record :: early) (prefix_cons_inj record |>.mpr shorter) late
    rw [foldlM_cons, first]
    exact lateCall

/-- A transaction within the limit is not collapsed. -/
theorem stage_of_fits {records : List ChangeRecord} (fits : Fits records)
    (call : stageDetailed records = some staging) :
    stage records = some staging ∧ staging.collapsed = false :=
  foldlM_push_of_fits records new_inv rfl fits call

theorem existing_unkeyed (staging : ChangeStaging) (unkeyed : forRecord record = none) :
    staging.existing record = none := by
  simp [existing, unkeyed]

theorem foldlM_push_unkeyed : ∀ (records : List ChangeRecord) {staging : ChangeStaging},
    (∀ record ∈ records, forRecord record = none) → staging.collapsed = false →
    staging.records.length + records.length ≤ maxDetailedChangeRecords →
    ∃ staging', records.foldlM push staging = some staging' ∧ staging'.collapsed = false ∧
      staging'.records = staging.records ++ records
  | [], staging, _, collapsed, _ => ⟨staging, rfl, collapsed, (append_nil _).symm⟩
  | record :: records, staging, unkeyed, collapsed, bound => by
    obtain ⟨own, rest⟩ := forall_mem_cons.mp unkeyed
    rw [length_cons] at bound
    have first : staging.push record = some (staging.append record) := by
      unfold push
      rw [collapsed, existing_unkeyed staging own]
      simp only [false_eq_true, if_false]
      exact if_neg (by omega)
    have appended : (staging.append record).records = staging.records ++ [record] := rfl
    obtain ⟨staging', call, collapsed', all⟩ := @foldlM_push_unkeyed records
      (staging.append record) rest collapsed (by
        rw [appended, length_append, length_singleton]
        omega)
    refine ⟨staging', ?_, collapsed', ?_⟩
    · rw [foldlM_cons, first]
      exact call
    · rw [all, appended, append_assoc, singleton_append]

/-- Records without a key, one more than the limit, collapse the staging. -/
theorem stage_unkeyed_collapses {records : List ChangeRecord}
    (unkeyed : ∀ record ∈ records, forRecord record = none)
    (full : records.length = maxDetailedChangeRecords) (last : forRecord record = none) :
    ∃ staging, stage (records ++ [record]) = some staging ∧ staging.collapsed = true ∧
      staging.records = [.resynchronise 0] := by
  obtain ⟨staging, call, collapsed, all⟩ := @foldlM_push_unkeyed records new unkeyed
    rfl (by simp [new, full])
  have length : staging.records.length = maxDetailedChangeRecords := by
    rw [all]
    simpa [new] using full
  refine ⟨staging.collapse record, ?_, rfl, rfl⟩
  unfold stage
  rw [foldlM_append, call]
  simp only [Lib.some_bind, foldlM_cons, foldlM_nil]
  unfold push
  rw [collapsed, existing_unkeyed staging last]
  simp [length]

/-- Without the limit, records without a key are all kept. -/
theorem foldlM_pushDetailed_unkeyed : ∀ (records : List ChangeRecord) {staging : ChangeStaging},
    (∀ record ∈ records, forRecord record = none) →
    ∃ staging', records.foldlM pushDetailed staging = some staging' ∧
      staging'.records = staging.records ++ records
  | [], staging, _ => ⟨staging, rfl, (append_nil _).symm⟩
  | record :: records, staging, unkeyed => by
    obtain ⟨own, rest⟩ := forall_mem_cons.mp unkeyed
    have first : staging.pushDetailed record = some (staging.append record) := by
      unfold pushDetailed
      rw [existing_unkeyed staging own]
    obtain ⟨staging', call, all⟩ := @foldlM_pushDetailed_unkeyed records
      (staging.append record) rest
    refine ⟨staging', ?_, ?_⟩
    · rw [foldlM_cons, first]
      exact call
    · rw [all, show (staging.append record).records = staging.records ++ [record] from rfl,
        append_assoc, singleton_append]

end ChangeStaging

end Fugue.Project
