import Fugue.Project.ChangeStaging

/-!
# What coalescing keeps

`ChangeStaging::coalesce` merges two records of one key by a table of constructor pairs. `Describes`
says what the one record of a function is to tell about the records that were pushed for it, and
`Stands` what a staged record is to tell about a pushed one of another kind. Three entries of the
table lose something: the last one, which drops the ranges of a second change of a segment mapping,
the one that makes two changes of a function that are not of its body a change of its properties,
and the one that merges an addition into a change of properties. `Composable` leaves them out.
-/

namespace Fugue.Project

open Fugue.Ir Fugue.Engine

namespace ChangeRecord

@[simp]
def addsFunction : ChangeRecord → Bool
  | .functionAdded _ _ => true
  | _ => false

@[simp]
def removesFunction : ChangeRecord → Bool
  | .functionRemoved _ _ => true
  | _ => false

@[simp]
def functionChange? : ChangeRecord → Option FunctionChangeKind
  | .functionChanged _ kind _ => some kind
  | _ => none

@[simp]
def coverage : ChangeRecord → AddressRangeSet
  | .functionAdded _ coverage | .functionChanged _ _ coverage | .functionRemoved _ coverage =>
    coverage
  | _ => .new

/-- The record is about a segment or the bytes of one. -/
def ofSegment : ChangeRecord → Bool
  | .bytesWritten _ | .segmentMapped _ _ | .segmentMappingChanged _ _ | .segmentMappingCreated _
  | .segmentUnmapped _ _ => true
  | _ => false

end ChangeRecord

/-- Every address of the range is in one of the ranges. -/
def Covered (range : AddressRange) (ranges : List AddressRange) : Prop :=
  ∀ address, range.Contains address → ∃ other ∈ ranges, other.Contains address

namespace ChangeStaging

open StagedChangeKey ChangeRecord

/-- The pushes for a function with one more: an added function that is removed leaves none. -/
def pendingPush (pushes : List ChangeRecord) (record : ChangeRecord) : List ChangeRecord :=
  if pushes.head?.any addsFunction && record.removesFunction then [] else pushes ++ [record]

def pushesFor (entry : Address) (records : List ChangeRecord) : List ChangeRecord :=
  records.filter fun record => forRecord record == some (.function entry)

/-- The pushes for a function since an addition of it was last taken back by a removal. -/
def pending (entry : Address) (records : List ChangeRecord) : List ChangeRecord :=
  (pushesFor entry records).foldl pendingPush []

/-- The record of a function tells the composition of the pushes: an addition stays an addition, what
is removed last is removed, and all else is a change, of the body if the function was removed in
between or its body changed. Its coverage is the union of theirs. -/
structure Describes (pushes : List ChangeRecord) (record : ChangeRecord) : Prop where
  nonempty : pushes ≠ []
  added : record.addsFunction = true ↔ pushes.head?.any addsFunction = true
  removed : record.removesFunction = true ↔
    pushes.head?.any addsFunction = false ∧ pushes.getLast?.any removesFunction = true
  body : record.functionChange? = some .body ↔
    pushes.head?.any addsFunction = false ∧ pushes.getLast?.any removesFunction = false ∧
      ∃ push ∈ pushes, push.removesFunction = true ∨ push.functionChange? = some .body
  kind : ∀ kind, record.functionChange? = some kind → kind ≠ .body →
    ∀ push ∈ pushes, ∀ other, push.functionChange? = some other → other = kind
  coverage : ∀ address, record.coverage.Contains address ↔
    ∃ push ∈ pushes, push.coverage.Contains address
  semantic : (∃ push ∈ pushes, push.affectsLiftedInputs = true) →
    record.affectsLiftedInputs = true

/-- A staged record stands for a pushed one: it is the same, or it is the change of the same mapping
and has its ranges. -/
def Stands (staged record : ChangeRecord) : Prop :=
  staged = record ∨ ∃ mapping ranges pushed, staged = .segmentMappingChanged mapping ranges ∧
    record = .segmentMappingChanged mapping pushed ∧ ∀ range ∈ pushed, Covered range ranges

/-- The table of `coalesce` loses nothing of the two records. -/
def Composable : ChangeRecord → ChangeRecord → Prop
  | .segmentMappingChanged _ staged, .segmentMappingChanged _ ranges =>
    ∀ range ∈ ranges, Covered range staged
  | .functionChanged _ kind _, .functionChanged _ current _ =>
    kind = .body ∨ current = .body ∨ (kind = .properties ∧ current = .properties)
  | .functionChanged _ kind _, .functionAdded _ _ => kind ≠ .properties
  | _, _ => True

/-- The push loses nothing of the record that is staged under its key. -/
def Lossless (staging : ChangeStaging) (record : ChangeRecord) : Prop :=
  ∀ previous ∈ staging.records, forRecord previous = forRecord record →
    forRecord record ≠ none → Composable previous record

variable {staging staging' : ChangeStaging} {record previous : ChangeRecord}
  {pushes : List ChangeRecord} {entry : Address}

section Functions

variable {coverage : AddressRangeSet}

@[simp]
theorem affects_functionAdded :
    (functionAdded entry coverage).affectsLiftedInputs = true := rfl

@[simp]
theorem affects_functionRemoved :
    (functionRemoved entry coverage).affectsLiftedInputs = true := rfl

@[simp]
theorem affects_functionChanged {kind : FunctionChangeKind} :
    (functionChanged entry kind coverage).affectsLiftedInputs = true ↔ kind ≠ .properties := by
  cases kind <;> simp [affectsLiftedInputs]

@[simp]
theorem contains_mergeCoverage {left right : AddressRangeSet} {address : Address} :
    (mergeCoverage left right).Contains address ↔ left.Contains address ∨ right.Contains address := by
  rw [mergeCoverage, AddressRangeSet.contains_insertRanges_ranges, or_comm]

theorem Describes.single (keyed : forRecord record = some (.function entry)) :
    Describes [record] record := by
  cases record with
  | functionAdded entry coverage =>
    constructor <;> simp [addsFunction, removesFunction, functionChange?]
  | functionChanged entry kind coverage =>
    constructor <;> simp [addsFunction, removesFunction, functionChange?]
  | functionRemoved entry coverage =>
    constructor <;> simp [addsFunction, removesFunction, functionChange?]
  | _ => simp [forRecord] at keyed

variable (describes : Describes pushes previous)
include describes

theorem Describes.head_added :
    pushes.head?.any addsFunction = previous.addsFunction :=
  Bool.eq_iff_iff.mpr describes.added.symm

theorem Describes.exists_body (changed : previous.addsFunction = false) :
    (∃ push ∈ pushes, push.removesFunction = true ∨ push.functionChange? = some .body) ↔
      previous.removesFunction = true ∨ previous.functionChange? = some .body := by
  have head := describes.head_added.trans changed
  rw [describes.removed, describes.body, head]
  cases last : pushes.getLast?.any removesFunction with
  | true =>
    obtain ⟨push, found, removes⟩ := (Option.any_eq_true _ _).mp last
    have mem := List.mem_of_getLast? found
    simp only [and_self, true_or, iff_true]
    exact ⟨push, mem, .inl removes⟩
  | false => simp

theorem Describes.snoc {result : ChangeRecord} (added : result.addsFunction = previous.addsFunction)
    (removed : result.removesFunction = true ↔
      previous.addsFunction = false ∧ record.removesFunction = true)
    (body : result.functionChange? = some .body ↔
      previous.addsFunction = false ∧ record.removesFunction = false ∧
        ((previous.removesFunction = true ∨ previous.functionChange? = some .body) ∨
          record.functionChange? = some .body))
    (kind : ∀ kind, result.functionChange? = some kind → kind ≠ .body →
      previous.functionChange? = some kind ∧
        ∀ other, record.functionChange? = some other → other = kind)
    (coverage : ∀ address, result.coverage.Contains address ↔
      previous.coverage.Contains address ∨ record.coverage.Contains address)
    (semantic : previous.affectsLiftedInputs = true ∨ record.affectsLiftedInputs = true →
      result.affectsLiftedInputs = true) :
    Describes (pushes ++ [record]) result := by
  have head : (pushes ++ [record]).head?.any addsFunction = previous.addsFunction := by
    rw [List.head?_append_of_ne_nil _ describes.nonempty, describes.head_added]
  have last : (pushes ++ [record]).getLast?.any removesFunction = record.removesFunction := by
    rw [List.getLast?_concat]
    rfl
  have some_push : ∀ {p : ChangeRecord → Prop},
      (∃ push ∈ pushes ++ [record], p push) ↔ (∃ push ∈ pushes, p push) ∨ p record := by
    intro p
    simp [List.mem_append, or_and_right, exists_or]
  refine ⟨by simp, ?_, ?_, ?_, ?_, ?_, ?_⟩
  · rw [head, added]
  · rw [head, last, removed]
  · rw [head, last, body, some_push]
    refine and_congr_right fun changed => and_congr_right fun stays => ?_
    rw [describes.exists_body changed, stays]
    simp
  · intro k found ne push mem other isOther
    obtain ⟨before, now⟩ := kind k found ne
    rcases List.mem_append.mp mem with mem | mem
    · exact describes.kind k before ne push mem other isOther
    · rw [List.mem_singleton.mp mem] at isOther
      exact now other isOther
  · intro address
    rw [coverage, some_push, describes.coverage]
  · intro affecting
    rcases some_push.mp affecting with before | now
    · exact semantic (.inl (describes.semantic before))
    · exact semantic (.inr now)

/-- Merging a push into the record that describes the earlier ones: the two leave none, or the result
describes one push more. The cases are the rows of the table. -/
theorem Describes.coalesce (keyed : forRecord previous = some (.function entry))
    (keyed' : forRecord record = some (.function entry)) (composable : Composable previous record) :
    match ChangeStaging.coalesce previous record with
    | some result =>
      pendingPush pushes record = pushes ++ [record] ∧ Describes (pushes ++ [record]) result
    | none => pendingPush pushes record = [] := by
  have head := describes.head_added
  cases previous with
  | functionAdded _ before =>
    cases record with
    | functionAdded _ now =>
      refine ⟨by simp [pendingPush], describes.snoc ?_ ?_ ?_ ?_ ?_ ?_⟩ <;> simp
    | functionChanged _ kind now =>
      refine ⟨by simp [pendingPush], describes.snoc ?_ ?_ ?_ ?_ ?_ ?_⟩ <;> simp
    | functionRemoved _ now => simp [ChangeStaging.coalesce, pendingPush, head]
    | _ => simp [forRecord] at keyed'
  | functionChanged _ kind before =>
    cases record with
    | functionAdded _ now =>
      -- a change of properties would hide the addition
      have semantic : kind ≠ .properties := composable
      refine ⟨by simp [pendingPush], describes.snoc ?_ ?_ ?_ ?_ ?_ ?_⟩ <;> simp [semantic]
    | functionChanged _ current now =>
      have semantic : kind = .body ∨ current = .body ∨
        (kind = .properties ∧ current = .properties) := composable
      refine ⟨by simp [pendingPush], describes.snoc ?_ ?_ ?_ ?_ ?_ ?_⟩ <;> simp
      · tauto
      · rcases semantic with rfl | rfl | ⟨rfl, rfl⟩ <;> simp
      · rcases semantic with rfl | rfl | ⟨rfl, rfl⟩ <;> simp
    | functionRemoved _ now =>
      refine ⟨by simp [pendingPush, head], describes.snoc ?_ ?_ ?_ ?_ ?_ ?_⟩ <;> simp
    | _ => simp [forRecord] at keyed'
  | functionRemoved _ before =>
    cases record with
    | functionAdded _ now =>
      refine ⟨by simp [pendingPush], describes.snoc ?_ ?_ ?_ ?_ ?_ ?_⟩ <;> simp
    | functionChanged _ kind now =>
      refine ⟨by simp [pendingPush], describes.snoc ?_ ?_ ?_ ?_ ?_ ?_⟩ <;> simp
    | functionRemoved _ now =>
      refine ⟨by simp [pendingPush, head], describes.snoc ?_ ?_ ?_ ?_ ?_ ?_⟩ <;> simp
    | _ => simp [forRecord] at keyed'
  | _ => simp [forRecord] at keyed

end Functions

section Pushes

theorem mem_set_iff {α : Type} {list : List α} {index : Nat} {x y z : α}
    (found : list[index]? = some y) :
    x ∈ list.set index z ↔ x = z ∨ ∃ j, j ≠ index ∧ list[j]? = some x := by
  have lt := Lib.lt_of_getElem? found
  rw [List.mem_iff_getElem?]
  constructor
  · intro ⟨j, at_⟩
    by_cases same : j = index
    · subst same
      rw [List.getElem?_set_self lt] at at_
      exact .inl (Option.some.inj at_).symm
    · rw [List.getElem?_set_ne (Ne.symm same)] at at_
      exact .inr ⟨j, same, at_⟩
  · rintro (rfl | ⟨j, ne, at_⟩)
    · exact ⟨index, List.getElem?_set_self lt⟩
    · exact ⟨j, by rw [List.getElem?_set_ne (Ne.symm ne), at_]⟩

theorem mem_swapRemove_iff {α : Type} {list : List α} {index : Nat} {x y : α}
    (found : list[index]? = some y) :
    x ∈ swapRemove list index ↔ ∃ j, j ≠ index ∧ list[j]? = some x := by
  have lt := Lib.lt_of_getElem? found
  rw [List.mem_iff_getElem?]
  constructor
  · intro ⟨j, at_⟩
    rw [getElem?_swapRemove found] at at_
    split at at_
    · split at at_
      · rw [List.getLast?_eq_getElem?] at at_
        exact ⟨list.length - 1, by omega, at_⟩
      · rename_i ne
        exact ⟨j, ne, at_⟩
    · cases at_
  · intro ⟨j, ne, at_⟩
    have within := Lib.lt_of_getElem? at_
    by_cases last : j = list.length - 1
    · refine ⟨index, ?_⟩
      rw [getElem?_swapRemove found, if_pos (by omega), if_pos rfl, List.getLast?_eq_getElem?,
        ← last, at_]
    · exact ⟨j, by rw [getElem?_swapRemove found, if_pos (by omega), if_neg ne, at_]⟩

variable {key : StagedChangeKey}

theorem Detailed.mem_other_iff (detailed : staging.Detailed) {index : Nat}
    (found : staging.records[index]? = some previous) (keyed : forRecord previous = some key)
    {x : ChangeRecord} : (∃ j, j ≠ index ∧ staging.records[j]? = some x) ↔
      x ∈ staging.records ∧ forRecord x ≠ some key := by
  constructor
  · intro ⟨j, ne, at_⟩
    exact ⟨List.mem_of_getElem? at_, fun same =>
      ne (detailed.position_unique at_ found same keyed)⟩
  · intro ⟨mem, other⟩
    obtain ⟨j, at_⟩ := List.mem_iff_getElem?.mp mem
    refine ⟨j, ?_, at_⟩
    rintro rfl
    rw [found] at at_
    cases at_
    exact other keyed

theorem removeMetadata_records (call : staging.removeMetadata record = some staging') :
    staging'.records = staging.records := by
  unfold removeMetadata at call
  split at call
  · cases call
    rfl
  · cases call

/-- What a push does to the records: it adds its own, or the result of merging its own into the one
of its key takes the place of that. -/
theorem pushDetailed_cases (detailed : staging.Detailed)
    (call : staging.pushDetailed record = some staging') :
    ((∀ key, forRecord record = some key → ∀ x ∈ staging.records, forRecord x ≠ some key) ∧
      ∀ x, x ∈ staging'.records ↔ x ∈ staging.records ∨ x = record) ∨
    ∃ key, ∃ previous ∈ staging.records, forRecord record = some key ∧
      forRecord previous = some key ∧
      ∀ x, x ∈ staging'.records ↔
        (x ∈ staging.records ∧ forRecord x ≠ some key) ∨ coalesce previous record = some x := by
  unfold pushDetailed at call
  cases present : staging.existing record with
  | none =>
    rw [present] at call
    cases call
    refine .inl ⟨?_, fun x => by simp [append]⟩
    intro key own x mem keyed
    obtain ⟨i, at_⟩ := List.mem_iff_getElem?.mp mem
    have indexed := (detailed.indexed key i).mpr ⟨x, at_, keyed⟩
    simp [existing, own, indexed] at present
  | some entry =>
    obtain ⟨key, index⟩ := entry
    rw [present] at call
    obtain ⟨own, previous, found, keyed⟩ := existing_eq_some detailed present
    refine .inr ⟨key, previous, List.mem_of_getElem? found, own, keyed, fun x => ?_⟩
    dsimp only [pushExisting] at call
    rw [found, Lib.some_bind] at call
    obtain ⟨reduced, removes, call⟩ := Option.bind_eq_some_iff.mp call
    have same := removeMetadata_records removes
    rw [← detailed.mem_other_iff found keyed]
    cases merged : coalesce previous record with
    | some result =>
      rw [merged] at call
      cases call
      rw [same, mem_set_iff found, or_comm, Option.some.injEq, @eq_comm _ result]
    | none =>
      rw [merged] at call
      cases call
      rw [same, mem_swapRemove_iff found]
      simp

theorem coalesce_other (keyed : forRecord previous = some key)
    (other : ∀ entry, key ≠ .function entry) : coalesce previous record = some previous := by
  cases previous with
  | functionAdded entry _ => exact absurd (Option.some.inj keyed).symm (other entry)
  | functionChanged entry _ _ => exact absurd (Option.some.inj keyed).symm (other entry)
  | functionRemoved entry _ => exact absurd (Option.some.inj keyed).symm (other entry)
  | _ => cases record <;> rfl

theorem Stands.key_eq (stands : Stands previous record) :
    forRecord previous = forRecord record := by
  rcases stands with rfl | ⟨mapping, ranges, pushed, rfl, rfl, -⟩ <;> rfl

theorem stands_of_key (keyed : forRecord previous = some key)
    (keyed' : forRecord record = some key) (other : ∀ entry, key ≠ .function entry)
    (composable : Composable previous record) : Stands previous record := by
  cases key with
  | function entry => exact absurd rfl (other entry)
  | segmentMapped mapping range =>
    left
    cases previous <;> simp [forRecord] at keyed
    cases record <;> simp [forRecord] at keyed'
    rw [keyed.1, keyed.2, keyed'.1, keyed'.2]
  | segmentMappingChanged mapping =>
    right
    cases previous with
    | segmentMappingChanged _ ranges =>
      cases record with
      | segmentMappingChanged _ pushed =>
        cases keyed
        cases keyed'
        exact ⟨mapping, ranges, pushed, rfl, rfl, composable⟩
      | _ => simp [forRecord] at keyed'
    | _ => simp [forRecord] at keyed
  | segmentMappingCreated mapping =>
    left
    cases previous <;> simp [forRecord] at keyed
    cases record <;> simp [forRecord] at keyed'
    rw [keyed, keyed']
  | segmentUnmapped mapping range =>
    left
    cases previous <;> simp [forRecord] at keyed
    cases record <;> simp [forRecord] at keyed'
    rw [keyed.1, keyed.2, keyed'.1, keyed'.2]

end Pushes

section Pending

variable {records : List ChangeRecord}

theorem pending_concat_own (keyed : forRecord record = some (.function entry)) :
    pending entry (records ++ [record]) = pendingPush (pending entry records) record := by
  have own : pushesFor entry (records ++ [record]) = pushesFor entry records ++ [record] := by
    simp [pushesFor, keyed]
  rw [pending, own, List.foldl_append]
  rfl

theorem pending_concat_other (other : forRecord record ≠ some (.function entry)) :
    pending entry (records ++ [record]) = pending entry records := by
  have same : pushesFor entry (records ++ [record]) = pushesFor entry records := by
    simp [pushesFor, other]
  rw [pending, same, pending]

theorem mem_foldl_pendingPush : ∀ (list acc : List ChangeRecord), ∀ push ∈ acc ++ list,
    push ∈ list.foldl pendingPush acc ∨
      (∃ added ∈ acc ++ list, added.addsFunction = true) ∧
      ∃ removed ∈ acc ++ list, removed.removesFunction = true
  | [], acc, push, mem => by
    rw [List.append_nil] at mem
    exact .inl mem
  | record :: list, acc, push, mem => by
    rw [List.foldl_cons]
    have step : pendingPush acc record = acc ++ [record] ∨
        (∃ added ∈ acc, added.addsFunction = true) ∧ record.removesFunction = true := by
      unfold pendingPush
      split
      · rename_i taken
        rw [Bool.and_eq_true] at taken
        obtain ⟨added, head, adds⟩ := (Option.any_eq_true _ _).mp taken.1
        exact .inr ⟨⟨added, List.mem_of_head? head, adds⟩, taken.2⟩
      · exact .inl rfl
    rcases step with kept | ⟨⟨added, addedMem, adds⟩, removes⟩
    · rw [kept]
      have whole : acc ++ record :: list = (acc ++ [record]) ++ list := by simp
      rw [whole] at mem ⊢
      exact mem_foldl_pendingPush list (acc ++ [record]) push mem
    · exact .inr ⟨⟨added, List.mem_append_left _ addedMem, adds⟩, record, by simp, removes⟩

theorem mem_pending {push : ChangeRecord} (mem : push ∈ pushesFor entry records) :
    push ∈ pending entry records ∨
      (∃ added ∈ pushesFor entry records, added.addsFunction = true) ∧
      ∃ removed ∈ pushesFor entry records, removed.removesFunction = true :=
  mem_foldl_pendingPush _ [] push mem

/-- The pushes for the function were taken back at some time: it had been added and was removed. -/
def TakenBack (entry : Address) (records : List ChangeRecord) : Prop :=
  ∃ early later, records = early ++ later ∧ pushesFor entry early ≠ [] ∧ pending entry early = []

theorem pending_eq_pushesFor (kept : ¬ TakenBack entry records) :
    pending entry records = pushesFor entry records := by
  induction records using List.reverseRecOn with
  | nil => rfl
  | append_singleton records record ih =>
    have before : ¬ TakenBack entry records := by
      rintro ⟨early, later, rfl, pushed, none⟩
      exact kept ⟨early, later ++ [record], by simp, pushed, none⟩
    by_cases own : forRecord record = some (.function entry)
    · have pushes : pushesFor entry (records ++ [record]) = pushesFor entry records ++ [record] := by
        simp [pushesFor, own]
      rw [pending_concat_own own, ih before, pushes]
      by_contra ne
      refine kept ⟨records ++ [record], [], by simp, by simp [pushes], ?_⟩
      rw [pending_concat_own own, ih before]
      unfold pendingPush at ne ⊢
      split at ne
      · rename_i taken
        rw [if_pos taken]
      · exact absurd rfl ne
    · have same : pushesFor entry (records ++ [record]) = pushesFor entry records := by
        simp [pushesFor, own]
      rw [pending_concat_other own, same, ih before]

end Pending

section Run

variable {records : List ChangeRecord}

/-- The staged records tell what was pushed. -/
structure Composed (records : List ChangeRecord) (staging : ChangeStaging) : Prop where
  functions : ∀ entry,
    (pending entry records = [] ∧
      ∀ staged ∈ staging.records, forRecord staged ≠ some (.function entry)) ∨
    ∃ staged ∈ staging.records, forRecord staged = some (.function entry) ∧
      Describes (pending entry records) staged
  others : ∀ record ∈ records, (∀ entry, forRecord record ≠ some (.function entry)) →
    ∃ staged ∈ staging.records, Stands staged record

theorem Detailed.staged_unique (detailed : staging.Detailed) {key : StagedChangeKey}
    {left right : ChangeRecord} (mem : left ∈ staging.records) (mem' : right ∈ staging.records)
    (keyed : forRecord left = some key) (keyed' : forRecord right = some key) : left = right := by
  obtain ⟨i, at_⟩ := List.mem_iff_getElem?.mp mem
  obtain ⟨j, at_'⟩ := List.mem_iff_getElem?.mp mem'
  obtain rfl := detailed.position_unique at_ at_' keyed keyed'
  exact Option.some.inj (at_.symm.trans at_')

theorem Composed.functions_push (composed : Composed records staging) (detailed : staging.Detailed)
    (lossless : staging.Lossless record) (call : staging.pushDetailed record = some staging')
    (entry : Address) :
    (pending entry (records ++ [record]) = [] ∧
      ∀ staged ∈ staging'.records, forRecord staged ≠ some (.function entry)) ∨
    ∃ staged ∈ staging'.records, forRecord staged = some (.function entry) ∧
      Describes (pending entry (records ++ [record])) staged := by
  by_cases own : forRecord record = some (.function entry)
  · rw [pending_concat_own own]
    rcases pushDetailed_cases detailed call with
      ⟨fresh, members⟩ | ⟨key, previous, mem, keyed, keyed', members⟩
    · -- the first pending push
      rcases composed.functions entry with ⟨none, -⟩ | ⟨staged, stagedMem, stagedKey, -⟩
      · rw [none]
        refine .inr ⟨record, (members record).mpr (.inr rfl), own, ?_⟩
        exact Describes.single own
      · exact absurd stagedKey (fresh _ own staged stagedMem)
    · cases own.symm.trans keyed
      rcases composed.functions entry with ⟨-, absent⟩ | ⟨staged, stagedMem, stagedKey, describes⟩
      · exact absurd keyed' (absent previous mem)
      · obtain rfl := detailed.staged_unique stagedMem mem stagedKey keyed'
        have composable := lossless staged mem (keyed'.trans own.symm)
          (by rw [own]; exact Option.some_ne_none _)
        have merged := describes.coalesce keyed' own composable
        cases result : coalesce staged record with
        | some merge =>
          rw [result] at merged
          rw [merged.1]
          exact .inr ⟨merge, (members merge).mpr (.inr result), forRecord_coalesce keyed' result,
            merged.2⟩
        | none =>
          rw [result] at merged
          refine .inl ⟨merged, fun other otherMem => ?_⟩
          rcases (members other).mp otherMem with ⟨-, ne⟩ | eq
          · exact ne
          · rw [result] at eq
            cases eq
  · -- the records of the function stay
    rw [pending_concat_other own]
    have stays : ∀ staged, forRecord staged = some (.function entry) →
        (staged ∈ staging'.records ↔ staged ∈ staging.records) := by
      intro staged keyed
      rcases pushDetailed_cases detailed call with
        ⟨-, members⟩ | ⟨key, previous, -, keyed', keyedPrevious, members⟩
      · rw [members, or_iff_left]
        rintro rfl
        exact own keyed
      · have ne : forRecord staged ≠ some key := by
          rw [keyed, ← keyed']
          exact Ne.symm own
        rw [members, or_iff_left, and_iff_left ne]
        intro result
        exact ne (forRecord_coalesce keyedPrevious result)
    rcases composed.functions entry with ⟨none, absent⟩ | ⟨staged, mem, keyed, describes⟩
    · refine .inl ⟨none, fun staged mem keyed => ?_⟩
      exact absent staged ((stays staged keyed).mp mem) keyed
    · exact .inr ⟨staged, (stays staged keyed).mpr mem, keyed, describes⟩

theorem Composed.others_push (composed : Composed records staging) (detailed : staging.Detailed)
    (lossless : staging.Lossless record) (call : staging.pushDetailed record = some staging') :
    ∀ pushed ∈ records ++ [record], (∀ entry, forRecord pushed ≠ some (.function entry)) →
      ∃ staged ∈ staging'.records, Stands staged pushed := by
  intro pushed pushedMem other
  have before : pushed ∈ records ∨ pushed = record := by simpa using pushedMem
  rcases pushDetailed_cases detailed call with
    ⟨-, members⟩ | ⟨key, previous, mem, keyed, keyed', members⟩
  · rcases before with pushedMem | rfl
    · obtain ⟨staged, stagedMem, stands⟩ := composed.others pushed pushedMem other
      exact ⟨staged, (members staged).mpr (.inl stagedMem), stands⟩
    · exact ⟨pushed, (members pushed).mpr (.inr rfl), .inl rfl⟩
  · -- the staged record of a key that is not a function's stays
    have stays : (∀ entry, key ≠ .function entry) → previous ∈ staging'.records := fun plain =>
      (members previous).mpr (.inr (coalesce_other keyed' plain))
    rcases before with pushedMem | rfl
    · obtain ⟨staged, stagedMem, stands⟩ := composed.others pushed pushedMem other
      refine ⟨staged, ?_, stands⟩
      by_cases same : forRecord staged = some key
      · obtain rfl := detailed.staged_unique stagedMem mem same keyed'
        refine stays fun entry eq => other entry ?_
        rw [← stands.key_eq, same, eq]
      · exact (members staged).mpr (.inl ⟨stagedMem, same⟩)
    · have plain : ∀ entry, key ≠ .function entry := by
        rintro entry rfl
        exact other entry keyed
      have composable := lossless previous mem (keyed'.trans keyed.symm)
        (by rw [keyed]; exact Option.some_ne_none _)
      exact ⟨previous, stays plain, stands_of_key keyed' keyed plain composable⟩

/-- No push of a transaction loses anything. -/
def LosslessRun (staging : ChangeStaging) : List ChangeRecord → Prop
  | [] => True
  | record :: records => staging.Lossless record ∧
    ∀ staging', staging.push record = some staging' → LosslessRun staging' records

theorem LosslessRun.concat {staging last : ChangeStaging} {records : List ChangeRecord}
    (lossless : LosslessRun staging (records ++ [record]))
    (call : records.foldlM push staging = some last) :
    LosslessRun staging records ∧ last.Lossless record := by
  induction records generalizing staging with
  | nil =>
    cases call
    exact ⟨trivial, lossless.1⟩
  | cons first records ih =>
    obtain ⟨middle, step, rest⟩ := Option.bind_eq_some_iff.mp call
    refine ⟨⟨lossless.1, fun next nextStep => ?_⟩, (ih (lossless.2 middle step) rest).2⟩
    rw [step] at nextStep
    cases nextStep
    exact (ih (lossless.2 middle step) rest).1

theorem new_composed : Composed [] new :=
  ⟨fun entry => .inl ⟨rfl, by simp [new]⟩, by simp⟩

theorem stage_composed (lossless : LosslessRun new records) (call : stage records = some staging)
    (detailed : staging.collapsed = false) : Composed records staging := by
  induction records using List.reverseRecOn generalizing staging with
  | nil =>
    cases call
    exact new_composed
  | append_singleton records record ih =>
    rw [stage, List.foldlM_append, ← stage] at call
    obtain ⟨before, first, last⟩ := Option.bind_eq_some_iff.mp call
    have push : before.push record = some staging := by simpa using last
    obtain ⟨_, first', inv, -⟩ := stage_spec records
    rw [first] at first'
    cases first'
    obtain ⟨_, push', -, same⟩ := push_spec inv record
    rw [push] at push'
    cases push'
    obtain ⟨earlier, pushed⟩ := same detailed
    have before_detailed := (inv.detailed earlier).1
    obtain ⟨losslessBefore, own⟩ := lossless.concat first
    have composed := ih losslessBefore first earlier
    exact ⟨composed.functions_push before_detailed own pushed,
      composed.others_push before_detailed own pushed⟩

theorem kinds_eq_foldl (detailed : staging.Detailed) : staging.kinds =
    staging.records.foldl (fun kinds record => kinds ||| record.kind) 0 := by
  have bits : ∀ (records : List ChangeRecord) (kinds : ChangeKinds) (i : Nat),
      (records.foldl (fun kinds record => kinds ||| record.kind) kinds).getLsbD i = true ↔
        kinds.getLsbD i = true ∨ ∃ record ∈ records, record.kind.getLsbD i = true := by
    intro records
    induction records with
    | nil => simp
    | cons record records ih =>
      intro kinds i
      rw [List.foldl_cons, ih, BitVec.getLsbD_or, Bool.or_eq_true, or_assoc,
        List.exists_mem_cons_iff]
  refine BitVec.eq_of_getLsbD_eq fun i lt => Bool.eq_iff_iff.mpr ?_
  have kinds := detailed.kinds ⟨i, lt⟩
  rw [detailed.counts, List.countP_pos_iff] at kinds
  rw [kinds, bits]
  simp

/-- `ChangeStaging::semantic` (`mod.rs:89-91`). -/
def semantic (staging : ChangeStaging) : Bool := staging.semanticCount != 0

theorem semantic_iff (detailed : staging.Detailed) : staging.semantic = true ↔
    ∃ staged ∈ staging.records, staged.affectsLiftedInputs = true := by
  rw [semantic, bne_iff_ne, ← Nat.pos_iff_ne_zero, detailed.semantic, List.countP_pos_iff]

/-- What the staged records of a transaction keep of the pushed ones. -/
structure Coalesced (records : List ChangeRecord) (staging : ChangeStaging) : Prop where
  indexed : ∀ key i, staging.indices key = some i ↔
    ∃ record, staging.records[i]? = some record ∧ forRecord record = some key
  kinds : staging.kinds = staging.records.foldl (fun kinds record => kinds ||| record.kind) 0
  counts : ∀ i : Fin 32, staging.kindCounts i =
    staging.records.countP fun record => record.kind.getLsbD i
  functions : ∀ entry,
    (pending entry records = [] ∧
      ∀ staged ∈ staging.records, forRecord staged ≠ some (.function entry)) ∨
    ∃ staged ∈ staging.records, forRecord staged = some (.function entry) ∧
      Describes (pending entry records) staged
  pushes : ∀ entry, ¬ TakenBack entry records → pending entry records = pushesFor entry records
  ranges : ∀ record ∈ records, record.ofSegment = true → ∀ range ∈ record.ranges,
    ∃ staged ∈ staging.records, Covered range staged.ranges
  semantic : ∀ record ∈ records, record.affectsLiftedInputs = true →
    staging.semantic = true ∨ ∃ entry, forRecord record = some (.function entry) ∧
      (∃ added ∈ pushesFor entry records, added.addsFunction = true) ∧
      ∃ removed ∈ pushesFor entry records, removed.removesFunction = true

theorem Stands.covers (stands : Stands previous record) :
    (∀ range ∈ record.ranges, Covered range previous.ranges) ∧
      previous.affectsLiftedInputs = record.affectsLiftedInputs := by
  rcases stands with rfl | ⟨mapping, ranges, pushed, rfl, rfl, covered⟩
  · exact ⟨fun range mem address inside => ⟨range, mem, inside⟩, rfl⟩
  · exact ⟨covered, rfl⟩

theorem function_of_forRecord (segment : record.ofSegment = true) :
    ∀ entry, forRecord record ≠ some (.function entry) := by
  intro entry keyed
  cases record <;> simp [forRecord, ofSegment] at keyed segment

/-- Coalescing loses nothing in a transaction whose pushes are all lossless. -/
theorem coalescing_is_lossless (records : List ChangeRecord) (lossless : LosslessRun new records) :
    ∃ staging, stage records = some staging ∧
      (staging.collapsed = false → Coalesced records staging) := by
  obtain ⟨staging, call, inv, -⟩ := stage_spec records
  refine ⟨staging, call, fun uncollapsed => ?_⟩
  have composed := stage_composed lossless call uncollapsed
  obtain ⟨detailed, -⟩ := inv.detailed uncollapsed
  refine ⟨detailed.indexed, kinds_eq_foldl detailed, detailed.counts, composed.functions,
    fun _ => pending_eq_pushesFor, ?_, ?_⟩
  · intro record mem segment range rangeMem
    obtain ⟨staged, stagedMem, stands⟩ :=
      composed.others record mem (function_of_forRecord segment)
    exact ⟨staged, stagedMem, stands.covers.1 range rangeMem⟩
  · intro record mem affects
    by_cases function : ∃ entry, forRecord record = some (.function entry)
    · obtain ⟨entry, keyed⟩ := function
      have pushed : record ∈ pushesFor entry records := by
        simp [pushesFor, mem, keyed]
      rcases mem_pending pushed with kept | both
      · rcases composed.functions entry with ⟨none, -⟩ | ⟨staged, stagedMem, -, describes⟩
        · rw [none] at kept
          cases kept
        · exact .inl ((semantic_iff detailed).mpr
            ⟨staged, stagedMem, describes.semantic ⟨record, kept, affects⟩⟩)
      · exact .inr ⟨entry, keyed, both⟩
    · rw [not_exists] at function
      obtain ⟨staged, stagedMem, stands⟩ := composed.others record mem function
      exact .inl ((semantic_iff detailed).mpr ⟨staged, stagedMem, stands.covers.2.trans affects⟩)

/-- A function that is removed and added again, and two changes of one mapping. -/
def coalescedPushes : List ChangeRecord :=
  [.functionRemoved ⟨0, 16⟩ .new, .functionAdded ⟨0, 16⟩ .new,
    .segmentMappingChanged 0 [⟨0, 0, 7⟩], .segmentMappingChanged 0 [⟨0, 0, 7⟩]]

theorem coalescing_is_lossless_coalescedPushes :
    ∃ staging, stage coalescedPushes = some staging ∧ staging.collapsed = false ∧
      Coalesced coalescedPushes staging := by
  have lossless : LosslessRun new coalescedPushes := by
    refine ⟨fun previous mem => absurd mem List.not_mem_nil, fun staging₁ push₁ => ?_⟩
    cases show some _ = some staging₁ from push₁
    refine ⟨?_, fun staging₂ push₂ => ?_⟩
    · intro previous mem _ _
      rw [show previous = .functionRemoved ⟨0, 16⟩ .new from List.mem_singleton.mp mem]
      trivial
    cases show some _ = some staging₂ from push₂
    refine ⟨?_, fun staging₃ push₃ => ?_⟩
    · intro previous mem same _
      rw [show previous = .functionChanged ⟨0, 16⟩ .body .new from List.mem_singleton.mp mem] at same
      cases same
    cases show some _ = some staging₃ from push₃
    refine ⟨?_, fun _ _ => trivial⟩
    intro previous mem same _
    rcases List.mem_pair.mp mem with rfl | rfl
    · cases same
    · exact fun range mem address inside => ⟨range, mem, inside⟩
  obtain ⟨staging, call, coalesced⟩ := coalescing_is_lossless coalescedPushes lossless
  have computed : (stage coalescedPushes).map collapsed = some false := rfl
  rw [call] at computed
  have uncollapsed : staging.collapsed = false := Option.some.inj computed
  exact ⟨staging, call, uncollapsed, coalesced uncollapsed⟩

/-- A second change of a mapping drops its ranges, and two changes of the frame of a function no
longer affect lifted code. -/
theorem coalescing_loses :
    (∃ staging, stage [.segmentMappingChanged 0 [⟨0, 0, 7⟩],
        .segmentMappingChanged 0 [⟨0, 16, 23⟩]] = some staging ∧ staging.collapsed = false ∧
      ¬ ∃ staged ∈ staging.records, Covered ⟨0, 16, 23⟩ staged.ranges) ∧
    ∃ staging, stage [.functionChanged ⟨0, 16⟩ .frame .new, .functionChanged ⟨0, 16⟩ .frame .new] =
        some staging ∧ staging.collapsed = false ∧ staging.semantic = false := by
  refine ⟨⟨_, rfl, rfl, ?_⟩, _, rfl, rfl, by decide⟩
  rintro ⟨staged, mem, covered⟩
  have kept : staged = .segmentMappingChanged 0 [⟨0, 0, 7⟩] := List.mem_singleton.mp mem
  obtain ⟨range, rangeMem, inside⟩ := covered ⟨0, 16⟩ ⟨rfl, by decide, by decide⟩
  rw [kept] at rangeMem
  rw [List.mem_singleton.mp rangeMem] at inside
  exact absurd inside.2.2 (by decide)

end Run

end ChangeStaging

end Fugue.Project
