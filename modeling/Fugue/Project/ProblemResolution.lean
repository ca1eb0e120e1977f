import Fugue.Project.ProblemInvalidation

/-!
# Which problems a commit resolves

The invalidation looks for the problems of the records that are staged when it runs, and finds them
by the keys of addresses, or takes all keys if one of the records has no ranges
(`mem_candidates`). So a problem is resolved if a record of that time affects it, unless its scope
is not an address and all those records have ranges (`get?_invalidate`). The records of switches,
symbols and references come too late for it.
-/

namespace Fugue.Project

open Fugue.Lib Fugue.Ir Fugue.Engine List Option OrdMap ProblemTableStaging
open IlStagedChange (record)

/-! ## Pushes of records without a key -/

namespace ChangeStaging

open StagedChangeKey

variable {staging : ChangeStaging}

/-- What a push of a record without a key does: it is kept, or the staging is collapsed. -/
structure Pushed (staging : ChangeStaging) (records : List ChangeRecord)
    (staging' : ChangeStaging) : Prop where
  inv : staging'.Inv
  kinds : staging'.kinds = records.foldl (fun kinds record => kinds ||| record.kind) staging.kinds
  collapsed : staging'.collapsed = true ↔ staging.collapsed = true ∨
    maxDetailedChangeRecords < staging.records.length + records.length
  records : staging'.collapsed = false → staging'.records = staging.records ++ records

theorem push_unkeyed {record : ChangeRecord} (inv : staging.Inv)
    (unkeyed : forRecord record = none) :
    ∃ staging', staging.push record = some staging' ∧ staging.Pushed [record] staging' := by
  obtain ⟨staging', call, inv', -⟩ := push_spec inv record
  suffices rest : _ ∧ _ ∧ _ from ⟨staging', call, inv', rest.1, rest.2.1, rest.2.2⟩
  unfold push at call
  cases collapsed : staging.collapsed with
  | true =>
    rw [if_pos collapsed] at call
    cases call
    exact ⟨rfl, by simp [collapsed], fun detailed => by simp [collapsed] at detailed⟩
  | false =>
    obtain ⟨-, bound⟩ := inv.detailed collapsed
    rw [collapsed, if_neg Bool.false_ne_true, existing_unkeyed staging unkeyed] at call
    dsimp only at call
    split at call
    · rename_i full
      cases call
      exact ⟨rfl, by simp [collapse, full], fun detailed => by simp [collapse] at detailed⟩
    · cases call
      have fits : ¬ maxDetailedChangeRecords < staging.records.length + 1 := by omega
      simp [append, addMetadata, collapsed, fits]

theorem Pushed.trans {staging' staging'' : ChangeStaging} {records records' : List ChangeRecord}
    (left : staging.Pushed records staging') (right : staging'.Pushed records' staging'') :
    staging.Pushed (records ++ records') staging'' where
  inv := right.inv
  kinds := by rw [right.kinds, left.kinds, foldl_append]
  collapsed := by
    rw [right.collapsed, length_append, ← add_assoc]
    cases collapsed : staging'.collapsed with
    | true =>
      refine iff_of_true (.inl rfl) ((left.collapsed.mp collapsed).imp_right fun above => ?_)
      exact lt_of_lt_of_le above (Nat.le_add_right _ _)
    | false =>
      have early : ¬ staging.collapsed = true := fun early => by
        simp [left.collapsed.mpr (.inl early)] at collapsed
      rw [or_iff_right Bool.false_ne_true, or_iff_right early, left.records collapsed,
        length_append]
  records := by
    intro detailed
    have collapsed : staging'.collapsed = false := by
      rw [← Bool.not_eq_true]
      intro collapsed
      simp [right.collapsed.mpr (.inl collapsed)] at detailed
    rw [right.records detailed, left.records collapsed, append_assoc]

theorem foldlM_push_pushed : ∀ (records : List ChangeRecord) {staging : ChangeStaging},
    staging.Inv → (∀ record ∈ records, forRecord record = none) →
    ∃ staging', records.foldlM push staging = some staging' ∧ staging.Pushed records staging'
  | [], staging, inv, _ => by
    refine ⟨staging, rfl, inv, rfl, (or_iff_left_of_imp ?_).symm, fun _ => (append_nil _).symm⟩
    intro above
    by_contra detailed
    have bound := (inv.detailed ((Bool.not_eq_true _).mp detailed)).2
    exact absurd above (not_lt.mpr bound)
  | record :: records, staging, inv, unkeyed => by
    obtain ⟨own, rest⟩ := forall_mem_cons.mp unkeyed
    obtain ⟨middle, first, pushed⟩ := push_unkeyed inv own
    obtain ⟨staging', call, pushed'⟩ := foldlM_push_pushed records pushed.inv rest
    refine ⟨staging', ?_, pushed.trans pushed'⟩
    rw [foldlM_cons, first]
    exact call

end ChangeStaging

/-! ## The invalidation -/

def isAddress : ProblemScope → Bool
  | .address _ => true
  | .addressSpace _ | .global | .range _ => false

section Invalidation

variable {problems : ProblemTable} {changes : ChangeStaging} {staging : ProblemTableStaging}
  {records : List ChangeRecord} {key : ProblemKey}

theorem isAddress_iff {scope : ProblemScope} :
    isAddress scope = true ↔ ∃ address, scope = .address address := by
  cases scope <;> simp [isAddress]

/-- The candidates are the keys of the addresses that are in a range, and all keys if a record has
no ranges. -/
theorem mem_candidates : key ∈ candidates problems records ↔ key ∈ problems.keys ∧
    ((∃ record ∈ records, record.ranges = []) ∨ ∃ record ∈ records, ∃ range ∈ record.ranges,
      ∃ address, key.scope = .address address ∧ range.Contains address) := by
  have ranged : (∃ record ∈ records, ∃ range ∈ record.ranges, key ∈ problems.keysInRange range) ↔
      key ∈ problems.keys ∧ ∃ record ∈ records, ∃ range ∈ record.ranges,
        ∃ address, key.scope = .address address ∧ range.Contains address := by
    simp only [ProblemTable.mem_keysInRange]
    grind
  unfold candidates
  split
  · rename_i unranged
    have unranged : ∃ record ∈ records, record.ranges = [] := by simpa using unranged
    simp only [mem_append, mem_flatMap, ranged, unranged, true_or, and_true]
    exact or_iff_right_of_imp And.left
  · rename_i all
    have all : ¬ ∃ record ∈ records, record.ranges = [] := by simpa using all
    simp [mem_flatMap, ranged, all, false_or]

theorem candidate_of_affects {address : Address} (scope : key.scope = .address address)
    (known : key ∈ problems.keys) {record : ChangeRecord} (mem : record ∈ records)
    (affected : affects key record = true) : key ∈ candidates problems records := by
  unfold affects problemScopeAffected at affected
  rw [scope, Bool.and_eq_true, Bool.or_eq_true] at affected
  rcases affected.2 with unranged | inside
  · exact mem_candidates.mpr ⟨known, .inl ⟨record, mem, List.isEmpty_iff.mp unranged⟩⟩
  · obtain ⟨range, rangeMem, inside⟩ := List.any_eq_true.mp inside
    exact mem_candidates.mpr ⟨known, .inr ⟨record, mem, range, rangeMem, address, scope,
      AddressRange.containsAddress_iff.mp inside⟩⟩

theorem get?_invalidateKey {other : ProblemKey} :
    (invalidateKey changes staging other).staged.get? key =
      if key = other ∧ staging.containsKey key = false ∧ inputsChanged changes key = true then
        some none else staging.staged.get? key := by
  unfold invalidateKey
  by_cases same : key = other
  · subst same
    cases known : staging.containsKey key with
    | true => simp
    | false =>
      cases changed : inputsChanged changes key with
      | true => simp [ProblemTableStaging.remove, get?_insert_self]
      | false => simp
  · have right : ¬ (key = other ∧ staging.containsKey key = false ∧
        inputsChanged changes key = true) := fun h => same h.1
    split
    · rfl
    · exact get?_insert_ne same

/-- The invalidation stages the removal of the candidates that are not staged and whose inputs have
changed. -/
theorem get?_foldl_invalidateKey : ∀ (keys : List ProblemKey) {staging : ProblemTableStaging},
    (keys.foldl (invalidateKey changes) staging).staged.get? key =
      if key ∈ keys ∧ staging.containsKey key = false ∧ inputsChanged changes key = true then
        some none else staging.staged.get? key
  | [], staging => by simp
  | other :: keys, staging => by
    have here := @get?_invalidateKey changes staging key other
    rw [foldl_cons, get?_foldl_invalidateKey keys, containsKey, here]
    by_cases hit : staging.containsKey key = false ∧ inputsChanged changes key = true
    · by_cases same : key = other
      · simp [same, same ▸ hit]
      · simp [same, hit, containsKey]
    · simp only [hit, and_false, if_false]
      refine if_neg fun again => hit ?_
      exact again.2

end Invalidation

/-! ## The commit -/

namespace Transaction

open ChangeStaging

variable (transaction : Transaction)

/-- The records that are staged when the invalidation runs, if they are kept. -/
def stagedRecords : List ChangeRecord :=
  transaction.changes.records ++ transaction.ilChanges.map record

def stagedKinds : ChangeKinds :=
  transaction.ilChanges.foldl (fun kinds change => kinds ||| change.record.kind)
    transaction.changes.kinds

/-- The records are collapsed when the invalidation runs. -/
def earlyCollapsed : Bool :=
  transaction.changes.collapsed ||
    decide (maxDetailedChangeRecords < transaction.stagedRecords.length)

/-- The invalidation sees a change of the inputs of a problem: by the kinds alone if the records are
collapsed, else by a record that affects the problem. A problem of another scope than an address
needs a record without ranges for that. -/
def sees (key : ProblemKey) : Bool :=
  if transaction.earlyCollapsed then
    (ChangeKinds.forProblem key.kind).intersects transaction.stagedKinds
  else
    (isAddress key.scope || transaction.stagedRecords.any fun record => record.ranges.isEmpty) &&
      transaction.stagedRecords.any (affects key)

/-- The problems that were recorded before and that the transaction does not stage. -/
def oldProblems : List ProblemKey :=
  transaction.problems.keys.filter fun key => !transaction.problemStaging.containsKey key

/-- The number of the records that the commit pushes or has pushed. -/
def recordCount (later : List ChangeRecord) : ℕ :=
  transaction.stagedRecords.length +
    (transaction.problemStaging.staged.len +
      (transaction.oldProblems.filter transaction.sees).length) + later.length

/-- The change set that is published has the records, and not a resynchronisation in their place. -/
def Detailed (later : List ChangeRecord) : Prop :=
  transaction.changes.collapsed = false ∧
    transaction.recordCount later ≤ maxDetailedChangeRecords

instance (transaction : Transaction) (later : List ChangeRecord) :
    Decidable (transaction.Detailed later) := inferInstanceAs (Decidable (_ ∧ _))

/-- A transaction before its commit: its records were pushed to an empty staging, and its problems
were recorded one after the other. -/
structure Open (transaction : Transaction) : Prop where
  pushed : ∃ records, stage records = some transaction.changes
  recorded : ∃ recorded : List (ProblemScope × ProblemKind × Revision),
    transaction.problemStaging = recorded.foldl (fun staging entry =>
      staging.insert transaction.problems entry.1 entry.2.1 entry.2.2) .empty

/-- The commit resolves the problems whose inputs have changed, and keeps the others. -/
structure ResolvesExactly (transaction : Transaction) (table : ProblemTable)
    (published : ChangeSet) : Prop where
  resolved : ∀ key ∈ transaction.oldProblems,
    (∃ record ∈ published.records, affects key record = true) →
      key ∉ table.keys ∧ .problemResolved key.scope key.kind ∈ published.records
  kept : ∀ key ∈ transaction.oldProblems,
    (¬ ∃ record ∈ published.records, affects key record = true) → key ∈ table.keys
  staged : ∀ key, transaction.problemStaging.containsKey key = true → key ∈ table.keys

variable {transaction : Transaction} {early : ChangeStaging} {key : ProblemKey}
  {later : List ChangeRecord}

/-! ### Records without a key -/

theorem forRecord_il (change : IlStagedChange) :
    StagedChangeKey.forRecord change.record = none := by
  cases change <;> rfl

theorem forRecord_problem (change : ProblemKey × Bool) :
    StagedChangeKey.forRecord (problemRecord change) = none := by
  obtain ⟨key, _ | _⟩ := change <;> rfl

theorem forRecord_symbols : ∀ {changes : List SymbolChange} {records : List ChangeRecord},
    changes.mapM SymbolChange.record = some records →
    ∀ record ∈ records, StagedChangeKey.forRecord record = none
  | [], records, call => by
    cases call
    simp
  | change :: changes, records, call => by
    rw [mapM_cons] at call
    obtain ⟨first, here, call⟩ := bind_eq_some_iff.mp call
    obtain ⟨rest, there, result⟩ := bind_eq_some_iff.mp call
    cases result
    refine forall_mem_cons.mpr ⟨?_, forRecord_symbols there⟩
    obtain ⟨_ | entry, _ | previous⟩ := change <;> cases here <;> rfl

theorem forRecord_later (call : transaction.laterRecords = some later) :
    ∀ record ∈ later, StagedChangeKey.forRecord record = none := by
  obtain ⟨symbols, symbolsCall, result⟩ := bind_eq_some_iff.mp call
  cases result
  intro record mem
  simp only [mem_append, List.mem_map, mem_toList, map_eq_some_iff] at mem
  rcases mem with ((⟨change, -, rfl⟩ | symbol) | ⟨change, -, rfl⟩) | ⟨coverage, -, rfl⟩
  · obtain ⟨branch, _ | _⟩ := change <;> rfl
  · exact forRecord_symbols symbolsCall record symbol
  · obtain ⟨reference, _ | _⟩ := change <;> rfl
  · rfl

/-! ### The staged problems -/

theorem Open.not_removed (opened : transaction.Open) (key : ProblemKey) :
    transaction.problemStaging.staged.get? key ≠ some none := by
  obtain ⟨recorded, eq⟩ := opened.recorded
  rw [eq]
  refine List.foldlRecOn (motive := fun staging : ProblemTableStaging =>
    staging.staged.get? key ≠ some none) recorded _ ?_ fun staging kept entry _ => ?_
  · intro found
    cases found
  · by_cases same : key = ⟨entry.1, entry.2.1⟩
    · rw [same, ProblemTableStaging.insert, get?_insert_self]
      simp
    · rw [ProblemTableStaging.insert, get?_insert_ne same]
      exact kept

theorem Open.exists_staged (opened : transaction.Open) :
    transaction.problemStaging.containsKey key = true ↔
      ∃ problem, transaction.problemStaging.staged.get? key = some (some problem) := by
  rw [containsKey, isSome_iff_exists]
  constructor
  · intro h
    obtain ⟨problem?, found⟩ := h
    cases problem? with
    | none => exact absurd found (opened.not_removed key)
    | some problem => exact ⟨problem, found⟩
  · intro h
    obtain ⟨problem, found⟩ := h
    exact ⟨_, found⟩

theorem mem_oldProblems : key ∈ transaction.oldProblems ↔
    key ∈ transaction.problems.keys ∧ transaction.problemStaging.staged.get? key = none := by
  simp [oldProblems, containsKey]

/-! ### What the invalidation sees -/

theorem early_spec (opened : transaction.Open) :
    ∃ early, (transaction.ilChanges.map record).foldlM push transaction.changes =
        some early ∧
      transaction.changes.Pushed (transaction.ilChanges.map record) early := by
  obtain ⟨records, call⟩ := opened.pushed
  obtain ⟨staging, call', inv, -⟩ := stage_spec records
  rw [call] at call'
  cases call'
  refine foldlM_push_pushed _ inv fun record mem => ?_
  obtain ⟨change, -, rfl⟩ := List.mem_map.mp mem
  exact forRecord_il change

section

variable
  (pushed : transaction.changes.Pushed (transaction.ilChanges.map record) early)
include pushed

theorem earlyCollapsed_eq
    :
    early.collapsed = transaction.earlyCollapsed := by
  rw [Bool.eq_iff_iff, pushed.collapsed, earlyCollapsed, Bool.or_eq_true, decide_eq_true_eq,
    stagedRecords, length_append]

theorem sees_iff (known : key ∈ transaction.problems.keys) :
    (key ∈ candidates transaction.problems early.records ∧ inputsChanged early key = true) ↔
      transaction.sees key = true := by
  unfold sees inputsChanged
  rw [← earlyCollapsed_eq pushed]
  cases collapsed : early.collapsed with
  | true =>
    have resynchronise := pushed.inv.collapsed collapsed
    have candidate : key ∈ candidates transaction.problems early.records :=
      mem_candidates.mpr ⟨known, .inl ⟨.resynchronise 0, by simp [resynchronise], rfl⟩⟩
    have kinds : early.kinds = transaction.stagedKinds := by
      rw [pushed.kinds, foldl_map, stagedKinds]
    simp [candidate, kinds, true_and]
  | false =>
    have records : early.records = transaction.stagedRecords := pushed.records collapsed
    simp only [records, Bool.false_eq_true, if_false, Bool.and_eq_true, Bool.or_eq_true,
      List.any_eq_true, List.isEmpty_iff]
    refine and_congr_left fun affected => ⟨fun candidate => ?_, fun candidate => ?_⟩
    · obtain ⟨-, unranged | ⟨record, -, range, -, address, scope, -⟩⟩ := mem_candidates.mp candidate
      · exact .inr unranged
      · exact .inl (isAddress_iff.mpr ⟨address, scope⟩)
    · rcases candidate with address | unranged
      · obtain ⟨address, scope⟩ := isAddress_iff.mp address
        obtain ⟨record, mem, affected⟩ := affected
        exact candidate_of_affects scope known mem affected
      · exact mem_candidates.mpr ⟨known, .inl unranged⟩

theorem get?_invalidate
    :
    (invalidateSemanticProblems transaction.problems early transaction.problemStaging).staged.get?
        key =
      if key ∈ transaction.oldProblems ∧ transaction.sees key = true then some none
      else transaction.problemStaging.staged.get? key := by
  rw [invalidateSemanticProblems, get?_foldl_invalidateKey]
  refine if_congr ?_ rfl rfl
  rw [mem_oldProblems, containsKey, isSome_eq_false_iff, isNone_iff_eq_none]
  constructor
  · intro h
    obtain ⟨candidate, unstaged, changed⟩ := h
    have known := (mem_candidates.mp candidate).1
    exact ⟨⟨known, unstaged⟩, (sees_iff pushed known).mp ⟨candidate, changed⟩⟩
  · intro h
    obtain ⟨⟨known, unstaged⟩, seen⟩ := h
    obtain ⟨candidate, changed⟩ := (sees_iff pushed known).mpr seen
    exact ⟨candidate, unstaged, changed⟩

end

/-! ### The number of records -/

/-- The commit publishes a record for each problem that is staged and for each that the invalidation
takes. -/
theorem length_changes (opened : transaction.Open)
    (pushed : transaction.changes.Pushed (transaction.ilChanges.map record) early) :
    ((invalidateSemanticProblems transaction.problems early transaction.problemStaging).prepare
        transaction.problems transaction.pendingId).changes.length =
      transaction.problemStaging.staged.len +
        (transaction.oldProblems.filter transaction.sees).length := by
  have old : ∀ key ∈ transaction.oldProblems.filter transaction.sees,
      transaction.problemStaging.staged.get? key = none := fun key mem =>
    (mem_oldProblems.mp (mem_filter.mp mem).1).2
  have distinct : (transaction.problemStaging.staged.entries.map Prod.fst ++
      transaction.oldProblems.filter transaction.sees).Nodup := by
    refine nodup_append'.mpr
      ⟨ProblemKey.nodup_keys _, ((ProblemKey.nodup_keys _).filter _).filter _, ?_⟩
    intro key staged taken
    obtain ⟨⟨key, problem⟩, mem, rfl⟩ := List.mem_map.mp staged
    exact get?_eq_none.mp (old key taken) problem mem
  have same := perm_ext_iff_of_nodup
    ((invalidateSemanticProblems transaction.problems early transaction.problemStaging).prepare
      transaction.problems transaction.pendingId).distinct distinct
  have length := (same.mpr fun key => ?_).length_eq
  · simpa [PreparedProblemBatch.changes, OrdMap.len] using length
  · rw [PreparedProblemBatch.mem_keys_prepare, get?_invalidate pushed, mem_append, mem_filter]
    rw [ProblemKey.mem_map_fst_iff]
    by_cases taken : key ∈ transaction.oldProblems ∧ transaction.sees key = true
    · simp [taken, (mem_oldProblems.mp taken.1).1]
    · rw [if_neg taken, or_iff_left taken,
        or_iff_left fun removed => opened.not_removed key removed.2]
      exact opened.exists_staged.symm

/-! ### What a commit leaves -/

/-- What a commit leaves: the table without the old problems that the invalidation sees, and the
records in the order of their pushes, unless there are too many. -/
structure Committed (transaction : Transaction) (later : List ChangeRecord) (table : ProblemTable)
    (revision : Revision) (published : ChangeSet) : Prop where
  old : ∀ key ∈ transaction.oldProblems, key ∈ table.keys ↔ ¬ transaction.sees key = true
  staged : ∀ key, transaction.problemStaging.containsKey key = true → key ∈ table.keys
  detailed : transaction.Detailed later → ∃ problems : List (ProblemKey × Bool),
    published.records = transaction.stagedRecords ++ problems.map problemRecord ++ later ∧
      ∀ key, (key, false) ∈ problems ↔
        key ∈ transaction.oldProblems ∧ transaction.sees key = true
  collapsed : ¬ transaction.Detailed later → published.records = [.resynchronise revision]

theorem commit_spec (opened : transaction.Open)
    (laterCall : transaction.laterRecords = some later) :
    ∃ table revisions published, transaction.commit = some (table, revisions, published) ∧
      transaction.Committed later table revisions.revision published := by
  obtain ⟨early, earlyCall, pushed⟩ := early_spec opened
  unfold commit
  simp only [earlyCall, bind_eq_bind, bind_some, laterCall]
  have count := length_changes opened pushed
  have taken := fun key => @get?_invalidate transaction early key pushed
  generalize invalidateSemanticProblems transaction.problems early transaction.problemStaging =
    staging at count taken ⊢
  obtain ⟨middle, middleCall, pushed'⟩ := foldlM_push_pushed
    ((staging.prepare transaction.problems transaction.pendingId).changes.map problemRecord)
    pushed.inv (List.forall_mem_map.mpr fun change _ => forRecord_problem change)
  obtain ⟨final, finalCall, pushed''⟩ := foldlM_push_pushed later pushed'.inv
    (forRecord_later laterCall)
  simp only [middleCall, bind_some, finalCall]
  have whole := (pushed.trans pushed').trans pushed''
  have collapsed : final.collapsed = true ↔ ¬ transaction.Detailed later := by
    rw [whole.collapsed, Detailed, not_and_or, Bool.not_eq_false, not_le, recordCount,
      stagedRecords, ← count]
    simp [length_append, length_map, add_assoc]
  refine ⟨_, _, _, rfl, fun key old => ?_, fun key staged => ?_, fun detailed => ?_,
    fun many => ?_⟩
  · obtain ⟨known, unstaged⟩ := mem_oldProblems.mp old
    rw [PreparedProblemBatch.mem_keys_publish_prepare, taken, unstaged]
    cases seen : transaction.sees key with
    | true => simp [old]
    | false => simp [known]
  · rw [PreparedProblemBatch.mem_keys_publish_prepare, taken]
    obtain ⟨problem, found⟩ := opened.exists_staged.mp staged
    have fresh : key ∉ transaction.oldProblems := fun old => by
      simp [(mem_oldProblems.mp old).2] at found
    simp [fresh, found]
  · have kept : final.collapsed = false := by
      rw [← Bool.not_eq_true, collapsed, not_not]
      exact detailed
    refine ⟨(staging.prepare transaction.problems transaction.pendingId).changes, ?_, fun key => ?_⟩
    · simp [finish, ChangeSet.withRecords, ChangeSet.withProvenance, kept, whole.records kept,
        stagedRecords]
    · rw [PreparedProblemBatch.mem_changes, taken]
      by_cases h : key ∈ transaction.oldProblems ∧ transaction.sees key = true
      · simp [h, (mem_oldProblems.mp h.1).1]
      · simp [h, opened.not_removed key]
  · have gone := collapsed.mpr many
    simp [finish, ChangeSet.withRecords, ChangeSet.withProvenance, gone, whole.inv.collapsed gone]

/-- The invalidation sees each old problem that a record affects; and where the published change set
is collapsed, it sees none, and none depends on changes of all kinds. -/
def SeesAll (transaction : Transaction) (later : List ChangeRecord) : Prop :=
  if transaction.Detailed later then
    ∀ key ∈ transaction.oldProblems,
      (∃ record ∈ transaction.stagedRecords ++ later, affects key record = true) →
        transaction.sees key = true
  else ∀ key ∈ transaction.oldProblems, key.kind ≠ .unknown ∧ ¬ transaction.sees key = true

theorem not_affects_problemRecord (key : ProblemKey) (change : ProblemKey × Bool) :
    ¬ affects key (problemRecord change) = true := by
  obtain ⟨recorded, resolved⟩ := ChangeKinds.forProblem_problems key.kind
  obtain ⟨other, _ | _⟩ := change
  · simp [affects, problemRecord, ChangeRecord.kind, resolved]
  · simp [affects, problemRecord, ChangeRecord.kind, recorded]

theorem affects_of_sees (detailed : transaction.Detailed later)
    (seen : transaction.sees key = true) :
    ∃ record ∈ transaction.stagedRecords, affects key record = true := by
  have fits : transaction.stagedRecords.length ≤ maxDetailedChangeRecords := by
    have total := detailed.2
    unfold recordCount at total
    omega
  have early : transaction.earlyCollapsed = false := by
    simp [earlyCollapsed, detailed.1, fits]
  rw [sees, early, if_neg Bool.false_ne_true, Bool.and_eq_true] at seen
  exact List.any_eq_true.mp seen.2

/-- A commit resolves exactly the problems whose inputs have changed if and only if the invalidation
sees them all. -/
theorem commit_resolves_exactly_iff (opened : transaction.Open)
    (laterCall : transaction.laterRecords = some later) :
    ∃ table revisions published, transaction.commit = some (table, revisions, published) ∧
      (transaction.ResolvesExactly table published ↔ transaction.SeesAll later) := by
  obtain ⟨table, revisions, published, call, committed⟩ := commit_spec opened laterCall
  refine ⟨table, revisions, published, call, ?_⟩
  unfold SeesAll
  split
  · rename_i detailed
    obtain ⟨problems, records, resolved⟩ := committed.detailed detailed
    have affected : ∀ key, (∃ record ∈ published.records, affects key record = true) ↔
        ∃ record ∈ transaction.stagedRecords ++ later, affects key record = true := by
      intro key
      have problem := not_affects_problemRecord key
      grind
    constructor
    · intro exactly key old found
      by_contra unseen
      have gone := (exactly.resolved key old ((affected key).mpr found)).1
      exact gone ((committed.old key old).mpr unseen)
    · intro all
      refine ⟨fun key old found => ?_, fun key old unaffected => ?_, committed.staged⟩
      · have seen := all key old ((affected key).mp found)
        refine ⟨fun present => (committed.old key old).mp present seen, ?_⟩
        rw [records]
        exact mem_append_left _ (mem_append_right _
          (List.mem_map.mpr ⟨(key, false), (resolved key).mpr ⟨old, seen⟩, rfl⟩))
      · refine (committed.old key old).mpr fun seen => unaffected ?_
        obtain ⟨record, mem, affects⟩ := affects_of_sees detailed seen
        exact (affected key).mpr ⟨record, mem_append_left _ mem, affects⟩
  · rename_i many
    have records := committed.collapsed many
    have affected : ∀ key, (∃ record ∈ published.records, affects key record = true) ↔
        key.kind = .unknown := by
      intro key
      rw [records, ← ChangeKinds.forProblem_resynchronise]
      simp [affects, problemScopeAffected, ChangeRecord.ranges, ChangeRecord.kind]
    constructor
    · intro exactly key old
      have known : key.kind ≠ .unknown := fun unknown => by
        have reported := (exactly.resolved key old ((affected key).mpr unknown)).2
        simp [records] at reported
      exact ⟨known, (committed.old key old).mp (exactly.kept key old fun found =>
        known ((affected key).mp found))⟩
    · intro all
      refine ⟨fun key old found => ?_, fun key old _ => ?_, committed.staged⟩
      · exact absurd ((affected key).mp found) (all key old).1
      · exact (committed.old key old).mpr (all key old).2

def tableOf (keys : List ProblemKey) : ProblemTable :=
  keys.foldl (fun table key =>
    table.publishUpsert (.newScoped ⟨table.keys.length, 0⟩ key.scope key.kind 1)) ⟨.empty, by simp⟩

/-- Bytes at `0x1000` are written and a symbol is added at `0x2000`; a problem was recorded before
at each of the two addresses, and one for a range around the first. -/
def writeAndName : Transaction where
  problems := tableOf [.new ⟨0, 0x1000⟩ .decodeFailed, .new ⟨0, 0x2000⟩ .decodeFailed,
    ⟨.range ⟨0, 0x0fff, 0x1001⟩, .decodeFailed⟩]
  pendingId := fun offset => ⟨offset + 3, 0⟩
  revisions := ⟨1, 1⟩
  changes := (stage [.bytesWritten ⟨0, 0x1000, 0x1000⟩]).getD ChangeStaging.new
  problemStaging := .empty
  ilChanges := []
  switches := []
  symbols := [⟨some (⟨0, 0x2000⟩, "main"), none⟩]
  references := []
  derivedCoverage := none
  source := ⟨.agent, "patch"⟩

theorem writeAndName_opened : writeAndName.Open where
  pushed := by
    obtain ⟨staging, call, -⟩ := stage_spec [.bytesWritten ⟨0, 0x1000, 0x1000⟩]
    exact ⟨_, by rw [writeAndName, call]; rfl⟩
  recorded := ⟨[], rfl⟩

theorem commit_resolves_exactly_iff_writeAndName :
    ∃ table revisions published, writeAndName.commit = some (table, revisions, published) ∧
      (writeAndName.ResolvesExactly table published ↔
        writeAndName.SeesAll [.symbolAdded ⟨0, 0x2000⟩ "main"]) :=
  commit_resolves_exactly_iff writeAndName_opened rfl

/-- The written bytes and the symbol change an input of two problems that stay. -/
theorem commit_leaves_problems :
    ∃ table revisions published, writeAndName.commit = some (table, revisions, published) ∧
      table.keys =
        [.new ⟨0, 0x2000⟩ .decodeFailed, ⟨.range ⟨0, 0x0fff, 0x1001⟩, .decodeFailed⟩] ∧
      (∀ key ∈ table.keys, key ∈ writeAndName.oldProblems ∧
        ∃ record ∈ published.records, affects key record = true) ∧
      ¬ writeAndName.ResolvesExactly table published := by
  have run : (writeAndName.commit.map fun result => (result.1.keys, result.1.keys.all fun key =>
      decide (key ∈ writeAndName.oldProblems) && result.2.2.records.any (affects key))) =
      some ([.new ⟨0, 0x2000⟩ .decodeFailed, ⟨.range ⟨0, 0x0fff, 0x1001⟩, .decodeFailed⟩],
        true) := by
    decide
  obtain ⟨⟨table, revisions, published⟩, call, result⟩ := map_eq_some_iff.mp run
  obtain ⟨keys, stale⟩ := Prod.mk.inj result
  have stale : ∀ key ∈ table.keys, key ∈ writeAndName.oldProblems ∧
      ∃ record ∈ published.records, affects key record = true := by
    simpa using stale
  refine ⟨table, revisions, published, call, keys, stale, fun exactly => ?_⟩
  have present : ProblemKey.new ⟨0, 0x2000⟩ .decodeFailed ∈ table.keys := by
    rw [keys]
    exact .head _
  obtain ⟨old, affected⟩ := stale _ present
  exact (exactly.resolved _ old affected).1 present

end Transaction

end Fugue.Project
