import Fugue.Ir.SymbolStaging
import Fugue.Project.Change

/-!
# The table of problems

`fugue-core/src/ir/problem/table/mod.rs`: the problems of a project by their key, a scope with a
kind, and the problems that a transaction stages until it commits. The table is its index together
with the problem of each id; a staged `none` is a removal. A table and a staging have every problem
under its own key.
-/

namespace Fugue.Project

open Fugue.Lib Fugue.Ir Fugue.Engine List
open OrdMap (get?_eq_some mem_erase mem_insert)

namespace ProblemKind

/-- `ProblemKind::MIN` (`ir/problem/mod.rs:55`). -/
def min : ProblemKind := .analysisCoverageInvalidated

/-- `ProblemKind::MAX` (`ir/problem/mod.rs:56`). -/
def max : ProblemKind := .workCausesMerged

/-- The position of a kind in the derived order. -/
def position : ProblemKind → ℕ
  | .analysisCoverageInvalidated => 0
  | .avoidedBytes => 1
  | .cannotCreateFunction => 2
  | .cannotCreateFunctionFromHint => 3
  | .changeIndexCollapsed => 4
  | .decodeFailed => 5
  | .functionTooLarge => 6
  | .hinderedByAssertedFact => 7
  | .passFailed => 8
  | .pendingWorkCollapsed => 9
  | .readSetCollapsed => 10
  | .retryBudgetExhausted => 11
  | .switchBoundExceeded => 12
  | .switchUnresolved => 13
  | .unknown => 14
  | .workCausesMerged => 15

theorem position_injective : Function.Injective position := by
  intro left right same
  cases left <;> cases right <;> first | rfl | cases same

theorem position_le (kind : ProblemKind) : kind.position ≤ max.position := by
  cases kind <;> decide

end ProblemKind

/-- The derived order of the scopes (`ir/problem/mod.rs:89-109`): the variant, then its fields. -/
def scopePosition : ProblemScope → ℕ ×ₗ ℕ ×ₗ ℕ ×ₗ ℕ
  | .address address => toLex (0, toLex (address.space, toLex (address.address, 0)))
  | .addressSpace space => toLex (1, toLex (space, toLex (0, 0)))
  | .global => toLex (2, toLex (0, toLex (0, 0)))
  | .range range => toLex (3, toLex (range.space, toLex (range.start, range.stop)))

def scopeAt (position : ℕ ×ₗ ℕ ×ₗ ℕ ×ₗ ℕ) : ProblemScope :=
  let (variant, rest) := ofLex position
  let (space, rest) := ofLex rest
  let (start, stop) := ofLex rest
  match variant with
  | 0 => .address ⟨space, start⟩
  | 1 => .addressSpace space
  | 2 => .global
  | _ => .range ⟨space, start, stop⟩

theorem scopeAt_scopePosition (scope : ProblemScope) : scopeAt (scopePosition scope) = scope := by
  cases scope <;> rfl

/-- `ProblemKey` (`ir/problem/mod.rs:162-166`). -/
structure ProblemKey where
  scope : ProblemScope
  kind : ProblemKind
  deriving DecidableEq, Repr

namespace ProblemKey

/-- `ProblemKey::new` (`ir/problem/mod.rs:169-171`). -/
def new (address : Address) (kind : ProblemKind) : ProblemKey := ⟨.address address, kind⟩

/-- The derived order of the keys. -/
def position (key : ProblemKey) : (ℕ ×ₗ ℕ ×ₗ ℕ ×ₗ ℕ) ×ₗ ℕ :=
  toLex (scopePosition key.scope, key.kind.position)

theorem position_injective : Function.Injective position := by
  rintro ⟨scope, kind⟩ ⟨scope', kind'⟩ same
  obtain ⟨scopes, kinds⟩ := Prod.mk.inj (toLex.injective same)
  exact congrArg₂ mk (Function.LeftInverse.injective scopeAt_scopePosition scopes)
    (ProblemKind.position_injective kinds)

instance : LinearOrder ProblemKey := LinearOrder.lift' position position_injective

theorem le_iff {left right : ProblemKey} : left ≤ right ↔ left.position ≤ right.position := Iff.rfl

/-- Between the keys of two addresses of a space are the keys of the addresses between them: the
other scopes come after all addresses. -/
theorem between_iff {space : AddressSpaceId} {start stop : ℕ} {key : ProblemKey} :
    new ⟨space, start⟩ .min ≤ key ∧ key ≤ new ⟨space, stop⟩ .max ↔
      ∃ address, key.scope = .address address ∧
        (⟨space, start, stop⟩ : AddressRange).Contains address := by
  obtain ⟨scope, kind⟩ := key
  rw [le_iff, le_iff]
  cases scope with
  | address address =>
    have kindLe := kind.position_le
    have zero : ProblemKind.min.position = 0 := rfl
    simp only [position, new, scopePosition, Prod.Lex.toLex_le_toLex, Prod.Lex.toLex_lt_toLex,
      EmbeddingLike.apply_eq_iff_eq, Prod.mk.injEq, ProblemScope.address.injEq, exists_eq_left',
      AddressRange.Contains]
    grind
  | _ =>
    simp [position, new, scopePosition, Prod.Lex.toLex_le_toLex, Prod.Lex.toLex_lt_toLex]

theorem nodup_keys {V : Type} (m : OrdMap ProblemKey V) : (m.entries.map Prod.fst).Nodup :=
  pairwise_map.mpr (m.sorted.imp fun lt => lt.ne)

theorem mem_map_fst_iff {V : Type} {m : OrdMap ProblemKey V} {key : ProblemKey} :
    key ∈ m.entries.map Prod.fst ↔ (m.get? key).isSome = true := by
  simp only [Option.isSome_iff_exists, get?_eq_some, mem_map, Prod.exists,
    exists_and_right, exists_eq_right]

end ProblemKey

/-- `Problem` (`ir/problem/mod.rs:193-201`). -/
structure Problem where
  id : IrId
  scope : ProblemScope
  kind : ProblemKind
  observedRevision : Revision
  attemptCount : ℕ
  firstSeen : Revision
  lastSeen : Revision
  deriving DecidableEq, Repr

namespace Problem

/-- `Problem::new_scoped` (`ir/problem/mod.rs:237-252`). -/
def newScoped (id : IrId) (scope : ProblemScope) (kind : ProblemKind) (revision : Revision) :
    Problem where
  id := id
  scope := scope
  kind := kind
  observedRevision := revision
  attemptCount := 1
  firstSeen := revision
  lastSeen := revision

/-- `Problem::key` (`ir/problem/mod.rs:303-305`). -/
def key (problem : Problem) : ProblemKey := ⟨problem.scope, problem.kind⟩

/-- `Problem::record_attempt` (`ir/problem/mod.rs:307-310`); the count is a `u8`. -/
def recordAttempt (problem : Problem) (revision : Revision) : Problem :=
  { problem with attemptCount := min (problem.attemptCount + 1) 255, lastSeen := revision }

end Problem

/-- `ProblemTable`: the index (`table/mod.rs:120-123`) with the problem of each id. -/
structure ProblemTable where
  problems : OrdMap ProblemKey Problem
  keyed : ∀ key problem, (key, problem) ∈ problems.entries → problem.key = key

namespace ProblemTable

variable (table : ProblemTable)

/-- `keys` (`table/mod.rs:240-245`). -/
def keys : List ProblemKey := table.problems.entries.map Prod.fst

/-- `try_get_by_key` (`table/mod.rs:230-238`). -/
def getByKey? (key : ProblemKey) : Option Problem := table.problems.get? key

/-- `for_each_key_in_range` (`table/mod.rs:91-101`): the keys that the loop goes over. -/
def keysInRange (range : AddressRange) : List ProblemKey :=
  if range.isEmpty then []
  else
    let first := ProblemKey.new ⟨range.space, range.start⟩ .min
    let last := ProblemKey.new ⟨range.space, range.stop⟩ .max
    table.keys.filter fun key => decide (first ≤ key) && decide (key ≤ last)

/-- `publish_upsert` (`table/transient.rs:152-161`). -/
def publishUpsert (problem : Problem) : ProblemTable where
  problems := table.problems.insert problem.key problem
  keyed := by
    intro key other mem
    rcases mem_insert.mp mem with new | ⟨old, -⟩
    · cases new
      rfl
    · exact table.keyed key other old

/-- `publish_remove` (`table/transient.rs:163-171`). -/
def publishRemove (key : ProblemKey) : ProblemTable where
  problems := table.problems.erase key
  keyed := fun other problem mem => table.keyed other problem (mem_erase.mp mem).1

variable {table : ProblemTable} {key other : ProblemKey} {range : AddressRange}

theorem mem_keys : key ∈ table.keys ↔ ∃ problem, (key, problem) ∈ table.problems.entries := by
  simp [keys]

theorem getByKey?_isSome : (table.getByKey? key).isSome = true ↔ key ∈ table.keys :=
  ProblemKey.mem_map_fst_iff.symm

/-- The keys in a range are those of the addresses of the range, and of no other scope. -/
theorem mem_keysInRange : key ∈ table.keysInRange range ↔
    key ∈ table.keys ∧ ∃ address, key.scope = .address address ∧ range.Contains address := by
  unfold keysInRange
  split
  · rename_i empty
    apply iff_of_false not_mem_nil
    intro h
    obtain ⟨-, address, -, -, low, high⟩ := h
    have := of_decide_eq_true empty
    omega
  · simp [mem_filter, Bool.and_eq_true, decide_eq_true_eq, ProblemKey.between_iff]

theorem mem_keys_publishUpsert {problem : Problem} :
    key ∈ (table.publishUpsert problem).keys ↔ key = problem.key ∨ key ∈ table.keys := by
  simp only [mem_keys, publishUpsert, mem_insert, Prod.mk.injEq]
  by_cases same : key = problem.key
  · simp [same]
  · simp [same]

theorem mem_keys_publishRemove :
    key ∈ (table.publishRemove other).keys ↔ key ≠ other ∧ key ∈ table.keys := by
  simp only [mem_keys, publishRemove, mem_erase, exists_and_right]
  exact and_comm

end ProblemTable

/-- `ProblemId::INVALID` (`ir/mod.rs:167`). -/
def invalidProblemId : IrId := ⟨2 ^ 32 - 1, 2 ^ 32 - 1⟩

/-- `ProblemTableStaging` (`table/mod.rs:107-110`). -/
structure ProblemTableStaging where
  staged : OrdMap ProblemKey (Option Problem)
  keyed : ∀ key problem, (key, some problem) ∈ staged.entries → problem.key = key

/-- `PreparedProblemBatch` (`table/mod.rs:112-115`): the records, whose keys are all different. The
ids that the allocator reserves are not kept here. -/
structure PreparedProblemBatch where
  records : List (ProblemKey × Option Problem)
  distinct : (records.map Prod.fst).Nodup
  keyed : ∀ key problem, (key, some problem) ∈ records → problem.key = key

namespace ProblemTableStaging

/-- `ProblemTableStaging::default`. -/
def empty : ProblemTableStaging := ⟨.empty, by simp⟩

variable (staging : ProblemTableStaging)

/-- `contains_key` (`table/mod.rs:424-426`). -/
def containsKey (key : ProblemKey) : Bool :=
  (staging.staged.get? key).isSome

/-- The problem that `insert` puts in (`table/mod.rs:435-450`). -/
def stagedProblem (table : ProblemTable) (key : ProblemKey) (revision : Revision) : Problem :=
  match staging.staged.get? key with
  | some (some problem) => problem.recordAttempt revision
  | some none | none =>
    match table.getByKey? key with
    | some problem => problem.recordAttempt revision
    | none => .newScoped invalidProblemId key.scope key.kind revision

theorem stagedProblem_key (table : ProblemTable) (key : ProblemKey)
    (revision : Revision) : (staging.stagedProblem table key revision).key = key := by
  unfold stagedProblem
  split
  · rename_i problem found
    exact staging.keyed key problem (get?_eq_some.mp found)
  all_goals
    split
    · rename_i problem found
      exact table.keyed key problem (get?_eq_some.mp found)
    · rfl

/-- `ProblemTableStaging::insert` (`table/mod.rs:428-452`). -/
def insert (table : ProblemTable) (scope : ProblemScope)
    (kind : ProblemKind) (revision : Revision) : ProblemTableStaging where
  staged := staging.staged.insert ⟨scope, kind⟩
    (some (staging.stagedProblem table ⟨scope, kind⟩ revision))
  keyed := by
    intro key problem mem
    rcases mem_insert.mp mem with new | ⟨old, -⟩
    · cases new
      exact stagedProblem_key ..
    · exact staging.keyed key problem old

/-- `ProblemTableStaging::remove` (`table/mod.rs:454-456`). -/
def remove (key : ProblemKey) : ProblemTableStaging where
  staged := staging.staged.insert key none
  keyed := by
    intro other problem mem
    rcases mem_insert.mp mem with new | ⟨old, -⟩
    · cases new
    · exact staging.keyed other problem old

/-- The loop of `prepare` (`table/mod.rs:473-519`): a problem that is new gets the next id, and the
removal of a problem that is not in the table has no record. -/
def prepareRecords (table : ProblemTable) (pendingId : ℕ → IrId) :
    ℕ → List (ProblemKey × Option Problem) → List (ProblemKey × Option Problem)
  | _, [] => []
  | inserted, (key, some problem) :: rest =>
    match table.getByKey? key with
    | some _ => (key, some problem) :: prepareRecords table pendingId inserted rest
    | none => (key, some { problem with id := pendingId inserted }) ::
        prepareRecords table pendingId (inserted + 1) rest
  | inserted, (key, none) :: rest =>
    match table.getByKey? key with
    | some _ => (key, none) :: prepareRecords table pendingId inserted rest
    | none => prepareRecords table pendingId inserted rest

variable {table : ProblemTable} {pendingId : ℕ → IrId} {key : ProblemKey} {inserted : ℕ}
  {entries : List (ProblemKey × Option Problem)}

theorem prepareRecords_keys :
    ((prepareRecords table pendingId inserted entries).map Prod.fst).Sublist
      (entries.map Prod.fst) := by
  fun_induction prepareRecords with
  | case1 => exact .slnil
  | case2 inserted key problem rest old found ih => exact ih.cons_cons key
  | case3 inserted key problem rest absent ih => exact ih.cons_cons key
  | case4 inserted key rest old found ih => exact ih.cons_cons key
  | case5 inserted key rest absent ih => exact ih.cons key

theorem prepareRecords_keyed (keyed : ∀ key problem, (key, some problem) ∈ entries →
    problem.key = key) (key : ProblemKey) (problem : Problem)
    (mem : (key, some problem) ∈ prepareRecords table pendingId inserted entries) :
    problem.key = key := by
  fun_induction prepareRecords with
  | case1 => cases mem
  | case2 inserted other staged rest old found ih =>
    rcases mem_cons.mp mem with eq | mem
    · cases eq
      exact keyed key problem (.head _)
    · exact ih (fun k p later => keyed k p (.tail _ later)) mem
  | case3 inserted other staged rest absent ih =>
    rcases mem_cons.mp mem with eq | mem
    · cases eq
      exact keyed key staged (.head _)
    · exact ih (fun k p later => keyed k p (.tail _ later)) mem
  | case4 inserted other rest old found ih =>
    rcases mem_cons.mp mem with eq | mem
    · cases eq
    · exact ih (fun k p later => keyed k p (.tail _ later)) mem
  | case5 inserted other rest absent ih =>
    exact ih (fun k p later => keyed k p (.tail _ later)) mem

theorem exists_mem_prepareRecords :
    (∃ problem, (key, some problem) ∈ prepareRecords table pendingId inserted entries) ↔
      ∃ problem, (key, some problem) ∈ entries := by
  fun_induction prepareRecords with
  | case1 => rfl
  | case2 inserted other staged rest old found ih => simp [exists_or, ih]
  | case3 inserted other staged rest absent ih => simp [exists_or, ih]
  | case4 inserted other rest old found ih => simp [ih]
  | case5 inserted other rest absent ih => simp [ih]

theorem mem_prepareRecords_none :
    (key, none) ∈ prepareRecords table pendingId inserted entries ↔
      (key, none) ∈ entries ∧ key ∈ table.keys := by
  fun_induction prepareRecords with
  | case1 => simp
  | case2 inserted other staged rest old found ih => simp [ih]
  | case3 inserted other staged rest absent ih => simp [ih]
  | case4 inserted other rest old found ih =>
    have known : other ∈ table.keys := ProblemTable.getByKey?_isSome.mp (by rw [found]; rfl)
    simp only [mem_cons, Prod.mk.injEq, and_true, ih, or_and_right]
    refine or_congr_left ⟨?_, And.left⟩
    rintro rfl
    exact ⟨rfl, known⟩
  | case5 inserted other rest absent ih =>
    have unknown : other ∉ table.keys := fun known => by
      simpa [absent] using ProblemTable.getByKey?_isSome.mpr known
    simp only [mem_cons, Prod.mk.injEq, and_true, ih, or_and_right]
    refine (or_iff_right ?_).symm
    rintro ⟨rfl, known⟩
    exact unknown known

/-- `ProblemTableStaging::prepare` (`table/mod.rs:458-536`), without the writes to the store. -/
def prepare (table : ProblemTable) (pendingId : ℕ → IrId) :
    PreparedProblemBatch where
  records := prepareRecords table pendingId 0 staging.staged.entries
  distinct := prepareRecords_keys.nodup (ProblemKey.nodup_keys _)
  keyed := prepareRecords_keyed staging.keyed

end ProblemTableStaging

namespace PreparedProblemBatch

/-- `changes` (`table/mod.rs:540-544`). -/
def changes (batch : PreparedProblemBatch) : List (ProblemKey × Bool) :=
  batch.records.map fun record => (record.1, record.2.isSome)

/-- One round of the loop of `publish` (`table/mod.rs:557-562`). -/
def publishRecord (table : ProblemTable) (record : ProblemKey × Option Problem) : ProblemTable :=
  match record.2 with
  | some problem => table.publishUpsert problem
  | none => table.publishRemove record.1

/-- `publish` (`table/mod.rs:546-563`). -/
def publish (batch : PreparedProblemBatch) (table : ProblemTable) : ProblemTable :=
  batch.records.foldl publishRecord table

variable {key : ProblemKey}

theorem mem_keys_foldl : ∀ {records : List (ProblemKey × Option Problem)}
    {table : ProblemTable}, (records.map Prod.fst).Nodup →
    (∀ key problem, (key, some problem) ∈ records → problem.key = key) →
    (key ∈ (records.foldl publishRecord table).keys ↔
      (∃ problem, (key, some problem) ∈ records) ∨ (key ∈ table.keys ∧ (key, none) ∉ records))
  | [], table, _, _ => by simp
  | (other, problem?) :: records, table, distinct, keyed => by
    rw [map_cons, nodup_cons] at distinct
    obtain ⟨fresh, distinct⟩ := distinct
    have absent : ∀ value, (other, value) ∉ records := fun value mem =>
      fresh (mem_map.mpr ⟨_, mem, rfl⟩)
    rw [foldl_cons, mem_keys_foldl distinct fun k p mem => keyed k p (.tail _ mem)]
    cases problem? with
    | some problem =>
      have own := keyed other problem (.head _)
      by_cases same : key = other
      · subst same
        simp [publishRecord, ProblemTable.mem_keys_publishUpsert, own, absent]
      · simp [publishRecord, ProblemTable.mem_keys_publishUpsert, own, same]
    | none =>
      by_cases same : key = other
      · subst same
        simp [publishRecord, ProblemTable.mem_keys_publishRemove, absent]
      · simp [publishRecord, ProblemTable.mem_keys_publishRemove, same]

variable {staging : ProblemTableStaging} {pendingId : ℕ → IrId} {table : ProblemTable}

/-- After a batch is published, the table has the problems that were staged and the old ones whose
removal was not. -/
theorem mem_keys_publish_prepare :
    key ∈ ((staging.prepare table pendingId).publish table).keys ↔
      (∃ problem, staging.staged.get? key = some (some problem)) ∨
        (key ∈ table.keys ∧ staging.staged.get? key ≠ some none) := by
  rw [publish, mem_keys_foldl (staging.prepare table pendingId).distinct
    (staging.prepare table pendingId).keyed]
  simp only [ProblemTableStaging.prepare, ProblemTableStaging.exists_mem_prepareRecords,
    ProblemTableStaging.mem_prepareRecords_none, get?_eq_some, ne_eq, not_and]
  refine or_congr_right (and_congr_right fun known => ?_)
  exact ⟨fun h mem => h mem known, fun h mem _ => h mem⟩

theorem mem_keys_prepare :
    key ∈ (staging.prepare table pendingId).records.map Prod.fst ↔
      (∃ problem, staging.staged.get? key = some (some problem)) ∨
        (key ∈ table.keys ∧ staging.staged.get? key = some none) := by
  simp only [get?_eq_some]
  rw [← @ProblemTableStaging.exists_mem_prepareRecords table pendingId key 0, and_comm,
    ← @ProblemTableStaging.mem_prepareRecords_none table pendingId key 0, mem_map]
  constructor
  · intro h
    obtain ⟨⟨other, problem?⟩, mem, rfl⟩ := h
    cases problem? with
    | none => exact .inr mem
    | some problem => exact .inl ⟨problem, mem⟩
  · intro h
    rcases h with ⟨problem, mem⟩ | mem
    · exact ⟨_, mem, rfl⟩
    · exact ⟨_, mem, rfl⟩

theorem mem_changes : (key, false) ∈ (staging.prepare table pendingId).changes ↔
      key ∈ table.keys ∧ staging.staged.get? key = some none := by
  rw [get?_eq_some, changes, mem_map, and_comm]
  refine Iff.trans ?_ (@ProblemTableStaging.mem_prepareRecords_none table pendingId key 0 _)
  constructor
  · intro h
    obtain ⟨⟨other, problem?⟩, mem, eq⟩ := h
    cases problem? with
    | none =>
      cases eq
      exact mem
    | some problem => cases eq
  · exact fun mem => ⟨(key, none), mem, rfl⟩

end PreparedProblemBatch

end Fugue.Project
