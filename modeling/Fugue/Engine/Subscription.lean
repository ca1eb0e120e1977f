import Fugue.Project.ChangeStaging

/-!
# Subscriptions

`fugue-core/src/engine/change.rs` and `engine/subscription.rs`: a subscriber receives, through a
bounded channel, what a filter leaves of each change set that is published. When the channel is full
the publisher drains it and sends one `Resynchronise` record in place of what it held. The
subscriber takes change sets from the channel at any moment, also between two steps of the drain.

In every run nothing is received out of order. Nothing that a filter matches is missed in the runs
in which a collapsed transaction only meets filters that let `Resynchronise` records through.
-/

namespace Fugue.Engine

open Fugue.Ir Fugue.Project List Option ChangeStaging ChangeSet

/-- `ChangeSourceFilter` (`change.rs:7-11`). -/
structure ChangeSourceFilter where
  categories : List ChangeCategory
  labels : List String

/-- `ChangeSourceFilter::is_empty` (`change.rs:33-35`). -/
def ChangeSourceFilter.isEmpty (filter : ChangeSourceFilter) : Bool :=
  filter.categories.isEmpty && filter.labels.isEmpty

/-- `ChangeSourceFilter::matches` (`change.rs:37-47`). -/
def ChangeSourceFilter.matches (filter : ChangeSourceFilter) (provenance : ChangeProvenance) :
    Bool :=
  filter.isEmpty || provenance.any fun source =>
    (filter.categories.isEmpty || filter.categories.contains source.category) &&
      (filter.labels.isEmpty || filter.labels.any fun label => label == source.label)

/-- `ChangeFilter` (`change.rs:50-55`). -/
structure ChangeFilter where
  kinds : ChangeKinds
  region : Option AddressRangeSet
  sources : ChangeSourceFilter

/-- `ChangeFilter::matches` (`change.rs:112-123`). -/
def ChangeFilter.matches (filter : ChangeFilter) (record : ChangeRecord) : Bool :=
  filter.kinds.intersects record.kind &&
    match filter.region with
    | none => true
    | some region => record.ranges.isEmpty || record.ranges.any region.intersectsRange

namespace ChangeFilter

/-- `ChangeFilter::apply` (`change.rs:125-143`). -/
def apply (filter : ChangeFilter) (changes : ChangeSet) : Option ChangeSet :=
  if !filter.sources.matches changes.provenance || !changes.contains filter.kinds then none
  else
    let passed := changes.records.filter filter.matches
    if passed.isEmpty then none
    else some ((ChangeSet.withRecords changes.revision passed).mergeProvenance changes.provenance)

variable {filter : ChangeFilter} {changes : ChangeSet} {record : ChangeRecord}

theorem apply_eq_some {passed : ChangeSet} (call : filter.apply changes = some passed) :
    passed.revision = changes.revision ∧
      passed.records = changes.records.filter filter.matches := by
  unfold apply at call
  split at call
  · cases call
  · dsimp only at call
    split at call
    · cases call
    · cases call
      exact ⟨rfl, rfl⟩

theorem apply_ne_none {revision : Revision} {records : List ChangeRecord} {source : ChangeSource}
    (sources : filter.sources.matches [source] = true) (mem : record ∈ records)
    (matching : filter.matches record = true) :
    filter.apply ((withRecords revision records).withProvenance source) ≠ none := by
  have kinds : (withRecords revision records).contains filter.kinds = true := by
    refine ChangeSet.contains_withRecords.mpr ⟨record, mem, ?_⟩
    rw [ChangeKinds.intersects_comm]
    exact (Bool.and_eq_true_iff.mp matching).1
  have passes : (!filter.sources.matches
      ((withRecords revision records).withProvenance source).provenance ||
      !((withRecords revision records).withProvenance source).contains filter.kinds) =
      false := by
    have kinds' : ((withRecords revision records).withProvenance source).contains
        filter.kinds = true := kinds
    have sources' : filter.sources.matches
      ((withRecords revision records).withProvenance source).provenance = true := sources
    rw [kinds', sources']
    rfl
  have passed : (records.filter filter.matches).isEmpty = false := by
    rw [isEmpty_eq_false_iff_exists_mem]
    exact ⟨record, mem_filter.mpr ⟨mem, matching⟩⟩
  unfold apply
  rw [passes]
  simp only [Bool.false_eq_true, if_false]
  intro dropped
  split at dropped
  · rename_i empty
    exact absurd (passed.symm.trans empty) Bool.noConfusion
  · cases dropped

end ChangeFilter

/-- `Subscriber::resynchronisation` (`subscription.rs:53-70`). -/
def resynchronisation (revision : Revision) (label : String) : ChangeSet :=
  (ChangeSet.withRecords revision [.resynchronise revision]).withProvenance ⟨.engine, label⟩

/-- Where the publisher is in `materialise`: it has returned, or it drains the channel to send a
change set, or it has found the channel empty and sends it. -/
inductive Publisher where
  | idle
  | draining (changes : ChangeSet)
  | sending (changes : ChangeSet)

/-- A committed transaction: its pushes, and the number of change sets that had been received. -/
structure Commit where
  pushes : List ChangeRecord
  source : ChangeSource
  revision : Revision
  before : Nat

/-- The project, its publisher, and one subscriber with its channel. `retained` is false once
`materialise` has returned false; `committed` is the log of the transactions. -/
structure Delivery where
  revision : Revision
  queue : List ChangeSet
  publisher : Publisher
  connected : Bool
  retained : Bool
  received : List ChangeSet
  committed : List Commit

/-- What can happen: a transaction commits and its change set is published, the publisher takes a
step of its drain or sends, the subscriber receives, or the subscription is dropped. -/
inductive Event where
  | commit (pushes : List ChangeRecord) (source : ChangeSource)
  | drain
  | send
  | receive
  | close

namespace Delivery

/-- `Worker::subscribe` (`worker.rs:1643-1657`): a subscriber of a project with changes starts with
a resynchronisation. -/
def subscribe (revision : Revision) : Delivery where
  revision := revision
  queue := if revision = 0 then [] else [resynchronisation revision "subscription"]
  publisher := .idle
  connected := true
  retained := true
  received := []
  committed := []

/-- `TrySend` on the channel (`open_subscription` makes its capacity at least one). -/
def trySend (capacity : Nat) (delivery : Delivery) (changes : ChangeSet) : Option Delivery :=
  if delivery.queue.length < max capacity 1 then
    some { delivery with queue := delivery.queue ++ [changes] }
  else none

/-- `Subscriber::materialise` up to the drain (`subscription.rs:29-51`). -/
def materialise (filter : ChangeFilter) (capacity : Nat) (delivery : Delivery)
    (changes : ChangeSet) : Delivery :=
  let resync :=
    { delivery with publisher := .draining (resynchronisation changes.revision "resynchronisation") }
  if !delivery.connected then { delivery with retained := false }
  else if maxDetailedChangeRecords < changes.len then resync
  else
    match filter.apply changes with
    | none => delivery
    | some passed => (delivery.trySend capacity passed).getD resync

/-- The delivery with one more transaction in the log. -/
def logged (delivery : Delivery) (pushes : List ChangeRecord) (source : ChangeSource)
    (revision : Revision) : Delivery :=
  { delivery with
    revision := revision
    committed := delivery.committed ++ [⟨pushes, source, revision, delivery.received.length⟩] }

/-- A transaction commits (`ProjectTransaction::commit`, `Worker::with_transaction`): the revision
advances and the change set is published if there are records. -/
def commit (filter : ChangeFilter) (capacity : Nat) (delivery : Delivery)
    (pushes : List ChangeRecord) (source : ChangeSource) : Option Delivery := do
  let staging ← ChangeStaging.stage pushes
  if staging.records.isEmpty then return delivery.logged pushes source delivery.revision
  else
    let revision := delivery.revision + 1
    let delivery := delivery.logged pushes source revision
    if delivery.retained then
      return delivery.materialise filter capacity (staging.finish revision source)
    else return delivery

/-- One event; `none` where it cannot happen. -/
def step (filter : ChangeFilter) (capacity : Nat) (delivery : Delivery) : Event → Option Delivery
  | .commit pushes source =>
    match delivery.publisher with
    | .idle => delivery.commit filter capacity pushes source
    | _ => none
  | .drain =>
    match delivery.publisher, delivery.queue with
    | .draining changes, [] => some { delivery with publisher := .sending changes }
    | .draining _, _ :: queue => some { delivery with queue }
    | _, _ => none
  | .send =>
    match delivery.publisher with
    | .sending changes => some
        { (delivery.trySend capacity changes).getD { delivery with retained := false } with
          publisher := .idle }
    | _ => none
  | .receive =>
    match delivery.connected, delivery.queue with
    | true, changes :: queue =>
      some { delivery with queue, received := delivery.received ++ [changes] }
    | _, _ => none
  | .close => some { delivery with connected := false }

end Delivery

/-- The runs of a subscription in which each commit meets a condition. -/
inductive Deliveries (filter : ChangeFilter) (capacity : Nat)
    (condition : List ChangeRecord → ChangeSource → Prop) : Delivery → Prop
  | subscribe (revision : Revision) :
    Deliveries filter capacity condition (.subscribe revision)
  | step {delivery delivery' : Delivery} {event : Event}
    (run : Deliveries filter capacity condition delivery)
    (meets : ∀ pushes source, event = .commit pushes source → condition pushes source)
    (call : delivery.step filter capacity event = some delivery') :
    Deliveries filter capacity condition delivery'

def Commit.Stages (commit : Commit) (record : ChangeRecord) : Prop :=
  ∃ staging, ChangeStaging.stageDetailed commit.pushes = some staging ∧ record ∈ staging.records

/-- A staged record that the filter matches, from a source that it matches. -/
structure Wanted (filter : ChangeFilter) (commit : Commit) (record : ChangeRecord) : Prop where
  staged : commit.Stages record
  matching : filter.matches record = true
  sources : filter.sources.matches [commit.source] = true

/-- The change set holds the record of the transaction, or a resynchronisation to its revision or a
later one. -/
def Announces (changes : ChangeSet) (commit : Commit) (record : ChangeRecord) : Prop :=
  (changes.revision = commit.revision ∧ record ∈ changes.records) ∨
    ∃ revision, .resynchronise revision ∈ changes.records ∧ commit.revision ≤ revision

/-- Each record that the subscriber wants was received after its transaction or is in the channel,
or a resynchronisation was or is. -/
def NothingMissed (filter : ChangeFilter) (delivery : Delivery) : Prop :=
  ∀ commit ∈ delivery.committed, ∀ record, Wanted filter commit record →
    ∃ changes ∈ delivery.received.drop commit.before ++ delivery.queue,
      Announces changes commit record

/-- The condition on a commit: if it is collapsed, then the filter lets `Resynchronise` records
through, or wants nothing that the transaction stages. -/
def Announced (filter : ChangeFilter) (pushes : List ChangeRecord) (source : ChangeSource) : Prop :=
  ∀ staging, ChangeStaging.stage pushes = some staging → staging.collapsed = true →
    filter.kinds.intersects .resynchronise = true ∨
      ∀ record before revision, ¬ Wanted filter ⟨pushes, source, revision, before⟩ record

namespace Delivery

variable {filter : ChangeFilter} {capacity : Nat} {delivery delivery' : Delivery}

/-- What holds of every delivery: the change sets come in the order of their revisions, and what a
publisher is about to send is a resynchronisation to the current revision. -/
structure Ordered (delivery : Delivery) : Prop where
  sorted : (delivery.received ++ delivery.queue).Pairwise fun left right =>
    left.revision ≤ right.revision
  bounded : ∀ changes ∈ delivery.received ++ delivery.queue, changes.revision ≤ delivery.revision
  commits : ∀ commit ∈ delivery.committed,
    commit.revision ≤ delivery.revision ∧ commit.before ≤ delivery.received.length
  draining : ∀ changes, delivery.publisher = .draining changes ∨
      delivery.publisher = .sending changes →
    changes.revision = delivery.revision ∧ .resynchronise delivery.revision ∈ changes.records
  sending : ∀ changes, delivery.publisher = .sending changes → delivery.queue = []

theorem subscribe_ordered (revision : Revision) : (subscribe revision).Ordered := by
  refine ⟨?_, ?_, by simp [subscribe], by simp [subscribe], by simp [subscribe]⟩
  · by_cases zero : revision = 0 <;> simp [subscribe, zero]
  · by_cases zero : revision = 0 <;> simp [subscribe, zero, resynchronisation,
      withProvenance, withRecords]

variable {pushes : List ChangeRecord} {source : ChangeSource} {revision : Revision}

theorem logged_ordered (ordered : delivery.Ordered) (le : delivery.revision ≤ revision)
    (idle : delivery.publisher = .idle) : (delivery.logged pushes source revision).Ordered := by
  refine ⟨ordered.sorted, ?_, ?_, ?_, ?_⟩
  · intro changes mem
    exact (ordered.bounded changes mem).trans le
  · intro commit mem
    rcases mem_append.mp mem with old | new
    · obtain ⟨bound, before⟩ := ordered.commits commit old
      exact ⟨bound.trans le, before⟩
    · rw [mem_singleton.mp new]
      exact ⟨le_rfl, le_rfl⟩
  · intro changes busy
    simp [logged, idle] at busy
  · intro changes busy
    simp [logged, idle] at busy

theorem materialise_cases (filter : ChangeFilter) (capacity : Nat) (delivery : Delivery)
    (changes : ChangeSet) :
    (delivery.connected = false ∧
      delivery.materialise filter capacity changes = { delivery with retained := false }) ∨
    (delivery.materialise filter capacity changes = { delivery with
      publisher := .draining (resynchronisation changes.revision "resynchronisation") }) ∨
    (filter.apply changes = none ∧ delivery.materialise filter capacity changes = delivery) ∨
    ∃ passed, filter.apply changes = some passed ∧
      delivery.materialise filter capacity changes =
        { delivery with queue := delivery.queue ++ [passed] } := by
  unfold materialise trySend
  cases connected : delivery.connected with
  | false => exact .inl ⟨rfl, by simp⟩
  | true =>
    simp only [Bool.not_true, Bool.false_eq_true, if_false]
    split
    · exact .inr (.inl rfl)
    · cases applied : filter.apply changes with
      | none => exact .inr (.inr (.inl ⟨rfl, rfl⟩))
      | some passed =>
        dsimp only
        split
        · exact .inr (.inr (.inr ⟨passed, rfl, rfl⟩))
        · exact .inr (.inl rfl)

theorem materialise_ordered (ordered : delivery.Ordered) (idle : delivery.publisher = .idle)
    {changes : ChangeSet} (current : changes.revision = delivery.revision) :
    (delivery.materialise filter capacity changes).Ordered := by
  rcases materialise_cases filter capacity delivery changes with
    ⟨-, eq⟩ | eq | ⟨-, eq⟩ | ⟨passed, applied, eq⟩
  · rw [eq]
    exact ⟨ordered.sorted, ordered.bounded, ordered.commits, ordered.draining, ordered.sending⟩
  · rw [eq]
    refine ⟨ordered.sorted, ordered.bounded, ordered.commits, ?_, ?_⟩
    · intro sent busy
      simp only [Publisher.draining.injEq, reduceCtorEq, or_false] at busy
      rw [← busy, ← current]
      exact ⟨rfl, mem_singleton.mpr rfl⟩
    · intro sent busy
      cases busy
  · rw [eq]
    exact ordered
  · rw [eq]
    have revision := (ChangeFilter.apply_eq_some applied).1.trans current
    refine ⟨?_, ?_, ordered.commits, ordered.draining, ?_⟩
    · rw [← append_assoc, pairwise_append]
      refine ⟨ordered.sorted, pairwise_singleton _ _, ?_⟩
      intro left mem right mem'
      rw [mem_singleton.mp mem', revision]
      exact ordered.bounded left mem
    · intro sent mem
      rw [← append_assoc] at mem
      rcases mem_append.mp mem with old | new
      · exact ordered.bounded sent old
      · rw [mem_singleton.mp new, revision]
    · intro sent busy
      rw [idle] at busy
      cases busy

theorem commit_cases (call : delivery.commit filter capacity pushes source = some delivery') :
    ∃ staging, stage pushes = some staging ∧
      ((staging.records = [] ∧ delivery' = delivery.logged pushes source delivery.revision) ∨
      (delivery.retained = true ∧ delivery' =
        (delivery.logged pushes source (delivery.revision + 1)).materialise filter capacity
          (staging.finish (delivery.revision + 1) source)) ∨ (delivery.retained = false ∧
        delivery' = delivery.logged pushes source (delivery.revision + 1))) := by
  obtain ⟨staging, staged, -⟩ := stage_spec pushes
  refine ⟨staging, staged, ?_⟩
  unfold commit at call
  rw [staged, Lib.some_bind] at call
  split at call
  · rename_i empty
    cases call
    exact .inl ⟨List.isEmpty_iff.mp empty, rfl⟩
  · dsimp only at call
    split at call
    · rename_i retained
      cases call
      exact .inr (.inl ⟨retained, rfl⟩)
    · rename_i retained
      cases call
      exact .inr (.inr ⟨Bool.eq_false_of_not_eq_true retained, rfl⟩)

theorem step_ordered (ordered : delivery.Ordered) {event : Event}
    (call : delivery.step filter capacity event = some delivery') : delivery'.Ordered := by
  cases event with
  | commit pushes source =>
    dsimp only [step] at call
    split at call
    · rename_i idle
      obtain ⟨staging, -, ⟨-, rfl⟩ | ⟨-, rfl⟩ | ⟨-, rfl⟩⟩ := commit_cases call
      · exact logged_ordered ordered le_rfl idle
      · exact materialise_ordered (logged_ordered ordered (Nat.le_succ _) idle) idle rfl
      · exact logged_ordered ordered (Nat.le_succ _) idle
    · cases call
  | drain =>
    dsimp only [step] at call
    split at call
    · rename_i changes busy empty
      cases call
      refine ⟨ordered.sorted, ordered.bounded, ordered.commits, ?_, fun _ _ => empty⟩
      intro sent sending
      simp only [reduceCtorEq, Publisher.sending.injEq, false_or] at sending
      exact sending ▸ ordered.draining changes (.inl busy)
    · rename_i changes head queue busy full
      cases call
      have sub : (delivery.received ++ queue).Sublist (delivery.received ++ delivery.queue) := by
        rw [full]
        exact List.Sublist.append_left (sublist_cons_self _ _) _
      refine ⟨ordered.sorted.sublist sub, ?_, ordered.commits, ordered.draining, ?_⟩
      · intro sent mem
        exact ordered.bounded sent (sub.subset mem)
      · intro sent sending
        rw [busy] at sending
        cases sending
    · cases call
  | send =>
    dsimp only [step] at call
    split at call
    · rename_i changes sending
      cases call
      have empty := ordered.sending changes sending
      have sends : delivery.trySend capacity changes =
          some { delivery with queue := delivery.queue ++ [changes] } := by
        apply if_pos
        rw [empty]
        exact lt_of_lt_of_le Nat.zero_lt_one (le_max_right _ _)
      obtain ⟨revision, -⟩ := ordered.draining changes (.inr sending)
      rw [sends, getD_some]
      refine ⟨?_, ?_, ordered.commits, by simp, by simp⟩
      · rw [← append_assoc, pairwise_append]
        refine ⟨ordered.sorted, pairwise_singleton _ _, ?_⟩
        intro left mem right mem'
        rw [mem_singleton.mp mem', revision]
        exact ordered.bounded left mem
      · intro sent mem
        rw [← append_assoc] at mem
        rcases mem_append.mp mem with old | new
        · exact ordered.bounded sent old
        · rw [mem_singleton.mp new, revision]
    · cases call
  | receive =>
    dsimp only [step] at call
    split at call
    · rename_i changes queue _ full
      cases call
      have same : delivery.received ++ [changes] ++ queue = delivery.received ++ delivery.queue := by
        rw [full, append_assoc, singleton_append]
      refine ⟨?_, ?_, ?_, ordered.draining, ?_⟩
      · rw [same]
        exact ordered.sorted
      · rw [same]
        exact ordered.bounded
      · intro commit mem
        obtain ⟨revision, before⟩ := ordered.commits commit mem
        refine ⟨revision, ?_⟩
        rw [length_append]
        omega
      · intro sent sending
        rw [ordered.sending sent sending] at full
        cases full
    · cases call
  | close =>
    cases call
    exact ⟨ordered.sorted, ordered.bounded, ordered.commits, ordered.draining, ordered.sending⟩

/-- A filter that lets `Resynchronise` records through matches them, whatever its region. -/
theorem matches_resynchronise (kinds : filter.kinds.intersects .resynchronise = true)
    (revision : Revision) : filter.matches (.resynchronise revision) = true := by
  unfold ChangeFilter.matches
  rw [show (ChangeRecord.resynchronise revision).kind = .resynchronise from rfl, kinds]
  cases filter.region <;> rfl

theorem finish_announces (meets : Announced filter pushes source) {staging : ChangeStaging}
    (staged : stage pushes = some staging) {before : Nat}
    {record : ChangeRecord} (wanted : Wanted filter ⟨pushes, source, revision, before⟩ record) :
    ∃ passed, filter.apply (staging.finish revision source) = some passed ∧
      Announces passed ⟨pushes, source, revision, before⟩ record := by
  obtain ⟨staging', staged', inv, same⟩ := stage_spec pushes
  rw [staged] at staged'
  cases staged'
  -- the record that passes the filter: the wanted one, or the resynchronisation in its place
  have key : ∃ shown, shown ∈ (staging.finish revision source).records ∧
      filter.matches shown = true ∧ (shown = record ∨ shown = .resynchronise revision) := by
    cases collapsed : staging.collapsed with
    | false =>
      obtain ⟨detailed, call, mem⟩ := wanted.staged
      rw [same collapsed] at call
      cases call
      refine ⟨record, ?_, wanted.matching, .inl rfl⟩
      simpa [finish, collapsed, withProvenance, withRecords]
        using mem
    | true =>
      rcases meets staging staged collapsed with kinds | none
      · refine ⟨_, ?_, matches_resynchronise kinds revision, .inr rfl⟩
        simp [finish, collapsed, inv.collapsed collapsed, withProvenance,
          withRecords]
      · exact absurd wanted (none record before revision)
  obtain ⟨shown, mem, matching, which⟩ := key
  obtain ⟨passed, applied⟩ := ne_none_iff_exists'.mp
    (ChangeFilter.apply_ne_none wanted.sources mem matching)
  obtain ⟨revisionEq, recordsEq⟩ := ChangeFilter.apply_eq_some applied
  have passes : shown ∈ passed.records := by
    rw [recordsEq]
    exact mem_filter.mpr ⟨mem, matching⟩
  refine ⟨passed, applied, ?_⟩
  rcases which with rfl | rfl
  · exact .inl ⟨revisionEq, passes⟩
  · exact .inr ⟨revision, passes, le_rfl⟩

theorem logged_nothingMissed (missed : NothingMissed filter delivery) (added : List ChangeSet)
    (new : ∀ record, Wanted filter ⟨pushes, source, revision, delivery.received.length⟩ record →
      ∃ changes ∈ delivery.queue ++ added,
        Announces changes ⟨pushes, source, revision, delivery.received.length⟩ record) :
    NothingMissed filter { delivery.logged pushes source revision with
      queue := delivery.queue ++ added } := by
  intro commit mem record wanted
  rcases mem_append.mp mem with old | last
  · obtain ⟨changes, mem, announces⟩ := missed commit old record wanted
    refine ⟨changes, ?_, announces⟩
    rw [← append_assoc]
    exact mem_append_left _ mem
  · rw [mem_singleton.mp last] at wanted ⊢
    obtain ⟨changes, mem, announces⟩ := new record wanted
    exact ⟨changes, mem_append_right _ mem, announces⟩

theorem logged_nothingMissed_of_unwanted (missed : NothingMissed filter delivery)
    (unwanted : ∀ record,
      ¬ Wanted filter ⟨pushes, source, revision, delivery.received.length⟩ record) :
    NothingMissed filter (delivery.logged pushes source revision) := by
  have grown := logged_nothingMissed missed [] fun record wanted => absurd wanted (unwanted record)
  rwa [append_nil] at grown

/-- Nothing is missed while the subscriber is retained and the publisher has returned. -/
def Complete (filter : ChangeFilter) (delivery : Delivery) : Prop :=
  delivery.retained = true → delivery.publisher = .idle → NothingMissed filter delivery

theorem commit_complete (complete : delivery.Complete filter) (idle : delivery.publisher = .idle)
    (meets : Announced filter pushes source)
    (call : delivery.commit filter capacity pushes source = some delivery') :
    delivery'.Complete filter := by
  obtain ⟨staging, staged, ⟨empty, rfl⟩ | ⟨retained, rfl⟩ | ⟨retained, rfl⟩⟩ := commit_cases call
  · intro retained _
    apply logged_nothingMissed_of_unwanted (complete retained idle)
    intro record wanted
    obtain ⟨staging', staged', inv, same⟩ := stage_spec pushes
    rw [staged] at staged'
    cases staged'
    have detailed : staging.collapsed = false := by
      cases collapsed : staging.collapsed with
      | false => rfl
      | true =>
        rw [inv.collapsed collapsed] at empty
        cases empty
    obtain ⟨found, call, mem⟩ := wanted.staged
    rw [same detailed] at call
    cases call
    rw [empty] at mem
    cases mem
  · intro retained' idle'
    rcases materialise_cases filter capacity
      (delivery.logged pushes source (delivery.revision + 1))
      (staging.finish (delivery.revision + 1) source) with
      ⟨-, eq⟩ | eq | ⟨applied, eq⟩ | ⟨passed, applied, eq⟩
    · rw [eq] at retained'
      cases retained'
    · rw [eq] at idle'
      cases idle'
    · rw [eq]
      apply logged_nothingMissed_of_unwanted (complete retained idle)
      intro record wanted
      obtain ⟨passed, applied', -⟩ := finish_announces meets staged wanted
      rw [applied] at applied'
      cases applied'
    · rw [eq]
      apply logged_nothingMissed (complete retained idle) [passed]
      intro record wanted
      obtain ⟨passed', applied', announces⟩ := finish_announces meets staged wanted
      rw [applied] at applied'
      cases applied'
      exact ⟨passed, by simp, announces⟩
  · intro retained'
    exact absurd (retained.symm.trans retained') Bool.noConfusion

theorem step_complete (ordered : delivery.Ordered) (complete : delivery.Complete filter)
    {event : Event} (meets : ∀ pushes source, event = .commit pushes source →
      Announced filter pushes source)
    (call : delivery.step filter capacity event = some delivery') :
    delivery'.Complete filter := by
  cases event with
  | commit pushes source =>
    dsimp only [step] at call
    split at call
    · rename_i idle
      exact commit_complete complete idle (meets pushes source rfl) call
    · cases call
  | drain =>
    dsimp only [step] at call
    split at call
    · cases call
      intro _ idle
      cases idle
    · rename_i changes head queue busy full
      cases call
      intro _ idle
      rw [busy] at idle
      cases idle
    · cases call
  | send =>
    dsimp only [step] at call
    split at call
    · rename_i changes sending
      cases call
      -- the resynchronisation that is sent stands for every transaction so far
      obtain ⟨-, resynchronises⟩ := ordered.draining changes (.inr sending)
      intro retained _ commit mem record _
      have sends : delivery.trySend capacity changes =
          some { delivery with queue := delivery.queue ++ [changes] } := by
        apply if_pos
        rw [ordered.sending changes sending]
        exact lt_of_lt_of_le Nat.zero_lt_one (le_max_right _ _)
      rw [sends, getD_some] at mem ⊢
      exact ⟨changes, by simp, .inr ⟨_, resynchronises, (ordered.commits commit mem).1⟩⟩
    · cases call
  | receive =>
    dsimp only [step] at call
    split at call
    · rename_i changes queue _ full
      cases call
      intro retained idle commit mem record wanted
      obtain ⟨found, mem', announces⟩ := complete retained idle commit mem record wanted
      refine ⟨found, ?_, announces⟩
      rw [drop_append_of_le_length (ordered.commits commit mem).2, append_assoc,
        singleton_append, ← full]
      exact mem'
    · cases call
  | close =>
    cases call
    exact complete

end Delivery

variable {filter : ChangeFilter} {capacity : Nat} {delivery : Delivery}

theorem Deliveries.ordered {condition : List ChangeRecord → ChangeSource → Prop}
    (run : Deliveries filter capacity condition delivery) : delivery.Ordered := by
  induction run with
  | subscribe revision => exact Delivery.subscribe_ordered revision
  | step _ _ call ordered => exact Delivery.step_ordered ordered call

theorem Deliveries.complete (run : Deliveries filter capacity (Announced filter) delivery) :
    delivery.Complete filter := by
  induction run with
  | subscribe revision =>
    intro _ _ commit mem
    cases mem
  | step run meets call complete => exact Delivery.step_complete run.ordered complete meets call

/-- In every run in which each collapsed transaction is announced to the filter, a subscriber that
is retained misses nothing that it wants, and it receives the change sets in the order of their
revisions. -/
theorem subscriber_misses_nothing (filter : ChangeFilter) (capacity : Nat) (delivery : Delivery)
    (run : Deliveries filter capacity (Announced filter) delivery) :
    (delivery.retained = true → delivery.publisher = .idle → NothingMissed filter delivery) ∧
      delivery.received.Pairwise fun left right => left.revision ≤ right.revision :=
  ⟨run.complete, (pairwise_append.mp run.ordered.sorted).1⟩

def bytesOnly : ChangeFilter := ⟨.bytesWritten, none, ⟨[], []⟩⟩

def writeByte : ChangeRecord := .bytesWritten ⟨0, 0, 0⟩

theorem step_commit_new {pushes : List ChangeRecord} {source : ChangeSource}
    {staging : ChangeStaging} (staged : stage pushes = some staging)
    (nonempty : staging.records.isEmpty = false)
    (bound : staging.records.length ≤ maxDetailedChangeRecords) :
    (Delivery.subscribe 0).step filter capacity (.commit pushes source) =
      some { (Delivery.subscribe 0).logged pushes source 1 with
        queue := (filter.apply (staging.finish 1 source)).toList } := by
  have len : ¬ maxDetailedChangeRecords < (staging.finish 1 source).len := by
    unfold finish ChangeSet.len
    dsimp only [withProvenance, withRecords]
    split
    · rw [length_set]
      omega
    · omega
  have room : 0 < max capacity 1 := lt_of_lt_of_le Nat.zero_lt_one (le_max_right _ _)
  dsimp only [Delivery.step, Delivery.subscribe, Delivery.commit]
  rw [staged, Lib.some_bind, nonempty]
  simp only [Bool.false_eq_true, if_false, Delivery.logged, if_true, zero_add,
    Delivery.materialise, Bool.not_true, len, Option.pure_def]
  cases applied : filter.apply (staging.finish 1 source) with
  | none => rfl
  | some passed => simp [Delivery.trySend, room]

theorem subscriber_misses_nothing_one_write :
    ∃ delivery, delivery.received ≠ [] ∧
      Deliveries bytesOnly 1 (Announced bytesOnly) delivery ∧ NothingMissed bytesOnly delivery := by
  let source : ChangeSource := ⟨.agent, "update"⟩
  have staged : stage [writeByte] = some (ChangeStaging.new.append writeByte) := rfl
  have announced : Announced bytesOnly [writeByte] source := by
    intro staging call collapsed
    cases call
    cases collapsed
  obtain ⟨passed, applied⟩ := ne_none_iff_exists'.mp
    (@ChangeFilter.apply_ne_none bytesOnly writeByte 1 [writeByte] source rfl
      (mem_singleton.mpr rfl) rfl)
  have commits := @step_commit_new bytesOnly 1 _ source _ staged rfl (by decide)
  have finished : bytesOnly.apply ((ChangeStaging.new.append writeByte).finish 1 source) =
    some passed := applied
  rw [finished] at commits
  have run : Deliveries bytesOnly 1 (Announced bytesOnly) _ :=
    @Deliveries.step _ _ _ _ _ .receive
      (@Deliveries.step _ _ _ _ _ (.commit [writeByte] source) (.subscribe 0)
        (by rintro _ _ ⟨⟩; exact announced) commits) (by rintro _ _ ⟨⟩) rfl
  exact ⟨_, by simp, run, (subscriber_misses_nothing bytesOnly 1 _ run).1 rfl rfl⟩

/-- A transaction that writes more than the staging holds in detail. -/
def manyWrites : List ChangeRecord := List.replicate (maxDetailedChangeRecords + 1) writeByte

/-- A subscriber for written bytes, retained and with an empty channel, receives nothing of a
transaction that writes bytes and is collapsed. -/
theorem subscriber_misses_collapsed_writes :
    ∃ delivery, Deliveries bytesOnly 1 (fun _ _ => True) delivery ∧ delivery.retained = true ∧
      delivery.publisher = .idle ∧ ¬ NothingMissed bytesOnly delivery := by
  let source : ChangeSource := ⟨.agent, "update"⟩
  have unkeyed : ∀ n, ∀ record ∈ List.replicate n writeByte,
      StagedChangeKey.forRecord record = none := by
    intro n record mem
    rw [eq_of_mem_replicate mem]
    rfl
  obtain ⟨staging, staged, collapsed, records⟩ := @stage_unkeyed_collapses writeByte
    _ (unkeyed maxDetailedChangeRecords) length_replicate rfl
  rw [← replicate_succ'] at staged
  have dropped : bytesOnly.apply (staging.finish 1 source) = none := by
    unfold finish
    rw [collapsed, records, if_pos rfl]
    have kinds : (withRecords 1 [.resynchronise 1]).contains .bytesWritten = false := rfl
    apply if_pos
    change (_ || !(withRecords 1 [.resynchronise 1]).contains .bytesWritten) = true
    rw [kinds, Bool.not_false, Bool.or_true]
  have commits := @step_commit_new bytesOnly 1 _ source _ staged (by rw [records]; rfl)
    (by rw [records]; decide)
  rw [dropped] at commits
  refine ⟨_, @Deliveries.step _ _ _ _ _ _ (.subscribe 0) (fun _ _ _ => trivial) commits, rfl, rfl,
    ?_⟩
  intro missed
  have stages : Commit.Stages ⟨manyWrites, source, 1, 0⟩ writeByte := by
    obtain ⟨detailed, call, all⟩ := @foldlM_pushDetailed_unkeyed manyWrites
      ChangeStaging.new (unkeyed _)
    refine ⟨detailed, call, ?_⟩
    rw [all]
    exact mem_replicate.mpr ⟨by decide, rfl⟩
  obtain ⟨changes, mem, -⟩ := missed ⟨manyWrites, source, 1, 0⟩ (mem_singleton.mpr rfl)
    writeByte ⟨stages, rfl, rfl⟩
  cases mem

end Fugue.Engine
