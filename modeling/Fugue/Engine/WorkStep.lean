import Fugue.Engine.WorkInvariant

/-!
# The operations of the work queue

One lemma for each operation: from a queue that meets the invariant it succeeds, keeps the
invariant, and what was covered before is covered afterwards or was handed out or cancelled.
`Kept` is the common form of these lemmas.
-/

namespace Fugue.Engine

open Fugue.Lib Fugue.Ir List Option AddressRangeSet

namespace AnalysisWorkQueue

variable {analysers : Analysers} {queue : AnalysisWorkQueue} {item : WorkItem}

/-- An operation took `queue` to `queue'`: the invariant holds again, and every piece of work that
was covered, except those in `gone`, is covered again. -/
structure Kept (analysers : Analysers) (queue queue' : AnalysisWorkQueue)
    (gone : AnalyserId → Target → Prop) : Prop where
  inv : Inv analysers queue'
  covers : ∀ analyser target, Covers queue analyser target →
    Covers queue' analyser target ∨ gone analyser target

def nothing : AnalyserId → Target → Prop := fun _ _ => False

theorem Kept.refl (inv : Inv analysers queue) {gone : AnalyserId → Target → Prop} :
    Kept analysers queue queue gone :=
  ⟨inv, fun _ _ covers => .inl covers⟩

theorem Kept.trans {middle last : AnalysisWorkQueue} {gone gone' : AnalyserId → Target → Prop}
    (first : Kept analysers queue middle gone) (second : Kept analysers middle last gone') :
    Kept analysers queue last fun analyser target =>
      gone analyser target ∨ gone' analyser target := by
  refine ⟨second.inv, fun analyser target covers => ?_⟩
  rcases first.covers analyser target covers with covers | gone
  · rcases second.covers analyser target covers with covers | gone
    · exact .inl covers
    · exact .inr (.inr gone)
  · exact .inr (.inl gone)

theorem Kept.mono {queue' : AnalysisWorkQueue} {gone gone' : AnalyserId → Target → Prop}
    (kept : Kept analysers queue queue' gone)
    (weaker : ∀ analyser target, gone analyser target → gone' analyser target) :
    Kept analysers queue queue' gone' :=
  ⟨kept.inv, fun analyser target covers =>
    (kept.covers analyser target covers).imp_right (weaker analyser target)⟩

/-- `insert` succeeds, keeps what is queued, and queues the work of its item. -/
theorem insert_spec (inv : Inv analysers queue) (belongs : Belongs analysers item) :
    ∃ queue' report, queue.insert item = some (queue', report) ∧
      Kept analysers queue queue' nothing ∧
      ∀ target, Holds item.range target → Covers queue' item.analyser target := by
  obtain ⟨queue', report, step, inv', inserted⟩ :=
    insert_indexed (belongs_class analysers) (inv_iff_indexed.mp inv) belongs
  exact ⟨queue', report, step, ⟨inv_iff_indexed.mpr inv', fun _ _ before =>
    .inl (inserted.covers before)⟩, fun _ holds => inserted.covers_item holds⟩

theorem insertAll_spec : ∀ (items : List WorkItem) {queue : AnalysisWorkQueue}
    (report : DegradationReport), Inv analysers queue →
    (∀ item ∈ items, Belongs analysers item) →
    ∃ queue' report', insertAll (queue, report) items = some (queue', report') ∧
      Kept analysers queue queue' nothing ∧
      ∀ item ∈ items, ∀ target, Holds item.range target → Covers queue' item.analyser target
  | [], queue, report, inv, _ => ⟨queue, report, rfl, .refl inv, by simp⟩
  | item :: items, queue, report, inv, belongs => by
    obtain ⟨middle, added, step, kept, covers⟩ :=
      insert_spec inv (belongs item (.head _))
    obtain ⟨queue', report', run, kept', covers'⟩ := insertAll_spec items
      (DegradationReport.extend report added) kept.inv
      fun other mem => belongs other (.tail _ mem)
    refine ⟨queue', report', ?_, (kept.trans kept').mono (by simp [nothing]), ?_⟩
    · rw [insertAll, foldlM_cons, insertNext, step]
      exact run
    · intro other mem target holds
      rcases mem_cons.mp mem with rfl | mem
      · exact (kept'.covers _ _ (covers target holds)).resolve_right id
      · exact covers' other mem target holds

/-- What `schedule` is asked to do. -/
def Scheduled (regions : AddressRangeSet) : Target → Prop
  | .address address => regions.Contains address
  | .whole => regions.isEmpty = true

theorem scheduledItems_belong {analyser : AnalyserId} (registered : analyser < analysers.count)
    (priority : Int) (regions : AddressRangeSet) (cause : Option AddressRange → WorkCause) :
    ∀ item ∈ scheduledItems analyser (analysers.order analyser) (analysers.phase analyser)
      priority regions cause, Belongs analysers item := by
  intro item mem
  obtain ⟨made, madeMem, rfl⟩ := List.mem_map.mp mem
  refine ⟨registered, rfl, rfl, ?_⟩
  rintro range rfl
  rcases mem_append.mp madeMem with rangeMem | rest
  · obtain ⟨found, foundMem, eq⟩ := List.mem_map.mp rangeMem
    cases eq
    exact ranges_proper _ foundMem
  · split at rest
    · simp at rest
    · cases rest

theorem schedule_spec (inv : Inv analysers queue) {analyser : AnalyserId}
    (registered : analyser < analysers.count) (priority : Int) (regions : AddressRangeSet)
    (cause : Option AddressRange → WorkCause) :
    ∃ queue' report, queue.schedule analyser (analysers.order analyser) (analysers.phase analyser)
        priority regions cause = some (queue', report) ∧
      Kept analysers queue queue' nothing ∧
      ∀ target, Scheduled regions target → Covers queue' analyser target := by
  obtain ⟨queue', report, step, kept, covers⟩ :=
    insertAll_spec _ [] inv (scheduledItems_belong registered priority regions cause)
  refine ⟨queue', report, step, kept, ?_⟩
  rintro (address | _) scheduled
  · obtain ⟨range, mem, inside⟩ := contains_iff_ranges.mp scheduled
    exact covers _ (List.mem_map_of_mem (mem_append_left _ (List.mem_map_of_mem mem)))
      (.address address) inside
  · refine covers _ (List.mem_map_of_mem (a := none) (mem_append_right _ ?_)) .whole trivial
    rw [if_pos (show regions.isEmpty = true from scheduled)]
    exact mem_singleton_self none

section Pop

/-- An item takes the work of its range out of the queue. -/
def TakenBy (item : WorkItem) : AnalyserId → Target → Prop := fun analyser target =>
  item.analyser = analyser ∧ Holds item.range target

/-- `pop` of an item: it belongs to its analyser, it fits the budget, and it is of the work that the
first item of the queue stands for. -/
structure Popped (analysers : Analysers) (queue : AnalysisWorkQueue) (budget : Nat)
    (item : WorkItem) : Prop where
  belongs : Belongs analysers item
  cost : ∃ cost, item.cost = some cost ∧ cost ≤ budget
  head : ∀ key candidate rest, queue.items.entries = (key, candidate) :: rest →
    item.analyser = candidate.analyser ∧ item.phase = candidate.phase ∧ item.kind = candidate.kind

variable {budget : Nat}

theorem pop_spec (inv : Inv analysers queue) (bound : budget < 2 ^ 64) :
    ∃ queue' popped, queue.pop budget = some (queue', popped) ∧
      Kept analysers queue queue' (fun analyser target =>
        ∃ item, popped = some item ∧ TakenBy item analyser target) ∧
      ∀ item, popped = some item → Popped analysers queue budget item := by
  obtain ⟨queue', popped, step, inv', popping⟩ :=
    pop_indexed (belongs_class analysers) (inv_iff_indexed.mp inv) bound
  refine ⟨queue', popped, step, ⟨inv_iff_indexed.mpr inv', ?_⟩, ?_⟩
  · rintro analyser target ⟨key', other, otherMem, same, holds⟩
    cases popping with
    | idle => exact .inl ⟨key', other, otherMem, same, holds⟩
    | @whole key item _ _ _ head _ members =>
      have mem : (key, item) ∈ queue.items.entries := by rw [head]; exact .head _
      by_cases eq : key' = key
      · subst eq
        rw [OrdMap.unique otherMem mem] at same holds
        exact .inr ⟨item, rfl, same, holds⟩
      · exact .inl ⟨key', other, (members _).mpr ⟨otherMem, eq⟩, same, holds⟩
    | @split key item _ _ _ range head _ members rangeEq proper positive exceeds inserted =>
      have mem : (key, item) ∈ queue.items.entries := by rw [head]; exact .head _
      by_cases eq : key' = key
      · subst eq
        rw [OrdMap.unique otherMem mem] at same holds
        rw [rangeEq] at holds
        rcases (split_spec proper positive bound exceeds).2.2.2 target holds with first | second
        · exact .inr ⟨_, rfl, same, first⟩
        · rw [← same]
          exact .inl (inserted.covers_item second)
      · exact .inl (inserted.covers ⟨key', other, (members _).mpr ⟨otherMem, eq⟩, same, holds⟩)
  · rintro item rfl
    cases popping with
    | @whole key _ _ _ cost head _ _ costEq le =>
      have mem : (key, item) ∈ queue.items.entries := by rw [head]; exact .head _
      refine ⟨(inv.keyed _ _ mem).2, ⟨cost, costEq, le⟩, ?_⟩
      intro key' candidate rest' entries
      rw [head] at entries
      cases entries
      exact ⟨rfl, rfl, rfl⟩
    | @split key item _ _ _ range head _ _ rangeEq proper positive exceeds =>
      have mem : (key, item) ∈ queue.items.entries := by rw [head]; exact .head _
      obtain ⟨firstProper, -, firstSize, -⟩ := split_spec proper positive bound exceeds
      refine ⟨(inv.keyed _ _ mem).2.withRange firstProper, ⟨budget, firstSize, le_rfl⟩, ?_⟩
      intro key' candidate rest' entries
      rw [head] at entries
      cases entries
      exact ⟨rfl, rfl, rfl⟩

/-- The items of a batch: of one analyser, phase and kind, with costs that sum to at most
`budget`. -/
structure IsBatch (analysers : Analysers) (analyser : AnalyserId) (phase : AnalysisPhase)
    (kind : WorkKind) (budget : Nat) (items : List WorkItem) : Prop where
  belongs : ∀ item ∈ items, Belongs analysers item
  uniform : ∀ item ∈ items, item.analyser = analyser ∧ item.phase = phase ∧ item.kind = kind
  costs : ∃ costs : List Nat, items.map WorkItem.cost = costs.map some ∧ costs.sum ≤ budget

theorem IsBatch.nil {analyser : AnalyserId} {phase : AnalysisPhase} {kind : WorkKind}
    : IsBatch analysers analyser phase kind budget [] :=
  ⟨by simp, by simp, [], rfl, Nat.zero_le _⟩

theorem IsBatch.cons {analyser : AnalyserId} {phase : AnalysisPhase} {kind : WorkKind}
    {budget cost : Nat} {items : List WorkItem} (belongs : Belongs analysers item)
    (same : item.analyser = analyser ∧ item.phase = phase ∧ item.kind = kind)
    (costEq : item.cost = some cost) (le : cost ≤ budget)
    (batch : IsBatch analysers analyser phase kind (budget - cost) items) :
    IsBatch analysers analyser phase kind budget (item :: items) := by
  obtain ⟨costs, costsEq, sumLe⟩ := batch.costs
  refine ⟨?_, ?_, cost :: costs, ?_, ?_⟩
  · exact forall_mem_cons.mpr ⟨belongs, batch.belongs⟩
  · exact forall_mem_cons.mpr ⟨same, batch.uniform⟩
  · rw [map_cons, map_cons, costEq, costsEq]
  · rw [sum_cons]
    omega

/-- Some item of the batch takes the work out of the queue. -/
def TakenByAny (items : List WorkItem) : AnalyserId → Target → Prop := fun analyser target =>
  ∃ item ∈ items, TakenBy item analyser target

/-- The loop of `pop_batch`, by induction on the items that it may still take. -/
theorem popMore_spec (analyser : AnalyserId) (phase : AnalysisPhase) (kind : WorkKind)
    (bound : budget < 2 ^ 64) :
    ∀ (rounds : Nat) {queue : AnalysisWorkQueue} {spent : Nat}, Inv analysers queue →
      spent ≤ budget →
      ∃ queue' items, popMore analyser phase kind budget rounds queue spent = some (queue', items) ∧
        Kept analysers queue queue' (TakenByAny items) ∧
        IsBatch analysers analyser phase kind (budget - spent) items ∧ items.length ≤ rounds
  | 0, queue, spent, inv, _ => ⟨queue, [], rfl, .refl inv, .nil, le_rfl⟩
  | rounds + 1, queue, spent, inv, le => by
    have stop : ∃ queue' items, some (queue, []) = some (queue', items) ∧
        Kept analysers queue queue' (TakenByAny items) ∧
        IsBatch analysers analyser phase kind (budget - spent) items ∧
        items.length ≤ rounds + 1 :=
      ⟨queue, [], rfl, .refl inv, .nil, Nat.zero_le _⟩
    rw [popMore]
    split
    · exact stop
    · split
      · exact stop
      · rename_i key candidate rest entries
        split
        · exact stop
        · rename_i same
          rw [not_or, not_or, not_not, not_not, not_not] at same
          obtain ⟨middle, popped, step, kept, spec⟩ :=
            pop_spec inv (show budget - spent < 2 ^ 64 by omega)
          rw [step, some_bind]
          cases popped with
          | none =>
            refine ⟨middle, [], rfl, ⟨kept.inv, fun analyser target before => .inl ?_⟩, .nil,
              Nat.zero_le _⟩
            rcases kept.covers analyser target before with covers | ⟨item, eq, -⟩
            · exact covers
            · cases eq
          | some next =>
            obtain ⟨belongs, ⟨cost, costEq, costLe⟩, head⟩ := spec next rfl
            obtain ⟨analyserEq, phaseEq, kindEq⟩ := head _ _ _ entries
            obtain ⟨queue', items, run, kept', batch, length⟩ :=
              popMore_spec analyser phase kind bound rounds kept.inv
                (show spent + cost ≤ budget by omega)
            refine ⟨queue', next :: items, ?_, ?_, ?_, by simpa using length⟩
            · simp only [costEq, some_bind, run]
              rfl
            · apply (kept.trans kept').mono
              rintro analyser target (⟨item, eq, taken⟩ | ⟨item, mem, taken⟩)
              · cases eq
                exact ⟨next, .head _, taken⟩
              · exact ⟨item, .tail _ mem, taken⟩
            · refine .cons belongs ⟨analyserEq.trans same.1, phaseEq.trans same.2.1,
                kindEq.trans same.2.2⟩ costEq costLe ?_
              rw [Nat.sub_sub]
              exact batch

theorem popBatch_spec (inv : Inv analysers queue) (bound : budget < 2 ^ 64) (maxItems : Nat) :
    ∃ queue' items, queue.popBatch budget maxItems = some (queue', items) ∧
      Kept analysers queue queue' (TakenByAny items) ∧
      (∃ analyser phase kind, IsBatch analysers analyser phase kind budget items) ∧
      items.length ≤ max 1 maxItems := by
  obtain ⟨middle, popped, step, kept, spec⟩ := pop_spec inv bound
  rw [popBatch, step, some_bind]
  cases popped with
  | none =>
    refine ⟨middle, [], rfl, ⟨kept.inv, fun analyser target before => .inl ?_⟩,
      ⟨0, .decode, .region, .nil⟩, Nat.zero_le _⟩
    rcases kept.covers analyser target before with covers | ⟨item, eq, -⟩
    · exact covers
    · cases eq
  | some first =>
    obtain ⟨belongs, ⟨cost, costEq, costLe⟩, -⟩ := spec first rfl
    obtain ⟨queue', items, run, kept', batch, length⟩ :=
      popMore_spec first.analyser first.phase first.kind bound (maxItems - 1) kept.inv costLe
    refine ⟨queue', first :: items, ?_, ?_, ⟨first.analyser, first.phase, first.kind, ?_⟩, ?_⟩
    · simp only [costEq, some_bind, run]
      rfl
    · apply (kept.trans kept').mono
      rintro analyser target (⟨item, eq, taken⟩ | ⟨item, mem, taken⟩)
      · cases eq
        exact ⟨first, .head _, taken⟩
      · exact ⟨item, .tail _ mem, taken⟩
    · exact .cons belongs ⟨rfl, rfl, rfl⟩ costEq costLe batch
    · rw [length_cons]
      omega

end Pop

section Cancel

/-- The work that a cancellation takes away from an analyser. -/
def Cancelled (analysers : Analysers) (phases : List AnalysisPhase) (region : AddressRangeSet) :
    AnalyserId → Target → Prop := fun analyser target =>
  ∃ address, target = .address address ∧ region.Contains address ∧
    analysers.phase analyser ∈ phases

theorem cancelKey_spec (inv : Inv analysers queue) {phases : List AnalysisPhase}
    (region : AddressRangeSet) (report : DegradationReport) {key : WorkKey}
    (phase : key.phase ∈ phases) (ranged : key.address.isSome = true) :
    ∃ queue' report', cancelKey region (queue, report) key = some (queue', report') ∧
      Kept analysers queue queue' (Cancelled analysers phases region) := by
  unfold cancelKey
  cases found : queue.items.get? key with
  | none => exact ⟨queue, report, rfl, .refl inv⟩
  | some item =>
    have mem := OrdMap.get?_eq_some.mp found
    obtain ⟨keyEq, belongs⟩ := inv.keyed _ _ mem
    obtain ⟨removed, remove, removedInv, members⟩ := inv.removeItem mem
    obtain ⟨range, rangeEq⟩ : ∃ range, item.range = some range := by
      rw [keyEq, WorkItem.key, isSome_map] at ranged
      exact isSome_iff_exists.mp ranged
    have proper := belongs.proper range rangeEq
    have regions : item.regions = AddressRangeSet.new.insertRange range := by
      rw [WorkItem.regions, rangeEq]
    obtain ⟨queue', report', run, kept, covers⟩ := insertAll_spec
      ((item.regions.difference region).ranges.map item.withRange) report removedInv (by
        intro piece pieceMem
        obtain ⟨surviving, survivingMem, rfl⟩ := List.mem_map.mp pieceMem
        exact belongs.withRange (ranges_proper _ survivingMem))
    refine ⟨queue', report', by
      simp only [remove, some_bind]; exact run, kept.inv, ?_⟩
    rintro analyser target ⟨key', other, otherMem, same, holds⟩
    by_cases eq : key' = key
    · subst eq
      rw [OrdMap.unique otherMem mem] at same holds
      rw [rangeEq] at holds
      cases target with
      | whole => exact absurd holds (by simp [Holds])
      | address address =>
        by_cases inside : region.Contains address
        · refine .inr ⟨address, rfl, inside, ?_⟩
          rw [← same, ← belongs.phase]
          rw [keyEq] at phase
          exact phase
        · -- the address survives in one of the pieces
          left
          have survives : (item.regions.difference region).Contains address := by
            rw [regions, contains_difference, contains_insertRange_new proper]
            exact ⟨holds, inside⟩
          obtain ⟨piece, pieceMem, pieceHolds⟩ := contains_iff_ranges.mp survives
          rw [← same]
          exact covers _ (List.mem_map_of_mem pieceMem) (.address address) pieceHolds
    · left
      exact (kept.covers _ _ ⟨key', other, (members _).mpr ⟨otherMem, eq⟩, same,
        holds⟩).resolve_right id

theorem foldlM_cancelKey_spec {phases : List AnalysisPhase} (region : AddressRangeSet) :
    ∀ (keys : List WorkKey) {queue : AnalysisWorkQueue} (report : DegradationReport),
      Inv analysers queue →
      (∀ key ∈ keys, key.phase ∈ phases ∧ key.address.isSome = true) →
      ∃ queue' report', keys.foldlM (cancelKey region) (queue, report) = some (queue', report') ∧
        Kept analysers queue queue' (Cancelled analysers phases region)
  | [], queue, report, inv, _ => ⟨queue, report, rfl, .refl inv⟩
  | key :: keys, queue, report, inv, selected => by
    obtain ⟨phase, ranged⟩ := selected key (.head _)
    obtain ⟨middle, report', step, kept⟩ := cancelKey_spec inv region report phase ranged
    obtain ⟨queue', report'', run, kept'⟩ := foldlM_cancelKey_spec region keys report' kept.inv
      fun other mem => selected other (.tail _ mem)
    refine ⟨queue', report'', ?_, (kept.trans kept').mono fun _ _ => Or.rec id id⟩
    rw [foldlM_cons, step, some_bind, run]

theorem cancel_spec (inv : Inv analysers queue) (phases : List AnalysisPhase)
    (region : AddressRangeSet) :
    ∃ queue' report, queue.cancel phases region = some (queue', report) ∧
      Kept analysers queue queue' (Cancelled analysers phases region) := by
  apply foldlM_cancelKey_spec region _ [] inv
  intro key mem
  obtain ⟨⟨key', item⟩, entryMem, rfl⟩ := List.mem_map.mp mem
  obtain ⟨entryMem, affected⟩ := mem_filter.mp entryMem
  obtain ⟨keyEq, -⟩ := inv.keyed _ _ entryMem
  rw [isAffected, Bool.and_eq_true] at affected
  rw [keyEq]
  refine ⟨contains_iff_mem.mp affected.1, ?_⟩
  rw [WorkItem.key, isSome_map]
  cases rangeEq : item.range with
  | none => rw [rangeEq] at affected; exact absurd affected.2 (by simp)
  | some range => rfl

end Cancel

end AnalysisWorkQueue

end Fugue.Engine
