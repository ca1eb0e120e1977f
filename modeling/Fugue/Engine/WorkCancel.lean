import Fugue.Engine.WorkLimit

/-!
# Cancelling work

`cancel` takes the affected items out one after another and inserts again what survives of each. The
insertions can push an analyser over the limit: then its items are collapsed to hulls, which can
cover the cancelled region again, and the affected items that are still to come are gone from the
queue under their keys. `NoCollapse` is the condition on the queue under which no insertion does
that; in every state that a run reaches it makes `cancel` exact.
-/

namespace Fugue.Engine

open Fugue.Lib Fugue.Ir List AddressRangeSet

/-- A registered item in the phase of its analyser. -/
structure Phased (analysers : Analysers) (item : WorkItem) : Prop extends
    Registered analysers item where
  phase : item.phase = analysers.phase item.analyser

theorem phased_class (analysers : Analysers) : ItemClass analysers.count (Phased analysers) where
  registered := fun made => made.registered
  order := fun made made' => (registered_class analysers).order made.toRegistered made'.toRegistered
  same := by
    intro item other same made
    refine ⟨(registered_class analysers).same same made.toRegistered, ?_⟩
    rw [same.phase, same.analyser]
    exact made.phase
  hull := fun made made' left right space =>
    ⟨(registered_class analysers).hull made.toRegistered made'.toRegistered left right space,
      made.phase⟩
  narrow := fun made proper =>
    ⟨(registered_class analysers).narrow made.toRegistered proper, made.phase⟩
  continued := fun made => ⟨(registered_class analysers).continued made.toRegistered, made.phase⟩
  bounded := fun made eq => made.raw _ eq

/-- Two items of one analyser with the same range and kind. -/
def SameSpot (item other : WorkItem) : Prop :=
  item.analyser = other.analyser ∧ item.location = other.location

theorem SameSpot.symm {item other : WorkItem} (same : SameSpot item other) :
    SameSpot other item := ⟨same.1.symm, same.2.symm⟩

theorem SameSpot.trans {item other third : WorkItem} (same : SameSpot item other)
    (same' : SameSpot other third) : SameSpot item third :=
  ⟨same.1.trans same'.1, same.2.trans same'.2⟩

theorem SameSpot.range_eq {item other : WorkItem} (same : SameSpot item other) :
    item.range = other.range := congrArg Location.range same.2

/-- The locations of an analyser in a list of items. -/
def locationsOf (analyser : AnalyserId) (items : List WorkItem) : List Location :=
  ((items.filter fun item => item.analyser = analyser).map WorkItem.location).dedup

theorem mem_locationsOf {analyser : AnalyserId} {items : List WorkItem} {location : Location} :
    location ∈ locationsOf analyser items ↔
      ∃ item ∈ items, item.analyser = analyser ∧ item.location = location := by
  simp [locationsOf, and_assoc]

theorem length_locationsOf_le {analyser : AnalyserId} {items others : List WorkItem}
    (fewer : ∀ item ∈ items, item.analyser = analyser → ∃ other ∈ others, SameSpot item other) :
    (locationsOf analyser items).length ≤ (locationsOf analyser others).length := by
  refine (subperm_of_subset (nodup_dedup _) ?_).length_le
  intro location mem
  obtain ⟨item, itemMem, own, rfl⟩ := mem_locationsOf.mp mem
  obtain ⟨other, otherMem, same⟩ := fewer item itemMem own
  exact mem_locationsOf.mpr ⟨other, otherMem, same.1.symm.trans own, same.2.symm⟩

namespace AnalysisWorkQueue

def queued (queue : AnalysisWorkQueue) : List WorkItem := queue.items.entries.map Prod.snd

/-- The entries that `cancel` selects. -/
def affected (queue : AnalysisWorkQueue) (phases : List AnalysisPhase)
    (region : AddressRangeSet) : List (WorkKey × WorkItem) :=
  queue.items.entries.filter fun entry => isAffected phases region entry.2

/-- The items that are to be queued once the entries `done` have been cut: the other items and what
survives of these. -/
def remaining (queue : AnalysisWorkQueue) (region : AddressRangeSet)
    (done : List (WorkKey × WorkItem)) : List WorkItem :=
  (queue.items.entries.filter fun entry => entry ∉ done).map Prod.snd ++
    done.flatMap fun entry => survivors region entry.2

/-- No cut of an affected entry exceeds the limit: what survives of it is at locations that are
queued already, or its analyser has at most `maxWorkItemsPerAnalyser` locations after it. -/
def NoCollapse (queue : AnalysisWorkQueue) (phases : List AnalysisPhase)
    (region : AddressRangeSet) : Prop :=
  ∀ front entry rest, queue.affected phases region = front ++ entry :: rest →
    (∀ piece ∈ survivors region entry.2,
      piece.location ∈ locationsOf entry.2.analyser (queue.remaining region front)) ∨
    (locationsOf entry.2.analyser (queue.remaining region (front ++ [entry]))).length ≤
      maxWorkItemsPerAnalyser

/-- What the cancellation of some phases in a region is to do: no item of these phases meets the
region any more, the analysers of these phases keep all their other addresses and no more, and
nothing changes for the items without a range and those of other phases. -/
structure CancelExact (analysers : Analysers) (phases : List AnalysisPhase)
    (region : AddressRangeSet) (queue queue' : AnalysisWorkQueue) : Prop where
  cut : ∀ x ∈ queue'.items.entries, x.2.phase ∈ phases → ∀ range, x.2.range = some range →
    region.intersectsRange range = false
  addresses : ∀ analyser, analysers.phase analyser ∈ phases → ∀ address,
    Covers queue' analyser (.address address) ↔
      Covers queue analyser (.address address) ∧ ¬ region.Contains address
  others : ∀ x, x.2.range = none ∨ x.2.phase ∉ phases →
    (x ∈ queue'.items.entries ↔ x ∈ queue.items.entries)

variable {count : Nat} {good : WorkItem → Prop} {queue queue' : AnalysisWorkQueue}
  {item : WorkItem}

theorem mem_queued : item ∈ queue.queued ↔ ∃ x ∈ queue.items.entries, x.2 = item := mem_map

section Insertions

/-- Insertions without a collapse: the spots of the items are added, and what is at other spots
stays as it is. -/
structure Extended (queue : AnalysisWorkQueue) (added : List WorkItem)
    (queue' : AnalysisWorkQueue) : Prop where
  kept : ∀ x ∈ queue.items.entries, (∀ item ∈ added, ¬ SameSpot x.2 item) →
    x ∈ queue'.items.entries
  spots : ∀ x ∈ queue'.items.entries, x ∈ queue.items.entries ∨ ∃ item ∈ added, SameSpot x.2 item
  present : ∀ item ∈ added, ∃ x ∈ queue'.items.entries, SameSpot x.2 item

theorem Extended.nil : Extended queue [] queue :=
  ⟨fun _ mem _ => mem, fun _ mem => .inl mem, by simp⟩

variable {added : List WorkItem}

theorem Extended.keeps_spot (extended : Extended queue added queue')
    {x : WorkKey × WorkItem} (mem : x ∈ queue.items.entries) :
    ∃ y ∈ queue'.items.entries, SameSpot y.2 x.2 := by
  by_cases fresh : ∀ item ∈ added, ¬ SameSpot x.2 item
  · exact ⟨x, extended.kept x mem fresh, rfl, rfl⟩
  · simp only [not_forall, not_not] at fresh
    obtain ⟨item, itemMem, same⟩ := fresh
    obtain ⟨y, yMem, same'⟩ := extended.present item itemMem
    exact ⟨y, yMem, same'.trans same.symm⟩

theorem Extended.cons {middle : AnalysisWorkQueue}
    (first : Extended queue [item] middle) (rest : Extended middle added queue') :
    Extended queue (item :: added) queue' := by
  refine ⟨?_, ?_, ?_⟩
  · intro x mem fresh
    apply rest.kept x (first.kept x mem (by simpa using fresh item (.head _)))
    exact fun other otherMem => fresh other (.tail _ otherMem)
  · intro x mem
    rcases rest.spots x mem with mem | ⟨other, otherMem, same⟩
    · apply (first.spots x mem).imp_right
      rintro ⟨other, otherMem, same⟩
      rw [mem_singleton.mp otherMem] at same
      exact ⟨item, .head _, same⟩
    · exact .inr ⟨other, .tail _ otherMem, same⟩
  · intro other otherMem
    rcases mem_cons.mp otherMem with rfl | otherMem
    · obtain ⟨x, mem, same⟩ := first.present other (mem_singleton_self _)
      obtain ⟨y, yMem, same'⟩ := rest.keeps_spot mem
      exact ⟨y, yMem, same'.trans same⟩
    · exact rest.present other otherMem

theorem Inserted.extended (step : Inserted queue item queue')
    (room : item.location ∈ locationsOf item.analyser queue.queued ∨
      (locationsOf item.analyser (queue.queued ++ [item])).length ≤ maxWorkItemsPerAnalyser) :
    Extended queue [item] queue' := by
  cases step with
  | @merged _ key old promoted present analyser location same members =>
    have spot : SameSpot promoted item :=
      ⟨same.analyser.trans analyser, same.location_eq.trans location⟩
    refine ⟨?_, ?_, ?_⟩
    · intro x mem fresh
      refine (members x).mpr (.inr ⟨mem, ?_⟩)
      rintro rfl
      have eq : x.2 = old := OrdMap.unique mem present
      exact fresh item (mem_singleton_self _) (by rw [eq]; exact ⟨analyser, location⟩)
    · intro x mem
      rcases (members x).mp mem with rfl | ⟨mem, -⟩
      · exact .inr ⟨item, mem_singleton_self _, spot⟩
      · exact .inl mem
    · intro other otherMem
      rw [mem_singleton.mp otherMem]
      exact ⟨_, (members _).mpr (.inl rfl), spot⟩
  | added _ members =>
    refine ⟨fun x mem _ => (members x).mpr (.inr mem), ?_, ?_⟩
    · intro x mem
      rcases (members x).mp mem with rfl | mem
      · exact .inr ⟨item, mem_singleton_self _, rfl, rfl⟩
      · exact .inl mem
    · intro other otherMem
      rw [mem_singleton.mp otherMem]
      exact ⟨_, (members _).mpr (.inl rfl), rfl, rfl⟩
  | @collapsed middle _ keys free members _ listed exceeds _ =>
    -- the location is new, so the index has no more locations than there is room for
    have within := room.resolve_left (by
      intro mem
      obtain ⟨other, otherMem, own, location⟩ := mem_locationsOf.mp mem
      obtain ⟨x, xMem, rfl⟩ := mem_queued.mp otherMem
      exact free x xMem own location)
    have bound : keys.len ≤ (locationsOf item.analyser (queue.queued ++ [item])).length := by
      rw [OrdMap.len, ← length_map]
      refine (subperm_of_subset (nodup_locations keys) ?_).length_le
      intro location mem
      obtain ⟨entry, entryMem, rfl⟩ := mem_map.mp mem
      obtain ⟨x, xMem, own, location⟩ := listed entry entryMem
      refine mem_locationsOf.mpr ⟨x.2, ?_, own, location⟩
      rcases (members x).mp xMem with rfl | xMem
      · exact mem_append_right _ (mem_singleton_self _)
      · exact mem_append_left _ (mem_queued.mpr ⟨x, xMem, rfl⟩)
    omega

theorem insertAll_extended (items : ItemClass count good) (inv : Indexed count good queue)
    (report : DegradationReport) (made : ∀ item ∈ added, good item)
    (room : ∀ item ∈ added, item.location ∈ locationsOf item.analyser queue.queued ∨
      (locationsOf item.analyser (queue.queued ++ added)).length ≤ maxWorkItemsPerAnalyser) :
    ∃ queue' report', insertAll (queue, report) added = some (queue', report') ∧
      Indexed count good queue' ∧ Extended queue added queue' := by
  induction added generalizing queue report with
  | nil => exact ⟨queue, report, rfl, inv, .nil⟩
  | cons item added ih =>
    obtain ⟨madeItem, madeRest⟩ := forall_mem_cons.mp made
    obtain ⟨middle, first, step, middleInv, inserted⟩ := insert_indexed items inv madeItem
    have extended := inserted.extended ((room item (.head _)).imp_right (by
      apply le_trans
      apply length_locationsOf_le
      intro other otherMem _
      refine ⟨other, ?_, rfl, rfl⟩
      rcases mem_append.mp otherMem with otherMem | otherMem
      · exact mem_append_left _ otherMem
      · rw [mem_singleton.mp otherMem]
        exact mem_append_right _ (.head _)))
    -- what is queued now was queued before or is the item
    have roomRest : ∀ other ∈ added, other.location ∈ locationsOf other.analyser middle.queued ∨
        (locationsOf other.analyser (middle.queued ++ added)).length ≤
          maxWorkItemsPerAnalyser := by
      intro other otherMem
      rcases room other (.tail _ otherMem) with there | within
      · left
        obtain ⟨old, oldMem, own, location⟩ := mem_locationsOf.mp there
        obtain ⟨x, xMem, rfl⟩ := mem_queued.mp oldMem
        obtain ⟨y, yMem, same⟩ := extended.keeps_spot xMem
        exact mem_locationsOf.mpr ⟨y.2, mem_queued.mpr ⟨y, yMem, rfl⟩, same.1.trans own,
          same.2.trans location⟩
      · right
        refine le_trans (length_locationsOf_le ?_) within
        intro next nextMem _
        rcases mem_append.mp nextMem with nextMem | nextMem
        · obtain ⟨x, xMem, rfl⟩ := mem_queued.mp nextMem
          rcases extended.spots x xMem with xMem | ⟨same, sameMem, spot⟩
          · exact ⟨x.2, mem_append_left _ (mem_queued.mpr ⟨x, xMem, rfl⟩), rfl, rfl⟩
          · rw [mem_singleton.mp sameMem] at spot
            exact ⟨item, mem_append_right _ (.head _), spot⟩
        · exact ⟨next, mem_append_right _ (.tail _ nextMem), rfl, rfl⟩
    obtain ⟨queue', report', rest, inv', extended'⟩ :=
      ih middleInv (DegradationReport.extend report first) madeRest roomRest
    refine ⟨queue', report', ?_, inv', extended.cons extended'⟩
    rw [insertAll, foldlM_cons, insertNext, step]
    exact rest

end Insertions

section Cuts

variable {phases : List AnalysisPhase} {region : AddressRangeSet} {piece : WorkItem}

theorem survivors_range {range : AddressRange} (rangeEq : item.range = some range)
    (lt : range.stop < 2 ^ 64) {address : Address} :
    (∃ piece ∈ survivors region item, Holds piece.range (.address address)) ↔
      range.Contains address ∧ ¬ region.Contains address := by
  have survives : (item.regions.difference region).Contains address ↔
      range.Contains address ∧ ¬ region.Contains address := by
    rw [contains_difference, WorkItem.regions, rangeEq,
      contains_insertRange lt, or_iff_left not_contains_new]
  rw [← survives, contains_iff_ranges]
  constructor
  · rintro ⟨piece, mem, holds⟩
    obtain ⟨surviving, survivingMem, rfl⟩ := mem_map.mp mem
    exact ⟨surviving, survivingMem, holds⟩
  · rintro ⟨surviving, mem, inside⟩
    exact ⟨_, mem_map_of_mem mem, inside⟩

theorem survivors_cut (mem : piece ∈ survivors region item) :
    ∃ range, piece.range = some range ∧ region.intersectsRange range = false := by
  obtain ⟨surviving, survivingMem, rfl⟩ := mem_map.mp mem
  refine ⟨surviving, rfl, ?_⟩
  have proper := ranges_proper _ survivingMem
  by_contra meets
  rw [Bool.not_eq_false, intersectsRange_iff proper.start_le] at meets
  obtain ⟨address, inside, cancelled⟩ := meets
  have survives : (item.regions.difference region).Contains address :=
    contains_iff_ranges.mpr ⟨surviving, survivingMem, inside⟩
  exact (contains_difference.mp survives).2 cancelled

theorem survivors_same (mem : piece ∈ survivors region item) :
    piece.analyser = item.analyser ∧ piece.phase = item.phase := by
  obtain ⟨surviving, -, rfl⟩ := mem_map.mp mem
  exact ⟨rfl, rfl⟩

theorem isAffected_iff : isAffected phases region item = true ↔
    item.phase ∈ phases ∧ ∃ range, item.range = some range ∧
      region.intersectsRange range = true := by
  unfold isAffected
  cases item.range with
  | none => simp
  | some range => simp

theorem not_sameSpot_survivor (cut : isAffected phases region item = true) {other : WorkItem}
    (mem : piece ∈ survivors region other) : ¬ SameSpot item piece := by
  intro same
  obtain ⟨-, range, rangeEq, meets⟩ := isAffected_iff.mp cut
  obtain ⟨range', rangeEq', apart⟩ := survivors_cut mem
  rw [same.range_eq, rangeEq'] at rangeEq
  cases rangeEq
  rw [meets] at apart
  cases apart

theorem mem_remaining {done : List (WorkKey × WorkItem)} :
    item ∈ queue.remaining region done ↔
      (∃ x ∈ queue.items.entries, x ∉ done ∧ x.2 = item) ∨
      ∃ x ∈ done, item ∈ survivors region x.2 := by
  simp [remaining, mem_append, mem_map, mem_filter, mem_flatMap, and_assoc]

/-- The state of `cancel` after the affected entries `done`. -/
structure CancelInv (count : Nat) (good : WorkItem → Prop) (queue : AnalysisWorkQueue)
    (region : AddressRangeSet) (done : List (WorkKey × WorkItem))
    (current : AnalysisWorkQueue) : Prop where
  indexed : Indexed count good current
  spots : ∀ x ∈ current.items.entries, ∃ item ∈ queue.remaining region done, SameSpot x.2 item
  present : ∀ item ∈ queue.remaining region done, ∃ x ∈ current.items.entries, SameSpot x.2 item
  kept : ∀ x ∈ queue.items.entries, x ∉ done →
    (∀ y ∈ done, ∀ piece ∈ survivors region y.2, ¬ SameSpot x.2 piece) → x ∈ current.items.entries

variable {current : AnalysisWorkQueue}

section

variable (items : ItemClass count good) (inv : Indexed count good queue)
  (noCollapse : queue.NoCollapse phases region)
include items inv noCollapse

theorem CancelInv.step {front rest : List (WorkKey × WorkItem)}
    {entry : WorkKey × WorkItem} (split : queue.affected phases region = front ++ entry :: rest)
    (loop : CancelInv count good queue region front current) (report : DegradationReport) :
    ∃ current' report', cancelKey region (current, report) entry.1 = some (current', report') ∧
      CancelInv count good queue region (front ++ [entry]) current' := by
  have listed : entry ∈ queue.affected phases region := by rw [split]; simp
  obtain ⟨entryMem, cut⟩ := mem_filter.mp listed
  have fresh : entry ∉ front := by
    have nodup : (queue.affected phases region).Nodup :=
      (queue.items.sorted.imp fun lt eq => absurd (congrArg Prod.fst eq) (ne_of_lt lt)).filter _
    rw [split] at nodup
    exact fun mem => (nodup_append.mp nodup).2.2 entry mem entry (.head _) rfl
  -- the entry is still there: no survivor is at its spot
  have mem : entry ∈ current.items.entries :=
    loop.kept entry entryMem fresh fun _ _ _ pieceMem => not_sameSpot_survivor cut pieceMem
  obtain ⟨removed, remove, removedInv, members⟩ := removeItem_spec items loop.indexed mem
  have made := (loop.indexed.keyed _ _ mem).2
  -- what is left is at the spots of the other entries and of the survivors so far
  have left : ∀ x ∈ removed.items.entries,
      ∃ item ∈ queue.remaining region (front ++ [entry]), SameSpot x.2 item := by
    intro x xMem
    obtain ⟨xMem, ne⟩ := (members x).mp xMem
    obtain ⟨item, itemMem, same⟩ := loop.spots x xMem
    refine ⟨item, mem_remaining.mpr ?_, same⟩
    rcases mem_remaining.mp itemMem with ⟨y, yMem, yFresh, rfl⟩ | ⟨y, yMem, pieceMem⟩
    · refine .inl ⟨y, yMem, ?_, rfl⟩
      rw [mem_append, mem_singleton, not_or]
      refine ⟨yFresh, ?_⟩
      rintro rfl
      exact ne (loop.indexed.eq_of_location items xMem mem same.1 same.2).1
    · exact .inr ⟨y, mem_append_left _ yMem, pieceMem⟩
  have stays : ∀ item ∈ queue.remaining region front, ¬ SameSpot entry.2 item →
      ∃ x ∈ removed.items.entries, SameSpot x.2 item := by
    intro item itemMem apart
    obtain ⟨x, xMem, same⟩ := loop.present item itemMem
    refine ⟨x, (members x).mpr ⟨xMem, ?_⟩, same⟩
    intro key
    have eq : x.2 = entry.2 := OrdMap.unique (key ▸ xMem) mem
    exact apart (eq ▸ same)
  have room : ∀ piece ∈ survivors region entry.2,
      piece.location ∈ locationsOf piece.analyser removed.queued ∨
      (locationsOf piece.analyser (removed.queued ++ survivors region entry.2)).length ≤
        maxWorkItemsPerAnalyser := by
    intro piece pieceMem
    rw [(survivors_same pieceMem).1]
    rcases noCollapse front entry rest split with there | within
    · left
      obtain ⟨item, itemMem, own, location⟩ := mem_locationsOf.mp (there piece pieceMem)
      have spot : SameSpot item piece := ⟨own.trans (survivors_same pieceMem).1.symm, location⟩
      obtain ⟨x, xMem, same⟩ := stays item itemMem fun atEntry =>
        not_sameSpot_survivor cut pieceMem (atEntry.trans spot)
      exact mem_locationsOf.mpr ⟨x.2, mem_queued.mpr ⟨x, xMem, rfl⟩, same.1.trans own,
        same.2.trans location⟩
    · right
      refine le_trans (length_locationsOf_le ?_) within
      intro item itemMem _
      rcases mem_append.mp itemMem with itemMem | itemMem
      · obtain ⟨x, xMem, rfl⟩ := mem_queued.mp itemMem
        exact left x xMem
      · exact ⟨item, mem_remaining.mpr (.inr ⟨entry, by simp, itemMem⟩), rfl, rfl⟩
  obtain ⟨current', report', run, inv', extended⟩ := insertAll_extended items removedInv report
    (survivors_good items made region) room
  have again : ∀ item ∈ queue.remaining region front, ¬ SameSpot entry.2 item →
      ∃ x ∈ current'.items.entries, SameSpot x.2 item := by
    intro item itemMem apart
    obtain ⟨x, xMem, same⟩ := stays item itemMem apart
    obtain ⟨y, yMem, same'⟩ := extended.keeps_spot xMem
    exact ⟨y, yMem, same'.trans same⟩
  refine ⟨current', report', ?_, inv', ?_, ?_, ?_⟩
  · rw [cancelKey, OrdMap.get?_eq_some.mpr mem]
    simp only [remove, some_bind]
    exact run
  · intro x xMem
    rcases extended.spots x xMem with xMem | ⟨piece, pieceMem, same⟩
    · exact left x xMem
    · exact ⟨piece, mem_remaining.mpr (.inr ⟨entry, by simp, pieceMem⟩), same⟩
  · intro item itemMem
    rcases mem_remaining.mp itemMem with ⟨y, yMem, yFresh, rfl⟩ | ⟨y, yMem, pieceMem⟩
    · rw [mem_append, mem_singleton, not_or] at yFresh
      refine again y.2 (mem_remaining.mpr (.inl ⟨y, yMem, yFresh.1, rfl⟩)) fun same => ?_
      obtain ⟨key, item⟩ := inv.eq_of_location items yMem entryMem same.1.symm same.2.symm
      exact yFresh.2 (Prod.ext key item)
    · rcases mem_append.mp yMem with yMem | yMem
      · exact again item (mem_remaining.mpr (.inr ⟨y, yMem, pieceMem⟩))
          (not_sameSpot_survivor cut pieceMem)
      · rw [mem_singleton.mp yMem] at pieceMem
        exact extended.present item pieceMem
  · intro x xMem xFresh apart
    rw [mem_append, mem_singleton, not_or] at xFresh
    refine extended.kept x ((members x).mpr ⟨?_, ?_⟩) (apart entry (by simp))
    · exact loop.kept x xMem xFresh.1 fun y yMem => apart y (mem_append_left _ yMem)
    · intro key
      exact xFresh.2 (Prod.ext key (OrdMap.unique (key ▸ xMem) entryMem))

/-- The loop of `cancel`, by induction on the entries that are still to come. -/
theorem CancelInv.run {front rest : List (WorkKey × WorkItem)}
    (split : queue.affected phases region = front ++ rest)
    (loop : CancelInv count good queue region front current) (report : DegradationReport) :
    ∃ queue' report', (rest.map Prod.fst).foldlM (cancelKey region) (current, report) =
        some (queue', report') ∧
      CancelInv count good queue region (queue.affected phases region) queue' := by
  induction rest generalizing front current report with
  | nil =>
    rw [append_nil] at split
    exact ⟨current, report, rfl, split ▸ loop⟩
  | cons entry rest ih =>
    obtain ⟨middle, first, step, middleLoop⟩ := loop.step items inv noCollapse split report
    obtain ⟨queue', report', run, loop'⟩ := ih (by simpa using split) middleLoop first
    refine ⟨queue', report', ?_, loop'⟩
    rw [map_cons, foldlM_cons, step, some_bind, run]

theorem cancel_loop
    :
    ∃ queue' report, queue.cancel phases region = some (queue', report) ∧
      CancelInv count good queue region (queue.affected phases region) queue' := by
  have start : CancelInv count good queue region [] queue := by
    refine ⟨inv, ?_, ?_, fun _ mem _ _ => mem⟩
    · intro x mem
      exact ⟨x.2, mem_remaining.mpr (.inl ⟨x, mem, not_mem_nil, rfl⟩), rfl, rfl⟩
    · intro item mem
      rcases mem_remaining.mp mem with ⟨x, xMem, -, rfl⟩ | ⟨x, xMem, -⟩
      · exact ⟨x, xMem, rfl, rfl⟩
      · exact absurd xMem not_mem_nil
  exact start.run items inv noCollapse (nil_append _).symm []

end

end Cuts

section Exact

variable {analysers : Analysers} {phases : List AnalysisPhase} {region : AddressRangeSet}
  {piece other : WorkItem} {x y : WorkKey × WorkItem}

theorem not_isAffected (mem : x ∈ queue.items.entries)
    (fresh : x ∉ queue.affected phases region) : isAffected phases region x.2 = false := by
  by_contra cut
  rw [Bool.not_eq_false] at cut
  exact fresh (mem_filter.mpr ⟨mem, cut⟩)

theorem phase_eq_of_sameSpot (made : Phased analysers item) (made' : Phased analysers other)
    (same : SameSpot item other) : item.phase = other.phase := by
  rw [made.phase, made'.phase, same.1]

section

variable (inv : Indexed analysers.count (Phased analysers) queue)
include inv

theorem survivors_listed
    (listed : y ∈ queue.affected phases region) (mem : piece ∈ survivors region y.2) :
    Phased analysers piece ∧ piece.phase ∈ phases ∧ piece.range ≠ none := by
  obtain ⟨yMem, cut⟩ := mem_filter.mp listed
  obtain ⟨range, rangeEq, -⟩ := survivors_cut mem
  have made := survivors_good (phased_class analysers) (inv.keyed _ _ yMem).2 region piece mem
  refine ⟨made, ?_, ?_⟩
  · rw [(survivors_same mem).2]
    exact (isAffected_iff.mp cut).1
  · rw [rangeEq]
    exact Option.some_ne_none range

theorem not_sameSpot_of_outside
    (made : Phased analysers item) (outside : item.range = none ∨ item.phase ∉ phases)
    (listed : y ∈ queue.affected phases region) (mem : piece ∈ survivors region y.2) :
    ¬ SameSpot item piece := by
  intro same
  obtain ⟨made', phase, ranged⟩ := survivors_listed inv listed mem
  rcases outside with none | other
  · rw [same.range_eq] at none
    exact ranged none
  · rw [phase_eq_of_sameSpot made made' same] at other
    exact other phase

theorem CancelInv.cut (loop : CancelInv analysers.count (Phased analysers) queue region
      (queue.affected phases region) queue') (mem : x ∈ queue'.items.entries)
    (phase : x.2.phase ∈ phases) {range : AddressRange} (rangeEq : x.2.range = some range) :
    region.intersectsRange range = false := by
  obtain ⟨item, itemMem, same⟩ := loop.spots x mem
  have made := (loop.indexed.keyed _ _ mem).2
  rw [same.range_eq] at rangeEq
  rcases mem_remaining.mp itemMem with ⟨y, yMem, fresh, rfl⟩ | ⟨y, yMem, pieceMem⟩
  · by_contra meets
    rw [Bool.not_eq_false] at meets
    rw [phase_eq_of_sameSpot made (inv.keyed _ _ yMem).2 same] at phase
    have cut := isAffected_iff.mpr ⟨phase, range, rangeEq, meets⟩
    rw [not_isAffected yMem fresh] at cut
    cases cut
  · obtain ⟨range', rangeEq', apart⟩ := survivors_cut pieceMem
    rw [rangeEq] at rangeEq'
    cases rangeEq'
    exact apart

theorem remaining_addresses
    {analyser : AnalyserId} (phase : analysers.phase analyser ∈ phases) {address : Address} :
    (∃ item ∈ queue.remaining region (queue.affected phases region),
      item.analyser = analyser ∧ Holds item.range (.address address)) ↔
      Covers queue analyser (.address address) ∧ ¬ region.Contains address := by
  constructor
  · rintro ⟨item, itemMem, own, holds⟩
    rcases mem_remaining.mp itemMem with ⟨y, yMem, fresh, rfl⟩ | ⟨y, yMem, pieceMem⟩
    · refine ⟨⟨y.1, y.2, yMem, own, holds⟩, fun cancelled => ?_⟩
      -- an item of the phase that has a cancelled address is affected
      cases rangeEq : y.2.range with
      | none =>
        rw [rangeEq] at holds
        exact holds
      | some range =>
        rw [rangeEq] at holds
        have meets := (intersectsRange_iff (holds.2.1.trans holds.2.2)).mpr
          ⟨address, holds, cancelled⟩
        rw [← own, ← (inv.keyed _ _ yMem).2.phase] at phase
        have cut := isAffected_iff.mpr ⟨phase, range, rangeEq, meets⟩
        rw [not_isAffected yMem fresh] at cut
        cases cut
    · obtain ⟨yMem, cut⟩ := mem_filter.mp yMem
      obtain ⟨-, range, rangeEq, -⟩ := isAffected_iff.mp cut
      have bounded := ((inv.keyed _ _ yMem).2.raw range rangeEq).2
      obtain ⟨inside, outside⟩ := (survivors_range rangeEq bounded).mp ⟨item, pieceMem, holds⟩
      refine ⟨⟨y.1, y.2, yMem, (survivors_same pieceMem).1.symm.trans own, ?_⟩, outside⟩
      rw [rangeEq]
      exact inside
  · rintro ⟨⟨key, item, mem, own, holds⟩, outside⟩
    by_cases listed : (key, item) ∈ queue.affected phases region
    · obtain ⟨-, range, rangeEq, -⟩ := isAffected_iff.mp (mem_filter.mp listed).2
      have bounded := ((inv.keyed _ _ mem).2.raw range rangeEq).2
      rw [rangeEq] at holds
      obtain ⟨piece, pieceMem, pieceHolds⟩ :=
        (survivors_range rangeEq bounded).mpr ⟨holds, outside⟩
      exact ⟨piece, mem_remaining.mpr (.inr ⟨_, listed, pieceMem⟩),
        (survivors_same pieceMem).1.trans own, pieceHolds⟩
    · exact ⟨item, mem_remaining.mpr (.inl ⟨_, mem, listed, rfl⟩), own, holds⟩

end

theorem CancelInv.covers_iff {done : List (WorkKey × WorkItem)}
    (loop : CancelInv count good queue region done queue') {analyser : AnalyserId}
    {target : Target} : Covers queue' analyser target ↔
      ∃ item ∈ queue.remaining region done, item.analyser = analyser ∧
        Holds item.range target := by
  constructor
  · rintro ⟨key, item, mem, own, holds⟩
    obtain ⟨other, otherMem, same⟩ := loop.spots _ mem
    refine ⟨other, otherMem, same.1.symm.trans own, ?_⟩
    rw [← same.range_eq]
    exact holds
  · rintro ⟨item, itemMem, own, holds⟩
    obtain ⟨x, xMem, same⟩ := loop.present item itemMem
    refine ⟨x.1, x.2, xMem, same.1.trans own, ?_⟩
    rw [same.range_eq]
    exact holds

theorem CancelInv.others (inv : Indexed analysers.count (Phased analysers) queue)
    (loop : CancelInv analysers.count (Phased analysers) queue region
      (queue.affected phases region) queue') (outside : x.2.range = none ∨ x.2.phase ∉ phases) :
    x ∈ queue'.items.entries ↔ x ∈ queue.items.entries := by
  have keeps : ∀ {y : WorkKey × WorkItem}, y.2.range = none ∨ y.2.phase ∉ phases →
      y ∈ queue.items.entries → y ∈ queue'.items.entries := by
    intro y outside mem
    refine loop.kept y mem ?_ fun z listed piece pieceMem =>
      not_sameSpot_of_outside inv (inv.keyed _ _ mem).2 outside listed pieceMem
    intro listed
    obtain ⟨phase, range, rangeEq, -⟩ := isAffected_iff.mp (mem_filter.mp listed).2
    rcases outside with none | other
    · rw [none] at rangeEq
      cases rangeEq
    · exact other phase
  refine ⟨fun mem => ?_, keeps outside⟩
  have made := (loop.indexed.keyed _ _ mem).2
  obtain ⟨item, itemMem, same⟩ := loop.spots x mem
  rcases mem_remaining.mp itemMem with ⟨y, yMem, -, rfl⟩ | ⟨y, yMem, pieceMem⟩
  · -- the item at the spot is outside as well, so it stayed there
    have outside' := outside
    rw [same.range_eq, phase_eq_of_sameSpot made (inv.keyed _ _ yMem).2 same] at outside'
    obtain ⟨key, item⟩ := loop.indexed.eq_of_location (phased_class analysers) mem
      (keeps outside' yMem) same.1 same.2
    rw [show x = y from Prod.ext key item]
    exact yMem
  · exact absurd same (not_sameSpot_of_outside inv made outside yMem pieceMem)

theorem CancelInv.exact (inv : Indexed analysers.count (Phased analysers) queue)
    (loop : CancelInv analysers.count (Phased analysers) queue region
      (queue.affected phases region) queue') :
    CancelExact analysers phases region queue queue' where
  cut := fun _ mem phase _ rangeEq => loop.cut inv mem phase rangeEq
  addresses := fun _ phase _ => loop.covers_iff.trans (remaining_addresses inv phase)
  others := fun _ outside => loop.others inv outside

end Exact

end AnalysisWorkQueue

open AnalysisWorkQueue

/-- In every state that a run reaches, a cancellation that collapses nothing is exact. -/
theorem cancel_exact (analysers : Analysers) (calls : List Call)
    (within : ∀ call ∈ calls, call.Within (Phased analysers)) :
    ∃ queue outputs, run (withAnalysers analysers.count) calls = some (queue, outputs) ∧
      ∀ phases region, queue.NoCollapse phases region →
        ∃ queue' report, queue.cancel phases region = some (queue', report) ∧
          CancelExact analysers phases region queue queue' := by
  obtain ⟨queue, outputs, reached, consistent⟩ :=
    withAnalysers_consistent.run (phased_class analysers) within
  refine ⟨queue, outputs, reached, fun phases region noCollapse => ?_⟩
  obtain ⟨queue', report, step, loop⟩ :=
    cancel_loop (phased_class analysers) consistent.indexed noCollapse
  exact ⟨queue', report, step, loop.exact consistent.indexed⟩

def oneRange : Call :=
  .schedule 0 0 .decode 5 (AddressRangeSet.new.insertRange ⟨0, 0, 4095⟩)
    fun range => ⟨range, 0, [], .change, 0⟩

def oneItem : WorkItem :=
  let range : AddressRange := ⟨0, 0, 4095⟩
  ⟨0, 0, .decode, 5, some range, [⟨some range, 0, [], .change, 0⟩], 0, .region⟩

def oneQueued : AnalysisWorkQueue where
  items := OrdMap.empty.insert oneItem.key oneItem
  keysByAnalyserAndRange := [OrdMap.empty.insert oneItem.location oneItem.key, .empty]
  degradations := []

theorem oneRange_within : oneRange.Within (Phased twoAnalysers) := by
  have registered : 0 < twoAnalysers.count := Nat.two_pos
  intro item mem
  exact ⟨schedule_within registered rfl item mem,
    (scheduledItems_belong registered _ _ _ item mem).phase⟩

theorem cancel_exact_oneRange :
    ∃ queue' report, oneQueued.cancel [.decode] (AddressRangeSet.new.insertRange ⟨0, 96, 127⟩) =
        some (queue', report) ∧
      CancelExact twoAnalysers [.decode] (AddressRangeSet.new.insertRange ⟨0, 96, 127⟩) oneQueued
        queue' := by
  obtain ⟨queue, outputs, reached, exact⟩ := cancel_exact twoAnalysers [oneRange] (by
    intro call mem
    rw [mem_singleton.mp mem]
    exact oneRange_within)
  cases reached
  refine exact _ _ fun front entry rest split => .inr ?_
  obtain ⟨rfl, eq⟩ | ⟨_, rfl, eq⟩ := cons_eq_append_iff.mp split
  · cases eq
    decide
  · simp at eq

/-- The odd addresses below twice the limit. -/
def oddAddresses : AddressRangeSet :=
  AddressRangeSet.new.insertRanges
    ((List.range maxWorkItemsPerAnalyser).map fun i => ⟨0, 2 * i + 1, 2 * i + 1⟩)

theorem contains_oddAddresses {address : Address} : oddAddresses.Contains address ↔
    ∃ i < maxWorkItemsPerAnalyser, address = ⟨0, 2 * i + 1⟩ := by
  have bounded : ∀ range ∈ (List.range maxWorkItemsPerAnalyser).map fun i =>
      (⟨0, 2 * i + 1, 2 * i + 1⟩ : AddressRange), range.stop < 2 ^ 64 := by
    intro range mem
    obtain ⟨i, lt, rfl⟩ := mem_map.mp mem
    have := mem_range.mp lt
    simp only [maxWorkItemsPerAnalyser] at this ⊢
    omega
  rw [oddAddresses, contains_insertRanges bounded, or_iff_left not_contains_new]
  constructor
  · rintro ⟨range, mem, inside⟩
    obtain ⟨i, lt, rfl⟩ := mem_map.mp mem
    obtain ⟨space, raw⟩ := address
    obtain ⟨rfl, low, high⟩ := inside
    exact ⟨i, mem_range.mp lt, congrArg (Address.mk 0) (le_antisymm high low)⟩
  · rintro ⟨i, lt, rfl⟩
    exact ⟨_, mem_map_of_mem (mem_range.mpr lt), rfl, le_rfl, le_rfl⟩

def evenAddresses : List Address :=
  (List.range (maxWorkItemsPerAnalyser + 1)).map fun i => ⟨0, 2 * i⟩

theorem evenAddresses_nodup : evenAddresses.Nodup := by
  refine nodup_range.map fun left right eq => ?_
  have := (Address.mk.inj eq).2
  omega

theorem space_of_evenAddresses {address : Address} {range : Option AddressRange}
    (mem : address ∈ evenAddresses) (holds : Holds range (.address address)) :
    range.map AddressRange.space = some 0 := by
  obtain ⟨i, -, rfl⟩ := mem_map.mp mem
  cases range with
  | none => exact absurd holds id
  | some range => exact congrArg some holds.1

theorem meets_oddAddresses {range : AddressRange} {left right : Address}
    (leftMem : left ∈ evenAddresses) (rightMem : right ∈ evenAddresses)
    (leftIn : range.Contains left) (rightIn : range.Contains right) (ne : left ≠ right) :
    oddAddresses.intersectsRange range = true := by
  obtain ⟨i, iLt, rfl⟩ := mem_map.mp leftMem
  obtain ⟨j, jLt, rfl⟩ := mem_map.mp rightMem
  have iLt := mem_range.mp iLt
  have jLt := mem_range.mp jLt
  have apart : i ≠ j := fun eq => ne (by rw [eq])
  obtain ⟨space, low, high⟩ := leftIn
  obtain ⟨-, low', high'⟩ := rightIn
  dsimp only at low high low' high'
  refine (intersectsRange_iff (low.trans high)).mpr
    ⟨⟨0, 2 * min i j + 1⟩, ⟨space, ?_, ?_⟩, contains_oddAddresses.mpr ⟨min i j, ?_, rfl⟩⟩
  · dsimp only
    omega
  · dsimp only
    omega
  · omega

/-- One range that is cut at every other address is put back whole: the pieces exceed the limit, and
their hull covers the addresses that were cut. -/
theorem cancel_leaves_region :
    let call := Call.schedule 0 0 .decode 0
      (AddressRangeSet.new.insertRange ⟨0, 0, 2 * maxWorkItemsPerAnalyser⟩)
      fun range => ⟨range, 0, [], .change, 0⟩
    call.Within (Phased twoAnalysers) ∧
    ∃ queue outputs queue' report, run (withAnalysers 2) [call] = some (queue, outputs) ∧
      queue.cancel [.decode] oddAddresses = some (queue', report) ∧
      ∃ x ∈ queue'.items.entries, x.2.phase = .decode ∧ ∃ range, x.2.range = some range ∧
        oddAddresses.intersectsRange range = true := by
  intro call
  have registered : 0 < twoAnalysers.count := Nat.two_pos
  have made : call.Within (Belongs twoAnalysers) := scheduledItems_belong registered 0 _ _
  have phased : call.Within (Phased twoAnalysers) := fun item mem =>
    ⟨schedule_within registered rfl item mem, (made item mem).phase⟩
  refine ⟨phased, ?_⟩
  obtain ⟨queue, batch, step, kept, asked, -⟩ :=
    call.apply_spec (withAnalysers_inv : Inv twoAnalysers _) ⟨registered, rfl, rfl⟩
  obtain ⟨queue₁, batch₁, step₁, consistent⟩ :=
    withAnalysers_consistent.apply (belongs_class twoAnalysers) made
  rw [step] at step₁
  cases step₁
  obtain ⟨queue', report, cancel, kept'⟩ := cancel_spec kept.inv [.decode] oddAddresses
  obtain ⟨queue₁, report₁, cancel₁, consistent'⟩ :=
    consistent.cancel (belongs_class twoAnalysers) [.decode] oddAddresses
  rw [cancel] at cancel₁
  cases cancel₁
  have reached : run (withAnalysers 2) [call] = some (queue, [batch]) := by
    rw [run, show call.apply (withAnalysers 2) = some (queue, batch) from step]
    rfl
  refine ⟨queue, [batch], queue', report, reached, cancel, ?_⟩
  by_contra none
  -- otherwise every even address needs a location of its own
  have covered : ∀ address ∈ evenAddresses, Covers queue' 0 (.address address) := by
    intro address mem
    obtain ⟨i, lt, rfl⟩ := mem_map.mp mem
    have lt := mem_range.mp lt
    refine (kept'.covers _ _ (asked 0 (.address ⟨0, 2 * i⟩) ⟨rfl, ?_⟩)).resolve_right ?_
    · refine (contains_insertRange ?_).mpr (.inl ⟨rfl, Nat.zero_le _, ?_⟩)
      · simp [maxWorkItemsPerAnalyser]
      · dsimp only
        omega
    · rintro ⟨address, eq, cancelled, -⟩
      cases eq
      obtain ⟨j, -, eq⟩ := contains_oddAddresses.mp cancelled
      have := (Address.mk.inj eq).2
      omega
  have apart : ∀ x ∈ queue'.items.entries, x.2.analyser = 0 →
      ∀ left ∈ evenAddresses, ∀ right ∈ evenAddresses,
      Holds x.2.range (.address left) → Holds x.2.range (.address right) → left = right := by
    intro x mem own left leftMem right rightMem leftIn rightIn
    by_contra ne
    have phase : x.2.phase = .decode := by
      rw [(consistent'.indexed.keyed _ _ mem).2.phase, own]
      rfl
    cases range : x.2.range with
    | none => rw [range] at leftIn; exact leftIn
    | some found =>
      rw [range] at leftIn rightIn
      exact none ⟨x, mem, phase, found, range,
        meets_oddAddresses leftMem rightMem leftIn rightIn ne⟩
  obtain ⟨keys, found⟩ := consistent'.indexed.keys_of_lt registered
  have many := length_le_of_apart consistent'.indexed found evenAddresses_nodup covered apart
  rw [evenAddresses, length_map, length_range] at many
  -- so each location is in a group of its own, and there are only two kinds
  have separate := (consistent'.limited 0 keys found).resolve_left (by omega)
  have sameKind : ∀ left ∈ evenAddresses, ∀ right ∈ evenAddresses,
      ∀ x ∈ queue'.items.entries, ∀ y ∈ queue'.items.entries,
      x.2.analyser = 0 → y.2.analyser = 0 → Holds x.2.range (.address left) →
      Holds y.2.range (.address right) → x.2.kind = y.2.kind → left = right := by
    intro left leftMem right rightMem x xMem y yMem xOwn yOwn leftIn rightIn kind
    have group : x.2.location.group = y.2.location.group := by
      rw [Location.group, Location.group, WorkItem.location, WorkItem.location,
        space_of_evenAddresses leftMem leftIn, space_of_evenAddresses rightMem rightIn, kind]
    have listed : ∀ z ∈ queue'.items.entries, z.2.analyser = 0 →
        (z.2.location, z.1) ∈ keys.entries := fun z mem own =>
      consistent'.indexed.indexed z.1 z.2 mem keys (by rw [own]; exact found)
    have same := (Prod.mk.inj (separate _ (listed x xMem xOwn) _ (listed y yMem yOwn) group)).1
    have range : y.2.range = x.2.range := (congrArg Location.range same).symm
    rw [range] at rightIn
    exact apart x xMem xOwn left leftMem right rightMem leftIn rightIn
  have even : ∀ i ≤ 2, ⟨0, 2 * i⟩ ∈ evenAddresses := fun i le =>
    mem_map_of_mem (mem_range.mpr (le.trans_lt (by simp [maxWorkItemsPerAnalyser])))
  obtain ⟨_, first, firstMem, firstOwn, firstIn⟩ := covered _ (even 0 (by omega))
  obtain ⟨_, second, secondMem, secondOwn, secondIn⟩ := covered _ (even 1 (by omega))
  obtain ⟨_, third, thirdMem, thirdOwn, thirdIn⟩ := covered _ (even 2 (by omega))
  have kinds : first.kind = second.kind ∨ second.kind = third.kind ∨ first.kind = third.kind := by
    cases first.kind <;> cases second.kind <;> cases third.kind <;> simp
  rcases kinds with kind | kind | kind
  · exact absurd (sameKind _ (even 0 (by omega)) _ (even 1 (by omega)) _ firstMem _ secondMem
      firstOwn secondOwn firstIn secondIn kind) (by decide)
  · exact absurd (sameKind _ (even 1 (by omega)) _ (even 2 (by omega)) _ secondMem _ thirdMem
      secondOwn thirdOwn secondIn thirdIn kind) (by decide)
  · exact absurd (sameKind _ (even 0 (by omega)) _ (even 2 (by omega)) _ firstMem _ thirdMem
      firstOwn thirdOwn firstIn thirdIn kind) (by decide)

end Fugue.Engine
