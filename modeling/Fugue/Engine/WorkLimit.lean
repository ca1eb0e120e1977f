import Fugue.Engine.WorkRun
import Fugue.Ir.AddressSets

/-!
# The limit of the work queue

`insert` collapses the items of an analyser that exceeds `maxWorkItemsPerAnalyser`, to one item for
each address space and kind. An analyser with work in more spaces than the limit exceeds it all the
same. `Consistent` is what every run keeps, whatever phases the items have and whether or not their
ranges are empty: the two indexes agree, and an analyser is within the limit or each of its locations
is in a group of its own.
-/

namespace Fugue.Engine

open Fugue.Lib Fugue.Ir List Option AddressRangeSet

def Location.group (location : Location) : Group :=
  ⟨location.range.map AddressRange.space, location.kind⟩

/-- An item of an analyser that is registered with its own order; its range is one of raw
addresses. -/
structure Registered (analysers : Analysers) (item : WorkItem) : Prop where
  registered : item.analyser < analysers.count
  order : item.analyserOrder = analysers.order item.analyser
  raw : ∀ range, item.range = some range → range.start < 2 ^ 64 ∧ range.stop < 2 ^ 64

theorem registered_class (analysers : Analysers) :
    ItemClass analysers.count (Registered analysers) where
  registered := Registered.registered
  order := by
    intro item other made made' eq
    rw [made.order, made'.order] at eq
    exact analysers.order_injective _ _ made.registered made'.registered eq
  same := by
    intro item other same made
    refine ⟨?_, ?_, ?_⟩
    · rw [same.analyser]; exact made.registered
    · rw [same.order, same.analyser]; exact made.order
    · rw [same.range]; exact made.raw
  hull := by
    intro item other left right made made' leftEq rightEq _
    refine ⟨made.registered, made.order, ?_⟩
    intro range eq
    cases eq
    have low := made.raw left leftEq
    have high := made'.raw right rightEq
    exact ⟨by simp only [hullRange]; omega, by simp only [hullRange]; omega⟩
  narrow := by
    intro item range made proper
    refine ⟨made.registered, made.order, ?_⟩
    intro found eq
    cases eq
    exact ⟨proper.start_le.trans_lt proper.stop_lt, proper.stop_lt⟩
  continued := fun made => ⟨made.registered, made.order, made.raw⟩
  bounded := fun made eq => made.raw _ eq

/-- The calls whose items are of a class; a budget is a `u64`. -/
def Call.Within (good : WorkItem → Prop) : Call → Prop
  | .schedule analyser analyserOrder phase priority regions cause =>
    ∀ item ∈ AnalysisWorkQueue.scheduledItems analyser analyserOrder phase priority regions cause, good item
  | .requeue item => good item
  | .requeueContinuation items => ∀ item ∈ items, good item
  | .pop budget => budget < 2 ^ 64
  | .popBatch budget _ => budget < 2 ^ 64
  | .cancel _ _ => True

theorem schedule_within {analysers : Analysers} {analyser : AnalyserId} {analyserOrder : Nat}
    {phase : AnalysisPhase} {priority : Int} {regions : AddressRangeSet}
    {cause : Option AddressRange → WorkCause} (registered : analyser < analysers.count)
    (order : analyserOrder = analysers.order analyser) :
    (Call.schedule analyser analyserOrder phase priority regions cause).Within
      (Registered analysers) := by
  intro item mem
  obtain ⟨made, madeMem, rfl⟩ := List.mem_map.mp mem
  refine ⟨registered, order, ?_⟩
  rintro range rfl
  rcases mem_append.mp madeMem with rangeMem | rest
  · obtain ⟨found, foundMem, eq⟩ := List.mem_map.mp rangeMem
    cases eq
    have proper := ranges_proper _ foundMem
    exact ⟨proper.start_le.trans_lt proper.stop_lt, proper.stop_lt⟩
  · split at rest
    · simp at rest
    · cases rest

namespace AnalysisWorkQueue

/-- The analyser has at most `maxWorkItemsPerAnalyser` locations, or no two of them are in one
group. -/
def LimitedAt (queue : AnalysisWorkQueue) (analyser : AnalyserId) : Prop :=
  ∀ keys, queue.keysByAnalyserAndRange[analyser]? = some keys →
    keys.len ≤ maxWorkItemsPerAnalyser ∨
    ∀ x ∈ keys.entries, ∀ y ∈ keys.entries, x.1.group = y.1.group → x = y

structure Consistent (count : Nat) (good : WorkItem → Prop) (queue : AnalysisWorkQueue) :
    Prop where
  indexed : Indexed count good queue
  limited : ∀ analyser, queue.LimitedAt analyser

variable {count : Nat} {good : WorkItem → Prop} {queue queue' : AnalysisWorkQueue}
  {item : WorkItem} {analyser : AnalyserId}

theorem length_le_of_listed {keys : OrdMap Location WorkKey} {locations : List Location}
    (nodup : locations.Nodup)
    (listed : ∀ location ∈ locations, ∃ key, (location, key) ∈ keys.entries) :
    locations.length ≤ keys.len := by
  have subset : locations ⊆ keys.entries.map Prod.fst := by
    intro location mem
    obtain ⟨key, found⟩ := listed location mem
    exact List.mem_map_of_mem found
  have bound := (subperm_of_subset nodup subset).length_le
  rw [length_map] at bound
  exact bound

theorem nodup_locations (keys : OrdMap Location WorkKey) :
    (keys.entries.map Prod.fst).Nodup :=
  pairwise_map.mpr (keys.sorted.imp fun lt => ne_of_lt lt)

theorem LimitedAt.of_subset (inv : Indexed count good queue) (inv' : Indexed count good queue')
    (limited : queue.LimitedAt analyser)
    (fewer : ∀ x ∈ queue'.items.entries, x.2.analyser = analyser →
      ∃ y ∈ queue.items.entries, y.2.analyser = analyser ∧ y.2.location = x.2.location) :
    queue'.LimitedAt analyser := by
  intro keys' found'
  have lt : analyser < count := by
    rw [← inv'.length]
    exact lt_of_getElem? found'
  obtain ⟨keys, found⟩ := inv.keys_of_lt lt
  have listed : ∀ location key, (location, key) ∈ keys'.entries →
      ∃ key, (location, key) ∈ keys.entries := by
    intro location key mem
    obtain ⟨item, itemMem, same, rfl⟩ := inv'.located _ _ found' _ _ mem
    obtain ⟨y, yMem, sameY, locationY⟩ := fewer _ itemMem same
    refine ⟨y.1, ?_⟩
    rw [← locationY]
    exact inv.indexed y.1 y.2 yMem keys (by rw [sameY]; exact found)
  rcases limited keys found with within | separate
  · left
    have bound := length_le_of_listed (nodup_locations keys') (by
      intro location mem
      obtain ⟨⟨_, key⟩, entryMem, rfl⟩ := List.mem_map.mp mem
      exact listed _ _ entryMem)
    rw [length_map] at bound
    exact bound.trans within
  · right
    rintro ⟨locationX, keyX⟩ memX ⟨locationY, keyY⟩ memY group
    obtain ⟨oldX, oldMemX⟩ := listed _ _ memX
    obtain ⟨oldY, oldMemY⟩ := listed _ _ memY
    have same := separate _ oldMemX _ oldMemY group
    obtain ⟨rfl, -⟩ := Prod.mk.inj same
    rw [OrdMap.unique memX memY]

theorem Consistent.remove (items : ItemClass count good) (consistent : Consistent count good queue)
    {key : WorkKey} (mem : (key, item) ∈ queue.items.entries) :
    ∃ queue', queue.removeItem key item = some queue' ∧ Consistent count good queue' := by
  obtain ⟨queue', step, inv', members⟩ := removeItem_spec items consistent.indexed mem
  refine ⟨queue', step, inv', fun analyser => ?_⟩
  apply (consistent.limited analyser).of_subset consistent.indexed inv'
  intro x xMem same
  exact ⟨x, ((members x).mp xMem).1, same, rfl⟩

/-- An insertion keeps every analyser limited: at a location that is queued nothing is added, and an
analyser that exceeds the limit is collapsed. -/
theorem Inserted.limited (consistent : Consistent count good queue)
    (inv' : Indexed count good queue') (step : Inserted queue item queue') :
    queue'.LimitedAt analyser := by
  have limited := consistent.limited analyser
  cases step with
  | merged present _ _ same members =>
    apply limited.of_subset consistent.indexed inv'
    intro x mem own
    rcases (members x).mp mem with rfl | ⟨mem, -⟩
    · exact ⟨_, present, same.analyser.symm.trans own, same.location_eq.symm⟩
    · exact ⟨x, mem, own, rfl⟩
  | added _ members found within =>
    by_cases own : item.analyser = analyser
    · intro keys found'
      rw [← own, found] at found'
      cases found'
      exact .inl within
    · apply limited.of_subset consistent.indexed inv'
      intro x mem same
      rcases (members x).mp mem with rfl | mem
      · exact absurd same own
      · exact ⟨x, mem, same, rfl⟩
  | collapsed _ members _ _ _ collapsed =>
    by_cases own : item.analyser = analyser
    · intro keys found'
      right
      rintro ⟨locationX, keyX⟩ memX ⟨locationY, keyY⟩ memY group
      obtain ⟨x, xMem, xOwn, rfl⟩ := inv'.located _ _ found' _ _ memX
      obtain ⟨y, yMem, yOwn, rfl⟩ := inv'.located _ _ found' _ _ memY
      have same := collapsed.separate _ xMem _ yMem (xOwn.trans own.symm) (yOwn.trans own.symm)
        group
      cases same
      rfl
    · apply limited.of_subset consistent.indexed inv'
      intro x mem same
      have other : x.2.analyser ≠ item.analyser := by
        rw [same]
        exact Ne.symm own
      rcases (members x).mp ((collapsed.others x.1 x.2 other).mp mem) with rfl | mem
      · exact absurd rfl other
      · exact ⟨x, mem, same, rfl⟩

theorem Consistent.insert (items : ItemClass count good) (consistent : Consistent count good queue)
    (made : good item) :
    ∃ queue' report, queue.insert item = some (queue', report) ∧
      Consistent count good queue' := by
  obtain ⟨queue', report, step, inv', inserted⟩ :=
    insert_indexed items consistent.indexed made
  exact ⟨queue', report, step, inv', fun _ => inserted.limited consistent inv'⟩

theorem Consistent.insertAll (items : ItemClass count good)
    (consistent : Consistent count good queue) (report : DegradationReport) {added : List WorkItem}
    (made : ∀ item ∈ added, good item) :
    ∃ queue' report', AnalysisWorkQueue.insertAll (queue, report) added = some (queue', report') ∧
      Consistent count good queue' := by
  induction added generalizing queue report with
  | nil => exact ⟨queue, report, rfl, consistent⟩
  | cons item added ih =>
    obtain ⟨madeItem, madeRest⟩ := forall_mem_cons.mp made
    obtain ⟨middle, first, step, kept⟩ := consistent.insert items madeItem
    obtain ⟨queue', report', rest, consistent'⟩ :=
      ih kept (DegradationReport.extend report first) madeRest
    refine ⟨queue', report', ?_, consistent'⟩
    rw [AnalysisWorkQueue.insertAll, foldlM_cons, insertNext, step]
    exact rest

theorem Popping.cost {budget : Nat} {popped : Option WorkItem} (bound : budget < 2 ^ 64)
    (popping : Popping queue budget queue' popped) (found : popped = some item) :
    ∃ cost, item.cost = some cost ∧ cost ≤ budget := by
  cases popping with
  | idle => cases found
  | whole _ _ _ costEq le =>
    cases found
    exact ⟨_, costEq, le⟩
  | split _ _ _ _ proper positive exceeds =>
    cases found
    exact ⟨budget, (split_spec proper positive bound exceeds).2.2.1, le_rfl⟩

/-- What is handed out is the first item in the order of the keys, or a part of its range. -/
theorem Popping.head (items : ItemClass count good) {budget : Nat} {popped : Option WorkItem}
    (bound : budget < 2 ^ 64) (popping : Popping queue budget queue' popped)
    (found : popped = some item) : ∃ key head rest, queue.items.entries = (key, head) :: rest ∧
      item.phase = head.phase ∧ (good head → good item) := by
  cases popping with
  | idle => cases found
  | whole head =>
    cases found
    exact ⟨_, _, _, head, rfl, id⟩
  | split head _ _ _ proper positive exceeds =>
    cases found
    exact ⟨_, _, _, head, rfl,
      fun made => items.narrow made (split_spec proper positive bound exceeds).1⟩

section

variable (items : ItemClass count good) (consistent : Consistent count good queue)
include items consistent

theorem Consistent.pop {budget : Nat} (bound : budget < 2 ^ 64) :
    ∃ queue' popped, queue.pop budget = some (queue', popped) ∧ Consistent count good queue' ∧
      ∀ item, popped = some item → good item ∧ ∃ cost, item.cost = some cost := by
  obtain ⟨queue', popped, step, inv', popping⟩ := pop_indexed items consistent.indexed bound
  have handed : ∀ item, popped = some item → good item ∧ ∃ cost, item.cost = some cost := by
    intro item found
    obtain ⟨cost, costEq, -⟩ := popping.cost bound found
    obtain ⟨key, first, rest, head, -, own⟩ := popping.head items bound found
    exact ⟨own (consistent.indexed.keyed key first (by rw [head]; exact .head _)).2, cost, costEq⟩
  refine ⟨queue', popped, step, ⟨inv', fun analyser => ?_⟩, handed⟩
  cases popping with
  | idle => exact consistent.limited analyser
  | whole _ _ members =>
    apply (consistent.limited analyser).of_subset consistent.indexed inv'
    intro x mem same
    exact ⟨x, ((members x).mp mem).1, same, rfl⟩
  | @split key item _ removed _ _ head remove _ _ _ _ _ inserted =>
    have mem : (key, item) ∈ queue.items.entries := by rw [head]; exact .head _
    obtain ⟨removed', remove', kept⟩ := consistent.remove items mem
    rw [remove] at remove'
    cases remove'
    exact inserted.limited kept inv'

/-- The loop of `pop_batch`, by induction on the items that it may still take. -/
theorem Consistent.popMore (analyser : AnalyserId) (phase : AnalysisPhase)
    (kind : WorkKind) {budget : Nat} (bound : budget < 2 ^ 64) (rounds spent : Nat) :
    ∃ queue' batch, AnalysisWorkQueue.popMore analyser phase kind budget rounds queue spent =
        some (queue', batch) ∧ Consistent count good queue' ∧ ∀ item ∈ batch, good item := by
  induction rounds generalizing queue spent with
  | zero => exact ⟨queue, [], rfl, consistent, nofun⟩
  | succ rounds ih =>
    have stop : ∃ queue' batch, some (queue, ([] : List WorkItem)) = some (queue', batch) ∧
        Consistent count good queue' ∧ ∀ item ∈ batch, good item :=
      ⟨queue, [], rfl, consistent, nofun⟩
    rw [AnalysisWorkQueue.popMore]
    split
    · exact stop
    · split
      · exact stop
      · split
        · exact stop
        · obtain ⟨middle, popped, step, kept, handed⟩ :=
            consistent.pop items (show budget - spent < 2 ^ 64 by omega)
          rw [step, some_bind]
          cases popped with
          | none => exact ⟨middle, [], rfl, kept, nofun⟩
          | some next =>
            obtain ⟨made, cost, costEq⟩ := handed next rfl
            obtain ⟨queue', batch, rest, consistent', more⟩ := ih kept (spent + cost)
            refine ⟨queue', next :: batch, ?_, consistent', forall_mem_cons.mpr ⟨made, more⟩⟩
            simp only [costEq, some_bind, rest]
            rfl

theorem Consistent.popBatch {budget : Nat} (bound : budget < 2 ^ 64) (maxItems : Nat) :
    ∃ queue' batch, queue.popBatch budget maxItems = some (queue', batch) ∧
      Consistent count good queue' ∧ ∀ item ∈ batch, good item := by
  obtain ⟨middle, popped, step, kept, handed⟩ := consistent.pop items bound
  rw [AnalysisWorkQueue.popBatch, step, some_bind]
  cases popped with
  | none => exact ⟨middle, [], rfl, kept, forall_mem_nil _⟩
  | some first =>
    obtain ⟨made, cost, costEq⟩ := handed first rfl
    obtain ⟨queue', batch, rest, consistent', more⟩ :=
      kept.popMore items first.analyser first.phase first.kind bound (maxItems - 1) cost
    refine ⟨queue', first :: batch, ?_, consistent', forall_mem_cons.mpr ⟨made, more⟩⟩
    simp only [costEq, some_bind, rest]
    rfl

end

/-- What `cancel` inserts again of an item. -/
def survivors (region : AddressRangeSet) (item : WorkItem) : List WorkItem :=
  (item.regions.difference region).ranges.map item.withRange

/-- What survives of an item has proper ranges. -/
theorem survivors_good (items : ItemClass count good) (made : good item)
    (region : AddressRangeSet) : ∀ piece ∈ survivors region item, good piece := by
  intro piece mem
  obtain ⟨surviving, survivingMem, rfl⟩ := List.mem_map.mp mem
  exact items.narrow made (ranges_proper _ survivingMem)

section

variable (items : ItemClass count good) (consistent : Consistent count good queue)
include items consistent

theorem Consistent.cancelKey (region : AddressRangeSet)
    (report : DegradationReport) (key : WorkKey) :
    ∃ queue' report', AnalysisWorkQueue.cancelKey region (queue, report) key =
        some (queue', report') ∧ Consistent count good queue' := by
  unfold AnalysisWorkQueue.cancelKey
  cases found : queue.items.get? key with
  | none => exact ⟨queue, report, rfl, consistent⟩
  | some item =>
    have mem := OrdMap.get?_eq_some.mp found
    have made := (consistent.indexed.keyed _ _ mem).2
    obtain ⟨removed, remove, kept⟩ := consistent.remove items mem
    obtain ⟨queue', report', rest, consistent'⟩ :=
      kept.insertAll items report (survivors_good items made region)
    refine ⟨queue', report', ?_, consistent'⟩
    simp only [remove, some_bind]
    exact rest

theorem Consistent.cancel (phases : List AnalysisPhase) (region : AddressRangeSet) :
    ∃ queue' report, queue.cancel phases region = some (queue', report) ∧
      Consistent count good queue' := by
  unfold AnalysisWorkQueue.cancel
  generalize (queue.items.entries.filter fun entry =>
    isAffected phases region entry.2).map Prod.fst = keys
  generalize ([] : DegradationReport) = report
  induction keys generalizing queue report with
  | nil => exact ⟨queue, report, rfl, consistent⟩
  | cons key keys ih =>
    obtain ⟨middle, first, step, kept⟩ :=
      consistent.cancelKey items region report key
    obtain ⟨queue', report', rest, consistent'⟩ := ih kept first
    refine ⟨queue', report', ?_, consistent'⟩
    rw [foldlM_cons, step, some_bind, rest]

theorem Consistent.step {call : Call} (within : call.Within good) :
    ∃ queue' batch, call.apply queue = some (queue', batch) ∧ Consistent count good queue' ∧
      ∀ item ∈ batch, good item := by
  cases call with
  | schedule analyser analyserOrder phase priority regions cause =>
    obtain ⟨queue', report, step, consistent'⟩ := consistent.insertAll items [] within
    exact ⟨queue', [], by simp [Call.apply, schedule, step], consistent', nofun⟩
  | requeue item =>
    obtain ⟨queue', report, step, consistent'⟩ := consistent.insert items within
    exact ⟨queue', [], by simp [Call.apply, requeue, step], consistent', nofun⟩
  | requeueContinuation batch =>
    have made : ∀ item ∈ batch.map fun item => { item with kind := .continuation }, good item := by
      intro item mem
      obtain ⟨old, oldMem, rfl⟩ := List.mem_map.mp mem
      exact items.continued (within old oldMem)
    obtain ⟨queue', report, step, consistent'⟩ := consistent.insertAll items [] made
    exact ⟨queue', [], by simp [Call.apply, requeueContinuation, step], consistent', nofun⟩
  | pop budget =>
    obtain ⟨queue', popped, step, consistent', handed⟩ := consistent.pop items within
    exact ⟨queue', popped.toList, by simp [Call.apply, step], consistent',
      fun item mem => (handed item (mem_toList.mp mem)).1⟩
  | popBatch budget maxItems => exact consistent.popBatch items within maxItems
  | cancel phases region =>
    obtain ⟨queue', report, step, consistent'⟩ := consistent.cancel items phases region
    exact ⟨queue', [], by simp [Call.apply, step], consistent', nofun⟩

theorem Consistent.apply {call : Call} (within : call.Within good) :
    ∃ queue' batch, call.apply queue = some (queue', batch) ∧ Consistent count good queue' := by
  obtain ⟨queue', batch, step, consistent', -⟩ := consistent.step items within
  exact ⟨queue', batch, step, consistent'⟩

end

theorem withAnalysers_consistent : Consistent count good (withAnalysers count) := by
  have empty : ∀ {analyser : AnalyserId} {keys : OrdMap Location WorkKey},
      (withAnalysers count).keysByAnalyserAndRange[analyser]? = some keys → keys = .empty :=
    fun found => eq_of_mem_replicate (mem_of_getElem? found)
  refine ⟨⟨by simp [withAnalysers], by simp [withAnalysers], by simp [withAnalysers], ?_⟩, ?_⟩
  · intro analyser keys found location key mem
    rw [empty found] at mem
    exact absurd mem not_mem_nil
  · intro analyser keys found
    rw [empty found]
    exact .inl (Nat.zero_le _)

theorem Consistent.runs (items : ItemClass count good) {calls : List Call}
    (consistent : Consistent count good queue) (within : ∀ call ∈ calls, call.Within good) :
    ∃ queue' outputs, Engine.run queue calls = some (queue', outputs) ∧
      Consistent count good queue' ∧ ∀ batch ∈ outputs, ∀ item ∈ batch, good item := by
  induction calls generalizing queue with
  | nil => exact ⟨queue, [], rfl, consistent, nofun⟩
  | cons call calls ih =>
    obtain ⟨withinCall, withinRest⟩ := forall_mem_cons.mp within
    obtain ⟨middle, batch, step, kept, handed⟩ := consistent.step items withinCall
    obtain ⟨queue', outputs, rest, consistent', more⟩ := ih kept withinRest
    exact ⟨queue', batch :: outputs, by simp [Engine.run, step, rest], consistent',
      forall_mem_cons.mpr ⟨handed, more⟩⟩

theorem Consistent.run (items : ItemClass count good) {calls : List Call}
    (consistent : Consistent count good queue) (within : ∀ call ∈ calls, call.Within good) :
    ∃ queue' outputs, Engine.run queue calls = some (queue', outputs) ∧
      Consistent count good queue' := by
  obtain ⟨queue', outputs, run, consistent', -⟩ := consistent.runs items within
  exact ⟨queue', outputs, run, consistent'⟩

/-- Addresses that no two of which are in one range, each of them queued for the analyser, need a
location each. -/
theorem length_le_of_apart (inv : Indexed count good queue) {keys : OrdMap Location WorkKey}
    (found : queue.keysByAnalyserAndRange[analyser]? = some keys) {addresses : List Address}
    (nodup : addresses.Nodup)
    (covered : ∀ address ∈ addresses, Covers queue analyser (.address address))
    (apart : ∀ x ∈ queue.items.entries, x.2.analyser = analyser →
      ∀ left ∈ addresses, ∀ right ∈ addresses,
      Holds x.2.range (.address left) → Holds x.2.range (.address right) → left = right) :
    addresses.length ≤ keys.len := by
  have located : ∀ address ∈ addresses, ∃ location : Location,
      (∃ key, (location, key) ∈ keys.entries) ∧
      ∃ x ∈ queue.items.entries, x.2.analyser = analyser ∧ x.2.location = location ∧
        Holds x.2.range (.address address) := by
    intro address mem
    obtain ⟨key, item, itemMem, same, holds⟩ := covered address mem
    exact ⟨item.location, ⟨key, inv.indexed key item itemMem keys (by rw [same]; exact found)⟩,
      (key, item), itemMem, same, rfl, holds⟩
  choose location listed holder using located
  have injective : ∀ left leftMem right rightMem,
      location left leftMem = location right rightMem → left = right := by
    intro left leftMem right rightMem eq
    obtain ⟨x, xMem, xOwn, xLocation, xHolds⟩ := holder left leftMem
    obtain ⟨y, yMem, yOwn, yLocation, yHolds⟩ := holder right rightMem
    have range : y.2.range = x.2.range :=
      congrArg Location.range (yLocation.trans (eq.symm.trans xLocation.symm))
    rw [range] at yHolds
    exact apart x xMem xOwn left leftMem right rightMem xHolds yHolds
  have distinct : (addresses.attach.map fun address => location address.1 address.2).Nodup :=
    nodup.attach.map fun x y eq => Subtype.ext (injective x.1 x.2 y.1 y.2 eq)
  have bound := length_le_of_listed distinct (by
    intro l mem
    obtain ⟨⟨address, addressMem⟩, -, rfl⟩ := List.mem_map.mp mem
    exact listed address addressMem)
  rw [length_map, length_attach] at bound
  exact bound

end AnalysisWorkQueue

open AnalysisWorkQueue

/-- In every run the two indexes agree after each call, no assertion fails, and an analyser has at
most `maxWorkItemsPerAnalyser` locations or one location for each of its groups. -/
theorem indexes_agree (analysers : Analysers) (calls : List Call)
    (within : ∀ call ∈ calls, call.Within (Registered analysers)) :
    ∃ queue outputs, run (withAnalysers analysers.count) calls = some (queue, outputs) ∧
      Consistent analysers.count (Registered analysers) queue :=
  withAnalysers_consistent.run (registered_class analysers) within

/-- A run with two phases for one analyser, an empty range and a budget that splits. -/
def looseCalls : List Call :=
  let cause := fun range => ⟨range, 0, [], .change, 0⟩
  [.schedule 0 0 .decode 5 (AddressRangeSet.new.insertRange wholeSpace) cause,
    .schedule 0 0 .retract 7 (AddressRangeSet.new.insertRange wholeSpace) cause,
    .requeue ⟨1, 1, .derive, 3, some ⟨0, 9, 8⟩, [], 1, .region⟩,
    .popBatch 8192 4,
    .cancel [.retract] (AddressRangeSet.new.insertRange ⟨0, 96, 2 ^ 63⟩)]

theorem indexes_agree_looseCalls : ∃ queue outputs,
    run (withAnalysers 2) looseCalls = some (queue, outputs) ∧
      Consistent 2 (Registered twoAnalysers) queue := by
  apply indexes_agree twoAnalysers looseCalls
  simp only [looseCalls, forall_mem_cons, not_mem_nil, false_implies, implies_true, and_true]
  refine ⟨schedule_within (by decide) rfl, schedule_within (by decide) rfl,
    ⟨by decide, rfl, ?_⟩, by simp [Call.Within], trivial⟩
  intro range eq
  cases eq
  decide

/-- One address in each of more spaces than the limit. -/
def manySpaces : AddressRangeSet :=
  AddressRangeSet.new.insertRanges
    ((List.range (maxWorkItemsPerAnalyser + 1)).map fun space => ⟨space, 0, 0⟩)

theorem contains_manySpaces {space : Nat} (lt : space < maxWorkItemsPerAnalyser + 1) :
    manySpaces.Contains ⟨space, 0⟩ := by
  have bounded : ∀ range ∈ (List.range (maxWorkItemsPerAnalyser + 1)).map fun space =>
      (⟨space, 0, 0⟩ : AddressRange), range.stop < 2 ^ 64 := by
    intro range mem
    obtain ⟨space, -, rfl⟩ := List.mem_map.mp mem
    exact Nat.two_pow_pos 64
  rw [manySpaces, contains_insertRanges bounded]
  exact .inl ⟨⟨space, 0, 0⟩, List.mem_map_of_mem (mem_range.mpr lt), rfl, le_rfl, le_rfl⟩

/-- Work in more spaces than the limit is not collapsed below the limit. -/
theorem many_spaces_exceed_limit :
    let call := Call.schedule 0 0 .decode 0 manySpaces fun range => ⟨range, 0, [], .change, 0⟩
    call.Within (Registered twoAnalysers) ∧
    ∃ queue outputs keys, run (withAnalysers 2) [call] = some (queue, outputs) ∧
      queue.keysByAnalyserAndRange[0]? = some keys ∧ maxWorkItemsPerAnalyser < keys.len := by
  intro call
  have registered : 0 < twoAnalysers.count := Nat.two_pos
  refine ⟨schedule_within registered rfl, ?_⟩
  obtain ⟨queue, batch, step, kept, asked, -⟩ :=
    call.apply_spec (withAnalysers_inv : Inv twoAnalysers _) ⟨registered, rfl, rfl⟩
  have indexed := inv_iff_indexed.mp kept.inv
  obtain ⟨keys, found⟩ := indexed.keys_of_lt registered
  have reached : run (withAnalysers 2) [call] = some (queue, [batch]) := by
    rw [run, show call.apply (withAnalysers 2) = some (queue, batch) from step]
    rfl
  refine ⟨queue, [batch], keys, reached, found, ?_⟩
  -- a range lies in one space
  have bound := length_le_of_apart indexed found
    (nodup_range.map fun left right eq => (Address.mk.inj eq).1 :
      ((List.range (maxWorkItemsPerAnalyser + 1)).map fun space => Address.mk space 0).Nodup)
    (by
      intro address mem
      obtain ⟨space, spaceMem, rfl⟩ := List.mem_map.mp mem
      exact asked 0 (.address ⟨space, 0⟩)
        ⟨rfl, contains_manySpaces (mem_range.mp spaceMem)⟩)
    (by
      intro x _ _ left leftMem right rightMem leftHolds rightHolds
      obtain ⟨space, -, rfl⟩ := List.mem_map.mp leftMem
      obtain ⟨space', -, rfl⟩ := List.mem_map.mp rightMem
      cases range : x.2.range with
      | none => rw [range] at leftHolds; exact absurd leftHolds id
      | some range' =>
        rw [range] at leftHolds rightHolds
        rw [Address.mk.injEq]
        exact ⟨leftHolds.1.symm.trans rightHolds.1, rfl⟩)
  rw [length_map, length_range] at bound
  exact bound

/-! ## Phases -/

variable {queue queue' : AnalysisWorkQueue} {budget : ℕ} {item : WorkItem}

/-- No operation moves an item to another phase. -/
theorem ItemClass.inPhases {count : ℕ} {good : WorkItem → Prop} (items : ItemClass count good)
    (phases : AnalysisPhase → Prop) : ItemClass count fun item => good item ∧ phases item.phase where
  registered made := items.registered made.1
  order made made' := items.order made.1 made'.1
  same same made := ⟨items.same same made.1, by rw [same.phase]; exact made.2⟩
  hull made made' left right space := ⟨items.hull made.1 made'.1 left right space, made.2⟩
  narrow made proper := ⟨items.narrow made.1 proper, made.2⟩
  continued made := ⟨items.continued made.1, made.2⟩
  bounded made := items.bounded made.1

/-- The phase comes first in the order of the keys: an item that is handed out is of the earliest
phase that is queued, and until work of an earlier phase is added, no call hands out any. -/
theorem phases_in_order (analysers : Analysers) {before after : List Call}
    {outputs : List (List WorkItem)} (bound : budget < 2 ^ 64)
    (within : ∀ call ∈ before, call.Within (Registered analysers))
    (reached : run (withAnalysers analysers.count) before = some (queue, outputs))
    (popped : queue.pop budget = some (queue', some item))
    (later : ∀ call ∈ after, call.Within fun other =>
      Registered analysers other ∧ item.phase.rank ≤ other.phase.rank) :
    (∀ x ∈ queue.items.entries, item.phase.rank ≤ x.2.phase.rank) ∧
      ∃ last outputs, run queue' after = some (last, outputs) ∧
        ∀ batch ∈ outputs, ∀ other ∈ batch, item.phase.rank ≤ other.phase.rank := by
  have items := registered_class analysers
  obtain ⟨_, _, run, ⟨indexed, limited⟩⟩ := withAnalysers_consistent.run items within
  rw [reached] at run
  cases run
  have first : ∀ x ∈ queue.items.entries, item.phase.rank ≤ x.2.phase.rank := by
    intro x mem
    obtain ⟨_, _, step, -, popping⟩ := pop_indexed items indexed bound
    rw [popped] at step
    cases step
    obtain ⟨key, head, rest, isHead, same, -⟩ := popping.head items bound rfl
    have keyed := indexed.keyed
    have sorted := queue.items.sorted
    rw [isHead] at mem keyed sorted
    have le : key ≤ x.1 := by
      rcases mem_cons.mp mem with eq | mem
      · exact (congrArg Prod.fst eq).ge
      · exact (rel_of_pairwise_cons sorted mem).le
    rw [(keyed _ _ (.head _)).1, (keyed x.1 x.2 mem).1] at le
    rw [same]
    rcases Prod.Lex.toLex_le_toLex.mp le with lt | ⟨eq, -⟩
    · exact lt.le
    · exact eq.le
  have lateItems := items.inPhases fun phase => item.phase.rank ≤ phase.rank
  have late : Consistent analysers.count (fun other =>
      Registered analysers other ∧ item.phase.rank ≤ other.phase.rank) queue :=
    ⟨⟨indexed.length, fun key other mem => ⟨(indexed.keyed key other mem).1,
      (indexed.keyed key other mem).2, first _ mem⟩, indexed.indexed, indexed.located⟩, limited⟩
  obtain ⟨_, _, step, late', -⟩ := late.pop lateItems bound
  rw [popped] at step
  cases step
  obtain ⟨last, outputs, run, -, handed⟩ := late'.runs lateItems later
  exact ⟨first, last, outputs, run, fun batch mem other mem' => (handed batch mem other mem').2⟩

theorem phases_in_order_split : ∃ queue outputs queue',
    run (withAnalysers 2) [.requeue ⟨1, 1, .derive, 0, some ⟨0, 0, 9⟩, [], 0, .region⟩,
      .requeue ⟨0, 0, .decode, 0, some ⟨0, 16, 31⟩, [], 0, .region⟩] = some (queue, outputs) ∧
    queue.pop 4 = some (queue', some ⟨0, 0, .decode, 0, some ⟨0, 16, 19⟩, [], 0, .region⟩) ∧
    ∀ x ∈ queue.items.entries, AnalysisPhase.rank .decode ≤ x.2.phase.rank := by
  have within : ∀ call ∈ [Call.requeue ⟨1, 1, .derive, 0, some ⟨0, 0, 9⟩, [], 0, .region⟩,
      .requeue ⟨0, 0, .decode, 0, some ⟨0, 16, 31⟩, [], 0, .region⟩],
      call.Within (Registered twoAnalysers) := by
    simp only [forall_mem_cons, not_mem_nil, false_implies, implies_true, and_true]
    exact ⟨⟨by decide, rfl, by simp⟩, by decide, rfl, by simp⟩
  exact ⟨_, _, _, rfl, rfl, (phases_in_order twoAnalysers (by decide : 4 < 2 ^ 64) within rfl rfl
    (nofun : ∀ call ∈ ([] : List Call), _) :).1⟩

end Fugue.Engine
