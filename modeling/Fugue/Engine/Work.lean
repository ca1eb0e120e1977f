import Fugue.Ir.Address

/-!
# The analysis work queue

`fugue-core/src/engine/scheduler/work.rs`: queued items live in a map ordered by `WorkKey`, and a
second index gives, for each analyser, the key of the item at a location (a range and a kind). Work
for a location that is queued already is merged into the item there; an item that exceeds the byte
budget is split when it is popped; and an analyser with too many items has them collapsed to one
hull for each address space and kind. `none` stands for a failed assertion or `expect`.
-/

namespace Fugue.Engine

open Fugue.Lib Fugue.Ir

/-- `MAX_WORK_ITEMS_PER_ANALYSER` (`work.rs:13`). -/
def maxWorkItemsPerAnalyser : Nat := 4096

/-- `MAX_WORK_ITEM_CAUSES` (`work.rs:14`). -/
def maxWorkItemCauses : Nat := 256

/-- `AnalyserId`, the index of an analyser. -/
abbrev AnalyserId := Nat

/-- `AnalysisPhase` (`project/analysis.rs:28-36`). -/
inductive AnalysisPhase where
  | decode | derive | identify | partition | propagate | retract
  deriving DecidableEq, Repr

/-- `AnalysisPhase::rank` (`project/analysis.rs:59-68`), which orders the phases. -/
def AnalysisPhase.rank : AnalysisPhase → Nat
  | .retract => 0
  | .decode => 1
  | .partition => 2
  | .derive => 3
  | .propagate => 4
  | .identify => 5

/-- `ProblemScope` (`ir/problem/mod.rs:103-109`). -/
inductive ProblemScope where
  | address (address : Address)
  | addressSpace (space : AddressSpaceId)
  | global
  | range (range : AddressRange)
  deriving DecidableEq, Repr

/-- The address space of a scope, in `covering`. -/
def ProblemScope.space : ProblemScope → Option AddressSpaceId
  | .addressSpace id => some id
  | .address a => some a.space
  | .range r => some r.space
  | .global => none

/-- `ProblemScope::covering` (`ir/problem/mod.rs:143-159`). -/
def ProblemScope.covering (scope other : ProblemScope) : ProblemScope :=
  if scope = other then scope
  else
    match scope.space, other.space with
    | some left, some right => if left = right then .addressSpace left else .global
    | _, _ => .global

/-- `Degradation` (`work.rs:17-21`). -/
inductive Degradation where
  | causesMerged | rangesCollapsed
  deriving DecidableEq, Repr

/-- `DegradationEvent` (`work.rs:23-27`). -/
structure DegradationEvent where
  kind : Degradation
  scope : ProblemScope
  deriving DecidableEq, Repr

/-- `DegradationReport` (`work.rs:43-46`): at most one event of each kind. -/
abbrev DegradationReport := List DegradationEvent

/-- `DegradationReport::push` (`work.rs:49-59`). -/
def DegradationReport.push : DegradationReport → DegradationEvent → DegradationReport
  | [], event => [event]
  | existing :: events, event =>
    if existing.kind = event.kind then
      { existing with scope := existing.scope.covering event.scope } :: events
    else existing :: DegradationReport.push events event

/-- `DegradationReport::extend` (`work.rs:61-65`). -/
def DegradationReport.extend (report other : DegradationReport) : DegradationReport :=
  other.foldl DegradationReport.push report

/-- `ChangeCategory` (`project/change.rs:17-23`). -/
inductive ChangeCategory where
  | agent | analysis | engine | other
  deriving DecidableEq, Repr

/-- `ChangeSource` (`project/change.rs:25-29`). -/
structure ChangeSource where
  category : ChangeCategory
  label : String
  deriving DecidableEq, Repr

/-- `WorkTrigger` (`engine/mod.rs:204-208`). -/
inductive WorkTrigger where
  | change | dependency
  deriving DecidableEq, Repr

/-- `WorkCause` (`engine/mod.rs:210-217`); the change kinds are a `u32` bit set. -/
structure WorkCause where
  range : Option AddressRange
  kind : Nat
  provenance : List ChangeSource
  trigger : WorkTrigger
  revision : Nat
  deriving DecidableEq, Repr

/-- `ChangeProvenance::merge` (`project/change.rs:120-126`). -/
def mergeProvenance (sources other : List ChangeSource) : List ChangeSource :=
  other.foldl (fun sources source =>
    if sources.contains source then sources else sources ++ [source]) sources

/-- The range that covers two ranges of one space. -/
def hullRange (left right : AddressRange) : AddressRange :=
  ⟨left.space, min left.start right.start, max left.stop right.stop⟩

/-- `WorkCause::coarsen` (`engine/mod.rs:281-299`). -/
def WorkCause.coarsen (cause other : WorkCause) : WorkCause where
  range :=
    match cause.range, other.range with
    | some left, some right =>
      if left.space = right.space then some (hullRange left right)
      else if left = right then some left else none
    | none, none => none
    | _, _ => none
  kind := cause.kind ||| other.kind
  provenance := mergeProvenance cause.provenance other.provenance
  trigger := if other.trigger = .dependency then .dependency else cause.trigger
  revision := max cause.revision other.revision

/-- `WorkKind` (`work.rs:76-80`). -/
inductive WorkKind where
  | continuation | region
  deriving DecidableEq, Repr

/-- `WorkKind::rank` (`work.rs:82-89`), which orders the kinds. -/
def WorkKind.rank : WorkKind → Nat
  | .region => 0
  | .continuation => 1

/-- `WorkKey` (`work.rs:103-111`). -/
structure WorkKey where
  phase : AnalysisPhase
  address : Option Address
  priority : Int
  analyserOrder : Nat
  kind : WorkKind
  stop : Nat
  deriving DecidableEq, Repr

/-- A range and a kind: the keys of the second index. -/
structure Location where
  range : Option AddressRange
  kind : WorkKind
  deriving DecidableEq, Repr

/-- An address space and a kind: the groups of `collapse`. -/
structure Group where
  space : Option AddressSpaceId
  kind : WorkKind
  deriving DecidableEq, Repr

theorem AnalysisPhase.rank_injective : Function.Injective AnalysisPhase.rank := by
  intro a b eq
  cases a <;> cases b <;> first | rfl | simp [rank] at eq

theorem WorkKind.rank_injective : Function.Injective WorkKind.rank := by
  intro a b eq
  cases a <;> cases b <;> first | rfl | simp [rank] at eq

/-- The position of an address in the order of the keys; no address comes first. -/
def addressOrder (address : Option Address) : WithBot (ℕ ×ₗ ℕ) :=
  address.map fun address => toLex (address.space, address.address)

theorem addressOrder_injective : Function.Injective addressOrder := by
  refine Option.map_injective fun a b eq => ?_
  obtain ⟨space, address⟩ := a
  obtain ⟨rfl, rfl⟩ := Prod.mk.inj (toLex.injective eq)
  rfl

/-- The derived order of the keys: field by field. -/
instance : LinearOrder WorkKey :=
  LinearOrder.lift' (fun key => toLex (key.phase.rank, toLex (addressOrder key.address,
    toLex (key.priority, toLex (key.analyserOrder, toLex (key.kind.rank, key.stop)))))) (by
    rintro ⟨phase, address, priority, order, kind, stop⟩
      ⟨phase', address', priority', order', kind', stop'⟩ eq
    obtain ⟨phaseEq, eq⟩ := Prod.mk.inj (toLex.injective eq)
    obtain ⟨addressEq, eq⟩ := Prod.mk.inj (toLex.injective eq)
    obtain ⟨priorityEq, eq⟩ := Prod.mk.inj (toLex.injective eq)
    obtain ⟨orderEq, eq⟩ := Prod.mk.inj (toLex.injective eq)
    obtain ⟨kindEq, stopEq⟩ := Prod.mk.inj (toLex.injective eq)
    obtain rfl := AnalysisPhase.rank_injective phaseEq
    obtain rfl := addressOrder_injective addressEq
    obtain rfl := WorkKind.rank_injective kindEq
    dsimp only at priorityEq orderEq stopEq
    subst priorityEq orderEq stopEq
    rfl)

/-- The order of the pairs that the second index is keyed by. -/
instance : LinearOrder Location :=
  LinearOrder.lift' (fun location =>
    (toLex (location.range, location.kind.rank) : WithBot AddressRange ×ₗ ℕ)) (by
    rintro ⟨range, kind⟩ ⟨range', kind'⟩ eq
    obtain ⟨rangeEq, kindEq⟩ := Prod.mk.inj (toLex.injective eq)
    obtain rfl := WorkKind.rank_injective kindEq
    dsimp only at rangeEq
    subst rangeEq
    rfl)

/-- The order of the pairs that `collapse` groups by. -/
instance : LinearOrder Group :=
  LinearOrder.lift' (fun group => (toLex (group.space, group.kind.rank) : WithBot ℕ ×ₗ ℕ)) (by
    rintro ⟨space, kind⟩ ⟨space', kind'⟩ eq
    obtain ⟨spaceEq, kindEq⟩ := Prod.mk.inj (toLex.injective eq)
    obtain rfl := WorkKind.rank_injective kindEq
    dsimp only at spaceEq
    subst spaceEq
    rfl)

/-- `WorkItem` (`work.rs:113-123`). -/
structure WorkItem where
  analyser : AnalyserId
  analyserOrder : Nat
  phase : AnalysisPhase
  priority : Int
  range : Option AddressRange
  causes : List WorkCause
  attempts : Nat
  kind : WorkKind
  deriving DecidableEq, Repr

namespace WorkItem

/-- `has_same_causes` (`work.rs:152-155`). -/
def hasSameCauses (item other : WorkItem) : Bool :=
  item.causes.length == other.causes.length &&
    item.causes.all fun cause => other.causes.contains cause

variable (item : WorkItem)

/-- `with_range` (`work.rs:157-162`). -/
def withRange (range : AddressRange) : WorkItem :=
  { item with range := some range }

/-- `cost` (`work.rs:164-168`); `none` is the failed `expect`. -/
def cost : Option Nat :=
  match item.range with
  | none => some 1
  | some range => range.size

/-- `scope` (`work.rs:170-174`). -/
def scope : ProblemScope :=
  match item.range with
  | some range => .range range
  | none => .global

/-- `regions` (`work.rs:176-182`). -/
def regions : AddressRangeSet :=
  match item.range with
  | some range => AddressRangeSet.new.insertRange range
  | none => .new

/-- `key` (`work.rs:184-193`). -/
def key : WorkKey where
  phase := item.phase
  address := item.range.map AddressRange.startAddress
  priority := item.priority
  analyserOrder := item.analyserOrder
  kind := item.kind
  stop := match item.range with
    | none => 0
    | some range => range.stop

/-- The location of an item in the second index. -/
def location : Location := ⟨item.range, item.kind⟩

/-- One round of `absorb`: the causes so far and whether one was merged. -/
def absorbCause (state : List WorkCause × Bool) (cause : WorkCause) : List WorkCause × Bool :=
  if state.1.contains cause then state
  else if maxWorkItemCauses ≤ state.1.length then
    (state.1.modify (state.1.length - 1) fun last => last.coarsen cause, true)
  else (state.1 ++ [cause], state.2)

/-- `absorb` (`work.rs:199-220`). -/
def absorb (causes : List WorkCause) : WorkItem × Bool :=
  let (causes, merged) := causes.foldl absorbCause (item.causes, false)
  ({ item with causes }, merged)

/-- The item that takes over the attempts and the priority of another one. -/
def promote (item other : WorkItem) : WorkItem :=
  { item with
    attempts := max item.attempts other.attempts
    priority := min item.priority other.priority }

end WorkItem

/-- `CollapsedWork` (`work.rs:223-227`). -/
structure CollapsedWork where
  causesMerged : Bool
  item : WorkItem
  rangesCollapsed : Nat

/-- `AnalysisWorkQueue` (`work.rs:229-234`). -/
structure AnalysisWorkQueue where
  items : OrdMap WorkKey WorkItem
  keysByAnalyserAndRange : List (OrdMap Location WorkKey)
  degradations : DegradationReport

namespace AnalysisWorkQueue

/-- `with_analysers` (`work.rs:237-246`). -/
def withAnalysers (count : Nat) : AnalysisWorkQueue where
  items := .empty
  keysByAnalyserAndRange := List.replicate count .empty
  degradations := []

variable (queue : AnalysisWorkQueue)

/-- `insert_distinct` (`work.rs:361-375`). -/
def insertDistinct (item : WorkItem) : Option AnalysisWorkQueue := do
  let keys ← queue.keysByAnalyserAndRange[item.analyser]?
  if (queue.items.get? item.key).isSome || (keys.get? item.location).isSome then none
  else return { queue with
    items := queue.items.insert item.key item
    keysByAnalyserAndRange :=
      queue.keysByAnalyserAndRange.set item.analyser (keys.insert item.location item.key) }

/-- The group of an item in `collapse`. -/
def groupOf (item : WorkItem) : Group := ⟨item.range.map AddressRange.space, item.kind⟩

/-- How `collapse` joins an item to its group (`work.rs:393-409`). -/
def joinGroup (collapsed : CollapsedWork) (item : WorkItem) : CollapsedWork :=
  let causesMerged := collapsed.causesMerged || !collapsed.item.hasSameCauses item
  let (absorbed, merged) := collapsed.item.absorb item.causes
  let promoted := absorbed.promote item
  let range := match promoted.range, item.range with
    | some current, some range => some (hullRange current range)
    | current, _ => current
  { causesMerged := causesMerged || merged
    item := { promoted with range }
    rangesCollapsed := collapsed.rangesCollapsed + 1 }

/-- One round of the first loop of `collapse`: the item of a key moves from the queue to its
group. -/
def collapseItem (state : OrdMap WorkKey WorkItem × OrdMap Group CollapsedWork)
    (entry : Location × WorkKey) :
    Option (OrdMap WorkKey WorkItem × OrdMap Group CollapsedWork) := do
  let item ← state.1.get? entry.2
  let work := match state.2.get? (groupOf item) with
    | some collapsed => joinGroup collapsed item
    | none => ⟨false, item, 0⟩
  return (state.1.erase entry.2, state.2.insert (groupOf item) work)

variable (state : AnalysisWorkQueue × DegradationReport)

/-- One round of the second loop of `collapse`: a group becomes an item again. -/
def insertCollapsed
    (entry : Group × CollapsedWork) : Option (AnalysisWorkQueue × DegradationReport) := do
  let work := entry.2
  let merged := if work.causesMerged then
    DegradationReport.push state.2 ⟨.causesMerged, work.item.scope⟩ else state.2
  let report := if work.rangesCollapsed ≠ 0 then
    DegradationReport.push merged ⟨.rangesCollapsed, work.item.scope⟩ else merged
  return (← state.1.insertDistinct work.item, report)

variable (analyser : AnalyserId)

/-- `collapse` (`work.rs:377-441`). -/
def collapse :
    Option (AnalysisWorkQueue × DegradationReport) := do
  let keys ← queue.keysByAnalyserAndRange[analyser]?
  let (items, collapsed) ← keys.entries.foldlM collapseItem (queue.items, .empty)
  let emptied := { queue with
    items
    keysByAnalyserAndRange := queue.keysByAnalyserAndRange.set analyser .empty }
  collapsed.entries.foldlM insertCollapsed (emptied, [])

/-- The queued item at a location of an analyser, with its key. -/
def existing (keys : OrdMap Location WorkKey) (location : Location) :
    Option (WorkKey × WorkItem) := do
  let key ← keys.get? location
  let item ← queue.items.get? key
  return (key, item)

/-- `insert` (`work.rs:322-359`). -/
def insert (item : WorkItem) :
    Option (AnalysisWorkQueue × DegradationReport) := do
  let keys ← queue.keysByAnalyserAndRange[item.analyser]?
  match queue.existing keys item.location with
  | some (existingKey, existing) =>
    let items := queue.items.erase existingKey
    let (absorbed, merged) := existing.absorb item.causes
    let promoted := absorbed.promote item
    if (items.get? promoted.key).isSome then none
    else return ({ queue with
      items := items.insert promoted.key promoted
      keysByAnalyserAndRange :=
        queue.keysByAnalyserAndRange.set item.analyser (keys.insert item.location promoted.key) },
      if merged then [⟨.causesMerged, item.scope⟩] else [])
  | none =>
    let queue ← queue.insertDistinct item
    let keys ← queue.keysByAnalyserAndRange[item.analyser]?
    if maxWorkItemsPerAnalyser < keys.len then queue.collapse item.analyser
    else return (queue, [])

/-- One round of a loop that inserts items and gathers the reports. -/
def insertNext (item : WorkItem) :
    Option (AnalysisWorkQueue × DegradationReport) := do
  let (queue, report) ← state.1.insert item
  return (queue, DegradationReport.extend state.2 report)

/-- A loop that inserts items and gathers the reports. -/
def insertAll (items : List WorkItem) :
    Option (AnalysisWorkQueue × DegradationReport) :=
  items.foldlM insertNext state

/-- The items that `schedule` makes of its regions: one for each range, or one without a range if
there is none. -/
def scheduledItems (analyserOrder : Nat) (phase : AnalysisPhase)
    (priority : Int) (regions : AddressRangeSet) (cause : Option AddressRange → WorkCause) :
    List WorkItem :=
  (regions.ranges.map some ++ if regions.isEmpty then [none] else []).map fun range =>
    { analyser, analyserOrder, phase, priority, range, causes := [cause range], attempts := 0,
      kind := .region }

/-- `schedule` (`work.rs:276-305`). -/
def schedule (analyserOrder : Nat)
    (phase : AnalysisPhase) (priority : Int) (regions : AddressRangeSet)
    (cause : Option AddressRange → WorkCause) : Option (AnalysisWorkQueue × DegradationReport) :=
  insertAll (queue, []) (scheduledItems analyser analyserOrder phase priority regions cause)

/-- `requeue` (`work.rs:307-309`). -/
def requeue (item : WorkItem) :
    Option (AnalysisWorkQueue × DegradationReport) :=
  queue.insert item

/-- `requeue_continuation` (`work.rs:311-320`). -/
def requeueContinuation (items : List WorkItem) :
    Option (AnalysisWorkQueue × DegradationReport) :=
  insertAll (queue, []) (items.map fun item => { item with kind := .continuation })

/-- The queue without the item of a key. -/
def removeItem (key : WorkKey) (item : WorkItem) :
    Option AnalysisWorkQueue := do
  let keys ← queue.keysByAnalyserAndRange[item.analyser]?
  return { queue with
    items := queue.items.erase key
    keysByAnalyserAndRange :=
      queue.keysByAnalyserAndRange.set item.analyser (keys.erase item.location) }

/-- Whether `pop` has to split a range (`work.rs:483-486`). -/
def exceeds (range : AddressRange) (budget : Nat) : Bool :=
  match range.size with
  | none => true
  | some size => decide (budget < size)

/-- `pop` (`work.rs:475-501`); the inner `none` is an empty queue or budget. -/
def pop (budget : Nat) :
    Option (AnalysisWorkQueue × Option WorkItem) :=
  if budget = 0 then some (queue, none)
  else
    match queue.items.entries with
    | [] => some (queue, none)
    | (key, item) :: _ => do
      let queue ← queue.removeItem key item
      match item.range with
      | some range =>
        if exceeds range budget then
          let split := addRaw range.start (budget - 1)
          let remainder := item.withRange ⟨range.space, addRaw split 1, range.stop⟩
          let (queue, report) ← queue.insert remainder
          return ({ queue with
            degradations := DegradationReport.extend queue.degradations report },
            some (item.withRange ⟨range.space, range.start, split⟩))
        else return (queue, some item)
      | none => return (queue, some item)

/-- The loop of `pop_batch` (`work.rs:456-470`), for at most `rounds` further items. -/
def popMore (analyser : AnalyserId) (phase : AnalysisPhase) (kind : WorkKind) (budget : Nat) :
    Nat → AnalysisWorkQueue → Nat → Option (AnalysisWorkQueue × List WorkItem)
  | 0, queue, _ => some (queue, [])
  | rounds + 1, queue, spent =>
    if budget ≤ spent then some (queue, [])
    else
      match queue.items.entries with
      | [] => some (queue, [])
      | (_, candidate) :: _ =>
        if candidate.analyser ≠ analyser ∨ candidate.phase ≠ phase ∨ candidate.kind ≠ kind then
          some (queue, [])
        else do
          match ← queue.pop (budget - spent) with
          | (queue, none) => return (queue, [])
          | (queue, some next) =>
            let cost ← next.cost
            let (queue, rest) ← popMore analyser phase kind budget rounds queue (spent + cost)
            return (queue, next :: rest)

/-- `pop_batch` (`work.rs:443-473`). -/
def popBatch (budget maxItems : Nat) :
    Option (AnalysisWorkQueue × List WorkItem) := do
  match ← queue.pop budget with
  | (queue, none) => return (queue, [])
  | (queue, some first) =>
    let spent ← first.cost
    let (queue, rest) ←
      popMore first.analyser first.phase first.kind budget (maxItems - 1) queue spent
    return (queue, first :: rest)

/-- Whether `cancel` selects an item (`work.rs:510-515`). -/
def isAffected (phases : List AnalysisPhase) (region : AddressRangeSet) (item : WorkItem) : Bool :=
  phases.contains item.phase &&
    match item.range with
    | some range => region.intersectsRange range
    | none => false

/-- One round of `cancel` (`work.rs:521-530`). A key may be stale: an earlier round can have merged
or collapsed its item. -/
def cancelKey (region : AddressRangeSet) (state : AnalysisWorkQueue × DegradationReport)
    (key : WorkKey) : Option (AnalysisWorkQueue × DegradationReport) :=
  match state.1.items.get? key with
  | none => some state
  | some item => do
    let queue ← state.1.removeItem key item
    insertAll (queue, state.2) ((item.regions.difference region).ranges.map item.withRange)

/-- `cancel` (`work.rs:503-533`). -/
def cancel (phases : List AnalysisPhase) (region : AddressRangeSet) :
    Option (AnalysisWorkQueue × DegradationReport) :=
  ((queue.items.entries.filter fun entry => isAffected phases region entry.2).map
    Prod.fst).foldlM (cancelKey region) (queue, [])

end AnalysisWorkQueue

end Fugue.Engine
