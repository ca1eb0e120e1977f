import Fugue.Lib.Generations
import Fugue.Lib.OrdMap

/-!
# Id allocators

`IdAllocator` (`fugue-core/src/ir/mod.rs:235-299`) and `PersistentIdAllocator`
(`fugue-core/src/ir/persistent.rs`) with the way the tables use them: a batch reserves the ids
`pending_id(0)`, `pending_id(1)`, and so on; it is then either dropped or committed, where some of
the reserved ids are cancelled and some of the live ones released.

A failed assertion is `none`: an index or a generation that is exhausted, or a count of live entities
that does not remain valid. The entity store is the part of it that the allocator of one table uses:
the free records of all tables and the state of this one.
-/

namespace Fugue.Ir

open Fugue.Lib

/-- `Id` (`ir/mod.rs:98-102`), the index and generation of an entity, both a `u32`. -/
abbrev IrId := Handle

/-- `Id::from_index` (`ir/mod.rs:181-184`). -/
def IrId.fromIndex (index : ℕ) : Option IrId :=
  if index < 2 ^ 32 - 1 then some ⟨index, 0⟩ else none

/-- `Id::next_generation` (`ir/mod.rs:215-218`). -/
def IrId.nextGeneration (id : IrId) : Option IrId :=
  if id.generation < 2 ^ 32 - 2 then some id.bump else none

/-- `IdAllocator` (`ir/mod.rs:236-240`). -/
structure IdAllocator where
  freeIds : List IrId
  nextIndex : ℕ
  deriving DecidableEq, Repr

namespace IdAllocator

/-- `IdAllocator::new` (`ir/mod.rs:248-253`). -/
def new : IdAllocator := ⟨[], 0⟩

variable (allocator : IdAllocator)

/-- `IdAllocator::pending_id` (`ir/mod.rs:266-272`). -/
def pendingId (offset : ℕ) : Option IrId :=
  if offset < allocator.freeIds.length then
    allocator.freeIds[allocator.freeIds.length - offset - 1]?
  else IrId.fromIndex (allocator.nextIndex + offset - allocator.freeIds.length)

/-- `IdAllocator::allocate` (`ir/mod.rs:274-283`). -/
def allocate : Option (IrId × IdAllocator) :=
  match allocator.freeIds.getLast? with
  | some id => some (id, { allocator with freeIds := allocator.freeIds.dropLast })
  | none => do
    let id ← IrId.fromIndex allocator.nextIndex
    return (id, { allocator with nextIndex := allocator.nextIndex + 1 })

/-- `IdAllocator::release` (`ir/mod.rs:296-298`). -/
def release (id : IrId) : Option IdAllocator := do
  let next ← IrId.nextGeneration id
  return { allocator with freeIds := allocator.freeIds ++ [next] }

def reserve (count : ℕ) : Option (List IrId) := (List.range count).mapM allocator.pendingId

/-- `publish_reservations` of the tables (`function/table/transient.rs:195-205`): one allocation for
each reservation, which the source asserts to be that id. -/
def publishReservations (allocator : IdAllocator) : List IrId → Option IdAllocator
  | [] => some allocator
  | id :: reservations => do
    let (allocated, allocator) ← allocator.allocate
    if allocated = id then publishReservations allocator reservations else none

/-- The part of a commit that concerns the ids (`function/table/mod.rs:749-768` and the releases of
`publish_remove`). -/
def commit (reservations releases : List IrId) : Option IdAllocator := do
  let allocator ← allocator.publishReservations reservations
  releases.foldlM release allocator

end IdAllocator

/-- The key of a free record: the table and the index, in this order. -/
abbrev FreeIdKey := ℕ ×ₗ ℕ

/-- `FreeIdKey::new` (`persistent.rs:162-164`). -/
def FreeIdKey.new (table index : ℕ) : FreeIdKey := toLex (table, index)

/-- `TableIndexState` (`persistent.rs:195-199`). -/
structure TableIndexState where
  schema : ℕ
  nextIndex : ℕ
  live : ℕ
  deriving DecidableEq, Repr

/-- `TableIndexState::new` (`persistent.rs:202-208`). -/
def TableIndexState.new (nextIndex live : ℕ) : TableIndexState := ⟨1, nextIndex, live⟩

/-- `PendingAllocations` (`persistent.rs:227-232`). -/
structure PendingAllocations where
  freeExhausted : Bool
  ids : List IrId
  lastFree : Option ℕ
  nextIndex : ℕ
  deriving DecidableEq, Repr

/-- `PendingAllocations::new` (`persistent.rs:235-242`) and `clear` (`persistent.rs:244-249`). -/
def PendingAllocations.new (nextIndex : ℕ) : PendingAllocations := ⟨false, [], none, nextIndex⟩

/-- The records of the entity store that the allocator of a table uses. -/
structure IdStore where
  freeIds : OrdMap FreeIdKey ℕ
  tableState : Option TableIndexState

inductive IdWrite where
  | insertFree (key : FreeIdKey) (generation : ℕ)
  | removeFree (key : FreeIdKey)
  | insertState (state : TableIndexState)

def IdStore.apply (store : IdStore) : IdWrite → IdStore
  | .insertFree key generation => { store with freeIds := store.freeIds.insert key generation }
  | .removeFree key => { store with freeIds := store.freeIds.erase key }
  | .insertState state => { store with tableState := some state }

/-- `PersistentIdAllocator` (`persistent.rs:252-258`), with the byte of its table. -/
structure PersistentIdAllocator where
  pending : PendingAllocations
  state : TableIndexState
  table : ℕ

namespace PersistentIdAllocator

/-- `PersistentIdAllocator::new` (`persistent.rs:261-269`). -/
def new (table : ℕ) (state : TableIndexState) : PersistentIdAllocator :=
  ⟨.new state.nextIndex, state, table⟩

/-- `PersistentIdAllocator::initialise` (`persistent.rs:271-280`). -/
def initialise (store : IdStore) (table nextIndex live : ℕ) : PersistentIdAllocator × IdStore :=
  let state := TableIndexState.new nextIndex live
  (new table state, store.apply (.insertState state))

/-- `PersistentIdAllocator::load` (`persistent.rs:286-298`). -/
def load (store : IdStore) (table : ℕ) : Option PersistentIdAllocator :=
  (store.tableState.filter fun state => state.schema = 1).map (new table)

/-- The free records of a table after the cursor (`persistent.rs:320-338`): the iteration stops at
the first record of another table. -/
def freeRecords (store : IdStore) (table : ℕ) (lastFree : Option ℕ) : List (ℕ × ℕ) :=
  let entries := store.freeIds.entries.filter fun entry =>
    match lastFree with
    | none => decide (FreeIdKey.new table 0 ≤ entry.1)
    | some index => decide (FreeIdKey.new table index < entry.1)
  (entries.takeWhile fun entry => decide ((ofLex entry.1).1 = table)).map fun entry =>
    ((ofLex entry.1).2, entry.2)

/-- The body of the first loop of `extend_pending` (`persistent.rs:316-342`). -/
def readFree (store : IdStore) (table required : ℕ) (pending : PendingAllocations) :
    PendingAllocations :=
  let batchSize := max (required - pending.ids.length) 256
  let read := (freeRecords store table pending.lastFree).take batchSize
  { pending with
    ids := pending.ids ++ read.map fun record => ⟨record.1, record.2⟩
    lastFree := (read.getLast?.map Prod.fst).or pending.lastFree
    freeExhausted := pending.freeExhausted || decide (read.length < batchSize) }

/-- The second loop of `extend_pending` (`persistent.rs:344-347`). -/
def pushFresh : ℕ → PendingAllocations → Option PendingAllocations
  | 0, pending => some pending
  | count + 1, pending => do
    let id ← IrId.fromIndex pending.nextIndex
    pushFresh count { pending with
      ids := pending.ids ++ [id]
      nextIndex := pending.nextIndex + 1 }

/-- `extend_pending` (`persistent.rs:311-350`). The first loop has at most one round: a round reads
as many ids as are missing or finds the last record (`readFree_done`). -/
def extendPending (store : IdStore) (table required : ℕ) (pending : PendingAllocations) :
    Option PendingAllocations :=
  let pending := if pending.freeExhausted = false ∧ pending.ids.length < required then
      readFree store table required pending
    else pending
  pushFresh (required - pending.ids.length) pending

variable (allocator : PersistentIdAllocator)

/-- What is pending when the id at `offset` is asked for (`persistent.rs:301-307`). -/
def pendingFor (store : IdStore) (offset : ℕ) : Option PendingAllocations :=
  if allocator.pending.ids.length ≤ offset then
    extendPending store allocator.table (offset + 1) allocator.pending
  else some allocator.pending

/-- `PersistentIdAllocator::pending_id` (`persistent.rs:300-309`). -/
def pendingId (store : IdStore) (offset : ℕ) : Option (IrId × PersistentIdAllocator) := do
  let pending ← allocator.pendingFor store offset
  let id ← pending.ids[offset]?
  return (id, { allocator with pending := pending })

/-- The reservations of a batch, with the allocator that they leave. -/
def reserve (store : IdStore) (allocator : PersistentIdAllocator) :
    ℕ → Option (List IrId × PersistentIdAllocator)
  | 0 => some ([], allocator)
  | count + 1 => do
    let (ids, allocator) ← reserve store allocator count
    let (id, allocator) ← allocator.pendingId store count
    return (ids ++ [id], allocator)

/-- The next index after the reservations (`persistent.rs:370`, `402-405`). -/
def nextIndexAfter (reservations : List IrId) : ℕ :=
  reservations.foldl (fun nextIndex id => max nextIndex (id.index + 1)) allocator.state.nextIndex

/-- The changes of the free records (`persistent.rs:364-374`). -/
def freeChanges (reservations releases : List IrId) : Option (OrdMap ℕ (Option ℕ)) :=
  let free := reservations.foldl (fun free id =>
    if id.index < allocator.state.nextIndex then free.insert id.index none else free) OrdMap.empty
  releases.foldlM (fun free id => do
    let next ← IrId.nextGeneration id
    return free.insert id.index (some next.generation)) free

/-- The state after a transition (`persistent.rs:384-393`, `406-412`). -/
def stateAfter (reservations : List IrId) (added removed : ℕ) : Option TableIndexState :=
  if removed ≤ allocator.state.live + added then
    some (.new (allocator.nextIndexAfter reservations) (allocator.state.live + added - removed))
  else none

/-- The write of a change of a free record (`persistent.rs:377-381`). -/
def freeWrite (table : ℕ) (entry : ℕ × Option ℕ) : IdWrite :=
  match entry.2 with
  | some generation => .insertFree (FreeIdKey.new table entry.1) generation
  | none => .removeFree (FreeIdKey.new table entry.1)

/-- `PersistentIdAllocator::append_transition` (`persistent.rs:352-394`). -/
def appendTransition (reservations releases : List IrId) (added removed : ℕ) :
    Option (List IdWrite) :=
  if reservations = [] ∧ releases = [] ∧ added = 0 ∧ removed = 0 then some []
  else do
    let free ← allocator.freeChanges reservations releases
    let state ← allocator.stateAfter reservations added removed
    return free.entries.map (freeWrite allocator.table) ++ [.insertState state]

/-- `PersistentIdAllocator::publish_transition` (`persistent.rs:396-417`). -/
def publishTransition (reservations : List IrId) (added removed : ℕ) :
    Option PersistentIdAllocator := do
  let state ← allocator.stateAfter reservations added removed
  return { allocator with state := state, pending := .new state.nextIndex }

end PersistentIdAllocator

/-- A transient table, as far as its ids go: the allocator, the ids of the live entities, and those
of all the entities that ever were. -/
structure TransientIds where
  allocator : IdAllocator
  live : List IrId
  ever : List IrId

/-- A batch of a transient table. A dropped batch changes nothing. -/
inductive TransientIds.Step : TransientIds → TransientIds → Prop
  | commit {table : TransientIds} {count : ℕ} {reservations releases : List IrId}
      {allocator : IdAllocator} (cancelled released : IrId → Bool)
      (reserved : table.allocator.reserve count = some reservations)
      (chosen : releases.Perm (reservations.filter cancelled ++ table.live.filter released))
      (committed : table.allocator.commit reservations releases = some allocator) :
      Step table ⟨allocator, table.live.filter (!released ·) ++ reservations.filter (!cancelled ·),
        table.ever ++ reservations.filter (!cancelled ·)⟩

/-- A persistent table, as far as its ids go. -/
structure PersistentIds where
  allocator : PersistentIdAllocator
  store : IdStore
  live : List IrId
  ever : List IrId

/-- A step of a persistent table: a batch that is dropped after its reservations, one that is
committed, a reload of the table from its store, and a change of the records of other tables. -/
inductive PersistentIds.Step : PersistentIds → PersistentIds → Prop
  | drop {table : PersistentIds} {count : ℕ} {reservations : List IrId}
      {allocator : PersistentIdAllocator}
      (reserved : table.allocator.reserve table.store count = some (reservations, allocator)) :
      Step table { table with allocator := allocator }
  | commit {table : PersistentIds} {count : ℕ} {reservations releases : List IrId}
      {allocator published : PersistentIdAllocator} {writes : List IdWrite}
      (cancelled released : IrId → Bool)
      (reserved : table.allocator.reserve table.store count = some (reservations, allocator))
      (chosen : releases.Perm (reservations.filter cancelled ++ table.live.filter released))
      (appended : allocator.appendTransition reservations releases
        (reservations.filter (!cancelled ·)).length (table.live.filter released).length =
          some writes)
      (publishes : allocator.publishTransition reservations
        (reservations.filter (!cancelled ·)).length (table.live.filter released).length =
          some published) :
      Step table ⟨published, writes.foldl IdStore.apply table.store,
        table.live.filter (!released ·) ++ reservations.filter (!cancelled ·),
        table.ever ++ reservations.filter (!cancelled ·)⟩
  | reload {table : PersistentIds} {allocator : PersistentIdAllocator}
      (loaded : PersistentIdAllocator.load table.store table.allocator.table = some allocator) :
      Step table { table with allocator := allocator }
  | foreign {table : PersistentIds} (freeIds : OrdMap FreeIdKey ℕ)
      (own : ∀ index, freeIds.get? (FreeIdKey.new table.allocator.table index) =
        table.store.freeIds.get? (FreeIdKey.new table.allocator.table index)) :
      Step table { table with store := { table.store with freeIds := freeIds } }

end Fugue.Ir
