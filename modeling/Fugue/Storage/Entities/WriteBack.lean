import Fugue.Lib.WriteBatch

/-!
# The write-back cache

`EntityCache` (`storage/entities/cache.rs`) with its `WriteBackWorker`
(`storage/entities/writer.rs`) as a step system of one client, the worker thread and a cache that
may evict any entry at any time. The client and the worker share the map of pending writes, a
channel and the backing store; every access to one of these is a step of its own, so that the steps
of the other party may come between any two.

Keys stand for their encodings, which keep the order of the keys, and values for their encodings.
The commits to the backing store succeed, so that the worker is never poisoned.
-/

namespace Fugue.Storage.Entities

open Fugue.Lib

universe u v

/-- What the iterators of a backing store are like: whether they read the store as it was when they
were made, and whether they stay at their end once they have reached it. Those of the databases do
both; the one of the store in memory (`memory.rs:190-203`, a range of a concurrent map) does
neither. -/
structure Provider where
  snapshot : Bool
  fused : Bool

/-- The capacity of the channel and `max_batch` (`writer.rs:63-68`). -/
structure Options where
  channelCapacity : ℕ
  maxBatch : ℕ

/-- `PendingEntry` (`writer.rs:21-24`), with the time of the client's write for the proofs. -/
structure PendingEntry (V : Type v) where
  value : Option V
  seq : ℕ
  time : ℕ

/-- `PendingWrite` (`writer.rs:26-30`). -/
structure PendingWrite (K : Type u) (V : Type v) where
  key : K
  value : Option V
  seq : ℕ
  time : ℕ

/-- `Message` (`writer.rs:32-36`). -/
inductive Message (K : Type u) where
  | flush
  | shutdown
  | write (key : K)
  deriving DecidableEq

/-- What the worker does after a commit: go on, reply to a flush, or stop. -/
inductive After where
  | resume | reply | stop
  deriving DecidableEq

/-- Where the worker is in `Worker::run`: waiting for a message, reading the pending entries of a
snapshot, or removing those that it has committed. -/
inductive Worker (K : Type u) (V : Type v) where
  | idle
  | collecting (rest : List K) (snapshot : List (PendingWrite K V)) (after : After)
  | clearing (rest : List (PendingWrite K V)) (after : After)
  | stopped

/-- `std::ops::Bound`, the start of a range. -/
inductive Bound (K : Type u) where
  | included (key : K)
  | excluded (key : K)
  | unbounded

/-- What the client and the worker share, and what the client has written: its view of the store,
and the times of the last writes to the keys and of the values in the store. -/
structure Data (K : Type u) (V : Type v) [LinearOrder K] where
  store : OrdMap K V
  pending : OrdMap K (PendingEntry V)
  seq : ℕ
  view : K → Option V
  time : ℕ
  written : K → ℕ
  stored : K → ℕ

/-- An iterator of the backing store: the store it reads if it reads an earlier one, the last key
that it gave, and whether it has reached its end. -/
structure Backing (K : Type u) (V : Type v) [LinearOrder K] where
  source : Option (OrdMap K V)
  cursor : Option K
  ended : Bool

/-- The state of the iterator that `merge_pending_range` returns; `ready` once it has looked for an
entry of the backing store. -/
structure Merge (K : Type u) (V : Type v) [LinearOrder K] where
  pending : List (K × Option V)
  buffered : Option (K × V)
  backing : Backing K V
  out : List (K × V)
  ready : Bool

inductive Client (K : Type u) (V : Type v) [LinearOrder K] where
  | idle
  | getPending (key : K)
  | getStore (key : K)
  | sending (write : KeyWrite K V)
  | caching (write : KeyWrite K V)
  | flushing
  | publishing (rest : List (KeyWrite K V))
  | visiting (start : Bound K) (rest : List K) (found : List (K × Option V))
  | decoding (start : Bound K) (rest found : List (K × Option V))
  | merging (start : Bound K) (merge : Merge K V)
  | dropped

/-- The results of the client's calls, and the end of the worker. -/
inductive Event (K : Type u) (V : Type v) where
  | got (key : K) (value : Option V)
  | iterated (start : Bound K) (entries : List (K × V))
  | flushed
  | stopped

/-- The system. `flushed` says that a flush has returned and nothing was enqueued since. -/
structure System (K : Type u) (V : Type v) [LinearOrder K] where
  data : Data K V
  lru : OrdMap K V
  queue : List (Message K)
  batch : List K
  worker : Worker K V
  replied : Bool
  client : Client K V
  flushed : Bool

variable {K : Type u} {V : Type v} [LinearOrder K]

/-- `WriteBackWorker::includes_start` (`writer.rs:137-143`). -/
def Bound.includes (start : Bound K) (key : K) : Bool :=
  match start with
  | .included first => decide (first ≤ key)
  | .excluded first => decide (first < key)
  | .unbounded => true

namespace Data

variable (data : Data K V)

/-- The insertion of `WriteBackWorker::enqueue` (`writer.rs:94-99`). -/
def enqueue (write : KeyWrite K V) : Data K V :=
  { data with
    pending := data.pending.insert write.key ⟨write.value, data.seq, data.time + 1⟩
    seq := data.seq + 1
    view := Function.update data.view write.key write.value
    time := data.time + 1
    written := Function.update data.written write.key (data.time + 1) }

/-- `Worker::snapshot_of` (`writer.rs:243-250`). -/
def snapshotOf (key : K) : Option (PendingWrite K V) :=
  (data.pending.get? key).map fun entry => ⟨key, entry.value, entry.seq, entry.time⟩

/-- `Worker::write_batch` (`writer.rs:275-292`). -/
def commit (snapshot : List (PendingWrite K V)) : Data K V :=
  { data with
    store := data.store.writeAll (snapshot.map fun write => ⟨write.key, write.value⟩)
    stored := fun k => ((snapshot.find? fun write => decide (write.key = k)).map
      PendingWrite.time).getD (data.stored k) }

/-- The `remove_if` of `Worker::commit` (`writer.rs:272-275`). -/
def clear (write : PendingWrite K V) : Data K V :=
  match data.pending.get? write.key with
  | some entry =>
    if entry.seq = write.seq then { data with pending := data.pending.erase write.key } else data
  | none => data

/-- A batch that the client writes to the store itself. -/
def direct (writes : List (KeyWrite K V)) : Data K V :=
  { data with
    store := data.store.writeAll writes
    view := applyWrites data.view writes
    time := data.time + 1
    written := fun k => if k ∈ writes.map KeyWrite.key then data.time + 1 else data.written k
    stored := fun k => if k ∈ writes.map KeyWrite.key then data.time + 1 else data.stored k }

end Data

/-- The next entry of an iterator of the backing store: the first one from the start on that is
beyond the last key it gave. -/
def Backing.next (provider : Provider) (start : Bound K) (store : OrdMap K V)
    (backing : Backing K V) : Option (K × V) × Backing K V :=
  if provider.fused && backing.ended then (none, backing)
  else
    match (backing.source.getD store).entries.find? fun entry =>
        start.includes entry.1 && backing.cursor.all fun last => decide (last < entry.1) with
    | some entry => (some entry, { backing with cursor := some entry.1 })
    | none => (none, { backing with ended := true })

namespace Merge

variable (merge : Merge K V)

/-- The top of the loop of `merge_pending_range` (`cache.rs:289-292`). -/
def fetch (provider : Provider) (start : Bound K) (store : OrdMap K V) : Merge K V :=
  match merge.buffered with
  | some _ => { merge with ready := true }
  | none =>
    { merge with
      buffered := (merge.backing.next provider start store).1
      backing := (merge.backing.next provider start store).2
      ready := true }

/-- `EntityCache::cached_ref` (`cache.rs:465-470`). -/
def cachedRef (lru : OrdMap K V) (entry : K × V) : K × V :=
  (entry.1, (lru.get? entry.1).getD entry.2)

/-- `take_backing` (`cache.rs:279-286`). -/
def takeBacking (lru : OrdMap K V) (entry : K × V) : Merge K V :=
  { merge with buffered := none, out := merge.out ++ [cachedRef lru entry], ready := false }

/-- The end of the loop (`cache.rs:317-320`): the first pending entry, if it is not a removal. -/
def takePending (buffered : Option (K × V)) : List (K × Option V) → Merge K V
  | [] => merge
  | (key, value) :: rest =>
    { merge with
      pending := rest
      buffered := buffered
      out := merge.out ++ (value.map fun v => (key, v)).toList
      ready := false }

/-- The rest of the loop of `merge_pending_range` (`cache.rs:305-359`); `none` at its end. -/
def act (lru : OrdMap K V) : Option (Merge K V) :=
  match merge.pending, merge.buffered with
  | [], none => none
  | [], some entry => some (merge.takeBacking lru entry)
  | pending, none => some (merge.takePending none pending)
  | first :: rest, some entry =>
    if first.1 < entry.1 then some (merge.takePending (some entry) (first :: rest))
    else if first.1 = entry.1 then some (merge.takePending none (first :: rest))
    else some (merge.takeBacking lru entry)

end Merge

def cacheFound (lru : OrdMap K V) (key : K) : Option V → OrdMap K V
  | some value => lru.insert key value
  | none => lru

/-- The pending entries that a range visits (`writer.rs:110-134`). -/
def pendingKeys (start : Bound K) (pending : OrdMap K (PendingEntry V)) : List K :=
  (pending.entries.map Prod.fst).filter start.includes

def insertKey (key : K) (batch : List K) : List K := if key ∈ batch then batch else key :: batch

/-- The steps of the system. The maps and sets that are iterated give their entries in any order. -/
inductive Step (provider : Provider) (options : Options) :
    System K V → Option (Event K V) → System K V → Prop
  -- `EntityCache::try_get` (`cache.rs:270-299`)
  | getHit {s : System K V} {key : K} {value : V} (idle : s.client = .idle)
      (hit : s.lru.get? key = some value) : Step provider options s (some (.got key (some value))) s
  | getMiss {s : System K V} {key : K} (idle : s.client = .idle) (miss : s.lru.get? key = none) :
      Step provider options s none { s with client := .getPending key }
  | getPendingHit {s : System K V} {key : K} {entry : PendingEntry V}
      (at_ : s.client = .getPending key) (hit : s.data.pending.get? key = some entry) :
      Step provider options s (some (.got key entry.value))
        { s with client := .idle, lru := cacheFound s.lru key entry.value }
  | getPendingMiss {s : System K V} {key : K} (at_ : s.client = .getPending key)
      (miss : s.data.pending.get? key = none) :
      Step provider options s none { s with client := .getStore key }
  | getStore {s : System K V} {key : K} (at_ : s.client = .getStore key) :
      Step provider options s (some (.got key (s.data.store.get? key)))
        { s with client := .idle, lru := cacheFound s.lru key (s.data.store.get? key) }
  -- `try_insert` and `try_remove` (`cache.rs:407-434`)
  | enqueue {s : System K V} (write : KeyWrite K V) (idle : s.client = .idle) :
      Step provider options s none
        { s with data := s.data.enqueue write, client := .sending write, flushed := false }
  | send {s : System K V} {write : KeyWrite K V} (at_ : s.client = .sending write)
      (room : s.queue.length < options.channelCapacity) :
      Step provider options s none
        { s with queue := s.queue ++ [.write write.key], client := .caching write }
  | cache {s : System K V} {write : KeyWrite K V} (at_ : s.client = .caching write) :
      Step provider options s none { s with lru := s.lru.write write, client := .idle }
  -- `flush` (`writer.rs:145-157`)
  | flush {s : System K V} (idle : s.client = .idle)
      (room : s.queue.length < options.channelCapacity) :
      Step provider options s none { s with queue := s.queue ++ [.flush], client := .flushing }
  | flushed {s : System K V} (at_ : s.client = .flushing) (replied : s.replied = true) :
      Step provider options s (some .flushed)
        { s with client := .idle, replied := false, flushed := true }
  -- a batch written to the store, with `publish_insert` and `publish_remove` (`cache.rs:510-516`)
  | direct {s : System K V} (writes : List (KeyWrite K V)) (idle : s.client = .idle)
      (flushed : s.flushed = true) :
      Step provider options s none
        { s with data := s.data.direct writes, client := .publishing writes }
  | publish {s : System K V} {write : KeyWrite K V} {rest : List (KeyWrite K V)}
      (at_ : s.client = .publishing (write :: rest)) :
      Step provider options s none { s with lru := s.lru.write write, client := .publishing rest }
  | published {s : System K V} (at_ : s.client = .publishing []) :
      Step provider options s none { s with client := .idle }
  -- `try_iter_range` (`cache.rs:374-393`)
  | range {s : System K V} (start : Bound K) {keys : List K} (idle : s.client = .idle)
      (order : keys.Perm (pendingKeys start s.data.pending)) :
      Step provider options s none { s with client := .visiting start keys [] }
  | visit {s : System K V} {start : Bound K} {key : K} {rest : List K}
      {found : List (K × Option V)} (at_ : s.client = .visiting start (key :: rest) found) :
      Step provider options s none
        { s with client := (.visiting start rest
          (found ++ ((s.data.pending.get? key).map fun entry => (key, entry.value)).toList)) }
  | sort {s : System K V} {start : Bound K} {found : List (K × Option V)}
      (at_ : s.client = .visiting start [] found) :
      Step provider options s none
        { s with client := (.decoding start
          (found.insertionSort fun x y => x.1 ≤ y.1) []) }
  | decode {s : System K V} {start : Bound K} {key : K} {value : Option V}
      {rest found : List (K × Option V)}
      (at_ : s.client = .decoding start ((key, value) :: rest) found) :
      Step provider options s none
        { s with client := (.decoding start rest
          (found ++ [(key, value.map fun v => (s.lru.get? key).getD v)])) }
  | openRange {s : System K V} {start : Bound K} {found : List (K × Option V)}
      (at_ : s.client = .decoding start [] found) :
      Step provider options s none
        { s with client := (.merging start
          ⟨found, none, ⟨if provider.snapshot then some s.data.store else none, none, false⟩, [],
            false⟩) }
  | fetch {s : System K V} {start : Bound K} {merge : Merge K V}
      (at_ : s.client = .merging start merge) (look : merge.ready = false) :
      Step provider options s none
        { s with client := .merging start (merge.fetch provider start s.data.store) }
  | merge {s : System K V} {start : Bound K} {merge merge' : Merge K V}
      (at_ : s.client = .merging start merge) (ready : merge.ready = true)
      (more : merge.act s.lru = some merge') :
      Step provider options s none { s with client := .merging start merge' }
  | iterated {s : System K V} {start : Bound K} {merge : Merge K V}
      (at_ : s.client = .merging start merge) (ready : merge.ready = true)
      (ended : merge.act s.lru = none) :
      Step provider options s (some (.iterated start merge.out)) { s with client := .idle }
  -- `WriteBackWorker::drop` (`writer.rs:168-176`)
  | drop {s : System K V} (idle : s.client = .idle)
      (room : s.queue.length < options.channelCapacity) :
      Step provider options s none { s with queue := s.queue ++ [.shutdown], client := .dropped }
  | evict {s : System K V} (key : K) : Step provider options s none { s with lru := s.lru.erase key }
  -- `Worker::run` (`writer.rs:187-224`)
  | receive {s : System K V} {key : K} {queue : List (Message K)} (idle : s.worker = .idle)
      (first : s.queue = .write key :: queue)
      (small : (insertKey key s.batch).length < options.maxBatch) :
      Step provider options s none { s with queue := queue, batch := insertKey key s.batch }
  | receiveFull {s : System K V} {key : K} {queue : List (Message K)} {keys : List K}
      (idle : s.worker = .idle) (first : s.queue = .write key :: queue)
      (full : options.maxBatch ≤ (insertKey key s.batch).length)
      (order : keys.Perm (insertKey key s.batch)) :
      Step provider options s none
        { s with queue := queue, batch := [], worker := .collecting keys [] .resume }
  | timeout {s : System K V} {keys : List K} (idle : s.worker = .idle) (some_ : s.batch ≠ [])
      (order : keys.Perm s.batch) :
      Step provider options s none
        { s with batch := [], worker := .collecting keys [] .resume }
  | receiveFlush {s : System K V} {queue : List (Message K)} {keys : List K}
      (idle : s.worker = .idle) (first : s.queue = .flush :: queue)
      (order : keys.Perm (pendingKeys .unbounded s.data.pending)) :
      Step provider options s none
        { s with queue := queue, batch := [], worker := .collecting keys [] .reply }
  | receiveShutdown {s : System K V} {queue : List (Message K)} {keys : List K}
      (idle : s.worker = .idle) (first : s.queue = .shutdown :: queue)
      (order : keys.Perm (pendingKeys .unbounded s.data.pending)) :
      Step provider options s none
        { s with queue := queue, worker := .collecting keys [] .stop }
  -- `commit_batch`, `commit_all` and `commit` (`writer.rs:226-278`)
  | collect {s : System K V} {key : K} {rest : List K} {snapshot : List (PendingWrite K V)}
      {after : After} (at_ : s.worker = .collecting (key :: rest) snapshot after) :
      Step provider options s none
        { s with worker := .collecting rest (snapshot ++ (s.data.snapshotOf key).toList) after }
  | commit {s : System K V} {snapshot : List (PendingWrite K V)} {after : After}
      (at_ : s.worker = .collecting [] snapshot after) :
      Step provider options s none
        { s with data := s.data.commit snapshot, worker := .clearing snapshot after }
  | clear {s : System K V} {write : PendingWrite K V} {rest : List (PendingWrite K V)}
      {after : After} (at_ : s.worker = .clearing (write :: rest) after) :
      Step provider options s none
        { s with data := s.data.clear write, worker := .clearing rest after }
  | resume {s : System K V} (at_ : s.worker = .clearing [] .resume) :
      Step provider options s none { s with worker := .idle }
  | reply {s : System K V} (at_ : s.worker = .clearing [] .reply) :
      Step provider options s none { s with worker := .idle, replied := true }
  | stop {s : System K V} (at_ : s.worker = .clearing [] .stop) :
      Step provider options s (some .stopped) { s with worker := .stopped }

/-- The system over a store, before the first step. -/
def System.initial (store : OrdMap K V) : System K V where
  data := ⟨store, .empty, 0, store.get?, 0, fun _ => 0, fun _ => 0⟩
  lru := .empty
  queue := []
  batch := []
  worker := .idle
  replied := false
  client := .idle
  flushed := false

inductive Run (provider : Provider) (options : Options) (store : OrdMap K V) : System K V → Prop
  | initial : Run provider options store (.initial store)
  | step {s t : System K V} {event : Option (Event K V)} (run : Run provider options store s)
      (next : Step provider options s event t) : Run provider options store t

end Fugue.Storage.Entities
