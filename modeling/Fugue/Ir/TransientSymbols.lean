import Fugue.Ir.SymbolReplay
import Fugue.Ir.TransientIds

/-!
# Publishing symbols of transient tables

The removals of a batch come first and then the other records, by their ids. Each record changes the
slot of its symbol, which no other record of the batch has, so that the entries of a table change as
`replayEntry` says and its loader map as `replay` does.
-/

namespace Fugue.Ir

open Fugue.Lib SymbolTableStaging List Function IdAllocator
open Function (update)

/-! ## The ids of a batch -/

namespace IdAllocator

variable {allocator : IdAllocator}

theorem pendingId_source (offset : ℕ) {id : IrId} (pending : allocator.pendingId offset = some id) :
    (offset < allocator.freeIds.length ∧
      allocator.freeIds[allocator.freeIds.length - offset - 1]? = some id) ∨
    (allocator.freeIds.length ≤ offset ∧
      id.index = allocator.nextIndex + offset - allocator.freeIds.length) := by
  unfold pendingId at pending
  split at pending
  · rename_i lt
    exact .inl ⟨lt, pending⟩
  · rename_i ge
    unfold IrId.fromIndex at pending
    split at pending
    · cases pending
      exact .inr ⟨not_lt.mp ge, rfl⟩
    · cases pending

theorem pendingId_available {offset : ℕ} {id : IrId}
    (pending : allocator.pendingId offset = some id) :
    Available (· ∈ allocator.freeIds) allocator.nextIndex id := by
  rcases pendingId_source offset pending with ⟨-, free⟩ | ⟨ge, new⟩
  · exact .inl (mem_of_getElem? free)
  · exact .inr (by omega)

theorem pendingId_injective (fresh : Fresh allocator) {n m : ℕ} {id : IrId}
    (first : allocator.pendingId n = some id) (second : allocator.pendingId m = some id) :
    n = m := by
  have lt : ∀ k : ℕ, allocator.freeIds[k]? = some id → id.index < allocator.nextIndex :=
    fun k at_ => fresh.lt id (mem_of_getElem? at_)
  rcases pendingId_source n first with ⟨below, at_⟩ | ⟨ge, new⟩ <;>
    rcases pendingId_source m second with ⟨below', at_'⟩ | ⟨ge', new'⟩
  · obtain ⟨inside, get⟩ := List.getElem?_eq_some_iff.mp at_
    obtain ⟨inside', get'⟩ := List.getElem?_eq_some_iff.mp at_'
    have same := (List.Nodup.getElem_inj_iff fresh.nodup.of_map).mp (get.trans get'.symm)
    omega
  · have := lt _ at_
    omega
  · have := lt _ at_'
    omega
  · omega

theorem reserve_eq {reservations : List IrId}
    (pending : ∀ (j : ℕ) (id : IrId), reservations[j]? = some id → allocator.pendingId j = some id) :
    allocator.reserve reservations.length = some reservations := by
  induction reservations generalizing allocator with
  | nil => rfl
  | cons id reservations ih =>
    rw [length_cons, reserve_succ, pending 0 id rfl]
    have rest : allocator.taken.reserve reservations.length = some reservations :=
      ih fun j other at_ => by
        rw [← pendingId_succ]
        exact pending (j + 1) other at_
    rw [rest]
    rfl

theorem Fresh.taken (fresh : Fresh allocator) : Fresh allocator.taken := by
  unfold IdAllocator.taken
  split
  · rename_i empty
    exact ⟨by simp [empty], by simp [empty]⟩
  · exact ⟨fun id mem => fresh.lt id (dropLast_sublist _ |>.subset mem),
      fresh.nodup.sublist ((dropLast_sublist _).map _)⟩

theorem publishReservations_count : ∀ (reservations : List IrId) {allocator allocator' : IdAllocator},
    Fresh allocator → allocator.publishReservations reservations = some allocator' →
    reservations.foldl (fun count id => max count (id.index + 1)) allocator.nextIndex =
      allocator'.nextIndex ∧
    allocator'.nextIndex + allocator.freeIds.length =
      allocator.nextIndex + reservations.length + allocator'.freeIds.length := by
  intro reservations
  induction reservations with
  | nil =>
    intro allocator allocator' _ run
    cases run
    simp
  | cons id reservations ih =>
    intro allocator allocator' fresh run
    rw [publishReservations, allocate_eq] at run
    cases pending : allocator.pendingId 0 with
    | none =>
      rw [pending] at run
      cases run
    | some first =>
      rw [pending] at run
      simp only [Option.map_some, some_bind] at run
      split at run
      · rename_i same
        subst same
        obtain ⟨next, lengths⟩ := ih fresh.taken run
        rw [foldl_cons, length_cons]
        rcases pendingId_cases fresh pending with ⟨init, free, after, -⟩ | ⟨free, after, new⟩
        · have lt := fresh.lt first (by simp [free])
          rw [after] at next lengths
          dsimp only at next lengths
          rw [max_eq_left (by omega), next, free]
          simp only [length_append, length_singleton]
          exact ⟨trivial, by omega⟩
        · rw [after] at next lengths
          simp only [length_nil] at next lengths
          rw [max_eq_right (by omega), new, next, free]
          exact ⟨rfl, by simp only [length_nil]; omega⟩
      · cases run

theorem foldlM_release_isSome : ∀ (releases : List IrId) (allocator : IdAllocator),
    (∀ id ∈ releases, (IrId.nextGeneration id).isSome) →
    (releases.foldlM release allocator).isSome := by
  intro releases
  induction releases with
  | nil => exact fun _ _ => rfl
  | cons id releases ih =>
    intro allocator renewable
    obtain ⟨next, isNext⟩ := Option.isSome_iff_exists.mp (renewable id (.head _))
    rw [foldlM_cons, release, isNext]
    exact ih _ fun other mem => renewable other (.tail _ mem)

end IdAllocator

namespace TransientSymbols

variable {table : TransientSymbols} {entry : IrId → Option SymbolEntry} {loader : ℕ → Option IrId}
  {id : IrId}

/-- What a transient table answers. -/
def view (table : TransientSymbols) : SymbolView :=
  ⟨table.getById, table.indices, table.names, table.addresses, table.len⟩

theorem getById_eq_some {e : SymbolEntry} : table.getById id = some e ↔
    id.index < table.count ∧ table.generations id.index = id.generation ∧
      table.symbols id.index = e ∧ e.isValid = true := by
  unfold getById
  by_cases here : id.index < table.count ∧ table.generations id.index = id.generation
  · rw [if_pos here, Option.filter_eq_some_iff, Option.some.injEq]
    tauto
  · rw [if_neg here]
    simp only [reduceCtorEq, false_iff]
    exact fun both => here ⟨both.1, both.2.1⟩

theorem getById_congr {table' : TransientSymbols} (index : ℕ)
    (vacant : ∀ x : IrId, x.index = index → table.getById x = none)
    (vacant' : (table'.symbols index).isValid = false)
    (others : ∀ i, i ≠ index → ((i < table'.count ∧ (table'.symbols i).isValid = true) ↔
      (i < table.count ∧ (table.symbols i).isValid = true)) ∧ (i < table.count →
      table'.symbols i = table.symbols i ∧ table'.generations i = table.generations i)) :
    table'.getById = table.getById := by
  funext x
  refine Option.ext fun e => ?_
  by_cases same : x.index = index
  · rw [vacant x same]
    refine iff_of_false (fun some_ => ?_) (by simp)
    obtain ⟨-, -, rfl, valid⟩ := getById_eq_some.mp some_
    rw [same, vacant'] at valid
    cases valid
  · obtain ⟨live, kept⟩ := others x.index same
    rw [getById_eq_some, getById_eq_some]
    constructor
    · rintro ⟨lt, generation, rfl, valid⟩
      obtain ⟨lt', valid'⟩ := live.mp ⟨lt, valid⟩
      obtain ⟨symbol, generation'⟩ := kept lt'
      exact ⟨lt', by rw [← generation', generation], symbol.symm, valid⟩
    · rintro ⟨lt, generation, rfl, valid⟩
      obtain ⟨symbol, generation'⟩ := kept lt
      exact ⟨(live.mpr ⟨lt, valid⟩).1, by rw [generation', generation], symbol, valid⟩

theorem isValid_of_vacant {index : ℕ} (lt : index < table.count)
    (vacant : ∀ x : IrId, x.index = index → table.getById x = none) :
    (table.symbols index).isValid = false := by
  by_contra valid
  have some_ : table.getById ⟨index, table.generations index⟩ = some (table.symbols index) :=
    getById_eq_some.mpr ⟨lt, rfl, rfl, by simpa using valid⟩
  rw [vacant _ rfl] at some_
  cases some_

theorem isValid_default : SymbolEntry.default.isValid = false := by decide

theorem publishReservation_getById
    (vacant : ∀ x : IrId, x.index = id.index → table.getById x = none) :
    (table.publishReservation id).getById = table.getById := by
  refine getById_congr id.index vacant ?_ fun i ne => ⟨?_, fun lt => ?_⟩
  · dsimp only [publishReservation]
    split
    · exact isValid_default
    · rename_i lt
      exact isValid_of_vacant (not_le.mp lt) vacant
  · dsimp only [publishReservation]
    by_cases le : table.count ≤ i
    · simp [le, isValid_default]
    · simp [le, not_le.mp le]
  · simp [publishReservation, not_le.mpr lt, ne]

theorem publishRelease_getById (table : TransientSymbols) (id : IrId) (lt : id.index < table.count)
    (vacant : ∀ x : IrId, x.index = id.index → table.getById x = none) :
    (table.publishRelease id).getById = table.getById := by
  have invalid : ((table.publishRelease id).symbols id.index).isValid = false := by
    change (table.symbols id.index).isValid = false
    exact isValid_of_vacant lt vacant
  refine getById_congr id.index vacant invalid fun i ne => ⟨Iff.rfl, fun _ => ?_⟩
  simp [publishRelease, ne]

theorem foldl_publishReservation : ∀ (ids : List IrId) (table : TransientSymbols),
    (∀ id ∈ ids, ∀ x : IrId, x.index = id.index → table.getById x = none) →
    (ids.foldl publishReservation table).getById = table.getById ∧
    (ids.foldl publishReservation table).count =
      ids.foldl (fun count id => max count (id.index + 1)) table.count ∧
    (ids.foldl publishReservation table).indices = table.indices ∧
    (ids.foldl publishReservation table).names = table.names ∧
    (ids.foldl publishReservation table).addresses = table.addresses := by
  intro ids
  induction ids with
  | nil => exact fun _ _ => ⟨rfl, rfl, rfl, rfl, rfl⟩
  | cons id ids ih =>
    intro table vacant
    have same := publishReservation_getById (vacant id (.head _))
    obtain ⟨entries, rest⟩ := ih (table.publishReservation id) fun other mem x at_ => by
      rw [same]
      exact vacant other (.tail _ mem) x at_
    exact ⟨entries.trans same, rest⟩

theorem foldl_publishRelease : ∀ (ids : List IrId) (table : TransientSymbols),
    (∀ id ∈ ids, id.index < table.count ∧ ∀ x : IrId, x.index = id.index → table.getById x = none) →
    (ids.foldl publishRelease table).getById = table.getById ∧
    (ids.foldl publishRelease table).count = table.count ∧
    (ids.foldl publishRelease table).indices = table.indices ∧
    (ids.foldl publishRelease table).names = table.names ∧
    (ids.foldl publishRelease table).addresses = table.addresses := by
  intro ids
  induction ids with
  | nil => exact fun _ _ => ⟨rfl, rfl, rfl, rfl, rfl⟩
  | cons id ids ih =>
    intro table vacant
    obtain ⟨lt, free⟩ := vacant id (.head _)
    have same := publishRelease_getById table id lt free
    obtain ⟨entries, rest⟩ := ih (table.publishRelease id) fun other mem => by
      rw [same]
      exact vacant other (.tail _ mem)
    exact ⟨entries.trans same, rest⟩

/-! ## The records -/

/-- The entries and the loader map of a table, with lists that agree. -/
structure At (table : TransientSymbols) (entry : IrId → Option SymbolEntry)
    (loader : ℕ → Option IrId) : Prop where
  entries : table.getById = entry
  loaders : table.indices = loader
  names : Listed SymbolEntry.symbol table.names entry
  addresses : Listed SymbolEntry.address table.addresses entry

theorem listed_filter {K : Type} [DecidableEq K] {key : SymbolEntry → K} {lists : K → List IrId}
    (listed : Listed key lists entry) {e : SymbolEntry} (here : entry id = some e) :
    Listed key (update lists (key e)
      ((lists (key e)).filter fun other => decide (other ≠ id))) (update entry id none) := by
  refine listed.unlink here (fun k ne => update_of_ne ne ..) ?_ fun x => ?_
  · rw [update_self]
    exact (listed (key e)).1.filter _
  · rw [update_self, mem_filter, decide_eq_true_eq]

theorem listed_append {K : Type} [DecidableEq K] {key : SymbolEntry → K} {lists : K → List IrId}
    (listed : Listed key lists entry) (here : entry id = none) (e : SymbolEntry) :
    Listed key (update lists (key e) (lists (key e) ++ [id]))
      (update entry id (some e)) := by
  refine listed.link here (fun k ne => update_of_ne ne ..) ?_ fun x => ?_
  · rw [update_self]
    exact List.Nodup.append (listed (key e)).1 (nodup_singleton _)
      (by simpa using listed.not_mem here (key e))
  · rw [update_self, mem_append, mem_singleton]

theorem At.clearEntry (state : table.At entry loader) {e : SymbolEntry} (here : entry id = some e) :
    (table.clearEntry id).At (update entry id none)
      (fun i => if i ∈ e.indices then none else loader i) ∧
    (table.clearEntry id).count = table.count := by
  obtain ⟨rfl, rfl, names, addresses⟩ := state
  obtain ⟨lt, generation, symbol, valid⟩ := getById_eq_some.mp here
  unfold TransientSymbols.clearEntry
  rw [here]
  refine ⟨⟨?_, rfl, ?_, ?_⟩, rfl⟩
  · funext x
    refine Option.ext fun e' => ?_
    rw [getById_eq_some]
    by_cases same : x = id
    · subst same
      simp only [update_self, reduceCtorEq, iff_false]
      rintro ⟨-, -, rfl, valid'⟩
      cases valid'
    · rw [update_of_ne same, getById_eq_some]
      dsimp only
      by_cases slot : x.index = id.index
      · -- another generation
        refine iff_of_false (fun both => same ?_) (fun both => same ?_) <;>
        · cases x
          cases id
          simp_all
      · rw [update_of_ne slot]
  · exact listed_filter names here
  · exact listed_filter addresses here

/-- The second half of `publish_upsert`. -/
theorem At.insert (state : table.At entry loader) (id : IrId) (lt : id.index < table.count)
    (vacant : ∀ x : IrId, x.index = id.index → entry x = none) {e : SymbolEntry}
    (valid : e.isValid = true) :
    TransientSymbols.At { table with
      symbols := update table.symbols id.index e
      generations := update table.generations id.index id.generation
      names := update table.names e.symbol (table.names e.symbol ++ [id])
      addresses := update table.addresses e.address (table.addresses e.address ++ [id])
      indices := fun i => if i ∈ e.indices then some id else table.indices i }
      (update entry id (some e)) (fun i => if i ∈ e.indices then some id else loader i) := by
  obtain ⟨rfl, rfl, names, addresses⟩ := state
  refine ⟨?_, rfl, ?_, ?_⟩
  · funext x
    refine Option.ext fun e' => ?_
    rw [getById_eq_some]
    dsimp only
    by_cases same : x = id
    · subst same
      simp only [update_self, true_and, lt, Option.some.injEq]
      constructor
      · exact fun both => both.1
      · rintro rfl
        exact ⟨rfl, valid⟩
    · rw [update_of_ne same]
      by_cases slot : x.index = id.index
      · rw [vacant x slot, slot, update_self]
        refine iff_of_false (fun both => same ?_) (by simp)
        cases x
        cases id
        simp_all
      · rw [update_of_ne slot, update_of_ne slot, getById_eq_some]
  · exact listed_append names (vacant id rfl) e
  · exact listed_append addresses (vacant id rfl) e

def publishRecord (table : TransientSymbols) (record : PreparedSymbolRecord) : TransientSymbols :=
  match record.entry with
  | none => table.publishRemove record.id
  | some _ => table.publishUpsert record

/-- What a record relies on: the slot of its symbol is there and has no other symbol, and its new
entry is a valid one. -/
structure Fits (entry : IrId → Option SymbolEntry) (count : ℕ) (record : PreparedSymbolRecord) :
    Prop where
  previous : record.previous = entry record.id
  changed : record.entry = none → record.previous ≠ none
  lt : record.id.index < count
  alone : ∀ x : IrId, x.index = record.id.index → x ≠ record.id → entry x = none
  valid : ∀ e, record.entry = some e → e.isValid = true

theorem At.publishRecord (state : table.At entry loader) {record : PreparedSymbolRecord}
    (fits : Fits entry table.count record) :
    (table.publishRecord record).At (replayEntry entry record) (replay loader record) ∧
      (table.publishRecord record).count = table.count := by
  have vacant : ∀ x : IrId, x.index = record.id.index →
      update entry record.id none x = none := by
    intro x same
    by_cases own : x = record.id
    · subst own
      exact update_self ..
    · rw [update_of_ne own]
      exact fits.alone x same own
  have cleared : ∀ e, record.previous = some e →
      (table.clearEntry record.id).At (update entry record.id none)
        (fun i => if i ∈ e.indices then none else loader i) ∧
      (table.clearEntry record.id).count = table.count := fun e isPrevious =>
    state.clearEntry (fits.previous ▸ isPrevious)
  unfold TransientSymbols.publishRecord replayEntry
  cases isEntry : record.entry with
  | none =>
    obtain ⟨e, isPrevious⟩ := Option.ne_none_iff_exists'.mp (fits.changed isEntry)
    obtain ⟨state', count⟩ := cleared e isPrevious
    have same := publishRelease_getById (table.clearEntry record.id) record.id
      (by rw [count]; exact fits.lt) (by rw [state'.entries]; exact vacant)
    refine ⟨⟨same.trans state'.entries, ?_, state'.names, state'.addresses⟩, count⟩
    refine state'.loaders.trans (funext fun i => ?_)
    simp [replay, isEntry, isPrevious, indicesOf]
  | some e =>
    dsimp only [publishUpsert]
    rw [isEntry]
    cases isPrevious : record.previous with
    | none =>
      have free : update entry record.id none = entry := by
        rw [← isPrevious, fits.previous, update_eq_self]
      rw [free] at vacant
      have state' := state.insert record.id fits.lt vacant (fits.valid e isEntry)
      have eq : replay loader record = fun i => if i ∈ e.indices then some record.id
          else loader i := funext fun i => by
        simp [replay, isEntry, isPrevious, indicesOf]
      rw [eq]
      exact ⟨state', rfl⟩
    | some previous =>
      obtain ⟨state', count⟩ := cleared previous isPrevious
      have state'' := state'.insert record.id (by rw [count]; exact fits.lt) vacant
        (fits.valid e isEntry)
      rw [update_idem] at state''
      have eq : replay loader record = fun i => if i ∈ e.indices then some record.id
          else if i ∈ previous.indices then none else loader i := funext fun i => by
        simp [replay, isEntry, isPrevious, indicesOf]
      rw [eq]
      exact ⟨state'', count⟩

theorem At.publishRecords : ∀ (records : List PreparedSymbolRecord) {table : TransientSymbols}
    {entry : IrId → Option SymbolEntry} {loader : ℕ → Option IrId}, table.At entry loader →
    (records.map fun r => r.id.index).Nodup → (∀ r ∈ records, Fits entry table.count r) →
    (records.foldl TransientSymbols.publishRecord table).At (records.foldl replayEntry entry)
      (records.foldl replay loader) ∧
    (records.foldl TransientSymbols.publishRecord table).count = table.count := by
  intro records
  induction records with
  | nil => exact fun state _ _ => ⟨state, rfl⟩
  | cons record records ih =>
    intro table entry loader state nodup fits
    rw [map_cons, nodup_cons] at nodup
    obtain ⟨state', count⟩ := state.publishRecord (fits record (.head _))
    have others : ∀ r ∈ records, r.id.index ≠ record.id.index := fun r mem same =>
      nodup.1 (same ▸ mem_map_of_mem mem)
    have kept : ∀ x : IrId, x.index ≠ record.id.index → replayEntry entry record x = entry x :=
      fun x ne => update_of_ne (fun same => ne (congrArg Handle.index same)) ..
    obtain ⟨last, same⟩ := ih state' nodup.2 fun r mem => by
      have fit := fits r (.tail _ mem)
      have ne := others r mem
      refine ⟨?_, fit.changed, count ▸ fit.lt, fun x slot differs => ?_, fit.valid⟩
      · rw [kept r.id ne]
        exact fit.previous
      · rw [kept x (slot ▸ ne)]
        exact fit.alone x slot differs
    exact ⟨last, same.trans count⟩

/-! ## Publication -/

/-- A table whose indexes are exact and whose slots are those of its allocator. -/
structure Ok (table : TransientSymbols) : Prop where
  state : table.At table.getById table.indices
  index : ∀ i id, table.indices i = some id ↔ ∃ e, table.getById id = some e ∧ i ∈ e.indices
  ids : ∃ live ever, TransientIds.Inv ⟨table.allocator, live, ever⟩ ∧
    (∀ id, id ∈ live ↔ table.getById id ≠ none) ∧
    table.allocator.nextIndex = table.allocator.freeIds.length + live.length
  count : table.count = table.allocator.nextIndex

theorem ok_new : new.Ok where
  state := ⟨rfl, rfl, fun k => ⟨nodup_nil, by simp [new, getById]⟩,
    fun k => ⟨nodup_nil, by simp [new, getById]⟩⟩
  index := by simp [new, getById]
  ids := ⟨[], [], TransientIds.inv_new, by simp [new, getById], rfl⟩
  count := rfl

theorem Ok.exact (ok : table.Ok) : table.view.Exact := by
  obtain ⟨live, ever, inv, isLive, lengths⟩ := ok.ids
  refine ⟨ok.index, ok.state.names, ok.state.addresses, live, inv.pool.live_nodup.of_map, isLive, ?_⟩
  change table.count - table.allocator.freeIds.length = live.length
  rw [ok.count]
  omega

theorem Ok.readsOk (ok : table.Ok) : table.reads.Ok := by
  obtain ⟨live, ever, inv, isLive, -⟩ := ok.ids
  refine ⟨ok.index, fun n id pending => ?_, fun n m id first second =>
    pendingId_injective inv.fresh first second⟩
  by_contra some_
  exact (inv.pool.available_unused (pendingId_available pending)).1
    ((isLive id).mpr some_)

variable (staging : SymbolTableStaging)

/-- A staged symbol is never invalid. -/
def Valid : Prop :=
  ∀ id e, staging.stagedSymbols.get? id = some (some e) → e.isValid = true

def ordered (table : TransientSymbols) (staging : SymbolTableStaging) : List PreparedSymbolRecord :=
  (staging.prepare table.reads).filter (fun record => record.entry.isNone) ++
    (staging.prepare table.reads).filter fun record => record.entry.isSome

theorem ordered_perm :
    (table.ordered staging).Perm (staging.prepare table.reads) := by
  have both := filter_append_perm (fun record : PreparedSymbolRecord => record.entry.isNone)
    (staging.prepare table.reads)
  have other : (fun record : PreparedSymbolRecord => !record.entry.isNone) =
      fun record => record.entry.isSome := by
    funext record
    cases record.entry <;> rfl
  rw [other] at both
  exact both

theorem foldl_ordered (start : TransientSymbols) :
    ((staging.prepare table.reads).filter fun record => record.entry.isSome).foldl publishUpsert
      (((staging.prepare table.reads).filter fun record => record.entry.isNone).foldl
        (fun table record => table.publishRemove record.id) start) =
    (table.ordered staging).foldl TransientSymbols.publishRecord start := by
  unfold ordered
  rw [foldl_append]
  have removed : ((staging.prepare table.reads).filter fun record => record.entry.isNone).foldl
      (fun table record => table.publishRemove record.id) start =
      ((staging.prepare table.reads).filter fun record => record.entry.isNone).foldl
        TransientSymbols.publishRecord start := by
    refine foldl_ext _ _ _ fun table record mem => ?_
    have isNone : record.entry = none := by simpa using (mem_filter.mp mem).2
    simp [TransientSymbols.publishRecord, isNone]
  rw [removed]
  refine foldl_ext _ _ _ fun table record mem => ?_
  obtain ⟨e, isSome⟩ := Option.isSome_iff_exists.mp (mem_filter.mp mem).2
  simp [TransientSymbols.publishRecord, isSome]

variable {staging : SymbolTableStaging}

theorem undisturbed_ordered (ok : table.Ok) (stagingOk : staging.Ok table.reads)
    (ascending : Ascending table.reads staging fun id => staging.symbol table.reads id ≠ none) :
    Undisturbed (table.ordered staging) := by
  have batch := batch_prepare table.reads staging (ordered_perm staging)
  have sorted := prepare_sorted table.reads staging
  refine pairwise_append.mpr ⟨?_, ?_, ?_⟩
  · refine List.Pairwise.imp_of_mem (fun {r r'} mem _ _ i enters => ?_) (sorted.filter _)
    have isNone : r.entry = none := by simpa using (mem_filter.mp mem).2
    simp [isNone, indicesOf] at enters
  · have inside : ∀ r ∈ (staging.prepare table.reads).filter fun record => record.entry.isSome,
        r ∈ table.ordered staging := fun r mem => mem_append_right _ mem
    refine undisturbed_of_ascending ok.readsOk stagingOk
      (fun r mem => ⟨batch.previous r (inside r mem), batch.entry r (inside r mem)⟩)
      (sorted.filter _) (fun r mem => ?_) ascending
    rw [← batch.entry r (inside r mem)]
    exact Option.isSome_iff_ne_none.mp (mem_filter.mp mem).2
  · intro r mem r' _ i enters
    have isNone : r.entry = none := by simpa using (mem_filter.mp mem).2
    simp [isNone, indicesOf] at enters

theorem reservations_spec (stagingOk : staging.Ok table.reads)
    {live ever : List IrId} (inv : TransientIds.Inv ⟨table.allocator, live, ever⟩) : ∃ published,
    table.allocator.publishReservations staging.symbolReservations = some published ∧
      table.allocator.nextIndex ≤ published.nextIndex ∧
      (staging.symbolReservations.map Handle.index).Nodup ∧ (∀ id ∈ staging.symbolReservations,
        Available (· ∈ table.allocator.freeIds) table.allocator.nextIndex id ∧
          id.index < published.nextIndex) := by
  have reserved : table.allocator.reserve staging.symbolReservations.length =
      some staging.symbolReservations := reserve_eq stagingOk.reserved
  obtain ⟨published, run, -, le, nodup, available, -⟩ :=
    reserve_spec _ reserved inv.fresh
  exact ⟨published, run, le, nodup, available⟩

theorem fits_ordered (stagingOk : staging.Ok table.reads)
    (valid : Valid staging) {count : ℕ} (le : table.count ≤ count)
    (reserved : ∀ id ∈ staging.symbolReservations, id.index < count ∧
      ∀ x : IrId, x.index = id.index → table.getById x = none) :
    ∀ r ∈ table.ordered staging, Fits table.getById count r := by
  intro r mem
  have prepared := (ordered_perm staging).mem_iff.mp mem
  obtain ⟨staged, -, previous⟩ := mem_prepare.mp prepared
  refine ⟨previous, fun isNone => ?_, ?_, fun x same ne => ?_, fun e isEntry => ?_⟩
  · rw [previous]
    exact removed_previous stagingOk prepared isNone
  · rcases stagingOk.staged r.id r.entry staged with committed | ⟨isReserved, -⟩
    · obtain ⟨e, here⟩ := Option.ne_none_iff_exists'.mp committed
      exact lt_of_lt_of_le (getById_eq_some.mp here).1 le
    · exact (reserved r.id isReserved).1
  · rcases stagingOk.staged r.id r.entry staged with committed | ⟨isReserved, -⟩
    · obtain ⟨e, here⟩ := Option.ne_none_iff_exists'.mp committed
      by_contra some_
      obtain ⟨e', here'⟩ := Option.ne_none_iff_exists'.mp some_
      have generation := (getById_eq_some.mp here).2.1
      have generation' := (getById_eq_some.mp here').2.1
      cases x
      cases isId : r.id
      simp_all
    · exact (reserved r.id isReserved).2 x same
  · rw [isEntry] at staged
    exact valid r.id e staged

theorem ordered_nodup (stagingOk : staging.Ok table.reads)
    {live ever : List IrId} (inv : TransientIds.Inv ⟨table.allocator, live, ever⟩)
    (isLive : ∀ id, id ∈ live ↔ table.getById id ≠ none) :
    ((table.ordered staging).map fun r => r.id.index).Nodup := by
  obtain ⟨_, -, -, nodup, available⟩ := reservations_spec stagingOk inv
  have batch := batch_prepare table.reads staging (ordered_perm staging)
  have known : ∀ r ∈ table.ordered staging, r.id ∈ live ++ staging.symbolReservations := by
    intro r mem
    have staged := (mem_prepare.mp ((ordered_perm staging).mem_iff.mp mem)).1
    rcases stagingOk.staged r.id r.entry staged with committed | ⟨reserved, -⟩
    · exact mem_append_left _ ((isLive r.id).mpr committed)
    · exact mem_append_right _ reserved
  have all : ((live ++ staging.symbolReservations).map Handle.index).Nodup := by
    rw [map_append]
    refine List.Nodup.append inv.pool.live_nodup nodup fun index inUse inBatch => ?_
    obtain ⟨l, lMem, rfl⟩ := mem_map.mp inUse
    obtain ⟨id, idMem, same⟩ := mem_map.mp inBatch
    exact inv.pool.available_apart (available id idMem).1 lMem same.symm
  have eq : (table.ordered staging).map (fun r => r.id.index) =
      ((table.ordered staging).map PreparedSymbolRecord.id).map Handle.index := by
    rw [map_map]
    rfl
  rw [eq]
  refine List.Nodup.map_on (fun x xMem y yMem same => ?_) batch.ids
  obtain ⟨r, rMem, rfl⟩ := mem_map.mp xMem
  obtain ⟨r', rMem', rfl⟩ := mem_map.mp yMem
  exact eq_of_index all (known r rMem) (known r' rMem') same

/-- The table that a publication leaves, but for its allocator. -/
def published (table : TransientSymbols) (staging : SymbolTableStaging) : TransientSymbols :=
  (table.ordered staging).foldl publishRecord (staging.cancelledSymbols.foldl publishRelease
    (staging.symbolReservations.foldl publishReservation table))

theorem Ok.published (ok : table.Ok) (stagingOk : staging.Ok table.reads) (valid : Valid staging)
    (ascending : Ascending table.reads staging fun id => staging.symbol table.reads id ≠ none)
    {after : IdAllocator}
    (run : table.allocator.publishReservations staging.symbolReservations = some after) :
    (table.published staging).At (staging.symbol table.reads)
      (staging.symbolIdByIndex table.reads) ∧
    (table.published staging).count = after.nextIndex := by
  obtain ⟨live, ever, inv, isLive, -⟩ := ok.ids
  obtain ⟨after', run', le, nodup, available⟩ := reservations_spec stagingOk inv
  cases run.symm.trans run'
  have vacant : ∀ id ∈ staging.symbolReservations, ∀ x : IrId, x.index = id.index →
      table.getById x = none := by
    intro id mem x same
    by_contra some_
    exact inv.pool.available_apart (available id mem).1 ((isLive x).mpr some_) same
  obtain ⟨entries, count, indices, names, addresses⟩ :=
    foldl_publishReservation staging.symbolReservations table vacant
  have next := (publishReservations_count _ inv.fresh run).1
  rw [ok.count, next] at count
  have cancelled : ∀ id ∈ staging.cancelledSymbols,
      id.index < (staging.symbolReservations.foldl publishReservation table).count ∧
      ∀ x : IrId, x.index = id.index →
        (staging.symbolReservations.foldl publishReservation table).getById x = none := by
    intro id mem
    have reserved := (stagingOk.cancelled id mem).1
    rw [count, entries]
    exact ⟨(available id reserved).2, vacant id reserved⟩
  obtain ⟨entries', count', indices', names', addresses'⟩ :=
    foldl_publishRelease staging.cancelledSymbols _ cancelled
  have state : (staging.cancelledSymbols.foldl publishRelease
      (staging.symbolReservations.foldl publishReservation table)).At table.getById
        table.indices := by
    refine ⟨entries'.trans entries, indices'.trans indices, ?_, ?_⟩
    · rw [names', names]
      exact ok.state.names
    · rw [addresses', addresses]
      exact ok.state.addresses
  have fits := fits_ordered stagingOk valid (ok.count ▸ le) fun id mem => ⟨(available id mem).2, vacant id mem⟩
  obtain ⟨last, same⟩ := state.publishRecords (table.ordered staging)
    (ordered_nodup stagingOk inv isLive) (by rw [count', count]; exact fits)
  have batch := batch_prepare table.reads staging (ordered_perm staging)
  have entry := replay_entry batch
  have loader := replay_loader ok.readsOk stagingOk batch
    (undisturbed_ordered ok stagingOk ascending)
  rw [show table.getById = table.reads.entry from rfl,
    show table.indices = table.reads.idByIndex from rfl, entry, loader] at last
  exact ⟨last, same.trans (count'.trans count)⟩

def releases (table : TransientSymbols) (staging : SymbolTableStaging) : List IrId :=
  staging.cancelledSymbols ++
    ((staging.prepare table.reads).filter fun record => record.entry.isNone).map
      PreparedSymbolRecord.id

theorem publish_eq (table : TransientSymbols) (staging : SymbolTableStaging) :
    table.publish staging =
      (table.allocator.commit staging.symbolReservations (table.releases staging)).map
        fun allocator => { table.published staging with allocator := allocator } := by
  unfold TransientSymbols.publish TransientSymbols.published releases
  rw [← foldl_ordered]
  dsimp only
  cases table.allocator.commit _ _ <;> rfl

/-- A publication makes the staged view real and leaves a table as it should be. -/
theorem Ok.publish (ok : table.Ok) (stagingOk : staging.Ok table.reads) (valid : Valid staging)
    (ascending : Ascending table.reads staging fun id => staging.symbol table.reads id ≠ none)
    {table' : TransientSymbols} (run : table.publish staging = some table') :
    table'.Ok ∧ table'.view.Shows table.reads staging := by
  obtain ⟨live, ever, inv, isLive, lengths⟩ := ok.ids
  rw [publish_eq] at run
  obtain ⟨allocator, committed, rfl⟩ := Option.map_eq_some_iff.mp run
  obtain ⟨after, publishes, -, nodup, available⟩ := reservations_spec stagingOk inv
  obtain ⟨state, count⟩ := ok.published stagingOk valid ascending publishes
  have reserved : table.allocator.reserve staging.symbolReservations.length =
      some staging.symbolReservations := reserve_eq stagingOk.reserved
  have chosen := releases_perm stagingOk isLive inv.pool.live_nodup.of_map nodup.of_map
  have step : TransientIds.Step ⟨table.allocator, live, ever⟩ _ :=
    .commit (fun id => decide (id ∈ staging.cancelledSymbols))
      (fun id => decide (staging.symbol table.reads id = none)) reserved chosen committed
  have inv' := step.inv inv
  have isLive' := live_after stagingOk isLive ok.readsOk
  -- the numbers of slots, of free ids and of symbols
  unfold commit at committed
  rw [publishes] at committed
  obtain ⟨free, next⟩ := foldlM_release _ committed
  have numbers : after.nextIndex + table.allocator.freeIds.length =
      table.allocator.nextIndex + staging.symbolReservations.length + after.freeIds.length :=
    (publishReservations_count _ inv.fresh publishes).2
  have released := chosen.length_eq
  have ok' : TransientSymbols.Ok { table.published staging with allocator := allocator } := by
    refine ⟨⟨rfl, rfl, ?_, ?_⟩, ?_, ⟨_, _, inv', ?_, ?_⟩, ?_⟩
    · exact state.entries ▸ state.names
    · exact state.entries ▸ state.addresses
    · intro i id
      change (table.published staging).indices i = some id ↔
        ∃ e, (table.published staging).getById id = some e ∧ i ∈ e.indices
      rw [state.loaders, state.entries]
      exact stagingOk.index i id
    · intro id
      change _ ↔ (table.published staging).getById id ≠ none
      rw [state.entries]
      exact isLive' id
    · have first := length_filter_le (fun id => decide (id ∈ staging.cancelledSymbols))
        staging.symbolReservations
      have second := length_filter_le
        (fun id => decide (staging.symbol table.reads id = none)) live
      rw [next, free]
      have counted : (table.releases staging).length = _ := released
      rw [length_append] at counted
      simp only [length_append, length_map, length_filter_not]
      omega
    · rw [count, next]
  exact ⟨ok', ok'.exact, fun id => congrFun state.entries id, fun i => congrFun state.loaders i⟩

/-- A publication stops only where the generation of an id is exhausted. -/
theorem Ok.publish_isSome (ok : table.Ok)
    (stagingOk : staging.Ok table.reads) (renewable : Renewable table.reads staging) :
    (table.publish staging).isSome := by
  obtain ⟨live, ever, inv, isLive, -⟩ := ok.ids
  obtain ⟨after, publishes, -, nodup, -⟩ := reservations_spec stagingOk inv
  have chosen := releases_perm stagingOk isLive inv.pool.live_nodup.of_map nodup.of_map
  have released := foldlM_release_isSome (table.releases staging) after
    fun id mem => renewable_of_released stagingOk isLive ok.readsOk renewable
      (chosen.mem_iff.mp mem)
  rw [publish_eq, Option.isSome_map, commit, publishes]
  exact released

end TransientSymbols

end Fugue.Ir
