import Fugue.Ir.PersistentIds
import Fugue.Ir.SymbolReplay

/-!
# Publishing symbols of persistent tables

The writes of a batch are applied in order: the entries first, and then for each record, by its id,
the rows of the entry before and those of the new one. A removal does not come before the other
records here, so that it can take a loader row that an earlier record has written.
-/

namespace Fugue.Ir

open Fugue.Lib SymbolTableStaging List Option Function PersistentIdAllocator
open Function (update)

/-! ## The ids of a batch -/

namespace PersistentIdAllocator

variable {store : IdStore} {allocator : PersistentIdAllocator}

theorem reserve_take (n : ℕ) : ∀ (k : ℕ) {ids : List IrId} {after : PersistentIdAllocator},
    reserve store allocator (n + k) = some (ids, after) →
    ids.length = n + k ∧ ∃ before, reserve store allocator n = some (ids.take n, before) := by
  have length : ∀ (n : ℕ) {ids : List IrId} {after : PersistentIdAllocator},
      reserve store allocator n = some (ids, after) → ids.length = n := by
    intro n
    induction n with
    | zero =>
      intro ids after run
      obtain ⟨rfl, -⟩ : [] = ids ∧ allocator = after := by simpa [reserve] using run
      rfl
    | succ n ih =>
      intro ids after run
      obtain ⟨⟨before, middle⟩, first, run⟩ := bind_eq_some_iff.mp run
      obtain ⟨⟨id, last⟩, -, eq⟩ := bind_eq_some_iff.mp run
      obtain ⟨rfl, -⟩ : before ++ [id] = ids ∧ last = after := by simpa using eq
      rw [length_append, ih first, length_singleton]
  intro k
  induction k with
  | zero =>
    intro ids after run
    refine ⟨length n run, after, ?_⟩
    rw [take_of_length_le (length n run).le]
    exact run
  | succ k ih =>
    intro ids after run
    refine ⟨length _ run, ?_⟩
    obtain ⟨⟨before, middle⟩, first, run⟩ := bind_eq_some_iff.mp run
    obtain ⟨⟨id, last⟩, -, eq⟩ := bind_eq_some_iff.mp run
    obtain ⟨rfl, -⟩ : before ++ [id] = ids ∧ last = after := by simpa using eq
    obtain ⟨enough, start, taken⟩ := ih first
    refine ⟨start, ?_⟩
    rw [take_append_of_le_length (by omega)]
    exact taken

theorem freeChanges_isSome (allocator : PersistentIdAllocator) (reservations : List IrId)
    {releases : List IrId} (renewable : ∀ id ∈ releases, (IrId.nextGeneration id).isSome) :
    (allocator.freeChanges reservations releases).isSome := by
  unfold freeChanges
  generalize List.foldl _ _ reservations = free
  induction releases generalizing free with
  | nil => rfl
  | cons id releases ih =>
    obtain ⟨next, isNext⟩ := isSome_iff_exists.mp (renewable id (.head _))
    rw [foldlM_cons, isNext]
    exact ih (fun other mem => renewable other (.tail _ mem)) _

theorem stateAfter_isSome (allocator : PersistentIdAllocator) (reservations : List IrId)
    (added : ℕ) {removed : ℕ} (le : removed ≤ allocator.state.live) :
    (allocator.stateAfter reservations added removed).isSome := by
  unfold stateAfter
  rw [if_pos (by omega)]
  rfl

theorem appendTransition_isSome {reservations releases : List IrId} {added removed : ℕ}
    {state : TableIndexState} (changes : (allocator.freeChanges reservations releases).isSome)
    (after : allocator.stateAfter reservations added removed = some state) :
    (allocator.appendTransition reservations releases added removed).isSome := by
  obtain ⟨free, isFree⟩ := isSome_iff_exists.mp changes
  unfold appendTransition
  split
  · rfl
  · rw [isFree, after]
    rfl

end PersistentIdAllocator

namespace PersistentSymbols

variable {table : PersistentSymbols}

theorem getElem?_of_pendingId {offset count : ℕ} {id : IrId} {ids : List IrId}
    {after : PersistentIdAllocator} (pending : table.pendingId offset = some id)
    (lt : offset < count) (run : table.allocator.reserve table.idStore count = some (ids, after)) :
    ids[offset]? = some id := by
  obtain ⟨k, rfl⟩ := Nat.exists_eq_add_of_lt lt
  rw [Nat.add_right_comm] at run
  obtain ⟨length, before, taken⟩ := reserve_take (offset + 1) k run
  unfold PersistentSymbols.pendingId at pending
  rw [taken] at pending
  have last : (ids.take (offset + 1)).getLast? = some id := pending
  rw [getLast?_take] at last
  simpa [getElem?_eq_getElem (show offset < ids.length by omega)] using last

theorem reserve_of_pendingId {offset : ℕ} {id : IrId} (pending : table.pendingId offset = some id) :
    ∃ ids after, table.allocator.reserve table.idStore (offset + 1) = some (ids, after) := by
  obtain ⟨⟨ids, after⟩, run, -⟩ := bind_eq_some_iff.mp pending
  exact ⟨ids, after, run⟩

theorem reserve_eq {reservations : List IrId}
    (pending : ∀ (j : ℕ) (id : IrId), reservations[j]? = some id → table.pendingId j = some id) :
    ∃ after, table.allocator.reserve table.idStore reservations.length =
      some (reservations, after) := by
  have run : ∃ ids after, table.allocator.reserve table.idStore reservations.length =
      some (ids, after) := by
    rcases eq_nil_or_concat reservations with rfl | ⟨init, last, rfl⟩
    · exact ⟨[], table.allocator, rfl⟩
    · rw [concat_eq_append] at pending ⊢
      rw [length_append]
      exact reserve_of_pendingId (pending init.length last (by simp))
  obtain ⟨ids, after, run⟩ := run
  have length := (reserve_take reservations.length 0 run).1
  obtain rfl : ids = reservations := by
    refine ext_getElem? fun j => ?_
    cases at_ : reservations[j]? with
    | none =>
      have ge := List.getElem?_eq_none_iff.mp at_
      exact List.getElem?_eq_none_iff.mpr (by omega)
    | some id =>
      exact getElem?_of_pendingId (pending j id at_) (lt_of_getElem? at_) run
  exact ⟨after, run⟩

end PersistentSymbols

/-! ## The rows -/

def rowIds (rows : OrdMap IrId Unit) : List IrId := rows.entries.map Prod.fst

theorem mem_rowIds {rows : OrdMap IrId Unit} {id : IrId} :
    id ∈ rowIds rows ↔ (id, ()) ∈ rows.entries := by
  unfold rowIds
  rw [List.mem_map]
  constructor
  · rintro ⟨⟨x, u⟩, mem, rfl⟩
    exact mem
  · exact fun mem => ⟨_, mem, rfl⟩

theorem rowIds_nodup (rows : OrdMap IrId Unit) : (rowIds rows).Nodup := by
  unfold rowIds
  rw [List.Nodup, pairwise_map]
  exact rows.sorted.imp fun lt => lt.ne

namespace SymbolRows

variable {rows : SymbolRows} {entry : IrId → Option SymbolEntry} {loader : ℕ → Option IrId}
  {id : IrId}

/-- Rows that are those of the entries given, and the loader rows. -/
structure At (rows : SymbolRows) (entry : IrId → Option SymbolEntry) (loader : ℕ → Option IrId) :
    Prop where
  loaders : rows.loaders = loader
  names : Listed SymbolEntry.symbol (fun symbol => rowIds (rows.names symbol)) entry
  addresses : Listed SymbolEntry.address (fun address => rowIds (rows.addresses address)) entry

theorem foldl_loader (id : Option IrId) : ∀ (indices : List ℕ) (rows : SymbolRows),
    (indices.map fun index => SymbolWrite.loader index id).foldl SymbolRows.apply rows =
      { rows with loaders := fun i => if i ∈ indices then id else rows.loaders i } := by
  intro indices
  induction indices with
  | nil => simp
  | cons index indices ih =>
    intro rows
    rw [map_cons, foldl_cons, ih]
    simp only [SymbolRows.apply]
    congr 1
    funext i
    by_cases same : i = index
    · subst same
      simp
    · simp [same]

theorem listed_erase {K : Type} [DecidableEq K] {key : SymbolEntry → K}
    {lists : K → OrdMap IrId Unit} (listed : Listed key (fun k => rowIds (lists k)) entry)
    {e : SymbolEntry} (here : entry id = some e) :
    Listed key (fun k => rowIds (update lists (key e) (setRow (lists (key e)) id false) k))
      (update entry id none) := by
  refine listed.unlink here (fun k ne => ?_) (rowIds_nodup _) fun x => ?_
  · rw [update_of_ne ne]
  · rw [update_self, mem_rowIds, mem_rowIds]
    exact OrdMap.mem_erase

theorem listed_insert {K : Type} [DecidableEq K] {key : SymbolEntry → K}
    {lists : K → OrdMap IrId Unit} (listed : Listed key (fun k => rowIds (lists k)) entry)
    (here : entry id = none) (e : SymbolEntry) :
    Listed key (fun k => rowIds (update lists (key e) (setRow (lists (key e)) id true) k))
      (update entry id (some e)) := by
  refine listed.link here (fun k ne => ?_) (rowIds_nodup _) fun x => ?_
  · rw [update_of_ne ne]
  · rw [update_self, mem_rowIds, mem_rowIds]
    apply OrdMap.mem_insert.trans
    by_cases same : x = id
    · simp [same]
    · simp [same]

theorem At.unlinks (state : rows.At entry loader) {e : SymbolEntry} (here : entry id = some e) :
    ((appendUnlinks id e).foldl SymbolRows.apply rows).At (update entry id none)
      (fun i => if i ∈ e.indices then none else loader i) := by
  obtain ⟨rfl, names, addresses⟩ := state
  unfold appendUnlinks
  rw [foldl_cons, foldl_cons, foldl_loader]
  exact ⟨rfl, listed_erase names here, listed_erase addresses here⟩

theorem At.links (state : rows.At entry loader) (here : entry id = none) (e : SymbolEntry) :
    ((appendLinks id e).foldl SymbolRows.apply rows).At (update entry id (some e))
      (fun i => if i ∈ e.indices then some id else loader i) := by
  obtain ⟨rfl, names, addresses⟩ := state
  unfold appendLinks
  rw [foldl_cons, foldl_cons, foldl_loader]
  exact ⟨rfl, listed_insert names here e, listed_insert addresses here e⟩

theorem At.writes (state : rows.At entry loader) {record : PreparedSymbolRecord}
    (previous : record.previous = entry record.id) :
    (record.writes.foldl SymbolRows.apply rows).At (replayEntry entry record)
      (replay loader record) := by
  -- after the unlinks
  have unlinked : (((record.previous.map (appendUnlinks record.id)).getD []).foldl
      SymbolRows.apply rows).At (update entry record.id none)
        (fun i => if i ∈ indicesOf record.previous then none else loader i) := by
    cases isPrevious : record.previous with
    | none =>
      have same : update entry record.id none = entry := by
        rw [← isPrevious, previous, update_eq_self]
      rw [same]
      simpa [indicesOf] using state
    | some e => exact state.unlinks (previous ▸ isPrevious)
  unfold PreparedSymbolRecord.writes replayEntry
  rw [foldl_append]
  cases isEntry : record.entry with
  | none =>
    have eq : replay loader record =
        fun i => if i ∈ indicesOf record.previous then none else loader i := funext fun i => by
      simp [replay, isEntry, indicesOf]
    rw [eq]
    exact unlinked
  | some e =>
    have linked := unlinked.links (update_self ..) e
    rw [update_idem] at linked
    have eq : replay loader record = fun i => if i ∈ e.indices then some record.id else
        if i ∈ indicesOf record.previous then none else loader i := funext fun i => by
      simp [replay, isEntry, indicesOf]
    rw [eq]
    exact linked

theorem At.writesAll : ∀ (records : List PreparedSymbolRecord) {rows : SymbolRows}
    {entry : IrId → Option SymbolEntry} {loader : ℕ → Option IrId}, rows.At entry loader →
    (records.map PreparedSymbolRecord.id).Nodup →
    (∀ r ∈ records, r.previous = entry r.id) →
    ((records.flatMap PreparedSymbolRecord.writes).foldl SymbolRows.apply rows).At
      (records.foldl replayEntry entry) (records.foldl replay loader) := by
  intro records
  induction records with
  | nil => exact fun state _ _ => state
  | cons record records ih =>
    intro rows entry loader state nodup previous
    rw [map_cons, nodup_cons] at nodup
    rw [flatMap_cons, foldl_append]
    refine ih (state.writes (previous record (.head _))) nodup.2 fun r mem => ?_
    have ne : r.id ≠ record.id := fun same => nodup.1 (same ▸ List.mem_map_of_mem mem)
    rw [previous r (.tail _ mem)]
    exact (update_of_ne ne ..).symm

theorem entries_writesAll : ∀ (writes : List SymbolWrite) (rows : SymbolRows),
    (∀ w ∈ writes, ∀ id e, w ≠ .entry id e) →
    (writes.foldl SymbolRows.apply rows).entries = rows.entries := by
  intro writes
  induction writes with
  | nil => exact fun _ _ => rfl
  | cons write writes ih =>
    intro rows others
    rw [foldl_cons, ih _ fun w mem => others w (.tail _ mem)]
    cases write with
    | entry id e => exact absurd rfl (others _ (.head _) id e)
    | name symbol id present => rfl
    | address address id present => rfl
    | loader index id => rfl

theorem foldl_entry : ∀ (records : List PreparedSymbolRecord) (rows : SymbolRows),
    ((records.map fun record => SymbolWrite.entry record.id record.entry).foldl SymbolRows.apply
      rows).entries.get? = records.foldl replayEntry rows.entries.get? ∧
    ∃ entries, (records.map fun record => SymbolWrite.entry record.id record.entry).foldl
      SymbolRows.apply rows = { rows with entries := entries } := by
  intro records
  induction records with
  | nil => exact fun rows => ⟨rfl, rows.entries, rfl⟩
  | cons record records ih =>
    intro rows
    rw [map_cons, foldl_cons, foldl_cons]
    obtain ⟨get, entries, eq⟩ := ih (rows.apply (.entry record.id record.entry))
    have here : (rows.apply (.entry record.id record.entry)).entries.get? =
        replayEntry rows.entries.get? record := by
      funext x
      unfold replayEntry
      cases isEntry : record.entry with
      | none =>
        by_cases same : x = record.id
        · subst same
          rw [update_self]
          exact OrdMap.get?_eq_none.mpr fun v mem => (OrdMap.mem_erase.mp mem).2 rfl
        · rw [update_of_ne same]
          exact OrdMap.get?_erase_ne same
      | some e =>
        by_cases same : x = record.id
        · subst same
          rw [update_self]
          exact OrdMap.get?_insert_self
        · rw [update_of_ne same]
          exact OrdMap.get?_insert_ne same
    refine ⟨by rw [get, here], entries, ?_⟩
    rw [eq]
    cases record.entry <;> rfl

end SymbolRows

/-! ## Publication -/

namespace PersistentSymbols

variable {table : PersistentSymbols} {staging : SymbolTableStaging}

/-- What a persistent table answers. -/
def view (table : PersistentSymbols) : SymbolView where
  entry := table.rows.entries.get?
  loader := table.rows.loaders
  names symbol := rowIds (table.rows.names symbol)
  addresses address := rowIds (table.rows.addresses address)
  len := table.len

/-- A table whose rows are exact and whose ids are those of its allocator. -/
structure Ok (table : PersistentSymbols) : Prop where
  state : table.rows.At table.rows.entries.get? table.rows.loaders
  index : ∀ i id, table.rows.loaders i = some id ↔
    ∃ e, table.rows.entries.get? id = some e ∧ i ∈ e.indices
  ids : ∃ live ever, PersistentIds.Inv ⟨table.allocator, table.idStore, live, ever⟩ ∧
    ∀ id, id ∈ live ↔ table.rows.entries.get? id ≠ none

theorem Ok.exact (ok : table.Ok) : table.view.Exact := by
  obtain ⟨live, ever, inv, isLive⟩ := ok.ids
  refine ⟨ok.index, ok.state.names, ok.state.addresses, live, inv.pool.live_nodup.of_map, isLive, ?_⟩
  change table.allocator.state.live = live.length
  rw [inv.current]
  rfl

theorem Ok.readsOk (ok : table.Ok) : table.reads.Ok := by
  obtain ⟨live, ever, inv, isLive⟩ := ok.ids
  have distinct : ∀ {n m id}, n ≤ m → table.pendingId n = some id → table.pendingId m = some id →
      n = m := by
    intro n m id le first second
    obtain ⟨ids, after, run⟩ := reserve_of_pendingId second
    obtain ⟨-, nodup, -⟩ := inv.reserve run
    have at_ := getElem?_of_pendingId first (by omega) run
    have at_' := getElem?_of_pendingId second (by omega) run
    obtain ⟨lt, get⟩ := List.getElem?_eq_some_iff.mp at_
    obtain ⟨lt', get'⟩ := List.getElem?_eq_some_iff.mp at_'
    exact (List.Nodup.getElem_inj_iff nodup.of_map).mp (get.trans get'.symm)
  refine ⟨ok.index, fun n id pending => ?_, fun n m id first second => ?_⟩
  · obtain ⟨ids, after, run⟩ := reserve_of_pendingId pending
    obtain ⟨-, -, available⟩ := inv.reserve run
    have mem := mem_of_getElem? (getElem?_of_pendingId pending (Nat.lt_succ_self n) run)
    by_contra some_
    exact (inv.pool.available_unused (available id mem)).1 ((isLive id).mpr some_)
  · rcases le_total n m with le | le
    · exact distinct le first second
    · exact (distinct le second first).symm

theorem added_perm (readsOk : table.reads.Ok) (stagingOk : staging.Ok table.reads)
    (nodup : staging.symbolReservations.Nodup) :
    (((staging.prepare table.reads).filter
      fun record => record.entry.isSome && record.previous.isNone).map
        PreparedSymbolRecord.id).Perm
    (staging.symbolReservations.filter fun id => !decide (id ∈ staging.cancelledSymbols)) := by
  have batch := batch_prepare table.reads staging (List.Perm.refl _)
  refine (perm_ext_iff_of_nodup ?_ (nodup.filter _)).mpr fun id => ?_
  · exact batch.ids.sublist (filter_sublist.map _)
  · rw [List.mem_map, mem_filter, Bool.not_eq_true', decide_eq_false_iff_not]
    constructor
    · rintro ⟨r, mem, rfl⟩
      obtain ⟨mem, flags⟩ := mem_filter.mp mem
      rw [Bool.and_eq_true, isNone_iff_eq_none, batch.previous r mem] at flags
      have staged := (mem_prepare.mp mem).1
      refine ⟨((stagingOk.staged r.id r.entry staged).resolve_left
        fun some_ => some_ flags.2).1, fun cancelled => ?_⟩
      rw [(stagingOk.cancelled r.id cancelled).2] at staged
      cases staged
    · rintro ⟨reserved, kept⟩
      obtain ⟨e, staged⟩ := (stagingOk.kept id reserved).resolve_left kept
      have fresh := stagingOk.reserved_fresh readsOk reserved
      refine ⟨⟨id, some e, table.reads.entry id⟩, mem_filter.mpr
        ⟨mem_prepare.mpr ⟨staged, ?_, rfl⟩, ?_⟩, rfl⟩
      · rw [fresh]
        simp
      · rw [fresh]
        rfl

theorem removed_eq (stagingOk : staging.Ok table.reads) :
    ((staging.prepare table.reads).filter
      fun record => record.entry.isNone && record.previous.isSome) =
    (staging.prepare table.reads).filter fun record => record.entry.isNone := by
  refine filter_congr fun r mem => ?_
  cases isEntry : r.entry with
  | some e => rfl
  | none =>
    have some_ := removed_previous stagingOk mem isEntry
    rw [← (mem_prepare.mp mem).2.2] at some_
    obtain ⟨e, isPrevious⟩ := ne_none_iff_exists'.mp some_
    rw [isPrevious]
    rfl

theorem rows_published (ok : table.Ok) (stagingOk : staging.Ok table.reads)
    (ascending : Ascending table.reads staging fun _ => True) {rows : SymbolRows}
    (run : ((staging.prepare table.reads).map
        (fun record => SymbolWrite.entry record.id record.entry) ++
      (staging.prepare table.reads).flatMap PreparedSymbolRecord.writes).foldl SymbolRows.apply
        table.rows = rows) :
    rows.entries.get? = staging.symbol table.reads ∧
      rows.At (staging.symbol table.reads) (staging.symbolIdByIndex table.reads) := by
  have batch := batch_prepare table.reads staging (List.Perm.refl _)
  have entry : (staging.prepare table.reads).foldl replayEntry table.rows.entries.get? = _ :=
    replay_entry batch
  have order := undisturbed_of_ascending ok.readsOk stagingOk
    (fun r mem => ⟨batch.previous r mem, batch.entry r mem⟩) (prepare_sorted table.reads staging)
    (fun _ _ => trivial) ascending
  have loader : (staging.prepare table.reads).foldl replay table.rows.loaders = _ :=
    replay_loader ok.readsOk stagingOk batch order
  rw [foldl_append] at run
  obtain ⟨get, entries, eq⟩ := SymbolRows.foldl_entry (staging.prepare table.reads) table.rows
  have state : SymbolRows.At { table.rows with entries := entries } table.rows.entries.get?
      table.rows.loaders := ⟨rfl, ok.state.names, ok.state.addresses⟩
  have last := state.writesAll (staging.prepare table.reads) batch.ids batch.previous
  rw [entry, loader, ← eq, run] at last
  refine ⟨?_, last⟩
  rw [← run, SymbolRows.entries_writesAll, get, entry]
  intro w mem id e isEntry
  subst isEntry
  obtain ⟨r, -, written⟩ := mem_flatMap.mp mem
  unfold PreparedSymbolRecord.writes at written
  cases previous : r.previous <;> cases here : r.entry <;>
    simp [previous, here, appendUnlinks, appendLinks] at written

/-- A publication makes the staged view real and leaves a table as it should be. -/
theorem Ok.publish (ok : table.Ok) (stagingOk : staging.Ok table.reads)
    (ascending : Ascending table.reads staging fun _ => True)
    {table' : PersistentSymbols} (run : table.publish staging = some table') :
    table'.Ok ∧ table'.view.Shows table.reads staging := by
  obtain ⟨live, ever, inv, isLive⟩ := ok.ids
  obtain ⟨reserving, reserved⟩ := reserve_eq stagingOk.reserved
  obtain ⟨-, nodup, -⟩ := inv.reserve reserved
  have liveNodup : live.Nodup := inv.pool.live_nodup.of_map
  have chosen := releases_perm stagingOk isLive liveNodup nodup.of_map
  have added := (added_perm ok.readsOk stagingOk nodup.of_map).length_eq
  have removed := (removed_perm stagingOk isLive liveNodup).length_eq
  rw [length_map] at added removed
  unfold PersistentSymbols.publish at run
  rw [reserved] at run
  simp only [some_bind, removed_eq stagingOk, added, removed] at run
  obtain ⟨idWrites, appended, run⟩ := bind_eq_some_iff.mp run
  obtain ⟨allocator, publishes, eq⟩ := bind_eq_some_iff.mp run
  cases eq
  have step : PersistentIds.Step ⟨table.allocator, table.idStore, live, ever⟩ _ :=
    .commit (fun id => decide (id ∈ staging.cancelledSymbols))
      (fun id => decide (staging.symbol table.reads id = none)) reserved chosen appended publishes
  have inv' := step.inv inv
  have isLive' := live_after stagingOk isLive ok.readsOk
  obtain ⟨entries, state⟩ := rows_published ok stagingOk ascending rfl
  have ok' : PersistentSymbols.Ok ⟨allocator, idWrites.foldl IdStore.apply table.idStore,
      ((staging.prepare table.reads).map
        (fun record => SymbolWrite.entry record.id record.entry) ++
      (staging.prepare table.reads).flatMap PreparedSymbolRecord.writes).foldl SymbolRows.apply
        table.rows⟩ := by
    refine ⟨⟨rfl, entries ▸ state.names, entries ▸ state.addresses⟩, fun i id => ?_,
      ⟨_, _, inv', fun id => ?_⟩⟩
    · rw [state.loaders, entries]
      exact stagingOk.index i id
    · rw [entries]
      exact isLive' id
  exact ⟨ok', ok'.exact, fun id => congrFun entries id, fun i => congrFun state.loaders i⟩

/-- A publication stops only where the generation of an id is exhausted. -/
theorem Ok.publish_isSome (ok : table.Ok) (stagingOk : staging.Ok table.reads)
    (renewable : Renewable table.reads staging) : (table.publish staging).isSome := by
  obtain ⟨live, ever, inv, isLive⟩ := ok.ids
  obtain ⟨reserving, reserved⟩ := reserve_eq stagingOk.reserved
  obtain ⟨⟨pending, rfl, -⟩, nodup, -⟩ := inv.reserve reserved
  have liveNodup : live.Nodup := inv.pool.live_nodup.of_map
  have chosen := releases_perm stagingOk isLive liveNodup nodup.of_map
  have removed := (removed_perm stagingOk isLive liveNodup).length_eq
  rw [length_map] at removed
  have count : table.allocator.state.live = live.length := by
    rw [inv.current]
    rfl
  have fewer : ((staging.prepare table.reads).filter fun record => record.entry.isNone).length ≤
      table.allocator.state.live := by
    rw [removed, count]
    exact length_filter_le _ _
  have changes := freeChanges_isSome
    { table.allocator with pending := pending } staging.symbolReservations fun id mem =>
      renewable_of_released stagingOk isLive ok.readsOk renewable (chosen.mem_iff.mp mem)
  unfold PersistentSymbols.publish
  rw [reserved]
  simp only [some_bind, removed_eq stagingOk]
  obtain ⟨state, after⟩ := isSome_iff_exists.mp
    (stateAfter_isSome { table.allocator with pending := pending }
      staging.symbolReservations ((staging.prepare table.reads).filter
        fun record => record.entry.isSome && record.previous.isNone).length fewer)
  obtain ⟨writes, appended⟩ := isSome_iff_exists.mp
    (appendTransition_isSome changes after)
  rw [appended]
  simp only [bind_some, publishTransition, after, bind_eq_bind]
  rfl

/-- A table without symbols. -/
def initial (freeIds : OrdMap FreeIdKey ℕ) (name : ℕ) : PersistentSymbols :=
  ⟨(PersistentIds.initial freeIds name).allocator, (PersistentIds.initial freeIds name).store,
    ⟨.empty, fun _ => .empty, fun _ => .empty, fun _ => none⟩⟩

theorem ok_initial (freeIds : OrdMap FreeIdKey ℕ) (name : ℕ)
    (none : ∀ index, freeIds.get? (FreeIdKey.new name index) = none) : (initial freeIds name).Ok where
  state := ⟨rfl, fun k => ⟨rowIds_nodup _, by simp [initial, rowIds, OrdMap.get?]⟩,
    fun k => ⟨rowIds_nodup _, by simp [initial, rowIds, OrdMap.get?]⟩⟩
  index := by simp [initial, OrdMap.get?]
  ids := ⟨[], [], PersistentIds.inv_initialise freeIds name none, by simp [initial, OrdMap.get?]⟩

end PersistentSymbols

end Fugue.Ir
