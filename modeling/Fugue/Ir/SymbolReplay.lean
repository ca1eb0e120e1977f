import Fugue.Ir.SymbolStagingView

/-!
# Replaying symbol records

A publication replays the records of a batch one by one: each takes the indices of the entry before
from the loader map and then enters those of the new one. `replay_loader` says when the map that this
leaves is the one the staging shows: no record may take an index that an earlier one has entered.
The lists of ids under a name or an address change for one id at a time.
-/

namespace Fugue.Ir

open Fugue.Lib SymbolTableStaging List Function

structure SymbolView where
  entry : IrId → Option SymbolEntry
  loader : ℕ → Option IrId
  names : String → List IrId
  addresses : Address → List IrId
  len : ℕ

/-- The lists have exactly the ids of the entries with their key. -/
def Listed {K : Type} (key : SymbolEntry → K) (lists : K → List IrId)
    (entry : IrId → Option SymbolEntry) : Prop :=
  ∀ k, (lists k).Nodup ∧ ∀ id, id ∈ lists k ↔ ∃ e, entry id = some e ∧ key e = k

/-- A view whose indexes have exactly the live entries, where an index belongs to the one entry that
lists it, and whose length is the number of entries. -/
structure SymbolView.Exact (view : SymbolView) : Prop where
  loader : ∀ i id, view.loader i = some id ↔ ∃ e, view.entry id = some e ∧ i ∈ e.indices
  names : Listed SymbolEntry.symbol view.names view.entry
  addresses : Listed SymbolEntry.address view.addresses view.entry
  len : ∃ live : List IrId, live.Nodup ∧ (∀ id, id ∈ live ↔ view.entry id ≠ none) ∧
    view.len = live.length

/-- The view that a staging shows has become real. -/
structure SymbolView.Shows (view : SymbolView) (reads : SymbolReads)
    (staging : SymbolTableStaging) : Prop where
  exact : view.Exact
  entry : ∀ id, view.entry id = staging.symbol reads id
  loader : ∀ i, view.loader i = staging.symbolIdByIndex reads i

/-! ## The lists -/

section Listed

variable {K : Type} {key : SymbolEntry → K} {lists lists' : K → List IrId}
  {entry : IrId → Option SymbolEntry} {id : IrId} {e : SymbolEntry}

theorem Listed.unlink (listed : Listed key lists entry) (here : entry id = some e)
    (others : ∀ k, k ≠ key e → lists' k = lists k) (nodup : (lists' (key e)).Nodup)
    (mem : ∀ x, x ∈ lists' (key e) ↔ x ∈ lists (key e) ∧ x ≠ id) :
    Listed key lists' (Function.update entry id none) := by
  intro k
  by_cases same : k = key e
  · subst same
    refine ⟨nodup, fun x => ?_⟩
    rw [mem x, (listed (key e)).2 x]
    by_cases own : x = id
    · subst own
      simp
    · simp [own]
  · rw [others k same]
    refine ⟨(listed k).1, fun x => ?_⟩
    rw [(listed k).2 x]
    by_cases own : x = id
    · subst own
      rw [here]
      simp [Ne.symm same]
    · rw [update_of_ne own]

/-- An id comes to the list of its new entry. -/
theorem Listed.link (listed : Listed key lists entry) (here : entry id = none)
    (others : ∀ k, k ≠ key e → lists' k = lists k) (nodup : (lists' (key e)).Nodup)
    (mem : ∀ x, x ∈ lists' (key e) ↔ x ∈ lists (key e) ∨ x = id) :
    Listed key lists' (Function.update entry id (some e)) := by
  intro k
  by_cases same : k = key e
  · subst same
    refine ⟨nodup, fun x => ?_⟩
    rw [mem x, (listed (key e)).2 x]
    by_cases own : x = id
    · subst own
      simp
    · simp [own]
  · rw [others k same]
    refine ⟨(listed k).1, fun x => ?_⟩
    rw [(listed k).2 x]
    by_cases own : x = id
    · subst own
      rw [here]
      simp [Ne.symm same]
    · rw [update_of_ne own]

theorem Listed.not_mem (listed : Listed key lists entry) (here : entry id = none) (k : K) :
    id ∉ lists k := by
  rw [(listed k).2 id, here]
  simp

end Listed

/-! ## The loader map -/

/-- The loader map after a record. -/
def replay (loader : ℕ → Option IrId) (record : PreparedSymbolRecord) : ℕ → Option IrId :=
  fun i => if i ∈ indicesOf record.entry then some record.id
    else if i ∈ indicesOf record.previous then none else loader i

variable {records : List PreparedSymbolRecord} {loader : ℕ → Option IrId} {i : ℕ}

theorem replay_unentered : ∀ (records : List PreparedSymbolRecord) (loader : ℕ → Option IrId),
    (∀ r ∈ records, i ∉ indicesOf r.entry) →
    (records.foldl replay loader i = loader i ∧ ∀ r ∈ records, i ∉ indicesOf r.previous) ∨
    (records.foldl replay loader i = none ∧ ∃ r ∈ records, i ∈ indicesOf r.previous) := by
  intro records
  induction records with
  | nil =>
    intro loader _
    exact .inl ⟨rfl, by simp⟩
  | cons record records ih =>
    intro loader unentered
    have here : replay loader record i =
        if i ∈ indicesOf record.previous then none else loader i := by
      unfold replay
      rw [if_neg (unentered record mem_cons_self)]
    rw [foldl_cons]
    rcases ih (replay loader record) fun r mem => unentered r (.tail _ mem) with
      ⟨kept, untouched⟩ | ⟨gone, r, mem, had⟩
    · by_cases had : i ∈ indicesOf record.previous
      · rw [if_pos had] at here
        exact .inr ⟨by rw [kept, here], record, .head _, had⟩
      · rw [if_neg had] at here
        refine .inl ⟨by rw [kept, here], fun r mem => ?_⟩
        rcases mem_cons.mp mem with rfl | mem
        · exact had
        · exact untouched r mem
    · exact .inr ⟨gone, r, .tail _ mem, had⟩

theorem replay_entered {before after : List PreparedSymbolRecord} {record : PreparedSymbolRecord}
    (enters : i ∈ indicesOf record.entry)
    (later : ∀ r ∈ after, i ∉ indicesOf r.entry ∧ i ∉ indicesOf r.previous) :
    (before ++ record :: after).foldl replay loader i = some record.id := by
  rw [foldl_append, foldl_cons]
  rcases replay_unentered after (replay (before.foldl replay loader) record)
    fun r mem => (later r mem).1 with ⟨kept, -⟩ | ⟨-, r, mem, had⟩
  · rw [kept]
    unfold replay
    rw [if_pos enters]
  · exact absurd had (later r mem).2

/-- The records of a batch, in any order: those of the symbols that the staging has changed. -/
structure Batch (reads : SymbolReads) (staging : SymbolTableStaging)
    (records : List PreparedSymbolRecord) : Prop where
  ids : (records.map PreparedSymbolRecord.id).Nodup
  previous : ∀ r ∈ records, r.previous = reads.entry r.id
  entry : ∀ r ∈ records, r.entry = staging.symbol reads r.id
  complete : ∀ id, (∀ r ∈ records, r.id ≠ id) → staging.symbol reads id = reads.entry id

/-- No record takes an index that an earlier one has entered. -/
def Undisturbed (records : List PreparedSymbolRecord) : Prop :=
  records.Pairwise fun earlier later => ∀ i ∈ indicesOf earlier.entry, i ∉ indicesOf later.previous

variable {staging : SymbolTableStaging} {reads : SymbolReads}

/-- The loader map after the records is the one that the staging shows. -/
theorem replay_loader (readsOk : reads.Ok)
    (ok : staging.Ok reads) (batch : Batch reads staging records) (order : Undisturbed records) :
    records.foldl replay reads.idByIndex = staging.symbolIdByIndex reads := by
  funext i
  -- the symbol that shall have the index, if it has a record
  by_cases entered : ∃ r ∈ records, i ∈ indicesOf r.entry
  · obtain ⟨record, mem, enters⟩ := entered
    have held : ∀ r ∈ records, i ∈ indicesOf r.entry →
        staging.symbolIdByIndex reads i = some r.id := by
      intro r rMem lists
      rw [batch.entry r rMem] at lists
      exact (ok.index i r.id).mpr (mem_indicesOf.mp lists)
    obtain ⟨before, after, rfl⟩ := append_of_mem mem
    rw [replay_entered enters, held record mem enters]
    intro r rMem
    have inside : r ∈ before ++ record :: after :=
      mem_append_right _ (.tail _ rMem)
    constructor
    · intro lists
      have same : record.id = r.id :=
        Option.some.inj ((held record mem enters).symm.trans (held r inside lists))
      have nodup := batch.ids
      rw [map_append, map_cons] at nodup
      have tail := (nodup_append.mp nodup).2.1
      exact (nodup_cons.mp tail).1 (same ▸ mem_map_of_mem rMem)
    · have tail := (pairwise_append.mp order).2.1
      exact (pairwise_cons.mp tail).1 r rMem i enters
  · have unentered : ∀ r ∈ records, i ∉ indicesOf r.entry :=
      fun r mem lists => entered ⟨r, mem, lists⟩
    -- a symbol that shall have the index has no record, so it has the index already
    have had : ∀ id, staging.symbolIdByIndex reads i = some id →
        reads.idByIndex i = some id ∧ ∀ r ∈ records, r.id ≠ id := by
      intro id held
      obtain ⟨e, shows_, lists⟩ := (ok.index i id).mp held
      have unchanged : ∀ r ∈ records, r.id ≠ id := by
        rintro r mem rfl
        apply unentered r mem
        rw [batch.entry r mem]
        exact mem_indicesOf.mpr ⟨e, shows_, lists⟩
      refine ⟨(readsOk.index i id).mpr ⟨e, ?_, lists⟩, unchanged⟩
      rw [← batch.complete id unchanged]
      exact shows_
    rcases replay_unentered records reads.idByIndex unentered with
      ⟨kept, untouched⟩ | ⟨gone, r, mem, previous⟩
    · rw [kept]
      cases committed : reads.idByIndex i with
      | some id =>
        obtain ⟨e, isEntry, lists⟩ := (readsOk.index i id).mp committed
        have unchanged : ∀ r ∈ records, r.id ≠ id := by
          rintro r mem rfl
          apply untouched r mem
          rw [batch.previous r mem]
          exact mem_indicesOf.mpr ⟨e, isEntry, lists⟩
        refine ((ok.index i id).mpr ⟨e, ?_, lists⟩).symm
        rw [batch.complete id unchanged]
        exact isEntry
      | none =>
        cases held : staging.symbolIdByIndex reads i with
        | none => rfl
        | some id =>
          have before := (had id held).1
          rw [committed] at before
          cases before
    · rw [gone]
      cases held : staging.symbolIdByIndex reads i with
      | none => rfl
      | some id =>
        obtain ⟨before, unchanged⟩ := had id held
        rw [batch.previous r mem] at previous
        have own := (readsOk.index i r.id).mpr (mem_indicesOf.mp previous)
        exact absurd (Option.some.inj (own.symm.trans before)) (unchanged r mem)

def replayEntry (entry : IrId → Option SymbolEntry) (record : PreparedSymbolRecord) :
    IrId → Option SymbolEntry := Function.update entry record.id record.entry

theorem replayEntry_foldl : ∀ (records : List PreparedSymbolRecord)
    (entry : IrId → Option SymbolEntry), (records.map PreparedSymbolRecord.id).Nodup →
    (∀ r ∈ records, records.foldl replayEntry entry r.id = r.entry) ∧
      ∀ id, (∀ r ∈ records, r.id ≠ id) → records.foldl replayEntry entry id = entry id := by
  intro records
  induction records with
  | nil => exact fun entry _ => ⟨by simp, fun _ _ => rfl⟩
  | cons record records ih =>
    intro entry nodup
    rw [map_cons, nodup_cons] at nodup
    obtain ⟨set, others⟩ := ih (replayEntry entry record) nodup.2
    simp only [foldl_cons]
    refine ⟨fun r mem => ?_, fun id away => ?_⟩
    · rcases mem_cons.mp mem with rfl | mem
      · rw [others r.id fun other otherMem same =>
          nodup.1 (mem_map.mpr ⟨other, otherMem, same⟩)]
        exact update_self ..
      · exact set r mem
    · rw [others id fun r mem => away r (.tail _ mem)]
      exact update_of_ne (away record (.head _)).symm ..

/-- The entries after the records are those that the staging shows. -/
theorem replay_entry (batch : Batch reads staging records) :
    records.foldl replayEntry reads.entry = staging.symbol reads := by
  obtain ⟨set, others⟩ := replayEntry_foldl records reads.entry batch.ids
  funext id
  by_cases has : ∃ r ∈ records, r.id = id
  · obtain ⟨r, mem, rfl⟩ := has
    rw [set r mem, batch.entry r mem]
  · have away : ∀ r ∈ records, r.id ≠ id := fun r mem same => has ⟨r, mem, same⟩
    rw [others id away, batch.complete id away]

/-! ## The records of a staging -/

theorem prepare_sorted (reads : SymbolReads) (staging : SymbolTableStaging) :
    (staging.prepare reads).Pairwise fun r r' => r.id < r'.id := by
  have sorted := staging.stagedSymbols.sorted
  unfold SymbolTableStaging.prepare
  rw [pairwise_filterMap]
  refine sorted.imp fun {x y} lt r isX r' isY => ?_
  split at isX
  · cases isX
  · split at isY
    · cases isY
    · cases isX
      cases isY
      exact lt

theorem mem_prepare {r : PreparedSymbolRecord} : r ∈ staging.prepare reads ↔
      staging.stagedSymbols.get? r.id = some r.entry ∧ r.entry ≠ reads.entry r.id ∧
        r.previous = reads.entry r.id := by
  unfold SymbolTableStaging.prepare
  rw [mem_filterMap]
  constructor
  · rintro ⟨staged, stagedMem, isRecord⟩
    split at isRecord
    · cases isRecord
    · rename_i changed
      cases isRecord
      exact ⟨OrdMap.get?_eq_some.mpr stagedMem, changed, rfl⟩
  · rintro ⟨staged, changed, previous⟩
    refine ⟨(r.id, r.entry), OrdMap.get?_eq_some.mp staged, ?_⟩
    rw [if_neg changed, ← previous]

theorem batch_prepare (reads : SymbolReads) (staging : SymbolTableStaging)
    (perm : records.Perm (staging.prepare reads)) : Batch reads staging records := by
  have mem : ∀ r, r ∈ records ↔ _ := fun r => perm.mem_iff.trans mem_prepare
  refine ⟨?_, fun r rMem => ((mem r).mp rMem).2.2, fun r rMem => ?_, fun id away => ?_⟩
  · apply (perm.map _).nodup_iff.mpr
    rw [List.Nodup, pairwise_map]
    exact (prepare_sorted reads staging).imp fun lt => lt.ne
  · unfold symbol
    rw [((mem r).mp rMem).1]
  · unfold symbol
    cases staged : staging.stagedSymbols.get? id with
    | none => rfl
    | some entry =>
      by_contra changed
      exact away ⟨id, entry, reads.entry id⟩ ((mem _).mpr ⟨staged, changed, rfl⟩) rfl

/-- No index goes to a symbol with a smaller id from one of those given. -/
def Ascending (reads : SymbolReads) (staging : SymbolTableStaging) (from_ : IrId → Prop) : Prop :=
  ∀ i id id', staging.symbolIdByIndex reads i = some id → reads.idByIndex i = some id' →
    from_ id' → id' ≤ id

theorem undisturbed_of_ascending (readsOk : reads.Ok) (ok : staging.Ok reads) {from_ : IrId → Prop}
    (batch : ∀ r ∈ records, r.previous = reads.entry r.id ∧ r.entry = staging.symbol reads r.id)
    (sorted : records.Pairwise fun r r' => r.id < r'.id) (given : ∀ r ∈ records, from_ r.id)
    (ascending : Ascending reads staging from_) : Undisturbed records := by
  refine sorted.imp_of_mem fun {r r'} rMem rMem' lt i enters had => ?_
  rw [(batch r rMem).2] at enters
  rw [(batch r' rMem').1] at had
  have le := ascending i r.id r'.id ((ok.index i r.id).mpr (mem_indicesOf.mp enters))
    ((readsOk.index i r'.id).mpr (mem_indicesOf.mp had)) (given r' rMem')
  exact absurd lt le.not_gt

/-! ## The ids of a batch -/

/-- The ids of the symbols that go have a next generation. -/
def Renewable (reads : SymbolReads) (staging : SymbolTableStaging) : Prop :=
  ∀ id, id ∈ staging.symbolReservations ∨ reads.entry id ≠ none →
    staging.symbol reads id = none → (IrId.nextGeneration id).isSome

section Ids

variable {reads : SymbolReads} {staging : SymbolTableStaging} (ok : staging.Ok reads)
  {live : List IrId} (isLive : ∀ id, id ∈ live ↔ reads.entry id ≠ none)

include ok

theorem removed_previous {r : PreparedSymbolRecord} (mem : r ∈ staging.prepare reads)
    (isNone : r.entry = none) : reads.entry r.id ≠ none :=
  (ok.staged r.id r.entry (mem_prepare.mp mem).1).resolve_right fun both => both.2 isNone

include isLive

theorem removed_perm (nodup : live.Nodup) :
    (((staging.prepare reads).filter fun record => record.entry.isNone).map
      PreparedSymbolRecord.id).Perm
    (live.filter fun id => decide (staging.symbol reads id = none)) := by
  have batch := batch_prepare reads staging (List.Perm.refl _)
  have inside : ∀ r, r ∈ (staging.prepare reads).filter (fun record => record.entry.isNone) ↔
      r ∈ staging.prepare reads ∧ r.entry = none := by
    intro r
    rw [mem_filter, Option.isNone_iff_eq_none]
  refine (perm_ext_iff_of_nodup ?_ (nodup.filter _)).mpr fun id => ?_
  · exact batch.ids.sublist (filter_sublist.map _)
  · rw [mem_map, mem_filter, isLive, decide_eq_true_eq]
    constructor
    · rintro ⟨r, mem, rfl⟩
      obtain ⟨mem, isNone⟩ := (inside r).mp mem
      exact ⟨removed_previous ok mem isNone, by rw [← batch.entry r mem, isNone]⟩
    · rintro ⟨some_, gone⟩
      by_contra absent
      have away : ∀ r ∈ staging.prepare reads, r.id ≠ id := by
        rintro r mem rfl
        exact absent ⟨r, (inside r).mpr ⟨mem, by rw [batch.entry r mem, gone]⟩, rfl⟩
      have same := batch.complete id away
      rw [gone] at same
      exact some_ same.symm

theorem releases_perm (nodup : live.Nodup) (reservations : staging.symbolReservations.Nodup) :
    (staging.cancelledSymbols ++
      ((staging.prepare reads).filter fun record => record.entry.isNone).map
        PreparedSymbolRecord.id).Perm
    (staging.symbolReservations.filter (fun id => decide (id ∈ staging.cancelledSymbols)) ++
      live.filter fun id => decide (staging.symbol reads id = none)) := by
  refine List.Perm.append ?_ (removed_perm ok isLive nodup)
  refine (perm_ext_iff_of_nodup ok.cancelledNodup (reservations.filter _)).mpr fun id => ?_
  rw [mem_filter, decide_eq_true_eq]
  exact ⟨fun mem => ⟨(ok.cancelled id mem).1, mem⟩, And.right⟩

theorem live_after (readsOk : reads.Ok) (id : IrId) :
    id ∈ live.filter (fun id => !decide (staging.symbol reads id = none)) ++
      staging.symbolReservations.filter (fun id => !decide (id ∈ staging.cancelledSymbols)) ↔
    staging.symbol reads id ≠ none := by
  rw [mem_append, mem_filter, mem_filter, isLive, Bool.not_eq_true',
    decide_eq_false_iff_not, Bool.not_eq_true', decide_eq_false_iff_not]
  constructor
  · rintro (⟨-, shown⟩ | ⟨reserved, kept⟩)
    · exact shown
    · obtain ⟨e, staged⟩ := (ok.kept id reserved).resolve_left kept
      unfold symbol
      rw [staged]
      simp
  · intro shown
    obtain ⟨e, shows_⟩ := Option.ne_none_iff_exists'.mp shown
    obtain ⟨kept, known⟩ := ok.of_symbol readsOk shows_
    rcases known with committed | reserved
    · exact .inl ⟨committed, shown⟩
    · exact .inr ⟨reserved, kept⟩

/-- The ids that the batch releases have a next generation. -/
theorem renewable_of_released (readsOk : reads.Ok) (renewable : Renewable reads staging) {id : IrId}
    (mem : id ∈ staging.symbolReservations.filter (fun id => decide (id ∈ staging.cancelledSymbols))
      ++ live.filter fun id => decide (staging.symbol reads id = none)) :
    (IrId.nextGeneration id).isSome := by
  rcases mem_append.mp mem with cancelled | removed
  · obtain ⟨reserved, cancelled⟩ := mem_filter.mp cancelled
    apply renewable id (.inl reserved)
    unfold symbol
    rw [(ok.cancelled id (of_decide_eq_true cancelled)).2]
    exact ok.reserved_fresh readsOk reserved
  · obtain ⟨isLive_, gone⟩ := mem_filter.mp removed
    exact renewable id (.inr ((isLive id).mp isLive_)) (of_decide_eq_true gone)

end Ids

end Fugue.Ir
