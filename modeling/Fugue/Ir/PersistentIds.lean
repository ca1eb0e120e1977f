import Fugue.Ir.TransientIds

/-!
# The ids of persistent tables

`PersistentIdAllocator` reads its free ids from the store, a batch of them at a time behind a cursor,
and hands out new indices when it has seen the last one. What is pending stays valid until a commit
changes the records (`PendingInv`), and the writes of a commit are the transition of the pool of
handles that its ids make.
-/

namespace Fugue.Ir

open Fugue.Lib List Option OrdMap TransientIds

namespace PersistentIdAllocator

/-- The free record of an id is in the store. -/
def Free (store : IdStore) (table : ℕ) (id : IrId) : Prop :=
  store.freeIds.get? (FreeIdKey.new table id.index) = some id.generation

/-- What is pending: ids with different indices, each of a free record up to the cursor or a new
index. -/
structure PendingInv (free : IrId → Prop) (next : ℕ) (pending : PendingAllocations) : Prop where
  source : ∀ id ∈ pending.ids,
    (free id ∧ ∃ last, pending.lastFree = some last ∧ id.index ≤ last) ∨
    (next ≤ id.index ∧ id.index < pending.nextIndex)
  nodup : (pending.ids.map Handle.index).Nodup
  le : next ≤ pending.nextIndex

variable {store : IdStore} {table next : ℕ} {pending : PendingAllocations} {free : IrId → Prop}

theorem pendingInv_new (free : IrId → Prop) (next : ℕ) : PendingInv free next (.new next) :=
  ⟨by simp [PendingAllocations.new], by simp [PendingAllocations.new], le_rfl⟩

theorem PendingInv.available (inv : PendingInv free next pending) {id : IrId}
    (mem : id ∈ pending.ids) : Available free next id :=
  (inv.source id mem).imp And.left And.left

theorem FreeIdKey.eq_new {key : FreeIdKey} {table : ℕ} (same : (ofLex key).1 = table) :
    key = FreeIdKey.new table (ofLex key).2 := by
  rw [← same]
  rfl

theorem freeRecords_spec (store : IdStore) (table : ℕ) (lastFree : Option ℕ) :
    (∀ r ∈ freeRecords store table lastFree, Free store table ⟨r.1, r.2⟩ ∧
      ∀ last, lastFree = some last → last < r.1) ∧
    (freeRecords store table lastFree).Pairwise fun r r' => r.1 < r'.1 := by
  unfold freeRecords
  constructor
  · intro r mem
    obtain ⟨entry, taken, rfl⟩ := List.mem_map.mp mem
    have same : (ofLex entry.1).1 = table := by simpa using mem_takeWhile_imp taken
    obtain ⟨inside, beyond⟩ := mem_filter.mp ((takeWhile_sublist _).subset taken)
    refine ⟨?_, fun last isLast => ?_⟩
    · unfold Free
      rw [← FreeIdKey.eq_new same]
      exact get?_eq_some.mpr inside
    · subst isLast
      have lt : FreeIdKey.new table last < entry.1 := of_decide_eq_true beyond
      rcases Prod.Lex.lt_iff.mp lt with less | ⟨-, less⟩
      · rw [same] at less
        exact absurd less (lt_irrefl _)
      · exact less
  · rw [pairwise_map]
    have sorted : ∀ p q : FreeIdKey × ℕ → Bool, ((store.freeIds.entries.filter p).takeWhile q).Pairwise
        fun x y => x.1 < y.1 := fun p q =>
      (store.freeIds.sorted.filter p).sublist (takeWhile_sublist q)
    refine (sorted _ _).imp_of_mem fun {x y} memX memY lt => ?_
    have sameX : (ofLex x.1).1 = table := by simpa using mem_takeWhile_imp memX
    have sameY : (ofLex y.1).1 = table := by simpa using mem_takeWhile_imp memY
    rcases Prod.Lex.lt_iff.mp lt with less | ⟨-, less⟩
    · rw [sameX, sameY] at less
      exact absurd less (lt_irrefl _)
    · exact less

theorem readFree_inv (inv : PendingInv (Free store table) next pending)
    (freeLt : ∀ id, Free store table id → id.index < next) (required : ℕ) :
    PendingInv (Free store table) next (readFree store table required pending) := by
  obtain ⟨records, sorted⟩ := freeRecords_spec store table pending.lastFree
  unfold readFree
  dsimp only
  have taken := take_sublist (max (required - pending.ids.length) 256)
    (freeRecords store table pending.lastFree)
  have records : ∀ r ∈ (freeRecords store table pending.lastFree).take
      (max (required - pending.ids.length) 256), Free store table ⟨r.1, r.2⟩ ∧
        ∀ last, pending.lastFree = some last → last < r.1 := fun r mem =>
    records r (taken.subset mem)
  have sorted := sorted.sublist taken
  generalize (freeRecords store table pending.lastFree).take
    (max (required - pending.ids.length) 256) = read at records sorted
  -- the cursor is at the last record read, or where it was
  have cursor : ∀ r ∈ read, ∃ last, (read.getLast?.map Prod.fst).or pending.lastFree = some last ∧
      r.1 ≤ last := by
    intro r mem
    rcases eq_nil_or_concat read with rfl | ⟨init, last, rfl⟩
    · cases mem
    · rw [concat_eq_append] at mem sorted ⊢
      refine ⟨last.1, by simp, ?_⟩
      rcases mem_append.mp mem with before | here
      · exact ((pairwise_append.mp sorted).2.2 r before last (by simp)).le
      · rw [mem_singleton.mp here]
  have forward : ∀ last, pending.lastFree = some last →
      ∃ last', (read.getLast?.map Prod.fst).or pending.lastFree = some last' ∧ last ≤ last' := by
    intro last isLast
    rcases eq_nil_or_concat read with rfl | ⟨init, r, rfl⟩
    · exact ⟨last, by simp [isLast], le_rfl⟩
    · exact ⟨r.1, by simp, ((records r (by simp)).2 last isLast).le⟩
  refine ⟨fun id mem => ?_, ?_, inv.le⟩
  · rcases mem_append.mp mem with old | new
    · rcases inv.source id old with ⟨isFree, last, isLast, upTo⟩ | beyond
      · obtain ⟨last', isLast', le⟩ := forward last isLast
        exact .inl ⟨isFree, last', isLast', le_trans upTo le⟩
      · exact .inr beyond
    · obtain ⟨r, rMem, rfl⟩ := List.mem_map.mp new
      exact .inl ⟨(records r rMem).1, cursor r rMem⟩
  · rw [map_append, List.map_map]
    apply List.Nodup.append inv.nodup
    · rw [List.Nodup, pairwise_map]
      exact sorted.imp fun lt => lt.ne
    · intro index old new
      obtain ⟨id, idMem, rfl⟩ := List.mem_map.mp old
      obtain ⟨r, rMem, same⟩ := List.mem_map.mp new
      have same : r.1 = id.index := same
      obtain ⟨isFree, after⟩ := records r rMem
      rcases inv.source id idMem with ⟨-, last, isLast, upTo⟩ | ⟨beyond, -⟩
      · have := after last isLast
        omega
      · have := freeLt _ isFree
        dsimp only at this
        omega

theorem pushFresh_inv : ∀ (count : ℕ) {pending pending' : PendingAllocations},
    PendingInv free next pending → (∀ id, free id → id.index < next) →
    pushFresh count pending = some pending' →
    PendingInv free next pending' ∧ ∃ more, pending'.ids = pending.ids ++ more := by
  intro count
  induction count with
  | zero =>
    intro pending pending' inv _ run
    cases run
    exact ⟨inv, [], by simp⟩
  | succ count ih =>
    intro pending pending' inv freeLt run
    obtain ⟨id, new, run⟩ := bind_eq_some_iff.mp run
    have index : id.index = pending.nextIndex := by
      unfold IrId.fromIndex at new
      split at new
      · cases new
        rfl
      · cases new
    have inv' : PendingInv free next { pending with
        ids := pending.ids ++ [id], nextIndex := pending.nextIndex + 1 } := by
      refine ⟨fun other mem => ?_, ?_, Nat.le_succ_of_le inv.le⟩
      · rcases mem_append.mp mem with old | here
        · refine (inv.source other old).imp_right fun beyond => ?_
          exact ⟨beyond.1, Nat.lt_succ_of_lt beyond.2⟩
        · rw [mem_singleton.mp here]
          exact .inr ⟨index ▸ inv.le, by dsimp only; omega⟩
      · rw [map_append]
        apply List.Nodup.append inv.nodup (by simp)
        intro i old here
        obtain ⟨other, mem, rfl⟩ := List.mem_map.mp old
        have same : other.index = id.index := by simpa using here
        have nextLe := inv.le
        rcases inv.source other mem with ⟨isFree, -⟩ | ⟨-, lt⟩
        · have := freeLt other isFree
          omega
        · omega
    obtain ⟨after, more, eq⟩ := ih inv' freeLt run
    exact ⟨after, id :: more, by simp [eq]⟩

theorem pendingId_inv (allocator : PersistentIdAllocator) {allocator' : PersistentIdAllocator}
    {offset : ℕ} {id : IrId} (inv : PendingInv (Free store allocator.table) next allocator.pending)
    (freeLt : ∀ id, Free store allocator.table id → id.index < next)
    (run : allocator.pendingId store offset = some (id, allocator')) :
    ∃ pending, allocator' = { allocator with pending := pending } ∧
      PendingInv (Free store allocator.table) next pending ∧
      (∃ more, pending.ids = allocator.pending.ids ++ more) ∧ pending.ids[offset]? = some id := by
  obtain ⟨pending, extended, run⟩ := bind_eq_some_iff.mp run
  obtain ⟨found, at_, eq⟩ := bind_eq_some_iff.mp run
  obtain ⟨rfl, rfl⟩ : found = id ∧ { allocator with pending := pending } = allocator' := by
    simpa using eq
  refine ⟨pending, rfl, ?_⟩
  unfold pendingFor at extended
  split at extended
  · unfold extendPending at extended
    split at extended
    · obtain ⟨after, more, grown⟩ :=
        pushFresh_inv _ (readFree_inv inv freeLt (offset + 1)) freeLt extended
      exact ⟨after, ⟨_, grown.trans (append_assoc _ _ _)⟩, at_⟩
    · obtain ⟨after, more⟩ := pushFresh_inv _ inv freeLt extended
      exact ⟨after, more, at_⟩
  · cases extended
    exact ⟨inv, ⟨[], by simp⟩, at_⟩

theorem reserve_inv {allocator : PersistentIdAllocator}
    (inv : PendingInv (Free store allocator.table) next allocator.pending)
    (freeLt : ∀ id, Free store allocator.table id → id.index < next) :
    ∀ {count : ℕ} {ids : List IrId} {allocator' : PersistentIdAllocator},
      reserve store allocator count = some (ids, allocator') →
      ∃ pending, allocator' = { allocator with pending := pending } ∧
        PendingInv (Free store allocator.table) next pending ∧
        ids = pending.ids.take count ∧ ids.length = count := by
  intro count
  induction count with
  | zero =>
    intro ids allocator' run
    obtain ⟨rfl, rfl⟩ : [] = ids ∧ allocator = allocator' := by simpa [reserve] using run
    exact ⟨allocator.pending, rfl, inv, by simp, rfl⟩
  | succ count ih =>
    intro ids allocator' run
    obtain ⟨⟨before, middle⟩, first, run⟩ := bind_eq_some_iff.mp run
    obtain ⟨⟨id, last⟩, here, eq⟩ := bind_eq_some_iff.mp run
    obtain ⟨rfl, rfl⟩ : before ++ [id] = ids ∧ last = allocator' := by simpa using eq
    obtain ⟨pending, rfl, inv', rfl, length⟩ := ih first
    obtain ⟨pending', rfl, inv'', ⟨more, grown⟩, at_⟩ :=
      pendingId_inv { allocator with pending := pending } inv' freeLt here
    refine ⟨pending', rfl, inv'', ?_, by simp [length]⟩
    have enough : count ≤ pending.ids.length := by simpa using length
    have kept : pending'.ids.take count = pending.ids.take count := by
      rw [grown, take_append_of_le_length enough]
    rw [take_add_one, at_, kept]
    rfl

theorem foldl_reservations (next : ℕ) (i : ℕ) : ∀ (reservations : List IrId)
    (m : OrdMap ℕ (Option ℕ)),
    (reservations.foldl (fun free id =>
      if id.index < next then free.insert id.index none else free) m).get? i =
      if (∃ id ∈ reservations, id.index = i) ∧ i < next then some none else m.get? i := by
  intro reservations
  induction reservations with
  | nil =>
    simp
  | cons id reservations ih =>
    intro m
    rw [foldl_cons, ih]
    by_cases later : (∃ other ∈ reservations, other.index = i) ∧ i < next
    · rw [if_pos later, if_pos]
      obtain ⟨⟨other, mem, same⟩, lt⟩ := later
      exact ⟨⟨other, .tail _ mem, same⟩, lt⟩
    · rw [if_neg later]
      by_cases here : id.index = i
      · subst here
        by_cases lt : id.index < next
        · rw [if_pos lt, if_pos ⟨⟨id, mem_cons_self, rfl⟩, lt⟩]
          exact get?_insert_self
        · rw [if_neg lt, if_neg fun both => lt both.2]
      · have never : ¬ ((∃ other ∈ id :: reservations, other.index = i) ∧ i < next) :=
          fun both => later ⟨by simpa [here] using both.1, both.2⟩
        split
        · exact get?_insert_ne (Ne.symm here)
        · rfl

theorem foldlM_releases : ∀ (releases : List IrId) {m m' : OrdMap ℕ (Option ℕ)},
    releases.foldlM (fun free id => do
      let next ← IrId.nextGeneration id
      return free.insert id.index (some next.generation)) m = some m' →
    (releases.map Handle.index).Nodup →
    (∀ id ∈ releases, m'.get? id.index = some (some (id.generation + 1))) ∧
      ∀ i, (∀ id ∈ releases, id.index ≠ i) → m'.get? i = m.get? i := by
  intro releases
  induction releases with
  | nil =>
    intro m m' run _
    cases run
    simp
  | cons id releases ih =>
    intro m m' run nodup
    obtain ⟨inserted, here, run⟩ := bind_eq_some_iff.mp run
    obtain ⟨next, bumped, eq⟩ := bind_eq_some_iff.mp here
    cases eq
    have generation : next.generation = id.generation + 1 := by
      unfold IrId.nextGeneration at bumped
      split at bumped
      · cases bumped
        rfl
      · cases bumped
    rw [map_cons, nodup_cons] at nodup
    obtain ⟨set, others⟩ := ih run nodup.2
    refine ⟨fun other mem => ?_, fun i away => ?_⟩
    · rcases mem_cons.mp mem with rfl | mem
      · have last : ∀ later ∈ releases, later.index ≠ other.index :=
          fun later mem same => nodup.1 (List.mem_map.mpr ⟨later, mem, same⟩)
        rw [others _ last, get?_insert_self, generation]
      · exact set other mem
    · rw [others i fun other mem => away other (.tail _ mem)]
      exact get?_insert_ne (Ne.symm (away id (.head _)))

theorem FreeIdKey.new_ne {table i j : ℕ} (ne : i ≠ j) :
    FreeIdKey.new table i ≠ FreeIdKey.new table j := by
  intro same
  exact ne (congrArg (fun key => (ofLex key).2) same)

theorem get?_freeWrite_self (store : IdStore) (table i : ℕ) (change : Option ℕ) :
    (store.apply (freeWrite table (i, change))).freeIds.get? (FreeIdKey.new table i) = change := by
  cases change with
  | some generation => exact get?_insert_self
  | none =>
    refine get?_eq_none.mpr fun v mem => ?_
    exact (mem_erase.mp mem).2 rfl

theorem tableState_freeWrite (store : IdStore) (table : ℕ) (entry : ℕ × Option ℕ) :
    (store.apply (freeWrite table entry)).tableState = store.tableState := by
  unfold freeWrite
  split <;> rfl

theorem foldl_freeWrite (table : ℕ) : ∀ (changes : List (ℕ × Option ℕ)) (store : IdStore),
    changes.Pairwise (fun x y => x.1 < y.1) →
    (∀ x ∈ changes, ((changes.map (freeWrite table)).foldl IdStore.apply store).freeIds.get?
      (FreeIdKey.new table x.1) = x.2) ∧
    (∀ i, (∀ x ∈ changes, x.1 ≠ i) →
      ((changes.map (freeWrite table)).foldl IdStore.apply store).freeIds.get?
        (FreeIdKey.new table i) = store.freeIds.get? (FreeIdKey.new table i)) ∧
    ((changes.map (freeWrite table)).foldl IdStore.apply store).tableState = store.tableState := by
  intro changes
  induction changes with
  | nil =>
    simp
  | cons change changes ih =>
    intro store sorted
    obtain ⟨above, sorted⟩ := pairwise_cons.mp sorted
    obtain ⟨set, others, state⟩ := ih (store.apply (freeWrite table change)) sorted
    rw [map_cons, foldl_cons]
    refine ⟨fun x mem => ?_, fun i away => ?_, ?_⟩
    · rcases mem_cons.mp mem with rfl | mem
      · rw [others x.1 fun y yMem => (above y yMem).ne']
        exact get?_freeWrite_self store table x.1 x.2
      · exact set x mem
    · rw [others i fun x mem => away x (.tail _ mem)]
      have ne := Ne.symm (away change (.head _))
      unfold freeWrite
      split
      · exact get?_insert_ne (FreeIdKey.new_ne ne)
      · exact get?_erase_ne (FreeIdKey.new_ne ne)
    · rw [state, tableState_freeWrite]

variable {allocator : PersistentIdAllocator} {reservations releases : List IrId}

theorem nextIndexAfter_spec (allocator : PersistentIdAllocator) (reservations : List IrId) :
    allocator.state.nextIndex ≤ allocator.nextIndexAfter reservations ∧
      ∀ id ∈ reservations, id.index < allocator.nextIndexAfter reservations := by
  unfold nextIndexAfter
  generalize allocator.state.nextIndex = start
  induction reservations generalizing start with
  | nil => simp
  | cons id reservations ih =>
    obtain ⟨le, lt⟩ := ih (max start (id.index + 1))
    refine ⟨le_trans (le_max_left _ _) le, fun other mem => ?_⟩
    rcases mem_cons.mp mem with rfl | mem
    · exact lt_of_lt_of_le (Nat.lt_succ_self _) (le_trans (le_max_right _ _) le)
    · exact lt other mem

/-- The free records after a transition: those of ids that were not reserved, and the next
generation of the released ones. -/
theorem appendTransition_spec {added removed : ℕ} {writes : List IdWrite}
    {state : TableIndexState} (stored : store.tableState = some allocator.state)
    (current : allocator.state = .new allocator.state.nextIndex allocator.state.live)
    (freeLt : ∀ id, Free store allocator.table id → id.index < allocator.state.nextIndex)
    (nodup : (releases.map Handle.index).Nodup)
    (apart : ∀ id ∈ releases, ∀ f, Free store allocator.table f → f.index = id.index →
      ∃ r ∈ reservations, r.index = f.index)
    (appended : allocator.appendTransition reservations releases added removed = some writes)
    (after : allocator.stateAfter reservations added removed = some state) :
    (writes.foldl IdStore.apply store).tableState = some state ∧
      ∀ f, Free (writes.foldl IdStore.apply store) allocator.table f ↔
        (Free store allocator.table f ∧ ∀ r ∈ reservations, r.index ≠ f.index) ∨
        ∃ id ∈ releases, f = id.bump := by
  unfold appendTransition at appended
  split at appended
  · rename_i nothing
    obtain ⟨rfl, rfl, rfl, rfl⟩ := nothing
    cases appended
    refine ⟨?_, fun f => by simp⟩
    have same : state = allocator.state := by
      simp only [stateAfter, nextIndexAfter, foldl_nil, Nat.zero_le, if_true, add_zero,
        Nat.sub_zero, Option.some.injEq] at after
      rw [← after, ← current]
    rw [same]
    exact stored
  · obtain ⟨free, changes, appended⟩ := bind_eq_some_iff.mp appended
    obtain ⟨state', after', eq⟩ := bind_eq_some_iff.mp appended
    cases after.symm.trans after'
    cases eq
    obtain ⟨released, untouched⟩ := foldlM_releases releases changes nodup
    obtain ⟨set, others, -⟩ := foldl_freeWrite allocator.table free.entries store free.sorted
    rw [foldl_append]
    refine ⟨rfl, fun f => ?_⟩
    change (List.foldl IdStore.apply store _).freeIds.get? _ = _ ↔ _
    by_cases isReleased : ∃ id ∈ releases, id.index = f.index
    · obtain ⟨id, mem, same⟩ := isReleased
      have change_ := set _ (get?_eq_some.mp (released id mem))
      rw [← same, change_]
      constructor
      · intro generation
        have generation := Option.some.inj generation
        refine .inr ⟨id, mem, ?_⟩
        cases f
        simp only [Handle.bump, Handle.mk.injEq]
        exact ⟨same.symm, generation.symm⟩
      · rintro (⟨isFree, unreserved⟩ | ⟨other, otherMem, rfl⟩)
        · obtain ⟨r, rMem, rSame⟩ := apart id mem f isFree same.symm
          exact absurd (rSame.trans same.symm) (unreserved r rMem)
        · rw [eq_of_index nodup mem otherMem same]
          rfl
    · have away : ∀ id ∈ releases, id.index ≠ f.index :=
        fun id mem same => isReleased ⟨id, mem, same⟩
      have notBumped : ¬ ∃ id ∈ releases, f = id.bump := by
        rintro ⟨id, mem, rfl⟩
        exact away id mem rfl
      have changed := untouched f.index away
      rw [foldl_reservations] at changed
      simp only [notBumped, or_false]
      by_cases isReserved : (∃ id ∈ reservations, id.index = f.index) ∧
          f.index < allocator.state.nextIndex
      · rw [if_pos isReserved] at changed
        rw [set _ (get?_eq_some.mp changed)]
        obtain ⟨⟨id, mem, same⟩, -⟩ := isReserved
        apply iff_of_false (by simp)
        rintro ⟨-, unreserved⟩
        exact unreserved id mem same
      · rw [if_neg isReserved] at changed
        have absent : ∀ x ∈ free.entries, x.1 ≠ f.index := by
          rintro ⟨i, v⟩ mem rfl
          rw [get?_eq_some.mpr mem] at changed
          cases changed
        rw [others _ absent]
        constructor
        · intro isFree
          refine ⟨isFree, fun r mem same => isReserved ⟨⟨r, mem, same⟩, freeLt f isFree⟩⟩
        · exact fun both => both.1

end PersistentIdAllocator

namespace PersistentIds

open PersistentIdAllocator

/-- What the ids of a persistent table keep: the store has the state of the allocator with the number
of live entities, its free records are those of the pool, and what is pending is valid. -/
structure Inv (table : PersistentIds) : Prop where
  stored : table.store.tableState = some table.allocator.state
  current : table.allocator.state = .new table.allocator.state.nextIndex table.live.length
  pool : Pool (Free table.store table.allocator.table) table.allocator.state.nextIndex
    table.live table.ever
  pending : PendingInv (Free table.store table.allocator.table) table.allocator.state.nextIndex
    table.allocator.pending

theorem inv_initialise (freeIds : OrdMap FreeIdKey ℕ) (table : ℕ)
    (none : ∀ index, freeIds.get? (FreeIdKey.new table index) = none) :
    Inv ⟨(initialise ⟨freeIds, Option.none⟩ table 0 0).1,
      (initialise ⟨freeIds, Option.none⟩ table 0 0).2, [], []⟩ := by
  refine ⟨rfl, rfl, Pool.empty.congr fun f => ?_, pendingInv_new _ _⟩
  have absent := none f.index
  simp only [Free, initialise, IdStore.apply, PersistentIdAllocator.new]
  rw [absent]
  simp

theorem Inv.reserve {table : PersistentIds} (inv : Inv table) {count : ℕ}
    {reservations : List IrId} {allocator : PersistentIdAllocator}
    (reserved : table.allocator.reserve table.store count = some (reservations, allocator)) :
    (∃ pending, allocator = { table.allocator with pending := pending } ∧
      PendingInv (Free table.store table.allocator.table) table.allocator.state.nextIndex pending) ∧
    (reservations.map Handle.index).Nodup ∧
    ∀ id ∈ reservations, Available (Free table.store table.allocator.table)
      table.allocator.state.nextIndex id := by
  obtain ⟨pending, eq, kept, rfl, -⟩ := reserve_inv inv.pending inv.pool.free_lt reserved
  refine ⟨⟨pending, eq, kept⟩, kept.nodup.sublist ((take_sublist _ _).map _), ?_⟩
  intro id mem
  exact kept.available ((take_sublist _ _).subset mem)

theorem Step.inv {table table' : PersistentIds} (step : Step table table') (inv : Inv table) :
    Inv table' := by
  cases step with
  | drop reserved =>
    obtain ⟨⟨pending, rfl, kept⟩, -⟩ := inv.reserve reserved
    exact ⟨inv.stored, inv.current, inv.pool, kept⟩
  | @commit count reservations releases allocator published writes cancelled released reserved
      chosen appended publishes =>
    obtain ⟨⟨pending, rfl, -⟩, nodup, available⟩ := inv.reserve reserved
    obtain ⟨state, after, eq⟩ := bind_eq_some_iff.mp publishes
    cases eq
    have releasesNodup : (releases.map Handle.index).Nodup := by
      apply (chosen.map Handle.index).nodup_iff.mpr
      rw [map_append]
      refine List.Nodup.append (nodup.sublist (filter_sublist.map _))
        (inv.pool.live_nodup.sublist (filter_sublist.map _)) ?_
      intro index inBatch inUse
      obtain ⟨id, idMem, rfl⟩ := List.mem_map.mp inBatch
      obtain ⟨l, lMem, same⟩ := List.mem_map.mp inUse
      exact inv.pool.available_apart (available id (mem_filter.mp idMem).1)
        (mem_filter.mp lMem).1 same
    have apart : ∀ id ∈ releases, ∀ f, Free table.store table.allocator.table f →
        f.index = id.index → ∃ r ∈ reservations, r.index = f.index := by
      intro id mem f isFree same
      rcases mem_append.mp (chosen.mem_iff.mp mem) with inBatch | inUse
      · exact ⟨id, (mem_filter.mp inBatch).1, same.symm⟩
      · exact absurd same.symm (inv.pool.free_dead f isFree id (mem_filter.mp inUse).1)
    have current : table.allocator.state =
        .new table.allocator.state.nextIndex table.allocator.state.live := by
      rw [inv.current]
      rfl
    obtain ⟨stored, frees⟩ := appendTransition_spec inv.stored current inv.pool.free_lt
      releasesNodup apart appended after
    have fields : state = .new (nextIndexAfter { table.allocator with pending := pending }
        reservations) (table.allocator.state.live +
          (reservations.filter (!cancelled ·)).length - (table.live.filter released).length) := by
      unfold stateAfter at after
      split at after
      · exact (Option.some.inj after).symm
      · cases after
    obtain ⟨le, lt⟩ :=
      nextIndexAfter_spec { table.allocator with pending := pending } reservations
    have next : state.nextIndex = nextIndexAfter { table.allocator with pending := pending }
        reservations := by rw [fields]; rfl
    have count_ : table.allocator.state.live = table.live.length := by
      rw [inv.current]
      rfl
    refine ⟨stored, ?_, ?_, pendingInv_new _ _⟩
    · rw [fields]
      have released_le := length_filter_le released table.live
      simp only [TableIndexState.new, TableIndexState.mk.injEq, true_and, length_append,
        length_filter_not, count_]
      omega
    · exact inv.pool.transition available nodup (by rw [next]; exact le)
        (fun id mem => by rw [next]; exact lt id mem) (fun f => by
          rw [frees f]
          simp only [chosen.mem_iff])
  | reload loaded =>
    unfold load at loaded
    have state : table.allocator.state.schema = 1 := by
      rw [inv.current]
      rfl
    rw [inv.stored] at loaded
    obtain rfl : PersistentIdAllocator.new table.allocator.table table.allocator.state = _ := by
      simpa [Option.filter, state] using loaded
    exact ⟨inv.stored, inv.current, inv.pool, pendingInv_new _ _⟩
  | foreign freeIds own =>
    have same : Free { table.store with freeIds := freeIds } table.allocator.table =
        Free table.store table.allocator.table := by
      funext id
      unfold Free
      rw [own id.index]
    refine ⟨inv.stored, inv.current, ?_, ?_⟩
    · rw [same]
      exact inv.pool
    · rw [same]
      exact inv.pending

/-- What the clients of a persistent table rely on: the ids of a batch differ from each other, from
those in use and from all that ever were in use; the free records are below the next index and apart
from the ids in use; and the number of live entities is recorded. -/
structure Safe (table : PersistentIds) : Prop where
  fresh : ∀ count reservations allocator,
    table.allocator.reserve table.store count = some (reservations, allocator) →
    reservations.Nodup ∧ ∀ id ∈ reservations, id ∉ table.live ∧ id ∉ table.ever
  free : ∀ index generation,
    table.store.freeIds.get? (FreeIdKey.new table.allocator.table index) = some generation →
    index < table.allocator.state.nextIndex ∧ ∀ id ∈ table.live, id.index ≠ index
  recorded : table.store.tableState =
    some (.new table.allocator.state.nextIndex table.live.length)
  live : table.live.Nodup ∧ ∀ id ∈ table.live, id ∈ table.ever

theorem Inv.safe {table : PersistentIds} (inv : Inv table) : Safe table := by
  refine ⟨fun count reservations allocator reserved => ?_, fun index generation isFree => ?_,
    inv.current ▸ inv.stored, inv.pool.live_nodup.of_map, inv.pool.live_ever⟩
  · obtain ⟨-, nodup, available⟩ := inv.reserve reserved
    exact ⟨nodup.of_map, fun id mem => inv.pool.available_unused (available id mem)⟩
  · exact ⟨inv.pool.free_lt ⟨index, generation⟩ isFree,
      inv.pool.free_dead ⟨index, generation⟩ isFree⟩

/-- A table without entities, whose store has no free records of it. -/
def initial (freeIds : OrdMap FreeIdKey ℕ) (table : ℕ) : PersistentIds :=
  ⟨(initialise ⟨freeIds, none⟩ table 0 0).1, (initialise ⟨freeIds, none⟩ table 0 0).2, [], []⟩

end PersistentIds

namespace TransientIds

/-- What the clients of a transient table rely on; the ids that a batch reserves are those that its
commit allocates. -/
structure Safe (table : TransientIds) : Prop where
  fresh : ∀ count reservations, table.allocator.reserve count = some reservations →
    reservations.Nodup ∧ (∀ id ∈ reservations, id ∉ table.live ∧ id ∉ table.ever) ∧
    (table.allocator.publishReservations reservations).isSome
  free : ∀ id ∈ table.allocator.freeIds, id.index < table.allocator.nextIndex ∧
    ∀ other ∈ table.live, other.index ≠ id.index
  live : table.live.Nodup ∧ ∀ id ∈ table.live, id ∈ table.ever

theorem Inv.safe {table : TransientIds} (inv : Inv table) : Safe table := by
  refine ⟨fun count reservations reserved => ?_, fun id mem =>
    ⟨inv.pool.free_lt id mem, inv.pool.free_dead id mem⟩, inv.pool.live_nodup.of_map,
    inv.pool.live_ever⟩
  obtain ⟨allocator, run, -, -, nodup, available, -⟩ :=
    IdAllocator.reserve_spec count reserved inv.fresh
  refine ⟨nodup.of_map, fun id mem => ?_, by rw [run]; rfl⟩
  exact inv.pool.available_unused (available id mem).1

end TransientIds

/-- In every run of batches, dropped or committed, and of reloads, no id stands for two entities: for
transient and for persistent tables. -/
theorem ids_never_reused :
    (∀ table, Relation.ReflTransGen Step ⟨.new, [], []⟩ table → table.Safe) ∧
    ∀ freeIds name, (∀ index, freeIds.get? (FreeIdKey.new name index) = none) →
      ∀ table, Relation.ReflTransGen PersistentIds.Step (PersistentIds.initial freeIds name) table →
        table.Safe := by
  constructor
  · intro table run
    have inv : TransientIds.Inv table := by
      induction run with
      | refl => exact inv_new
      | tail _ step ih => exact step.inv ih
    exact inv.safe
  · intro freeIds name none table run
    have inv : PersistentIds.Inv table := by
      induction run with
      | refl => exact PersistentIds.inv_initialise freeIds name none
      | tail _ step ih => exact step.inv ih
    exact inv.safe

/-- An entity is made and removed, and its index is handed out again with the next generation. -/
theorem ids_never_reused_index : ∃ table,
    Relation.ReflTransGen Step ⟨.new, [], []⟩ table ∧ table.ever = [⟨0, 0⟩] ∧
      table.allocator.reserve 2 = some [⟨0, 1⟩, ⟨1, 0⟩] ∧ table.Safe := by
  have made : Step ⟨.new, [], []⟩ ⟨⟨[], 1⟩, [⟨0, 0⟩], [⟨0, 0⟩]⟩ :=
    @TransientIds.Step.commit ⟨.new, [], []⟩ 1 [⟨0, 0⟩] [] ⟨[], 1⟩ (fun _ => false)
      (fun _ => false) rfl (by simp) rfl
  have removed : Step ⟨⟨[], 1⟩, [⟨0, 0⟩], [⟨0, 0⟩]⟩ ⟨⟨[⟨0, 1⟩], 1⟩, [], [⟨0, 0⟩]⟩ :=
    @TransientIds.Step.commit ⟨⟨[], 1⟩, [⟨0, 0⟩], [⟨0, 0⟩]⟩ 0 [] [⟨0, 0⟩] ⟨[⟨0, 1⟩], 1⟩
      (fun _ => false) (fun _ => true) rfl (by simp) rfl
  have run := (Relation.ReflTransGen.refl.tail made).tail removed
  exact ⟨_, run, rfl, rfl, ids_never_reused.1 _ run⟩

end Fugue.Ir
