import Fugue.Ir.IdAllocator

/-!
# The ids of transient tables

`IdAllocator` hands out its free ids from the last one on and then new indices. The ids that a batch
reserves are those that its commit allocates (`reserve_spec`), and every batch is a transition of the
pool of handles.
-/

namespace Fugue.Ir

open Fugue.Lib List

theorem length_filter_not {α : Type} (xs : List α) (p : α → Bool) :
    (xs.filter (!p ·)).length = xs.length - (xs.filter p).length := by
  have := length_eq_length_filter_add (l := xs) p
  omega

namespace IdAllocator

variable {allocator : IdAllocator}

/-- The allocator after its next allocation. -/
def taken (allocator : IdAllocator) : IdAllocator :=
  if allocator.freeIds = [] then { allocator with nextIndex := allocator.nextIndex + 1 }
  else { allocator with freeIds := allocator.freeIds.dropLast }

theorem allocate_eq : allocator.allocate =
    (allocator.pendingId 0).map fun id => (id, allocator.taken) := by
  unfold allocate pendingId taken
  rcases eq_nil_or_concat allocator.freeIds with empty | ⟨init, last, eq⟩
  · rw [empty]
    cases IrId.fromIndex allocator.nextIndex <;> rfl
  · rw [eq]
    simp

theorem pendingId_succ (offset : ℕ) :
    allocator.pendingId (offset + 1) = allocator.taken.pendingId offset := by
  unfold pendingId taken
  rcases eq_nil_or_concat allocator.freeIds with empty | ⟨init, last, eq⟩
  · rw [empty]
    simp [Nat.add_right_comm, Nat.add_assoc]
  · rw [concat_eq_append] at eq
    rw [eq]
    simp only [length_append, length_singleton, append_eq_nil_iff, cons_ne_nil,
      and_false, if_false, dropLast_concat]
    by_cases lt : offset < init.length
    · rw [if_pos (by omega), if_pos lt, getElem?_append_left (by omega)]
      congr 1
      omega
    · rw [if_neg (by omega), if_neg lt]
      congr 1
      omega

theorem reserve_succ (count : ℕ) : allocator.reserve (count + 1) = (do
    let id ← allocator.pendingId 0
    let ids ← allocator.taken.reserve count
    return id :: ids) := by
  unfold reserve
  rw [range_succ_eq_map, mapM_cons]
  have shift : (List.map Nat.succ (List.range count)).mapM allocator.pendingId =
      (List.range count).mapM allocator.taken.pendingId := by
    rw [mapM_map]
    exact congrArg (fun f => (List.range count).mapM f) (funext fun i => pendingId_succ i)
  rw [shift]

/-- What the allocator keeps: its free ids have different indices, below the next one. -/
structure Fresh (allocator : IdAllocator) : Prop where
  lt : ∀ id ∈ allocator.freeIds, id.index < allocator.nextIndex
  nodup : (allocator.freeIds.map Handle.index).Nodup

/-- The next id is the last free one or a new index. -/
theorem pendingId_cases (fresh : Fresh allocator) {id : IrId}
    (pending : allocator.pendingId 0 = some id) :
    (∃ init, allocator.freeIds = init ++ [id] ∧ allocator.taken = ⟨init, allocator.nextIndex⟩ ∧
      ∀ other ∈ init, other.index ≠ id.index) ∨
    (allocator.freeIds = [] ∧ allocator.taken = ⟨[], allocator.nextIndex + 1⟩ ∧
      id.index = allocator.nextIndex) := by
  unfold pendingId at pending
  unfold taken
  rcases eq_nil_or_concat allocator.freeIds with empty | ⟨init, last, eq⟩
  · rw [empty] at pending ⊢
    simp only [length_nil, lt_irrefl, if_false, add_zero, Nat.sub_zero,
      IrId.fromIndex] at pending
    split at pending
    · cases pending
      simp
    · cases pending
  · left
    rw [concat_eq_append] at eq
    rw [eq] at pending
    obtain rfl : last = id := by simpa using pending
    refine ⟨init, eq, by simp [eq], fun other mem same => ?_⟩
    have nodup := fresh.nodup
    rw [eq, map_append, map_singleton] at nodup
    exact (nodup_append.mp nodup).2.2 _ (mem_map_of_mem mem) _ (by simp) same

/-- The reservations of a batch are free ids or new ones, and they are what its commit allocates. -/
theorem reserve_spec : ∀ (count : ℕ) {allocator : IdAllocator} {reservations : List IrId},
    allocator.reserve count = some reservations → Fresh allocator →
    ∃ allocator', allocator.publishReservations reservations = some allocator' ∧
      Fresh allocator' ∧ allocator.nextIndex ≤ allocator'.nextIndex ∧
      (reservations.map Handle.index).Nodup ∧
      (∀ id ∈ reservations, (id ∈ allocator.freeIds ∨ allocator.nextIndex ≤ id.index) ∧
        id.index < allocator'.nextIndex) ∧
      ∀ f, f ∈ allocator'.freeIds ↔
        f ∈ allocator.freeIds ∧ ∀ id ∈ reservations, id.index ≠ f.index := by
  intro count
  induction count with
  | zero =>
    intro allocator reservations reserved fresh
    cases reserved
    exact ⟨allocator, rfl, fresh, le_rfl, by simp, by simp, by simp⟩
  | succ count ih =>
    intro allocator reservations reserved fresh
    rw [reserve_succ] at reserved
    obtain ⟨id, first, reserved⟩ := Option.bind_eq_some_iff.mp reserved
    obtain ⟨rest, later, eq⟩ := Option.bind_eq_some_iff.mp reserved
    obtain rfl : id :: rest = reservations := Option.some.inj eq
    have publishes : ∀ allocator', allocator.taken.publishReservations rest = some allocator' →
        allocator.publishReservations (id :: rest) = some allocator' := by
      simp [publishReservations, allocate_eq, first]
    rcases pendingId_cases fresh first with ⟨init, free, after, apart⟩ | ⟨free, after, new⟩
    · rw [after] at publishes later
      have fresh' : Fresh ⟨init, allocator.nextIndex⟩ := by
        refine ⟨fun other mem => fresh.lt other (by simp [free, mem]), ?_⟩
        have nodup := fresh.nodup
        rw [free, map_append] at nodup
        exact (nodup_append.mp nodup).1
      obtain ⟨allocator', run, kept, le, nodup, available, frees⟩ := ih later fresh'
      have idLt : id.index < allocator.nextIndex := fresh.lt id (by simp [free])
      have idApart : ∀ other ∈ rest, other.index ≠ id.index := by
        intro other mem same
        rcases (available other mem).1 with old | beyond
        · exact apart other old same
        · dsimp only at beyond
          omega
      refine ⟨allocator', publishes _ run, kept, le, ?_, ?_, fun f => ?_⟩
      · rw [map_cons, nodup_cons]
        refine ⟨fun mem => ?_, nodup⟩
        obtain ⟨other, mem, same⟩ := mem_map.mp mem
        exact idApart other mem same
      · intro other mem
        rcases mem_cons.mp mem with rfl | mem
        · exact ⟨.inl (by simp [free]), lt_of_lt_of_le idLt le⟩
        · obtain ⟨source, lt⟩ := available other mem
          exact ⟨source.imp (fun old => by simp [free, old]) (fun beyond => beyond), lt⟩
      · rw [frees f, free, mem_append, mem_singleton, forall_mem_cons]
        constructor
        · rintro ⟨mem, others⟩
          exact ⟨.inl mem, fun same => apart f mem same.symm, others⟩
        · rintro ⟨mem | rfl, ne, others⟩
          · exact ⟨mem, others⟩
          · exact absurd rfl ne
    · rw [after] at publishes later
      have fresh' : Fresh ⟨[], allocator.nextIndex + 1⟩ := ⟨by simp, by simp⟩
      obtain ⟨allocator', run, kept, le, nodup, available, frees⟩ := ih later fresh'
      have beyond : ∀ other ∈ rest, allocator.nextIndex + 1 ≤ other.index :=
        fun other mem => (available other mem).1.resolve_left (by simp)
      refine ⟨allocator', publishes _ run, kept, Nat.le_of_succ_le le, ?_, ?_, fun f => ?_⟩
      · rw [map_cons, nodup_cons]
        refine ⟨fun mem => ?_, nodup⟩
        obtain ⟨other, mem, same⟩ := mem_map.mp mem
        have := beyond other mem
        omega
      · intro other mem
        rcases mem_cons.mp mem with rfl | mem
        · exact ⟨.inr new.ge, by dsimp only at le; omega⟩
        · exact ⟨.inr (Nat.le_of_succ_le (beyond other mem)), (available other mem).2⟩
      · rw [frees f, free]
        simp

theorem foldlM_release : ∀ (releases : List IrId) {allocator allocator' : IdAllocator},
    releases.foldlM release allocator = some allocator' →
    allocator'.freeIds = allocator.freeIds ++ releases.map Handle.bump ∧
      allocator'.nextIndex = allocator.nextIndex := by
  intro releases
  induction releases with
  | nil =>
    intro allocator allocator' run
    cases run
    simp
  | cons id releases ih =>
    intro allocator allocator' run
    obtain ⟨next, released, run⟩ := Option.bind_eq_some_iff.mp run
    unfold release IrId.nextGeneration at released
    split at released
    · cases released
      obtain ⟨free, index⟩ := ih run
      exact ⟨by simp [free], index⟩
    · cases released

end IdAllocator

namespace TransientIds

/-- What the ids of a transient table keep. -/
structure Inv (table : TransientIds) : Prop where
  fresh : table.allocator.Fresh
  pool : Pool (· ∈ table.allocator.freeIds) table.allocator.nextIndex table.live table.ever

theorem inv_new : Inv ⟨.new, [], []⟩ := by
  refine ⟨⟨by simp [IdAllocator.new], by simp [IdAllocator.new]⟩, ?_⟩
  exact Pool.empty.congr fun f => by simp [IdAllocator.new]

theorem Step.inv {table table' : TransientIds} (step : Step table table') (inv : Inv table) :
    Inv table' := by
  obtain ⟨cancelled, released, reserved, chosen, committed⟩ := step
  rename_i count reservations releases allocator
  obtain ⟨published, run, kept, le, nodup, available, frees⟩ :=
    IdAllocator.reserve_spec count reserved inv.fresh
  unfold IdAllocator.commit at committed
  rw [run] at committed
  obtain ⟨free, next⟩ := IdAllocator.foldlM_release releases committed
  have pool : Pool (· ∈ allocator.freeIds) allocator.nextIndex
      (table.live.filter (!released ·) ++ reservations.filter (!cancelled ·))
      (table.ever ++ reservations.filter (!cancelled ·)) := inv.pool.transition
    (fun id mem => (available id mem).1) nodup (by rw [next]; exact le)
    (fun id mem => by rw [next]; exact (available id mem).2) (fun f => by
      rw [free, mem_append, frees f]
      simp only [mem_map, chosen.mem_iff, eq_comm])
  refine ⟨⟨pool.free_lt, ?_⟩, pool⟩
  -- the ids that become free differ from those that are still free and from each other
  rw [free, map_append, map_map]
  apply List.Nodup.append kept.nodup
  · have perm := (chosen.map Handle.index).nodup_iff
    apply perm.mpr
    rw [map_append]
    refine List.Nodup.append (nodup.sublist (filter_sublist.map _))
      (inv.pool.live_nodup.sublist (filter_sublist.map _)) ?_
    intro index inBatch inUse
    obtain ⟨id, idMem, rfl⟩ := mem_map.mp inBatch
    obtain ⟨l, lMem, same⟩ := mem_map.mp inUse
    exact inv.pool.available_apart (available id (mem_filter.mp idMem).1).1
      (mem_filter.mp lMem).1 same
  · intro index stillFree becomesFree
    obtain ⟨f, fMem, rfl⟩ := mem_map.mp stillFree
    obtain ⟨h, hMem, same⟩ := mem_map.mp becomesFree
    obtain ⟨fFree, untouched⟩ := (frees f).mp fMem
    rcases mem_append.mp (chosen.mem_iff.mp hMem) with inBatch | inUse
    · exact untouched h (mem_filter.mp inBatch).1 same
    · exact inv.pool.free_dead f fFree h (mem_filter.mp inUse).1 same

end TransientIds

end Fugue.Ir
