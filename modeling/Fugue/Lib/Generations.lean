import Mathlib

/-!
# Generational handles

Indices are handed out again after their entity is gone, but each time with a higher generation, so
that a handle never stands for two entities. `Pool` is what such a scheme keeps: the free handles are
newer than every handle of their index that was ever in use. `Pool.transition` is one batch: some
reserved handles come into use, the others of the batch and some of those in use become free with
the next generation.
-/

namespace Fugue.Lib

open List

structure Handle where
  index : ℕ
  generation : ℕ
  deriving DecidableEq, Repr

/-- The handle of the same index with the next generation. -/
def Handle.bump (h : Handle) : Handle := ⟨h.index, h.generation + 1⟩

/-- The handles that are free, in use, and were ever in use, with indices below `next`. -/
structure Pool (free : Handle → Prop) (next : ℕ) (live ever : List Handle) : Prop where
  free_lt : ∀ f, free f → f.index < next
  free_unique : ∀ f f', free f → free f' → f.index = f'.index → f = f'
  free_dead : ∀ f, free f → ∀ l ∈ live, l.index ≠ f.index
  free_newer : ∀ f, free f → ∀ e ∈ ever, e.index = f.index → e.generation < f.generation
  live_nodup : (live.map Handle.index).Nodup
  live_ever : ∀ l ∈ live, l ∈ ever
  live_newest : ∀ l ∈ live, ∀ e ∈ ever, e.index = l.index → e.generation ≤ l.generation
  ever_lt : ∀ e ∈ ever, e.index < next

/-- A handle that may be handed out: a free one, or one with a new index. -/
def Available (free : Handle → Prop) (next : ℕ) (h : Handle) : Prop := free h ∨ next ≤ h.index

theorem eq_of_index {hs : List Handle} (nodup : (hs.map Handle.index).Nodup) {h h' : Handle}
    (mem : h ∈ hs) (mem' : h' ∈ hs) (same : h.index = h'.index) : h = h' :=
  inj_on_of_nodup_map nodup mem mem' same

namespace Pool

variable {free free' : Handle → Prop} {next next' : ℕ} {live ever : List Handle}

theorem empty : Pool (fun _ => False) next [] [] := by
  constructor <;> simp

variable (pool : Pool free next live ever)
include pool

theorem congr (same : ∀ f, free' f ↔ free f) :
    Pool free' next live ever := by
  obtain rfl : free' = free := funext fun f => propext (same f)
  exact pool

/-- A handle that is handed out was never in use. -/
theorem available_unused {h : Handle}
    (available : Available free next h) : h ∉ live ∧ h ∉ ever := by
  have unused : h ∉ ever := by
    intro mem
    rcases available with isFree | new
    · exact lt_irrefl _ (pool.free_newer h isFree h mem rfl)
    · exact absurd (pool.ever_lt h mem) new.not_gt
  exact ⟨fun mem => unused (pool.live_ever h mem), unused⟩

/-- A handle that is handed out has no index in use. -/
theorem available_apart {h l : Handle}
    (available : Available free next h) (mem : l ∈ live) : l.index ≠ h.index := by
  rcases available with isFree | new
  · exact pool.free_dead h isFree l mem
  · have := pool.ever_lt l (pool.live_ever l mem)
    omega

/-- A handle that is handed out is newer than those of its index before it. -/
theorem available_newer {h e : Handle}
    (available : Available free next h) (mem : e ∈ ever) (same : e.index = h.index) :
    e.generation < h.generation := by
  rcases available with isFree | new
  · exact pool.free_newer h isFree e mem same
  · have := pool.ever_lt e mem
    omega

variable {reserved : List Handle} {cancelled released : Handle → Bool}

theorem transition (available : ∀ h ∈ reserved, Available free next h)
    (nodup : (reserved.map Handle.index).Nodup) (le : next ≤ next')
    (lt : ∀ h ∈ reserved, h.index < next')
    (frees : ∀ f, free' f ↔ (free f ∧ ∀ h ∈ reserved, h.index ≠ f.index) ∨
      ∃ h ∈ reserved.filter cancelled ++ live.filter released, f = h.bump) :
    Pool free' next' (live.filter (!released ·) ++ reserved.filter (!cancelled ·))
      (ever ++ reserved.filter (!cancelled ·)) := by
  have reserved_eq : ∀ {h h'}, h ∈ reserved → h' ∈ reserved → h.index = h'.index → h = h' :=
    fun mem mem' => eq_of_index nodup mem mem'
  have live_eq : ∀ {l l'}, l ∈ live → l' ∈ live → l.index = l'.index → l = l' :=
    fun mem mem' => eq_of_index pool.live_nodup mem mem'
  have apart : ∀ {h l}, h ∈ reserved → l ∈ live → l.index ≠ h.index :=
    fun mem mem' => pool.available_apart (available _ mem) mem'
  -- a handle that becomes free: of the batch and cancelled, or in use and released
  have split : ∀ {f}, free' f → (free f ∧ ∀ h ∈ reserved, h.index ≠ f.index) ∨
      (∃ h ∈ reserved, cancelled h = true ∧ f = h.bump) ∨
      ∃ l ∈ live, released l = true ∧ f = l.bump := by
    intro f isFree
    rcases (frees f).mp isFree with old | ⟨h, mem, eq⟩
    · exact .inl old
    · rcases mem_append.mp mem with inBatch | inUse
      · obtain ⟨mem, flag⟩ := mem_filter.mp inBatch
        exact .inr (.inl ⟨h, mem, flag, eq⟩)
      · obtain ⟨mem, flag⟩ := mem_filter.mp inUse
        exact .inr (.inr ⟨h, mem, flag, eq⟩)
  have kept : ∀ {l}, l ∈ live.filter (!released ·) ++ reserved.filter (!cancelled ·) →
      (l ∈ live ∧ released l = false) ∨ (l ∈ reserved ∧ cancelled l = false) := by
    intro l mem
    rcases mem_append.mp mem with old | new
    · exact .inl (by simpa using mem_filter.mp old)
    · exact .inr (by simpa using mem_filter.mp new)
  have known : ∀ {e}, e ∈ ever ++ reserved.filter (!cancelled ·) →
      e ∈ ever ∨ (e ∈ reserved ∧ cancelled e = false) := by
    intro e mem
    rcases mem_append.mp mem with old | new
    · exact .inl old
    · exact .inr (by simpa using mem_filter.mp new)
  have live_lt : ∀ {l}, l ∈ live → l.index < next :=
    fun mem => pool.ever_lt _ (pool.live_ever _ mem)
  refine ⟨?_, ?_, ?_, ?_, ?_, ?_, ?_, ?_⟩
  · intro f isFree
    rcases split isFree with ⟨old, -⟩ | ⟨h, mem, -, rfl⟩ | ⟨l, mem, -, rfl⟩
    · exact lt_of_lt_of_le (pool.free_lt f old) le
    · exact lt h mem
    · have := live_lt mem
      exact lt_of_lt_of_le this le
  · intro f f' isFree isFree' same
    rcases split isFree with ⟨old, untouched⟩ | ⟨h, mem, -, rfl⟩ | ⟨l, mem, -, rfl⟩ <;>
      rcases split isFree' with ⟨old', untouched'⟩ | ⟨h', mem', -, rfl⟩ | ⟨l', mem', -, rfl⟩
    · exact pool.free_unique f f' old old' same
    · exact absurd same.symm (untouched h' mem')
    · exact absurd same.symm (pool.free_dead f old l' mem')
    · exact absurd same (untouched' h mem)
    · rw [reserved_eq mem mem' same]
    · exact (apart mem mem' same.symm).elim
    · exact absurd same (pool.free_dead f' old' l mem)
    · exact (apart mem' mem same).elim
    · rw [live_eq mem mem' same]
  · intro f isFree l mem same
    rcases split isFree with ⟨old, untouched⟩ | ⟨h, hMem, flag, rfl⟩ | ⟨l', lMem, flag, rfl⟩ <;>
      rcases kept mem with ⟨inUse, flag'⟩ | ⟨inBatch, flag'⟩
    · exact pool.free_dead f old l inUse same
    · exact untouched l inBatch same
    · exact apart hMem inUse same
    · rw [reserved_eq inBatch hMem same, flag] at flag'
      cases flag'
    · rw [live_eq inUse lMem same, flag] at flag'
      cases flag'
    · exact apart inBatch lMem same.symm
  · intro f isFree e mem same
    rcases split isFree with ⟨old, untouched⟩ | ⟨h, hMem, flag, rfl⟩ | ⟨l, lMem, flag, rfl⟩ <;>
      rcases known mem with before | ⟨inBatch, flag'⟩
    · exact pool.free_newer f old e before same
    · exact absurd same (untouched e inBatch)
    · exact Nat.lt_succ_of_lt (pool.available_newer (available h hMem) before same)
    · rw [reserved_eq inBatch hMem same, flag] at flag'
      cases flag'
    · exact Nat.lt_succ_of_le (pool.live_newest l lMem e before same)
    · exact (apart inBatch lMem same.symm).elim
  · rw [map_append]
    apply List.Nodup.append
    · exact pool.live_nodup.sublist (filter_sublist.map _)
    · exact nodup.sublist (filter_sublist.map _)
    · intro index inUse inBatch
      obtain ⟨l, lMem, rfl⟩ := mem_map.mp inUse
      obtain ⟨h, hMem, same⟩ := mem_map.mp inBatch
      exact apart (mem_filter.mp hMem).1 (mem_filter.mp lMem).1 same.symm
  · intro l mem
    rcases mem_append.mp mem with old | new
    · exact mem_append_left _ (pool.live_ever l (mem_filter.mp old).1)
    · exact mem_append_right _ new
  · intro l mem e eMem same
    rcases kept mem with ⟨inUse, -⟩ | ⟨inBatch, -⟩ <;>
      rcases known eMem with before | ⟨inBatch', -⟩
    · exact pool.live_newest l inUse e before same
    · exact absurd same.symm (apart inBatch' inUse)
    · exact (pool.available_newer (available l inBatch) before same).le
    · rw [reserved_eq inBatch' inBatch same]
  · intro e mem
    rcases known mem with before | ⟨inBatch, -⟩
    · exact lt_of_lt_of_le (pool.ever_lt e before) le
    · exact lt e inBatch

end Pool

end Fugue.Lib
