import Fugue.Storage.Entities.WriteBack

/-!
# The pending writes and the store

A key with a pending entry has the client's last value there, and every other key has it in the
store. A snapshot of the worker may be older than the pending entry of its key, never newer, and a
pending entry is removed only if the store holds its value.
-/

namespace Fugue.Storage.Entities

open Fugue.Lib List Function OrdMap Data

universe u v

variable {K : Type u} {V : Type v} [LinearOrder K] {data : Data K V}

/-- The pending writes, the store and the client's view fit. -/
structure Data.Ok (data : Data K V) : Prop where
  current : ∀ k entry, data.pending.get? k = some entry →
    entry.value = data.view k ∧ entry.time = data.written k ∧ entry.seq < data.seq
  stable : ∀ k, data.pending.get? k = none →
    data.store.get? k = data.view k ∧ data.stored k = data.written k
  bounded : ∀ k, data.stored k ≤ data.written k ∧ data.written k ≤ data.time

/-- A write that the worker has read and not yet committed. -/
def Data.Captured (data : Data K V) (write : PendingWrite K V) : Prop :=
  ∃ entry, data.pending.get? write.key = some entry ∧ write.seq ≤ entry.seq ∧
    write.time ≤ entry.time ∧ data.stored write.key ≤ write.time ∧
    (write.seq = entry.seq → write.value = entry.value ∧ write.time = entry.time)

/-- A write that the worker has committed and not yet removed. -/
def Data.Committed (data : Data K V) (write : PendingWrite K V) : Prop :=
  ∃ entry, data.pending.get? write.key = some entry ∧ write.seq ≤ entry.seq ∧
    (write.seq = entry.seq →
      data.store.get? write.key = entry.value ∧ data.stored write.key = entry.time)

/-- Every pending entry is still to be read, or has been read as it is. -/
def Data.Complete (data : Data K V) (keys : List K) (writes : List (PendingWrite K V)) : Prop :=
  ∀ k entry, data.pending.get? k = some entry →
    k ∈ keys ∨ ∃ write ∈ writes, write.key = k ∧ write.seq = entry.seq

def Worker.Ok (data : Data K V) : Worker K V → Prop
  | .idle | .stopped => True
  | .collecting rest snapshot after =>
    (rest ++ snapshot.map PendingWrite.key).Nodup ∧ (∀ write ∈ snapshot, data.Captured write) ∧
      (after ≠ .resume → data.Complete rest snapshot)
  | .clearing rest after =>
    (rest.map PendingWrite.key).Nodup ∧ (∀ write ∈ rest, data.Committed write) ∧
      (after ≠ .resume → data.Complete [] rest)

def Worker.after? : Worker K V → Option After
  | .idle | .stopped => none
  | .collecting _ _ after | .clearing _ after => some after

/-- A change by the worker: the client's view stays, and no pending entry is new. -/
structure Data.Shrinks (data data' : Data K V) : Prop where
  view : data'.view = data.view
  pending : ∀ k, data.pending.get? k = none → data'.pending.get? k = none

/-! ## Writes of the client -/

theorem Data.Ok.enqueue (ok : data.Ok) (write : KeyWrite K V) : (data.enqueue write).Ok where
  current k entry found := by
    unfold Data.enqueue at found ⊢
    dsimp only at found ⊢
    by_cases same : k = write.key
    · subst same
      rw [get?_insert_self] at found
      cases found
      simp
    · rw [get?_insert_ne same] at found
      obtain ⟨value, time, seq⟩ := ok.current k entry found
      rw [update_of_ne same, update_of_ne same]
      exact ⟨value, time, seq.trans (Nat.lt_succ_self _)⟩
  stable k missing := by
    unfold Data.enqueue at missing ⊢
    dsimp only at missing ⊢
    by_cases same : k = write.key
    · subst same
      rw [get?_insert_self] at missing
      cases missing
    · rw [get?_insert_ne same] at missing
      rw [update_of_ne same, update_of_ne same]
      exact ok.stable k missing
  bounded k := by
    unfold Data.enqueue
    dsimp only
    obtain ⟨stored, written⟩ := ok.bounded k
    by_cases same : k = write.key
    · subst same
      rw [update_self]
      omega
    · rw [update_of_ne same]
      omega

theorem Data.Captured.enqueue (ok : data.Ok) {write : PendingWrite K V}
    (captured : data.Captured write) (newer : KeyWrite K V) :
    (data.enqueue newer).Captured write := by
  obtain ⟨entry, found, seq, time, stored, same⟩ := captured
  obtain ⟨-, written, older⟩ := ok.current _ entry found
  have bound := (ok.bounded write.key).2
  unfold Data.Captured Data.enqueue
  by_cases sameKey : write.key = newer.key
  · rw [← sameKey, get?_insert_self]
    refine ⟨_, rfl, ?_, ?_, stored, fun equal => ?_⟩
    · exact (seq.trans_lt older).le
    · exact ((time.trans written.le).trans bound).trans (Nat.le_succ _)
    · exact absurd equal (seq.trans_lt older).ne
  · rw [get?_insert_ne sameKey]
    exact ⟨entry, found, seq, time, stored, same⟩

theorem Data.Committed.enqueue (ok : data.Ok) {write : PendingWrite K V}
    (committed : data.Committed write) (newer : KeyWrite K V) :
    (data.enqueue newer).Committed write := by
  obtain ⟨entry, found, seq, same⟩ := committed
  obtain ⟨-, -, older⟩ := ok.current _ entry found
  unfold Data.Committed Data.enqueue
  by_cases sameKey : write.key = newer.key
  · rw [← sameKey, get?_insert_self]
    exact ⟨_, rfl, (seq.trans_lt older).le, fun equal => absurd equal (seq.trans_lt older).ne⟩
  · rw [get?_insert_ne sameKey]
    exact ⟨entry, found, seq, same⟩

/-- The client writes only while the worker does not commit everything. -/
theorem Worker.Ok.enqueue (ok : data.Ok) {worker : Worker K V} (workerOk : worker.Ok data)
    (newer : KeyWrite K V) (resumes : ∀ after, worker.after? = some after → after = .resume) :
    worker.Ok (data.enqueue newer) := by
  cases worker with
  | idle => trivial
  | stopped => trivial
  | collecting rest snapshot after =>
    obtain ⟨distinct, captured, -⟩ := workerOk
    exact ⟨distinct, fun write mem => (captured write mem).enqueue ok newer,
      fun other => absurd (resumes _ rfl) other⟩
  | clearing rest after =>
    obtain ⟨distinct, committed, -⟩ := workerOk
    exact ⟨distinct, fun write mem => (committed write mem).enqueue ok newer,
      fun other => absurd (resumes _ rfl) other⟩

/-- With nothing pending, the client may write to the store. -/
theorem Data.Ok.direct (ok : data.Ok) (nothing : ∀ k, data.pending.get? k = none)
    (writes : List (KeyWrite K V)) : (data.direct writes).Ok where
  current k entry found := by
    have missing : (data.direct writes).pending.get? k = none := nothing k
    rw [missing] at found
    cases found
  stable k _ := by
    have same : data.store.get? = data.view := funext fun k => (ok.stable k (nothing k)).1
    unfold Data.direct
    dsimp only
    rw [get?_writeAll, same, (ok.stable k (nothing k)).2]
    exact ⟨rfl, rfl⟩
  bounded k := by
    unfold Data.direct
    dsimp only
    obtain ⟨stored, written⟩ := ok.bounded k
    split <;> omega

theorem Worker.Ok.of_nothing {worker : Worker K V} (workerOk : worker.Ok data)
    (nothing : ∀ k, data.pending.get? k = none) {data' : Data K V}
    (nothing' : ∀ k, data'.pending.get? k = none) : worker.Ok data' := by
  have complete : ∀ keys writes, data'.Complete keys writes := fun keys writes k entry found => by
    rw [nothing' k] at found
    cases found
  cases worker with
  | idle => trivial
  | stopped => trivial
  | collecting rest snapshot after =>
    obtain ⟨distinct, captured, -⟩ := workerOk
    refine ⟨distinct, fun write mem => ?_, fun _ => complete _ _⟩
    obtain ⟨entry, found, -⟩ := captured write mem
    rw [nothing] at found
    cases found
  | clearing rest after =>
    obtain ⟨distinct, committed, -⟩ := workerOk
    refine ⟨distinct, fun write mem => ?_, fun _ => complete _ _⟩
    obtain ⟨entry, found, -⟩ := committed write mem
    rw [nothing] at found
    cases found

/-! ## Steps of the worker -/

theorem Worker.Ok.start {keys : List K} (distinct : keys.Nodup) {after : After}
    (complete : after ≠ .resume → ∀ k entry, data.pending.get? k = some entry → k ∈ keys) :
    (Worker.collecting keys [] after : Worker K V).Ok data := by
  refine ⟨by simpa using distinct, fun write mem => ?_, fun all k entry found => ?_⟩
  · cases mem
  · exact .inl (complete all k entry found)

theorem Worker.Ok.collect (ok : data.Ok) {key : K} {rest : List K}
    {snapshot : List (PendingWrite K V)} {after : After}
    (workerOk : (Worker.collecting (key :: rest) snapshot after).Ok data) :
    (Worker.collecting rest (snapshot ++ (data.snapshotOf key).toList) after).Ok data := by
  obtain ⟨distinct, captured, complete⟩ := workerOk
  cases found : data.pending.get? key with
  | none =>
    have nothing : data.snapshotOf key = none := by simp [snapshotOf, found]
    rw [nothing, Option.toList_none, append_nil]
    refine ⟨(nodup_cons.mp distinct).2, captured, fun all k entry here => ?_⟩
    rcases complete all k entry here with mem | read
    · rcases mem_cons.mp mem with rfl | mem
      · rw [found] at here
        cases here
      · exact .inl mem
    · exact .inr read
  | some entry =>
    have read : data.snapshotOf key = some ⟨key, entry.value, entry.seq, entry.time⟩ := by
      simp [snapshotOf, found]
    obtain ⟨-, time, -⟩ := ok.current key entry found
    rw [read, Option.toList_some]
    refine ⟨?_, fun write mem => ?_, fun all k other here => ?_⟩
    · have perm : (rest ++ (snapshot.map PendingWrite.key ++ [key])).Perm
          (key :: (rest ++ snapshot.map PendingWrite.key)) := by
        rw [← append_assoc]
        exact perm_append_singleton _ _
      rw [map_append]
      exact perm.nodup_iff.mpr distinct
    · rcases mem_append.mp mem with before | here
      · exact captured write before
      · rw [mem_singleton.mp here]
        refine ⟨entry, found, le_rfl, le_rfl, ?_, fun _ => ⟨rfl, rfl⟩⟩
        rw [time]
        exact (ok.bounded key).1
    · rcases complete all k other here with mem | ⟨write, mem, same⟩
      · rcases mem_cons.mp mem with rfl | mem
        · rw [found] at here
          cases here
          exact .inr ⟨_, mem_append_right _ (mem_singleton_self _), rfl, rfl⟩
        · exact .inl mem
      · exact .inr ⟨write, mem_append_left _ mem, same⟩

section Commit

variable {snapshot : List (PendingWrite K V)}

theorem Data.commit_of_ne (data : Data K V) {k : K} (absent : ∀ write ∈ snapshot, write.key ≠ k) :
    (data.commit snapshot).store.get? k = data.store.get? k ∧
      (data.commit snapshot).stored k = data.stored k := by
  constructor
  · unfold commit
    rw [get?_writeAll, applyWrites_of_untouched]
    intro write mem
    obtain ⟨pending, inside, rfl⟩ := mem_map.mp mem
    exact absent pending inside
  · have missing : (snapshot.find? fun write => decide (write.key = k)) = none :=
      find?_eq_none.mpr fun write mem => by simpa using absent write mem
    simp [commit, missing]

theorem Data.commit_of_mem (data : Data K V) (distinct : (snapshot.map PendingWrite.key).Nodup)
    {write : PendingWrite K V} (mem : write ∈ snapshot) :
    (data.commit snapshot).store.get? write.key = write.value ∧
      (data.commit snapshot).stored write.key = write.time := by
  have unique : ∀ other ∈ snapshot, other.key = write.key → other = write :=
    fun other inside same => inj_on_of_nodup_map distinct inside mem same
  constructor
  · unfold commit
    rw [get?_writeAll]
    have agree : Agree (snapshot.map fun other => (⟨other.key, other.value⟩ : KeyWrite K V)) := by
      intro x xMem y yMem same
      obtain ⟨x, inside, rfl⟩ := mem_map.mp xMem
      obtain ⟨y, inside', rfl⟩ := mem_map.mp yMem
      rw [inj_on_of_nodup_map distinct inside inside' same]
    exact applyWrites_of_agree agree (mem_map.mpr ⟨write, mem, rfl⟩)
  · have found : (snapshot.find? fun other => decide (other.key = write.key)) = some write := by
      cases here : snapshot.find? fun other => decide (other.key = write.key) with
      | none => simpa using find?_eq_none.mp here write mem
      | some other =>
        rw [unique other (mem_of_find?_eq_some here) (by simpa using find?_some here)]
    simp [commit, found]

theorem Data.Ok.commit (ok : data.Ok) (distinct : (snapshot.map PendingWrite.key).Nodup)
    (captured : ∀ write ∈ snapshot, data.Captured write) : (data.commit snapshot).Ok where
  current := ok.current
  stable k missing := by
    have absent : ∀ write ∈ snapshot, write.key ≠ k := by
      rintro write mem rfl
      obtain ⟨entry, found, -⟩ := captured write mem
      have missing : data.pending.get? write.key = none := missing
      rw [missing] at found
      cases found
    obtain ⟨store, stored⟩ := data.commit_of_ne absent
    rw [store, stored]
    exact ok.stable k missing
  bounded k := by
    by_cases present : ∃ write ∈ snapshot, write.key = k
    · obtain ⟨write, mem, rfl⟩ := present
      obtain ⟨entry, found, -, time, -⟩ := captured write mem
      rw [(data.commit_of_mem distinct mem).2]
      exact ⟨time.trans (ok.current _ entry found).2.1.le, (ok.bounded _).2⟩
    · rw [(data.commit_of_ne fun write mem same => present ⟨write, mem, same⟩).2]
      exact ok.bounded k

/-- A commit does not put an older value in the place of a newer one. -/
theorem Data.stored_le_commit (distinct : (snapshot.map PendingWrite.key).Nodup)
    (captured : ∀ write ∈ snapshot, data.Captured write) (k : K) :
    data.stored k ≤ (data.commit snapshot).stored k := by
  by_cases present : ∃ write ∈ snapshot, write.key = k
  · obtain ⟨write, mem, rfl⟩ := present
    obtain ⟨entry, -, -, -, stored, -⟩ := captured write mem
    rw [(data.commit_of_mem distinct mem).2]
    exact stored
  · rw [(data.commit_of_ne fun write mem same => present ⟨write, mem, same⟩).2]

theorem Worker.Ok.commit {after : After} (workerOk : (Worker.collecting [] snapshot after).Ok data) :
    (Worker.clearing snapshot after).Ok (data.commit snapshot) := by
  obtain ⟨distinct, captured, complete⟩ := workerOk
  refine ⟨distinct, fun write mem => ?_, complete⟩
  obtain ⟨entry, found, seq, -, -, same⟩ := captured write mem
  obtain ⟨store, stored⟩ := data.commit_of_mem distinct mem
  refine ⟨entry, found, seq, fun equal => ?_⟩
  rw [store, stored]
  exact same equal

theorem Data.shrinks_commit : data.Shrinks (data.commit snapshot) := ⟨rfl, fun _ missing => missing⟩

end Commit

section Clear

theorem Data.get?_clear (data : Data K V) (write : PendingWrite K V) (k : K) :
    (data.clear write).pending.get? k =
      if k = write.key ∧ (data.pending.get? k).any fun entry => decide (entry.seq = write.seq)
      then none else data.pending.get? k := by
  unfold clear
  by_cases sameKey : k = write.key
  · subst sameKey
    cases found : data.pending.get? write.key with
    | none => simp [found]
    | some entry =>
      by_cases same : entry.seq = write.seq
      · simp only [same, if_true, true_and, Option.any_some, decide_true]
        exact get?_eq_none.mpr fun _ mem => (mem_erase.mp mem).2 rfl
      · simp [same, found]
  · rw [if_neg fun both => sameKey both.1]
    split
    · split
      · exact get?_erase_ne sameKey
      · rfl
    · rfl

/-- A removal changes the pending entries only. -/
theorem Data.clear_eq (data : Data K V) (write : PendingWrite K V) :
    data.clear write = { data with pending := (data.clear write).pending } := by
  unfold clear
  split
  · split <;> rfl
  · rfl

variable {write : PendingWrite K V}

theorem Data.clear_of_ne {k : K} (ne : k ≠ write.key) :
    (data.clear write).pending.get? k = data.pending.get? k := by
  rw [data.get?_clear, if_neg fun both => ne both.1]

theorem Data.of_clear {k : K} {entry : PendingEntry V}
    (found : (data.clear write).pending.get? k = some entry) :
    data.pending.get? k = some entry ∧ (k = write.key → entry.seq ≠ write.seq) := by
  rw [data.get?_clear] at found
  split at found
  · cases found
  · rename_i kept
    refine ⟨found, fun sameKey same => kept ⟨sameKey, ?_⟩⟩
    simp [found, same]

theorem Data.shrinks_clear : data.Shrinks (data.clear write) where
  view := by rw [data.clear_eq]
  pending k missing := by
    rw [data.get?_clear, missing]
    split <;> rfl

theorem Data.Ok.clear (ok : data.Ok) (committed : data.Committed write) :
    (data.clear write).Ok where
  current k entry found := by
    have same := data.clear_eq write
    rw [same]
    exact ok.current k entry (of_clear found).1
  stable k missing := by
    have same := data.clear_eq write
    rw [same]
    rw [data.get?_clear] at missing
    split at missing
    · rename_i removed
      obtain ⟨rfl, sameSeq⟩ := removed
      obtain ⟨entry, found, -, kept⟩ := committed
      rw [found, Option.any_some, decide_eq_true_eq] at sameSeq
      obtain ⟨value, time, -⟩ := ok.current _ entry found
      rw [← value, ← time]
      exact kept sameSeq.symm
    · exact ok.stable k missing
  bounded k := by
    rw [data.clear_eq]
    exact ok.bounded k

theorem Worker.Ok.clear {rest : List (PendingWrite K V)} {after : After}
    (workerOk : (Worker.clearing (write :: rest) after).Ok data) :
    (Worker.clearing rest after).Ok (data.clear write) := by
  obtain ⟨distinct, committed, complete⟩ := workerOk
  obtain ⟨fresh, distinct⟩ := nodup_cons.mp distinct
  refine ⟨distinct, fun other mem => ?_, fun all k entry found => ?_⟩
  · obtain ⟨entry, found, seq, kept⟩ := committed other (.tail _ mem)
    have ne : other.key ≠ write.key := fun same =>
      fresh (same ▸ mem_map_of_mem mem)
    refine ⟨entry, (clear_of_ne ne).trans found, seq, ?_⟩
    rw [data.clear_eq]
    exact kept
  · obtain ⟨before, other⟩ := of_clear found
    rcases complete all k entry before with none | ⟨read, mem, sameKey, sameSeq⟩
    · cases none
    · rcases mem_cons.mp mem with rfl | mem
      · exact absurd sameSeq.symm (other sameKey.symm)
      · exact .inr ⟨read, mem, sameKey, sameSeq⟩

/-- Once everything is removed, nothing is pending. -/
theorem Worker.Ok.nothing {after : After} (workerOk : (Worker.clearing [] after).Ok data)
    (all : after ≠ .resume) (k : K) : data.pending.get? k = none := by
  obtain ⟨-, -, complete⟩ := workerOk
  cases found : data.pending.get? k with
  | none => rfl
  | some entry =>
    rcases complete all k entry found with none | ⟨read, mem, -⟩
    · cases none
    · cases mem

end Clear

end Fugue.Storage.Entities
