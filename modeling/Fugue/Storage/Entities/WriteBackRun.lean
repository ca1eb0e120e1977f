import Fugue.Storage.Entities.RangeMerge

/-!
# Runs of the write-back cache

Every step of the client, the worker and the cache keeps an invariant of the whole system, from
which the results of the client's calls follow in every run: lookups and ranges give what the client
has last written, and after a flush or a shutdown the store holds it.
-/

namespace Fugue.Storage.Entities

open Fugue.Lib List Function Bool OrdMap Worker

universe u v

variable {K : Type u} {V : Type v} [LinearOrder K]

/-- The pending entries that a range has found, with the keys that it has still to visit. -/
structure Data.RangeOk (data : Data K V) (start : Bound K) (rest : List K)
    (found : List (K × Option V)) : Prop where
  distinct : (rest ++ found.map Prod.fst).Nodup
  restIncluded : ∀ k ∈ rest, start.includes k = true
  included : ∀ entry ∈ found, start.includes entry.1 = true
  values : ∀ entry ∈ found, entry.2 = data.view entry.1
  complete : ∀ k entry, data.pending.get? k = some entry → start.includes k = true →
    k ∈ rest ∨ k ∈ found.map Prod.fst

def Client.Ok (provider : Provider) (data : Data K V) : Client K V → Prop
  | .idle | .getPending _ | .flushing | .dropped => True
  | .getStore key => data.pending.get? key = none
  | .sending write | .caching write => data.view write.key = write.value
  | .publishing rest => ∀ k ∈ rest.map KeyWrite.key, ∀ base, applyWrites base rest k = data.view k
  | .visiting start rest found => data.RangeOk start rest found
  | .decoding start rest found => data.RangeOk start [] (found ++ rest) ∧
    (found ++ rest).Pairwise fun x y => x.1 < y.1
  | .merging start merge => ∃ passed, merge.Ok provider data.view start passed ∧
    ∀ k entry, data.pending.get? k = some entry → start.includes k = true →
      ∃ value, (k, value) ∈ passed ++ merge.pending

/-- The keys whose cached values the client is about to update. -/
def Client.Dirty (k : K) : Client K V → Prop
  | .sending write | .caching write => k = write.key
  | .publishing rest => k ∈ rest.map KeyWrite.key
  | _ => False

def Worker.replies : Worker K V → ℕ
  | .collecting _ _ .reply | .clearing _ .reply => 1
  | _ => 0

def Worker.stops : Worker K V → ℕ
  | .collecting _ _ .stop | .clearing _ .stop | .stopped => 1
  | _ => 0

def Client.flushes : Client K V → ℕ
  | .flushing => 1
  | _ => 0

def Client.drops : Client K V → ℕ
  | .dropped => 1
  | _ => 0

structure System.Ok (provider : Provider) (s : System K V) : Prop where
  data : s.data.Ok
  worker : s.worker.Ok s.data
  client : s.client.Ok provider s.data
  lru : ∀ k v, s.lru.get? k = some v → s.data.view k = some v ∨ s.client.Dirty k
  batch : s.batch.Nodup
  flushed : s.flushed = true → ∀ k, s.data.pending.get? k = none
  replied : s.replied = true → ∀ k, s.data.pending.get? k = none
  flushes : s.queue.count .flush + s.worker.replies + s.replied.toNat = s.client.flushes
  drops : s.queue.count .shutdown + s.worker.stops = s.client.drops

variable {provider : Provider} {options : Options} {s t : System K V}

variable {client : Client K V}

theorem Client.Ok.shrinks {data data' : Data K V}
    (ok : client.Ok provider data) (shrinks : data.Shrinks data') : client.Ok provider data' := by
  have kept : ∀ k entry, data'.pending.get? k = some entry → ∃ before, data.pending.get? k =
      some before := by
    intro k entry found
    cases before : data.pending.get? k with
    | none =>
      rw [shrinks.pending k before] at found
      cases found
    | some entry => exact ⟨entry, rfl⟩
  have range : ∀ start rest found, data.RangeOk start rest found →
      data'.RangeOk start rest found := fun start rest found range =>
    { range with
      values := by
        rw [shrinks.view]
        exact range.values
      complete := by
        intro k entry here includes
        obtain ⟨before, found⟩ := kept k entry here
        exact range.complete k before found includes }
  cases client with
  | idle => trivial
  | getPending key => trivial
  | flushing => trivial
  | dropped => trivial
  | getStore key => exact shrinks.pending key ok
  | sending write =>
    unfold Client.Ok
    rw [shrinks.view]
    exact ok
  | caching write =>
    unfold Client.Ok
    rw [shrinks.view]
    exact ok
  | publishing rest =>
    unfold Client.Ok
    rw [shrinks.view]
    exact ok
  | visiting start rest found => exact range _ _ _ ok
  | decoding start rest found => exact ⟨range _ _ _ ok.1, ok.2⟩
  | merging start merge =>
    obtain ⟨passed, mergeOk, complete⟩ := ok
    refine ⟨passed, by rw [shrinks.view]; exact mergeOk, fun k entry here includes => ?_⟩
    obtain ⟨before, found⟩ := kept k entry here
    exact complete k before found includes

theorem System.Ok.initial (store : OrdMap K V) : (System.initial store).Ok provider where
  data :=
    { current := fun k entry found => by
        cases found
      stable := fun k _ => ⟨rfl, rfl⟩
      bounded := fun k => ⟨le_rfl, le_rfl⟩ }
  worker := trivial
  client := trivial
  lru := fun k v found => by
    cases found
  batch := nodup_nil
  flushed := fun none => by cases none
  replied := fun none => by cases none
  flushes := rfl
  drops := rfl

/-! ## Steps of the client -/

section

variable (ok : s.Ok provider)
include ok

theorem System.Ok.client_step {lru : OrdMap K V} (clientOk : client.Ok provider s.data)
    (lruOk : ∀ k v, lru.get? k = some v → s.data.view k = some v ∨ client.Dirty k)
    (flushes : client.flushes = s.client.flushes) (drops : client.drops = s.client.drops) :
    ({ s with client := client, lru := lru } : System K V).Ok provider :=
  { ok with
    client := clientOk
    lru := lruOk
    flushes := ok.flushes.trans flushes.symm
    drops := ok.drops.trans drops.symm }

theorem System.Ok.cached (clean : ∀ k, ¬ s.client.Dirty k) :
    ∀ k v, s.lru.get? k = some v → s.data.view k = some v := by
  intro k v hit
  rcases ok.lru k v hit with seen | dirty
  · exact seen
  · exact absurd dirty (clean k)

theorem System.Ok.cacheFound (clean : ∀ k, ¬ s.client.Dirty k) {key : K}
    {value : Option V} (seen : s.data.view key = value) :
    ∀ k v, (cacheFound s.lru key value).get? k = some v → s.data.view k = some v := by
  intro k v hit
  cases value with
  | none => exact ok.cached clean k v hit
  | some found =>
    by_cases same : k = key
    · subst same
      rw [Entities.cacheFound, get?_insert_self] at hit
      rw [seen, hit]
    · rw [Entities.cacheFound, get?_insert_ne same] at hit
      exact ok.cached clean k v hit

/-- A step from a state in which the client has no write of its own. -/
theorem System.Ok.moves {old client : Client K V} (at_ : s.client = old)
    (clean : ∀ k, ¬ old.Dirty k) (clientOk : client.Ok provider s.data)
    (flushes : client.flushes = old.flushes) (drops : client.drops = old.drops) :
    ({ s with client := client } : System K V).Ok provider := by
  subst at_
  exact ok.client_step clientOk (fun k v hit => .inl (ok.cached clean k v hit)) flushes drops

theorem System.Ok.found {old : Client K V} (at_ : s.client = old)
    (clean : ∀ k, ¬ old.Dirty k) {key : K} {value : Option V} (seen : s.data.view key = value)
    (flushes : old.flushes = 0) (drops : old.drops = 0) :
    ({ s with client := .idle, lru := Entities.cacheFound s.lru key value } :
      System K V).Ok provider := by
  subst at_
  exact ok.client_step trivial (fun k v hit => .inl (ok.cacheFound clean seen k v hit))
    flushes.symm drops.symm

theorem System.Ok.update {write : KeyWrite K V}
    (dirty : ∀ k, s.client.Dirty k → k = write.key ∨ client.Dirty k)
    (seen : ¬ client.Dirty write.key → s.data.view write.key = write.value) :
    ∀ k v, (s.lru.write write).get? k = some v → s.data.view k = some v ∨ client.Dirty k := by
  intro k v hit
  rw [get?_write] at hit
  by_cases same : k = write.key
  · subst same
    rw [update_self] at hit
    by_cases still : client.Dirty write.key
    · exact .inr still
    · exact .inl ((seen still).trans hit)
  · rw [update_of_ne same] at hit
    rcases ok.lru k v hit with here | was
    · exact .inl here
    · exact .inr ((dirty k was).resolve_left same)

end

omit [LinearOrder K] in
theorem Worker.resumes {worker : Worker K V} (replies : worker.replies = 0)
    (stops : worker.stops = 0) : ∀ after, worker.after? = some after → after = .resume := by
  intro after isAfter
  cases worker with
  | idle => cases isAfter
  | stopped => cases isAfter
  | collecting rest snapshot after' =>
    obtain rfl := Option.some.inj isAfter
    cases after' with
    | resume => rfl
    | reply => cases replies
    | stop => cases stops
  | clearing rest after' =>
    obtain rfl := Option.some.inj isAfter
    cases after' with
    | resume => rfl
    | reply => cases replies
    | stop => cases stops

theorem System.Ok.enqueue (ok : s.Ok provider) (idle : s.client = .idle) (write : KeyWrite K V) :
    ({ s with data := s.data.enqueue write, client := .sending write, flushed := false } :
      System K V).Ok provider := by
  have flushes := ok.flushes
  have drops := ok.drops
  rw [idle] at flushes drops
  simp only [Client.flushes, Client.drops] at flushes drops
  exact {
    data := ok.data.enqueue write
    worker := ok.worker.enqueue ok.data write
      (resumes (by omega) (by omega))
    client := update_self ..
    lru := by
      intro k v hit
      by_cases same : k = write.key
      · exact .inr same
      · refine .inl ?_
        change Function.update s.data.view write.key write.value k = some v
        rw [update_of_ne same]
        exact ok.cached (fun k => by rw [idle]; exact id) k v hit
    batch := ok.batch
    flushed := fun none => by cases none
    replied := fun replied => by
      rw [replied] at flushes
      simp at flushes
    flushes := flushes
    drops := drops }

theorem System.Ok.direct (ok : s.Ok provider) (idle : s.client = .idle)
    (flushed : s.flushed = true) (writes : List (KeyWrite K V)) :
    ({ s with data := s.data.direct writes, client := .publishing writes } :
      System K V).Ok provider := by
  have nothing := ok.flushed flushed
  have flushes := ok.flushes
  have drops := ok.drops
  rw [idle] at flushes drops
  exact {
    data := ok.data.direct nothing writes
    worker := ok.worker.of_nothing nothing nothing
    client := by
      intro k written base
      refine applyWrites_congr ?_
      obtain ⟨write, mem, rfl⟩ := mem_map.mp written
      exact ⟨write, mem, rfl⟩
    lru := by
      intro k v hit
      by_cases written : k ∈ writes.map KeyWrite.key
      · exact .inr written
      · refine .inl ?_
        change applyWrites s.data.view writes k = some v
        have untouched : ∀ write ∈ writes, write.key ≠ k := by
          rintro write mem rfl
          exact written (mem_map_of_mem mem)
        rw [applyWrites_of_untouched untouched]
        exact ok.cached (fun k => by rw [idle]; exact id) k v hit
    batch := ok.batch
    flushed := fun _ => nothing
    replied := ok.replied
    flushes := flushes
    drops := drops }

theorem System.Ok.publish (ok : s.Ok provider) {write : KeyWrite K V} {rest : List (KeyWrite K V)}
    (at_ : s.client = .publishing (write :: rest)) :
    ({ s with lru := s.lru.write write, client := .publishing rest } : System K V).Ok provider := by
  have clientOk := ok.client
  rw [at_] at clientOk
  refine ok.client_step ?_ ?_ (by rw [at_]; rfl) (by rw [at_]; rfl)
  · intro k later base
    have value := clientOk k (.tail _ later) base
    rw [← value]
    obtain ⟨other, mem, rfl⟩ := mem_map.mp later
    exact applyWrites_congr ⟨other, mem, rfl⟩
  · refine ok.update (fun k dirty => ?_) fun last => ?_
    · rw [at_] at dirty
      exact mem_cons.mp dirty
    · have value := clientOk write.key (.head _) s.data.view
      have isLast : ∀ other ∈ rest, other.key ≠ write.key := fun other mem same =>
        last (same ▸ mem_map_of_mem mem)
      rw [← value, ← nil_append (write :: rest)]
      exact applyWrites_of_last isLast

/-! ## Ranges -/

theorem mem_pendingKeys {start : Bound K} {pending : OrdMap K (PendingEntry V)} {k : K} :
    k ∈ pendingKeys start pending ↔
      (∃ entry, pending.get? k = some entry) ∧ start.includes k = true := by
  simp [pendingKeys, get?_eq_some]

theorem nodup_pendingKeys (start : Bound K) (pending : OrdMap K (PendingEntry V)) :
    (pendingKeys start pending).Nodup := by
  refine List.Nodup.filter _ (pairwise_map.mpr ?_)
  exact pending.sorted.imp fun lt => lt.ne

variable {data : Data K V} {start : Bound K}

variable {found : List (K × Option V)}

theorem Data.RangeOk.visit (ok : data.Ok) {key : K} {rest : List K}
    (range : data.RangeOk start (key :: rest) found) :
    data.RangeOk start rest
      (found ++ ((data.pending.get? key).map fun entry => (key, entry.value)).toList) := by
  cases here : data.pending.get? key with
  | none =>
    rw [Option.map_none, Option.toList_none, append_nil]
    exact {
      distinct := (nodup_cons.mp range.distinct).2
      restIncluded := fun k mem => range.restIncluded k (.tail _ mem)
      included := range.included
      values := range.values
      complete := by
        intro k entry pending includes
        rcases range.complete k entry pending includes with mem | visited
        · rcases mem_cons.mp mem with rfl | later
          · rw [here] at pending
            cases pending
          · exact .inl later
        · exact .inr visited }
  | some entry =>
    have perm : (rest ++ (found.map Prod.fst ++ [key])).Perm (key :: (rest ++ found.map Prod.fst)) :=
      by
        rw [← append_assoc]
        exact perm_append_singleton _ _
    exact {
      distinct := by
        rw [map_append]
        exact perm.nodup_iff.mpr range.distinct
      restIncluded := fun k mem => range.restIncluded k (.tail _ mem)
      included := by
        intro other mem
        rcases mem_append.mp mem with before | last
        · exact range.included other before
        · rw [mem_singleton.mp last]
          exact range.restIncluded key (.head _)
      values := by
        intro other mem
        rcases mem_append.mp mem with before | last
        · exact range.values other before
        · rw [mem_singleton.mp last]
          exact (ok.current key entry here).1
      complete := by
        intro k other pending includes
        rw [map_append, mem_append]
        rcases range.complete k other pending includes with mem | visited
        · rcases mem_cons.mp mem with rfl | later
          · exact .inr (.inr (mem_singleton_self _))
          · exact .inl later
        · exact .inr (.inl visited) }

theorem Data.RangeOk.sort (range : data.RangeOk start [] found) :
    data.RangeOk start [] (found.insertionSort fun x y => x.1 ≤ y.1) ∧
      (found.insertionSort fun x y => x.1 ≤ y.1).Pairwise fun x y => x.1 < y.1 := by
  have perm := perm_insertionSort (fun x y => x.1 ≤ y.1) found
  have sorted := pairwise_insertionSort (fun x y : K × Option V => x.1 ≤ y.1) found
  have distinct : ((found.insertionSort fun x y => x.1 ≤ y.1).map Prod.fst).Nodup :=
    (perm.map Prod.fst).nodup_iff.mpr range.distinct
  constructor
  · exact {
      distinct := distinct
      restIncluded := range.restIncluded
      included := fun entry mem => range.included entry (perm.mem_iff.mp mem)
      values := fun entry mem => range.values entry (perm.mem_iff.mp mem)
      complete := by
        intro k entry pending includes
        rcases range.complete k entry pending includes with none | visited
        · cases none
        · exact .inr ((perm.map Prod.fst).mem_iff.mpr visited) }
  · refine (sorted.and (pairwise_map.mp distinct)).imp fun both => ?_
    exact lt_of_le_of_ne both.1 both.2

theorem Data.RangeOk.open (ok : data.Ok)
    (range : data.RangeOk start [] found) (sorted : found.Pairwise fun x y => x.1 < y.1) :
    (⟨found, none, ⟨if provider.snapshot then some data.store else none, none, false⟩, [], false⟩ :
      Merge K V).Ok provider data.view start [] where
  sorted := sorted
  included := range.included
  values := range.values
  outLive := fun entry mem => by cases mem
  outSorted := .nil
  outBelow := fun entry mem => by cases mem
  passedOut := fun k v mem => by cases mem
  buffered := fun b v none => by cases none
  unbuffered := fun _ => .inr fun k dealt => by rcases dealt with none | none <;> cases none
  ready := fun ready => by cases ready
  rest := fun k v _ _ _ => .inr (.inr ⟨rfl, fun last none => by cases none⟩)
  source := by
    intro store isSource k includes absent
    have missing : data.pending.get? k = none := by
      cases pending : data.pending.get? k with
      | none => rfl
      | some entry =>
        rcases range.complete k entry pending includes with none | visited
        · cases none
        · obtain ⟨⟨k, value⟩, mem, rfl⟩ := mem_map.mp visited
          exact absurd mem (absent value)
    obtain rfl : data.store = store := by
      by_cases snapshot : provider.snapshot = true
      · simpa [snapshot] using isSource
      · simp [snapshot] at isSource
    exact (ok.stable k missing).1
  frozen := fun snapshot => by simp [snapshot]
  atEnd := fun ended => by cases ended

/-! ## Steps of the worker -/

theorem System.Ok.worker_step (ok : s.Ok provider) {worker : Worker K V} {queue : List (Message K)}
    {batch : List K} (shrinks : s.data.Shrinks data) (dataOk : data.Ok) (workerOk : worker.Ok data)
    (batchOk : batch.Nodup) (flushes : queue.count .flush + worker.replies =
      s.queue.count .flush + s.worker.replies) (drops : queue.count .shutdown + worker.stops =
      s.queue.count .shutdown + s.worker.stops) :
    ({ s with data := data, worker := worker, queue := queue, batch := batch } :
      System K V).Ok provider where
  data := dataOk
  worker := workerOk
  client := ok.client.shrinks shrinks
  lru := by
    rw [shrinks.view]
    exact ok.lru
  batch := batchOk
  flushed := fun flushed k => shrinks.pending k (ok.flushed flushed k)
  replied := fun replied k => shrinks.pending k (ok.replied replied k)
  flushes := by
    have := ok.flushes
    change queue.count .flush + worker.replies + s.replied.toNat = s.client.flushes
    omega
  drops := by
    have := ok.drops
    change queue.count .shutdown + worker.stops = s.client.drops
    omega

theorem Data.Shrinks.refl (data : Data K V) : data.Shrinks data := ⟨rfl, fun _ missing => missing⟩

theorem nodup_insertKey {key : K} {batch : List K} (distinct : batch.Nodup) :
    (insertKey key batch).Nodup := by
  unfold insertKey
  split
  · exact distinct
  · rename_i fresh
    exact nodup_cons.mpr ⟨fresh, distinct⟩

theorem pendingKeys_complete {keys : List K} (order : keys.Perm (pendingKeys .unbounded data.pending))
    (k : K) (entry : PendingEntry V) (found : data.pending.get? k = some entry) : k ∈ keys :=
  order.mem_iff.mpr (mem_pendingKeys.mpr ⟨⟨entry, found⟩, rfl⟩)

/-! ## Runs -/

theorem Step.ok (stays : provider.snapshot = true ∨ provider.fused = true)
    {event : Option (Event K V)} (step : Step provider options s event t) (ok : s.Ok provider) :
    t.Ok provider := by
  have clientOk := ok.client
  have workerOk := ok.worker
  cases step with
  | getHit idle hit => exact ok
  | getMiss idle miss => exact ok.moves idle (fun _ => id) trivial rfl rfl
  | @getPendingHit key entry at_ hit =>
    have seen := (ok.data.current key entry hit).1.symm
    exact ok.found at_ (fun _ => id) seen rfl rfl
  | getPendingMiss at_ miss => exact ok.moves at_ (fun _ => id) miss rfl rfl
  | @getStore key at_ =>
    rw [at_] at clientOk
    have seen := (ok.data.stable key clientOk).1.symm
    exact ok.found at_ (fun _ => id) seen rfl rfl
  | enqueue write idle => exact ok.enqueue idle write
  | @send write at_ room =>
    have flushes := ok.flushes
    have drops := ok.drops
    have lru := ok.lru
    rw [at_] at clientOk flushes drops lru
    exact { ok with
      client := clientOk
      lru := lru
      flushes := by simpa [Client.flushes] using flushes
      drops := by simpa [Client.drops] using drops }
  | @cache write at_ =>
    rw [at_] at clientOk
    refine ok.client_step trivial (ok.update (fun k dirty => ?_) fun _ => clientOk)
      (by rw [at_]; rfl) (by rw [at_]; rfl)
    rw [at_] at dirty
    exact .inl dirty
  | flush idle room =>
    have flushes := ok.flushes
    have drops := ok.drops
    rw [idle] at flushes drops
    simp only [Client.flushes, Client.drops] at flushes drops
    exact { ok with
      client := trivial
      lru := fun k v hit => .inl (ok.cached (fun k => by rw [idle]; exact id) k v hit)
      flushes := by
        simp only [count_append, count_singleton_self, Client.flushes]
        omega
      drops := by simpa [Client.drops] using drops }
  | flushed at_ replied =>
    have flushes := ok.flushes
    have drops := ok.drops
    rw [at_] at flushes drops
    rw [replied] at flushes
    simp only [Client.flushes, toNat_true] at flushes
    exact { ok with
      client := trivial
      lru := fun k v hit => .inl (ok.cached (fun k => by rw [at_]; exact id) k v hit)
      flushed := fun _ => ok.replied replied
      replied := fun none => by cases none
      flushes := by
        simp only [Client.flushes, toNat_false]
        omega
      drops := drops }
  | direct writes idle flushed => exact ok.direct idle flushed writes
  | publish at_ => exact ok.publish at_
  | published at_ =>
    have lru := ok.lru
    rw [at_] at lru
    refine ok.client_step trivial (fun k v hit => ?_) (by rw [at_]; rfl) (by rw [at_]; rfl)
    rcases lru k v hit with seen | none
    · exact .inl seen
    · cases none
  | @range start keys idle order =>
    exact ok.moves idle (fun _ => id) {
      distinct := by simpa using order.nodup_iff.mpr (nodup_pendingKeys _ _)
      restIncluded := fun k mem => (mem_pendingKeys.mp (order.mem_iff.mp mem)).2
      included := fun entry mem => by cases mem
      values := fun entry mem => by cases mem
      complete := fun k entry found includes =>
        .inl (order.mem_iff.mpr (mem_pendingKeys.mpr ⟨⟨entry, found⟩, includes⟩)) } rfl rfl
  | visit at_ =>
    rw [at_] at clientOk
    exact ok.moves at_ (fun _ => id) (clientOk.visit ok.data) rfl rfl
  | sort at_ =>
    rw [at_] at clientOk
    exact ok.moves at_ (fun _ => id) clientOk.sort rfl rfl
  | @decode start key value rest found at_ =>
    rw [at_] at clientOk
    have clean := ok.cached fun k => by rw [at_]; exact id
    -- the decoded value is the cached one, if there is one
    have same : (value.map fun v => (s.lru.get? key).getD v) = value := by
      have seen : value = s.data.view key := clientOk.1.values (key, value) (by simp)
      cases value with
      | none => rfl
      | some v =>
        cases hit : s.lru.get? key with
        | none => rfl
        | some w => exact (clean key w hit).symm.trans seen.symm
    refine ok.moves at_ (fun _ => id) ?_ rfl rfl
    rw [same]
    change s.data.RangeOk start [] (found ++ [(key, value)] ++ rest) ∧
      (found ++ [(key, value)] ++ rest).Pairwise _
    rw [append_assoc]
    exact clientOk
  | openRange at_ =>
    rw [at_] at clientOk
    have range := clientOk.1
    have sorted := clientOk.2
    rw [append_nil] at range sorted
    refine ok.moves at_ (fun _ => id)
      ⟨[], range.open ok.data sorted, fun k entry found includes => ?_⟩ rfl rfl
    rcases range.complete k entry found includes with none | visited
    · cases none
    · obtain ⟨⟨k, value⟩, mem, rfl⟩ := mem_map.mp visited
      exact ⟨value, mem⟩
  | @fetch start merge at_ look =>
    rw [at_] at clientOk
    obtain ⟨passed, mergeOk, complete⟩ := clientOk
    have live : ∀ k, start.includes k = true → (∀ value, (k, value) ∉ passed ++ merge.pending) →
        s.data.store.get? k = s.data.view k := by
      intro k includes absent
      refine (ok.data.stable k ?_).1
      cases pending : s.data.pending.get? k with
      | none => rfl
      | some entry =>
        obtain ⟨value, mem⟩ := complete k entry pending includes
        exact absurd mem (absent value)
    have samePending : (merge.fetch provider start s.data.store).pending = merge.pending := by
      unfold Merge.fetch
      split <;> rfl
    refine ok.moves at_ (fun _ => id) ⟨passed, mergeOk.fetch stays live, ?_⟩ rfl rfl
    rw [samePending]
    exact complete
  | merge at_ ready more =>
    rw [at_] at clientOk
    have clean := ok.cached fun k => by rw [at_]; exact id
    obtain ⟨passed, mergeOk, complete⟩ := clientOk
    obtain ⟨passed', mergeOk', same⟩ := mergeOk.act clean ready more
    refine ok.moves at_ (fun _ => id) ⟨passed', mergeOk', ?_⟩ rfl rfl
    rw [same]
    exact complete
  | iterated at_ ready ended => exact ok.moves at_ (fun _ => id) trivial rfl rfl
  | drop idle room =>
    have flushes := ok.flushes
    have drops := ok.drops
    rw [idle] at flushes drops
    simp only [Client.flushes, Client.drops] at flushes drops
    exact { ok with
      client := trivial
      lru := fun k v hit => .inl (ok.cached (fun k => by rw [idle]; exact id) k v hit)
      flushes := by simpa [Client.flushes] using flushes
      drops := by
        simp only [count_append, count_singleton_self, Client.drops]
        omega }
  | evict key =>
    refine { ok with lru := fun k v hit => ?_ }
    by_cases same : k = key
    · subst same
      exact absurd rfl (mem_erase.mp (get?_eq_some.mp hit)).2
    · exact ok.lru k v ((get?_erase_ne same).symm.trans hit)
  | receive idle first small =>
    refine ok.worker_step (.refl _) ok.data ok.worker (nodup_insertKey ok.batch) ?_ ?_ <;>
      simp [first]
  | receiveFull idle first full order =>
    refine ok.worker_step (.refl _) ok.data (Worker.Ok.start
      (order.nodup_iff.mpr (nodup_insertKey ok.batch)) fun all => absurd rfl all) nodup_nil
      ?_ ?_ <;>
      simp [first, idle, replies, stops]
  | timeout idle some_ order =>
    refine ok.worker_step (.refl _) ok.data (Worker.Ok.start (order.nodup_iff.mpr ok.batch)
      fun all => absurd rfl all) nodup_nil ?_ ?_ <;>
      simp [idle, replies, stops]
  | receiveFlush idle first order =>
    refine ok.worker_step (.refl _) ok.data (Worker.Ok.start
      (order.nodup_iff.mpr (nodup_pendingKeys _ _)) fun _ => pendingKeys_complete order)
      nodup_nil ?_ ?_ <;>
      simp [first, idle, replies, stops]
  | receiveShutdown idle first order =>
    refine ok.worker_step (.refl _) ok.data (Worker.Ok.start
      (order.nodup_iff.mpr (nodup_pendingKeys _ _)) fun _ => pendingKeys_complete order)
      ok.batch ?_ ?_ <;>
      simp [first, idle, replies, stops]
  | @collect key rest snapshot after at_ =>
    rw [at_] at workerOk
    refine ok.worker_step (.refl _) ok.data (workerOk.collect ok.data) ok.batch ?_ ?_ <;>
      cases after <;> simp [at_, replies, stops]
  | @commit snapshot after at_ =>
    rw [at_] at workerOk
    refine ok.worker_step Data.shrinks_commit (ok.data.commit workerOk.1 workerOk.2.1)
      workerOk.commit ok.batch ?_ ?_ <;>
      cases after <;> simp [at_, replies, stops]
  | @clear write rest after at_ =>
    rw [at_] at workerOk
    refine ok.worker_step Data.shrinks_clear (ok.data.clear (workerOk.2.1 write (.head _)))
      workerOk.clear ok.batch ?_ ?_ <;>
      cases after <;> simp [at_, replies, stops]
  | resume at_ =>
    refine ok.worker_step (.refl _) ok.data trivial ok.batch ?_ ?_ <;>
      simp [at_, replies, stops]
  | reply at_ =>
    rw [at_] at workerOk
    have flushes := ok.flushes
    have drops := ok.drops
    rw [at_] at flushes drops
    have notReplied : s.replied = false := by
      cases replied : s.replied with
      | false => rfl
      | true =>
        rw [replied] at flushes
        have one : s.client.flushes ≤ 1 := by cases s.client <;> simp [Client.flushes]
        simp only [replies, toNat_true] at flushes
        omega
    rw [notReplied] at flushes
    exact { ok with
      worker := trivial
      replied := fun _ => workerOk.nothing (by decide)
      flushes := by simpa [replies] using flushes
      drops := by simpa [stops] using drops }
  | stop at_ =>
    refine ok.worker_step (.refl _) ok.data trivial ok.batch ?_ ?_ <;>
      simp [at_, replies, stops]

theorem Run.ok (stays : provider.snapshot = true ∨ provider.fused = true) {store : OrdMap K V}
    (run : Run provider options store s) : s.Ok provider := by
  induction run with
  | initial => exact .initial store
  | step _ next ih => exact next.ok stays ih

/-- What the result of a call has to be, given the client's view. -/
def Event.Correct (view : K → Option V) (store : OrdMap K V) : Event K V → Prop
  | .got key value => value = view key
  | .iterated start entries => entries.Pairwise (fun x y => x.1 < y.1) ∧
    ∀ k v, (k, v) ∈ entries ↔ start.includes k = true ∧ view k = some v
  | .flushed | .stopped => ∀ k, store.get? k = view k

theorem Step.correct {result : Event K V} (step : Step provider options s (some result) t)
    (ok : s.Ok provider) : result.Correct t.data.view t.data.store := by
  have clientOk := ok.client
  have workerOk := ok.worker
  cases step with
  | getHit idle hit => exact (ok.cached (fun k => by rw [idle]; exact id) _ _ hit).symm
  | getPendingHit at_ hit => exact (ok.data.current _ _ hit).1
  | getStore at_ =>
    rw [at_] at clientOk
    exact (ok.data.stable _ clientOk).1
  | flushed at_ replied => exact fun k => (ok.data.stable k (ok.replied replied k)).1
  | iterated at_ ready ended =>
    rw [at_] at clientOk
    obtain ⟨passed, mergeOk, -⟩ := clientOk
    exact mergeOk.finish ready ended
  | stop at_ =>
    rw [at_] at workerOk
    exact fun k => (ok.data.stable k (workerOk.nothing (by decide) k)).1

theorem Step.stored_le {event : Option (Event K V)} (step : Step provider options s event t)
    (ok : s.Ok provider) (k : K) : s.data.stored k ≤ t.data.stored k := by
  have workerOk := ok.worker
  cases step with
  | commit at_ =>
    rw [at_] at workerOk
    exact Data.stored_le_commit workerOk.1 workerOk.2.1 k
  | @clear write rest after at_ =>
    rw [s.data.clear_eq]
  | direct writes idle flushed =>
    change s.data.stored k ≤ if k ∈ writes.map KeyWrite.key then s.data.time + 1
      else s.data.stored k
    have bounds := ok.data.bounded k
    split <;> omega
  | _ => exact le_rfl

/-- In every run over a store whose iterators read an old store or stay at their end, every call
gives what the client has written last, a flush or a shutdown leaves that in the store, and no value
in the store is replaced by an older one. -/
theorem write_back_linearisable (provider : Provider) (options : Options)
    (stays : provider.snapshot = true ∨ provider.fused = true) (store : OrdMap K V)
    {s t : System K V} {event : Option (Event K V)} (run : Run provider options store s)
    (step : Step provider options s event t) :
    (∀ result, event = some result → result.Correct t.data.view t.data.store) ∧
      ∀ k, s.data.stored k ≤ t.data.stored k := by
  have ok := run.ok stays
  refine ⟨?_, step.stored_le ok⟩
  rintro result rfl
  exact step.correct ok

theorem write_back_linearisable_hit :
    ∃ s t : System ℕ ℕ, Run ⟨true, true⟩ ⟨4096, 1024⟩ .empty s ∧
      Step ⟨true, true⟩ ⟨4096, 1024⟩ s (some (.got 1 (some 5))) t ∧
      Event.Correct t.data.view t.data.store (.got 1 (some 5)) := by
  have run : Run ⟨true, true⟩ ⟨4096, 1024⟩ .empty _ :=
    ((Run.initial.step (.enqueue (⟨1, some 5⟩ : KeyWrite ℕ ℕ) rfl)).step
      (.send rfl (by decide))).step (.cache rfl)
  exact ⟨_, _, run, .getHit rfl rfl,
    (write_back_linearisable _ _ (.inl rfl) _ run (.getHit rfl rfl)).1 _ rfl⟩

theorem Step.iterated_out {start : Bound K} {merge : Merge K V} {out : List (K × V)}
    (at_ : s.client = .merging start merge) (ready : merge.ready = true)
    (ended : merge.act s.lru = none) (given : merge.out = out) :
    Step provider options s (some (.iterated start out)) { s with client := .idle } :=
  given ▸ .iterated at_ ready ended

/-- Over the store in memory, which holds the entry 1: the client writes 2 and 3 and opens a range.
It has given 1 and 2 when the worker commits them both, and gives 2 again. -/
theorem range_gives_twice : ∃ s t : System ℕ ℕ,
    Run ⟨false, false⟩ ⟨4096, 1024⟩ ⟨[(1, 1)], pairwise_singleton _ _⟩ s ∧
      Step ⟨false, false⟩ ⟨4096, 1024⟩ s
        (some (.iterated .unbounded [(1, 1), (2, 2), (2, 2), (3, 3)])) t := by
  have written : Run ⟨false, false⟩ ⟨4096, 1024⟩ ⟨[(1, 1)], pairwise_singleton _ _⟩ _ :=
    (((((Run.initial.step (.enqueue (⟨2, some 2⟩ : KeyWrite ℕ ℕ) rfl)).step
      (.send rfl (by decide))).step (.cache rfl)).step
      (.enqueue (⟨3, some 3⟩ : KeyWrite ℕ ℕ) rfl)).step (.send rfl (by decide))).step (.cache rfl)
  have opened := ((((((written.step (.range .unbounded rfl (.refl [2, 3]))).step
    (.visit rfl)).step (.visit rfl)).step (.sort rfl)).step (.decode rfl)).step (.decode rfl)).step
    (.openRange rfl)
  have given := (((opened.step (.fetch rfl rfl)).step (.merge rfl rfl rfl)).step
    (.fetch rfl rfl)).step (.merge rfl rfl rfl)
  have committed := ((((given.step (.receive rfl rfl (by decide))).step
    (.receive rfl rfl (by decide))).step (.timeout rfl (by decide) (.refl [3, 2]))).step
    (.collect rfl)).step (.collect rfl)
  have ended := (((((committed.step (.commit rfl)).step (.fetch rfl rfl)).step
    (.merge rfl rfl rfl)).step (.fetch rfl rfl)).step (.merge rfl rfl rfl)).step (.fetch rfl rfl)
  exact ⟨_, _, ended, .iterated_out rfl rfl rfl rfl⟩

theorem write_back_not_linearisable : ¬ ∀ (provider : Provider) (options : Options)
    (store : OrdMap ℕ ℕ) (s t : System ℕ ℕ) (result : Event ℕ ℕ), Run provider options store s →
    Step provider options s (some result) t → result.Correct t.data.view t.data.store := by
  intro correct
  obtain ⟨s, t, run, step⟩ := range_gives_twice
  obtain ⟨sorted, -⟩ := correct _ _ _ s t _ run step
  revert sorted
  decide

end Fugue.Storage.Entities
