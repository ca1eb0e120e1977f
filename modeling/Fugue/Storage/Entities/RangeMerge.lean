import Fugue.Storage.Entities.WriteBackInvariant

/-!
# Merging a range

`merge_pending_range` merges the pending entries that were there when the range was opened with an
iterator of the backing store, which may see what the worker commits in the meantime. The invariant
says where the iterator stands: beyond every key that has been dealt with, or at its end, where it
has to stay.
-/

namespace Fugue.Storage.Entities

open Fugue.Lib List Bool Backing

universe u v

variable {K : Type u} {V : Type v} [LinearOrder K]

/-- The entries that an iterator has still to give. -/
def Backing.beyond (start : Bound K) (cursor : Option K) (entry : K × V) : Bool :=
  start.includes entry.1 && cursor.all fun last => decide (last < entry.1)

/-- The merge has dealt with the pending entries `passed`, and what it has given is what the client
sees of the keys up to there. -/
structure Merge.Ok (provider : Provider) (view : K → Option V) (start : Bound K)
    (passed : List (K × Option V)) (merge : Merge K V) : Prop where
  sorted : (passed ++ merge.pending).Pairwise fun x y => x.1 < y.1
  included : ∀ entry ∈ passed ++ merge.pending, start.includes entry.1 = true
  values : ∀ entry ∈ passed ++ merge.pending, entry.2 = view entry.1
  outLive : ∀ entry ∈ merge.out, start.includes entry.1 = true ∧ view entry.1 = some entry.2
  outSorted : merge.out.Pairwise fun x y => x.1 < y.1
  outBelow : ∀ entry ∈ merge.out, ∀ other ∈ merge.pending, entry.1 < other.1
  passedOut : ∀ k v, (k, some v) ∈ passed → (k, v) ∈ merge.out
  buffered : ∀ b v, merge.buffered = some (b, v) → merge.backing.cursor = some b ∧
    start.includes b = true ∧ (∀ entry ∈ passed, entry.1 < b) ∧ (∀ entry ∈ merge.out, entry.1 < b) ∧
    ((∀ value, (b, value) ∉ passed ++ merge.pending) → view b = some v)
  unbuffered : merge.buffered = none → merge.backing.ended = true ∨
    ∀ k, (k ∈ passed.map Prod.fst ∨ k ∈ merge.out.map Prod.fst) →
      ∃ last, merge.backing.cursor = some last ∧ k ≤ last
  ready : merge.ready = true → merge.buffered = none → merge.backing.ended = true
  rest : ∀ k v, start.includes k = true → (∀ value, (k, value) ∉ passed ++ merge.pending) →
    view k = some v → (k, v) ∈ merge.out ∨ (∃ w, merge.buffered = some (k, w)) ∨
      (merge.backing.ended = false ∧ ∀ last, merge.backing.cursor = some last → last < k)
  source : ∀ store, merge.backing.source = some store → ∀ k, start.includes k = true →
    (∀ value, (k, value) ∉ passed ++ merge.pending) → store.get? k = view k
  frozen : provider.snapshot = true → merge.backing.source ≠ none
  atEnd : merge.backing.ended = true → ∀ store, merge.backing.source = some store →
    store.entries.find? (Backing.beyond start merge.backing.cursor) = none

variable {provider : Provider} {view : K → Option V} {start : Bound K}
  {passed : List (K × Option V)} {merge : Merge K V}

theorem Backing.find?_spec {store : OrdMap K V} {cursor : Option K} {b : K} {v : V}
    (found : store.entries.find? (Backing.beyond start cursor) = some (b, v)) :
    store.get? b = some v ∧ start.includes b = true ∧ (∀ last, cursor = some last → last < b) ∧
      ∀ k w, store.get? k = some w → start.includes k = true →
        (∀ last, cursor = some last → last < k) → b ≤ k := by
  have beyond := find?_some found
  simp only [Backing.beyond, and_eq_true] at beyond
  refine ⟨OrdMap.get?_eq_some.mpr (mem_of_find?_eq_some found), beyond.1, ?_, ?_⟩
  · rintro last rfl
    simpa using beyond.2
  · intro k w here includes after
    obtain ⟨-, before, later, split, earlier⟩ := find?_eq_some_iff_append.mp found
    have mem := OrdMap.get?_eq_some.mp here
    have sorted := store.sorted
    rw [split] at mem sorted
    rcases mem_append.mp mem with inBefore | inLater
    · have not := earlier (k, w) inBefore
      have yes : Backing.beyond start cursor (k, w) = true := by
        cases cursor with
        | none => simp [Backing.beyond, includes]
        | some last => simp [Backing.beyond, includes, after last rfl]
      rw [yes] at not
      cases not
    · rcases mem_cons.mp inLater with same | inLater
      · exact (congrArg Prod.fst same).ge
      · exact ((pairwise_cons.mp (pairwise_append.mp sorted).2.1).1 _ inLater).le

theorem Backing.find?_none {store : OrdMap K V} {cursor : Option K}
    (missing : store.entries.find? (beyond start cursor) = none) {k : K} {v : V}
    (here : store.get? k = some v) (includes : start.includes k = true) :
    ¬ ∀ last, cursor = some last → last < k := by
  intro after
  have not := find?_eq_none.mp missing _ (OrdMap.get?_eq_some.mp here)
  cases cursor with
  | none => simp [beyond, includes] at not
  | some last => simp [beyond, includes, after last rfl] at not

theorem Backing.next_cases (provider : Provider) (start : Bound K) (store : OrdMap K V)
    (backing : Backing K V) :
    (backing.ended = true ∧ backing.next provider start store = (none, backing)) ∨
    ¬ (provider.fused = true ∧ backing.ended = true) ∧
      ((∃ entry, (backing.source.getD store).entries.find?
          (beyond start backing.cursor) = some entry ∧
        backing.next provider start store =
          (some entry, { backing with cursor := some entry.1 })) ∨
      (backing.source.getD store).entries.find? (beyond start backing.cursor) = none ∧
        backing.next provider start store = (none, { backing with ended := true })) := by
  unfold next
  by_cases atEnd : (provider.fused && backing.ended) = true
  · rw [if_pos atEnd]
    rw [and_eq_true] at atEnd
    exact .inl ⟨atEnd.2, rfl⟩
  · rw [if_neg atEnd]
    refine .inr ⟨by rwa [and_eq_true] at atEnd, ?_⟩
    cases found : (backing.source.getD store).entries.find?
        (beyond start backing.cursor) with
    | none =>
      refine .inr ⟨rfl, ?_⟩
      unfold beyond at found
      rw [found]
    | some entry =>
      refine .inl ⟨entry, rfl, ?_⟩
      unfold beyond at found
      rw [found]

section

variable (ok : merge.Ok provider view start passed)
include ok

/-- Looking for an entry of the backing store, which has the client's values for the keys without a
pending entry. -/
theorem Merge.Ok.fetch
    (stays : provider.snapshot = true ∨ provider.fused = true) {store : OrdMap K V}
    (live : ∀ k, start.includes k = true → (∀ value, (k, value) ∉ passed ++ merge.pending) →
      store.get? k = view k) :
    (merge.fetch provider start store).Ok provider view start passed := by
  obtain ⟨pending, buffered, backing, out, ready⟩ := merge
  cases buffered with
  | some entry =>
    exact { ok with ready := fun _ none => by cases none }
  | none =>
    have values : ∀ k, start.includes k = true → (∀ value, (k, value) ∉ passed ++ pending) →
        (backing.source.getD store).get? k = view k := by
      intro k includes absent
      cases from_ : backing.source with
      | none => exact live k includes absent
      | some source => exact ok.source source from_ k includes absent
    change Merge.Ok provider view start passed ⟨pending, (backing.next provider start store).1,
      (backing.next provider start store).2, out, true⟩
    rcases backing.next_cases provider start store with ⟨ended, same⟩ | ⟨moves, next⟩
    · rw [same]
      exact { ok with ready := fun _ _ => ended }
    rcases next with ⟨⟨b, v⟩, found, same⟩ | ⟨missing, same⟩
    · rw [same]
      obtain ⟨here, includes, after, first⟩ := find?_spec found
      -- an iterator at its end gives nothing more, because it stays there or reads an old store
      have going : backing.ended = false := by
        by_contra notFalse
        have ended : backing.ended = true := by simpa using notFalse
        rcases stays with snapshot | fused
        · obtain ⟨source, from_⟩ := Option.ne_none_iff_exists'.mp (ok.frozen snapshot)
          have none := ok.atEnd ended source from_
          rw [from_, Option.getD_some, none] at found
          cases found
        · exact moves ⟨fused, ended⟩
      have reached : ∀ k, (k ∈ passed.map Prod.fst ∨ k ∈ out.map Prod.fst) → k < b := by
        intro k dealt
        rcases ok.unbuffered rfl with ended | reached
        · rw [going] at ended
          cases ended
        · obtain ⟨last, cursor, le⟩ := reached k dealt
          exact le.trans_lt (after last cursor)
      exact {
        sorted := ok.sorted
        included := ok.included
        values := ok.values
        outLive := ok.outLive
        outSorted := ok.outSorted
        outBelow := ok.outBelow
        passedOut := ok.passedOut
        buffered := by
          rintro b' v' isEntry
          obtain ⟨rfl, rfl⟩ : b = b' ∧ v = v' := by simpa using isEntry
          refine ⟨rfl, includes, fun entry mem => ?_, fun entry mem => ?_, fun absent => ?_⟩
          · exact reached entry.1 (.inl (mem_map_of_mem mem))
          · exact reached entry.1 (.inr (mem_map_of_mem mem))
          · rw [← values b includes absent, here]
        unbuffered := fun none => by cases none
        ready := fun _ none => by cases none
        rest := by
          intro k w included absent seen
          rcases ok.rest k w included absent seen with given | ⟨w', none⟩ | ⟨-, later⟩
          · exact .inl given
          · cases none
          · have le := first k w ((values k included absent).trans seen) included later
            rcases le.eq_or_lt with rfl | lt
            · exact .inr (.inl ⟨v, rfl⟩)
            · refine .inr (.inr ⟨going, fun last isLast => ?_⟩)
              obtain rfl : b = last := by simpa using isLast
              exact lt
        source := ok.source
        frozen := ok.frozen
        atEnd := fun ended => by
          rw [going] at ended
          cases ended }
    · rw [same]
      exact {
        sorted := ok.sorted
        included := ok.included
        values := ok.values
        outLive := ok.outLive
        outSorted := ok.outSorted
        outBelow := ok.outBelow
        passedOut := ok.passedOut
        buffered := fun _ _ none => by cases none
        unbuffered := fun _ => .inl rfl
        ready := fun _ _ => rfl
        rest := by
          intro k w included absent seen
          rcases ok.rest k w included absent seen with given | ⟨w', none⟩ | ⟨-, later⟩
          · exact .inl given
          · cases none
          · exact absurd later (find?_none missing
              ((values k included absent).trans seen) included)
        source := ok.source
        frozen := ok.frozen
        atEnd := fun _ source from_ => by
          rwa [from_, Option.getD_some] at missing }

/-! ## Turns of the loop -/

theorem Merge.Ok.takeBacking {lru : OrdMap K V}
    (cached : ∀ k v, lru.get? k = some v → view k = some v) {b : K} {v : V}
    (has : merge.buffered = some (b, v)) (first : ∀ entry ∈ merge.pending, b < entry.1) :
    (merge.takeBacking lru (b, v)).Ok provider view start passed := by
  obtain ⟨cursor, included, passedBelow, outBelow, value⟩ := ok.buffered b v has
  have absent : ∀ value, (b, value) ∉ passed ++ merge.pending := by
    intro value mem
    rcases mem_append.mp mem with inPassed | left
    · exact lt_irrefl _ (passedBelow _ inPassed)
    · exact lt_irrefl _ (first _ left)
  have seen : view b = some ((lru.get? b).getD v) := by
    cases hit : lru.get? b with
    | none => exact value absent
    | some w => exact cached b w hit
  have outMem : ∀ entry, entry ∈ (merge.takeBacking lru (b, v)).out ↔
      entry ∈ merge.out ∨ entry = (b, (lru.get? b).getD v) := fun entry => by
    simp [Merge.takeBacking, Merge.cachedRef]
  exact {
    sorted := ok.sorted
    included := ok.included
    values := ok.values
    outLive := by
      intro entry mem
      rcases (outMem entry).mp mem with before | rfl
      · exact ok.outLive entry before
      · exact ⟨included, seen⟩
    outSorted := by
      refine pairwise_append.mpr ⟨ok.outSorted, pairwise_singleton _ _, ?_⟩
      intro entry mem last isLast
      rw [mem_singleton.mp isLast]
      exact outBelow entry mem
    outBelow := by
      intro entry mem other left
      rcases (outMem entry).mp mem with before | rfl
      · exact ok.outBelow entry before other left
      · exact first other left
    passedOut := fun k w mem => (outMem _).mpr (.inl (ok.passedOut k w mem))
    buffered := fun _ _ none => by cases none
    unbuffered := by
      refine fun _ => .inr fun k dealt => ⟨b, cursor, ?_⟩
      rcases dealt with inPassed | given
      · obtain ⟨entry, mem, rfl⟩ := mem_map.mp inPassed
        exact (passedBelow entry mem).le
      · obtain ⟨entry, mem, rfl⟩ := mem_map.mp given
        rcases (outMem entry).mp mem with before | rfl
        · exact (outBelow entry before).le
        · exact le_rfl
    ready := fun ready => by cases ready
    rest := by
      intro k w includes missing here
      rcases ok.rest k w includes missing here with given | ⟨w', isBuffered⟩ | later
      · exact .inl ((outMem _).mpr (.inl given))
      · rw [has] at isBuffered
        obtain ⟨rfl, rfl⟩ : b = k ∧ v = w' := by simpa using isBuffered
        rw [seen] at here
        exact .inl ((outMem _).mpr (.inr (by rw [Option.some.inj here])))
      · exact .inr (.inr later)
    source := ok.source
    frozen := ok.frozen
    atEnd := ok.atEnd }

/-- Giving or passing over the first pending entry, if the entry of the backing store comes after it
or has its key and is dropped, or there is none. -/
theorem Merge.Ok.takePending {first : K × Option V}
    {rest : List (K × Option V)} (split : merge.pending = first :: rest) {buffered : Option (K × V)}
    (kept : (buffered = merge.buffered ∧ ∀ b v, merge.buffered = some (b, v) → first.1 < b) ∨
      (buffered = none ∧ ∃ v, merge.buffered = some (first.1, v)))
    (ended : merge.buffered = none → merge.backing.ended = true) :
    (merge.takePending buffered (first :: rest)).Ok provider view start (passed ++ [first]) := by
  have all : passed ++ [first] ++ rest = passed ++ merge.pending := by
    rw [split, append_assoc, singleton_append]
  have firstMem : first ∈ passed ++ merge.pending := by simp [split]
  have seen := ok.values first firstMem
  have sorted := ok.sorted
  have outMem : ∀ entry, entry ∈ (merge.takePending buffered (first :: rest)).out ↔
      entry ∈ merge.out ∨ (entry.1 = first.1 ∧ first.2 = some entry.2) := by
    rcases first with ⟨key, _ | value⟩
    · simp [Merge.takePending]
    · simp [Merge.takePending, eq_comm]
  have restAfter : ∀ entry ∈ rest, first.1 < entry.1 := by
    rw [split] at sorted
    exact (pairwise_cons.mp (pairwise_append.mp sorted).2.1).1
  have passedBefore : ∀ entry ∈ passed, entry.1 < first.1 := fun entry mem =>
    (pairwise_append.mp sorted).2.2 entry mem first (by simp [split])
  have outBefore : ∀ entry ∈ merge.out, entry.1 < first.1 := fun entry mem =>
    ok.outBelow entry mem first (by simp [split])
  exact {
    sorted := by
      change (passed ++ [first] ++ rest).Pairwise _
      rw [all]
      exact ok.sorted
    included := by
      change ∀ entry ∈ passed ++ [first] ++ rest, _
      rw [all]
      exact ok.included
    values := by
      change ∀ entry ∈ passed ++ [first] ++ rest, _
      rw [all]
      exact ok.values
    outLive := by
      intro entry mem
      rcases (outMem entry).mp mem with before | ⟨sameKey, value⟩
      · exact ok.outLive entry before
      · rw [sameKey, ← seen, value]
        exact ⟨ok.included first firstMem, rfl⟩
    outSorted := by
      refine pairwise_append.mpr ⟨ok.outSorted, ?_, ?_⟩
      · cases first.2 <;> simp
      · intro entry mem last isLast
        obtain ⟨w, -, rfl⟩ := Option.map_eq_some_iff.mp (Option.mem_toList.mp isLast)
        exact outBefore entry mem
    outBelow := by
      intro entry mem other left
      rcases (outMem entry).mp mem with before | ⟨sameKey, -⟩
      · exact ok.outBelow entry before other (by rw [split]; exact .tail _ left)
      · rw [sameKey]
        exact restAfter other left
    passedOut := by
      intro k w mem
      apply (outMem _).mpr
      rcases mem_append.mp mem with before | last
      · exact .inl (ok.passedOut k w before)
      · obtain rfl := mem_singleton.mp last
        exact .inr ⟨rfl, rfl⟩
    buffered := by
      intro b v isBuffered
      rcases kept with ⟨rfl, after⟩ | ⟨rfl, -⟩
      · obtain ⟨cursor, included, passedBelow, outBelow, value⟩ := ok.buffered b v isBuffered
        have lt := after b v isBuffered
        refine ⟨cursor, included, fun entry mem => ?_, fun entry mem => ?_, fun absent => ?_⟩
        · rcases mem_append.mp mem with before | last
          · exact passedBelow entry before
          · rw [mem_singleton.mp last]
            exact lt
        · rcases (outMem entry).mp mem with before | ⟨sameKey, -⟩
          · exact outBelow entry before
          · rw [sameKey]
            exact lt
        · apply value
          rw [← all]
          exact absent
      · cases isBuffered
    unbuffered := by
      intro none
      rcases kept with ⟨same, -⟩ | ⟨-, v, same⟩
      · exact .inl (ended (same ▸ none))
      · refine .inr fun k dealt => ⟨first.1, (ok.buffered _ v same).1, ?_⟩
        rcases dealt with inPassed | given
        · obtain ⟨entry, mem, rfl⟩ := mem_map.mp inPassed
          rcases mem_append.mp mem with before | last
          · exact (passedBefore entry before).le
          · rw [mem_singleton.mp last]
        · obtain ⟨entry, mem, rfl⟩ := mem_map.mp given
          rcases (outMem entry).mp mem with before | ⟨sameKey, -⟩
          · exact (outBefore entry before).le
          · exact sameKey.le
    ready := fun ready => by cases ready
    rest := by
      intro k w includes missing here
      change ∀ value, (k, value) ∉ passed ++ [first] ++ rest at missing
      rw [all] at missing
      rcases ok.rest k w includes missing here with given | ⟨w', isBuffered⟩ | later
      · exact .inl ((outMem _).mpr (.inl given))
      · rcases kept with ⟨rfl, -⟩ | ⟨-, v, same⟩
        · exact .inr (.inl ⟨w', isBuffered⟩)
        · rw [same] at isBuffered
          obtain ⟨rfl, -⟩ : first.1 = k ∧ v = w' := by simpa using isBuffered
          exact absurd firstMem (missing first.2)
      · exact .inr (.inr later)
    source := by
      change ∀ store, _ → ∀ k, _ → (∀ value, (k, value) ∉ passed ++ [first] ++ rest) → _
      rw [all]
      exact ok.source
    frozen := ok.frozen
    atEnd := ok.atEnd }

theorem Merge.Ok.act {lru : OrdMap K V}
    (cached : ∀ k v, lru.get? k = some v → view k = some v) (ready : merge.ready = true)
    {merge' : Merge K V} (more : merge.act lru = some merge') :
    ∃ passed', merge'.Ok provider view start passed' ∧
      passed' ++ merge'.pending = passed ++ merge.pending := by
  have ended := ok.ready ready
  have sorted := (pairwise_append.mp ok.sorted).2.1
  cases left : merge.pending with
  | nil =>
    cases has : merge.buffered with
    | none => simp [Merge.act, left, has] at more
    | some entry =>
      obtain rfl : merge.takeBacking lru entry = merge' := by
        simpa [Merge.act, left, has] using more
      refine ⟨passed, ok.takeBacking cached has fun other mem => ?_, by rw [← left]; rfl⟩
      rw [left] at mem
      cases mem
  | cons first rest =>
    have split : passed ++ [first] ++ rest = passed ++ first :: rest := by simp
    cases has : merge.buffered with
    | none =>
      obtain rfl : merge.takePending none (first :: rest) = merge' := by
        simpa [Merge.act, left, has] using more
      exact ⟨passed ++ [first], ok.takePending left
        (.inl ⟨has.symm, fun b v isBuffered => by rw [has] at isBuffered; cases isBuffered⟩) ended,
        split⟩
    | some entry =>
      simp only [Merge.act, left, has] at more
      split at more
      · rename_i lt
        cases more
        refine ⟨passed ++ [first], ok.takePending left (.inl ⟨has.symm, ?_⟩) ended, split⟩
        intro b v isBuffered
        rw [has] at isBuffered
        cases isBuffered
        exact lt
      · rename_i notLt
        split at more
        · rename_i same
          cases more
          refine ⟨passed ++ [first], ok.takePending left (.inr ⟨rfl, entry.2, ?_⟩) ended, split⟩
          rw [has, same]
        · rename_i ne
          cases more
          refine ⟨passed, ok.takeBacking cached has fun other mem => ?_, by rw [← left]; rfl⟩
          have gt : entry.1 < first.1 := lt_of_le_of_ne (not_lt.mp notLt) (Ne.symm ne)
          rw [left] at mem sorted
          rcases mem_cons.mp mem with rfl | later
          · exact gt
          · exact gt.trans ((pairwise_cons.mp sorted).1 other later)

/-- At its end the merge has given what the client sees. -/
theorem Merge.Ok.finish {lru : OrdMap K V}
    (ready : merge.ready = true) (none : merge.act lru = none) :
    merge.out.Pairwise (fun x y => x.1 < y.1) ∧
      ∀ k v, (k, v) ∈ merge.out ↔ start.includes k = true ∧ view k = some v := by
  have ended : merge.pending = [] ∧ merge.buffered = .none := by
    cases left : merge.pending with
    | nil =>
      cases has : merge.buffered with
      | none => exact ⟨rfl, rfl⟩
      | some entry => simp [Merge.act, left, has] at none
    | cons first rest =>
      cases has : merge.buffered with
      | none => simp [Merge.act, left, has] at none
      | some entry =>
        simp only [Merge.act, left, has] at none
        split at none
        · cases none
        · split at none <;> cases none
  refine ⟨ok.outSorted, fun k v => ⟨fun mem => ok.outLive (k, v) mem, ?_⟩⟩
  rintro ⟨includes, seen⟩
  by_cases here : ∃ value, (k, value) ∈ passed ++ merge.pending
  · obtain ⟨value, mem⟩ := here
    have same : value = view k := ok.values _ mem
    rw [seen] at same
    subst same
    rw [ended.1, append_nil] at mem
    exact ok.passedOut k v mem
  · rcases ok.rest k v includes (fun value mem => here ⟨value, mem⟩) seen with
      given | ⟨w, has⟩ | ⟨going, -⟩
    · exact given
    · rw [ended.2] at has
      cases has
    · rw [ok.ready ready ended.2] at going
      cases going

end

end Fugue.Storage.Entities
