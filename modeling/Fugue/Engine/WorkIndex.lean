import Fugue.Engine.Work

/-!
# The two indexes of the work queue

`Indexed` ties the two indexes of the queue together: every queued item lies under its own key, the
location index of its analyser leads to that key, and it leads nowhere else. It is stated for any
class of items that the operations of the queue stay within (`ItemClass`). In such a class a key
determines the analyser and the location of its item, so the assertions of `insert`,
`insert_distinct` and `collapse` never fail. One lemma for each of these says all that it can do.
-/

namespace Fugue.Engine

open Fugue.Lib Fugue.Ir List
open OrdMap (get?_eq_none get?_eq_some mem_erase mem_insert)
open Option (bind_eq_bind bind_some)
open OrdMap (unique)

/-- A piece of work: one address, or the work without a range. -/
inductive Target where
  | address (address : Address)
  | whole

/-- The range of an item covers a piece of work. -/
def Holds : Option AddressRange → Target → Prop
  | some range, .address address => range.Contains address
  | none, .whole => True
  | _, _ => False

/-- Two items for the same work: they differ in causes, attempts and priority only. -/
structure SameWork (item other : WorkItem) : Prop where
  analyser : item.analyser = other.analyser
  order : item.analyserOrder = other.analyserOrder
  phase : item.phase = other.phase
  range : item.range = other.range
  kind : item.kind = other.kind

/-- A class of items with registered analysers, each analyser with an order of its own, that the
operations of the queue stay within. -/
structure ItemClass (count : Nat) (good : WorkItem → Prop) : Prop where
  registered : ∀ {item}, good item → item.analyser < count
  order : ∀ {item other}, good item → good other → item.analyserOrder = other.analyserOrder →
    item.analyser = other.analyser
  same : ∀ {item other}, SameWork item other → good other → good item
  hull : ∀ {item other left right}, good item → good other → item.range = some left →
    other.range = some right → left.space = right.space →
    good (item.withRange (hullRange left right))
  narrow : ∀ {item range}, good item → range.Proper → good (item.withRange range)
  continued : ∀ {item}, good item → good { item with kind := .continuation }
  bounded : ∀ {item range}, good item → item.range = some range →
    range.start < 2 ^ 64 ∧ range.stop < 2 ^ 64

section Items

variable {count : Nat} {good : WorkItem → Prop} {item other : WorkItem}

theorem SameWork.trans {third : WorkItem} (h : SameWork item other) (h' : SameWork other third) :
    SameWork item third :=
  ⟨h.analyser.trans h'.analyser, h.order.trans h'.order, h.phase.trans h'.phase,
    h.range.trans h'.range, h.kind.trans h'.kind⟩

theorem SameWork.location_eq (same : SameWork item other) : item.location = other.location := by
  rw [WorkItem.location, WorkItem.location, same.range, same.kind]

theorem absorb_sameWork (causes : List WorkCause) : SameWork (item.absorb causes).1 item :=
  ⟨rfl, rfl, rfl, rfl, rfl⟩

theorem promote_sameWork : SameWork (item.promote other) item := ⟨rfl, rfl, rfl, rfl, rfl⟩

theorem ItemClass.eq_of_key_eq (items : ItemClass count good) (left : good item)
    (right : good other) (eq : item.key = other.key) :
    item.analyser = other.analyser ∧ item.location = other.location := by
  have kind : item.kind = other.kind := congrArg WorkKey.kind eq
  have address := congrArg WorkKey.address eq
  have stop := congrArg WorkKey.stop eq
  refine ⟨items.order left right (congrArg WorkKey.analyserOrder eq), ?_⟩
  have range : item.range = other.range := by
    simp only [WorkItem.key] at address stop
    cases left : item.range with
    | none =>
      cases right : other.range with
      | none => rfl
      | some range => rw [left, right] at address; cases address
    | some range =>
      cases right : other.range with
      | none => rw [left, right] at address; cases address
      | some range' =>
        rw [left, right] at address stop
        obtain ⟨space, start, stop⟩ := range
        simp only [Option.map_some, AddressRange.startAddress, Option.some.injEq,
          Address.mk.injEq] at address
        dsimp only at stop
        rw [address.1, address.2, stop]
  rw [WorkItem.location, WorkItem.location, range, kind]

end Items

namespace AnalysisWorkQueue

structure Indexed (count : Nat) (good : WorkItem → Prop) (queue : AnalysisWorkQueue) : Prop where
  length : queue.keysByAnalyserAndRange.length = count
  keyed : ∀ key item, (key, item) ∈ queue.items.entries → key = item.key ∧ good item
  indexed : ∀ key item, (key, item) ∈ queue.items.entries →
    ∀ keys, queue.keysByAnalyserAndRange[item.analyser]? = some keys →
      (item.location, key) ∈ keys.entries
  located : ∀ analyser keys, queue.keysByAnalyserAndRange[analyser]? = some keys →
    ∀ location key, (location, key) ∈ keys.entries →
      ∃ item, (key, item) ∈ queue.items.entries ∧ item.analyser = analyser ∧
        item.location = location

/-- Some queued item of the analyser covers the target. -/
def Covers (queue : AnalysisWorkQueue) (analyser : AnalyserId) (target : Target) : Prop :=
  ∃ key item, (key, item) ∈ queue.items.entries ∧ item.analyser = analyser ∧
    Holds item.range target

variable {count : Nat} {good : WorkItem → Prop} {queue : AnalysisWorkQueue} {item : WorkItem}

theorem Indexed.keys_of_lt (inv : Indexed count good queue) {analyser : AnalyserId}
    (lt : analyser < count) :
    ∃ keys, queue.keysByAnalyserAndRange[analyser]? = some keys :=
  ⟨_, getElem?_eq_getElem (by rw [inv.length]; exact lt)⟩

section

variable (items : ItemClass count good) (inv : Indexed count good queue)
include items inv

theorem Indexed.eq_of_location {key key' : WorkKey} {other : WorkItem}
    (mem : (key, item) ∈ queue.items.entries) (mem' : (key', other) ∈ queue.items.entries)
    (analyser : item.analyser = other.analyser) (location : item.location = other.location) :
    key = key' ∧ item = other := by
  obtain ⟨keys, found⟩ := inv.keys_of_lt (items.registered (inv.keyed key item mem).2)
  have left := inv.indexed key item mem keys found
  have right := inv.indexed key' other mem' keys (by rw [← analyser]; exact found)
  rw [location] at left
  have keyEq := unique left right
  subst keyEq
  exact ⟨rfl, unique mem mem'⟩

/-- `insert_distinct` succeeds at a free location and adds the item. -/
theorem insertDistinct_spec (made : good item)
    (free : ∀ key other, (key, other) ∈ queue.items.entries → other.analyser = item.analyser →
      other.location ≠ item.location) :
    ∃ queue', queue.insertDistinct item = some queue' ∧ Indexed count good queue' ∧
      ∀ x, x ∈ queue'.items.entries ↔ x = (item.key, item) ∨ x ∈ queue.items.entries := by
  obtain ⟨keys, found⟩ := inv.keys_of_lt (items.registered made)
  have freshKey : ∀ other, (item.key, other) ∉ queue.items.entries := by
    intro other mem
    obtain ⟨keyEq, made'⟩ := inv.keyed _ _ mem
    obtain ⟨analyser, location⟩ := items.eq_of_key_eq made' made keyEq.symm
    exact free _ _ mem analyser location
  have freshLocation : ∀ key, (item.location, key) ∉ keys.entries := by
    intro key mem
    obtain ⟨other, mem', analyser, location⟩ := inv.located _ _ found _ _ mem
    exact free _ _ mem' analyser location
  have absent : (queue.items.get? item.key).isSome = false := by
    rw [get?_eq_none.mpr freshKey]
    rfl
  have absent' : (keys.get? item.location).isSome = false := by
    rw [get?_eq_none.mpr freshLocation]
    rfl
  have members : ∀ x, x ∈ (queue.items.insert item.key item).entries ↔
      x = (item.key, item) ∨ x ∈ queue.items.entries := by
    rintro ⟨key, other⟩
    rw [mem_insert]
    refine or_congr_right ⟨fun h => h.1, fun mem => ⟨mem, ?_⟩⟩
    rintro rfl
    exact freshKey other mem
  have lt : item.analyser < queue.keysByAnalyserAndRange.length := by
    rw [inv.length]; exact items.registered made
  refine ⟨_, by
    rw [insertDistinct, found, some_bind, absent, absent']
    rfl, ?_, members⟩
  refine ⟨?_, ?_, ?_, ?_⟩
  · rw [length_set]; exact inv.length
  · intro key other mem
    rcases (members _).mp mem with eq | mem
    · cases eq
      exact ⟨rfl, made⟩
    · exact inv.keyed key other mem
  · intro key other mem keys' found'
    rcases (members _).mp mem with eq | mem
    · cases eq
      rw [getElem?_set_self lt] at found'
      cases found'
      exact mem_insert.mpr (.inl rfl)
    · by_cases same : item.analyser = other.analyser
      · rw [← same, getElem?_set_self lt] at found'
        cases found'
        refine mem_insert.mpr (.inr ⟨inv.indexed _ _ mem keys (by rw [← same]; exact found),
          free _ _ mem same.symm⟩)
      · rw [getElem?_set_ne same] at found'
        exact inv.indexed key other mem keys' found'
  · intro analyser keys' found' location key mem
    by_cases same : item.analyser = analyser
    · subst same
      rw [getElem?_set_self lt] at found'
      cases found'
      rcases mem_insert.mp mem with eq | ⟨mem, -⟩
      · cases eq
        exact ⟨item, (members _).mpr (.inl rfl), rfl, rfl⟩
      · obtain ⟨other, mem', analyserEq, locationEq⟩ := inv.located _ _ found _ _ mem
        exact ⟨other, (members _).mpr (.inr mem'), analyserEq, locationEq⟩
    · rw [getElem?_set_ne same] at found'
      obtain ⟨other, mem', analyserEq, locationEq⟩ := inv.located _ _ found' _ _ mem
      exact ⟨other, (members _).mpr (.inr mem'), analyserEq, locationEq⟩

/-- Taking an item out keeps the invariant and every other item. -/
theorem removeItem_spec {key : WorkKey} (mem : (key, item) ∈ queue.items.entries) :
    ∃ queue', queue.removeItem key item = some queue' ∧ Indexed count good queue' ∧
      ∀ x, x ∈ queue'.items.entries ↔ x ∈ queue.items.entries ∧ x.1 ≠ key := by
  obtain ⟨-, made⟩ := inv.keyed key item mem
  obtain ⟨keys, found⟩ := inv.keys_of_lt (items.registered made)
  have lt : item.analyser < queue.keysByAnalyserAndRange.length := by
    rw [inv.length]; exact items.registered made
  refine ⟨_, by rw [removeItem, found]; rfl, ?_, fun x => mem_erase⟩
  refine ⟨?_, ?_, ?_, ?_⟩
  · rw [length_set]; exact inv.length
  · intro key' other mem'
    exact inv.keyed key' other (mem_erase.mp mem').1
  · intro key' other mem' keys' found'
    obtain ⟨mem', ne⟩ := mem_erase.mp mem'
    by_cases same : item.analyser = other.analyser
    · rw [← same, getElem?_set_self lt] at found'
      cases found'
      refine mem_erase.mpr ⟨inv.indexed _ _ mem' keys (by rw [← same]; exact found), ?_⟩
      intro location
      exact ne (inv.eq_of_location items mem mem' same location.symm).1.symm
    · rw [getElem?_set_ne same] at found'
      exact inv.indexed key' other mem' keys' found'
  · intro analyser keys' found' location key' mem'
    by_cases same : item.analyser = analyser
    · subst same
      rw [getElem?_set_self lt] at found'
      cases found'
      obtain ⟨mem', ne⟩ := mem_erase.mp mem'
      obtain ⟨other, otherMem, analyserEq, locationEq⟩ := inv.located _ _ found _ _ mem'
      refine ⟨other, mem_erase.mpr ⟨otherMem, ?_⟩, analyserEq, locationEq⟩
      rintro rfl
      rw [unique otherMem mem] at locationEq
      exact ne locationEq.symm
    · rw [getElem?_set_ne same] at found'
      obtain ⟨other, otherMem, analyserEq, locationEq⟩ := inv.located _ _ found' _ _ mem'
      refine ⟨other, mem_erase.mpr ⟨otherMem, ?_⟩, analyserEq, locationEq⟩
      rintro rfl
      rw [unique otherMem mem] at analyserEq
      exact same analyserEq

end

section Collapse

theorem joinGroup_spec (items : ItemClass count good) {work : CollapsedWork}
    (made : good work.item) (joined : good item) (group : groupOf item = groupOf work.item) :
    good (joinGroup work item).item ∧
      (joinGroup work item).item.analyser = work.item.analyser ∧
      groupOf (joinGroup work item).item = groupOf work.item ∧
      ∀ target, Holds work.item.range target ∨ Holds item.range target →
        Holds (joinGroup work item).item.range target := by
  have space : item.range.map AddressRange.space = work.item.range.map AddressRange.space :=
    congrArg Group.space group
  have base : ((work.item.absorb item.causes).1.promote item).range = work.item.range := rfl
  cases left : work.item.range with
  | none =>
    have right : item.range = none := by simpa [left] using space
    have range : (joinGroup work item).item.range = none := by
      simp [joinGroup, base, left, right]
    have same : SameWork (joinGroup work item).item work.item :=
      ⟨rfl, rfl, rfl, range.trans left.symm, rfl⟩
    refine ⟨items.same same made, rfl, ?_, ?_⟩
    · rw [groupOf, groupOf, range, left]
      rfl
    · intro target holds
      rw [right, or_self] at holds
      rw [range]
      exact holds
  | some current =>
    obtain ⟨other, right, spaceEq⟩ : ∃ other, item.range = some other ∧
        other.space = current.space := by
      rw [left] at space
      exact Option.map_eq_some_iff.mp space
    have range : (joinGroup work item).item.range = some (hullRange current other) := by
      simp [joinGroup, base, left, right]
    have same : SameWork (joinGroup work item).item
        (work.item.withRange (hullRange current other)) := ⟨rfl, rfl, rfl, range, rfl⟩
    refine ⟨items.same same (items.hull made joined left right spaceEq.symm), rfl, ?_, ?_⟩
    · rw [groupOf, groupOf, range, left]
      rfl
    · intro target holds
      rw [range]
      rw [right] at holds
      cases target with
      | whole => exact holds.elim id id
      | address address =>
        rcases holds with ⟨same, inside⟩ | ⟨same, inside⟩
        · exact ⟨same, by simp only [hullRange]; omega, by simp only [hullRange]; omega⟩
        · exact ⟨spaceEq.symm.trans same, by simp only [hullRange]; omega,
            by simp only [hullRange]; omega⟩

/-- The state of the first loop of `collapse`, after the entries `done`. -/
structure CollapseInv (good : WorkItem → Prop) (queue : AnalysisWorkQueue) (analyser : AnalyserId)
    (done : List (Location × WorkKey))
    (state : OrdMap WorkKey WorkItem × OrdMap Group CollapsedWork) : Prop where
  left : ∀ x, x ∈ state.1.entries ↔ x ∈ queue.items.entries ∧ x.1 ∉ done.map Prod.snd
  gathered : ∀ entry ∈ done, ∀ item, (entry.2, item) ∈ queue.items.entries →
    ∃ group work, (group, work) ∈ state.2.entries ∧
      ∀ target, Holds item.range target → Holds work.item.range target
  groups : ∀ group work, (group, work) ∈ state.2.entries →
    good work.item ∧ work.item.analyser = analyser ∧ groupOf work.item = group

variable {analyser : AnalyserId} {keys : OrdMap Location WorkKey}

theorem collapseItem_spec (items : ItemClass count good) (inv : Indexed count good queue)
    (found : queue.keysByAnalyserAndRange[analyser]? = some keys)
    {done rest : List (Location × WorkKey)} {entry : Location × WorkKey}
    (split : done ++ entry :: rest = keys.entries)
    {state : OrdMap WorkKey WorkItem × OrdMap Group CollapsedWork}
    (loop : CollapseInv good queue analyser done state) :
    ∃ state', collapseItem state entry = some state' ∧
      CollapseInv good queue analyser (done ++ [entry]) state' := by
  obtain ⟨location, key⟩ := entry
  have mem : (location, key) ∈ keys.entries := by rw [← split]; simp
  obtain ⟨item, itemMem, analyserEq, locationEq⟩ := inv.located _ _ found _ _ mem
  obtain ⟨-, made⟩ := inv.keyed _ _ itemMem
  -- a key that was met before would lead to an item at two locations
  have fresh : key ∉ done.map Prod.snd := by
    rintro before
    obtain ⟨⟨location', key'⟩, doneMem, rfl⟩ := mem_map.mp before
    have mem' : (location', key') ∈ keys.entries := by rw [← split]; simp [doneMem]
    obtain ⟨item', itemMem', -, locationEq'⟩ := inv.located _ _ found _ _ mem'
    have same : location' = location := by
      rw [← locationEq, ← locationEq', unique itemMem' itemMem]
    have sorted := keys.sorted
    rw [← split, pairwise_append] at sorted
    have lt := sorted.2.2 _ doneMem _ (.head _)
    exact absurd same (ne_of_lt lt)
  have stateMem : (key, item) ∈ state.1.entries := (loop.left _).mpr ⟨itemMem, fresh⟩
  have getItem : state.1.get? key = some item := get?_eq_some.mpr stateMem
  obtain ⟨work, workEq, workGood, workAnalyser, workGroup, workHolds, workKeeps⟩ :
      ∃ work, collapseItem state (location, key) =
          some (state.1.erase key, state.2.insert (groupOf item) work) ∧
        good work.item ∧
        work.item.analyser = analyser ∧ groupOf work.item = groupOf item ∧
        (∀ target, Holds item.range target → Holds work.item.range target) ∧
        ∀ old, (groupOf item, old) ∈ state.2.entries →
          ∀ target, Holds old.item.range target → Holds work.item.range target := by
    cases getGroup : state.2.get? (groupOf item) with
    | none =>
      refine ⟨⟨false, item, 0⟩, ?_, made, analyserEq, rfl, fun _ holds => holds,
        fun old mem => ?_⟩
      · simp only [collapseItem, getItem, getGroup, some_bind]
        rfl
      · exact absurd mem (get?_eq_none.mp getGroup old)
    | some collapsed =>
      have groupMem := get?_eq_some.mp getGroup
      obtain ⟨oldGood, oldAnalyser, oldGroup⟩ := loop.groups _ _ groupMem
      obtain ⟨newGood, newAnalyser, newGroup, newHolds⟩ :=
        joinGroup_spec items oldGood made oldGroup.symm
      refine ⟨joinGroup collapsed item, ?_, newGood, newAnalyser.trans oldAnalyser,
        newGroup.trans oldGroup, fun target holds => newHolds target (.inr holds),
        fun old mem target holds => ?_⟩
      · simp only [collapseItem, getItem, getGroup, some_bind]
        rfl
      · rw [unique mem groupMem] at holds
        exact newHolds target (.inl holds)
  refine ⟨(state.1.erase key, state.2.insert (groupOf item) work), workEq, ?_, ?_, ?_⟩
  · intro x
    rw [mem_erase, loop.left]
    simp [map_append, map_cons, map_nil, mem_append, not_or, and_assoc]
  · intro entry entryMem item' itemMem'
    rcases mem_append.mp entryMem with before | last
    · obtain ⟨group, old, oldMem, oldHolds⟩ := loop.gathered entry before item' itemMem'
      by_cases same : group = groupOf item
      · subst same
        exact ⟨groupOf item, work, mem_insert.mpr (.inl rfl), fun target holds =>
          workKeeps old oldMem target (oldHolds target holds)⟩
      · exact ⟨group, old, mem_insert.mpr (.inr ⟨oldMem, same⟩), oldHolds⟩
    · rw [mem_singleton.mp last] at itemMem'
      rw [unique itemMem' itemMem]
      exact ⟨groupOf item, work, mem_insert.mpr (.inl rfl), workHolds⟩
  · intro group work' mem'
    rcases mem_insert.mp mem' with eq | ⟨mem', -⟩
    · cases eq
      exact ⟨workGood, workAnalyser, workGroup⟩
    · exact loop.groups group work' mem'

theorem foldlM_collapseItem_spec (items : ItemClass count good) (inv : Indexed count good queue)
    (found : queue.keysByAnalyserAndRange[analyser]? = some keys) :
    ∀ (rest done : List (Location × WorkKey))
      (state : OrdMap WorkKey WorkItem × OrdMap Group CollapsedWork),
      done ++ rest = keys.entries → CollapseInv good queue analyser done state →
      ∃ state', rest.foldlM collapseItem state = some state' ∧
        CollapseInv good queue analyser keys.entries state'
  | [], done, state, split, loop => by
    rw [append_nil] at split
    exact ⟨state, rfl, split ▸ loop⟩
  | entry :: rest, done, state, split, loop => by
    obtain ⟨state', step, loop'⟩ := collapseItem_spec items inv found split loop
    obtain ⟨final, run, finalLoop⟩ := foldlM_collapseItem_spec items inv found rest
      (done ++ [entry]) state' (by simpa using split) loop'
    exact ⟨final, by rw [foldlM_cons, step, some_bind, run],
      finalLoop⟩

/-- The queue between the two loops of `collapse` has no item of the analyser. -/
theorem emptied_spec (inv : Indexed count good queue)
    (found : queue.keysByAnalyserAndRange[analyser]? = some keys)
    {state : OrdMap WorkKey WorkItem × OrdMap Group CollapsedWork}
    (loop : CollapseInv good queue analyser keys.entries state) :
    Indexed count good { queue with
      items := state.1
      keysByAnalyserAndRange := queue.keysByAnalyserAndRange.set analyser .empty } ∧
    ∀ key item, (key, item) ∈ state.1.entries ↔
      (key, item) ∈ queue.items.entries ∧ item.analyser ≠ analyser := by
  have members : ∀ key item, (key, item) ∈ state.1.entries ↔
      (key, item) ∈ queue.items.entries ∧ item.analyser ≠ analyser := by
    intro key item
    rw [loop.left]
    refine and_congr_right fun mem => not_congr ⟨fun listed => ?_, fun same => ?_⟩
    · obtain ⟨⟨location, key'⟩, keyMem, rfl⟩ := mem_map.mp listed
      obtain ⟨other, otherMem, analyserEq, -⟩ := inv.located _ _ found _ _ keyMem
      rw [unique mem otherMem]
      exact analyserEq
    · exact mem_map.mpr ⟨_, inv.indexed key item mem keys (by rw [same]; exact found), rfl⟩
  refine ⟨⟨?_, ?_, ?_, ?_⟩, members⟩
  · rw [length_set]; exact inv.length
  · intro key item mem
    exact inv.keyed key item ((members _ _).mp mem).1
  · intro key item mem keys' found'
    obtain ⟨mem, ne⟩ := (members _ _).mp mem
    rw [getElem?_set_ne (Ne.symm ne)] at found'
    exact inv.indexed key item mem keys' found'
  · intro other keys' found' location key mem
    by_cases same : analyser = other
    · subst same
      rw [getElem?_set_self (lt_of_getElem? found)] at found'
      cases found'
      exact absurd mem not_mem_nil
    · rw [getElem?_set_ne same] at found'
      obtain ⟨item, itemMem, analyserEq, locationEq⟩ := inv.located _ _ found' _ _ mem
      refine ⟨item, (members _ _).mpr ⟨itemMem, ?_⟩, analyserEq, locationEq⟩
      rw [analyserEq]
      exact Ne.symm same

/-- The second loop of `collapse` adds the items of its groups: two groups differ in the space or
the kind, so their items never meet at one location. -/
theorem foldlM_insertCollapsed_spec (items : ItemClass count good)
    {groups : OrdMap Group CollapsedWork} (valid : ∀ group work, (group, work) ∈ groups.entries →
      good work.item ∧ work.item.analyser = analyser ∧ groupOf work.item = group) :
    ∀ (rest done : List (Group × CollapsedWork)) (state : AnalysisWorkQueue × DegradationReport),
      done ++ rest = groups.entries → Indexed count good state.1 →
      (∀ key item, (key, item) ∈ state.1.items.entries → item.analyser = analyser →
        groupOf item ∈ done.map Prod.fst) →
      ∃ state', rest.foldlM insertCollapsed state = some state' ∧ Indexed count good state'.1 ∧
        ∀ x, x ∈ state'.1.items.entries ↔ x ∈ state.1.items.entries ∨
          ∃ entry ∈ rest, x = (entry.2.item.key, entry.2.item)
  | [], _, state, _, inv, _ => ⟨state, rfl, inv, by simp⟩
  | (group, work) :: rest, done, (queue, report), split, inv, grouped => by
    have mem : (group, work) ∈ groups.entries := by rw [← split]; simp
    obtain ⟨made, analyserEq, groupEq⟩ := valid group work mem
    have free : ∀ key other, (key, other) ∈ queue.items.entries →
        other.analyser = work.item.analyser → other.location ≠ work.item.location := by
      intro key other otherMem same location
      have before := grouped key other otherMem (same.trans analyserEq)
      have groupSame : groupOf other = group := by
        rw [← groupEq]
        exact congrArg (fun l : Location => Group.mk (l.range.map AddressRange.space) l.kind)
          location
      obtain ⟨⟨group', work'⟩, doneMem, rfl⟩ := mem_map.mp before
      have sorted := groups.sorted
      rw [← split, pairwise_append] at sorted
      exact absurd groupSame (ne_of_lt (sorted.2.2 _ doneMem _ (.head _)))
    obtain ⟨queue', step, inv', members⟩ := insertDistinct_spec items inv made free
    have step' : ∃ report', insertCollapsed (queue, report) (group, work) =
        some (queue', report') := ⟨_, by
      simp only [insertCollapsed, step, some_bind]
      rfl⟩
    obtain ⟨report', step'⟩ := step'
    obtain ⟨final, run, finalInv, finalMembers⟩ := foldlM_insertCollapsed_spec items valid
      rest (done ++ [(group, work)]) (queue', report') (by simpa using split) inv' (by
        intro key item itemMem same
        rw [map_append, mem_append]
        rcases (members _).mp itemMem with eq | itemMem
        · cases eq
          rw [groupEq]
          exact .inr (by simp)
        · exact .inl (grouped key item itemMem same))
    refine ⟨final, by rw [foldlM_cons, step', some_bind, run],
      finalInv, fun x => ?_⟩
    rw [finalMembers, members]
    simp only [exists_mem_cons_iff]
    tauto

/-- What `collapse` does: the items of the other analysers stay, those of the analyser end in
pairwise different groups, and what it covered is covered again. -/
structure Collapsed (queue : AnalysisWorkQueue) (analyser : AnalyserId)
    (queue' : AnalysisWorkQueue) : Prop where
  others : ∀ key item, item.analyser ≠ analyser →
    ((key, item) ∈ queue'.items.entries ↔ (key, item) ∈ queue.items.entries)
  separate : ∀ x ∈ queue'.items.entries, ∀ y ∈ queue'.items.entries,
    x.2.analyser = analyser → y.2.analyser = analyser → groupOf x.2 = groupOf y.2 → x = y
  covers : ∀ target, Covers queue analyser target → Covers queue' analyser target

theorem collapse_spec (items : ItemClass count good) (inv : Indexed count good queue)
    (lt : analyser < count) :
    ∃ queue' report, queue.collapse analyser = some (queue', report) ∧
      Indexed count good queue' ∧ Collapsed queue analyser queue' := by
  obtain ⟨keys, found⟩ := inv.keys_of_lt lt
  obtain ⟨⟨left, groups⟩, first, loop⟩ := foldlM_collapseItem_spec items inv found keys.entries []
    (queue.items, .empty) rfl ⟨by simp, by simp, by simp [OrdMap.empty]⟩
  obtain ⟨emptiedInv, emptiedMembers⟩ := emptied_spec inv found loop
  obtain ⟨⟨queue', report⟩, second, inv', members⟩ := foldlM_insertCollapsed_spec items loop.groups
    groups.entries [] (_, []) rfl emptiedInv (by
      intro key item mem same
      exact absurd same ((emptiedMembers _ _).mp mem).2)
  have grouped : ∀ x ∈ queue'.items.entries, x.2.analyser = analyser →
      ∃ entry ∈ groups.entries, x = (entry.2.item.key, entry.2.item) ∧ groupOf x.2 = entry.1 := by
    intro x mem same
    rcases (members x).mp mem with old | ⟨entry, entryMem, eq⟩
    · exact absurd same ((emptiedMembers x.1 x.2).mp old).2
    · refine ⟨entry, entryMem, eq, ?_⟩
      rw [eq]
      exact (loop.groups _ _ entryMem).2.2
  refine ⟨queue', report, ?_, inv', ?_, ?_, ?_⟩
  · rw [collapse, found, some_bind, first]
    exact second
  · intro key item ne
    rw [members, emptiedMembers]
    refine ⟨?_, fun mem => .inl ⟨mem, ne⟩⟩
    rintro (⟨mem, -⟩ | ⟨entry, entryMem, eq⟩)
    · exact mem
    · cases eq
      exact absurd (loop.groups _ _ entryMem).2.1 ne
  · intro x memX y memY sameX sameY group
    obtain ⟨⟨groupX, workX⟩, entryX, eqX, groupEqX⟩ := grouped x memX sameX
    obtain ⟨⟨groupY, workY⟩, entryY, eqY, groupEqY⟩ := grouped y memY sameY
    dsimp only at groupEqX groupEqY
    rw [← groupEqX, group, groupEqY] at entryX
    rw [eqX, eqY, unique entryX entryY]
  · rintro target ⟨key, item, mem, same, holds⟩
    have listed := inv.indexed key item mem keys (by rw [same]; exact found)
    obtain ⟨group, work, groupMem, workHolds⟩ := loop.gathered _ listed item mem
    exact ⟨_, _, (members _).mpr (.inr ⟨_, groupMem, rfl⟩), (loop.groups _ _ groupMem).2.1,
      workHolds target holds⟩

end Collapse

section Insert

/-- What `insert` does: the item at the location is replaced by one for the same work, or the item
is added at a free location and the analyser stays within the limit, or it is added and the analyser
exceeds the limit, so that its items are collapsed. -/
inductive Inserted (queue : AnalysisWorkQueue) (item : WorkItem) : AnalysisWorkQueue → Prop
  | merged {queue' : AnalysisWorkQueue} {key : WorkKey} {old promoted : WorkItem}
      (present : (key, old) ∈ queue.items.entries)
      (analyser : old.analyser = item.analyser) (location : old.location = item.location)
      (same : SameWork promoted old)
      (members : ∀ x, x ∈ queue'.items.entries ↔
        x = (promoted.key, promoted) ∨ (x ∈ queue.items.entries ∧ x.1 ≠ key)) :
      Inserted queue item queue'
  | added {queue' : AnalysisWorkQueue} {keys : OrdMap Location WorkKey}
      (free : ∀ x ∈ queue.items.entries, x.2.analyser = item.analyser →
        x.2.location ≠ item.location)
      (members : ∀ x, x ∈ queue'.items.entries ↔ x = (item.key, item) ∨ x ∈ queue.items.entries)
      (found : queue'.keysByAnalyserAndRange[item.analyser]? = some keys)
      (within : keys.len ≤ maxWorkItemsPerAnalyser) :
      Inserted queue item queue'
  | collapsed {middle queue' : AnalysisWorkQueue} {keys : OrdMap Location WorkKey}
      (free : ∀ x ∈ queue.items.entries, x.2.analyser = item.analyser →
        x.2.location ≠ item.location)
      (members : ∀ x, x ∈ middle.items.entries ↔ x = (item.key, item) ∨ x ∈ queue.items.entries)
      (found : middle.keysByAnalyserAndRange[item.analyser]? = some keys)
      (listed : ∀ entry ∈ keys.entries, ∃ x ∈ middle.items.entries,
        x.2.analyser = item.analyser ∧ x.2.location = entry.1)
      (exceeds : maxWorkItemsPerAnalyser < keys.len)
      (collapsed : Collapsed middle item.analyser queue') :
      Inserted queue item queue'

/-- Merging an item into the one at its location: the queue is the one that takes the old item out
and puts the promoted one in. -/
theorem insert_existing (items : ItemClass count good) (inv : Indexed count good queue)
    {keys : OrdMap Location WorkKey} {key : WorkKey} {old : WorkItem}
    (found : queue.keysByAnalyserAndRange[item.analyser]? = some keys)
    (present : queue.existing keys item.location = some (key, old))
    (mem : (key, old) ∈ queue.items.entries) (analyserEq : old.analyser = item.analyser)
    (locationEq : old.location = item.location) :
    ∃ queue' report, queue.insert item = some (queue', report) ∧ Indexed count good queue' ∧
      Inserted queue item queue' := by
  obtain ⟨-, made⟩ := inv.keyed key old mem
  obtain ⟨removed, remove, removedInv, removedMembers⟩ := removeItem_spec items inv mem
  set promoted := (old.absorb item.causes).1.promote item with promotedEq
  have same : SameWork promoted old := promote_sameWork.trans (absorb_sameWork item.causes)
  have free : ∀ key' other, (key', other) ∈ removed.items.entries →
      other.analyser = promoted.analyser → other.location ≠ promoted.location := by
    intro key' other otherMem otherAnalyser otherLocation
    obtain ⟨otherMem, ne⟩ := (removedMembers _).mp otherMem
    exact ne (inv.eq_of_location items otherMem mem otherAnalyser otherLocation).1
  obtain ⟨queue', add, inv', members⟩ :=
    insertDistinct_spec items removedInv (items.same same made) free
  refine ⟨queue', if (old.absorb item.causes).2 then [⟨.causesMerged, item.scope⟩] else [], ?_,
    inv', .merged mem analyserEq locationEq same fun x => by rw [members, removedMembers]⟩
  -- both ways end in the same two indexes
  have lt := lt_of_getElem? found
  rw [removeItem, analyserEq, found, some_bind] at remove
  cases remove
  have analyserEq' : promoted.analyser = item.analyser := same.analyser.trans analyserEq
  have locationEq' : promoted.location = item.location := same.location_eq.trans locationEq
  rw [insertDistinct, analyserEq', getElem?_set_self lt,
    some_bind, set_set, locationEq', locationEq] at add
  have keysEq : (keys.erase item.location).insert item.location promoted.key =
      keys.insert item.location promoted.key := by
    refine OrdMap.eq_of_mem_iff fun x => ?_
    simp only [mem_insert, mem_erase]
    tauto
  rw [keysEq] at add
  split at add
  · cases add
  · rename_i absent
    cases add
    rw [insert, found, some_bind, present]
    rw [Bool.or_eq_true, not_or] at absent
    simp only [← promotedEq, if_neg absent.1]
    rfl

/-- `insert` of an item of the class succeeds and keeps the indexes in agreement. -/
theorem insert_indexed (items : ItemClass count good) (inv : Indexed count good queue)
    (made : good item) :
    ∃ queue' report, queue.insert item = some (queue', report) ∧ Indexed count good queue' ∧
      Inserted queue item queue' := by
  obtain ⟨keys, found⟩ := inv.keys_of_lt (items.registered made)
  cases present : queue.existing keys item.location with
  | some entry =>
    obtain ⟨key', keyFound, present'⟩ := Option.bind_eq_some_iff.mp present
    obtain ⟨old', oldFound, eq⟩ := Option.bind_eq_some_iff.mp present'
    cases eq
    have mem := get?_eq_some.mp oldFound
    obtain ⟨other, otherMem, analyserEq, locationEq⟩ :=
      inv.located _ _ found _ _ (get?_eq_some.mp keyFound)
    rw [unique otherMem mem] at analyserEq locationEq
    exact insert_existing items inv found present mem analyserEq locationEq
  | none =>
    have free : ∀ x ∈ queue.items.entries, x.2.analyser = item.analyser →
        x.2.location ≠ item.location := by
      intro x mem same location
      have listed := inv.indexed x.1 x.2 mem keys (by rw [same]; exact found)
      rw [location] at listed
      rw [existing, get?_eq_some.mpr listed, some_bind, get?_eq_some.mpr mem] at present
      cases present
    obtain ⟨middle, add, middleInv, members⟩ :=
      insertDistinct_spec items inv made fun key other mem => free (key, other) mem
    obtain ⟨keys', found'⟩ := middleInv.keys_of_lt (items.registered made)
    have unfolded : queue.insert item =
        if maxWorkItemsPerAnalyser < keys'.len then middle.collapse item.analyser
        else some (middle, []) := by
      rw [insert, found, some_bind, present]
      simp only [add, some_bind, found']
      rfl
    rw [unfolded]
    split
    · rename_i exceeds
      obtain ⟨queue', report, step, inv', collapsed⟩ :=
        collapse_spec items middleInv (items.registered made)
      have listed : ∀ entry ∈ keys'.entries, ∃ x ∈ middle.items.entries,
          x.2.analyser = item.analyser ∧ x.2.location = entry.1 := by
        intro entry entryMem
        obtain ⟨other, otherMem, own, location⟩ := middleInv.located _ _ found' _ _ entryMem
        exact ⟨_, otherMem, own, location⟩
      exact ⟨queue', report, step, inv', .collapsed free members found' listed exceeds collapsed⟩
    · rename_i within
      exact ⟨middle, [], rfl, middleInv, .added free members found' (not_lt.mp within)⟩

section

variable {queue' : AnalysisWorkQueue} (step : Inserted queue item queue')
include step

theorem Inserted.covers
    {analyser : AnalyserId} {target : Target} (covers : Covers queue analyser target) :
    Covers queue' analyser target := by
  obtain ⟨key, other, mem, same, holds⟩ := covers
  cases step with
  | @merged _ oldKey old promoted present analyserEq _ work members =>
    by_cases eq : key = oldKey
    · subst eq
      rw [unique mem present] at same holds
      refine ⟨_, promoted, (members _).mpr (.inl rfl), work.analyser.trans same, ?_⟩
      rw [work.range]
      exact holds
    · exact ⟨key, other, (members _).mpr (.inr ⟨mem, eq⟩), same, holds⟩
  | added _ members => exact ⟨key, other, (members _).mpr (.inr mem), same, holds⟩
  | collapsed _ members _ _ _ collapsed =>
    have mem' := (members _).mpr (.inr mem)
    by_cases own : other.analyser = item.analyser
    · rw [← same, own]
      exact collapsed.covers target ⟨key, other, mem', own, holds⟩
    · exact ⟨key, other, (collapsed.others _ _ own).mpr mem', same, holds⟩

theorem Inserted.covers_item {target : Target} (holds : Holds item.range target) :
    Covers queue' item.analyser target := by
  cases step with
  | @merged _ _ _ promoted _ analyserEq locationEq work members =>
    have range : promoted.range = item.range :=
      work.range.trans (congrArg Location.range locationEq)
    exact ⟨_, promoted, (members _).mpr (.inl rfl), work.analyser.trans analyserEq, by
      rw [range]; exact holds⟩
  | added _ members => exact ⟨_, item, (members _).mpr (.inl rfl), rfl, holds⟩
  | collapsed _ members _ _ _ collapsed =>
    exact collapsed.covers target ⟨_, item, (members _).mpr (.inl rfl), rfl, holds⟩

theorem Inserted.withDegradations (degradations : DegradationReport) :
    Inserted queue item { queue' with degradations } := by
  cases step with
  | merged present analyser location same members =>
    exact .merged present analyser location same members
  | added free members found within => exact .added free members found within
  | collapsed free members found listed exceeds collapsed =>
    exact .collapsed free members found listed exceeds
      ⟨collapsed.others, collapsed.separate, collapsed.covers⟩

end

theorem Indexed.withDegradations (inv : Indexed count good queue)
    (degradations : DegradationReport) : Indexed count good { queue with degradations } :=
  ⟨inv.length, inv.keyed, inv.indexed, inv.located⟩

end Insert

section Pop

/-- The two halves of a range that exceeds the budget: both are proper, the first one fits, and
together they have every address of the range. -/
theorem split_spec {range : AddressRange} {budget : Nat} (proper : range.Proper)
    (positive : budget ≠ 0) (bound : budget < 2 ^ 64) (exceeds : exceeds range budget = true) :
    let first : AddressRange := ⟨range.space, range.start, addRaw range.start (budget - 1)⟩
    let second : AddressRange :=
      ⟨range.space, addRaw (addRaw range.start (budget - 1)) 1, range.stop⟩
    first.Proper ∧ second.Proper ∧ first.size = some budget ∧
      ∀ target, Holds (some range) target →
        Holds (some first) target ∨ Holds (some second) target := by
  have high := proper.stop_lt
  have room : range.start + budget ≤ range.stop := by
    rw [AnalysisWorkQueue.exceeds, proper.size_eq] at exceeds
    by_cases fits : range.stop - range.start + 1 < 2 ^ 64
    · rw [if_pos fits] at exceeds
      have := of_decide_eq_true exceeds
      omega
    · omega
  have splitEq : addRaw range.start (budget - 1) = range.start + (budget - 1) :=
    Nat.mod_eq_of_lt (by omega)
  have nextEq : addRaw (range.start + (budget - 1)) 1 = range.start + budget := by
    unfold addRaw
    omega
  intro first second
  have firstEq : first = ⟨range.space, range.start, range.start + (budget - 1)⟩ := by
    simp [first, splitEq]
  have secondEq : second = ⟨range.space, range.start + budget, range.stop⟩ := by
    simp [second, splitEq, nextEq]
  have firstProper : first.Proper := by
    rw [firstEq]
    exact ⟨by dsimp only; omega, by dsimp only; omega⟩
  have secondProper : second.Proper := by
    rw [secondEq]
    exact ⟨by dsimp only; omega, by dsimp only; omega⟩
  refine ⟨firstProper, secondProper, ?_, ?_⟩
  · rw [firstProper.size_eq, firstEq]
    dsimp only
    rw [if_pos (by omega)]
    exact congrArg some (by omega)
  · rw [firstEq, secondEq]
    rintro (address | _) holds
    · obtain ⟨same, low', high'⟩ := holds
      by_cases before : address.address < range.start + budget
      · exact .inl ⟨same, low', by dsimp only; omega⟩
      · exact .inr ⟨same, by dsimp only; omega, high'⟩
    · cases holds

/-- What `pop` does: nothing, or it hands out the first item, or the first part of its range while
the remainder of the range is inserted again. -/
inductive Popping (queue : AnalysisWorkQueue) (budget : Nat) :
    AnalysisWorkQueue → Option WorkItem → Prop
  | idle : Popping queue budget queue none
  | whole {key : WorkKey} {item : WorkItem} {rest : List (WorkKey × WorkItem)}
      {removed : AnalysisWorkQueue} {cost : Nat} (head : queue.items.entries = (key, item) :: rest)
      (remove : queue.removeItem key item = some removed)
      (members : ∀ x, x ∈ removed.items.entries ↔ x ∈ queue.items.entries ∧ x.1 ≠ key)
      (costEq : item.cost = some cost) (le : cost ≤ budget) :
      Popping queue budget removed (some item)
  | split {key : WorkKey} {item : WorkItem} {rest : List (WorkKey × WorkItem)}
      {removed queue' : AnalysisWorkQueue} {range : AddressRange}
      (head : queue.items.entries = (key, item) :: rest)
      (remove : queue.removeItem key item = some removed)
      (members : ∀ x, x ∈ removed.items.entries ↔ x ∈ queue.items.entries ∧ x.1 ≠ key)
      (rangeEq : item.range = some range) (proper : range.Proper) (positive : budget ≠ 0)
      (exceeds : exceeds range budget = true)
      (step : Inserted removed (item.withRange
        ⟨range.space, addRaw (addRaw range.start (budget - 1)) 1, range.stop⟩) queue') :
      Popping queue budget queue' (some (item.withRange
        ⟨range.space, range.start, addRaw range.start (budget - 1)⟩))

theorem pop_indexed (items : ItemClass count good) (inv : Indexed count good queue)
    {budget : Nat} (bound : budget < 2 ^ 64) :
    ∃ queue' popped, queue.pop budget = some (queue', popped) ∧ Indexed count good queue' ∧
      Popping queue budget queue' popped := by
  unfold pop
  split
  · exact ⟨queue, none, rfl, inv, .idle⟩
  · rename_i positive
    cases head : queue.items.entries with
    | nil => exact ⟨queue, none, rfl, inv, .idle⟩
    | cons entry rest =>
      obtain ⟨key, item⟩ := entry
      have mem : (key, item) ∈ queue.items.entries := by rw [head]; exact .head _
      obtain ⟨-, made⟩ := inv.keyed _ _ mem
      obtain ⟨removed, remove, removedInv, members⟩ := removeItem_spec items inv mem
      simp only [remove, some_bind]
      cases rangeEq : item.range with
      | none =>
        have costEq : item.cost = some 1 := by rw [WorkItem.cost, rangeEq]
        exact ⟨removed, some item, rfl, removedInv, .whole head remove members costEq (by omega)⟩
      | some range =>
        dsimp only
        split
        · rename_i exceeds
          -- an empty range never exceeds a budget
          have proper : range.Proper := by
            refine ⟨?_, (items.bounded made rangeEq).2⟩
            by_contra reversed
            rw [AnalysisWorkQueue.exceeds, AddressRange.size, if_pos (not_le.mp reversed)]
              at exceeds
            simp at exceeds
          have remainder := items.narrow made (split_spec proper positive bound exceeds).2.1
          obtain ⟨queue', report, add, inv', step⟩ := insert_indexed items removedInv remainder
          refine ⟨{ queue' with
            degradations := DegradationReport.extend queue'.degradations report }, _,
            by simp only [add]; rfl, inv'.withDegradations _,
            .split head remove members rangeEq proper positive exceeds (step.withDegradations _)⟩
        · rename_i fits
          unfold exceeds at fits
          split at fits
          · exact absurd rfl fits
          · rename_i size sizeEq
            have costEq : item.cost = some size := by
              rw [WorkItem.cost, rangeEq]
              exact sizeEq
            exact ⟨removed, some item, rfl, removedInv,
              .whole head remove members costEq (by simpa using fits)⟩

end Pop

end AnalysisWorkQueue

end Fugue.Engine
