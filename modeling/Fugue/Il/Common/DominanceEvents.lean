import Fugue.Il.Common.Frontier

/-!
# Walking the dominator tree

`IlDominance::events_from` and `IlDominanceEvents` (`fugue-core/src/il/common/dominance.rs`): the
events of a depth-first walk of the dominator tree. From the entry the walk enters every reachable
block once, before the blocks below it, and leaves it after them.
-/

namespace Fugue.Il

open Fugue.Lib List

def IlDominanceEvent.entered : List IlDominanceEvent → List IlBlockId
  | [] => []
  | .enter block :: events => block :: entered events
  | .exit _ :: events => entered events

namespace IlDominance

/-- The pending events of `IlDominanceEvents`, the next one at the head, and those it has given. -/
structure EventState where
  pending : List IlDominanceEvent
  given : List IlDominanceEvent

variable (dominance : IlDominance)

/-- `IlDominanceEvents::next` (`dominance.rs:33-47`). -/
def eventStep (s : EventState) : Option (EventState ⊕ List IlDominanceEvent) :=
  match s.pending with
  | [] => some (.inr s.given)
  | .enter block :: pending =>
    some (.inl ⟨(dominance.childrenFor block).map .enter ++ .exit block :: pending,
      s.given ++ [.enter block]⟩)
  | .exit block :: pending => some (.inl ⟨pending, s.given ++ [.exit block]⟩)

/-- All events of `events_from` (`dominance.rs:70-80`). -/
def eventsFrom (root : IlBlockId) : Option (List IlDominanceEvent) :=
  runLoop dominance.eventStep (2 * dominance.reachable.length + 2)
    ⟨if dominance.isReachable root then [.enter root] else [], []⟩

def eventOf : IlBlockId × Bool → IlDominanceEvent
  | (block, false) => .enter block
  | (block, true) => .exit block

variable {dominance : IlDominance} {blocks : List IlBlock} {successors : List IlBlockId}
  {entry : IlBlockId}

/-- What the walk still gives, after what it has given. -/
structure EventInv (dominance : IlDominance) (entry : IlBlockId) (count : Nat) (s : EventState)
    (stack : List (IlBlockId × Bool)) : Prop where
  stack_eq : s.pending = stack.map eventOf
  split : s.given ++
      (pending dominance.childrenFor (depth dominance count) (count + 1) stack).map eventOf =
    (traverse dominance.childrenFor (depth dominance count) (count + 1) entry).map eventOf
  placed : ∀ item ∈ stack, (treeParent dominance entry item.1).isSome

theorem eventStep_inv (tree : IsChildren (treeParent dominance entry) entry
    (depth dominance blocks.length) dominance.childrenFor (blocks.length + 1)) {s : EventState}
    {b : IlBlockId} {expanded : Bool} {stack : List (IlBlockId × Bool)}
    (inv : EventInv dominance entry blocks.length s ((b, expanded) :: stack)) :
    ∃ next rest, dominance.eventStep s = some (.inl next) ∧
      EventInv dominance entry blocks.length next rest ∧
      (Lib.pending dominance.childrenFor (depth dominance blocks.length) (blocks.length + 1)
        rest).length + 1 =
      (Lib.pending dominance.childrenFor (depth dominance blocks.length) (blocks.length + 1)
        ((b, expanded) :: stack)).length := by
  obtain ⟨isPlaced, below⟩ := forall_mem_cons.mp inv.placed
  have split := inv.split
  cases expanded with
  | true =>
    refine ⟨⟨stack.map eventOf, s.given ++ [.exit b]⟩, stack, ?_, ⟨rfl, ?_, below⟩, rfl⟩
    · rw [eventStep, inv.stack_eq]
      rfl
    · rw [← split, append_assoc]
      rfl
  | false =>
    rw [tree.pending_enter isPlaced] at split ⊢
    refine ⟨⟨(dominance.childrenFor b).map .enter ++ .exit b :: stack.map eventOf,
      s.given ++ [.enter b]⟩, (dominance.childrenFor b).map (·, false) ++ (b, true) :: stack,
      ?_, ⟨?_, ?_, ?_⟩, rfl⟩
    · rw [eventStep, inv.stack_eq]
      rfl
    · simp [eventOf, Function.comp_def]
    · rw [← split, append_assoc]
      rfl
    · intro item mem
      rcases mem_append.mp mem with mem | mem
      · obtain ⟨c, child, rfl⟩ := mem_map.mp mem
        exact tree.placed child
      · rcases mem_cons.mp mem with rfl | mem
        · exact isPlaced
        · exact below item mem

theorem Exact.eventsFrom_eq (exact_ : dominance.Exact blocks successors entry)
    (inRange : GraphInRange blocks successors) (entryLt : entry < blocks.length) :
    dominance.eventsFrom entry = some ((traverse dominance.childrenFor
      (depth dominance blocks.length) (blocks.length + 1) entry).map eventOf) := by
  have tree := exact_.isChildren inRange entryLt
  have entryPlaced : (treeParent dominance entry entry).isSome :=
    exact_.treeParent_isSome_iff.mpr reaches_entry
  have inside : ∀ b, (treeParent dominance entry b).isSome → b < dominance.reachable.length := by
    intro b placed
    have reached := (exact_.isReachable_iff b).mpr (exact_.treeParent_isSome_iff.mp placed)
    by_contra outside
    rw [isReachable, getElem?_eq_none (not_lt.mp outside)] at reached
    cases reached
  have round : ∀ left s, (∃ stack, EventInv dominance entry blocks.length s stack ∧
      (Lib.pending dominance.childrenFor (depth dominance blocks.length) (blocks.length + 1)
        stack).length = left) →
      (∃ next, dominance.eventStep s = some (.inl next) ∧ ∃ fewer < left, ∃ stack,
        EventInv dominance entry blocks.length next stack ∧
        (Lib.pending dominance.childrenFor (depth dominance blocks.length) (blocks.length + 1)
          stack).length = fewer) ∨
      ∃ events, dominance.eventStep s = some (.inr events) ∧
        events = (traverse dominance.childrenFor (depth dominance blocks.length)
          (blocks.length + 1) entry).map eventOf := by
    rintro left s ⟨stack, inv, rfl⟩
    cases stack with
    | nil =>
      refine .inr ⟨s.given, by rw [eventStep, inv.stack_eq]; rfl, ?_⟩
      rw [← inv.split]
      exact (append_nil _).symm
    | cons item stack =>
      obtain ⟨b, expanded⟩ := item
      obtain ⟨next, rest, step, kept, fewer⟩ := eventStep_inv tree inv
      exact .inl ⟨next, step, _, by omega, rest, kept, rfl⟩
  have start : EventInv dominance entry blocks.length ⟨[.enter entry], []⟩ [(entry, false)] := by
    refine ⟨rfl, ?_, ?_⟩
    · rw [IsChildren.pending_start]
      rfl
    · intro item mem
      rw [mem_singleton.mp mem]
      exact entryPlaced
  have enough := tree.length_traverse_le entryPlaced inside
  obtain ⟨events, run, rfl⟩ := runLoop_total_indexed _ _ round (2 * dominance.reachable.length + 2)
    _ _ ⟨_, start, rfl⟩ (by rw [IsChildren.pending_start]; omega)
  unfold eventsFrom
  rw [(exact_.isReachable_iff entry).mpr reaches_entry]
  exact run

theorem entered_map_eventOf (items : List (IlBlockId × Bool)) :
    IlDominanceEvent.entered (items.map eventOf) = (items.filter (!·.2)).map Prod.fst := by
  induction items with
  | nil => rfl
  | cons item items ih =>
    obtain ⟨b, expanded⟩ := item
    cases expanded <;> simp [eventOf, IlDominanceEvent.entered, ih]

theorem Exact.nodup_entered (exact_ : dominance.Exact blocks successors entry)
    (inRange : GraphInRange blocks successors) (entryLt : entry < blocks.length)
    {events : List IlDominanceEvent} (run : dominance.eventsFrom entry = some events) :
    (IlDominanceEvent.entered events).Nodup := by
  rw [exact_.eventsFrom_eq inRange entryLt] at run
  cases run
  rw [entered_map_eventOf]
  have nodup := (exact_.isChildren inRange entryLt).nodup_traverse (b := entry)
  refine List.Nodup.map_on ?_ (nodup.filter _)
  rintro ⟨a, left⟩ memA ⟨b, right⟩ memB same
  simp only [mem_filter, Bool.not_eq_eq_eq_not, Bool.not_true] at memA memB
  exact Prod.ext same (memA.2.trans memB.2.symm)

end IlDominance

end Fugue.Il
