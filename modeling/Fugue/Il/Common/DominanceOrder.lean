import Fugue.Il.Common.Dominance
import Fugue.Lib.FlowOrder

/-!
# The reverse postorder of the dominance solver

`compute_reverse_postorder` keeps the blocks it has entered but not finished as marks on its
stack. Listing the finished blocks and then the marks from the top down gives the order in which
all of them finish; a round of the loop either leaves that list alone or puts the block it enters
in front of the marks.
-/

namespace Fugue.Il.DominanceSolver

open Fugue.Lib List OrderState

variable {blocks : List IlBlock} {successors : List IlBlockId} {entry : IlBlockId}

/-- The blocks on the stack that were entered and are not finished, from the top down. -/
def marks (stack : List (IlBlockId × Bool)) : List IlBlockId :=
  stack.filterMap fun (block, expanded) => if expanded then some block else none

theorem marks_append (above below : List (IlBlockId × Bool)) :
    marks (above ++ below) = marks above ++ marks below := by simp [marks]

theorem marks_pending (pending : List IlBlockId) : marks (pending.map (·, false)) = [] := by
  simp [marks]

theorem marks_cons_true (block : IlBlockId) (stack : List (IlBlockId × Bool)) :
    marks ((block, true) :: stack) = block :: marks stack := rfl

theorem marks_cons_false (block : IlBlockId) (stack : List (IlBlockId × Bool)) :
    marks ((block, false) :: stack) = marks stack := rfl

/-- Every block that waits on the stack was pushed by a mark below it. -/
def Pushed (edge : IlBlockId → IlBlockId → Prop) (entry : IlBlockId) :
    List (IlBlockId × Bool) → Prop
  | [] => True
  | (block, expanded) :: below =>
    (expanded = false → block = entry ∨ ∃ p ∈ marks below, edge p block) ∧ Pushed edge entry below

variable {stack : List (IlBlockId × Bool)}

variable {block : IlBlockId}

theorem Pushed.expand {edge : IlBlockId → IlBlockId → Prop} (h : Pushed edge entry stack) :
    ∀ pending : List IlBlockId, (∀ successor ∈ pending, edge block successor) →
      Pushed edge entry (pending.map (·, false) ++ (block, true) :: stack)
  | [], _ => ⟨by simp, h⟩
  | successor :: pending, edges => by
    have mark : block ∈ marks (pending.map (·, false) ++ (block, true) :: stack) := by
      rw [marks_append, marks_pending, marks_cons_true]
      exact .head _
    exact ⟨fun _ => .inr ⟨block, mark, edges successor (.head _)⟩,
      h.expand pending fun other mem => edges other (.tail _ mem)⟩

/-- The blocks entered so far, in the order in which they finish. -/
def OrderState.entered (s : OrderState) : List IlBlockId := s.postorder ++ marks s.stack

/-- The invariant of `compute_reverse_postorder`. -/
structure OrderInv (blocks : List IlBlock) (successors : List IlBlockId) (entry : IlBlockId)
    (s : OrderState) : Prop where
  visitedLength : s.visited.length = blocks.length
  sameReachable : s.reachable = s.visited
  visited_iff : ∀ b, s.visited[b]? = some true ↔ b ∈ s.entered
  nodup : s.entered.Nodup
  finishes : Finishes (Edge blocks successors) entry s.entered
  reaches : ∀ b ∈ s.entered, Reaches (Edge blocks successors) entry b
  pushed : Pushed (Edge blocks successors) entry s.stack
  stackLt : ∀ item ∈ s.stack, item.1 < blocks.length
  started : entry ∈ s.entered ∨ (entry, false) ∈ s.stack
  closed : ∀ p ∈ s.entered, ∀ b, Edge blocks successors p b →
    b ∈ s.entered ∨ (b, false) ∈ s.stack

/-- What the blocks that are not visited yet can still push. -/
def unvisitedWeight : List Bool → List IlBlock → Nat
  | visited :: restVisited, block :: restBlocks =>
    (if visited then 0 else 2 + block.successors.len) + unvisitedWeight restVisited restBlocks
  | _, _ => 0

theorem unvisitedWeight_set : ∀ (visited : List Bool) (blocks : List IlBlock) (b : Nat)
    (block : IlBlock), visited[b]? = some false → blocks[b]? = some block →
    unvisitedWeight (visited.set b true) blocks + (2 + block.successors.len) =
      unvisitedWeight visited blocks
  | [], _, _, _, found, _ => by simp at found
  | _ :: _, [], _, _, _, found => by simp at found
  | v :: visited, first :: blocks, 0, block, unvisited, found => by
    simp only [getElem?_cons_zero, Option.some.injEq] at unvisited found
    subst unvisited found
    simp [unvisitedWeight]
    omega
  | v :: visited, first :: blocks, b + 1, block, unvisited, found => by
    have rec_ := unvisitedWeight_set visited blocks b block (by simpa using unvisited)
      (by simpa using found)
    simp only [set_cons_succ, unvisitedWeight]
    omega

theorem unvisitedWeight_replicate : ∀ blocks : List IlBlock,
    unvisitedWeight (List.replicate blocks.length false) blocks =
      2 * blocks.length + edgeCount blocks
  | [] => rfl
  | block :: blocks => by
    have rec_ := unvisitedWeight_replicate blocks
    simp only [length_cons, replicate_succ, unvisitedWeight, edgeCount, map_cons,
      sum_cons] at rec_ ⊢
    simp only [rec_, Bool.false_eq_true, if_false]
    omega

def orderBound (blocks : List IlBlock) (s : OrderState) : Nat :=
  s.stack.length + unvisitedWeight s.visited blocks

theorem OrderInv.enter (inRange : GraphInRange blocks successors) {s : OrderState}
    (inv : OrderInv blocks successors entry s) (top : s.stack = (block, false) :: stack)
    (unvisited : s.visited[block]? = some false) :
    OrderInv blocks successors entry { s with
        stack := ((successorsFor blocks successors block).filter
          fun successor => !(s.visited.set block true).getD successor false).map (·, false) ++
            (block, true) :: stack
        visited := s.visited.set block true
        reachable := s.reachable.set block true } := by
  have lt : block < s.visited.length := lt_of_getElem? unvisited
  have before : s.entered = s.postorder ++ marks stack := by
    rw [entered, top, marks_cons_false]
  have fresh : block ∉ s.postorder ++ marks stack := by
    rw [← before, ← inv.visited_iff, unvisited]
    simp
  have pushed := inv.pushed
  rw [top] at pushed
  have after : ∀ pending : List IlBlockId,
      s.postorder ++ marks (pending.map (·, false) ++ (block, true) :: stack) =
        s.postorder ++ block :: marks stack := by
    intro pending
    rw [marks_append, marks_pending, marks_cons_true, nil_append]
  have memAfter : ∀ b, b ∈ s.postorder ++ block :: marks stack ↔ b = block ∨ b ∈ s.entered := by
    rw [before]
    simp only [mem_append, mem_cons]
    tauto
  have visitedAfter : ∀ b, (s.visited.set block true)[b]? = some true ↔
      b = block ∨ b ∈ s.entered := by
    intro b
    rw [getElem?_set]
    by_cases eq : block = b
    · simp [eq, eq ▸ lt]
    · rw [if_neg eq, inv.visited_iff]
      simp [Ne.symm eq]
  have reached : Reaches (Edge blocks successors) entry block := by
    rcases pushed.1 rfl with rfl | ⟨p, mem, last⟩
    · exact reaches_entry
    · exact (inv.reaches p (by rw [before]; exact mem_append_right _ mem)).step last
  refine ⟨by simpa using inv.visitedLength, by rw [inv.sameReachable], ?_, ?_, ?_, ?_, ?_, ?_, ?_,
    ?_⟩
  · intro b
    rw [entered, after, memAfter]
    exact visitedAfter b
  · rw [entered, after]
    exact nodup_middle.mpr (nodup_cons.mpr ⟨fresh, before ▸ inv.nodup⟩)
  · rw [entered, after]
    exact Finishes.insert (pushed.1 rfl) _ (before ▸ inv.finishes)
  · intro b mem
    rw [entered, after, memAfter] at mem
    rcases mem with rfl | old
    · exact reached
    · exact inv.reaches b old
  · exact pushed.2.expand _ fun successor mem => (mem_filter.mp mem).1
  · intro item mem
    simp only [mem_append, mem_map, mem_cons] at mem
    rcases mem with ⟨successor, waits, rfl⟩ | rfl | old
    · exact Edge.target_lt (a := block) inRange (mem_filter.mp waits).1
    · exact inv.visitedLength ▸ lt
    · exact inv.stackLt item (by rw [top]; exact .tail _ old)
  · rcases inv.started with old | waits
    · left
      rw [entered, after, memAfter]
      exact .inr old
    · rw [top] at waits
      rcases mem_cons.mp waits with eq | below
      · left
        rw [entered, after, memAfter]
        exact .inl (Prod.mk.inj eq).1
      · exact .inr (mem_append_right _ (.tail _ below))
  · intro p mem b last
    rw [entered, after, memAfter] at mem
    have entered_or_waits : b = block ∨ b ∈ s.entered →
        b ∈ s.postorder ++ marks (((successorsFor blocks successors block).filter
          fun successor => !(s.visited.set block true).getD successor false).map (·, false) ++
            (block, true) :: stack) := by
      intro old
      rw [after, memAfter]
      exact old
    rcases mem with rfl | old
    · -- a successor of the new block was visited, or it has just been pushed
      by_cases seen : (s.visited.set p true)[b]? = some true
      · exact .inl (entered_or_waits ((visitedAfter b).mp seen))
      · refine .inr (mem_append_left _ (mem_map.mpr ⟨b, ?_, rfl⟩))
        refine mem_filter.mpr ⟨last, ?_⟩
        rw [getD_eq_getElem?_getD]
        cases found : (s.visited.set p true)[b]? with
        | none => rfl
        | some value => cases value <;> simp_all
    · rcases inv.closed p old b last with seen | waits
      · exact .inl (entered_or_waits (.inr seen))
      · rw [top] at waits
        rcases mem_cons.mp waits with eq | below
        · exact .inl (entered_or_waits (.inl (Prod.mk.inj eq).1))
        · exact .inr (mem_append_right _ (.tail _ below))

theorem OrderInv.finish {s : OrderState}
    (inv : OrderInv blocks successors entry s) (top : s.stack = (block, true) :: stack) :
    OrderInv blocks successors entry { s with stack, postorder := s.postorder ++ [block] } := by
  have same : entered { s with stack, postorder := s.postorder ++ [block] } =
      s.entered := by
    simp [entered, top, marks_cons_true]
  have pushed := inv.pushed
  have stackLt := inv.stackLt
  have started := inv.started
  have closed := inv.closed
  rw [top] at pushed stackLt started closed
  refine ⟨inv.visitedLength, inv.sameReachable, ?_, ?_, ?_, ?_, pushed.2, ?_, ?_, ?_⟩
  · rw [same]; exact inv.visited_iff
  · rw [same]; exact inv.nodup
  · rw [same]; exact inv.finishes
  · rw [same]; exact inv.reaches
  · exact fun item mem => stackLt item (.tail _ mem)
  · rw [same]; simpa using started
  · rw [same]
    intro p mem b last
    simpa using closed p mem b last

theorem OrderInv.skip {s : OrderState}
    (inv : OrderInv blocks successors entry s) (top : s.stack = (block, false) :: stack)
    (visited : s.visited[block]? = some true) :
    OrderInv blocks successors entry { s with stack } := by
  have same : entered { s with stack } = s.entered := by
    simp [entered, top, marks_cons_false]
  have entered : block ∈ s.entered := (inv.visited_iff block).mp visited
  have pushed := inv.pushed
  have stackLt := inv.stackLt
  have started := inv.started
  have closed := inv.closed
  rw [top] at pushed stackLt started closed
  have drop : ∀ b, b ∈ s.entered ∨ (b, false) ∈ (block, false) :: stack →
      b ∈ s.entered ∨ (b, false) ∈ stack := by
    rintro b (old | waits)
    · exact .inl old
    · rcases mem_cons.mp waits with eq | below
      · exact .inl ((Prod.mk.inj eq).1 ▸ entered)
      · exact .inr below
  refine ⟨inv.visitedLength, inv.sameReachable, ?_, ?_, ?_, ?_, pushed.2, ?_, ?_, ?_⟩
  · rw [same]; exact inv.visited_iff
  · rw [same]; exact inv.nodup
  · rw [same]; exact inv.finishes
  · rw [same]; exact inv.reaches
  · exact fun item mem => stackLt item (.tail _ mem)
  · rw [same]; exact drop _ started
  · rw [same]
    exact fun p mem b last => drop _ (closed p mem b last)

theorem length_successorsFor (inRange : GraphInRange blocks successors) {b : IlBlockId}
    {block : IlBlock} (found : blocks[b]? = some block) :
    (successorsFor blocks successors b).length = block.successors.len := by
  simp only [successorsFor, found]
  exact IlIndexRange.length_slice (inRange.ranges block (mem_of_getElem? found)).2

theorem orderStep_inv (inRange : GraphInRange blocks successors) (s : OrderState)
    (inv : OrderInv blocks successors entry s) :
    (∃ next, orderStep blocks successors s = some (.inl next) ∧
      OrderInv blocks successors entry next ∧ orderBound blocks next < orderBound blocks s) ∨
    (∃ final, orderStep blocks successors s = some (.inr final) ∧
      OrderInv blocks successors entry final ∧ final.stack = []) := by
  match top : s.stack with
  | [] => exact .inr ⟨s, by simp [orderStep, top], inv, top⟩
  | (block, true) :: stack =>
    exact .inl ⟨_, by simp [orderStep, top], inv.finish top, by simp [orderBound, top]⟩
  | (block, false) :: stack =>
    have lt : block < blocks.length := inv.stackLt (block, false) (by simp [top])
    obtain ⟨visited, found⟩ : ∃ visited, s.visited[block]? = some visited :=
      ⟨_, getElem?_eq_getElem (by rw [inv.visitedLength]; exact lt)⟩
    cases visited with
    | true =>
      exact .inl ⟨_, by simp [orderStep, top, found], inv.skip top found, by simp [orderBound, top]⟩
    | false =>
      refine .inl ⟨_, by simp only [orderStep, top, found], inv.enter inRange top found, ?_⟩
      have weight := unvisitedWeight_set s.visited blocks block blocks[block] found
        (getElem?_eq_getElem lt)
      have pendingLe := length_filter_le
        (fun successor => !(s.visited.set block true).getD successor false)
        (successorsFor blocks successors block)
      rw [length_successorsFor inRange (getElem?_eq_getElem lt)] at pendingLe
      simp only [orderBound, top, length_append, length_map, length_cons]
      omega

theorem orderInv_start (entryLt : entry < blocks.length) :
    OrderInv blocks successors entry
      { stack := [(entry, false)]
        visited := List.replicate blocks.length false
        reachable := List.replicate blocks.length false
        postorder := [] } := by
  refine ⟨by simp, rfl, ?_, nodup_nil, trivial, ?_, ⟨fun _ => .inl rfl, trivial⟩, ?_, .inr ?_,
    ?_⟩
  · simp [entered, marks, getElem?_replicate]
  · simp [entered, marks]
  · simpa using entryLt
  · exact .head _
  · simp [entered, marks]

theorem setPositions_getD {order : List IlBlockId} (nodup : order.Nodup) {positions : List Nat}
    (within : ∀ b ∈ order, b < positions.length) (small : order.length ≤ 2 ^ 32) :
    (setPositions positions order).length = positions.length ∧
    ∀ b ∈ order, (setPositions positions order).getD b 0 = order.idxOf b := by
  have general : ∀ (order : List IlBlockId) (start : Nat) (positions : List Nat), order.Nodup →
      (∀ b ∈ order, b < positions.length) → start + order.length ≤ 2 ^ 32 →
      let result := (order.zipIdx start).foldl (fun positions entry =>
        positions.set entry.1 (entry.2 % 2 ^ 32)) positions
      result.length = positions.length ∧
      (∀ b ∈ order, result.getD b 0 = start + order.idxOf b) ∧
      ∀ b, b ∉ order → result.getD b 0 = positions.getD b 0 := by
    intro order
    induction order with
    | nil => intro start positions _ _ _; simp
    | cons first rest ih =>
      intro start positions nodup within small
      obtain ⟨notMem, nodup'⟩ := nodup_cons.mp nodup
      simp only [length_cons] at small
      obtain ⟨length, inside, outside⟩ := ih (start + 1) (positions.set first (start % 2 ^ 32))
        nodup' (fun b mem => by simpa using within b (.tail _ mem)) (by omega)
      simp only [zipIdx_cons, foldl_cons]
      refine ⟨by simpa using length, ?_, ?_⟩
      · intro b mem
        by_cases eq : first = b
        · subst eq
          have lt : first < positions.length := within first (.head _)
          rw [outside first notMem, getD_eq_getElem?_getD]
          simp only [getElem?_set_self lt, Option.getD_some, idxOf_cons_self]
          rw [Nat.mod_eq_of_lt (by omega)]
          rfl
        · have later : b ∈ rest := (mem_cons.mp mem).resolve_left (Ne.symm eq)
          rw [inside b later, idxOf_cons_ne _ eq]
          omega
      · intro b notMem'
        obtain ⟨ne, notRest⟩ := not_or.mp (mt mem_cons.mpr notMem')
        rw [outside b notRest, getD_eq_getElem?_getD, getElem?_set_ne (Ne.symm ne),
          getD_eq_getElem?_getD]
  obtain ⟨length, inside, -⟩ := general order 0 positions nodup within (by omega)
  exact ⟨length, fun b mem => (inside b mem).trans (zero_add _)⟩

/-- The specification of `compute_reverse_postorder`. -/
structure IsReversePostorder (blocks : List IlBlock) (successors : List IlBlockId)
    (entry : IlBlockId) (reachable : List Bool) (order : List IlBlockId) (positions : List Nat) :
    Prop where
  isFlowOrder : IsFlowOrder (Edge blocks successors) entry order
  reachableLength : reachable.length = blocks.length
  reachable_iff : ∀ b, reachable[b]? = some true ↔ Reaches (Edge blocks successors) entry b
  positions_eq : ∀ b ∈ order, positions.getD b 0 = order.idxOf b

theorem computeReversePostorder_spec (inRange : GraphInRange blocks successors)
    (entryLt : entry < blocks.length) (fits : blocks.length ≤ u32Max) :
    ∃ reachable order positions,
      computeReversePostorder blocks successors entry = some (reachable, order, positions) ∧
      IsReversePostorder blocks successors entry reachable order positions := by
  obtain ⟨final, run, inv, emptyStack⟩ := runLoop_total
    (OrderInv blocks successors entry) (orderBound blocks)
    (fun final => OrderInv blocks successors entry final ∧ final.stack = [])
    (orderStep_inv inRange) (2 * blocks.length + edgeCount blocks + 2) _ (orderInv_start entryLt)
    (by simp [orderBound, unvisitedWeight_replicate]; omega)
  have entered : final.entered = final.postorder := by
    simp [entered, emptyStack, marks]
  have noneWaits : ∀ b, (b, false) ∉ final.stack := by simp [emptyStack]
  have mem_iff : ∀ b, b ∈ final.postorder ↔ Reaches (Edge blocks successors) entry b := by
    intro b
    refine ⟨fun mem => inv.reaches b (entered ▸ mem), fun reached => ?_⟩
    refine reached.mem_of_closed (S := (· ∈ final.postorder)) ?_ fun p c mem last => ?_
    · exact entered ▸ inv.started.resolve_right (noneWaits entry)
    · exact entered ▸ (inv.closed p (entered ▸ mem) c last).resolve_right (noneWaits c)
  have isFlowOrder : IsFlowOrder (Edge blocks successors) entry final.postorder.reverse :=
    Finishes.isFlowOrder (entered ▸ inv.finishes) (entered ▸ inv.nodup) mem_iff
  have within : ∀ b ∈ final.postorder.reverse, b < blocks.length := fun b mem =>
    Reaches.lt inRange entryLt ((isFlowOrder.mem_iff b).mp mem)
  have small : final.postorder.reverse.length ≤ blocks.length := by
    have sub : final.postorder.reverse ⊆ List.range blocks.length := fun b mem =>
      mem_range.mpr (within b mem)
    simpa using (isFlowOrder.nodup.subperm sub).length_le
  have start : ∀ b ∈ final.postorder.reverse, b < (List.replicate blocks.length u32Max).length := by
    simpa using within
  obtain ⟨-, positionsEq⟩ := setPositions_getD isFlowOrder.nodup start
    (by have : u32Max < 2 ^ 32 := by decide
        omega)
  refine ⟨final.reachable, final.postorder.reverse, _, ?_, isFlowOrder, ?_, ?_, positionsEq⟩
  · simp only [computeReversePostorder, run]
    rfl
  · rw [inv.sameReachable, inv.visitedLength]
  · intro b
    rw [inv.sameReachable, inv.visited_iff, entered, mem_iff]

end Fugue.Il.DominanceSolver
