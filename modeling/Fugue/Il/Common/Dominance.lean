import Fugue.Il.Common.Graph
import Fugue.Lib.Loop

/-!
# Dominance

`fugue-core/src/il/common/dominance.rs`: the immediate dominators are found by iterating over the
blocks in reverse postorder until nothing changes, and `dominates` is answered from an interval
numbering of the resulting tree. Every loop of the solver is a `runLoop` with a number of rounds
that the size of the graph determines; `none` stands for a panic or a loop that did not end.
-/

namespace Fugue.Il

open Fugue.Lib List

/-- `IlDominance` (`dominance.rs:9-17`). -/
structure IlDominance where
  entry : Option IlBlockId
  immediateDominators : List (Option IlBlockId)
  children : IlCsr IlBlockId
  preorder : List Nat
  postorder : List Nat
  reachable : List Bool
  deriving DecidableEq, Repr

/-- `IlDominanceEvent` (`dominance.rs:19-23`). -/
inductive IlDominanceEvent where
  | enter (block : IlBlockId)
  | exit (block : IlBlockId)
  deriving DecidableEq, Repr

namespace DominanceSolver

/-- The state of `compute_reverse_postorder`; the top of the stack is the head of the list. -/
structure OrderState where
  stack : List (IlBlockId × Bool)
  visited : List Bool
  reachable : List Bool
  postorder : List IlBlockId

/-- One round of `compute_reverse_postorder` (`dominance.rs:361-385`). The successors are pushed
in reverse, so the first one that was not visited ends up on top. -/
def orderStep (blocks : List IlBlock) (successors : List IlBlockId) (s : OrderState) :
    Option (OrderState ⊕ OrderState) :=
  match s.stack with
  | [] => some (.inr s)
  | (block, true) :: stack =>
    some (.inl { s with stack, postorder := s.postorder ++ [block] })
  | (block, false) :: stack =>
    match s.visited[block]? with
    | none => none
    | some true => some (.inl { s with stack })
    | some false =>
      let visited := s.visited.set block true
      let pending := (successorsFor blocks successors block).filter
        fun successor => !visited.getD successor false
      some (.inl { s with
        stack := pending.map (·, false) ++ (block, true) :: stack
        visited
        reachable := s.reachable.set block true })

/-- `positions[block.index()] = position as u32` for each block of the order
(`dominance.rs:390-392`). -/
def setPositions (positions : List Nat) (order : List IlBlockId) : List Nat :=
  order.zipIdx.foldl (fun positions (block, position) =>
    positions.set block (position % 2 ^ 32)) positions

/-- `compute_reverse_postorder` (`dominance.rs:356-393`): the reachable blocks, their reverse
postorder and the position of each block in it. -/
def computeReversePostorder (blocks : List IlBlock) (successors : List IlBlockId)
    (entry : IlBlockId) : Option (List Bool × List IlBlockId × List Nat) := do
  let final ← runLoop (orderStep blocks successors) (2 * blocks.length + edgeCount blocks + 2)
    { stack := [(entry, false)]
      visited := List.replicate blocks.length false
      reachable := List.replicate blocks.length false
      postorder := [] }
  let order := final.postorder.reverse
  return (final.reachable, order, setPositions (List.replicate blocks.length u32Max) order)

/-- `DominanceSolver` (`dominance.rs:298-307`), without the immediate dominators, which the
functions below pass along. -/
structure Context where
  blocks : List IlBlock
  successors : List IlBlockId
  entry : IlBlockId
  predecessors : IlBlockPredecessors
  reachable : List Bool
  reversePostorder : List IlBlockId
  positions : List Nat

variable (solver : Context)

/-- `positions[block.index()]`. -/
def position (block : IlBlockId) : Nat := solver.positions.getD block 0

/-- One inner loop of `intersect` (`dominance.rs:427-435`): up the tree to a position of at most
`limit`. -/
def climb (idoms : List (Option IlBlockId)) (limit : Nat) : Nat → IlBlockId → Option IlBlockId
  | 0, _ => none
  | fuel + 1, block =>
    if position solver block > limit then
      (idoms.getD block none).bind (climb idoms limit fuel)
    else some block

variable (idoms : List (Option IlBlockId))

/-- One round of the outer loop of `intersect`. -/
def intersectStep (pair : IlBlockId × IlBlockId) :
    Option ((IlBlockId × IlBlockId) ⊕ IlBlockId) :=
  if pair.1 = pair.2 then some (.inr pair.1)
  else do
    let first ← climb solver idoms (position solver pair.2) (solver.blocks.length + 1) pair.1
    let second ← climb solver idoms (position solver first) (solver.blocks.length + 1) pair.2
    return .inl (first, second)

/-- `intersect` (`dominance.rs:422-440`): the nearest common ancestor in the tree so far. -/
def intersect (first second : IlBlockId) : Option IlBlockId :=
  runLoop (intersectStep solver idoms) (2 * solver.blocks.length + 2) (first, second)

/-- `processed_predecessors` (`dominance.rs:327-336`). -/
def processedPredecessors (block : IlBlockId) :
    List IlBlockId :=
  (solver.predecessors.predecessorsFor block).filter fun predecessor =>
    solver.reachable.getD predecessor false && (idoms.getD predecessor none).isSome

/-- The body of the `for` loop of `solve_immediate_dominators` (`dominance.rs:404-417`). -/
def updateBlock (state : List (Option IlBlockId) × Bool) (block : IlBlockId) :
    Option (List (Option IlBlockId) × Bool) :=
  match processedPredecessors solver state.1 block with
  | [] => some state
  | first :: rest => do
    let dominator ← rest.foldlM (fun dominator predecessor =>
      intersect solver state.1 predecessor dominator) first
    if state.1.getD block none ≠ some dominator then
      return (state.1.set block (some dominator), true)
    else return state

/-- One pass over the reverse postorder, the entry skipped. -/
def pass : Option (List (Option IlBlockId) × Bool) :=
  (solver.reversePostorder.drop 1).foldlM (updateBlock solver) (idoms, false)

/-- One round of `while changed`. -/
def solveStep :
    Option (List (Option IlBlockId) ⊕ List (Option IlBlockId)) := do
  let (idoms, changed) ← pass solver idoms
  return if changed then .inl idoms else .inr idoms

/-- `solve_immediate_dominators` (`dominance.rs:395-420`). -/
def solveImmediateDominators : Option (List (Option IlBlockId)) :=
  runLoop (solveStep solver) (solver.blocks.length + 3)
    ((List.replicate solver.blocks.length none).set solver.entry (some solver.entry))

/-- `compute_children` (`dominance.rs:438-451`). -/
def computeChildren (blockCount : Nat) (idoms : List (Option IlBlockId)) :
    Option (IlCsr IlBlockId) :=
  IlCsr.fromEntries blockCount
    (idoms.zipIdx.filterMap fun (dominator, block) => dominator.map (·, block))

/-- The state of `compute_intervals`. -/
structure IntervalState where
  stack : List (IlBlockId × Bool)
  preorder : List Nat
  postorder : List Nat
  next : Nat

/-- One round of `compute_intervals` (`dominance.rs:463-478`); the `u32` counter must not
overflow. -/
def intervalStep (reachable : List Bool) (children : IlCsr IlBlockId) (s : IntervalState) :
    Option (IntervalState ⊕ IntervalState) :=
  match s.stack with
  | [] => some (.inr s)
  | (block, expanded) :: stack =>
    if reachable.getD block false = false then some (.inl { s with stack })
    else if s.next + 1 > u32Max then none
    else if expanded then
      some (.inl { s with stack, postorder := s.postorder.set block s.next, next := s.next + 1 })
    else
      some (.inl { s with
        stack := (children.row block).map (·, false) ++ (block, true) :: stack
        preorder := s.preorder.set block s.next
        next := s.next + 1 })

/-- `compute_intervals` (`dominance.rs:457-481`). -/
def computeIntervals (blockCount : Nat) (entry : IlBlockId) (reachable : List Bool)
    (children : IlCsr IlBlockId) : Option (List Nat × List Nat) := do
  let final ← runLoop (intervalStep reachable children) (2 * blockCount + 2)
    { stack := [(entry, false)]
      preorder := List.replicate blockCount u32Max
      postorder := List.replicate blockCount u32Max
      next := 0 }
  return (final.preorder, final.postorder)

/-- `DominanceSolver::new` (`dominance.rs:310-325`). -/
def new (blocks : List IlBlock) (successors : List IlBlockId) (entry : IlBlockId) :
    Option Context := do
  let predecessors ← IlBlockPredecessors.new blocks successors
  let (reachable, reversePostorder, positions) ← computeReversePostorder blocks successors entry
  return { blocks, successors, entry, predecessors, reachable, reversePostorder, positions }

/-- `DominanceSolver::solve` (`dominance.rs:338-354`). -/
def solve : Option IlDominance := do
  let solved ← solveImmediateDominators solver
  let immediateDominators := solved.set solver.entry none
  let children ← computeChildren solver.blocks.length immediateDominators
  let (preorder, postorder) ←
    computeIntervals solver.blocks.length solver.entry solver.reachable children
  return { entry := some solver.entry, immediateDominators, children, preorder, postorder,
           reachable := solver.reachable }

end DominanceSolver

namespace IlDominance

/-- `IlDominance::from_blocks` (`dominance.rs:51-53`). -/
def fromBlocks (blocks : List IlBlock) (successors : List IlBlockId) (entry : IlBlockId) :
    Option IlDominance :=
  (DominanceSolver.new blocks successors entry).bind DominanceSolver.solve

variable (dominance : IlDominance)

/-- `IlDominance::immediate_dominator` (`dominance.rs:55-60`). -/
def immediateDominator (block : IlBlockId) : Option IlBlockId :=
  (dominance.immediateDominators[block]?).join

/-- `IlDominance::children_for` (`dominance.rs:62-64`). -/
def childrenFor (block : IlBlockId) : List IlBlockId :=
  (dominance.children.checkedRow block).getD []

/-- `IlDominance::is_reachable` (`dominance.rs:66-68`). -/
def isReachable (block : IlBlockId) : Bool :=
  (dominance.reachable[block]?).getD false

/-- `IlDominance::dominates` (`dominance.rs:93-112`). -/
def dominates (dominator block : IlBlockId) : Bool :=
  if !dominance.isReachable dominator || !dominance.isReachable block then false
  else
    match dominance.preorder[dominator]?, dominance.postorder[dominator]?,
      dominance.preorder[block]?, dominance.postorder[block]? with
    | some dominatorPreorder, some dominatorPostorder, some blockPreorder, some blockPostorder =>
      decide (dominatorPreorder ≤ blockPreorder) && decide (blockPostorder ≤ dominatorPostorder)
    | _, _, _, _ => false

end IlDominance

/-! ## What the analysis reads of a block -/

section Congr

variable {f : IlBlock → IlBlock} (sameSuccessors : ∀ block, (f block).successors = block.successors)
  (blocks : List IlBlock) (successors : List IlBlockId)

include sameSuccessors

theorem successorsFor_map (block : IlBlockId) :
    successorsFor (blocks.map f) successors block = successorsFor blocks successors block := by
  unfold successorsFor
  rw [getElem?_map]
  cases blocks[block]? with
  | none => rfl
  | some record => simp [sameSuccessors]

theorem edgeCount_map : edgeCount (blocks.map f) = edgeCount blocks := by
  simp [edgeCount, Function.comp_def, sameSuccessors]

theorem IlBlockPredecessors.new_map :
    IlBlockPredecessors.new (blocks.map f) successors = IlBlockPredecessors.new blocks successors := by
  have entries_eq : entries (blocks.map f) successors = entries blocks successors := by
    unfold entries
    rw [zipIdx_map, flatMap_map]
    simp [sameSuccessors]
  unfold IlBlockPredecessors.new
  rw [entries_eq, length_map]

namespace DominanceSolver

theorem orderStep_map : orderStep (blocks.map f) successors = orderStep blocks successors := by
  unfold orderStep
  simp [successorsFor_map sameSuccessors]

theorem computeReversePostorder_map (entry : IlBlockId) :
    computeReversePostorder (blocks.map f) successors entry =
      computeReversePostorder blocks successors entry := by
  unfold computeReversePostorder
  rw [orderStep_map sameSuccessors, edgeCount_map sameSuccessors, length_map]

end DominanceSolver

end Congr

namespace DominanceSolver

theorem solve_congr (solver : Context) (blocks : List IlBlock)
    (length : blocks.length = solver.blocks.length) :
    solve { solver with blocks } = solve solver := by
  have climb_eq : ∀ idoms limit fuel block,
      climb { solver with blocks } idoms limit fuel block = climb solver idoms limit fuel block := by
    intro idoms limit fuel
    induction fuel with
    | zero => intro block; rfl
    | succ fuel ih =>
      intro block
      rw [climb, climb, funext ih]
      rfl
  have intersect_eq : ∀ idoms, intersect { solver with blocks } idoms = intersect solver idoms := by
    intro idoms
    funext first second
    have step : intersectStep { solver with blocks } idoms = intersectStep solver idoms := by
      funext pair
      simp [intersectStep, climb_eq, length, position]
    simp [intersect, step, length]
  have update : updateBlock { solver with blocks } = updateBlock solver := by
    funext state block
    simp [updateBlock, intersect_eq, processedPredecessors]
  have step : solveStep { solver with blocks } = solveStep solver := by
    funext idoms
    simp [solveStep, pass, update]
  simp [solve, solveImmediateDominators, step, length]

end DominanceSolver

theorem IlDominance.fromBlocks_map {f : IlBlock → IlBlock}
    (sameSuccessors : ∀ block, (f block).successors = block.successors) (blocks : List IlBlock)
    (successors : List IlBlockId) (entry : IlBlockId) :
    fromBlocks (blocks.map f) successors entry = fromBlocks blocks successors entry := by
  unfold fromBlocks DominanceSolver.new
  rw [IlBlockPredecessors.new_map sameSuccessors,
    DominanceSolver.computeReversePostorder_map sameSuccessors]
  cases IlBlockPredecessors.new blocks successors with
  | none => rfl
  | some predecessors =>
    cases DominanceSolver.computeReversePostorder blocks successors entry with
    | none => rfl
    | some order =>
      exact DominanceSolver.solve_congr
        ⟨blocks, successors, entry, predecessors, order.1, order.2.1, order.2.2⟩ (blocks.map f)
        (length_map _)

end Fugue.Il
