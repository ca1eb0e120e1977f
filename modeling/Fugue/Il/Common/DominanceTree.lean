import Fugue.Il.Common.DominanceSolve
import Fugue.Lib.TreeTraversal

/-!
# The dominator tree and its intervals

`compute_children` lists the blocks under each block of the dominator tree, and
`compute_intervals` numbers the steps of a depth-first walk of it. A block dominates another one
exactly when its interval encloses that of the other, so `dominates` is exact; `from_blocks`
returns for every graph whose blocks and edges the `u32` counters can hold.
-/

namespace Fugue.Il.DominanceSolver

open Fugue.Lib List Option

section Children

variable {idoms : List (Option IlBlockId)} {entry : IlBlockId}

/-- The entries that `compute_children` sorts into rows. -/
def childEntries (idoms : List (Option IlBlockId)) : List (Nat × IlBlockId) :=
  idoms.zipIdx.filterMap fun (dominator, block) => dominator.map (·, block)

theorem mem_childEntries {dominator block : IlBlockId} :
    (dominator, block) ∈ childEntries idoms ↔ idoms[block]? = some (some dominator) := by
  simp only [childEntries, mem_filterMap, Prod.exists, mem_zipIdx_iff_getElem?]
  constructor
  · rintro ⟨found, index, at_, eq⟩
    obtain ⟨d, rfl, eq⟩ := map_eq_some_iff.mp eq
    cases eq
    exact at_
  · intro at_
    exact ⟨some dominator, block, at_, rfl⟩

theorem nodup_childRow (dominator : IlBlockId) :
    (IlCsr.rowOf (childEntries idoms) dominator).Nodup := by
  have blocks : ((childEntries idoms).map Prod.snd).Sublist (idoms.zipIdx.map Prod.snd) := by
    rw [childEntries, map_filterMap]
    have : ∀ items : List (Option IlBlockId × Nat), (items.filterMap fun item =>
        (item.1.map fun d => (d, item.2)).map Prod.snd).Sublist (items.map Prod.snd) := by
      intro items
      induction items with
      | nil => exact .slnil
      | cons item items ih =>
        obtain ⟨found, index⟩ := item
        cases found with
        | none => exact ih.cons _
        | some d => exact ih.cons_cons _
    exact this idoms.zipIdx
  have all : (idoms.zipIdx.map Prod.snd).Nodup := by
    rw [zipIdx_map_snd]
    exact nodup_range'
  apply (List.Sublist.map Prod.snd filter_sublist).nodup
  exact blocks.nodup all

/-- Every row of `compute_children` lists the blocks that hang under its block. -/
theorem computeChildren_spec {blockCount : Nat} (length : idoms.length = blockCount)
    (fits : blockCount ≤ u32Max) (inside : ∀ b d, parentOf idoms b = some d → d < blockCount) :
    ∃ children, computeChildren blockCount idoms = some children ∧
      ∀ d, (children.checkedRow d).getD [] = IlCsr.rowOf (childEntries idoms) d := by
  have rows : ∀ item ∈ childEntries idoms, item.1 < blockCount := by
    rintro ⟨d, b⟩ mem
    apply inside b d
    rw [parentOf, getD_eq_getElem?_getD, mem_childEntries.mp mem, getD_some]
  have small : (childEntries idoms).length ≤ u32Max := by
    refine le_trans ?_ fits
    rw [← length, childEntries]
    exact le_trans (length_filterMap_le _ _) (by simp)
  obtain ⟨children, run, holds⟩ := IlCsr.fromEntries_some rows small
  exact ⟨children, run, holds.checkedRow_getD rows⟩

theorem mem_childRow {d b : IlBlockId} :
    b ∈ IlCsr.rowOf (childEntries idoms) d ↔ parentOf idoms b = some d := by
  rw [IlCsr.mem_rowOf, mem_childEntries, parentOf, getD_eq_getElem?_getD]
  cases idoms[b]? with
  | none => simp
  | some found => simp

end Children

section Intervals

variable {parent : IlBlockId → Option IlBlockId} {entry : IlBlockId} {rank : IlBlockId → ℕ}
  {children : IlCsr IlBlockId} {bound blockCount : Nat} {reachable : List Bool}

abbrev IntervalState.left (children : IlCsr IlBlockId) (rank : IlBlockId → ℕ) (bound : ℕ)
    (s : IntervalState) : List (IlBlockId × Bool) :=
  pending children.row rank bound s.stack

/-- The items numbered so far and the pending ones make up the traversal, and each number is the
position of its item in it. -/
structure IntervalInv (parent : IlBlockId → Option IlBlockId) (entry : IlBlockId)
    (rank : IlBlockId → ℕ) (children : IlCsr IlBlockId) (bound blockCount : Nat)
    (s : IntervalState) (done : List (IlBlockId × Bool)) : Prop where
  split : done ++ s.left children rank bound = traverse children.row rank bound entry
  next : s.next = done.length
  placed : ∀ item ∈ s.stack, (parent item.1).isSome
  preLength : s.preorder.length = blockCount
  postLength : s.postorder.length = blockCount
  pre : ∀ b, (b, false) ∈ done →
    s.preorder[b]? = some ((traverse children.row rank bound entry).idxOf (b, false))
  post : ∀ b, (b, true) ∈ done →
    s.postorder[b]? = some ((traverse children.row rank bound entry).idxOf (b, true))

variable (tree : IsChildren parent entry rank children.row bound)
include tree

theorem intervalStep_inv (reachable_iff : ∀ b, reachable.getD b false = true ↔ (parent b).isSome)
    (inside : ∀ b, (parent b).isSome → b < blockCount)
    {s : IntervalState} {done : List (IlBlockId × Bool)} (room : s.next + 1 ≤ u32Max)
    (inv : IntervalInv parent entry rank children bound blockCount s done)
    {b : IlBlockId} {expanded : Bool} {stack : List (IlBlockId × Bool)}
    (top : s.stack = (b, expanded) :: stack) :
    ∃ s', intervalStep reachable children s = some (.inl s') ∧
      IntervalInv parent entry rank children bound blockCount s' (done ++ [(b, expanded)]) := by
  have isPlaced : (parent b).isSome := inv.placed (b, expanded) (by rw [top]; simp)
  have isReachable : reachable.getD b false = true := (reachable_iff b).mpr isPlaced
  have lt := inside b isPlaced
  have below : ∀ item ∈ stack, (parent item.1).isSome := fun item mem =>
    inv.placed item (by rw [top]; exact .tail _ mem)
  have nodup := tree.nodup_traverse (b := entry)
  have split := inv.split
  cases expanded with
  | true =>
    rw [IntervalState.left, top, IsChildren.pending_exit] at split
    have position : (traverse children.row rank bound entry).idxOf (b, true) = s.next := by
      rw [← split] at nodup ⊢
      rw [idxOf_append_cons nodup, inv.next]
    refine ⟨{ s with stack, postorder := s.postorder.set b s.next, next := s.next + 1 }, ?_, ?_⟩
    · simp only [intervalStep, top, isReachable]
      simp [not_lt.mpr room]
    · refine ⟨by simpa using split, by simp [inv.next], below, inv.preLength,
        by simpa using inv.postLength, fun c mem => ?_, fun c mem => ?_⟩
      · exact inv.pre c (by simpa using mem)
      · by_cases eq : c = b
        · subst eq
          simp [position, inv.postLength, lt]
        · simp only [getElem?_set_ne (Ne.symm eq)]
          exact inv.post c (by simpa [eq] using mem)
  | false =>
    rw [IntervalState.left, top, tree.pending_enter isPlaced] at split
    have position : (traverse children.row rank bound entry).idxOf (b, false) = s.next := by
      rw [← split] at nodup ⊢
      rw [idxOf_append_cons nodup, inv.next]
    refine ⟨{ s with
      stack := (children.row b).map (·, false) ++ (b, true) :: stack
      preorder := s.preorder.set b s.next
      next := s.next + 1 }, ?_, ?_⟩
    · simp only [intervalStep, top, isReachable]
      simp [not_lt.mpr room]
    · refine ⟨by simpa using split, by simp [inv.next], ?_, by simpa using inv.preLength,
        inv.postLength, fun c mem => ?_, fun c mem => ?_⟩
      · intro item mem
        rcases mem_append.mp mem with mem | mem
        · obtain ⟨c, child, rfl⟩ := List.mem_map.mp mem
          exact tree.placed child
        · rcases mem_cons.mp mem with rfl | mem
          · exact isPlaced
          · exact below item mem
      · by_cases eq : c = b
        · subst eq
          simp [position, inv.preLength, lt]
        · simp only [getElem?_set_ne (Ne.symm eq)]
          exact inv.pre c (by simpa [eq] using mem)
      · exact inv.post c (by simpa using mem)

omit tree in
theorem intervalInv_start (entryPlaced : (parent entry).isSome) :
    IntervalInv parent entry rank children bound blockCount
      { stack := [(entry, false)]
        preorder := List.replicate blockCount u32Max
        postorder := List.replicate blockCount u32Max
        next := 0 } [] :=
  ⟨IsChildren.pending_start, rfl, by simpa using entryPlaced, by simp, by simp, by simp, by simp⟩

theorem computeIntervals_isSome (entryPlaced : (parent entry).isSome)
    (reachable_iff : ∀ b, reachable.getD b false = true ↔ (parent b).isSome)
    (inside : ∀ b, (parent b).isSome → b < blockCount) (small : 2 * blockCount ≤ u32Max) :
    ∃ intervals, computeIntervals blockCount entry reachable children = some intervals := by
  have length := tree.length_traverse_le entryPlaced inside
  have round : ∀ s, (∃ done, IntervalInv parent entry rank children bound blockCount s done) →
      (∃ next, intervalStep reachable children s = some (.inl next) ∧
        (∃ done, IntervalInv parent entry rank children bound blockCount next done) ∧
        (next.left children rank bound).length < (s.left children rank bound).length) ∨
      ∃ final, intervalStep reachable children s = some (.inr final) ∧ True := by
    rintro s ⟨done, inv⟩
    cases top : s.stack with
    | nil => exact .inr ⟨s, by simp [intervalStep, top], trivial⟩
    | cons item stack =>
      obtain ⟨b, expanded⟩ := item
      have before := congrArg List.length inv.split
      rw [length_append] at before
      have pendingPositive : 0 < (s.left children rank bound).length := by
        rw [IntervalState.left, top]
        cases expanded with
        | true => rw [IsChildren.pending_exit]; exact Nat.succ_pos _
        | false =>
          rw [tree.pending_enter (inv.placed (b, false) (by rw [top]; exact .head _))]
          exact Nat.succ_pos _
      have room : s.next + 1 ≤ u32Max := by
        have := inv.next
        omega
      obtain ⟨next, step, inv'⟩ := intervalStep_inv tree reachable_iff inside room inv top
      refine .inl ⟨next, step, ⟨_, inv'⟩, ?_⟩
      have after := congrArg List.length inv'.split
      simp only [length_append, length_cons, length_nil] at after
      omega
  obtain ⟨final, run, -⟩ := runLoop_total _ _ _ round (2 * blockCount + 2) _
    ⟨[], intervalInv_start entryPlaced⟩ (by
      show (pending children.row rank bound [(entry, false)]).length < _
      rw [IsChildren.pending_start]
      omega)
  exact ⟨(final.preorder, final.postorder), by rw [computeIntervals, run]; rfl⟩

/-- `compute_intervals` gives every block the positions of its two items. -/
theorem computeIntervals_sound (entryPlaced : (parent entry).isSome)
    (reachable_iff : ∀ b, reachable.getD b false = true ↔ (parent b).isSome)
    (inside : ∀ b, (parent b).isSome → b < blockCount) {preorder postorder : List Nat}
    (run : computeIntervals blockCount entry reachable children = some (preorder, postorder))
    {b : IlBlockId} (placed : (parent b).isSome) :
    preorder[b]? = some ((traverse children.row rank bound entry).idxOf (b, false)) ∧
      postorder[b]? = some ((traverse children.row rank bound entry).idxOf (b, true)) := by
  obtain ⟨final, loop, eq⟩ := bind_eq_some_iff.mp run
  cases eq
  have finalInv : IntervalInv parent entry rank children bound blockCount final
      (traverse children.row rank bound entry) := by
    refine runLoop_sound
      (fun s => ∃ done, IntervalInv parent entry rank children bound blockCount s done)
      (fun final => IntervalInv parent entry rank children bound blockCount final
        (traverse children.row rank bound entry)) ?_ ?_ _ _ final
      ⟨[], intervalInv_start entryPlaced⟩ loop
    · rintro s next ⟨done, inv⟩ step
      cases top : s.stack with
      | nil => simp [intervalStep, top] at step
      | cons item stack =>
        obtain ⟨c, expanded⟩ := item
        have marked : reachable.getD c false = true :=
          (reachable_iff c).mpr (inv.placed (c, expanded) (by rw [top]; exact .head _))
        -- a round that returns has found room in its counter
        have room : s.next + 1 ≤ u32Max := by
          by_contra full
          simp only [intervalStep, top, marked] at step
          simp [Nat.lt_of_not_le full] at step
        obtain ⟨next', step', inv'⟩ := intervalStep_inv tree reachable_iff inside room inv top
        rw [step] at step'
        cases step'
        exact ⟨_, inv'⟩
    · rintro s result ⟨done, inv⟩ step
      cases top : s.stack with
      | nil =>
        simp only [intervalStep, top, Option.some.injEq, Sum.inr.injEq] at step
        subst step
        have split := inv.split
        rw [IntervalState.left, top, IsChildren.pending_nil, append_nil] at split
        exact split ▸ inv
      | cons item stack =>
        simp only [intervalStep, top] at step
        split at step
        · cases step
        · split at step
          · cases step
          · split at step <;> cases step
  have mem : ∀ expanded, (b, expanded) ∈ traverse children.row rank bound entry := fun _ =>
    (tree.mem_traverse placed).mpr (Above.entry_above tree.tree placed)
  exact ⟨finalInv.pre b (mem false), finalInv.post b (mem true)⟩

end Intervals

/-- `DominanceSolver::new` returns when the counters can hold the graph. -/
theorem new_spec {blocks : List IlBlock} {successors : List IlBlockId} {entry : IlBlockId}
    (inRange : GraphInRange blocks successors) (entryLt : entry < blocks.length)
    (fits : blocks.length ≤ u32Max) (small : edgeCount blocks ≤ u32Max) :
    ∃ solver : Context, new blocks successors entry = some solver ∧ solver.Ok ∧
      solver.blocks = blocks ∧ solver.successors = successors ∧ solver.entry = entry := by
  obtain ⟨predecessors, newRun, predecessorsSpec⟩ :=
    IlBlockPredecessors.new_some inRange fits small
  obtain ⟨reachable, order, positions, orderRun, orderSpec⟩ :=
    computeReversePostorder_spec inRange entryLt fits
  exact ⟨⟨blocks, successors, entry, predecessors, reachable, order, positions⟩,
    by simp [new, newRun, orderRun], ⟨inRange, entryLt, predecessorsSpec, orderSpec⟩, rfl, rfl, rfl⟩

end Fugue.Il.DominanceSolver

namespace Fugue.Il.IlDominance

open Fugue.Lib DominanceSolver List Option

/-- What the analysis says about a graph. -/
structure Exact (dominance : IlDominance) (blocks : List IlBlock)
    (successors : List IlBlockId) (entry : IlBlockId) : Prop where
  entry_eq : dominance.entry = some entry
  isReachable_iff : ∀ b, dominance.isReachable b = true ↔ Reaches (Edge blocks successors) entry b
  dominates_iff : ∀ d b, dominance.dominates d b = true ↔
    Dominates (Edge blocks successors) entry d b
  immediate : ∀ b, Reaches (Edge blocks successors) entry b → b ≠ entry →
    ∃ d, dominance.immediateDominator b = some d ∧
      ImmediatelyDominates (Edge blocks successors) entry d b
  immediate_some : ∀ b d, dominance.immediateDominator b = some d →
    Reaches (Edge blocks successors) entry b ∧ b ≠ entry
  mem_childrenFor : ∀ b c, c ∈ dominance.childrenFor b ↔ dominance.immediateDominator c = some b
  nodup_childrenFor : ∀ b, (dominance.childrenFor b).Nodup

theorem immediateDominator_eq (dominance : IlDominance) (block : IlBlockId) :
    dominance.immediateDominator block = parentOf dominance.immediateDominators block := by
  rw [immediateDominator, parentOf, getD_eq_getElem?_getD]
  cases dominance.immediateDominators[block]? <;> rfl

/-- `DominanceSolver::solve` returns the dominator tree of the graph; it returns whenever the
interval counter has room for two steps a block. -/
theorem solve_spec {solver : Context} (ok : solver.Ok) (fits : solver.blocks.length ≤ u32Max) :
    (∀ dominance, solve solver = some dominance →
      dominance.Exact solver.blocks solver.successors solver.entry) ∧
    (2 * solver.blocks.length ≤ u32Max → ∃ dominance, solve solver = some dominance) := by
  obtain ⟨solved, solveRun, inv, placed_iff, above_iff⟩ := ok.solveImmediateDominators_spec
  have parents : parentOf (solved.set solver.entry none) =
      Function.update (parentOf solved) solver.entry none :=
    parentOf_set (by rw [inv.length]; exact ok.entryLt)
  have parent_iff : ∀ b d, parentOf (solved.set solver.entry none) b = some d ↔
      b ≠ solver.entry ∧ parentOf solved b = some d := by
    intro b d
    rw [parents]
    by_cases eq : b = solver.entry
    · simp [eq]
    · simp [eq]
  have inside : ∀ b, (parentOf solved b).isSome → b < solver.blocks.length := fun b placed =>
    ok.lt_length ((placed_iff b).mp placed)
  have length : (solved.set solver.entry none).length = solver.blocks.length := by
    rw [length_set, inv.length]
  obtain ⟨children, childrenRun, rows⟩ := computeChildren_spec length (by omega) (by
    intro b d hang
    exact inside d (inv.tree.tree.placed b d ((parent_iff b d).mp hang).2))
  have tree : IsChildren (parentOf solved) solver.entry solver.rank children.row
      solver.blocks.length := by
    refine ⟨inv.tree.tree, fun b c => ?_, fun b => ?_, fun b placed => ?_⟩
    · rw [IlCsr.row, rows, mem_childRow, parent_iff]
    · rw [IlCsr.row, rows]
      exact nodup_childRow b
    · exact ok.rank_lt ((placed_iff b).mp placed)
  have reachable_iff : ∀ b, solver.reachable.getD b false = true ↔ (parentOf solved b).isSome := by
    intro b
    rw [placed_iff b, ← ok.order.reachable_iff b, getD_eq_getElem?_getD]
    cases solver.reachable[b]? <;> simp
  have entryPlaced : (parentOf solved solver.entry).isSome := by
    rw [inv.tree.tree.root]
    rfl
  refine ⟨?_, fun room => ?_⟩
  rotate_left
  · obtain ⟨⟨preorder, postorder⟩, intervalRun⟩ :=
      computeIntervals_isSome tree entryPlaced reachable_iff inside room
    exact ⟨_, by simp [solve, solveRun, childrenRun, intervalRun]; rfl⟩
  intro dominance run
  obtain ⟨preorder, postorder, intervalRun, rfl⟩ : ∃ preorder postorder,
      computeIntervals solver.blocks.length solver.entry solver.reachable children =
        some (preorder, postorder) ∧
      dominance = ⟨some solver.entry, solved.set solver.entry none, children, preorder, postorder,
        solver.reachable⟩ := by
    simp only [solve, solveRun, some_bind, childrenRun] at run
    obtain ⟨⟨preorder, postorder⟩, intervalRun, eq⟩ := bind_eq_some_iff.mp run
    exact ⟨preorder, postorder, intervalRun, (Option.some.inj eq).symm⟩
  have positions := fun b (placed : (parentOf solved b).isSome) =>
    computeIntervals_sound tree entryPlaced reachable_iff inside intervalRun placed
  have isReachable_iff : ∀ b, (solver.reachable[b]?).getD false = true ↔
      (parentOf solved b).isSome := by
    intro b
    exact reachable_iff b
  refine ⟨rfl, fun b => (isReachable_iff b).trans (placed_iff b), fun d b => ?_,
    fun b reached notEntry => ?_, fun b d found => ?_, fun b c => ?_, fun b => ?_⟩
  · by_cases dPlaced : (parentOf solved d).isSome
    · by_cases bPlaced : (parentOf solved b).isSome
      · have reached := (placed_iff b).mp bPlaced
        rw [← above_iff b reached d, ← tree.idxOf_le_iff dPlaced bPlaced
          (Above.entry_above inv.tree.tree dPlaced) (Above.entry_above inv.tree.tree bPlaced)]
        simp [dominates, isReachable, (isReachable_iff d).mpr dPlaced,
          (isReachable_iff b).mpr bPlaced, positions d dPlaced, positions b bPlaced]
      · have unreached : ¬ Dominates solver.edge solver.entry d b := fun dom =>
          bPlaced ((placed_iff b).mpr dom.reaches)
        have unmarked : (solver.reachable[b]?).getD false = false := by
          simpa using mt (isReachable_iff b).mp bPlaced
        simp [dominates, isReachable, unmarked, unreached]
    · have unreached : ¬ Dominates solver.edge solver.entry d b := fun dom =>
        dPlaced ((placed_iff d).mpr dom.reaches_left)
      have unmarked : (solver.reachable[d]?).getD false = false := by
        simpa using mt (isReachable_iff d).mp dPlaced
      simp [dominates, isReachable, unmarked, unreached]
  · obtain ⟨d, hang⟩ := isSome_iff_exists.mp ((placed_iff b).mpr reached)
    refine ⟨d, ?_, immediatelyDominates_of_parent inv.tree.tree above_iff reached notEntry hang⟩
    rw [immediateDominator_eq]
    exact (parent_iff b d).mpr ⟨notEntry, hang⟩
  · rw [immediateDominator_eq] at found
    obtain ⟨notEntry, hang⟩ := (parent_iff b d).mp found
    exact ⟨(placed_iff b).mp (by rw [hang]; rfl), notEntry⟩
  · rw [childrenFor, rows, mem_childRow, immediateDominator_eq]
  · rw [childrenFor, rows]
    exact nodup_childRow b

theorem fromBlocks_spec {blocks : List IlBlock} {successors : List IlBlockId} {entry : IlBlockId}
    (inRange : GraphInRange blocks successors) (entryLt : entry < blocks.length)
    (fits : blocks.length < 2 ^ 31) (small : edgeCount blocks < 2 ^ 32) :
    ∃ dominance, fromBlocks blocks successors entry = some dominance ∧
      dominance.Exact blocks successors entry := by
  have max : u32Max = 2 ^ 32 - 1 := rfl
  obtain ⟨solver, newRun, ok, rfl, rfl, rfl⟩ := new_spec inRange entryLt (by omega) (by omega)
  obtain ⟨sound, total⟩ := solve_spec ok (by omega)
  obtain ⟨dominance, solveRun⟩ := total (by omega)
  exact ⟨dominance, by rw [fromBlocks, newRun, bind_some, solveRun],
    sound dominance solveRun⟩

/-- What `from_blocks` returns is exact, whatever the size of the graph. -/
theorem fromBlocks_sound {blocks : List IlBlock} {successors : List IlBlockId} {entry : IlBlockId}
    (inRange : GraphInRange blocks successors) (entryLt : entry < blocks.length)
    {dominance : IlDominance} (run : fromBlocks blocks successors entry = some dominance) :
    dominance.Exact blocks successors entry := by
  obtain ⟨solver, newRun, solveRun⟩ := bind_eq_some_iff.mp run
  have fits : blocks.length ≤ u32Max ∧ edgeCount blocks ≤ u32Max := by
    by_contra full
    have none : IlBlockPredecessors.new blocks successors = none := by
      by_cases fits : blocks.length ≤ u32Max
      · exact IlBlockPredecessors.new_none inRange (by omega)
      · rw [IlBlockPredecessors.new, if_neg fits]
    rw [DominanceSolver.new, none] at newRun
    cases newRun
  obtain ⟨solver', newRun', ok, rfl, rfl, rfl⟩ := new_spec inRange entryLt fits.1 fits.2
  rw [newRun] at newRun'
  cases newRun'
  exact (solve_spec ok fits.1).1 dominance solveRun

/-- Dominance is computed exactly: every query answers the question about all walks from the
entry. -/
theorem fromBlocks_exact (blocks : List IlBlock) (successors : List IlBlockId) (entry : IlBlockId)
    (inRange : GraphInRange blocks successors) (entryLt : entry < blocks.length)
    (fits : blocks.length < 2 ^ 31) (small : edgeCount blocks < 2 ^ 32) :
    ∃ dominance, fromBlocks blocks successors entry = some dominance ∧
      (∀ b, dominance.isReachable b = true ↔ Reaches (Edge blocks successors) entry b) ∧
      (∀ d b, dominance.dominates d b = true ↔
        Reaches (Edge blocks successors) entry d ∧ Reaches (Edge blocks successors) entry b ∧
        ∀ walk, IsWalk (Edge blocks successors) entry b walk → d ∈ walk) ∧
      (∀ b, Reaches (Edge blocks successors) entry b → b ≠ entry →
        ∃ d, dominance.immediateDominator b = some d ∧
          ∀ e, e = d ↔ StrictlyDominates (Edge blocks successors) entry e b ∧
            ∀ f, StrictlyDominates (Edge blocks successors) entry f b → f ≠ e →
              Dominates (Edge blocks successors) entry f e) ∧
      dominance.immediateDominator entry = none ∧
      ∀ b, ¬ Reaches (Edge blocks successors) entry b → dominance.immediateDominator b = none := by
  obtain ⟨dominance, run, exact_⟩ := fromBlocks_spec inRange entryLt fits small
  refine ⟨dominance, run, exact_.isReachable_iff, fun d b => ?_, fun b reached notEntry => ?_,
    ?_, fun b unreached => ?_⟩
  · rw [exact_.dominates_iff]
    exact ⟨fun dom => ⟨dom.reaches_left, dom.1, dom.2⟩, fun ⟨_, reached, all⟩ => ⟨reached, all⟩⟩
  · obtain ⟨d, found, strict, nearest⟩ := exact_.immediate b reached notEntry
    refine ⟨d, found, fun e => ⟨?_, fun ⟨strictE, nearestE⟩ => ?_⟩⟩
    · rintro rfl
      exact ⟨strict, fun f strictF ne => nearest f strictF ne⟩
    · by_contra ne
      exact ne ((nearest e strictE ne).antisymm (nearestE d strict (Ne.symm ne)))
  · by_contra some
    obtain ⟨d, found⟩ := ne_none_iff_exists'.mp some
    exact (exact_.immediate_some entry d found).2 rfl
  · by_contra some
    obtain ⟨d, found⟩ := ne_none_iff_exists'.mp some
    exact unreached (exact_.immediate_some b d found).1

def plainBlock (start stop : Nat) : IlBlock :=
  { ops := .empty, successors := ⟨start, stop⟩, properties := ⟨false, false⟩ }

/-- The analysis of an irreducible graph with a self-loop and an edge back to its entry. -/
theorem fromBlocks_exact_irreducible :
    ∃ dominance, fromBlocks [plainBlock 0 2, plainBlock 2 4, plainBlock 4 6] [1, 2, 2, 0, 1, 2] 0 =
        some dominance ∧
      ∀ b, dominance.isReachable b = true ↔ Reaches
        (Edge [plainBlock 0 2, plainBlock 2 4, plainBlock 4 6] [1, 2, 2, 0, 1, 2]) 0 b := by
  obtain ⟨dominance, run, isReachable_iff, -⟩ := fromBlocks_exact
    [plainBlock 0 2, plainBlock 2 4, plainBlock 4 6] [1, 2, 2, 0, 1, 2] 0
    (by decide) (by decide) (by decide) (by decide)
  exact ⟨dominance, run, isReachable_iff⟩

/-- The blocks of a complete graph, which share one pool of successors. -/
def completeBlocks (n : Nat) : List IlBlock := List.replicate n (plainBlock 0 n)

theorem completeBlocks_inRange (n : Nat) : GraphInRange (completeBlocks n) (List.range n) := by
  refine ⟨fun block mem => ?_, fun block _ target mem => ?_⟩
  · rw [eq_of_mem_replicate mem, length_range]
    exact ⟨Nat.zero_le _, le_rfl⟩
  · rw [completeBlocks, length_replicate]
    exact mem_range.mp (mem_of_mem_slice mem)

/-- The edges of a large complete graph overflow the predecessor table. -/
theorem fromBlocks_completeBlocks {n : Nat} (large : u32Max < n * n) (entry : IlBlockId) :
    fromBlocks (completeBlocks n) (List.range n) entry = none := by
  have edges : edgeCount (completeBlocks n) = n * n := by
    rw [edgeCount, completeBlocks, map_replicate, sum_replicate]
    rfl
  rw [fromBlocks, DominanceSolver.new,
    IlBlockPredecessors.new_none (completeBlocks_inRange n) (by rw [edges]; exact large)]
  rfl

/-- In a complete graph of 65537 blocks that share one pool of successors, the number of edges
overflows the predecessor table, and the `expect` in `IlCsr::from_entries` panics. -/
theorem fromBlocks_complete_graph :
    GraphInRange (completeBlocks 65537) (List.range 65537) ∧ 0 < (completeBlocks 65537).length ∧
      fromBlocks (completeBlocks 65537) (List.range 65537) 0 = none := by
  refine ⟨completeBlocks_inRange 65537, ?_, fromBlocks_completeBlocks (by decide) 0⟩
  rw [completeBlocks, length_replicate]
  decide

end Fugue.Il.IlDominance
