import Fugue.Il.Common.DominanceOrder
import Fugue.Lib.DominatorTree

/-!
# The immediate dominators of the dominance solver

`intersect` finds nearest common ancestors, so every update of `solve_immediate_dominators` is a
step of the iterative computation of `Fugue.Lib.DominatorTree`. After the first pass every
reachable block has a place in the tree; each further pass makes the tree right for walks of one
more edge; and a pass that changes nothing leaves the dominator tree.
-/

namespace Fugue.Il.DominanceSolver

open Fugue.Lib List Option Function
open Function (update)

/-- What `DominanceSolver::new` establishes. -/
structure Context.Ok (solver : Context) : Prop where
  inRange : GraphInRange solver.blocks solver.successors
  entryLt : solver.entry < solver.blocks.length
  predecessors : ∀ block source, source ∈ solver.predecessors.predecessorsFor block ↔
    Edge solver.blocks solver.successors source block
  order : IsReversePostorder solver.blocks solver.successors solver.entry solver.reachable
    solver.reversePostorder solver.positions

/-- The list of immediate dominators as a parent function. -/
def parentOf (idoms : List (Option IlBlockId)) (block : IlBlockId) : Option IlBlockId :=
  idoms.getD block none

theorem parentOf_set {idoms : List (Option IlBlockId)} {block : IlBlockId}
    {parent : Option IlBlockId} (lt : block < idoms.length) :
    parentOf (idoms.set block parent) = update (parentOf idoms) block parent := by
  funext b
  by_cases eq : b = block
  · subst eq
    simp [parentOf, getD_eq_getElem?_getD, lt]
  · rw [update_of_ne eq]
    simp [parentOf, getD_eq_getElem?_getD, Ne.symm eq]

section

variable {solver : Context}

abbrev Context.edge (solver : Context) : IlBlockId → IlBlockId → Prop :=
  Edge solver.blocks solver.successors

/-- The place of a block in the reverse postorder. -/
abbrev Context.rank (solver : Context) (block : IlBlockId) : Nat :=
  solver.reversePostorder.idxOf block

/-- The invariant of the iteration, for the list of immediate dominators. -/
structure SolveInv (solver : Context) (idoms : List (Option IlBlockId)) : Prop where
  length : idoms.length = solver.blocks.length
  tree : TreeInv solver.edge solver.entry solver.rank (parentOf idoms)

namespace Context.Ok

variable (ok : solver.Ok) {idoms : List (Option IlBlockId)}

include ok

variable {b : IlBlockId}

theorem mem_order :
    b ∈ solver.reversePostorder ↔ Reaches solver.edge solver.entry b :=
  ok.order.isFlowOrder.mem_iff b

theorem lt_length (reached : Reaches solver.edge solver.entry b) :
    b < solver.blocks.length := Reaches.lt ok.inRange ok.entryLt reached

theorem position_eq (reached : Reaches solver.edge solver.entry b) :
    position solver b = solver.rank b := ok.order.positions_eq b (ok.mem_order.mpr reached)

theorem length_order : solver.reversePostorder.length ≤ solver.blocks.length := by
  have sub : solver.reversePostorder ⊆ List.range solver.blocks.length := fun b mem =>
    mem_range.mpr (ok.lt_length (ok.mem_order.mp mem))
  simpa using (ok.order.isFlowOrder.nodup.subperm sub).length_le

theorem rank_lt (reached : Reaches solver.edge solver.entry b) :
    solver.rank b < solver.blocks.length :=
  lt_of_lt_of_le (idxOf_lt_length_of_mem (ok.mem_order.mpr reached)) ok.length_order

theorem rank_inj {a b : IlBlockId} (reached : Reaches solver.edge solver.entry a)
    (eq : solver.rank a = solver.rank b) : a = b :=
  (idxOf_inj (ok.mem_order.mpr reached)).mp eq

section

variable (inv : SolveInv solver idoms)
include inv

/-- An inner loop of `intersect` stops at the lowest ancestor that is not past the limit. -/
theorem climb_spec (limit : Nat) :
    ∀ fuel x, (parentOf idoms x).isSome → solver.rank x < fuel →
      ∃ y, climb solver idoms limit fuel x = some y ∧
        Above (parentOf idoms) solver.entry y x ∧ solver.rank y ≤ limit ∧
        ∀ a, Above (parentOf idoms) solver.entry a x → solver.rank a ≤ limit →
          Above (parentOf idoms) solver.entry a y := by
  intro fuel
  induction fuel with
  | zero => intro x _ lt; exact absurd lt (Nat.not_lt_zero _)
  | succ fuel ih =>
    intro x placed lt
    have position := ok.position_eq (inv.tree.reaches x placed)
    by_cases past : solver.rank x > limit
    · have notEntry : x ≠ solver.entry := by
        rintro rfl
        rw [Context.rank, ok.order.isFlowOrder.idxOf_entry] at past
        omega
      obtain ⟨d, hang⟩ := isSome_iff_exists.mp placed
      have lower := inv.tree.tree.rank_lt x d hang notEntry
      obtain ⟨y, run, above, le, others⟩ :=
        ih d (inv.tree.tree.placed x d hang) (by omega)
      refine ⟨y, ?_, .up notEntry hang above, le, fun a aboveX leA => ?_⟩
      · rw [climb, position, if_pos past]
        change (parentOf idoms x).bind _ = _
        rw [hang, bind_some, run]
      · exact others a (aboveX.of_parent notEntry hang fun eq => by subst eq; omega) leA
    · exact ⟨x, by rw [climb, position, if_neg past], .refl, by omega, fun a above _ => above⟩

/-- `intersect` returns the nearest common ancestor. -/
theorem intersect_spec {first second : IlBlockId}
    (placedFirst : (parentOf idoms first).isSome) (placedSecond : (parentOf idoms second).isSome) :
    ∃ n, intersect solver idoms first second = some n ∧
      ∀ a, Above (parentOf idoms) solver.entry a n ↔
        Above (parentOf idoms) solver.entry a first ∧
        Above (parentOf idoms) solver.entry a second := by
  have reaches : ∀ x, (parentOf idoms x).isSome → Reaches solver.edge solver.entry x :=
    inv.tree.reaches
  refine runLoop_total
    (fun pair => (parentOf idoms pair.1).isSome ∧ (parentOf idoms pair.2).isSome ∧
      ∀ a, (Above (parentOf idoms) solver.entry a pair.1 ∧
          Above (parentOf idoms) solver.entry a pair.2) ↔
        (Above (parentOf idoms) solver.entry a first ∧
          Above (parentOf idoms) solver.entry a second))
    (fun pair => solver.rank pair.1 + solver.rank pair.2)
    (fun n => ∀ a, Above (parentOf idoms) solver.entry a n ↔
      Above (parentOf idoms) solver.entry a first ∧ Above (parentOf idoms) solver.entry a second)
    ?_ (2 * solver.blocks.length + 2) (first, second) ⟨placedFirst, placedSecond, fun _ => Iff.rfl⟩
    ?_
  · rintro ⟨x, y⟩ ⟨placedX, placedY, common⟩
    by_cases eq : x = y
    · subst eq
      exact .inr ⟨x, by simp [intersectStep], fun a => by simpa using common a⟩
    · left
      have ranks : solver.rank x ≠ solver.rank y := fun same =>
        eq (ok.rank_inj (reaches x placedX) same)
      have rankX := ok.rank_lt (reaches x placedX)
      have rankY := ok.rank_lt (reaches y placedY)
      obtain ⟨x', runX, aboveX, leX, othersX⟩ := ok.climb_spec inv (solver.rank y)
        (solver.blocks.length + 1) x placedX (by omega)
      obtain ⟨y', runY, aboveY, leY, othersY⟩ := ok.climb_spec inv (solver.rank x')
        (solver.blocks.length + 1) y placedY (by omega)
      have placedX' := aboveX.placed inv.tree.tree placedX
      have lowerX := aboveX.rank_le inv.tree.tree
      refine ⟨(x', y'), ?_, ⟨placedX', aboveY.placed inv.tree.tree placedY, fun a => ?_⟩, ?_⟩
      · simp only [intersectStep, eq, if_false, ok.position_eq (reaches y placedY), runX,
          some_bind, ok.position_eq (reaches x' placedX'), runY]
        rfl
      · rw [← common a]
        constructor
        · rintro ⟨hx, hy⟩
          exact ⟨hx.trans aboveX, hy.trans aboveY⟩
        · rintro ⟨hx, hy⟩
          have hx' := othersX a hx (hy.rank_le inv.tree.tree)
          exact ⟨hx', othersY a hy (hx'.rank_le inv.tree.tree)⟩
      · simp only
        omega
  · have := ok.rank_lt (reaches first placedFirst)
    have := ok.rank_lt (reaches second placedSecond)
    simp only
    omega

theorem foldlM_intersect_spec :
    ∀ (rest : List IlBlockId) (first : IlBlockId),
      (∀ p ∈ first :: rest, (parentOf idoms p).isSome) →
      ∃ n, rest.foldlM (fun dominator predecessor =>
          intersect solver idoms predecessor dominator) first = some n ∧
        ∀ a, Above (parentOf idoms) solver.entry a n ↔
          ∀ p ∈ first :: rest, Above (parentOf idoms) solver.entry a p := by
  intro rest
  induction rest with
  | nil => intro first _; exact ⟨first, rfl, by simp⟩
  | cons p rest ih =>
    intro first placed
    obtain ⟨m, runM, nearestM⟩ := ok.intersect_spec inv (placed p (by simp))
      (placed first (by simp))
    have placedM : (parentOf idoms m).isSome :=
      ((nearestM m).mp .refl).1.placed inv.tree.tree (placed p (by simp))
    obtain ⟨n, run, nearest⟩ := ih m (by
      intro q mem
      rcases mem_cons.mp mem with rfl | mem
      · exact placedM
      · exact placed q (by simp [mem]))
    refine ⟨n, by rw [foldlM_cons, runM]; exact run, fun a => ?_⟩
    rw [nearest a]
    simp only [forall_mem_cons, nearestM a]
    tauto

theorem mem_processedPredecessors {b p : IlBlockId} :
    p ∈ processedPredecessors solver idoms b ↔
      solver.edge p b ∧ (parentOf idoms p).isSome := by
  simp only [processedPredecessors, mem_filter, ok.predecessors, Bool.and_eq_true]
  constructor
  · rintro ⟨edge, -, placed⟩
    exact ⟨edge, placed⟩
  · rintro ⟨edge, placed⟩
    refine ⟨edge, ?_, placed⟩
    rw [getD_eq_getElem?_getD, (ok.order.reachable_iff p).mpr (inv.tree.reaches p placed)]
    rfl

/-- The `for` body hangs the block under the nearest common ancestor of its processed
predecessors, and reports a change exactly if it was not there already. -/
theorem updateBlock_spec {b : IlBlockId}
    (reached : Reaches solver.edge solver.entry b) (notEntry : b ≠ solver.entry)
    (earlier : ∃ p, solver.edge p b ∧ (parentOf idoms p).isSome ∧ solver.rank p < solver.rank b)
    (changed : Bool) :
    ∃ n idoms' changed', updateBlock solver (idoms, changed) b = some (idoms', changed') ∧
      Joins solver.edge solver.entry solver.rank (parentOf idoms) b
        (processedPredecessors solver idoms b) n ∧
      parentOf idoms' = update (parentOf idoms) b (some n) ∧
      SolveInv solver idoms' ∧
      (changed' = false → changed = false ∧ idoms' = idoms ∧ parentOf idoms b = some n) ∧
      (parentOf idoms b = some n → changed' = changed ∧ idoms' = idoms) := by
  obtain ⟨older, olderEdge, olderPlaced, olderLt⟩ := earlier
  have mem : ∀ p, p ∈ processedPredecessors solver idoms b ↔
      solver.edge p b ∧ (parentOf idoms p).isSome := fun p => ok.mem_processedPredecessors inv
  have olderMem := (mem older).mpr ⟨olderEdge, olderPlaced⟩
  obtain ⟨first, rest, split⟩ := exists_cons_of_ne_nil (ne_nil_of_mem olderMem)
  obtain ⟨n, run, nearest⟩ := ok.foldlM_intersect_spec inv rest first
    (fun p pMem => ((mem p).mp (split ▸ pMem)).2)
  have joins : Joins solver.edge solver.entry solver.rank (parentOf idoms) b
      (processedPredecessors solver idoms b) n :=
    ⟨fun p pMem => ((mem p).mp pMem).1, fun p pMem => ((mem p).mp pMem).2,
      ⟨older, olderMem, olderLt⟩, split ▸ nearest⟩
  have lt : b < idoms.length := inv.length ▸ ok.lt_length reached
  by_cases same : parentOf idoms b = some n
  · refine ⟨n, idoms, changed, ?_, joins, ?_, inv, fun h => ⟨h, rfl, same⟩, fun _ => ⟨rfl, rfl⟩⟩
    · simp only [updateBlock, split, run]
      change (if parentOf idoms b ≠ some n then _ else _) = _
      rw [if_neg (not_not.mpr same)]
      rfl
    · rw [← same, update_eq_self]
  · refine ⟨n, idoms.set b (some n), true, ?_, joins, parentOf_set lt, ⟨?_, ?_⟩, by simp,
      fun h => absurd h same⟩
    · simp only [updateBlock, split, run]
      change (if parentOf idoms b ≠ some n then _ else _) = _
      rw [if_pos same]
      rfl
    · simpa using inv.length
    · rw [parentOf_set lt]
      exact inv.tree.hang notEntry joins

end

/-- A block hangs where an update would hang it. -/
def Settled (solver : Context) (idoms : List (Option IlBlockId)) (b : IlBlockId) : Prop :=
  ∃ n, parentOf idoms b = some n ∧ Joins solver.edge solver.entry solver.rank (parentOf idoms) b
    (processedPredecessors solver idoms b) n

theorem foldlM_updateBlock_spec :
    ∀ (rest done : List IlBlockId) (idoms : List (Option IlBlockId)) (changed : Bool),
      done ++ rest = solver.reversePostorder → solver.entry ∈ done → SolveInv solver idoms →
      (∀ x ∈ done, (parentOf idoms x).isSome) →
      ∃ idoms' changed', rest.foldlM (updateBlock solver) (idoms, changed) =
          some (idoms', changed') ∧
        SolveInv solver idoms' ∧
        (∀ x ∈ solver.reversePostorder, (parentOf idoms' x).isSome) ∧
        ((∀ x ∈ solver.reversePostorder, (parentOf idoms x).isSome) → ∀ k,
          (∀ x ∈ solver.reversePostorder, Within solver.edge solver.entry (parentOf idoms) k x) →
          (∀ x ∈ done, Within solver.edge solver.entry (parentOf idoms) (k + 1) x) →
          ∀ x ∈ solver.reversePostorder,
            Within solver.edge solver.entry (parentOf idoms') (k + 1) x) ∧
        (changed' = false → changed = false ∧ idoms' = idoms ∧ ∀ b ∈ rest, Settled solver idoms b) ∧
        ((∀ x ∈ solver.reversePostorder, (parentOf idoms x).isSome) →
          (∀ x, Reaches solver.edge solver.entry x → ∀ a, Above (parentOf idoms) solver.entry a x ↔
              Dominates solver.edge solver.entry a x) →
          changed' = changed ∧ idoms' = idoms) := by
  intro rest
  induction rest with
  | nil =>
    intro done idoms changed split _ inv placed
    rw [append_nil] at split
    subst split
    exact ⟨idoms, changed, rfl, inv, placed, fun _ _ _ within => within,
      fun h => ⟨h, rfl, by simp⟩, fun _ _ => ⟨rfl, rfl⟩⟩
  | cons b rest ih =>
    intro done idoms changed split entryMem inv placed
    have nodup := ok.order.isFlowOrder.nodup
    have bMem : b ∈ solver.reversePostorder := by rw [← split]; simp
    have reached := ok.mem_order.mp bMem
    have notEntry : b ≠ solver.entry := by
      rintro rfl
      rw [← split] at nodup
      exact (nodup_append.mp nodup).2.2 _ entryMem _ (.head _) rfl
    -- the predecessor in front of the block has been processed in this pass
    obtain ⟨p, pMem, edge, lt⟩ := ok.order.isFlowOrder.earlier b bMem notEntry
    have pDone : p ∈ done := by
      rw [← split] at nodup lt pMem
      rw [idxOf_append_cons nodup] at lt
      by_contra notDone
      rw [idxOf_append_of_notMem notDone] at lt
      omega
    obtain ⟨n, idoms₁, changed₁, run, joins, parents, inv₁, unchanged, same⟩ :=
      ok.updateBlock_spec inv reached notEntry ⟨p, edge, placed p pDone, lt⟩ changed
    have stays : ∀ x, (parentOf idoms x).isSome → (parentOf idoms₁ x).isSome := by
      intro x isPlaced
      rw [parents]
      by_cases eq : x = b
      · simp [eq]
      · rwa [update_of_ne eq]
    have placedB : (parentOf idoms₁ b).isSome := by simp [parents]
    have all : (∀ x ∈ solver.reversePostorder, (parentOf idoms x).isSome) →
        ∀ q, Reaches solver.edge solver.entry q → solver.edge q b →
          q ∈ processedPredecessors solver idoms b := fun everywhere q reachedQ edgeQ =>
      (ok.mem_processedPredecessors inv).mpr ⟨edgeQ, everywhere q (ok.mem_order.mpr reachedQ)⟩
    obtain ⟨idoms', changed', run', inv', placed', within', unchanged', same'⟩ :=
      ih (done ++ [b]) idoms₁ changed₁ (by simpa using split) (by simp [entryMem]) inv₁ (by
        intro x mem
        rcases mem_append.mp mem with old | new
        · exact stays x (placed x old)
        · rw [mem_singleton.mp new]; exact placedB)
    refine ⟨idoms', changed', by rw [foldlM_cons, run]; exact run', inv', placed', ?_, ?_, ?_⟩
    · intro everywhere k within withinDone
      have withinB : Within solver.edge solver.entry (parentOf idoms₁) (k + 1) b := by
        rw [parents]
        refine Within.hang_self inv.tree notEntry joins fun q reachedQ edgeQ => ?_
        exact ⟨all everywhere q reachedQ edgeQ, within q (ok.mem_order.mpr reachedQ)⟩
      have withinB' : Within solver.edge solver.entry (parentOf idoms₁) k b :=
        fun a above walk ends short => withinB a above walk ends (by omega)
      rw [parents] at withinB withinB'
      refine within' (fun x mem => stays x (everywhere x mem)) k (fun x mem => ?_)
        (fun x mem => ?_)
      · rw [parents]
        exact (within x mem).hang withinB'
      · rw [parents]
        rcases mem_append.mp mem with old | new
        · exact (withinDone x old).hang withinB
        · rw [mem_singleton.mp new]; exact withinB
    · intro noChange
      obtain ⟨noChange₁, rfl, settled⟩ := unchanged' noChange
      obtain ⟨noChange₀, rfl, hang⟩ := unchanged noChange₁
      refine ⟨noChange₀, rfl, fun c mem => ?_⟩
      rcases mem_cons.mp mem with rfl | later
      · exact ⟨n, hang, joins⟩
      · exact settled c later
    · intro everywhere exact_
      have hang := inv.tree.parent_eq_of_joins exact_ notEntry (everywhere b bMem) joins
        (all everywhere)
      obtain ⟨rfl, rfl⟩ := same hang
      exact same' everywhere exact_

theorem solveInv_start : SolveInv solver
    ((List.replicate solver.blocks.length none).set solver.entry (some solver.entry)) := by
  have parents : parentOf ((List.replicate solver.blocks.length none).set solver.entry
      (some solver.entry)) = update (fun _ => none) solver.entry (some solver.entry) := by
    rw [parentOf_set (by simpa using ok.entryLt)]
    congr 1
    funext b
    simp only [parentOf, getD_eq_getElem?_getD, getElem?_replicate]
    split <;> rfl
  have onlyEntry : ∀ b d, update (fun _ => none) solver.entry (some solver.entry) b =
      some d → b = solver.entry ∧ d = solver.entry := by
    intro b d hang
    by_cases eq : b = solver.entry
    · subst eq
      rw [update_self] at hang
      exact ⟨rfl, (Option.some.inj hang).symm⟩
    · rw [update_of_ne eq] at hang
      exact absurd hang (by simp)
  have onlyPlaced : ∀ b, (update (fun _ => none) solver.entry (some solver.entry) b).isSome →
      b = solver.entry := fun b isPlaced => by
    obtain ⟨d, hang⟩ := isSome_iff_exists.mp isPlaced
    exact (onlyEntry b d hang).1
  refine ⟨by simp, ?_⟩
  rw [parents]
  refine ⟨⟨update_self .., ?_, ?_⟩, ?_, ?_, ?_⟩
  · intro b d hang ne
    exact absurd (onlyEntry b d hang).1 ne
  · intro b d hang
    rw [(onlyEntry b d hang).2, update_self]
    rfl
  · intro b isPlaced
    rw [onlyPlaced b isPlaced]
    exact reaches_entry
  · intro b isPlaced d dom
    rw [onlyPlaced b isPlaced] at dom ⊢
    rw [dom.eq_entry]
    exact .refl
  · intro a b isPlaced above d dom older
    rw [onlyPlaced b isPlaced] at above dom
    rw [above.eq_entry, dom.eq_entry] at older
    omega

/-- The pass as `foldlM_updateBlock_spec` sees it. -/
theorem pass_eq_foldlM (idoms : List (Option IlBlockId)) :
    ∃ rest, [solver.entry] ++ rest = solver.reversePostorder ∧
      pass solver idoms = rest.foldlM (updateBlock solver) (idoms, false) := by
  obtain ⟨rest, eq⟩ := ok.order.isFlowOrder.eq_cons
  exact ⟨rest, by rw [eq]; rfl, by rw [pass, eq]; rfl⟩

theorem solveImmediateDominators_spec :
    ∃ idoms, solveImmediateDominators solver = some idoms ∧ SolveInv solver idoms ∧
      (∀ x, (parentOf idoms x).isSome ↔ Reaches solver.edge solver.entry x) ∧
      ∀ x, Reaches solver.edge solver.entry x → ∀ a,
        Above (parentOf idoms) solver.entry a x ↔ Dominates solver.edge solver.entry a x := by
  refine runLoop_total_indexed
    (fun left idoms => SolveInv solver idoms ∧ (left = solver.blocks.length + 2 ∨
      (∀ x ∈ solver.reversePostorder, (parentOf idoms x).isSome) ∧
      ∃ k, k + left = solver.blocks.length + 1 ∧
        ∀ x ∈ solver.reversePostorder,
          Within solver.edge solver.entry (parentOf idoms) k x))
    (fun idoms => SolveInv solver idoms ∧
      (∀ x, (parentOf idoms x).isSome ↔ Reaches solver.edge solver.entry x) ∧
      ∀ x, Reaches solver.edge solver.entry x → ∀ a,
        Above (parentOf idoms) solver.entry a x ↔ Dominates solver.edge solver.entry a x)
    ?_ (solver.blocks.length + 3) (solver.blocks.length + 2) _ ⟨ok.solveInv_start, .inl rfl⟩
    (by omega)
  rintro left idoms ⟨inv, progress⟩
  obtain ⟨rest, split, passEq⟩ := ok.pass_eq_foldlM idoms
  obtain ⟨idoms', changed', run, inv', placed', within', unchanged, same⟩ :=
    ok.foldlM_updateBlock_spec rest [solver.entry] idoms false split (by simp) inv (by
      intro x mem
      rw [mem_singleton.mp mem, inv.tree.tree.root]
      rfl)
  rw [← passEq] at run
  cases changed' with
  | false =>
    obtain ⟨-, rfl, settled⟩ := unchanged rfl
    refine .inr ⟨idoms', by simp [solveStep, run], inv', fun x => ?_, fun x reached a => ?_⟩
    · exact ⟨inv'.tree.reaches x, fun reached => placed' x (ok.mem_order.mpr reached)⟩
    · refine inv'.tree.above_iff_of_joins
        (fun y reachedY => placed' y (ok.mem_order.mpr reachedY)) (fun y reachedY notEntry => ?_)
        reached
      have yMem := ok.mem_order.mpr reachedY
      rw [← split] at yMem
      obtain ⟨n, hang, joins⟩ := settled y ((mem_append.mp yMem).resolve_left
        (by simpa using notEntry))
      exact ⟨_, n, hang, joins, fun p reachedP edgeP => (ok.mem_processedPredecessors inv').mpr
        ⟨edgeP, placed' p (ok.mem_order.mpr reachedP)⟩⟩
  | true =>
    refine .inl ⟨idoms', by simp [solveStep, run], ?_⟩
    rcases progress with rfl | ⟨placed, k, total, within⟩
    · -- the first pass places every block; the walk without an edge is the entry
      refine ⟨solver.blocks.length + 1, by omega, inv', .inr ⟨placed', 0, by omega, ?_⟩⟩
      intro x _ a above walk ends short
      cases ends with
      | start => rw [above.eq_entry]; exact .head _
      | @step p _ before prior _ =>
        obtain ⟨tail, rfl⟩ := prior.eq_cons
        simp at short
    · cases left with
      | succ left =>
        refine ⟨left, by omega, inv', .inr ⟨placed', k + 1, by omega, ?_⟩⟩
        refine within' placed k within fun x mem => ?_
        rw [mem_singleton.mp mem]
        exact within_entry
      | zero =>
        -- by now the tree is exact, so the pass cannot have changed it
        have exact_ : ∀ x, Reaches solver.edge solver.entry x → ∀ a,
            Above (parentOf idoms) solver.entry a x ↔
              Dominates solver.edge solver.entry a x := by
          intro x reached a
          have mem := ok.mem_order.mpr reached
          refine inv.tree.above_iff_of_within (placed x mem) (within x mem) fun walk ends nodup => ?_
          have sub : walk ⊆ List.range solver.blocks.length := fun y memY =>
            mem_range.mpr (ok.lt_length (ends.reaches_of_mem memY))
          have := (nodup.subperm sub).length_le
          rw [length_range] at this
          omega
        exact absurd (same placed exact_).1 (by simp)

end Context.Ok

end

end Fugue.Il.DominanceSolver
