import Fugue.Il.Common.DominanceTree
import Fugue.Il.Common.Rows
import Fugue.Lib.Frontier
import Mathlib.Data.Set.Card

/-!
# Dominance frontiers

`IlDominance::frontiers` and `IlDominanceFrontier` (`fugue-core/src/il/common/dominance.rs`): the
frontiers are computed from the leaves of the dominator tree up, each from the edges of its block and
from the frontiers of the blocks below it, and `place_phis` closes a set of definitions under them.
`none` stands for a panic or a loop that did not end.
-/

namespace Fugue.Il

open Fugue.Lib List

/-- `IlDominanceFrontier` (`dominance.rs:188-190`). -/
structure IlDominanceFrontier where
  frontiers : IlCsr IlBlockId
  deriving DecidableEq, Repr

namespace IlDominance

/-- The state of `tree_postorder`; the top of the stack is the head of the list. -/
structure PostorderState where
  stack : List (IlBlockId × Bool)
  order : List IlBlockId

variable (dominance : IlDominance)

/-- One round of `tree_postorder` (`dominance.rs:155-171`). -/
def postorderStep (s : PostorderState) : Option (PostorderState ⊕ List IlBlockId) :=
  match s.stack with
  | [] => some (.inr s.order)
  | (block, expanded) :: stack =>
    if dominance.isReachable block = false then some (.inl { s with stack })
    else if expanded then some (.inl { stack, order := s.order ++ [block] })
    else
      some (.inl { s with
        stack := (dominance.childrenFor block).map (·, false) ++ (block, true) :: stack })

/-- `tree_postorder` (`dominance.rs:147-174`). -/
def treePostorder : Option (List IlBlockId) :=
  match dominance.entry with
  | none => some []
  | some entry =>
    runLoop dominance.postorderStep (2 * dominance.reachable.length + 2) ⟨[(entry, false)], []⟩

/-- `block_frontiers.push` of a block that is not yet there. -/
def pushFrontier (frontiers : List (List IlBlockId)) (block frontier : IlBlockId) :
    Option (List (List IlBlockId)) := do
  let row ← frontiers[block]?
  return if frontier ∈ row then frontiers else frontiers.set block (row ++ [frontier])

/-- `add_successor_frontiers` (`dominance.rs:114-131`). -/
def addSuccessorFrontiers (blocks : List IlBlock) (successors : List IlBlockId)
    (block : IlBlockId) (frontiers : List (List IlBlockId)) : Option (List (List IlBlockId)) := do
  let record ← blocks[block]?
  (record.successors.slice successors).foldlM (fun frontiers successor =>
    if dominance.isReachable successor ∧ dominance.immediateDominator successor ≠ some block then
      pushFrontier frontiers block successor
    else some frontiers) frontiers

/-- `add_child_frontiers` (`dominance.rs:133-145`). -/
def addChildFrontiers (block : IlBlockId) (frontiers : List (List IlBlockId)) :
    Option (List (List IlBlockId)) :=
  (dominance.childrenFor block).foldlM (fun frontiers child => do
    let row ← frontiers[child]?
    (List.range row.length).foldlM (fun frontiers index => do
      let row ← frontiers[child]?
      let frontier ← row[index]?
      if dominance.immediateDominator frontier ≠ some block then
        pushFrontier frontiers block frontier
      else return frontiers) frontiers) frontiers

/-- `IlDominanceFrontier::from_frontiers` (`dominance.rs:193-201`). -/
def fromFrontiers (frontiers : List (List IlBlockId)) : Option IlDominanceFrontier :=
  (IlCsr.fromRows (frontiers.map fun row => row.mergeSort fun a b => decide (a ≤ b))).map .mk

/-- `IlDominance::frontiers` (`dominance.rs:82-91`). -/
def frontiers (blocks : List IlBlock) (successors : List IlBlockId) :
    Option IlDominanceFrontier := do
  let order ← dominance.treePostorder
  let rows ← order.foldlM (fun rows block => do
    let rows ← dominance.addSuccessorFrontiers blocks successors block rows
    dominance.addChildFrontiers block rows) (List.replicate blocks.length [])
  fromFrontiers rows

end IlDominance

namespace IlDominanceFrontier

variable (frontier : IlDominanceFrontier)

/-- `IlDominanceFrontier::frontier_for` (`dominance.rs:203-207`). -/
def frontierFor (block : IlBlockId) : List IlBlockId :=
  (frontier.frontiers.checkedRow block).getD []

/-- The state of `place_phis`; the next block of the queue is the head of the list. -/
structure PhiState where
  placed : List Bool
  queued : List Bool
  queue : List IlBlockId
  phis : List IlBlockId

/-- A block of the definitions (`dominance.rs:210-221`). -/
def queueDefinition (blockCount : Nat) (s : PhiState) (definition : IlBlockId) :
    Except IlError PhiState :=
  if blockCount ≤ definition then .error (.rangeOutOfBounds definition blockCount)
  else if s.queued.getD definition false then .ok s
  else .ok { s with queued := s.queued.set definition true, queue := definition :: s.queue }

/-- A block of a frontier (`dominance.rs:224-236`). -/
def placePhi (s : PhiState) (frontier : IlBlockId) : Option PhiState := do
  if ← s.placed[frontier]? then return s
  let s := { s with placed := s.placed.set frontier true, phis := s.phis ++ [frontier] }
  if ← s.queued[frontier]? then return s
  return { s with queued := s.queued.set frontier true, queue := frontier :: s.queue }

/-- One round of `place_phis`. -/
def placeStep (s : PhiState) : Option (PhiState ⊕ List IlBlockId) :=
  match s.queue with
  | [] => some (.inr s.phis)
  | block :: queue => ((frontier.frontierFor block).foldlM placePhi { s with queue }).map .inl

/-- `place_phis` (`dominance.rs:209-251`); `none` is a panic. -/
def placePhis (blockCount : Nat) (definitions : List IlBlockId) :
    Option (Except IlError (List IlBlockId)) :=
  match definitions.foldlM (queueDefinition blockCount)
      ⟨List.replicate blockCount false, List.replicate blockCount false, [], []⟩ with
  | .error error => some (.error error)
  | .ok s => do
    let phis ← runLoop frontier.placeStep (blockCount + 1) s
    return .ok (phis.mergeSort fun a b => decide (a ≤ b))

end IlDominanceFrontier

namespace IlDominance

variable {dominance : IlDominance} {blocks : List IlBlock} {successors : List IlBlockId}
  {entry : IlBlockId} {b x y : IlBlockId}

/-! ## The order of the tree -/

namespace Exact

theorem immediateDominator_iff (exact_ : dominance.Exact blocks successors entry) :
    dominance.immediateDominator y = some x ↔
      ImmediatelyDominates (Edge blocks successors) entry x y := by
  constructor
  · intro found
    obtain ⟨reached, notEntry⟩ := exact_.immediate_some y x found
    obtain ⟨d, found', immediate⟩ := exact_.immediate y reached notEntry
    rw [found] at found'
    cases found'
    exact immediate
  · intro immediate
    have notEntry : y ≠ entry := by
      rintro rfl
      exact immediate.1.2 immediate.1.1.eq_entry
    obtain ⟨d, found, immediate'⟩ := exact_.immediate y immediate.1.1.reaches notEntry
    by_cases same : x = d
    · rw [found, same]
    · have above := immediate'.2 x immediate.1 same
      have below := immediate.2 d immediate'.1 (Ne.symm same)
      exact absurd (above.antisymm below) same

theorem hangs (exact_ : dominance.Exact blocks successors entry) :
    ∀ b, Reaches (Edge blocks successors) entry b → b ≠ entry →
      ∃ d, ImmediatelyDominates (Edge blocks successors) entry d b := by
  intro b reached notEntry
  obtain ⟨d, -, immediate⟩ := exact_.immediate b reached notEntry
  exact ⟨d, immediate⟩

end Exact

/-- The tree that the immediate dominators make, its root above itself. -/
def treeParent (dominance : IlDominance) (entry block : IlBlockId) : Option IlBlockId :=
  if block = entry then some entry else dominance.immediateDominator block

/-- The number of dominators of a block. -/
def depth (dominance : IlDominance) (count : Nat) (block : IlBlockId) : Nat :=
  ((Finset.range count).filter fun d => dominance.dominates d block = true).card

theorem Exact.treeParent_isSome_iff (exact_ : dominance.Exact blocks successors entry) :
    (treeParent dominance entry b).isSome ↔ Reaches (Edge blocks successors) entry b := by
  unfold treeParent
  by_cases same : b = entry
  · subst same
    simp [reaches_entry]
  · rw [if_neg same]
    constructor
    · intro placed
      obtain ⟨d, found⟩ := Option.isSome_iff_exists.mp placed
      exact (exact_.immediate_some b d found).1
    · intro reached
      obtain ⟨d, found, -⟩ := exact_.immediate b reached same
      rw [found]
      rfl

theorem Exact.isChildren (exact_ : dominance.Exact blocks successors entry)
    (inRange : GraphInRange blocks successors) (entryLt : entry < blocks.length) :
    IsChildren (treeParent dominance entry) entry (depth dominance blocks.length)
      dominance.childrenFor (blocks.length + 1) := by
  refine ⟨⟨by simp [treeParent], fun b d hang notEntry => ?_, fun b d hang => ?_⟩,
    fun b c => ?_, exact_.nodup_childrenFor, fun b _ => ?_⟩
  · rw [treeParent, if_neg notEntry] at hang
    have immediate := exact_.immediateDominator_iff.mp hang
    refine Finset.card_lt_card ((Finset.ssubset_iff_of_subset fun e mem => ?_).mpr ⟨b, ?_, ?_⟩)
    · rw [Finset.mem_filter, exact_.dominates_iff] at mem ⊢
      exact ⟨mem.1, mem.2.trans immediate.1.1⟩
    · rw [Finset.mem_filter, exact_.dominates_iff, Finset.mem_range]
      exact ⟨Reaches.lt inRange entryLt immediate.1.1.reaches, .refl immediate.1.1.reaches⟩
    · rw [Finset.mem_filter, exact_.dominates_iff]
      rintro ⟨-, above⟩
      exact immediate.1.2 (immediate.1.1.antisymm above)
  · rw [exact_.treeParent_isSome_iff]
    unfold treeParent at hang
    split at hang
    · cases hang
      exact reaches_entry
    · exact (exact_.immediateDominator_iff.mp hang).1.1.reaches_left
  · rw [exact_.mem_childrenFor, treeParent]
    constructor
    · intro found
      have notEntry := (exact_.immediate_some c b found).2
      rw [if_neg notEntry]
      exact ⟨notEntry, found⟩
    · rintro ⟨notEntry, found⟩
      rwa [if_neg notEntry] at found
  · apply Nat.lt_succ_of_le
    exact (Finset.card_filter_le _ _).trans_eq (Finset.card_range _)

/-- The test by intervals agrees with the walk up the immediate dominators, and the children of a
block are what it immediately dominates, each once. -/
theorem dominates_iff_above (inRange : GraphInRange blocks successors)
    (entryLt : entry < blocks.length)
    (computed : fromBlocks blocks successors entry = some dominance) :
    (∀ d b, dominance.dominates d b = true ↔ dominance.isReachable b = true ∧
      Relation.ReflTransGen (fun x y => dominance.immediateDominator x = some y) b d) ∧
    ∀ b, (dominance.childrenFor b).Nodup ∧
      ∀ c, c ∈ dominance.childrenFor b ↔ dominance.immediateDominator c = some b := by
  have exact_ := fromBlocks_sound inRange entryLt computed
  refine ⟨fun d b => ?_, fun b => ⟨exact_.nodup_childrenFor b, exact_.mem_childrenFor b⟩⟩
  rw [exact_.dominates_iff, exact_.isReachable_iff]
  constructor
  · intro dom
    refine ⟨dom.reaches, ?_⟩
    induction deep : depth dominance blocks.length b using Nat.strong_induction_on generalizing b with
    | _ n ih =>
      by_cases same : d = b
      · rw [same]
      · have notEntry : b ≠ entry := by
          rintro rfl
          exact same dom.eq_entry
        obtain ⟨i, hang⟩ := exact_.hangs b dom.reaches notEntry
        have found := exact_.immediateDominator_iff.mpr hang
        have lower := (exact_.isChildren inRange entryLt).tree.rank_lt b i
          (by rw [treeParent, if_neg notEntry, found]) notEntry
        refine .head found ?_
        by_cases eq : d = i
        · rw [eq]
        · exact ih _ (deep ▸ lower) i (hang.2 d ⟨dom, same⟩ eq) rfl
  · intro ⟨reached, chain⟩
    induction chain with
    | refl => exact .refl reached
    | tail _ found ih => exact (exact_.immediateDominator_iff.mp found).dominates.trans ih

theorem dominates_iff_above_loop : ∃ dominance,
    fromBlocks [plainBlock 0 1, plainBlock 1 2] [1, 0] 0 = some dominance ∧
      (dominance.childrenFor 0).Nodup := by
  obtain ⟨dominance, run, -⟩ := @fromBlocks_spec [plainBlock 0 1, plainBlock 1 2] [1, 0] 0
    (by decide) (by decide) (by decide) (by decide)
  exact ⟨dominance, run, ((dominates_iff_above (by decide) (by decide) run).2 0).1⟩

/-- What `tree_postorder` still lists, after what it has listed. -/
structure PostorderInv (dominance : IlDominance) (entry : IlBlockId) (count : Nat)
    (s : PostorderState) : Prop where
  split : s.order ++
      exits (pending dominance.childrenFor (depth dominance count) (count + 1) s.stack) =
    exits (traverse dominance.childrenFor (depth dominance count) (count + 1) entry)
  placed : ∀ item ∈ s.stack, (treeParent dominance entry item.1).isSome

/-- `tree_postorder` lists the blocks as a walk of the tree leaves them. -/
theorem Exact.treePostorder_eq (exact_ : dominance.Exact blocks successors entry)
    (inRange : GraphInRange blocks successors) (entryLt : entry < blocks.length) :
    dominance.treePostorder = some (exits (traverse dominance.childrenFor
      (depth dominance blocks.length) (blocks.length + 1) entry)) := by
  have tree := exact_.isChildren inRange entryLt
  have entryPlaced : (treeParent dominance entry entry).isSome :=
    exact_.treeParent_isSome_iff.mpr reaches_entry
  have inside : ∀ b, (treeParent dominance entry b).isSome → b < dominance.reachable.length := by
    intro b placed
    have reached := (exact_.isReachable_iff b).mpr (exact_.treeParent_isSome_iff.mp placed)
    by_contra outside
    rw [isReachable, getElem?_eq_none (not_lt.mp outside)] at reached
    cases reached
  have round : ∀ s, PostorderInv dominance entry blocks.length s →
      (∃ next, dominance.postorderStep s = some (.inl next) ∧
        PostorderInv dominance entry blocks.length next ∧
        (pending dominance.childrenFor (depth dominance blocks.length) (blocks.length + 1)
            next.stack).length <
          (pending dominance.childrenFor (depth dominance blocks.length) (blocks.length + 1)
            s.stack).length) ∨
      ∃ result, dominance.postorderStep s = some (.inr result) ∧
        result = exits (traverse dominance.childrenFor (depth dominance blocks.length)
          (blocks.length + 1) entry) := by
    intro s inv
    cases top : s.stack with
    | nil =>
      refine .inr ⟨s.order, by rw [postorderStep, top], ?_⟩
      rw [← inv.split, top]
      exact (append_nil _).symm
    | cons item stack =>
      obtain ⟨b, expanded⟩ := item
      have isPlaced := inv.placed (b, expanded) (by rw [top]; exact .head _)
      have reached := (exact_.isReachable_iff b).mpr (exact_.treeParent_isSome_iff.mp isPlaced)
      have below : ∀ item ∈ stack, (treeParent dominance entry item.1).isSome :=
        fun item mem => inv.placed item (by rw [top]; exact .tail _ mem)
      have split := inv.split
      rw [top] at split
      cases expanded with
      | true =>
        refine .inl ⟨⟨stack, s.order ++ [b]⟩, by simp [postorderStep, top, reached], ⟨?_, below⟩, ?_⟩
        · rw [← split, IsChildren.pending_exit, append_assoc]
          rfl
        · exact Nat.lt_succ_self _
      | false =>
        refine .inl ⟨⟨(dominance.childrenFor b).map (·, false) ++ (b, true) :: stack, s.order⟩,
          by simp [postorderStep, top, reached], ⟨?_, ?_⟩, ?_⟩
        · rw [← split, tree.pending_enter isPlaced]
          rfl
        · intro item mem
          rcases mem_append.mp mem with mem | mem
          · obtain ⟨c, child, rfl⟩ := mem_map.mp mem
            exact tree.placed child
          · rcases mem_cons.mp mem with rfl | mem
            · exact isPlaced
            · exact below item mem
        · rw [tree.pending_enter isPlaced]
          exact Nat.lt_succ_self _
  have start : PostorderInv dominance entry blocks.length ⟨[(entry, false)], []⟩ := by
    refine ⟨?_, ?_⟩
    · rw [IsChildren.pending_start]
      rfl
    · intro item mem
      rw [mem_singleton.mp mem]
      exact entryPlaced
  obtain ⟨order, run, rfl⟩ := runLoop_total _ _ _ round (2 * dominance.reachable.length + 2) _ start
    (by
      rw [IsChildren.pending_start]
      have := tree.length_traverse_le entryPlaced inside
      omega)
  unfold treePostorder
  rw [exact_.entry_eq]
  exact run

/-! ## The rows -/

/-- One row has gained the blocks that `gained` holds of, each once, and the others are as before. -/
def Grown (block : IlBlockId) (rows rows' : List (List IlBlockId)) (gained : IlBlockId → Prop) :
    Prop :=
  ∃ row row', rows[block]? = some row ∧ rows' = rows.set block row' ∧ (row.Nodup → row'.Nodup) ∧
    ∀ y, y ∈ row' ↔ y ∈ row ∨ gained y

namespace Grown

variable {block : IlBlockId} {rows rows' rows'' : List (List IlBlockId)}
  {gained gained' : IlBlockId → Prop}

theorem refl (lt : block < rows.length) : Grown block rows rows fun _ => False := by
  refine ⟨rows[block], rows[block], getElem?_eq_getElem lt, ?_, id, by simp⟩
  exact (set_getElem_self lt).symm

section

variable (h : Grown block rows rows' gained)
include h

theorem lt : block < rows.length := by
  obtain ⟨row, _, found, -⟩ := h
  exact lt_of_getElem? found

theorem length : rows'.length = rows.length := by
  obtain ⟨_, _, -, rfl, -⟩ := h
  exact length_set

theorem elsewhere {other : IlBlockId} (ne : other ≠ block) :
    rows'[other]? = rows[other]? := by
  obtain ⟨_, _, -, rfl, -⟩ := h
  exact getElem?_set_ne (Ne.symm ne)

theorem trans (h' : Grown block rows' rows'' gained') :
    Grown block rows rows'' fun y => gained y ∨ gained' y := by
  have lt := h.lt
  obtain ⟨row, middle, found, rfl, nodup, mem⟩ := h
  obtain ⟨row', row'', found', rfl, nodup', mem'⟩ := h'
  rw [getElem?_set_self lt] at found'
  cases found'
  refine ⟨row, row'', found, set_set .., nodup' ∘ nodup, fun y => ?_⟩
  rw [mem', mem, or_assoc]

theorem congr (same : ∀ y, gained y ↔ gained' y) :
    Grown block rows rows' gained' := by
  obtain ⟨row, row', found, eq, nodup, mem⟩ := h
  exact ⟨row, row', found, eq, nodup, fun y => by rw [mem, same]⟩

end

theorem push (lt : block < rows.length) (y : IlBlockId) :
    ∃ rows', pushFrontier rows block y = some rows' ∧ Grown block rows rows' (· = y) := by
  have found := getElem?_eq_getElem lt
  by_cases present : y ∈ rows[block]
  · refine ⟨rows, by simp [pushFrontier, found, present], ?_⟩
    refine ⟨rows[block], rows[block], found, (set_getElem_self lt).symm, id, fun z => ?_⟩
    constructor
    · exact .inl
    · rintro (mem | rfl)
      · exact mem
      · exact present
  · refine ⟨rows.set block (rows[block] ++ [y]), by simp [pushFrontier, found, present], ?_⟩
    refine ⟨rows[block], rows[block] ++ [y], found, rfl, fun nodup => ?_, by simp⟩
    rw [nodup_append]
    exact ⟨nodup, nodup_singleton y, fun z mem w single => by
      rw [mem_singleton.mp single]
      rintro rfl
      exact present mem⟩

theorem push_if (rows : List (List IlBlockId)) (block : IlBlockId) (lt : block < rows.length)
    (y : IlBlockId) (keep : Prop) [Decidable keep] :
    ∃ rows', (if keep then pushFrontier rows block y else some rows) = some rows' ∧
      Grown block rows rows' fun z => z = y ∧ keep := by
  by_cases holds : keep
  · obtain ⟨rows', run, grown⟩ := push lt y
    exact ⟨rows', by rw [if_pos holds, run], grown.congr fun z => by simp [holds]⟩
  · exact ⟨rows, by rw [if_neg holds], (refl lt).congr fun z => by simp [holds]⟩

theorem foldlM {α : Type} (f : List (List IlBlockId) → α → Option (List (List IlBlockId)))
    (gains : α → IlBlockId → Prop) : ∀ (items : List α) (rows : List (List IlBlockId)),
    block < rows.length →
    (∀ item ∈ items, ∀ rows', rows'.length = rows.length →
      (∀ other, other ≠ block → rows'[other]? = rows[other]?) →
      ∃ rows'', f rows' item = some rows'' ∧ Grown block rows' rows'' (gains item)) →
    ∃ rows', items.foldlM f rows = some rows' ∧
      Grown block rows rows' fun y => ∃ item ∈ items, gains item y
  | [], rows, lt, _ => ⟨rows, rfl, (refl lt).congr (by simp)⟩
  | item :: items, rows, lt, round => by
    obtain ⟨next, step, grown⟩ := round item (.head _) rows rfl fun _ _ => rfl
    obtain ⟨last, run, grown'⟩ := foldlM f gains items next
      (by rw [grown.length]; exact lt) (fun item mem rows' length others =>
        round item (.tail _ mem) rows' (length.trans grown.length)
          fun other ne => (others other ne).trans (grown.elsewhere ne))
    refine ⟨last, ?_, (grown.trans grown').congr (by simp)⟩
    rw [foldlM_cons, step]
    exact run

end Grown

theorem addSuccessorFrontiers_grown (dominance : IlDominance) (successors : List IlBlockId)
    {rows : List (List IlBlockId)} (lt : b < blocks.length) (length : rows.length = blocks.length) :
    ∃ rows', dominance.addSuccessorFrontiers blocks successors b rows = some rows' ∧
      Grown b rows rows' fun y => Edge blocks successors b y ∧ dominance.isReachable y = true ∧
        dominance.immediateDominator y ≠ some b := by
  unfold addSuccessorFrontiers
  rw [getElem?_eq_getElem lt]
  obtain ⟨rows', run, grown⟩ := Grown.foldlM
    (fun frontiers successor =>
      if dominance.isReachable successor = true ∧ dominance.immediateDominator successor ≠ some b
      then pushFrontier frontiers b successor else some frontiers) _
    (blocks[b].successors.slice successors) rows (by rw [length]; exact lt)
    (fun item _ rows' length' _ =>
      Grown.push_if rows' b (by rw [length', length]; exact lt) item _)
  refine ⟨rows', run, grown.congr fun y => ?_⟩
  rw [Edge, successorsFor, getElem?_eq_getElem lt]
  constructor
  · rintro ⟨item, mem, rfl, kept⟩
    exact ⟨mem, kept⟩
  · rintro ⟨mem, kept⟩
    exact ⟨y, mem, rfl, kept⟩

theorem addChildFrontiers_grown (dominance : IlDominance) {rows : List (List IlBlockId)} (lt : b < rows.length)
    (others : ∀ c ∈ dominance.childrenFor b, c ≠ b ∧ c < rows.length) :
    ∃ rows', dominance.addChildFrontiers b rows = some rows' ∧
      Grown b rows rows' fun y => ∃ c ∈ dominance.childrenFor b, y ∈ rows.getD c [] ∧
        dominance.immediateDominator y ≠ some b := by
  refine Grown.foldlM _ _ _ _ lt fun c mem current length same => ?_
  obtain ⟨ne, inside⟩ := others c mem
  have found : current[c]? = some rows[c] := by
    rw [same c ne, getElem?_eq_getElem inside]
  rw [found]
  obtain ⟨rows', run, grown⟩ := Grown.foldlM
    (fun frontiers index => do
      let row ← frontiers[c]?
      let frontier ← row[index]?
      if dominance.immediateDominator frontier ≠ some b then pushFrontier frontiers b frontier
      else return frontiers)
    (fun index y => rows[c][index]? = some y ∧ dominance.immediateDominator y ≠ some b)
    (List.range rows[c].length) current (by rw [length]; exact lt) (by
      intro index indexMem later length' same'
      have found' : later[c]? = some rows[c] := (same' c ne).trans found
      have indexLt := mem_range.mp indexMem
      obtain ⟨rows', run, grown⟩ := Grown.push_if later b
        (by rw [length', length]; exact lt) rows[c][index]
        (dominance.immediateDominator rows[c][index] ≠ some b)
      refine ⟨rows', ?_, grown.congr fun y => ?_⟩
      · simp only [found', getElem?_eq_getElem indexLt, some_bind]
        exact run
      · rw [getElem?_eq_getElem indexLt, Option.some.injEq]
        constructor
        · rintro ⟨rfl, kept⟩
          exact ⟨rfl, kept⟩
        · rintro ⟨rfl, kept⟩
          exact ⟨rfl, kept⟩)
  refine ⟨rows', run, grown.congr fun y => ?_⟩
  rw [getD_eq_getElem?_getD, getElem?_eq_getElem inside, Option.getD_some]
  constructor
  · rintro ⟨index, -, at_, kept⟩
    exact ⟨mem_of_getElem? at_, kept⟩
  · rintro ⟨mem, kept⟩
    obtain ⟨index, indexLt, at_⟩ := mem_iff_getElem.mp mem
    exact ⟨index, mem_range.mpr indexLt, by rw [getElem?_eq_getElem indexLt, at_], kept⟩

/-- The rows of the blocks that are done are their frontiers, and the others are empty. -/
structure RowsInv (blocks : List IlBlock) (successors : List IlBlockId) (entry : IlBlockId)
    (finished : List IlBlockId) (rows : List (List IlBlockId)) : Prop where
  length : rows.length = blocks.length
  nodup : ∀ row ∈ rows, row.Nodup
  exact_ : ∀ x ∈ finished, ∀ y, y ∈ rows.getD x [] ↔ InFrontier (Edge blocks successors) entry x y
  empty : ∀ x, x ∉ finished → rows.getD x [] = []

theorem Exact.block_rows (exact_ : dominance.Exact blocks successors entry)
    (inRange : GraphInRange blocks successors) (entryLt : entry < blocks.length)
    (reached : Reaches (Edge blocks successors) entry b) {finished : List IlBlockId}
    (fresh : b ∉ finished) (children : ∀ c ∈ dominance.childrenFor b, c ∈ finished)
    {rows : List (List IlBlockId)} (inv : RowsInv blocks successors entry finished rows) :
    ∃ rows', (do
        let rows ← dominance.addSuccessorFrontiers blocks successors b rows
        dominance.addChildFrontiers b rows) = some rows' ∧
      RowsInv blocks successors entry (finished ++ [b]) rows' := by
  have lt := Reaches.lt inRange entryLt reached
  have tree := exact_.isChildren inRange entryLt
  obtain ⟨middle, first, grown⟩ := addSuccessorFrontiers_grown dominance successors lt inv.length
  have others : ∀ c ∈ dominance.childrenFor b, c ≠ b ∧ c < middle.length := by
    intro c mem
    refine ⟨?_, ?_⟩
    · rintro rfl
      exact fresh (children _ mem)
    · rw [grown.length, inv.length]
      exact Reaches.lt inRange entryLt (exact_.treeParent_isSome_iff.mp (tree.placed mem))
  obtain ⟨rows', second, grown'⟩ := addChildFrontiers_grown dominance
    (by rw [grown.length, inv.length]; exact lt) others
  obtain ⟨row, row', found, rfl, nodup, mem⟩ := grown.trans grown'
  have wasEmpty : row = [] := by
    rw [← inv.empty b fresh, getD_eq_getElem?_getD, found, Option.getD_some]
  subst wasEmpty
  refine ⟨_, by rw [first]; exact second, ⟨by rw [length_set, inv.length], ?_, ?_, ?_⟩⟩
  · intro other memOther
    rcases mem_or_eq_of_mem_set memOther with old | rfl
    · exact inv.nodup other old
    · exact nodup nodup_nil
  · intro x memX y
    by_cases same : x = b
    · subst same
      rw [getD_eq_getElem?_getD, getElem?_set_self (by rw [inv.length]; exact lt),
        Option.getD_some, mem, inFrontier_iff exact_.hangs reached]
      have child : ∀ c, c ∈ dominance.childrenFor x ↔
          ImmediatelyDominates (Edge blocks successors) entry x c := fun c => by
        rw [exact_.mem_childrenFor, exact_.immediateDominator_iff]
      have rowOf : ∀ c ∈ dominance.childrenFor x,
          (y ∈ middle.getD c [] ↔ InFrontier (Edge blocks successors) entry c y) := by
        intro c memC
        rw [← inv.exact_ c (children c memC) y, getD_eq_getElem?_getD,
          grown.elsewhere (others c memC).1, ← getD_eq_getElem?_getD]
      simp only [ne_eq, exact_.immediateDominator_iff, exact_.isReachable_iff]
      constructor
      · rintro (impossible | ⟨edge, reachedY, notChild⟩ | ⟨c, memC, memY, notChild⟩)
        · cases impossible
        · exact ⟨reachedY, notChild, .inl edge⟩
        · have below := (rowOf c memC).mp memY
          exact ⟨below.1, notChild, .inr ⟨c, (child c).mp memC, below⟩⟩
      · rintro ⟨reachedY, notChild, edge | ⟨c, hangs, below⟩⟩
        · exact .inr (.inl ⟨edge, reachedY, notChild⟩)
        · have memC := (child c).mpr hangs
          exact .inr (.inr ⟨c, memC, (rowOf c memC).mpr below, notChild⟩)
    · rw [getD_eq_getElem?_getD, getElem?_set_ne (Ne.symm same), ← getD_eq_getElem?_getD]
      exact inv.exact_ x (by simpa [same] using memX) y
  · intro x notMem
    rw [mem_append, mem_singleton, not_or] at notMem
    rw [getD_eq_getElem?_getD, getElem?_set_ne (Ne.symm notMem.2), ← getD_eq_getElem?_getD]
    exact inv.empty x notMem.1

/-- The rows that `frontiers` computes: of every block its frontier, each block of it once. -/
theorem Exact.rows_spec (exact_ : dominance.Exact blocks successors entry)
    (inRange : GraphInRange blocks successors) (entryLt : entry < blocks.length) :
    ∃ rows, dominance.frontiers blocks successors = fromFrontiers rows ∧
      rows.length = blocks.length ∧ (∀ row ∈ rows, row.Nodup) ∧
      ∀ x y, y ∈ rows.getD x [] ↔ InFrontier (Edge blocks successors) entry x y := by
  have tree := exact_.isChildren inRange entryLt
  have entryPlaced : (treeParent dominance entry entry).isSome :=
    exact_.treeParent_isSome_iff.mpr reaches_entry
  have listed : ∀ b, b ∈ exits (traverse dominance.childrenFor (depth dominance blocks.length)
      (blocks.length + 1) entry) ↔ Reaches (Edge blocks successors) entry b := by
    intro b
    rw [IsChildren.mem_exits]
    constructor
    · intro mem
      exact exact_.treeParent_isSome_iff.mp (tree.placed_of_mem_traverse entryPlaced mem)
    · intro reached
      have placed := exact_.treeParent_isSome_iff.mpr reached
      exact (tree.mem_traverse placed).mpr (Above.entry_above tree.tree placed)
  have nodup := IsChildren.nodup_exits (tree.nodup_traverse (b := entry))
  have run : ∀ rest finished rows, finished ++ rest = exits (traverse dominance.childrenFor
      (depth dominance blocks.length) (blocks.length + 1) entry) →
      RowsInv blocks successors entry finished rows →
      ∃ rows', (rest.foldlM (fun rows block => do
          let rows ← dominance.addSuccessorFrontiers blocks successors block rows
          dominance.addChildFrontiers block rows) rows) = some rows' ∧
        RowsInv blocks successors entry (finished ++ rest) rows' := by
    intro rest
    induction rest with
    | nil =>
      intro finished rows _ inv
      exact ⟨rows, rfl, by rwa [append_nil]⟩
    | cons b rest ih =>
      intro finished rows split inv
      have reached := (listed b).mp (by rw [← split]; simp)
      have placed := exact_.treeParent_isSome_iff.mpr reached
      have fresh : b ∉ finished := by
        rw [← split] at nodup
        exact fun early => (disjoint_of_nodup_append nodup) early (.head _)
      obtain ⟨rows', step, inv'⟩ := exact_.block_rows inRange entryLt reached fresh
        (fun c mem => tree.child_exits placed (Above.entry_above tree.tree placed) split.symm mem) inv
      obtain ⟨last, steps, inv''⟩ := ih (finished ++ [b]) rows' (by simpa using split) inv'
      refine ⟨last, ?_, by simpa using inv''⟩
      rw [foldlM_cons, step]
      exact steps
  obtain ⟨rows, steps, inv⟩ := run _ [] (List.replicate blocks.length [])
    (nil_append _) (by
    refine ⟨length_replicate, fun row mem => ?_, by simp, fun x _ => ?_⟩
    · rw [eq_of_mem_replicate mem]
      exact nodup_nil
    · rw [getD_eq_getElem?_getD, getElem?_replicate]
      split <;> rfl)
  refine ⟨rows, ?_, inv.length, inv.nodup, fun x y => ?_⟩
  · rw [frontiers, exact_.treePostorder_eq inRange entryLt, some_bind]
    rw [steps]
    rfl
  · by_cases reached : Reaches (Edge blocks successors) entry x
    · exact inv.exact_ x (by rw [nil_append]; exact (listed x).mpr reached) y
    · rw [inv.empty x (by rw [nil_append]; exact fun mem => reached ((listed x).mp mem))]
      constructor
      · intro impossible
        cases impossible
      · rintro ⟨-, ⟨p, -, -, above⟩, -⟩
        exact absurd above.reaches_left reached

end IlDominance

end Fugue.Il
