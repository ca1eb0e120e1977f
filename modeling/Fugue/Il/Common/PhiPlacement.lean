import Fugue.Il.Common.Frontier
import Mathlib.Algebra.BigOperators.Intervals
import Mathlib.Algebra.BigOperators.Group.Finset.Sigma

/-!
# Phi placement

The table of frontiers is made when a `u32` counts the pairs, and then lists every frontier exactly.
`place_phis` is a worklist: every block is queued once, and what its frontier holds is placed when
it leaves the queue, so the blocks that are placed are the least set that holds the frontiers of the
definitions and of its own members.
-/

namespace Fugue.Il

open Fugue.Lib List IlDominanceFrontier

/-! ## The table of frontiers -/

/-- The number of pairs with a first component below `n`. -/
theorem ncard_pairs (n : Nat) (f : Nat → Finset Nat) :
    {pair : Nat × Nat | pair.1 < n ∧ pair.2 ∈ f pair.1}.ncard = ∑ x ∈ Finset.range n, (f x).card := by
  have asFinset : {pair : Nat × Nat | pair.1 < n ∧ pair.2 ∈ f pair.1} =
      ((Finset.range n).sigma f).image fun pair => (pair.1, pair.2) := by
    ext pair
    simp only [Set.mem_ofPred_eq, Finset.coe_image, Set.mem_image, Finset.mem_coe,
      Finset.mem_sigma, Finset.mem_range]
    constructor
    · intro mem
      exact ⟨⟨pair.1, pair.2⟩, mem, rfl⟩
    · rintro ⟨inner, mem, rfl⟩
      exact mem
  rw [asFinset, Set.ncard_coe_finset, Finset.card_image_of_injective, Finset.card_sigma]
  intro a b same
  cases a
  cases b
  simpa using same

theorem sum_length_getD (rows : List (List Nat)) :
    ∑ x ∈ Finset.range rows.length, (rows.getD x []).length = rows.flatten.length := by
  induction rows with
  | nil => rfl
  | cons row rows ih =>
    rw [length_cons, Finset.sum_range_succ', flatten_cons, length_append]
    simp only [getD_cons_succ, getD_cons_zero]
    rw [ih, add_comm]

/-- The entries of the rows of a relation are its pairs. -/
theorem length_flatten_eq_ncard {rows : List (List Nat)} {rel : Nat → Nat → Prop}
    (nodup : ∀ row ∈ rows, row.Nodup) (mem_iff : ∀ x y, y ∈ rows.getD x [] ↔ rel x y) :
    rows.flatten.length = {pair : Nat × Nat | rel pair.1 pair.2}.ncard := by
  have within : {pair : Nat × Nat | rel pair.1 pair.2} =
      {pair : Nat × Nat | pair.1 < rows.length ∧ pair.2 ∈ (rows.getD pair.1 []).toFinset} := by
    ext pair
    simp only [Set.mem_ofPred_eq, mem_toFinset, mem_iff]
    refine ⟨fun holds => ⟨?_, holds⟩, And.right⟩
    by_contra outside
    rw [← mem_iff, getD_eq_default _ _ (not_lt.mp outside)] at holds
    cases holds
  rw [within, ncard_pairs rows.length fun x => (rows.getD x []).toFinset, ← sum_length_getD]
  refine Finset.sum_congr rfl fun x mem => (toFinset_card_of_nodup ?_).symm
  have lt := Finset.mem_range.mp mem
  rw [getD_eq_getElem _ _ lt]
  exact nodup _ (getElem_mem lt)

theorem IlDominance.fromFrontiers_eq (rows : List (List IlBlockId)) :
    fromFrontiers rows = if rows.flatten.length ≤ u32Max then
      some ⟨IlCsr.ofRows (rows.map fun row => row.mergeSort fun a b => decide (a ≤ b))⟩
      else none := by
  have same : (rows.map fun row => row.mergeSort fun a b => decide (a ≤ b)).flatten.length =
      rows.flatten.length := by
    rw [length_flatten, length_flatten, map_map]
    refine congrArg List.sum (map_congr_left fun row _ => ?_)
    exact length_mergeSort row
  rw [fromFrontiers, IlCsr.fromRows_eq, same]
  split <;> rfl

theorem IlDominanceFrontier.frontierFor_ofRows (rows : List (List IlBlockId)) (x : IlBlockId) :
    frontierFor ⟨IlCsr.ofRows (rows.map fun row => row.mergeSort fun a b => decide (a ≤ b))⟩ x =
      (rows.getD x []).mergeSort fun a b => decide (a ≤ b) := by
  rw [frontierFor, IlCsr.ofRows_checkedRow, getElem?_map, getD_eq_getElem?_getD]
  cases rows[x]? with
  | none => exact mergeSort_nil.symm
  | some row => rfl

theorem pairwise_lt_mergeSort {row : List Nat} (nodup : row.Nodup) :
    (row.mergeSort fun a b => decide (a ≤ b)).Pairwise (· < ·) := by
  have sorted : (row.mergeSort fun a b => decide (a ≤ b)).Pairwise fun a b => decide (a ≤ b) = true :=
    pairwise_mergeSort (fun a b c ab bc => by simp only [decide_eq_true_eq] at *; omega)
    (fun a b => by simp only [Bool.or_eq_true, decide_eq_true_eq]; omega) row
  have once : (row.mergeSort fun a b => decide (a ≤ b)).Nodup :=
    (mergeSort_perm row _).nodup_iff.mpr nodup
  refine (sorted.and once).imp fun {a b} both => ?_
  have := of_decide_eq_true both.1
  exact Nat.lt_of_le_of_ne this both.2

/-! ## The worklist -/

namespace IlDominanceFrontier

variable {frontier : IlDominanceFrontier} {count : Nat} {definitions : List IlBlockId}

/-- The sets that hold the frontier of every definition and of every member. -/
def ClosedUnder (rel : IlBlockId → IlBlockId → Prop) (definitions : List IlBlockId) :
    Set (Set IlBlockId) :=
  {placed | ∀ x, x ∈ definitions ∨ x ∈ placed → ∀ y, rel x y → y ∈ placed}

/-- What holds between the rounds, and within them. -/
structure PhiInv (frontier : IlDominanceFrontier) (count : Nat) (definitions : List IlBlockId)
    (s : PhiState) : Prop where
  placedLength : s.placed.length = count
  queuedLength : s.queued.length = count
  placed_iff : ∀ y, s.placed.getD y false = true ↔ y ∈ s.phis
  queued_iff : ∀ x, s.queued.getD x false = true ↔ x ∈ definitions ∨ x ∈ s.phis
  nodup : s.phis.Nodup
  queued : ∀ x ∈ s.queue, s.queued.getD x false = true
  least : ∀ placed ∈ ClosedUnder (fun x y => y ∈ frontier.frontierFor x) definitions,
    ∀ y ∈ s.phis, y ∈ placed

/-- The blocks that wait in the queue or were never queued. -/
def PhiState.left (s : PhiState) : Nat := s.queue.length + s.queued.count false

/-- Between two states: what is placed stays placed, and what gets queued waits in the queue. -/
structure PhiState.Extends (s t : PhiState) : Prop where
  phis : s.phis ⊆ t.phis
  queue : s.queue ⊆ t.queue
  waiting : ∀ x, t.queued.getD x false = true → s.queued.getD x false = true ∨ x ∈ t.queue
  left : t.left ≤ s.left

theorem PhiState.Extends.refl (s : PhiState) : s.Extends s :=
  ⟨List.Subset.refl _, List.Subset.refl _, fun _ => .inl, le_rfl⟩

theorem PhiState.Extends.trans {s t u : PhiState} (h : s.Extends t) (h' : t.Extends u) :
    s.Extends u := by
  refine ⟨List.Subset.trans h.phis h'.phis, List.Subset.trans h.queue h'.queue, fun x queued => ?_,
    h'.left.trans h.left⟩
  rcases h'.waiting x queued with before | waits
  · rcases h.waiting x before with first | waits
    · exact .inl first
    · exact .inr (h'.queue waits)
  · exact .inr waits

theorem getD_set_true (flags : List Bool) {y : Nat} (lt : y < flags.length) (x : Nat) :
    (flags.set y true).getD x false = true ↔ flags.getD x false = true ∨ x = y := by
  by_cases same : x = y
  · subst same
    simp [getElem?_set_self lt]
  · simp [getElem?_set_ne (Ne.symm same), same]

theorem count_set_true {flags : List Bool} {y : Nat} (lt : y < flags.length)
    (unset : flags.getD y false = false) :
    (flags.set y true).count false + 1 = flags.count false := by
  have found : flags[y] = false := by rwa [getD_eq_getElem _ _ lt] at unset
  have positive : 0 < flags.count false :=
    count_pos_iff.mpr (found ▸ getElem_mem lt)
  rw [count_set lt, found]
  simp
  omega

variable {s : PhiState}

theorem PhiInv.placePhi (inv : PhiInv frontier count definitions s) {y : IlBlockId} (lt : y < count)
    (due : ∀ placed ∈ ClosedUnder (fun x y => y ∈ frontier.frontierFor x) definitions, y ∈ placed) :
    ∃ t, placePhi s y = some t ∧ PhiInv frontier count definitions t ∧
      s.Extends t ∧ y ∈ t.phis := by
  have placedLt : y < s.placed.length := by rwa [inv.placedLength]
  have queuedLt : y < s.queued.length := by rwa [inv.queuedLength]
  have placedAt : s.placed[y]? = some (s.placed.getD y false) := by
    rw [getD_eq_getElem _ _ placedLt, getElem?_eq_getElem placedLt]
  have queuedAt : s.queued[y]? = some (s.queued.getD y false) := by
    rw [getD_eq_getElem _ _ queuedLt, getElem?_eq_getElem queuedLt]
  unfold IlDominanceFrontier.placePhi
  rw [placedAt]
  by_cases present : y ∈ s.phis
  · rw [(inv.placed_iff y).mpr present]
    exact ⟨s, rfl, inv, .refl s, present⟩
  · have absent : s.placed.getD y false = false :=
      Bool.eq_false_iff.mpr fun set => present ((inv.placed_iff y).mp set)
    have placed_iff : ∀ z, (s.placed.set y true).getD z false = true ↔ z ∈ s.phis ++ [y] := by
      intro z
      rw [getD_set_true _ placedLt, inv.placed_iff, mem_append, mem_singleton]
    have nodup : (s.phis ++ [y]).Nodup := by
      refine nodup_append.mpr ⟨inv.nodup, nodup_singleton y, fun z mem w single => ?_⟩
      rw [mem_singleton.mp single]
      rintro rfl
      exact present mem
    have least : ∀ placed ∈ ClosedUnder (fun x y => y ∈ frontier.frontierFor x) definitions,
        ∀ z ∈ s.phis ++ [y], z ∈ placed := by
      intro placed closed z mem
      rcases mem_append.mp mem with old | new
      · exact inv.least placed closed z old
      · rw [mem_singleton.mp new]
        exact due placed closed
    have mem : y ∈ s.phis ++ [y] := mem_append_right _ (mem_singleton_self y)
    rw [absent]
    simp only [some_bind, Bool.false_eq_true, if_false]
    rw [queuedAt]
    cases queuedY : s.queued.getD y false with
    | true =>
      refine ⟨_, rfl, ⟨?_, inv.queuedLength, placed_iff, fun x => ?_, nodup, inv.queued, least⟩,
        ⟨subset_append_left _ _, List.Subset.refl _, fun _ => .inl, le_rfl⟩, mem⟩
      · simpa using inv.placedLength
      · rw [inv.queued_iff, mem_append, mem_singleton]
        constructor
        · rintro (definition | phi)
          · exact .inl definition
          · exact .inr (.inl phi)
        · rintro (definition | phi | rfl)
          · exact .inl definition
          · exact .inr phi
          · exact (inv.queued_iff x).mp queuedY
    | false =>
      have queued_iff := getD_set_true s.queued queuedLt
      refine ⟨_, rfl, ⟨?_, ?_, placed_iff, fun x => ?_, nodup, fun x waits => ?_, least⟩,
        ⟨subset_append_left _ _, subset_cons_self _ _, fun x queued => ?_, ?_⟩, mem⟩
      · simpa using inv.placedLength
      · simpa using inv.queuedLength
      · rw [queued_iff, inv.queued_iff, mem_append, mem_singleton, or_assoc]
      · apply (queued_iff x).mpr
        rcases mem_cons.mp waits with rfl | waits
        · exact .inr rfl
        · exact .inl (inv.queued x waits)
      · rcases (queued_iff x).mp queued with before | rfl
        · exact .inl before
        · exact .inr (.head _)
      · have fewer := count_set_true queuedLt queuedY
        simp only [PhiState.left, length_cons]
        omega

theorem PhiInv.placeStep (inv : PhiInv frontier count definitions s)
    (inRange : ∀ x, ∀ y ∈ frontier.frontierFor x, y < count) {block : IlBlockId}
    {queue : List IlBlockId} (top : s.queue = block :: queue) :
    ∃ t, frontier.placeStep s = some (.inl t) ∧ PhiInv frontier count definitions t ∧
      t.left < s.left ∧ s.phis ⊆ t.phis ∧ (∀ y ∈ frontier.frontierFor block, y ∈ t.phis) ∧
      queue ⊆ t.queue ∧
      ∀ x, t.queued.getD x false = true → s.queued.getD x false = true ∨ x ∈ t.queue := by
  have start : PhiInv frontier count definitions { s with queue } :=
    ⟨inv.placedLength, inv.queuedLength, inv.placed_iff, inv.queued_iff, inv.nodup,
      fun x waits => inv.queued x (by rw [top]; exact .tail _ waits), inv.least⟩
  have isDue := (inv.queued_iff block).mp (inv.queued block (by rw [top]; exact .head _))
  obtain ⟨t, run, inv', extend, placed⟩ := foldlM_meets (PhiInv frontier count definitions)
    PhiState.Extends (fun y t => y ∈ t.phis) .refl (fun _ _ _ => .trans)
    (fun y s t extend mem => extend.phis mem) (frontier.frontierFor block)
    (fun y mem s inv => inv.placePhi (inRange block y mem) fun placed closed => by
      refine closed block ?_ y mem
      rcases isDue with definition | phi
      · exact .inl definition
      · exact .inr (start.least placed closed block phi)) { s with queue } start
  refine ⟨t, by rw [IlDominanceFrontier.placeStep, top]; simp [run], inv', ?_, extend.phis, placed,
    extend.queue, extend.waiting⟩
  apply lt_of_le_of_lt extend.left
  simp only [PhiState.left, top, length_cons]
  omega

/-- The state before the first round, for the definitions seen so far. -/
structure QueueInv (count : Nat) (seen : List IlBlockId) (s : PhiState) : Prop where
  placed : s.placed = List.replicate count false
  queuedLength : s.queued.length = count
  queued_iff : ∀ x, s.queued.getD x false = true ↔ x ∈ seen
  waits_iff : ∀ x, x ∈ s.queue ↔ x ∈ seen
  phis : s.phis = []
  left : s.left ≤ count

theorem getD_replicate_false (n x : Nat) : (List.replicate n false).getD x false = false := by
  rw [getD_eq_getElem?_getD, getElem?_replicate]
  split <;> rfl

theorem QueueInv.queueDefinition {seen : List IlBlockId}
    (inv : QueueInv count seen s) {definition : IlBlockId} (lt : definition < count) :
    ∃ t, queueDefinition count s definition = .ok t ∧
      QueueInv count (seen ++ [definition]) t := by
  have queuedLt : definition < s.queued.length := by rwa [inv.queuedLength]
  unfold IlDominanceFrontier.queueDefinition
  rw [if_neg (not_le.mpr lt)]
  have again : definition ∈ seen → ∀ x, x ∈ seen ++ [definition] ↔ x ∈ seen := by
    intro present x
    rw [mem_append, mem_singleton]
    refine ⟨fun either => either.elim id ?_, .inl⟩
    rintro rfl
    exact present
  cases queuedD : s.queued.getD definition false with
  | true =>
    have same := again ((inv.queued_iff definition).mp queuedD)
    exact ⟨s, rfl, inv.placed, inv.queuedLength, fun x => by rw [same, inv.queued_iff],
      fun x => by rw [same, inv.waits_iff], inv.phis, inv.left⟩
  | false =>
    refine ⟨_, rfl, inv.placed, ?_, fun x => ?_, fun x => ?_, inv.phis, ?_⟩
    · simpa using inv.queuedLength
    · rw [getD_set_true _ queuedLt, inv.queued_iff, mem_append, mem_singleton]
    · rw [mem_cons, inv.waits_iff, mem_append, mem_singleton, or_comm]
    · have fewer := count_set_true queuedLt queuedD
      have before := inv.left
      simp only [PhiState.left, length_cons] at before ⊢
      omega

theorem queueDefinitions_spec : ∀ (definitions seen : List IlBlockId) (s : PhiState),
    QueueInv count seen s → (∀ definition ∈ definitions, definition < count) →
    ∃ t, definitions.foldlM (queueDefinition count) s = .ok t ∧
      QueueInv count (seen ++ definitions) t
  | [], seen, s, inv, _ => ⟨s, rfl, by rwa [append_nil]⟩
  | definition :: definitions, seen, s, inv, valid => by
    obtain ⟨t, step, inv'⟩ := inv.queueDefinition (valid definition (.head _))
    obtain ⟨u, run, inv''⟩ := queueDefinitions_spec definitions (seen ++ [definition]) t inv'
      fun other mem => valid other (.tail _ mem)
    refine ⟨u, ?_, by simpa using inv''⟩
    rw [foldlM_cons, step]
    exact run

theorem QueueInv.phiInv (inv : QueueInv count definitions s) :
    PhiInv frontier count definitions s := by
  refine ⟨?_, inv.queuedLength, fun y => ?_, fun x => ?_, ?_, fun x waits => ?_, ?_⟩
  · rw [inv.placed, length_replicate]
  · simp only [inv.placed, inv.phis, getD_replicate_false, not_mem_nil, Bool.false_eq_true]
  · simp only [inv.queued_iff, inv.phis, not_mem_nil, or_false]
  · rw [inv.phis]
    exact nodup_nil
  · exact (inv.queued_iff x).mpr ((inv.waits_iff x).mp waits)
  · rw [inv.phis]
    intro placed _ y impossible
    cases impossible

/-- A block that has left the queue has its frontier placed. -/
def Processed (frontier : IlDominanceFrontier) (s : PhiState) : Prop :=
  ∀ x, s.queued.getD x false = true → x ∉ s.queue → ∀ y ∈ frontier.frontierFor x, y ∈ s.phis

/-- `place_phis` returns the least set that is closed under the frontiers, in increasing order. -/
theorem placePhis_least (count : Nat) (definitions : List IlBlockId) (inRange : ∀ x, ∀ y ∈ frontier.frontierFor x, y < count)
    (valid : ∀ definition ∈ definitions, definition < count) :
    ∃ phis, frontier.placePhis count definitions = some (.ok phis) ∧ phis.Pairwise (· < ·) ∧
      IsLeast (ClosedUnder (fun x y => y ∈ frontier.frontierFor x) definitions) {y | y ∈ phis} := by
  obtain ⟨s, queued, start⟩ := queueDefinitions_spec definitions []
    ⟨List.replicate count false, List.replicate count false, [], []⟩
    ⟨rfl, length_replicate, fun x => by simp, by simp, rfl,
      by simp [PhiState.left]⟩ valid
  have round : ∀ s, PhiInv frontier count definitions s ∧ Processed frontier s →
      (∃ next, frontier.placeStep s = some (.inl next) ∧
        (PhiInv frontier count definitions next ∧ Processed frontier next) ∧ next.left < s.left) ∨
      ∃ phis, frontier.placeStep s = some (.inr phis) ∧ phis.Nodup ∧
        IsLeast (ClosedUnder (fun x y => y ∈ frontier.frontierFor x) definitions)
          {y | y ∈ phis} := by
    rintro s ⟨inv, processed⟩
    cases top : s.queue with
    | nil =>
      refine .inr ⟨s.phis, by rw [placeStep, top], inv.nodup, fun x due y mem => ?_,
        fun placed closed y mem => inv.least placed closed y mem⟩
      exact processed x ((inv.queued_iff x).mpr due) (by rw [top]; exact not_mem_nil) y mem
    | cons block queue =>
      obtain ⟨next, step, inv', fewer, phis, placed, keeps, waiting⟩ := inv.placeStep inRange top
      refine .inl ⟨next, step, ⟨inv', fun x queuedX left y mem => ?_⟩, fewer⟩
      by_cases same : x = block
      · subst same
        exact placed y mem
      · have before := (waiting x queuedX).resolve_right left
        refine phis (processed x before ?_ y mem)
        rw [top, mem_cons, not_or]
        exact ⟨same, fun waits => left (keeps waits)⟩
  obtain ⟨phis, run, nodup, least⟩ := runLoop_total _ PhiState.left _ round (count + 1) s
    ⟨start.phiInv, fun x queuedX left => absurd ((start.waits_iff x).mpr
      ((start.queued_iff x).mp queuedX)) left⟩ (Nat.lt_succ_of_le start.left)
  refine ⟨_, ?_, pairwise_lt_mergeSort nodup, ?_⟩
  · rw [placePhis, queued]
    simp [run]
  · have same : {y | y ∈ phis.mergeSort fun a b => decide (a ≤ b)} = {y | y ∈ phis} := by
      ext y
      exact (mergeSort_perm phis _).mem_iff
    rw [same]
    exact least

end IlDominanceFrontier

namespace IlDominance

/-- Frontiers and phi placement are exact: the table of frontiers is made when a `u32` counts the
pairs, it lists every frontier once and in increasing order, and `place_phis` returns the least set
that holds the frontiers of the definitions and of its own members. -/
theorem frontiers_exact (blocks : List IlBlock) (successors : List IlBlockId) (entry : IlBlockId)
    (dominance : IlDominance) (inRange : GraphInRange blocks successors)
    (entryLt : entry < blocks.length) (run : fromBlocks blocks successors entry = some dominance) :
    ((∃ frontier, dominance.frontiers blocks successors = some frontier) ↔
      {pair : IlBlockId × IlBlockId |
        InFrontier (Edge blocks successors) entry pair.1 pair.2}.ncard ≤ u32Max) ∧
    ∀ frontier, dominance.frontiers blocks successors = some frontier →
      (∀ x, (frontier.frontierFor x).Pairwise (· < ·) ∧
        ∀ y, y ∈ frontier.frontierFor x ↔ InFrontier (Edge blocks successors) entry x y) ∧
      ∀ definitions : List IlBlockId, (∀ definition ∈ definitions, definition < blocks.length) →
        ∃ phis, frontier.placePhis blocks.length definitions = some (.ok phis) ∧
          phis.Pairwise (· < ·) ∧
          IsLeast {placed : Set IlBlockId | ∀ x, x ∈ definitions ∨ x ∈ placed →
            ∀ y, InFrontier (Edge blocks successors) entry x y → y ∈ placed} {y | y ∈ phis} := by
  obtain ⟨rows, eq, length, nodup, mem_iff⟩ :=
    (fromBlocks_sound inRange entryLt run).rows_spec inRange entryLt
  rw [eq, fromFrontiers_eq, ← length_flatten_eq_ncard nodup mem_iff]
  refine ⟨?_, fun frontier made => ?_⟩
  · by_cases fits : rows.flatten.length ≤ u32Max
    · rw [if_pos fits]
      exact ⟨fun _ => fits, fun _ => ⟨_, rfl⟩⟩
    · rw [if_neg fits]
      refine ⟨fun made => ?_, fun fits' => absurd fits' fits⟩
      obtain ⟨_, impossible⟩ := made
      cases impossible
  · split at made
    · cases made
      have rowMem : ∀ x y, y ∈ frontierFor
          ⟨IlCsr.ofRows (rows.map fun row => row.mergeSort fun a b => decide (a ≤ b))⟩ x ↔
          InFrontier (Edge blocks successors) entry x y := by
        intro x y
        rw [frontierFor_ofRows, (mergeSort_perm _ _).mem_iff, mem_iff]
      refine ⟨fun x => ⟨?_, rowMem x⟩, fun definitions valid => ?_⟩
      · rw [frontierFor_ofRows]
        apply pairwise_lt_mergeSort
        by_cases lt : x < rows.length
        · rw [getD_eq_getElem _ _ lt]
          exact nodup _ (getElem_mem lt)
        · rw [getD_eq_default _ _ (not_lt.mp lt)]
          exact nodup_nil
      · have placed := placePhis_least blocks.length definitions
          (fun x y mem => Reaches.lt inRange entryLt
            ((rowMem x y).mp mem).1) valid
        simp only [rowMem, ClosedUnder] at placed
        exact placed
    · cases made

/-- The frontiers of an irreducible graph with a self-loop and an edge back to its entry. -/
theorem frontiers_exact_irreducible :
    ∃ dominance, fromBlocks [plainBlock 0 2, plainBlock 2 4, plainBlock 4 6] [1, 2, 2, 0, 1, 2] 0 =
        some dominance ∧
      ((∃ frontier, dominance.frontiers [plainBlock 0 2, plainBlock 2 4, plainBlock 4 6]
          [1, 2, 2, 0, 1, 2] = some frontier) ↔
        {pair : IlBlockId × IlBlockId | InFrontier
          (Edge [plainBlock 0 2, plainBlock 2 4, plainBlock 4 6] [1, 2, 2, 0, 1, 2]) 0
            pair.1 pair.2}.ncard ≤ u32Max) := by
  obtain ⟨dominance, run, -⟩ := @fromBlocks_spec
    [plainBlock 0 2, plainBlock 2 4, plainBlock 4 6] [1, 2, 2, 0, 1, 2] 0
    (by decide) (by decide) (by decide) (by decide)
  exact ⟨dominance, run, (frontiers_exact _ _ _ dominance (by decide) (by decide) run).1⟩

/-! ## Where the table overflows -/

/-- A chain of blocks, the last of which leads back to every block. -/
def chainBlocks (n : Nat) : List IlBlock :=
  (List.range n).map fun i => if i + 1 = n then plainBlock 0 n else plainBlock (i + 1) (i + 2)

section Chain

variable {n i j : Nat}

theorem chain_edge_iff :
    Edge (chainBlocks n) (List.range n) i j ↔ i < n ∧ j < n ∧ (i + 1 = n ∨ j = i + 1) := by
  unfold Edge successorsFor chainBlocks
  rw [getElem?_map]
  by_cases lt : i < n
  · rw [getElem?_range lt, Option.map_some]
    by_cases last : i + 1 = n
    · have whole : (plainBlock 0 n).successors.slice (List.range n) = List.range n := by
        simp [IlIndexRange.slice, plainBlock]
      simp only [if_pos last, whole, mem_range]
      simp [lt, last]
    · have one : (plainBlock (i + 1) (i + 2)).successors.slice (List.range n) = [i + 1] := by
        have inside : i + 1 < (List.range n).length := by
          rw [length_range]
          omega
        simp only [IlIndexRange.slice, plainBlock]
        rw [drop_eq_getElem_cons inside, getElem_range]
        simp
      simp only [if_neg last, one, mem_singleton]
      constructor
      · rintro rfl
        exact ⟨lt, by omega, .inr rfl⟩
      · rintro ⟨-, -, isLast | next⟩
        · exact absurd isLast last
        · exact next
  · simp [lt]

theorem chain_inRange : GraphInRange (chainBlocks n) (List.range n) := by
  have length : (chainBlocks n).length = n := by simp [chainBlocks]
  refine ⟨fun block mem => ?_, fun block mem target within => ?_⟩
  · obtain ⟨i, memI, rfl⟩ := mem_map.mp mem
    have lt := mem_range.mp memI
    rw [length_range]
    split
    · exact ⟨Nat.zero_le _, le_rfl⟩
    · simp only [plainBlock]
      omega
  · rw [length]
    exact mem_range.mp (mem_of_mem_slice within)

theorem chain_reaches (lt : i < n) : Reaches (Edge (chainBlocks n) (List.range n)) 0 i := by
  induction i with
  | zero => exact reaches_entry
  | succ i ih => exact (ih (by omega)).step (chain_edge_iff.mpr ⟨by omega, lt, .inr rfl⟩)

theorem chain_dominates (le : i ≤ j) (lt : j < n) :
    Dominates (Edge (chainBlocks n) (List.range n)) 0 i j := by
  refine ⟨chain_reaches lt, fun walk ends => ?_⟩
  induction ends with
  | start =>
    rw [Nat.le_zero.mp le]
    exact mem_singleton_self 0
  | @step p b walk prior last ih =>
    obtain ⟨pLt, bLt, shape⟩ := chain_edge_iff.mp last
    by_cases above : i ≤ p
    · exact .tail _ (ih above pLt)
    · have same : i = b := by omega
      rw [same]
      exact .head _

theorem chain_inFrontier (le : j ≤ i) (lt : i < n) :
    InFrontier (Edge (chainBlocks n) (List.range n)) 0 i j := by
  refine ⟨chain_reaches (by omega), ⟨n - 1, chain_reaches (by omega), ?_,
    chain_dominates (by omega) (by omega)⟩, fun strict => ?_⟩
  · exact chain_edge_iff.mpr ⟨by omega, by omega, .inl (by omega)⟩
  · exact strict.2 (strict.1.antisymm (chain_dominates le lt))

theorem chain_ncard_ge : n * (n + 1) / 2 ≤ {pair : IlBlockId × IlBlockId |
    InFrontier (Edge (chainBlocks n) (List.range n)) 0 pair.1 pair.2}.ncard := by
  have triangle : {pair : Nat × Nat | pair.1 < n ∧ pair.2 ∈ Finset.range (pair.1 + 1)}.ncard =
      n * (n + 1) / 2 := by
    rw [ncard_pairs n fun i => Finset.range (i + 1)]
    simp only [Finset.card_range]
    have gauss := Finset.sum_range_id_mul_two (n + 1)
    rw [Finset.sum_range_succ'] at gauss
    simp only [add_zero, Nat.add_sub_cancel] at gauss
    rw [← mul_comm (n + 1), ← gauss, Nat.mul_div_cancel _ (by decide)]
  rw [← triangle]
  apply Set.ncard_le_ncard
  · rintro ⟨i, j⟩ ⟨lt, le⟩
    exact chain_inFrontier (Nat.lt_succ_iff.mp (Finset.mem_range.mp le)) lt
  · apply (Finset.finite_toSet (Finset.range n ×ˢ Finset.range n)).subset
    rintro ⟨i, j⟩ ⟨reached, ⟨p, reachedP, last, above⟩, -⟩
    obtain ⟨-, jLt, -⟩ := chain_edge_iff.mp last
    have iLt := Reaches.lt chain_inRange (by simpa [chainBlocks] using Nat.zero_lt_of_lt jLt)
      above.reaches_left
    have length : (chainBlocks n).length = n := by simp [chainBlocks]
    exact Finset.mem_coe.mpr (Finset.mem_product.mpr
      ⟨Finset.mem_range.mpr (length ▸ iLt), Finset.mem_range.mpr jLt⟩)

theorem chain_edgeCount : edgeCount (chainBlocks n) ≤ 2 * n := by
  have general : ∀ k ≤ n, (((List.range k).map fun i =>
      if i + 1 = n then plainBlock 0 n else plainBlock (i + 1) (i + 2)).map
        fun block => block.successors.len).sum ≤ k + if k = n then n else 0 := by
    intro k
    induction k with
    | zero => simp
    | succ k ih =>
      intro le
      have before := ih (by omega)
      rw [if_neg (by omega)] at before
      rw [range_succ, map_append, map_append, sum_append]
      have single : (((([k] : List Nat).map fun i =>
          if i + 1 = n then plainBlock 0 n else plainBlock (i + 1) (i + 2)).map
            fun block => block.successors.len).sum) ≤ 1 + if k + 1 = n then n else 0 := by
        simp only [map_cons, map_nil, sum_cons, sum_nil]
        split
        · simp [plainBlock, IlIndexRange.len]
        · simp [plainBlock, IlIndexRange.len]
      omega
  have total := general n le_rfl
  rw [if_pos rfl] at total
  exact total.trans (by omega)

theorem chain_frontiers_none (large : u32Max < n * (n + 1) / 2) (short : n < 2 ^ 31) :
    ∃ dominance, fromBlocks (chainBlocks n) (List.range n) 0 = some dominance ∧
      dominance.frontiers (chainBlocks n) (List.range n) = none := by
  have length : (chainBlocks n).length = n := by simp [chainBlocks]
  have positive : 0 < n := by
    by_contra zero
    rw [Nat.eq_zero_of_not_pos zero] at large
    exact absurd large (by decide)
  obtain ⟨dominance, run, exact_⟩ := fromBlocks_spec chain_inRange
    (show 0 < (chainBlocks n).length by rw [length]; exact positive) (by rw [length]; exact short)
    (lt_of_le_of_lt chain_edgeCount (by omega))
  obtain ⟨rows, eq, -, nodup, mem_iff⟩ := exact_.rows_spec chain_inRange
    (by rw [length]; exact positive)
  refine ⟨dominance, run, ?_⟩
  rw [eq, fromFrontiers_eq, length_flatten_eq_ncard nodup mem_iff, if_neg]
  exact not_le.mpr (lt_of_lt_of_le large chain_ncard_ge)

end Chain

/-- With 92682 blocks in the chain the dominance is computed, and the `expect` in
`IlCsr::from_rows` panics on its frontiers. -/
theorem frontiers_chain_overflow :
    GraphInRange (chainBlocks 92682) (List.range 92682) ∧ 0 < (chainBlocks 92682).length ∧
      ∃ dominance, fromBlocks (chainBlocks 92682) (List.range 92682) 0 = some dominance ∧
        dominance.frontiers (chainBlocks 92682) (List.range 92682) = none := by
  refine ⟨chain_inRange, ?_, chain_frontiers_none (by decide) (by decide)⟩
  rw [chainBlocks, length_map, length_range]
  decide

end IlDominance

end Fugue.Il
