import Fugue.Lib.Walk
import Mathlib.Logic.Function.Basic

/-!
# Trees of candidate dominators

A partial parent function that lowers a rank is a forest; `Above` is its ancestor relation. The
iterative computation of dominators starts with the entry alone and then hangs one node at a time
under the nearest common ancestor of its predecessors. `TreeInv` is what such a step keeps:
dominators are never lost (`dominators`), and a dominator that is older than an ancestor of a node
dominates that ancestor as well (`older`), which is why a node can be hung elsewhere without harm
to the nodes below it. `Within k` bounds the ancestors from the other side: they lie on every walk
of at most `k` edges. A step widens the bound by one edge, so finitely many rounds make ancestors
and dominators agree.
-/

namespace Fugue.Lib

open List Function
open Function (update)

universe u

variable {V : Type u}

/-- `a` is `b` or one of the nodes above it. -/
inductive Above (parent : V → Option V) (entry a : V) : V → Prop
  | refl : Above parent entry a a
  | up {b d : V} : b ≠ entry → parent b = some d → Above parent entry a d →
      Above parent entry a b

/-- A parent of lower rank for every node that has one, which has a parent in turn; the entry is
its own parent. -/
structure IsTree (parent : V → Option V) (entry : V) (rank : V → ℕ) : Prop where
  root : parent entry = some entry
  rank_lt : ∀ b d, parent b = some d → b ≠ entry → rank d < rank b
  placed : ∀ b d, parent b = some d → (parent d).isSome

namespace Above

variable {parent : V → Option V} {entry a b c : V} {rank : V → ℕ}

theorem trans (hab : Above parent entry a b) (hbc : Above parent entry b c) :
    Above parent entry a c := by
  induction hbc with
  | refl => exact hab
  | up ne hang _ ih => exact .up ne hang ih

theorem eq_entry (h : Above parent entry a entry) : a = entry := by
  cases h with
  | refl => rfl
  | up ne _ _ => exact absurd rfl ne

section

variable (tree : IsTree parent entry rank) (h : Above parent entry a b)
include tree h

theorem placed (isPlaced : (parent b).isSome) : (parent a).isSome := by
  induction h with
  | refl => exact isPlaced
  | up _ hang _ ih => exact ih (tree.placed _ _ hang)

theorem rank_le :
    rank a ≤ rank b := by
  induction h with
  | refl => exact le_rfl
  | up ne hang _ ih => exact le_trans ih (le_of_lt (tree.rank_lt _ _ hang ne))

theorem rank_lt (ne : a ≠ b) :
    rank a < rank b := by
  cases h with
  | refl => exact absurd rfl ne
  | up notEntry hang above => exact lt_of_le_of_lt (above.rank_le tree) (tree.rank_lt _ _ hang notEntry)

end

theorem antisymm (tree : IsTree parent entry rank) (hab : Above parent entry a b)
    (hba : Above parent entry b a) : a = b := by
  by_contra ne
  exact absurd (hab.rank_lt tree ne) (not_lt.mpr (hba.rank_le tree))

/-- The ancestors of a node form a chain. -/
theorem total (hac : Above parent entry a c) (hbc : Above parent entry b c) :
    Above parent entry a b ∨ Above parent entry b a := by
  induction hac with
  | refl => exact .inr hbc
  | up ne hang above ih =>
    cases hbc with
    | refl => exact .inl (.up ne hang above)
    | up _ hang' above' =>
      cases hang.symm.trans hang'
      exact ih above'

theorem of_parent {d : V} (notEntry : b ≠ entry) (hang : parent b = some d)
    (h : Above parent entry a b) (ne : a ≠ b) : Above parent entry a d := by
  cases h with
  | refl => exact absurd rfl ne
  | up _ hang' above =>
    cases hang.symm.trans hang'
    exact above

theorem parent_above {d : V} (notEntry : b ≠ entry) (hang : parent b = some d) :
    Above parent entry d b := .up notEntry hang .refl

theorem entry_above (tree : IsTree parent entry rank) (isPlaced : (parent b).isSome) :
    Above parent entry entry b := by
  induction h : rank b using Nat.strong_induction_on generalizing b with
  | _ n ih =>
    by_cases eq : b = entry
    · exact eq ▸ .refl
    · obtain ⟨d, hang⟩ := Option.isSome_iff_exists.mp isPlaced
      exact .up eq hang (ih _ (h ▸ tree.rank_lt _ _ hang eq) (tree.placed _ _ hang) rfl)

end Above

section Hang

variable [DecidableEq V] {parent : V → Option V} {entry b d : V} {rank : V → ℕ}

theorem IsTree.hang (tree : IsTree parent entry rank) (notEntry : b ≠ entry)
    (lower : rank d < rank b) (isPlaced : (parent d).isSome) :
    IsTree (update parent b (some d)) entry rank := by
  refine ⟨?_, ?_, ?_⟩
  · rw [update_of_ne (Ne.symm notEntry), tree.root]
  · intro x y hang ne
    by_cases eq : x = b
    · subst eq
      rw [update_self] at hang
      exact Option.some.inj hang ▸ lower
    · rw [update_of_ne eq] at hang
      exact tree.rank_lt x y hang ne
  · intro x y hang
    by_cases eqY : y = b
    · simp [eqY]
    rw [update_of_ne eqY]
    by_cases eq : x = b
    · subst eq
      rw [update_self] at hang
      exact Option.some.inj hang ▸ isPlaced
    · rw [update_of_ne eq] at hang
      exact tree.placed x y hang

/-- Nothing changes above a node that is not below `b`. -/
theorem above_hang_of_not_above {a x : V} (notBelow : ¬ Above parent entry b x) :
    Above (update parent b (some d)) entry a x ↔ Above parent entry a x := by
  constructor
  · intro h
    induction h with
    | refl => exact .refl
    | @up x y ne hang _ ih =>
      have other : x ≠ b := fun eq => notBelow (eq ▸ .refl)
      rw [update_of_ne other] at hang
      exact .up ne hang (ih fun below => notBelow (.up ne hang below))
  · intro h
    induction h with
    | refl => exact .refl
    | @up x y ne hang _ ih =>
      have other : x ≠ b := fun eq => notBelow (eq ▸ .refl)
      exact .up ne (by rw [update_of_ne other, hang])
        (ih fun below => notBelow (.up ne hang below))

/-- `b` itself now hangs under `d`. -/
theorem above_hang_self (tree : IsTree parent entry rank) (notEntry : b ≠ entry)
    (lower : rank d < rank b) {a : V} :
    Above (update parent b (some d)) entry a b ↔ a = b ∨ Above parent entry a d := by
  have notBelow : ¬ Above parent entry b d := fun below =>
    absurd (below.rank_le tree) (not_le.mpr lower)
  constructor
  · intro h
    cases h with
    | refl => exact .inl rfl
    | up _ hang above =>
      rw [update_self] at hang
      cases hang
      exact .inr ((above_hang_of_not_above notBelow).mp above)
  · rintro (rfl | above)
    · exact .refl
    · exact .up notEntry (update_self ..) ((above_hang_of_not_above notBelow).mpr above)

/-- A node below `b` keeps its ancestors up to `b`. -/
theorem above_hang_below {a x : V} (h : Above parent entry a x) :
    Above (update parent b (some d)) entry a x ∨
      (Above parent entry a b ∧ a ≠ b ∧ Above (update parent b (some d)) entry b x) := by
  induction h with
  | refl => exact .inl (.refl)
  | @up x y ne hang above ih =>
    by_cases eq : x = b
    · subst eq
      by_cases same : a = x
      · exact .inl (same ▸ .refl)
      · exact .inr ⟨.up ne hang above, same, .refl⟩
    · have hang' : update parent b (some d) x = some y := by
        rw [update_of_ne eq, hang]
      rcases ih with above' | ⟨aboveB, same, belowB⟩
      · exact .inl (.up ne hang' above')
      · exact .inr ⟨aboveB, same, .up ne hang' belowB⟩

/-- An ancestor after the step was one before, or it came in through `b`. -/
theorem above_of_hang {a x : V} (h : Above (update parent b (some d)) entry a x) :
    Above parent entry a x ∨
      (Above parent entry b x ∧ Above (update parent b (some d)) entry a b) := by
  induction h with
  | refl => exact .inl (.refl)
  | @up x y ne hang above ih =>
    by_cases eq : x = b
    · subst eq
      exact .inr ⟨.refl, .up ne hang above⟩
    · rw [update_of_ne eq] at hang
      rcases ih with above' | ⟨belowB, aboveB⟩
      · exact .inl (.up ne hang above')
      · exact .inr ⟨.up ne hang belowB, aboveB⟩

end Hang

/-- The invariant of the iterative computation. -/
structure TreeInv (edge : V → V → Prop) (entry : V) (rank : V → ℕ) (parent : V → Option V) :
    Prop where
  tree : IsTree parent entry rank
  reaches : ∀ b, (parent b).isSome → Reaches edge entry b
  dominators : ∀ b, (parent b).isSome → ∀ d, Dominates edge entry d b → Above parent entry d b
  older : ∀ a b, (parent b).isSome → Above parent entry a b →
    ∀ d, Dominates edge entry d b → rank d < rank a → Dominates edge entry d a

/-- Every ancestor of a node lies on every walk of at most `k` edges to it. -/
def Within (edge : V → V → Prop) (entry : V) (parent : V → Option V) (k : ℕ) (b : V) : Prop :=
  ∀ a, Above parent entry a b →
    ∀ walk, IsWalk edge entry b walk → walk.length ≤ k + 1 → a ∈ walk

section Step

variable {edge : V → V → Prop} {entry b n : V} {rank : V → ℕ} {parent : V → Option V}
  {preds : List V}

/-- `n` is the nearest common ancestor of `preds`, which are placed predecessors of `b`, one of
them older than `b`. -/
structure Joins (edge : V → V → Prop) (entry : V) (rank : V → ℕ) (parent : V → Option V)
    (b : V) (preds : List V) (n : V) : Prop where
  edges : ∀ p ∈ preds, edge p b
  placed : ∀ p ∈ preds, (parent p).isSome
  earlier : ∃ p ∈ preds, rank p < rank b
  nearest : ∀ a, Above parent entry a n ↔ ∀ p ∈ preds, Above parent entry a p

theorem Joins.rank_lt (tree : IsTree parent entry rank)
    (joins : Joins edge entry rank parent b preds n) : rank n < rank b := by
  obtain ⟨p, mem, lt⟩ := joins.earlier
  exact lt_of_le_of_lt (((joins.nearest n).mp .refl p mem).rank_le tree) lt

theorem Joins.isPlaced (tree : IsTree parent entry rank)
    (joins : Joins edge entry rank parent b preds n) : (parent n).isSome := by
  obtain ⟨p, mem, -⟩ := joins.earlier
  exact ((joins.nearest n).mp .refl p mem).placed tree (joins.placed p mem)

variable [DecidableEq V]

/-- Hanging a node under the nearest common ancestor of its predecessors keeps the invariant. -/
theorem TreeInv.hang (inv : TreeInv edge entry rank parent) (notEntry : b ≠ entry)
    (joins : Joins edge entry rank parent b preds n) :
    TreeInv edge entry rank (update parent b (some n)) := by
  have lower := joins.rank_lt inv.tree
  have self : ∀ {a}, Above (update parent b (some n)) entry a b ↔
      a = b ∨ Above parent entry a n := above_hang_self inv.tree notEntry lower
  obtain ⟨first, firstMem, firstLt⟩ := joins.earlier
  have reachesB : Reaches edge entry b :=
    (inv.reaches first (joins.placed first firstMem)).step (joins.edges first firstMem)
  have placedBefore : ∀ x, x ≠ b → (update parent b (some n) x).isSome →
      (parent x).isSome := by
    intro x ne isPlaced
    rwa [update_of_ne ne] at isPlaced
  -- the dominators of `b` are kept: they dominate, so they are above, each predecessor
  have dominatorsB : ∀ d, Dominates edge entry d b →
      Above (update parent b (some n)) entry d b := by
    intro d dom
    refine self.mpr (or_iff_not_imp_left.mpr fun ne => (joins.nearest d).mpr fun p mem => ?_)
    have placed := joins.placed p mem
    exact inv.dominators p placed d (dom.of_edge ne (inv.reaches p placed) (joins.edges p mem))
  have olderB : ∀ a, Above (update parent b (some n)) entry a b →
      ∀ d, Dominates edge entry d b → rank d < rank a → Dominates edge entry d a := by
    intro a above d dom older
    rcases self.mp above with rfl | above
    · exact dom
    · have aboveFirst := (joins.nearest a).mp above first firstMem
      have placed := joins.placed first firstMem
      have ne : d ≠ b := by
        rintro rfl
        have := aboveFirst.rank_le inv.tree
        omega
      exact inv.older a first placed aboveFirst d
        (dom.of_edge ne (inv.reaches first placed) (joins.edges first firstMem)) older
  refine ⟨inv.tree.hang notEntry lower (joins.isPlaced inv.tree), ?_, ?_, ?_⟩
  · intro x isPlaced
    by_cases eq : x = b
    · exact eq ▸ reachesB
    · exact inv.reaches x (placedBefore x eq isPlaced)
  · intro x isPlaced d dom
    by_cases eq : x = b
    · subst eq
      exact dominatorsB d dom
    · have placed := placedBefore x eq isPlaced
      rcases above_hang_below (b := b) (d := n) (inv.dominators x placed d dom) with
        above | ⟨aboveB, ne, belowB⟩
      · exact above
      · have belowB' : Above parent entry b x := by
          rcases above_of_hang belowB with above | ⟨above, -⟩ <;> exact above
        have domB := inv.older b x placed belowB' d dom (aboveB.rank_lt inv.tree ne)
        exact (dominatorsB d domB).trans belowB
  · intro a x isPlaced above d dom older
    by_cases eq : x = b
    · subst eq
      exact olderB a above d dom older
    · have placed := placedBefore x eq isPlaced
      rcases above_of_hang above with above | ⟨belowB, aboveB⟩
      · exact inv.older a x placed above d dom older
      · have rankLe : rank a ≤ rank b := by
          rcases self.mp aboveB with rfl | above
          · exact le_rfl
          · exact le_of_lt (lt_of_le_of_lt (above.rank_le inv.tree) lower)
        exact olderB a aboveB d (inv.older b x placed belowB d dom (by omega)) older

/-- The node that is hung meets the bound for one more edge, if all its predecessors met it. -/
theorem Within.hang_self (inv : TreeInv edge entry rank parent) (notEntry : b ≠ entry)
    (joins : Joins edge entry rank parent b preds n) {k : ℕ}
    (all : ∀ p, Reaches edge entry p → edge p b → p ∈ preds ∧ Within edge entry parent k p) :
    Within edge entry (update parent b (some n)) (k + 1) b := by
  intro a above walk ends short
  rcases (above_hang_self inv.tree notEntry (joins.rank_lt inv.tree)).mp above with rfl | above
  · exact ends.target_mem
  · cases ends with
    | start => exact absurd rfl notEntry
    | @step p _ before prior last =>
      obtain ⟨mem, within⟩ := all p ⟨before, prior⟩ last
      exact mem_cons_of_mem _
        (within a ((joins.nearest a).mp above p mem) before prior (by simpa using short))

/-- A bound that the node that is hung meets is kept by every other node. -/
theorem Within.hang {k : ℕ} {x : V} (within : Within edge entry parent k x)
    (self : Within edge entry (update parent b (some n)) k b) :
    Within edge entry (update parent b (some n)) k x := by
  intro a above walk ends short
  rcases above_of_hang above with above | ⟨belowB, aboveB⟩
  · exact within a above walk ends short
  · obtain ⟨before, endsB, suffix⟩ := ends.upTo (within b belowB walk ends short)
    exact suffix.subset (self a aboveB before endsB (le_trans suffix.length_le short))

omit [DecidableEq V] in
theorem within_entry {k : ℕ} : Within edge entry parent k entry := by
  intro a above walk ends _
  rw [above.eq_entry]
  exact ends.entry_mem

omit [DecidableEq V] in
/-- When the bound covers all walks without a repeated node, ancestors and dominators agree. -/
theorem TreeInv.above_iff_of_within (inv : TreeInv edge entry rank parent) {k : ℕ} {x : V}
    (placed : (parent x).isSome) (within : Within edge entry parent k x)
    (long : ∀ walk, IsWalk edge entry x walk → walk.Nodup → walk.length ≤ k + 1) {a : V} :
    Above parent entry a x ↔ Dominates edge entry a x :=
  ⟨fun above => dominates_of_nodup (inv.reaches x placed) fun walk ends nodup =>
      within a above walk ends (long walk ends nodup),
    inv.dominators x placed a⟩

omit [DecidableEq V] in
/-- A tree in which every node hangs under the nearest common ancestor of all its predecessors is
the dominator tree. -/
theorem TreeInv.above_iff_of_joins (inv : TreeInv edge entry rank parent)
    (placed : ∀ x, Reaches edge entry x → (parent x).isSome)
    (fixed : ∀ x, Reaches edge entry x → x ≠ entry → ∃ preds n, parent x = some n ∧
      Joins edge entry rank parent x preds n ∧
      ∀ p, Reaches edge entry p → edge p x → p ∈ preds) {a x : V} (reached : Reaches edge entry x) :
    Above parent entry a x ↔ Dominates edge entry a x := by
  refine ⟨fun above => ⟨reached, fun walk ends => ?_⟩, inv.dominators x (placed x reached) a⟩
  induction ends with
  | start => rw [above.eq_entry]; exact .head _
  | @step p y before prior last ih =>
    by_cases eq : y = entry
    · rw [eq] at above
      rw [above.eq_entry]
      exact (prior.step last).entry_mem
    by_cases same : a = y
    · rw [same]; exact .head _
    obtain ⟨preds, n, hang, joins, all⟩ := fixed y reached eq
    have aboveN := above.of_parent eq hang same
    have aboveP := (joins.nearest a).mp aboveN p (all p ⟨before, prior⟩ last)
    exact .tail _ (ih ⟨before, prior⟩ aboveP)

omit [DecidableEq V] in
/-- In the dominator tree a node already hangs where the next step would hang it. -/
theorem TreeInv.parent_eq_of_joins (inv : TreeInv edge entry rank parent)
    (exact_ : ∀ x, Reaches edge entry x → ∀ a, Above parent entry a x ↔ Dominates edge entry a x)
    (notEntry : b ≠ entry) (placed : (parent b).isSome)
    (joins : Joins edge entry rank parent b preds n)
    (all : ∀ p, Reaches edge entry p → edge p b → p ∈ preds) : parent b = some n := by
  obtain ⟨d, hang⟩ := Option.isSome_iff_exists.mp placed
  have reachesB := inv.reaches b placed
  have reachesP : ∀ p ∈ preds, Reaches edge entry p := fun p mem =>
    inv.reaches p (joins.placed p mem)
  have neD : d ≠ b := fun eq => absurd (inv.tree.rank_lt b d hang notEntry) (by simp [eq])
  have neN : n ≠ b := fun eq => absurd (joins.rank_lt inv.tree) (by simp [eq])
  have domD : Dominates edge entry d b :=
    (exact_ b reachesB d).mp (Above.parent_above notEntry hang)
  have aboveDN : Above parent entry d n := (joins.nearest d).mpr fun p mem =>
    (exact_ p (reachesP p mem) d).mpr (domD.of_edge neD (reachesP p mem) (joins.edges p mem))
  have domN : Dominates edge entry n b := Dominates.of_predecessors notEntry reachesB
    fun p reached last => (exact_ p reached n).mp ((joins.nearest n).mp .refl p
      (all p reached last))
  have aboveND : Above parent entry n d :=
    ((exact_ b reachesB n).mpr domN).of_parent notEntry hang neN
  rw [hang, aboveDN.antisymm inv.tree aboveND]

end Step

/-- The parent in the dominator tree is the immediate dominator. -/
theorem immediatelyDominates_of_parent {edge : V → V → Prop} {entry b d : V} {rank : V → ℕ}
    {parent : V → Option V} (tree : IsTree parent entry rank)
    (exact_ : ∀ x, Reaches edge entry x → ∀ a, Above parent entry a x ↔ Dominates edge entry a x)
    (reached : Reaches edge entry b) (notEntry : b ≠ entry) (hang : parent b = some d) :
    ImmediatelyDominates edge entry d b := by
  have dom : Dominates edge entry d b :=
    (exact_ b reached d).mp (Above.parent_above notEntry hang)
  have ne : d ≠ b := fun eq => absurd (tree.rank_lt b d hang notEntry) (by simp [eq])
  refine ⟨⟨dom, ne⟩, fun e strict _ => ?_⟩
  have above := ((exact_ b reached e).mpr strict.1).of_parent notEntry hang strict.2
  exact (exact_ d dom.reaches_left e).mp above

end Fugue.Lib
