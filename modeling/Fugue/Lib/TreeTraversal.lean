import Fugue.Lib.DominatorTree
import Mathlib.Data.List.ProdSigma

/-!
# Depth-first traversal of a tree

`traverse` lists what a depth-first walk of a tree meets: `(b, false)` when it enters `b` and
`(b, true)` when it leaves it. The same list comes out of a stack of pending items, of which the
head is emitted and an entered node is replaced by its children and its own exit (`pending`). The
positions of the two items of a node bracket those of the nodes below it and of no others, so two
comparisons of positions decide `Above`.
-/

namespace Fugue.Lib

open List

universe u

variable {V : Type u}

/-- `children` lists each node below `b` once, below every placed node `b`; no placed node has a
rank from `bound` on. -/
structure IsChildren (parent : V → Option V) (entry : V) (rank : V → ℕ) (children : V → List V)
    (bound : ℕ) : Prop where
  tree : IsTree parent entry rank
  mem_iff : ∀ b c, c ∈ children b ↔ c ≠ entry ∧ parent c = some b
  nodup : ∀ b, (children b).Nodup
  rank_lt : ∀ b, (parent b).isSome → rank b < bound

/-- The items of the nodes below `b`, to the depth that `fuel` allows. -/
def traverseDepth (children : V → List V) : ℕ → V → List (V × Bool)
  | 0, _ => []
  | fuel + 1, b => (b, false) :: (children b).flatMap (traverseDepth children fuel) ++ [(b, true)]

/-- The items of the nodes below `b`. -/
def traverse (children : V → List V) (rank : V → ℕ) (bound : ℕ) (b : V) : List (V × Bool) :=
  traverseDepth children (bound - rank b) b

def exits (items : List (V × Bool)) : List V := (items.filter (·.2)).map (·.1)

/-- What a stack of pending items still emits. -/
def pending (children : V → List V) (rank : V → ℕ) (bound : ℕ) (stack : List (V × Bool)) :
    List (V × Bool) :=
  stack.flatMap fun item => if item.2 then [item] else traverse children rank bound item.1

/-- In a list without repetitions, the positions of a segment are those of its members. -/
theorem mem_segment_iff {α : Type u} [BEq α] [LawfulBEq α] {before segment after : List α} {x : α}
    (nodup : (before ++ segment ++ after).Nodup) (mem : x ∈ before ++ segment ++ after) :
    x ∈ segment ↔ before.length ≤ (before ++ segment ++ after).idxOf x ∧
      (before ++ segment ++ after).idxOf x < before.length + segment.length := by
  have apart := disjoint_of_nodup_append nodup
  have apart' := disjoint_of_nodup_append nodup.of_append_left
  constructor
  · intro inside
    rw [idxOf_append_of_mem (mem_append_right _ inside),
      idxOf_append_of_notMem fun early => apart' early inside]
    have := idxOf_lt_length_of_mem inside
    omega
  · rintro ⟨low, high⟩
    rcases mem_append.mp mem with front | late
    · rw [idxOf_append_of_mem front] at low
      refine (mem_append.mp front).resolve_left fun early => ?_
      rw [idxOf_append_of_mem early] at low
      exact absurd (idxOf_lt_length_of_mem early) (not_lt.mpr low)
    · rw [idxOf_append_of_notMem fun front => apart front late, length_append] at high
      omega

namespace IsChildren

variable {parent : V → Option V} {entry a b c : V} {rank : V → ℕ} {children : V → List V}
  {bound : ℕ}

section

variable (h : IsChildren parent entry rank children bound)
include h

theorem placed (mem : c ∈ children b) :
    (parent c).isSome := by
  rw [((h.mem_iff b c).mp mem).2]
  rfl

theorem parent_lt (mem : c ∈ children b) :
    rank b < rank c := by
  obtain ⟨ne, hang⟩ := (h.mem_iff b c).mp mem
  exact h.tree.rank_lt c b hang ne

theorem above_child (mem : c ∈ children b) :
    Above parent entry b c := by
  obtain ⟨ne, hang⟩ := (h.mem_iff b c).mp mem
  exact Above.parent_above ne hang

section

variable (isPlaced : (parent b).isSome)
include isPlaced

/-- No depth beyond the bound changes the traversal. -/
theorem traverseDepth_eq {fuel depth : ℕ} (enough : bound - rank b ≤ fuel)
    (enough' : bound - rank b ≤ depth) :
    traverseDepth children fuel b = traverseDepth children depth b := by
  have lt := h.rank_lt b isPlaced
  induction fuel generalizing b depth with
  | zero => omega
  | succ fuel ih =>
    cases depth with
    | zero => omega
    | succ depth =>
      have below : ∀ c ∈ children b,
          traverseDepth children fuel c = traverseDepth children depth c := by
        intro c mem
        have lower := h.parent_lt mem
        have bounded := h.rank_lt c (h.placed mem)
        exact ih (h.placed mem) (by omega) (by omega) bounded
      rw [traverseDepth, traverseDepth, flatMap_congr below]

theorem traverse_eq :
    traverse children rank bound b =
      (b, false) :: (children b).flatMap (traverse children rank bound) ++ [(b, true)] := by
  have lt := h.rank_lt b isPlaced
  obtain ⟨depth, eq⟩ : ∃ depth, bound - rank b = depth + 1 := ⟨bound - rank b - 1, by omega⟩
  have below : ∀ c ∈ children b,
      traverseDepth children depth c = traverse children rank bound c := by
    intro c mem
    have lower := h.parent_lt mem
    exact h.traverseDepth_eq (h.placed mem) (by omega) le_rfl
  rw [traverse, eq, traverseDepth, flatMap_congr below]

/-- The traversal of a child lies within that of its parent. -/
theorem traverse_infix_of_mem (mem : c ∈ children b) :
    traverse children rank bound c <:+: traverse children rank bound b := by
  obtain ⟨before, after, split⟩ := append_of_mem mem
  rw [h.traverse_eq isPlaced, split]
  refine ⟨(b, false) :: before.flatMap (traverse children rank bound),
    after.flatMap (traverse children rank bound) ++ [(b, true)], ?_⟩
  simp

theorem traverse_infix (above : Above parent entry a b) :
    traverse children rank bound b <:+: traverse children rank bound a := by
  induction above with
  | refl => exact infix_refl _
  | @up x d ne hang _ ih =>
    have placed := h.tree.placed x d hang
    have mem : x ∈ children d := (h.mem_iff d x).mpr ⟨ne, hang⟩
    exact (h.traverse_infix_of_mem placed mem).trans (ih placed)

omit isPlaced in
theorem above_of_mem_depth {fuel : ℕ}
    {item : V × Bool} (mem : item ∈ traverseDepth children fuel b) :
    Above parent entry b item.1 := by
  induction fuel generalizing b with
  | zero => cases mem
  | succ fuel ih =>
    simp only [traverseDepth, cons_append, mem_cons, mem_append,
      mem_flatMap, not_mem_nil, or_false] at mem
    rcases mem with rfl | ⟨c, child, mem⟩ | rfl
    · exact .refl
    · exact (h.above_child child).trans (ih mem)
    · exact .refl

/-- The traversal of a placed node meets placed nodes. -/
theorem placed_of_mem_traverse {item : V × Bool}
    (mem : item ∈ traverse children rank bound b) : (parent item.1).isSome := by
  cases h.above_of_mem_depth mem with
  | refl => exact isPlaced
  | up _ hang _ =>
    rw [hang]
    rfl

end

/-- The traversal meets the nodes below its root, on the way in and on the way out. -/
theorem mem_traverse (isPlaced : (parent c).isSome) {expanded : Bool} :
    (c, expanded) ∈ traverse children rank bound b ↔ Above parent entry b c := by
  refine ⟨h.above_of_mem_depth, fun above => (h.traverse_infix isPlaced above).mem ?_⟩
  rw [h.traverse_eq isPlaced]
  cases expanded <;> simp

theorem nodup_depth {fuel : ℕ} :
    (traverseDepth children fuel b).Nodup := by
  induction fuel generalizing b with
  | zero => exact nodup_nil
  | succ fuel ih =>
    have lower : ∀ expanded, (b, expanded) ∉
        (children b).flatMap (traverseDepth children fuel) := by
      intro expanded mem
      obtain ⟨c, child, mem⟩ := mem_flatMap.mp mem
      exact absurd ((h.above_of_mem_depth mem).rank_le h.tree) (not_le.mpr (h.parent_lt child))
    -- a common node of two siblings would put one of them above the other, hence above `b`
    have disjoint : (children b).Pairwise fun c d =>
        List.Disjoint (traverseDepth children fuel c) (traverseDepth children fuel d) := by
      refine (h.nodup b).imp_of_mem fun {c d} cMem dMem ne item left right => ?_
      obtain ⟨cNe, cHang⟩ := (h.mem_iff b c).mp cMem
      obtain ⟨dNe, dHang⟩ := (h.mem_iff b d).mp dMem
      rcases (h.above_of_mem_depth left).total (h.above_of_mem_depth right) with above | above
      · exact absurd ((above.of_parent dNe dHang ne).rank_le h.tree)
          (not_le.mpr (h.parent_lt cMem))
      · exact absurd ((above.of_parent cNe cHang (Ne.symm ne)).rank_le h.tree)
          (not_le.mpr (h.parent_lt dMem))
    have middle := nodup_flatMap.mpr ⟨fun c _ => ih, disjoint⟩
    rw [traverseDepth, cons_append, nodup_cons, nodup_append]
    refine ⟨?_, middle, by simp, ?_⟩
    · simpa using lower false
    · rintro item mem other single rfl
      rw [mem_singleton] at single
      exact lower true (single ▸ mem)

theorem nodup_traverse :
    (traverse children rank bound b).Nodup := h.nodup_depth

end

section Exits

@[simp]
theorem exits_append (before after : List (V × Bool)) :
    exits (before ++ after) = exits before ++ exits after := by
  simp [exits]

theorem mem_exits {items : List (V × Bool)} : b ∈ exits items ↔ (b, true) ∈ items := by
  simp [exits]

theorem nodup_exits {items : List (V × Bool)} (nodup : items.Nodup) : (exits items).Nodup := by
  refine List.Nodup.map_on ?_ (nodup.filter _)
  rintro ⟨x, expanded⟩ memX ⟨y, expanded'⟩ memY same
  rw [mem_filter] at memX memY
  exact Prod.ext same (memX.2.trans memY.2.symm)

theorem child_exits (h : IsChildren parent entry rank children bound)
    (isPlaced : (parent b).isSome) (above : Above parent entry a b) {done rest : List V}
    (split : exits (traverse children rank bound a) = done ++ b :: rest) (mem : c ∈ children b) :
    c ∈ done := by
  obtain ⟨before, after, within⟩ := h.traverse_infix isPlaced above
  have nodup := nodup_exits (h.nodup_traverse (b := a))
  have left : exits (traverse children rank bound b) =
      exits ((b, false) :: (children b).flatMap (traverse children rank bound)) ++ [b] := by
    rw [h.traverse_eq isPlaced, exits_append]
    rfl
  have located : exits (traverse children rank bound a) =
      (exits before ++ exits ((b, false) :: (children b).flatMap (traverse children rank bound)))
        ++ b :: exits after := by
    rw [← within, exits_append, exits_append, left]
    simp
  rw [split] at nodup
  have sameSplit := (append_cons_inj_of_notMem
    (fun early => (disjoint_of_nodup_append nodup) early (by simp))
    (nodup_cons.mp nodup.of_append_right).1).mp (split.symm.trans located)
  rw [sameSplit.1]
  refine mem_append_right _ (mem_exits.mpr (.tail _ ?_))
  exact mem_flatMap.mpr ⟨c, mem, (h.mem_traverse (h.placed mem)).mpr .refl⟩

end Exits

section Positions

variable [DecidableEq V]

/-- The items of the nodes below `b` take up a run of positions that starts with the entry of `b`
and ends with its exit. -/
theorem exists_run (h : IsChildren parent entry rank children bound)
    (isPlaced : (parent b).isSome) (above : Above parent entry a b) :
    ∃ start stop, start < stop ∧
      (traverse children rank bound a).idxOf (b, false) = start ∧
      (traverse children rank bound a).idxOf (b, true) = stop ∧
      ∀ item ∈ traverse children rank bound a,
        item ∈ traverse children rank bound b ↔
          start ≤ (traverse children rank bound a).idxOf item ∧
            (traverse children rank bound a).idxOf item ≤ stop := by
  obtain ⟨before, after, split⟩ := h.traverse_infix isPlaced above
  have nodup := h.nodup_traverse (b := a)
  rw [← split] at nodup ⊢
  have unfolded := h.traverse_eq isPlaced
  refine ⟨before.length, before.length + (traverse children rank bound b).length - 1,
    ?_, ?_, ?_, fun item mem => ?_⟩
  · rw [unfolded]
    simp
  · have apart := (disjoint_of_nodup_append nodup.of_append_left)
    rw [append_assoc, idxOf_append_of_notMem, unfolded]
    · simp
    · exact fun early => apart early (by rw [unfolded]; simp)
  · have apart := (disjoint_of_nodup_append nodup.of_append_left)
    have self := h.nodup_traverse (b := b)
    rw [append_assoc, idxOf_append_of_notMem, unfolded]
    · rw [unfolded] at self
      rw [idxOf_append_of_mem (by simp), idxOf_append_of_notMem]
      · simp
      · exact fun early => (disjoint_of_nodup_append self) early (by simp)
    · exact fun early => apart early (by rw [unfolded]; simp)
  · rw [mem_segment_iff nodup mem]
    have : 0 < (traverse children rank bound b).length := by
      rw [unfolded]
      simp
    omega

/-- The positions of the two items of `x` bracket those of `y` exactly when `x` is above `y`. -/
theorem idxOf_le_iff (h : IsChildren parent entry rank children bound)
    {x y : V} (xPlaced : (parent x).isSome) (yPlaced : (parent y).isSome)
    (aboveX : Above parent entry a x) (aboveY : Above parent entry a y) :
    ((traverse children rank bound a).idxOf (x, false) ≤
        (traverse children rank bound a).idxOf (y, false) ∧
      (traverse children rank bound a).idxOf (y, true) ≤
        (traverse children rank bound a).idxOf (x, true)) ↔ Above parent entry x y := by
  obtain ⟨start, stop, -, enterX, exitX, run⟩ := h.exists_run xPlaced aboveX
  obtain ⟨startY, stopY, nonempty, enterY, exitY, -⟩ := h.exists_run yPlaced aboveY
  have enter := run (y, false) ((h.mem_traverse yPlaced).mpr aboveY)
  have exit := run (y, true) ((h.mem_traverse yPlaced).mpr aboveY)
  rw [h.mem_traverse yPlaced] at enter exit
  constructor
  · rintro ⟨low, high⟩
    exact enter.mpr ⟨by omega, by omega⟩
  · intro above
    have inside := enter.mp above
    have inside' := exit.mp above
    exact ⟨by omega, by omega⟩

end Positions

/-- A traversal has two items for each node at most. -/
theorem length_traverse_le {parent : ℕ → Option ℕ} {entry : ℕ} {rank : ℕ → ℕ}
    {children : ℕ → List ℕ} {bound count : ℕ} (h : IsChildren parent entry rank children bound)
    (entryPlaced : (parent entry).isSome) (inside : ∀ b, (parent b).isSome → b < count) :
    (traverse children rank bound entry).length ≤ 2 * count := by
  have sub : traverse children rank bound entry ⊆ List.range count ×ˢ [false, true] := by
    rintro ⟨b, expanded⟩ mem
    refine pair_mem_product.mpr ?_
    exact ⟨mem_range.mpr (inside b (h.placed_of_mem_traverse entryPlaced mem)),
      by cases expanded <;> simp⟩
  have := (h.nodup_traverse.subperm sub).length_le
  rw [length_product, length_range] at this
  simpa [Nat.mul_comm] using this

section Pending

@[simp]
theorem pending_nil : pending children rank bound [] = [] := rfl

theorem pending_exit {stack : List (V × Bool)} :
    pending children rank bound ((b, true) :: stack) =
      (b, true) :: pending children rank bound stack := rfl

/-- Entering a node replaces it by its children and its own exit. -/
theorem pending_enter (h : IsChildren parent entry rank children bound)
    (isPlaced : (parent b).isSome) {stack : List (V × Bool)} :
    pending children rank bound ((b, false) :: stack) =
      (b, false) :: pending children rank bound
        ((children b).map (·, false) ++ (b, true) :: stack) := by
  simp [pending, h.traverse_eq isPlaced, flatMap_append, flatMap_map]

theorem pending_start :
    pending children rank bound [(b, false)] = traverse children rank bound b := by
  simp [pending]

end Pending

end IsChildren

end Fugue.Lib
