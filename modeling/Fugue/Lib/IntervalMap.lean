import Mathlib.Data.List.Sort
import Mathlib.Data.List.Pairwise
import Mathlib.Data.List.Perm.Basic
import Mathlib.Data.Prod.Lex
import Mathlib.Tactic.Common

/-!
# Interval maps

A map from intervals of numbers, both bounds included, to values. Intervals may overlap, and a
forced insertion may repeat one. The operations are those of an interval tree as it documents
itself: what a map holds is said by its entries up to order, and a query returns the entries that
overlap it in the order of their starts. Any implementation that keeps these laws can stand for
`M`; a plain list of entries is one of them.

A map whose intervals are pairwise disjoint (`Apart`) shows at most one entry at each point;
`Apart.remove` and `Apart.insert` say how the two updates keep that.
-/

namespace Fugue.Lib

open List

universe u v

/-- Whether two intervals have a point in common. -/
def overlaps (x y : ℕ × ℕ) : Bool := decide (x.1 ≤ y.2) && decide (y.1 ≤ x.2)

theorem overlaps_iff {x y : ℕ × ℕ} : overlaps x y = true ↔ x.1 ≤ y.2 ∧ y.1 ≤ x.2 := by
  simp [overlaps]

class IntervalMap (M : Type u) (V : outParam (Type v)) where
  entries : M → List ((ℕ × ℕ) × V)
  new : M
  insert : M → ℕ × ℕ → V → M
  forceInsert : M → ℕ × ℕ → V → M
  remove : M → ℕ × ℕ → M
  removeWhere : M → ℕ × ℕ → (V → Bool) → Option M
  iter : M → ℕ × ℕ → List ((ℕ × ℕ) × V)
  entries_new : entries new = []
  perm_insert : ∀ m key v, (∀ x ∈ entries m, x.1 ≠ key) →
    (entries (insert m key v)).Perm ((key, v) :: entries m)
  perm_forceInsert : ∀ m key v, (entries (forceInsert m key v)).Perm ((key, v) :: entries m)
  perm_remove : ∀ m key v, (key, v) ∈ entries m → ((entries m).map Prod.fst).Nodup →
    (entries m).Perm ((key, v) :: entries (remove m key))
  removeWhere_some : ∀ m key (p : V → Bool) v, (key, v) ∈ entries m → p v = true →
    ∃ rest w, removeWhere m key p = some rest ∧ p w = true ∧
      (entries m).Perm ((key, w) :: entries rest)
  perm_iter : ∀ m key, (iter m key).Perm ((entries m).filter fun x => overlaps x.1 key)
  sorted_iter : ∀ m key, (iter m key).Pairwise fun x y => x.1.1 ≤ y.1.1

namespace IntervalMap

section Listed

variable {V : Type v}

/-- The first entry with the interval `key` and a value that meets `p` is taken out. -/
def dropFirst (key : ℕ × ℕ) (p : V → Bool) : List ((ℕ × ℕ) × V) → Option (List ((ℕ × ℕ) × V))
  | [] => none
  | x :: rest => if x.1 = key ∧ p x.2 then some rest else (dropFirst key p rest).map (x :: ·)

theorem dropFirst_some {key : ℕ × ℕ} {p : V → Bool} {v : V} (meets : p v = true) :
    ∀ {xs : List ((ℕ × ℕ) × V)}, (key, v) ∈ xs → ∃ rest w, dropFirst key p xs = some rest ∧
      p w = true ∧ xs.Perm ((key, w) :: rest) := by
  intro xs
  induction xs with
  | nil => intro mem; cases mem
  | cons x xs ih =>
    intro mem
    by_cases first : x.1 = key ∧ p x.2
    · obtain ⟨rfl, holds⟩ := first
      exact ⟨xs, x.2, by rw [dropFirst, if_pos ⟨rfl, holds⟩], holds, .refl _⟩
    · rcases mem_cons.mp mem with rfl | later
      · exact absurd ⟨rfl, meets⟩ first
      · obtain ⟨rest, w, run, holds, perm⟩ := ih later
        refine ⟨x :: rest, w, ?_, holds, ?_⟩
        · rw [dropFirst, if_neg first, run]
          rfl
        · exact (perm.cons x).trans (.swap _ _ _)

/-- The plain list of entries as an interval map. -/
instance listed : IntervalMap (List ((ℕ × ℕ) × V)) V where
  entries m := m
  new := []
  insert m key v := (key, v) :: m.filter fun x => x.1 ≠ key
  forceInsert m key v := (key, v) :: m
  remove m key := (dropFirst key (fun _ => true) m).getD m
  removeWhere m key p := dropFirst key p m
  iter m key := (m.filter fun x => overlaps x.1 key).insertionSort fun x y => x.1.1 ≤ y.1.1
  entries_new := rfl
  perm_insert m key v fresh := by
    rw [filter_eq_self.mpr fun x mem => by simpa using fresh x mem]
  perm_forceInsert m key v := .refl _
  perm_remove m key v mem nodup := by
    obtain ⟨rest, w, run, -, perm⟩ := dropFirst_some (p := fun _ => true) rfl mem
    rw [run]
    -- the interval has one entry, so the one that was taken out is the one asked for
    have same : v = w := by
      rcases mem_cons.mp (perm.mem_iff.mp mem) with eq | later
      · exact congrArg Prod.snd eq
      · have keys := (perm.map Prod.fst).nodup_iff.mp nodup
        rw [map_cons, nodup_cons] at keys
        exact absurd (mem_map_of_mem later) keys.1
    rw [same]
    exact perm
  removeWhere_some m key p v mem meets := dropFirst_some meets mem
  perm_iter m key := perm_insertionSort _ _
  sorted_iter m key := pairwise_insertionSort _ _

end Listed

variable {M : Type u} {V : Type v} [IntervalMap M V] {m : M} {key : ℕ × ℕ} {v : V}
  {x : (ℕ × ℕ) × V}

theorem mem_iter : x ∈ iter m key ↔ x ∈ entries m ∧ x.1.1 ≤ key.2 ∧ key.1 ≤ x.1.2 := by
  rw [(perm_iter m key).mem_iff, mem_filter, overlaps_iff]

theorem mem_forceInsert : x ∈ entries (forceInsert m key v) ↔ x = (key, v) ∨ x ∈ entries m := by
  rw [(perm_forceInsert m key v).mem_iff, mem_cons]

theorem nodup_forceInsert (fresh : (key, v) ∉ entries m) (nodup : (entries m).Nodup) :
    (entries (forceInsert m key v)).Nodup :=
  (perm_forceInsert m key v).nodup_iff.mpr (nodup_cons.mpr ⟨fresh, nodup⟩)

/-- Taking out an entry that its value singles out. -/
theorem removeWhere_spec {p : V → Bool} (mem : (key, v) ∈ entries m) (meets : p v = true)
    (only : ∀ w, p w = true → w = v) (nodup : (entries m).Nodup) :
    ∃ rest, removeWhere m key p = some rest ∧ (entries rest).Nodup ∧
      ∀ x, x ∈ entries rest ↔ x ∈ entries m ∧ x ≠ (key, v) := by
  obtain ⟨rest, w, run, holds, perm⟩ := removeWhere_some m key p v mem meets
  obtain rfl := only w holds
  obtain ⟨absent, kept⟩ := nodup_cons.mp (perm.nodup_iff.mp nodup)
  refine ⟨rest, run, kept, fun x => ?_⟩
  rw [perm.mem_iff, mem_cons]
  constructor
  · intro inRest
    exact ⟨.inr inRest, fun eq => absent (eq ▸ inRest)⟩
  · rintro ⟨eq | inRest, ne⟩
    · exact absurd eq ne
    · exact inRest

/-- The intervals are not empty and pairwise disjoint. -/
structure Apart (m : M) : Prop where
  nonempty : ∀ x ∈ entries m, x.1.1 ≤ x.1.2
  disjoint : (entries m).Pairwise fun x y => x.1.2 < y.1.1 ∨ y.1.2 < x.1.1

namespace Apart

theorem new : Apart (IntervalMap.new : M) := by
  constructor <;> simp [entries_new]

theorem eq_of_common (apart : Apart m) {y : (ℕ × ℕ) × V} (left : x ∈ entries m)
    (right : y ∈ entries m) {a : ℕ} (inLeft : x.1.1 ≤ a ∧ a ≤ x.1.2)
    (inRight : y.1.1 ≤ a ∧ a ≤ y.1.2) : x = y := by
  by_contra ne
  have symm : Std.Symm fun x y : (ℕ × ℕ) × V => x.1.2 < y.1.1 ∨ y.1.2 < x.1.1 :=
    ⟨fun _ _ far => far.symm⟩
  have := apart.disjoint.forall left right ne
  omega

theorem keys_nodup (apart : Apart m) : ((entries m).map Prod.fst).Nodup := by
  rw [List.Nodup, pairwise_map]
  refine apart.disjoint.imp_of_mem fun {x y} memX _ far eq => ?_
  have := apart.nonempty x memX
  rw [eq] at far this
  omega

theorem mem_remove (apart : Apart m) (mem : (key, v) ∈ entries m) :
    x ∈ entries (remove m key) ↔ x ∈ entries m ∧ x ≠ (key, v) := by
  have perm := perm_remove m key v mem apart.keys_nodup
  have absent := (nodup_cons.mp (perm.nodup_iff.mp apart.keys_nodup.of_map)).1
  rw [perm.mem_iff, mem_cons]
  constructor
  · intro inRest
    exact ⟨.inr inRest, fun eq => absent (eq ▸ inRest)⟩
  · rintro ⟨eq | inRest, ne⟩
    · exact absurd eq ne
    · exact inRest

theorem remove (apart : Apart m) (mem : (key, v) ∈ entries m) :
    Apart (IntervalMap.remove m key) := by
  have perm := perm_remove m key v mem apart.keys_nodup
  refine ⟨fun x inRest => apart.nonempty x (perm.mem_iff.mpr (.tail _ inRest)), ?_⟩
  exact (pairwise_cons.mp ((perm.pairwise_iff fun far => far.symm).mp apart.disjoint)).2

/-- The interval is disjoint from those of the map. -/
def Clear (m : M) (key : ℕ × ℕ) : Prop := ∀ x ∈ entries m, x.1.2 < key.1 ∨ key.2 < x.1.1

theorem mem_insert (le : key.1 ≤ key.2) (clear : Clear m key) :
    x ∈ entries (IntervalMap.insert m key v) ↔ x = (key, v) ∨ x ∈ entries m := by
  rw [(perm_insert m key v ?_).mem_iff, mem_cons]
  intro y mem eq
  have := clear y mem
  rw [eq] at this
  omega

theorem insert (apart : Apart m) (le : key.1 ≤ key.2) (clear : Clear m key) :
    Apart (IntervalMap.insert m key v) := by
  refine ⟨fun x mem => ?_, ?_⟩
  · rcases (mem_insert le clear).mp mem with rfl | old
    · exact le
    · exact apart.nonempty x old
  · have fresh : ∀ y ∈ entries m, y.1 ≠ key := by
      intro y mem eq
      have := clear y mem
      rw [eq] at this
      omega
    rw [(perm_insert m key v fresh).pairwise_iff fun far => far.symm]
    exact pairwise_cons.mpr ⟨fun y mem => (clear y mem).symm, apart.disjoint⟩

/-- A query of disjoint intervals returns one after the other. -/
theorem iter_ascending (apart : Apart m) :
    (iter m key).Pairwise fun x y => x.1.2 < y.1.1 := by
  have far : (iter m key).Pairwise fun x y => x.1.2 < y.1.1 ∨ y.1.2 < x.1.1 :=
    ((perm_iter m key).pairwise_iff fun far => far.symm).mpr (apart.disjoint.filter _)
  refine ((sorted_iter m key).and far).imp_of_mem fun {x y} memX memY both => ?_
  have := apart.nonempty y (mem_iter.mp memY).1
  omega

theorem iter_nodup (apart : Apart m) : (iter m key).Nodup :=
  (perm_iter m key).nodup_iff.mpr (apart.keys_nodup.of_map.filter _)

end Apart

end IntervalMap

end Fugue.Lib
