import Mathlib
import Fugue.Lib.OrdMap

/-!
# Partition maps

`fugue-lifter-runtime/src/partmap.rs`: a map from split points to values, where a value holds from
its point up to the next one and the default value holds below the first. A split at a point that is
not there yet copies the value that holds at it.
-/

namespace Fugue.Lifter

open Fugue.Lib OrdMap

universe u v

/-- `PartMap` (`partmap.rs:38-43`). -/
structure PartMap (K : Type u) (V : Type v) [LinearOrder K] where
  mapping : OrdMap K V
  default : V

namespace PartMap

variable {K : Type u} {V : Type v} [LinearOrder K]

/-- `PartMap::new` (`partmap.rs:50-55`). -/
def new (default : V) : PartMap K V := ⟨.empty, default⟩

variable (m : PartMap K V)

/-- `PartMap::get` (`partmap.rs:111-113`). -/
def get (point : K) : Option V := (m.mapping.floor? point).map Prod.snd

/-- `PartMap::get_or_default` (`partmap.rs:115-117`). -/
def getOrDefault (point : K) : V := (m.get point).getD m.default

/-- `PartMap::split` and `split_mut` (`partmap.rs:149-171`). -/
def split (point : K) : PartMap K V :=
  match m.mapping.floor? point with
  | some (lower, value) =>
    if lower = point then m else { m with mapping := m.mapping.insert point value }
  | none => { m with mapping := m.mapping.insert point m.default }

variable {m : PartMap K V} {point : K} {k : K} {v : V}

/-- The value of the last split point up to `point` holds at it. -/
theorem getOrDefault_of_mem (mem : (k, v) ∈ m.mapping.entries) (le : k ≤ point)
    (last : ∀ x ∈ m.mapping.entries, x.1 ≤ point → x.1 ≤ k) : m.getOrDefault point = v := by
  unfold getOrDefault get
  cases found : m.mapping.floor? point with
  | none => exact absurd le (floor?_eq_none found (k, v) mem).not_ge
  | some entry =>
    obtain ⟨inside, below, greatest⟩ := floor?_eq_some found
    have same : entry.1 = k := le_antisymm (last entry inside below) (greatest (k, v) mem le)
    have mem' : (k, entry.2) ∈ m.mapping.entries := by
      rw [← same]
      exact inside
    exact OrdMap.unique mem' mem

/-- Below the first split point the default holds. -/
theorem getOrDefault_of_below (below : ∀ x ∈ m.mapping.entries, point < x.1) :
    m.getOrDefault point = m.default := by
  unfold getOrDefault get
  cases found : m.mapping.floor? point with
  | none => rfl
  | some entry =>
    obtain ⟨inside, le, -⟩ := floor?_eq_some found
    exact absurd le (below entry inside).not_ge

/-- Either a last split point up to `point` gives the value there, or the default does. -/
theorem getOrDefault_cases (m : PartMap K V) (point : K) :
    (∃ k v, (k, v) ∈ m.mapping.entries ∧ k ≤ point ∧
      (∀ x ∈ m.mapping.entries, x.1 ≤ point → x.1 ≤ k) ∧ m.getOrDefault point = v) ∨
    ((∀ x ∈ m.mapping.entries, point < x.1) ∧ m.getOrDefault point = m.default) := by
  cases found : m.mapping.floor? point with
  | none =>
    have below := floor?_eq_none found
    exact .inr ⟨below, getOrDefault_of_below below⟩
  | some entry =>
    obtain ⟨inside, le, greatest⟩ := floor?_eq_some found
    exact .inl ⟨entry.1, entry.2, inside, le, greatest, getOrDefault_of_mem inside le greatest⟩

/-- What holds of the default and of every value holds at every point. -/
theorem getOrDefault_of_all {p : V → Prop} (default : p m.default)
    (all : ∀ x ∈ m.mapping.entries, p x.2) : p (m.getOrDefault point) := by
  rcases m.getOrDefault_cases point with ⟨k, v, mem, -, -, eq⟩ | ⟨-, eq⟩
  · rw [eq]
    exact all _ mem
  · rw [eq]
    exact default

@[simp]
theorem split_default : (m.split point).default = m.default := by
  unfold split
  split
  · split <;> rfl
  · rfl

/-- A split adds its point, with the value that holds there. -/
theorem mem_split : (k, v) ∈ (m.split point).mapping.entries ↔
    (k = point ∧ v = m.getOrDefault point) ∨ ((k, v) ∈ m.mapping.entries ∧ k ≠ point) := by
  unfold split
  split
  · rename_i lower value found
    obtain ⟨inside, le, greatest⟩ := floor?_eq_some found
    have holds : m.getOrDefault point = value := getOrDefault_of_mem inside le greatest
    split
    · rename_i eq
      subst eq
      rw [holds]
      constructor
      · intro mem
        by_cases same : k = lower
        · subst same
          exact .inl ⟨rfl, OrdMap.unique mem inside⟩
        · exact .inr ⟨mem, same⟩
      · rintro (⟨rfl, rfl⟩ | ⟨mem, -⟩)
        · exact inside
        · exact mem
    · rw [mem_insert, Prod.mk.injEq, holds]
  · rename_i found
    rw [mem_insert, Prod.mk.injEq, getOrDefault_of_below (floor?_eq_none found)]

end PartMap

end Fugue.Lifter
