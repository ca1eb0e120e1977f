import Mathlib

/-!
# Step functions

A function of the natural numbers that is given by some of its values: from each point where a value
is set it keeps that value up to the next such point, and before the first of them it has a default.
`stepAt_eq_of_set` and `stepAt_eq_default` read it at a point, and `stepAt_update` says how far a
new value reaches.
-/

namespace Fugue.Lib

open Function

universe u v

variable {β : Type u} {γ : Type v}

/-- The value that is set at the greatest point up to `a`, or the default if there is none. -/
def stepAt (set : ℕ → Option β) (default : β) : ℕ → β
  | 0 => (set 0).getD default
  | a + 1 => (set (a + 1)).getD (stepAt set default a)

variable {set : ℕ → Option β} {default : β} {x a : ℕ} {b : β}

/-- No value is set between `x` and `a`. -/
def Unset (set : ℕ → Option β) (x a : ℕ) : Prop := ∀ y, x < y → y ≤ a → set y = none

theorem stepAt_eq_default (none : ∀ y ≤ a, set y = none) : stepAt set default a = default := by
  induction a with
  | zero =>
    rw [stepAt, none 0 le_rfl]
    rfl
  | succ a ih =>
    rw [stepAt, none (a + 1) le_rfl]
    exact ih fun y le => none y (Nat.le_succ_of_le le)

/-- Where no value is set, the function keeps the one it has. -/
theorem stepAt_eq_of_unset (le : x ≤ a) (unset : Unset set x a) :
    stepAt set default a = stepAt set default x := by
  induction a with
  | zero => rw [Nat.le_zero.mp le]
  | succ a ih =>
    rcases Nat.le_or_eq_of_le_succ le with below | rfl
    · rw [stepAt, unset (a + 1) (Nat.lt_succ_of_le below) le_rfl]
      exact ih below fun y above upTo => unset y above (Nat.le_succ_of_le upTo)
    · rfl

theorem stepAt_eq_of_set (here : set x = some b) (le : x ≤ a) (unset : Unset set x a) :
    stepAt set default a = b := by
  rw [stepAt_eq_of_unset le unset]
  cases x <;> rw [stepAt, here] <;> rfl

theorem stepAt_congr {set' : ℕ → Option β} (same : ∀ y ≤ a, set' y = set y) :
    stepAt set' default a = stepAt set default a := by
  induction a with
  | zero => rw [stepAt, stepAt, same 0 le_rfl]
  | succ a ih =>
    rw [stepAt, stepAt, same (a + 1) le_rfl, ih fun y le => same y (Nat.le_succ_of_le le)]

/-- A value beyond the last of two points where values are set is the same for both functions. -/
theorem stepAt_congr_above {set' : ℕ → Option β} {y : ℕ} (le : y ≤ a) (here : set y ≠ none)
    (same : ∀ z, y ≤ z → set' z = set z) : stepAt set' default a = stepAt set default a := by
  induction a with
  | zero =>
    obtain rfl := Nat.le_zero.mp le
    rw [stepAt, stepAt, same 0 le_rfl]
  | succ a ih =>
    rw [stepAt, stepAt, same (a + 1) le]
    rcases Nat.le_or_eq_of_le_succ le with below | rfl
    · rw [ih below]
    · obtain ⟨value, eq⟩ := Option.ne_none_iff_exists'.mp here
      rw [eq]
      rfl

/-- A new value at `x` reaches up to the next point where a value is set. -/
theorem stepAt_update [∀ x a, Decidable (Unset set x a)] :
    stepAt (Function.update set x (some b)) default a =
      if x ≤ a ∧ Unset set x a then b else stepAt set default a := by
  have others : ∀ y, y ≠ x → Function.update set x (some b) y = set y :=
    fun y ne => update_of_ne ne _ _
  by_cases le : x ≤ a
  · by_cases unset : Unset set x a
    · rw [if_pos ⟨le, unset⟩]
      refine stepAt_eq_of_set (update_self ..) le fun y above upTo => ?_
      rw [others y (ne_of_gt above)]
      exact unset y above upTo
    · rw [if_neg fun both => unset both.2]
      simp only [Unset, not_forall] at unset
      obtain ⟨y, above, upTo, here⟩ := unset
      exact stepAt_congr_above upTo here fun z yz => others z (by omega)
  · rw [if_neg fun both => le both.1]
    exact stepAt_congr fun y upTo => others y (by omega)

/-- What holds of every value holds of the function. -/
theorem stepAt_of_all {p : β → Prop} (all : ∀ x b, set x = some b → p b) (base : p default) :
    p (stepAt set default a) := by
  induction a with
  | zero =>
    rw [stepAt]
    cases here : set 0 with
    | none => exact base
    | some b => exact all 0 b here
  | succ a ih =>
    rw [stepAt]
    cases here : set (a + 1) with
    | none => exact ih
    | some b => exact all (a + 1) b here

/-- A function of the values can be read off the points. -/
theorem map_stepAt (f : β → γ) : ∀ a,
    f (stepAt set default a) = stepAt (fun x => (set x).map f) (f default) a
  | 0 => by
    rw [stepAt, stepAt]
    cases set 0 <;> rfl
  | a + 1 => by
    rw [stepAt, stepAt, ← map_stepAt f a]
    cases set (a + 1) <;> rfl

end Fugue.Lib
