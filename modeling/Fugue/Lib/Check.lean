import Fugue.Lib.Partial
import Mathlib.Tactic.Common
import Mathlib.Data.List.Perm.Basic

/-!
# Checks that stop at the first error

A verifier is a sequence of checks in `Except`. The lemmas read success as a conjunction: a bind
succeeds when both parts do, a loop when every round does.
-/

namespace Fugue.Lib

open List

universe u w

variable {ε : Type u} {ε' : Type w} {α β γ : Type}

/-- Fail with `error` unless the condition holds. -/
def ensure {ε : Type u} (condition : Bool) (error : ε) : Except ε Unit :=
  if condition then .ok () else .error error

@[simp]
theorem ensure_eq_ok {condition : Bool} {error : ε} :
    ensure condition error = .ok () ↔ condition = true := by
  unfold ensure
  split <;> simp_all

/-- `Option::ok_or`. -/
def okOr {ε : Type u} (value : Option α) (error : ε) : Except ε α :=
  match value with
  | some a => .ok a
  | none => .error error

@[simp]
theorem okOr_eq_ok {value : Option α} {error : ε} {a : α} :
    okOr value error = .ok a ↔ value = some a := by
  cases value <;> simp [okOr]

theorem bind_eq_ok {x : Except ε α} {f : α → Except ε β} {b : β} :
    (x >>= f) = .ok b ↔ ∃ a, x = .ok a ∧ f a = .ok b := by
  cases x with
  | error e => simp [bind, Except.bind]
  | ok a => simp [bind, Except.bind]

theorem mapError_eq_ok {f : ε → ε'} {x : Except ε α} {a : α} :
    x.mapError f = .ok a ↔ x = .ok a := by
  cases x <;> simp [Except.mapError]

theorem andThen_eq_ok {x : Except ε Unit} {y : Except ε β} {b : β} :
    (x >>= fun _ => y) = .ok b ↔ x = .ok () ∧ y = .ok b := by
  rw [bind_eq_ok]
  exact ⟨fun ⟨_, left, right⟩ => ⟨left, right⟩, fun ⟨left, right⟩ => ⟨(), left, right⟩⟩

theorem forM_eq_ok {f : γ → Except ε Unit} :
    ∀ {xs : List γ}, xs.forM f = .ok () ↔ ∀ x ∈ xs, f x = .ok ()
  | [] => by simp [pure, Except.pure]
  | x :: xs => by
    rw [List.forM, andThen_eq_ok, forM_eq_ok, forall_mem_cons]

/-- A loop over the indexed elements of a list. -/
theorem forM_zipIdx_eq_ok {f : γ × Nat → Except ε Unit} {xs : List γ} :
    xs.zipIdx.forM f = .ok () ↔ ∀ (i : Nat) (x : γ), xs[i]? = some x → f (x, i) = .ok () := by
  rw [forM_eq_ok]
  constructor
  · intro all i x found
    exact all (x, i) (mem_zipIdx_iff_getElem?.mpr found)
  · rintro all ⟨x, i⟩ mem
    exact all i x (mem_zipIdx_iff_getElem?.mp mem)

theorem length_le_of_index {xs : List γ} {bound : Nat}
    (all : ∀ (i : Nat) (x : γ), xs[i]? = some x → i + 1 ≤ bound) : xs.length ≤ bound := by
  cases length : xs.length with
  | zero => exact Nat.zero_le _
  | succ n =>
    have lt : n < xs.length := by omega
    exact all n xs[n] (getElem?_eq_getElem lt)

variable {f : γ → Except ε α}

/-- A loop whose every round succeeds collects the results. -/
theorem mapM_eq_ok {g : γ → α} :
    ∀ {xs : List γ}, (∀ x ∈ xs, f x = .ok (g x)) → xs.mapM f = .ok (xs.map g)
  | [], _ => rfl
  | x :: xs, all => by
    obtain ⟨head, tail⟩ := forall_mem_cons.mp all
    rw [mapM_cons, head, mapM_eq_ok tail]
    rfl

/-- A loop whose every round has some result. -/
theorem mapM_total : ∀ {xs : List γ}, (∀ x ∈ xs, ∃ y, f x = .ok y) →
    ∃ pairs : List (γ × α), pairs.map Prod.fst = xs ∧ xs.mapM f = .ok (pairs.map Prod.snd) ∧
      ∀ pair ∈ pairs, f pair.1 = .ok pair.2
  | [], _ => ⟨[], rfl, rfl, nofun⟩
  | x :: xs, all => by
    obtain ⟨⟨y, head⟩, tail⟩ := forall_mem_cons.mp all
    obtain ⟨pairs, keys, run, each⟩ := mapM_total tail
    refine ⟨(x, y) :: pairs, congrArg (x :: ·) keys, ?_, forall_mem_cons.mpr ⟨head, each⟩⟩
    rw [mapM_cons, head, run]
    rfl

theorem mapM_isOk_iff {xs : List γ} :
    (∃ ys, xs.mapM f = .ok ys) ↔ ∀ x ∈ xs, ∃ y, f x = .ok y := by
  constructor
  · intro ⟨ys, run⟩
    induction xs generalizing ys with
    | nil => exact nofun
    | cons x xs ih =>
      rw [mapM_cons] at run
      obtain ⟨y, head, collected⟩ := bind_eq_ok.mp run
      obtain ⟨rest, tail, -⟩ := bind_eq_ok.mp collected
      exact forall_mem_cons.mpr ⟨⟨y, head⟩, ih rest tail⟩
  · intro all
    obtain ⟨pairs, -, run, -⟩ := mapM_total all
    exact ⟨_, run⟩

theorem mem_of_mapM_eq_ok :
    ∀ {xs : List γ} {ys : List α}, xs.mapM f = .ok ys → ∀ y, y ∈ ys ↔ ∃ x ∈ xs, f x = .ok y
  | [], ys, run => by
    cases run
    simp
  | x :: xs, ys, run => by
    rw [mapM_cons] at run
    obtain ⟨z, head, collected⟩ := bind_eq_ok.mp run
    obtain ⟨rest, tail, eq⟩ := bind_eq_ok.mp collected
    cases eq
    intro y
    rw [mem_cons, mem_of_mapM_eq_ok tail]
    simp only [exists_mem_cons_iff, head, Except.ok.injEq]
    exact or_congr_left eq_comm

theorem mapM_eq_some {f : γ → Option α} {g : γ → α} :
    ∀ {xs : List γ}, (∀ x ∈ xs, f x = some (g x)) → xs.mapM f = some (xs.map g)
  | [], _ => rfl
  | x :: xs, all => by
    obtain ⟨head, tail⟩ := forall_mem_cons.mp all
    rw [mapM_cons, head, mapM_eq_some tail]
    rfl

theorem length_of_mapM_eq_ok :
    ∀ {xs : List γ} {ys : List α}, xs.mapM f = .ok ys → ys.length = xs.length
  | [], ys, run => by
    cases run
    rfl
  | x :: xs, ys, run => by
    rw [mapM_cons] at run
    obtain ⟨y, -, collected⟩ := bind_eq_ok.mp run
    obtain ⟨rest, tail, eq⟩ := bind_eq_ok.mp collected
    rw [← Except.ok.inj eq, length_cons, length_of_mapM_eq_ok tail, length_cons]

theorem forall₂_of_mapM_eq_ok :
    ∀ {xs : List γ} {ys : List α}, xs.mapM f = .ok ys → List.Forall₂ (fun x y => f x = .ok y) xs ys
  | [], ys, run => by
    cases run
    exact .nil
  | x :: xs, ys, run => by
    rw [mapM_cons] at run
    obtain ⟨y, head, collected⟩ := bind_eq_ok.mp run
    obtain ⟨rest, tail, eq⟩ := bind_eq_ok.mp collected
    rw [← Except.ok.inj eq]
    exact .cons head (forall₂_of_mapM_eq_ok tail)

end Fugue.Lib
