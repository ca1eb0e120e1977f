import Mathlib.Tactic.Common
import Mathlib.Order.Defs.Unbundled

/-!
# Computations that update a state and can fail

A `Stateful` computation reads and updates a state, and stops with an error or does not return at
all. `Keeps rel x` says that whenever `x` returns, the states before and after it are related: the
frame of `x`. The frames of the parts of a computation compose to that of the whole.
-/

namespace Fugue.Lib

universe u

/-- A computation on a state; `none` stands for a panic or a loop that did not end. -/
abbrev Stateful (σ ε : Type) := StateT σ (ExceptT ε Option)

namespace Stateful

variable {σ ε α β : Type}

/-- What a panic or a loop without end makes of an optional result. -/
def ofOption (value : Option α) : Stateful σ ε α := fun s => value.map fun a => .ok (a, s)

/-- `?` on a result. -/
def ofExcept (value : Except ε α) : Stateful σ ε α := fun s => some (value.map fun a => (a, s))

def panicked : Stateful σ ε α := ofOption none

/-- How the computation ends from `s`: the result and the state it leaves, or an error. -/
def outcome (x : Stateful σ ε α) (s : σ) : Option (Except ε (α × σ)) := x s

/-- From `s` the computation returns `a` and leaves the state `t`. -/
def Returns (x : Stateful σ ε α) (s : σ) (a : α) (t : σ) : Prop := x.outcome s = some (.ok (a, t))

variable {x : Stateful σ ε α} {f : α → Stateful σ ε β} {s t : σ} {a a' : α} {b : β}

theorem outcome_bind : (x >>= f).outcome s = (x.outcome s).bind fun result =>
    match result with
    | .ok (a, u) => (f a).outcome u
    | .error error => some (.error error) := by
  cases ended : x.outcome s with
  | none =>
    change Option.bind (x.outcome s) _ = _
    rw [ended]
    rfl
  | some result =>
    change Option.bind (x.outcome s) _ = _
    rw [ended]
    cases result with
    | ok pair => rfl
    | error error => rfl

@[simp]
theorem returns_pure : Returns (pure a : Stateful σ ε α) s a' t ↔ a' = a ∧ t = s := by
  constructor
  · intro run
    cases run
    exact ⟨rfl, rfl⟩
  · rintro ⟨rfl, rfl⟩
    rfl

@[simp]
theorem returns_bind :
    Returns (x >>= f) s b t ↔ ∃ a u, Returns x s a u ∧ Returns (f a) u b t := by
  unfold Returns
  rw [outcome_bind]
  cases x.outcome s with
  | none => simp
  | some result =>
    cases result with
    | error error => simp
    | ok pair =>
      obtain ⟨a, u⟩ := pair
      simp

@[simp]
theorem returns_get {u : σ} : Returns (get : Stateful σ ε σ) s u t ↔ u = s ∧ t = s := by
  constructor
  · intro run
    cases run
    exact ⟨rfl, rfl⟩
  · rintro ⟨rfl, rfl⟩
    rfl

@[simp]
theorem returns_modify {g : σ → σ} {u : Unit} :
    Returns (modify g : Stateful σ ε Unit) s u t ↔ t = g s := by
  constructor
  · intro run
    cases run
    rfl
  · rintro rfl
    rfl

@[simp]
theorem returns_ofOption {value : Option α} :
    Returns (ofOption value : Stateful σ ε α) s a t ↔ value = some a ∧ t = s := by
  unfold Returns outcome ofOption
  cases value with
  | none => simp
  | some found => simp [eq_comm]

@[simp]
theorem returns_ofExcept {value : Except ε α} :
    Returns (ofExcept value : Stateful σ ε α) s a t ↔ value = .ok a ∧ t = s := by
  unfold Returns outcome ofExcept
  cases value with
  | error error => simp [Except.map]
  | ok found => simp [Except.map, eq_comm]

@[simp]
theorem returns_panicked : ¬ Returns (panicked : Stateful σ ε α) s a t := by
  unfold panicked
  simp

theorem returns_get_bind {f : σ → Stateful σ ε β} :
    Returns (get >>= f) s b t ↔ Returns (f s) s b t := by
  rw [returns_bind]
  simp [returns_get, and_assoc, exists_eq_left, exists_and_left]

theorem returns_ofOption_bind {value : Option α} :
    Returns (ofOption value >>= f) s b t ↔ ∃ a, value = some a ∧ Returns (f a) s b t := by
  rw [returns_bind]
  simp [returns_ofOption, and_assoc, exists_and_left]

theorem returns_ofExcept_bind {value : Except ε α} :
    Returns (ofExcept value >>= f) s b t ↔ ∃ a, value = .ok a ∧ Returns (f a) s b t := by
  rw [returns_bind]
  simp [returns_ofExcept, and_assoc, exists_and_left]

theorem returns_modify_bind {g : σ → σ} {f : Unit → Stateful σ ε β} :
    Returns (modify g >>= f) s b t ↔ Returns (f ()) (g s) b t := by
  rw [returns_bind]
  simp only [returns_modify, exists_eq_left]
  exact ⟨fun ⟨_, run⟩ => run, fun run => ⟨(), run⟩⟩

/-! ## Frames -/

/-- Whenever the computation returns, the states before and after it are related. -/
def Keeps (rel : σ → σ → Prop) (x : Stateful σ ε α) : Prop := ∀ s a t, x.Returns s a t → rel s t

namespace Keeps

variable {rel rel' whole : σ → σ → Prop}

theorem mono (h : Keeps rel x) (imp : ∀ s t, rel s t → rel' s t) : Keeps rel' x :=
  fun s a t run => imp s t (h s a t run)

/-- The relation of the first part, then that of the second one. -/
theorem comp (first : Keeps rel x) (second : ∀ a, Keeps rel' (f a))
    (compose : ∀ s t u, rel s t → rel' t u → whole s u) : Keeps whole (x >>= f) := by
  intro s b u run
  obtain ⟨a, t, left, right⟩ := returns_bind.mp run
  exact compose s t u (first s a t left) (second a t b u right)

theorem modify {g : σ → σ} (step : ∀ s, rel s (g s)) :
    Keeps rel (modify g : Stateful σ ε Unit) := by
  intro s _ t run
  rw [returns_modify.mp run]
  exact step s

section Refl

variable [Std.Refl rel]

theorem pure (a : α) : Keeps rel (pure a : Stateful σ ε α) := by
  intro s b t run
  rw [(returns_pure.mp run).2]
  exact Std.Refl.refl s

theorem get : Keeps rel (get : Stateful σ ε σ) := by
  intro s u t run
  rw [(returns_get.mp run).2]
  exact Std.Refl.refl s

theorem ofOption (value : Option α) : Keeps rel (ofOption value : Stateful σ ε α) := by
  intro s a t run
  rw [(returns_ofOption.mp run).2]
  exact Std.Refl.refl s

theorem ofExcept (value : Except ε α) : Keeps rel (ofExcept value : Stateful σ ε α) := by
  intro s a t run
  rw [(returns_ofExcept.mp run).2]
  exact Std.Refl.refl s

end Refl

theorem panicked : Keeps rel (panicked : Stateful σ ε α) :=
  fun _ _ _ run => absurd run returns_panicked

theorem bind [IsTrans σ rel] (first : Keeps rel x) (second : ∀ a, Keeps rel (f a)) :
    Keeps rel (x >>= f) :=
  first.comp second fun _ _ _ => IsTrans.trans _ _ _

section Loops

variable {γ : Type} [Std.Refl rel] [IsTrans σ rel]

theorem forM {f : γ → Stateful σ ε Unit} :
    ∀ {xs : List γ}, (∀ x ∈ xs, Keeps rel (f x)) → Keeps rel (xs.forM f)
  | [], _ => pure ()
  | x :: xs, round => by
    obtain ⟨first, rest⟩ := List.forall_mem_cons.mp round
    exact first.bind fun _ => forM rest

theorem foldlM {f : β → γ → Stateful σ ε β} :
    ∀ {xs : List γ} (b : β), (∀ x ∈ xs, ∀ b, Keeps rel (f b x)) → Keeps rel (xs.foldlM f b)
  | [], b, _ => pure b
  | x :: xs, b, round => by
    obtain ⟨first, rest⟩ := List.forall_mem_cons.mp round
    exact (first b).bind fun b => foldlM b rest

theorem mapM {f : γ → Stateful σ ε β} :
    ∀ {xs : List γ}, (∀ x ∈ xs, Keeps rel (f x)) → Keeps rel (xs.mapM f)
  | [], _ => pure []
  | x :: xs, round => by
    obtain ⟨first, rest⟩ := List.forall_mem_cons.mp round
    rw [List.mapM_cons]
    exact first.bind fun b => (mapM rest).bind fun bs => pure (b :: bs)

end Loops

end Keeps

end Stateful
end Fugue.Lib
