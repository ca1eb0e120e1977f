import Mathlib.Data.Nat.Notation
import Mathlib.Tactic.Common

/-!
# Loops with fuel

An explicit-stack or worklist loop is a body that either carries on with a new state, stops with
a result, or fails. `runLoop` runs such a body for at most `fuel` rounds; `none` means that the
body failed (a panic of the modelled code) or that the rounds ran out. `runLoop_total` is the total
correctness rule: an invariant, a bound that goes down with every round, and a postcondition at
the exit.
-/

namespace Fugue.Lib

open List

universe u v

variable {σ : Type u} {ρ : Type v}

/-- At most `fuel` rounds of `body`, from the state `s`. -/
def runLoop (body : σ → Option (σ ⊕ ρ)) : ℕ → σ → Option ρ
  | 0, _ => none
  | fuel + 1, s =>
    match body s with
    | none => none
    | some (.inl next) => runLoop body fuel next
    | some (.inr result) => some result

variable {body : σ → Option (σ ⊕ ρ)}

theorem runLoop_continue {s next : σ} (fuel : ℕ)
    (step : body s = some (.inl next)) : runLoop body (fuel + 1) s = runLoop body fuel next := by
  simp [runLoop, step]

theorem runLoop_done {s : σ} {result : ρ} (fuel : ℕ)
    (step : body s = some (.inr result)) : runLoop body (fuel + 1) s = some result := by
  simp [runLoop, step]

/-- Total correctness of a loop with an invariant for each number of rounds left: every round
either goes on with fewer of them, or stops with a result that meets the postcondition. -/
theorem runLoop_total_indexed (inv : ℕ → σ → Prop) (post : ρ → Prop) (round : ∀ left s, inv left s →
      (∃ next, body s = some (.inl next) ∧ ∃ fewer < left, inv fewer next) ∨
      (∃ result, body s = some (.inr result) ∧ post result)) :
    ∀ fuel left s, inv left s → left < fuel →
      ∃ result, runLoop body fuel s = some result ∧ post result := by
  intro fuel
  induction fuel with
  | zero => intro left s _ lt; exact absurd lt (Nat.not_lt_zero _)
  | succ fuel ih =>
    intro left s holds lt
    rcases round left s holds with ⟨next, step, fewer, lower, kept⟩ | ⟨result, step, met⟩
    · rw [runLoop_continue fuel step]
      exact ih fewer next kept (by omega)
    · exact ⟨result, runLoop_done fuel step, met⟩

/-- Total correctness of a loop: every round either keeps the invariant and lowers the bound, or
stops with a result that meets the postcondition. -/
theorem runLoop_total (inv : σ → Prop) (bound : σ → ℕ) (post : ρ → Prop) (round : ∀ s, inv s →
      (∃ next, body s = some (.inl next) ∧ inv next ∧ bound next < bound s) ∨
      (∃ result, body s = some (.inr result) ∧ post result)) :
    ∀ fuel s, inv s → bound s < fuel →
      ∃ result, runLoop body fuel s = some result ∧ post result := by
  intro fuel s holds lt
  refine runLoop_total_indexed (fun left s => inv s ∧ bound s = left) post ?_ fuel _ s
    ⟨holds, rfl⟩ lt
  rintro left s ⟨holds, rfl⟩
  rcases round s holds with ⟨next, step, kept, lower⟩ | done
  · exact .inl ⟨next, step, bound next, lower, kept, rfl⟩
  · exact .inr done

/-- Total correctness with a well-founded order on the states: some number of rounds is enough. -/
theorem runLoop_wellFounded {below : σ → σ → Prop}
    (founded : WellFounded below) (inv : σ → Prop) (post : ρ → Prop) (round : ∀ s, inv s →
      (∃ next, body s = some (.inl next) ∧ inv next ∧ below next s) ∨
      (∃ result, body s = some (.inr result) ∧ post result)) :
    ∀ s, inv s → ∃ fuel result, runLoop body fuel s = some result ∧ post result := by
  intro s
  induction s using founded.induction with
  | _ s ih =>
    intro holds
    rcases round s holds with ⟨next, step, kept, lower⟩ | ⟨result, step, met⟩
    · obtain ⟨fuel, result, run, met⟩ := ih next lower kept
      exact ⟨fuel + 1, result, (runLoop_continue fuel step).trans run, met⟩
    · exact ⟨1, result, runLoop_done 0 step, met⟩

/-- Partial correctness: a result that was returned meets the postcondition. -/
theorem runLoop_sound (inv : σ → Prop) (post : ρ → Prop)
    (keeps : ∀ s next, inv s → body s = some (.inl next) → inv next)
    (exits : ∀ s result, inv s → body s = some (.inr result) → post result) :
    ∀ fuel s result, inv s → runLoop body fuel s = some result → post result := by
  intro fuel
  induction fuel with
  | zero => intro s result _ run; simp [runLoop] at run
  | succ fuel ih =>
    intro s result holds run
    simp only [runLoop] at run
    split at run
    · exact absurd run (by simp)
    · exact ih _ _ (keeps _ _ holds ‹_›) run
    · exact exits _ _ holds (by simp_all)

variable {α : Type v} {f : σ → α → Option σ}

/-- The rule for a loop over a list in which a round can fail: if each round succeeds, leads to a
related state and meets its goal there, and goals outlast related states, then the loop succeeds and
meets every goal. -/
theorem foldlM_meets (inv : σ → Prop) (rel : σ → σ → Prop)
    (goal : α → σ → Prop) (refl : ∀ s, rel s s) (trans : ∀ s t u, rel s t → rel t u → rel s u)
    (lasts : ∀ x s t, rel s t → goal x s → goal x t) : ∀ (xs : List α),
    (∀ x ∈ xs, ∀ s, inv s → ∃ t, f s x = some t ∧ inv t ∧ rel s t ∧ goal x t) →
    ∀ s, inv s → ∃ t, xs.foldlM f s = some t ∧ inv t ∧ rel s t ∧ ∀ x ∈ xs, goal x t
  | [], _, s, holds => ⟨s, rfl, holds, refl s, by simp⟩
  | x :: xs, round, s, holds => by
    obtain ⟨first, rest⟩ := forall_mem_cons.mp round
    obtain ⟨t, step, holds, related, met⟩ := first s holds
    obtain ⟨u, steps, holds', related', met'⟩ :=
      foldlM_meets inv rel goal refl trans lasts xs rest t holds
    refine ⟨u, ?_, holds', trans s t u related related', ?_⟩
    · rw [foldlM_cons, step]
      exact steps
    · exact forall_mem_cons.mpr ⟨lasts x t u related' met, met'⟩

/-- A loop over a list succeeds if every round does. -/
theorem foldlM_isSome {xs : List α} (s : σ)
    (round : ∀ x ∈ xs, ∀ s, ∃ t, f s x = some t) : ∃ t, xs.foldlM f s = some t := by
  obtain ⟨t, run, -⟩ := foldlM_meets (fun _ => True) (fun _ _ => True) (fun _ _ => True)
    (fun _ => trivial) (fun _ _ _ _ _ => trivial) (fun _ _ _ _ _ => trivial) xs
    (fun x mem s _ => (round x mem s).imp fun t step => ⟨step, trivial, trivial, trivial⟩) s trivial
  exact ⟨t, run⟩

/-- What every round of a loop over a list keeps, the loop keeps. -/
theorem foldlM_keeps (inv : σ → Prop) :
    ∀ {xs : List α} {s t : σ}, (∀ x ∈ xs, ∀ s t, f s x = some t → inv s → inv t) →
      xs.foldlM f s = some t → inv s → inv t
  | [], s, t, _, run, holds => by
    cases run
    exact holds
  | x :: xs, s, t, round, run, holds => by
    obtain ⟨first, rest⟩ := forall_mem_cons.mp round
    obtain ⟨mid, step, steps⟩ := Option.bind_eq_some_iff.mp run
    exact foldlM_keeps inv rest steps (first s mid step holds)

/-- A goal that one round reaches from anywhere and every round keeps is reached by the loop. -/
theorem foldlM_reaches (goal : σ → Prop) {x : α} :
    ∀ {xs : List α} {s t : σ}, (∀ y ∈ xs, ∀ s t, f s y = some t → goal s → goal t) →
      (∀ s t, f s x = some t → goal t) → x ∈ xs → xs.foldlM f s = some t → goal t
  | y :: xs, s, t, round, reach, mem, run => by
    obtain ⟨-, rest⟩ := forall_mem_cons.mp round
    obtain ⟨mid, step, steps⟩ := Option.bind_eq_some_iff.mp run
    rcases mem_cons.mp mem with rfl | mem
    · exact foldlM_keeps goal rest steps (reach s mid step)
    · exact foldlM_reaches goal rest reach mem steps

end Fugue.Lib
