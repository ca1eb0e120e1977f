import Fugue.Lib.Walk

/-!
# Dominance frontiers

The frontier of a node is where its dominance ends: the nodes that it does not strictly dominate,
one of whose predecessors it dominates. `inFrontier_iff` is the recursion along the dominator tree:
the frontier of a node comes from its own edges and from the frontiers of the nodes below it, without
the nodes that hang under it.
-/

namespace Fugue.Lib

universe u

variable {V : Type u} {edge : V → V → Prop} {entry d x y z : V}

/-- The dominance of `x` ends at `y`. -/
def InFrontier (edge : V → V → Prop) (entry x y : V) : Prop :=
  Reaches edge entry y ∧ (∃ p, Reaches edge entry p ∧ edge p y ∧ Dominates edge entry x p) ∧
    ¬ StrictlyDominates edge entry x y

theorem ImmediatelyDominates.dominates (h : ImmediatelyDominates edge entry x y) :
    Dominates edge entry x y := h.1.1

theorem StrictlyDominates.trans_dominates (h : StrictlyDominates edge entry x y)
    (below : Dominates edge entry y z) : StrictlyDominates edge entry x z := by
  refine ⟨h.1.trans below, ?_⟩
  rintro rfl
  exact h.2 (h.1.antisymm below)

/-- Below a strict dominator hangs a node that still dominates. -/
theorem exists_below (immediate : ∀ b, Reaches edge entry b → b ≠ entry →
      ∃ d, ImmediatelyDominates edge entry d b) {p : V} (strict : StrictlyDominates edge entry x p) :
    ∃ z, ImmediatelyDominates edge entry x z ∧ Dominates edge entry z p := by
  obtain ⟨walk, ends⟩ := strict.1.reaches
  -- climb from `p`; the walks to its dominators get shorter
  induction bound : walk.length using Nat.strong_induction_on generalizing p walk with
  | _ n ih =>
    have notEntry : p ≠ entry := by
      rintro rfl
      exact strict.2 strict.1.eq_entry
    obtain ⟨d, hang⟩ := immediate p strict.1.reaches notEntry
    by_cases same : x = d
    · subst same
      exact ⟨p, hang, .refl strict.1.reaches⟩
    · have above := hang.2 x strict same
      have mem := hang.dominates.2 walk ends
      obtain ⟨rest, rfl⟩ := ends.eq_cons
      obtain ⟨before, endsD, suffix⟩ := ends.upTo mem
      have shorter : before.length < n := by
        rcases List.suffix_cons_iff.mp suffix with rfl | within
        · obtain ⟨rest', eq⟩ := endsD.eq_cons
          exact absurd (List.cons.inj eq).1.symm hang.1.2
        · rw [← bound, List.length_cons]
          exact Nat.lt_succ_of_le within.length_le
      obtain ⟨z, child, below⟩ := ih before.length shorter ⟨above, same⟩ before endsD rfl
      exact ⟨z, child, below.trans hang.dominates⟩

theorem inFrontier_iff (immediate : ∀ b, Reaches edge entry b → b ≠ entry →
      ∃ d, ImmediatelyDominates edge entry d b) (reached : Reaches edge entry x) :
    InFrontier edge entry x y ↔ Reaches edge entry y ∧ ¬ ImmediatelyDominates edge entry x y ∧
      (edge x y ∨ ∃ z, ImmediatelyDominates edge entry x z ∧ InFrontier edge entry z y) := by
  constructor
  · rintro ⟨reachedY, ⟨p, reachedP, last, dominates⟩, notStrict⟩
    refine ⟨reachedY, fun hang => notStrict hang.1, ?_⟩
    by_cases same : x = p
    · exact .inl (same ▸ last)
    · obtain ⟨z, child, below⟩ := exists_below immediate ⟨dominates, same⟩
      refine .inr ⟨z, child, reachedY, ⟨p, reachedP, last, below⟩, fun strict => notStrict ?_⟩
      exact child.1.trans_dominates strict.1
  · rintro ⟨reachedY, notChild, local_ | ⟨z, child, -, ⟨p, reachedP, last, below⟩, notStrict⟩⟩
    · refine ⟨reachedY, ⟨x, reached, local_, .refl reached⟩, fun strict => notChild ⟨strict, ?_⟩⟩
      exact fun f strictF _ => strictF.1.of_edge strictF.2 reached local_
    · refine ⟨reachedY, ⟨p, reachedP, last, child.dominates.trans below⟩, fun strict => ?_⟩
      refine notChild ⟨strict, fun f strictF ne => ?_⟩
      -- `f` and `z` both dominate `p`, and `z` cannot come first
      have dominatesP := strictF.1.of_edge strictF.2 reachedP last
      have notSame : f ≠ z := by
        rintro rfl
        exact notStrict strictF
      rcases dominatesP.total below with above | above
      · exact child.2 f ⟨above, notSame⟩ ne
      · refine absurd ⟨above.trans strictF.1, ?_⟩ notStrict
        rintro rfl
        exact notSame (strictF.1.antisymm above)

end Fugue.Lib
