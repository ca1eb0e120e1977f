import Fugue.Lib.Partial
import Mathlib.Data.List.Nodup
import Mathlib.Data.Fintype.Card
import Mathlib.Tactic.Common

/-!
# Walks from an entry, and dominance

A flow graph is a relation `edge` on an arbitrary type with an `entry`. `IsWalk edge entry b walk`
says that `walk` lists a walk from `entry` to `b`, last node first, so that a walk grows by `cons`
and every argument about all walks is an induction on its last edge. `Dominates` is the usual
notion: every walk to the node passes through the dominator.
-/

namespace Fugue.Lib

open List

universe u

variable {V : Type u} {edge : V → V → Prop} {entry : V}

/-- `walk` is a walk from `entry` to the node, listed from its last node back to `entry`. -/
inductive IsWalk (edge : V → V → Prop) (entry : V) : V → List V → Prop
  | start : IsWalk edge entry entry [entry]
  | step {p b : V} {walk : List V} : IsWalk edge entry p walk → edge p b →
      IsWalk edge entry b (b :: walk)

/-- Some walk leads from `entry` to `b`. -/
def Reaches (edge : V → V → Prop) (entry b : V) : Prop := ∃ walk, IsWalk edge entry b walk

/-- Every walk from `entry` to `b`, of which there is one, passes through `d`. -/
def Dominates (edge : V → V → Prop) (entry d b : V) : Prop :=
  Reaches edge entry b ∧ ∀ walk, IsWalk edge entry b walk → d ∈ walk

/-- `d` dominates `b` and is another node. -/
def StrictlyDominates (edge : V → V → Prop) (entry d b : V) : Prop :=
  Dominates edge entry d b ∧ d ≠ b

/-- The strict dominator of `b` that every other strict dominator of `b` dominates. -/
def ImmediatelyDominates (edge : V → V → Prop) (entry d b : V) : Prop :=
  StrictlyDominates edge entry d b ∧
    ∀ e, StrictlyDominates edge entry e b → e ≠ d → Dominates edge entry e d

namespace IsWalk

variable {b x : V} {walk : List V}

section

variable (h : IsWalk edge entry b walk)
include h

theorem eq_cons : ∃ rest, walk = b :: rest := by
  cases h with
  | start => exact ⟨[], rfl⟩
  | step _ _ => exact ⟨_, rfl⟩

theorem target_mem : b ∈ walk := by
  obtain ⟨rest, rfl⟩ := h.eq_cons
  exact .head _

theorem entry_mem : entry ∈ walk := by
  induction h with
  | start => exact .head _
  | step _ _ ih => exact .tail _ ih

theorem upTo (mem : x ∈ walk) :
    ∃ before, IsWalk edge entry x before ∧ before <:+ walk := by
  induction h with
  | start =>
    obtain rfl := mem_singleton.mp mem
    exact ⟨_, .start, suffix_refl _⟩
  | @step p c rest prior last ih =>
    rcases mem_cons.mp mem with rfl | visited
    · exact ⟨_, .step prior last, suffix_refl _⟩
    · obtain ⟨before, reached, suffix⟩ := ih visited
      exact ⟨before, reached, suffix.trans (suffix_cons _ _)⟩

/-- The part of a walk up to one of its visits is a walk. -/
theorem of_suffix {rest : List V} (suffix : x :: rest <:+ walk) :
    IsWalk edge entry x (x :: rest) := by
  induction h with
  | start =>
    rcases suffix_cons_iff.mp suffix with eq | suffix
    · cases eq
      exact .start
    · exact absurd (suffix_nil.mp suffix) (by simp)
  | step prior last ih =>
    rcases suffix_cons_iff.mp suffix with eq | suffix
    · cases eq
      exact .step prior last
    · exact ih suffix

theorem reaches_of_mem (mem : x ∈ walk) :
    Reaches edge entry x := by
  obtain ⟨before, reached, -⟩ := h.upTo mem
  exact ⟨before, reached⟩

/-- Cutting out the loops leaves a walk that repeats no node and visits nothing new. -/
theorem exists_nodup :
    ∃ short, IsWalk edge entry b short ∧ short.Nodup ∧ short ⊆ walk := by
  induction h with
  | start => exact ⟨[entry], .start, nodup_singleton _, List.Subset.refl _⟩
  | @step p c rest _ last ih =>
    obtain ⟨short, reached, nodup, sub⟩ := ih
    by_cases visited : c ∈ short
    · obtain ⟨before, ends, suffix⟩ := reached.upTo visited
      refine ⟨before, ends, nodup.sublist suffix.sublist, ?_⟩
      intro y memY
      exact .tail _ (sub (suffix.subset memY))
    · refine ⟨c :: short, .step reached last, nodup_cons.mpr ⟨visited, nodup⟩, ?_⟩
      exact cons_subset_cons _ sub

end

end IsWalk

theorem reaches_entry : Reaches edge entry entry := ⟨_, .start⟩

theorem Reaches.step {p b : V} (h : Reaches edge entry p) (last : edge p b) :
    Reaches edge entry b := by
  obtain ⟨walk, reached⟩ := h
  exact ⟨_, reached.step last⟩

/-- A set that holds the entry and is closed under edges holds every node that is reached. -/
theorem Reaches.mem_of_closed {b : V} (h : Reaches edge entry b) {S : V → Prop}
    (start : S entry) (closed : ∀ p c, S p → edge p c → S c) : S b := by
  obtain ⟨walk, reached⟩ := h
  induction reached with
  | start => exact start
  | step _ last ih => exact closed _ _ ih last

namespace Dominates

variable {a b c d p : V}

theorem reaches (h : Dominates edge entry d b) : Reaches edge entry b := h.1

theorem reaches_left (h : Dominates edge entry d b) : Reaches edge entry d := by
  obtain ⟨walk, reached⟩ := h.1
  exact reached.reaches_of_mem (h.2 walk reached)

theorem refl (h : Reaches edge entry b) : Dominates edge entry b b :=
  ⟨h, fun _ reached => reached.target_mem⟩

theorem trans (hab : Dominates edge entry a b) (hbc : Dominates edge entry b c) :
    Dominates edge entry a c := by
  refine ⟨hbc.1, fun walk reached => ?_⟩
  obtain ⟨before, ends, suffix⟩ := reached.upTo (hbc.2 walk reached)
  exact suffix.subset (hab.2 before ends)

theorem eq_entry (h : Dominates edge entry d entry) : d = entry := by
  simpa using h.2 _ .start

/-- A strict dominator of a node dominates every predecessor that is reached. -/
theorem of_edge (h : Dominates edge entry d b) (ne : d ≠ b) (reached : Reaches edge entry p)
    (last : edge p b) : Dominates edge entry d p := by
  refine ⟨reached, fun walk ends => ?_⟩
  rcases mem_cons.mp (h.2 _ (ends.step last)) with rfl | visited
  · exact absurd rfl ne
  · exact visited

/-- Conversely, what dominates every predecessor that is reached dominates the node. -/
theorem of_predecessors (ne : b ≠ entry) (reached : Reaches edge entry b)
    (preds : ∀ p, Reaches edge entry p → edge p b → Dominates edge entry d p) :
    Dominates edge entry d b := by
  refine ⟨reached, fun walk ends => ?_⟩
  cases ends with
  | start => exact absurd rfl ne
  | step prior last =>
    exact .tail _ ((preds _ ⟨_, prior⟩ last).2 _ prior)

/-- Two dominators of one node are comparable. -/
theorem total (hac : Dominates edge entry a c) (hbc : Dominates edge entry b c) :
    Dominates edge entry a b ∨ Dominates edge entry b a := by
  by_contra apart
  obtain ⟨notAB, notBA⟩ := not_or.mp apart
  -- take a walk to `c`; after its last visit to `a` or `b` the other one is never met again,
  -- so a walk to that last one that misses the other gives a walk to `c` that misses it
  obtain ⟨walkB, endsB, missA⟩ : ∃ walk, IsWalk edge entry b walk ∧ a ∉ walk := by
    by_contra none
    exact notAB ⟨hbc.reaches_left, fun walk ends => by_contra fun miss => none ⟨walk, ends, miss⟩⟩
  obtain ⟨walkA, endsA, missB⟩ : ∃ walk, IsWalk edge entry a walk ∧ b ∉ walk := by
    by_contra none
    exact notBA ⟨hac.reaches_left, fun walk ends => by_contra fun miss => none ⟨walk, ends, miss⟩⟩
  have reroute : ∀ y walk, IsWalk edge entry y walk → ∃ walk', IsWalk edge entry y walk' ∧
      (a ∉ walk' ∨ b ∉ walk') := by
    intro y walk ends
    induction ends with
    | start =>
      refine ⟨_, .start, ?_⟩
      by_cases eq : a = entry
      · refine .inr fun memB => notAB ?_
        rw [mem_singleton.mp memB, eq]
        exact refl reaches_entry
      · exact .inl fun memA => eq (mem_singleton.mp memA)
    | @step p y _ _ last ih =>
      by_cases eqA : y = a
      · exact ⟨walkA, eqA ▸ endsA, .inr missB⟩
      by_cases eqB : y = b
      · exact ⟨walkB, eqB ▸ endsB, .inl missA⟩
      obtain ⟨walk', ends', miss⟩ := ih
      refine ⟨y :: walk', ends'.step last, ?_⟩
      rcases miss with miss | miss
      · exact .inl (by simp [miss, Ne.symm eqA])
      · exact .inr (by simp [miss, Ne.symm eqB])
  obtain ⟨walk, ends⟩ := hac.reaches
  obtain ⟨walk', ends', miss⟩ := reroute c walk ends
  rcases miss with miss | miss
  · exact miss (hac.2 _ ends')
  · exact miss (hbc.2 _ ends')

theorem antisymm (hab : Dominates edge entry a b) (hba : Dominates edge entry b a) : a = b := by
  obtain ⟨walk, ends⟩ := hab.reaches
  -- a shortest prefix argument: along a walk to `b` both nodes keep preceding each other
  have descend : ∀ n (walk : List V), walk.length ≤ n → ∀ x y, Dominates edge entry x y →
      Dominates edge entry y x → IsWalk edge entry y walk → x = y := by
    intro n
    induction n with
    | zero =>
      intro walk short x y _ _ ends
      obtain ⟨rest, rfl⟩ := ends.eq_cons
      simp at short
    | succ n ih =>
      intro walk short x y hxy hyx ends
      cases ends with
      | start => simpa using hxy.2 _ .start
      | @step p _ rest prior last =>
        by_cases eq : x = y
        · exact eq
        have memX : x ∈ rest := (mem_cons.mp (hxy.2 _ (prior.step last))).resolve_left eq
        obtain ⟨before, endsX, suffix⟩ := prior.upTo memX
        have shorter : before.length ≤ n :=
          le_trans suffix.length_le (by simpa using short)
        exact (ih before shorter y x hyx hxy endsX).symm
  exact descend walk.length walk le_rfl a b hab hba ends

end Dominates

/-- Dominance only has to be checked on walks that repeat no node. -/
theorem dominates_of_nodup {d b : V} (reached : Reaches edge entry b)
    (short : ∀ walk, IsWalk edge entry b walk → walk.Nodup → d ∈ walk) :
    Dominates edge entry d b := by
  refine ⟨reached, fun walk ends => ?_⟩
  obtain ⟨simple, ends', nodup, sub⟩ := ends.exists_nodup
  exact sub (short simple ends' nodup)

end Fugue.Lib
