import Fugue.Lib.Walk
import Mathlib.Data.List.Infix

/-!
# Flow orders

What the solver of dominators needs of a reverse postorder: it lists the reached nodes once each,
and every node but the entry has a predecessor in front of it. `Finishes` is the same requirement
on the list of nodes in the order in which a depth-first search finishes them, phrased so that it
is kept when a node that has just been entered is put in front of the nodes still open.
-/

namespace Fugue.Lib

open List

universe u

variable {V : Type u} {edge : V → V → Prop} {entry : V}

/-- Every node of the list but the entry has a predecessor further on in it. -/
def Finishes (edge : V → V → Prop) (entry : V) : List V → Prop
  | [] => True
  | b :: later => (b = entry ∨ ∃ p ∈ later, edge p b) ∧ Finishes edge entry later

/-- A node entered from an open node goes in front of the open nodes. -/
theorem Finishes.insert {x : V} {unfinished : List V}
    (entered : x = entry ∨ ∃ p ∈ unfinished, edge p x) :
    ∀ done : List V, Finishes edge entry (done ++ unfinished) →
      Finishes edge entry (done ++ x :: unfinished)
  | [], h => ⟨entered, h⟩
  | b :: done, h => by
    refine ⟨?_, Finishes.insert entered done h.2⟩
    rcases h.1 with eq | ⟨p, mem, last⟩
    · exact .inl eq
    · refine .inr ⟨p, ?_, last⟩
      rcases mem_append.mp mem with finished | isOpen
      · exact mem_append_left _ finished
      · exact mem_append_right _ (.tail _ isOpen)

theorem Finishes.of_append {later : List V} :
    ∀ done : List V, Finishes edge entry (done ++ later) → Finishes edge entry later
  | [], h => h
  | _ :: done, h => Finishes.of_append done h.2

variable [DecidableEq V]

/-- The order lists the reached nodes, once each, and every one of them but the entry after one
of its predecessors. -/
structure IsFlowOrder (edge : V → V → Prop) (entry : V) (order : List V) : Prop where
  nodup : order.Nodup
  mem_iff : ∀ b, b ∈ order ↔ Reaches edge entry b
  earlier : ∀ b ∈ order, b ≠ entry →
    ∃ p ∈ order, edge p b ∧ order.idxOf p < order.idxOf b

theorem idxOf_append_cons {α : Type u} [BEq α] [LawfulBEq α] {before after : List α} {b : α}
    (nodup : (before ++ b :: after).Nodup) :
    (before ++ b :: after).idxOf b = before.length := by
  have notMem : b ∉ before := by
    intro mem
    exact (nodup_append.mp nodup).2.2 b mem b (.head _) rfl
  rw [idxOf_append_of_notMem notMem, idxOf_cons_self, Nat.add_zero]

theorem Finishes.isFlowOrder {finished : List V} (h : Finishes edge entry finished)
    (nodup : finished.Nodup) (mem_iff : ∀ b, b ∈ finished ↔ Reaches edge entry b) :
    IsFlowOrder edge entry finished.reverse where
  nodup := nodup_reverse.mpr nodup
  mem_iff b := by rw [mem_reverse, mem_iff]
  earlier b mem ne := by
    rw [mem_reverse] at mem
    obtain ⟨done, later, rfl⟩ := append_of_mem mem
    obtain ⟨p, pMem, last⟩ := (h.of_append done).1.resolve_left ne
    refine ⟨p, by simp [pMem], last, ?_⟩
    have split : (done ++ b :: later).reverse = later.reverse ++ b :: done.reverse := by simp
    have nodup' := nodup_reverse.mpr nodup
    rw [split] at nodup' ⊢
    rw [idxOf_append_cons nodup', idxOf_append_of_mem (by simpa using pMem)]
    exact idxOf_lt_length_of_mem (by simpa using pMem)

namespace IsFlowOrder

variable {order : List V}

theorem eq_cons (h : IsFlowOrder edge entry order) : ∃ rest, order = entry :: rest := by
  cases order with
  | nil => exact absurd ((h.mem_iff entry).mpr reaches_entry) (by simp)
  | cons b rest =>
    by_cases eq : b = entry
    · exact ⟨rest, by rw [eq]⟩
    · obtain ⟨p, -, -, lt⟩ := h.earlier b (.head _) eq
      simp at lt

theorem idxOf_entry (h : IsFlowOrder edge entry order) : order.idxOf entry = 0 := by
  obtain ⟨rest, rfl⟩ := h.eq_cons
  simp

end IsFlowOrder

end Fugue.Lib
