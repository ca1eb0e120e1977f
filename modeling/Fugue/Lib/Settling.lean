import Mathlib.Data.Finset.Basic
import Mathlib.Data.Multiset.DershowitzManna

/-!
# Settling one element after the other

A worklist recomputes what is not settled. Settling one element may unsettle others, but only some
of a lower level: then the multiset of the levels that are not settled goes down in the order of
Dershowitz and Manna, which is well-founded.
-/

namespace Fugue.Lib

open Finset

variable {α : Type*} [DecidableEq α]

/-- An element of `before` is gone, and what is new lies on lower levels. -/
theorem settled_lt (level : α → ℕ) {before after : Finset α} {a : α} (mem : a ∈ before)
    (gone : a ∉ after) (lower : ∀ b ∈ after, b ∉ before → level b < level a) :
    (after.val.map level).IsDershowitzMannaLT (before.val.map level) := by
  refine ⟨(after.filter (· ∈ before)).val.map level, (after.filter (· ∉ before)).val.map level,
    (before.filter (· ∉ after)).val.map level, ?_, ?_, ?_, ?_⟩
  · have here : a ∈ before.filter (· ∉ after) := mem_filter.mpr ⟨mem, gone⟩
    have image := Multiset.mem_map_of_mem level here
    intro empty
    rw [empty] at image
    exact Multiset.notMem_zero _ image
  · rw [← Multiset.map_add, filter_val, filter_val, Multiset.filter_add_not]
  · have common : after.filter (· ∈ before) = before.filter (· ∈ after) := by
      ext b
      rw [mem_filter, mem_filter, and_comm]
    rw [common, ← Multiset.map_add, filter_val, filter_val, Multiset.filter_add_not]
  · intro y memY
    obtain ⟨b, memB, rfl⟩ := Multiset.mem_map.mp memY
    obtain ⟨inAfter, new⟩ := mem_filter.mp memB
    exact ⟨level a, Multiset.mem_map_of_mem level (mem_filter.mpr ⟨mem, gone⟩), lower b inAfter new⟩

end Fugue.Lib
