import Fugue.Il.Common.Pool

/-!
# Tables from rows

`IlCsr::try_from_rows` and `from_rows` (`fugue-core/src/il/common/pool.rs`): a table that is given
row by row, with the running count of its entries checked against `u32`. It is made exactly when a
`u32` counts all entries, and has the given rows.
-/

namespace Fugue.Il

open List Option

namespace IlCsr

variable {α : Type}

/-- `IlCsr::try_from_rows` (`pool.rs:378-395`). -/
def tryFromRows (rows : List (List α)) : Except IlError (IlCsr α) :=
  rows.foldlM (fun csr row =>
    if (csr.values ++ row).length ≤ u32Max then
      .ok ⟨csr.offsets ++ [(csr.values ++ row).length], csr.values ++ row⟩
    else .error (.integerOverflow "CSR entry count")) default

/-- `IlCsr::from_rows` (`pool.rs:397-403`): the `expect` on a table that does not fit. -/
def fromRows (rows : List (List α)) : Option (IlCsr α) := (tryFromRows rows).toOption

def ofRows (rows : List (List α)) : IlCsr α :=
  ⟨(List.range (rows.length + 1)).map fun i => (rows.take i).flatten.length, rows.flatten⟩

theorem ofRows_concat (rows : List (List α)) (row : List α) :
    ofRows (rows ++ [row]) =
      ⟨(ofRows rows).offsets ++ [(rows.flatten ++ row).length], rows.flatten ++ row⟩ := by
  unfold ofRows
  have whole : (rows ++ [row]).take (rows.length + 1) = rows ++ [row] :=
    take_of_length_le (by simp)
  rw [length_append, length_singleton, range_succ, map_append,
    map_singleton, whole, flatten_append, flatten_singleton]
  congr 2
  refine map_congr_left fun i mem => ?_
  rw [take_append_of_le_length (Nat.lt_succ_iff.mp (mem_range.mp mem))]

/-- The table is made if and only if a `u32` counts its entries. -/
theorem fromRows_eq (rows : List (List α)) :
    fromRows rows = if rows.flatten.length ≤ u32Max then some (ofRows rows) else none := by
  have general : ∀ (rest done : List (List α)), rest.foldlM (fun csr row =>
      if (csr.values ++ row).length ≤ u32Max then
        Except.ok (IlCsr.mk (csr.offsets ++ [(csr.values ++ row).length]) (csr.values ++ row))
      else .error (IlError.integerOverflow "CSR entry count")) (ofRows done) =
      if (done ++ rest).flatten.length ≤ u32Max ∨ rest = [] then .ok (ofRows (done ++ rest))
      else .error (IlError.integerOverflow "CSR entry count") := by
    intro rest
    induction rest with
    | nil =>
      simp [pure, Except.pure]
    | cons row rest ih =>
      intro done
      rw [foldlM_cons]
      have values : (ofRows done).values = done.flatten := rfl
      have total : (done ++ row :: rest).flatten.length =
          (done.flatten ++ row).length + rest.flatten.length := by
        simp [add_assoc]
      rw [values]
      by_cases small : (done.flatten ++ row).length ≤ u32Max
      · rw [if_pos small]
        have step := ih (done ++ [row])
        rw [ofRows_concat, append_assoc, singleton_append] at step
        apply step.trans
        by_cases last : rest = []
        · subst last
          rw [if_pos (.inr rfl), if_pos (.inl (by rw [total]; simpa using small))]
        · simp [last]
      · rw [if_neg small, if_neg]
        · rfl
        · rintro (fits | impossible)
          · omega
          · cases impossible
  unfold fromRows tryFromRows
  have run := general rows []
  have start : (default : IlCsr α) = ofRows [] := rfl
  rw [start, run, nil_append]
  by_cases empty : rows = []
  · subst empty
    rfl
  · simp only [empty, or_false]
    split <;> rfl

theorem ofRows_checkedRow (rows : List (List α)) (i : Nat) :
    (ofRows rows).checkedRow i = rows[i]? := by
  unfold checkedRow ofRows
  simp only [getElem?_map, bind_eq_bind]
  by_cases lt : i < rows.length
  · rw [getElem?_range (by omega), getElem?_range (by omega)]
    simp only [map_some, bind_some]
    unfold IlIndexRange.slice
    have split : rows.flatten = (rows.take i).flatten ++ (rows[i] ++ (rows.drop (i + 1)).flatten) := by
      conv_lhs => rw [← take_append_drop i rows, drop_eq_getElem_cons lt]
      rw [flatten_append, flatten_cons]
    have next : (rows.take (i + 1)).flatten.length = (rows.take i).flatten.length + rows[i].length := by
      rw [take_succ_eq_append_getElem lt, flatten_append, length_append]
      simp
    simp only [next]
    rw [split]
    simp
  · rw [getElem?_eq_none (not_lt.mp lt)]
    cases at_ : (List.range (rows.length + 1))[i]? with
    | none => rfl
    | some j =>
      have beyond : (List.range (rows.length + 1))[i + 1]? = none :=
        getElem?_eq_none (by simp; omega)
      rw [beyond]
      rfl

end IlCsr

end Fugue.Il
