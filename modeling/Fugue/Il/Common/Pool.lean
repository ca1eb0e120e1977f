import Fugue.Il.Common.Id

/-!
# Index ranges and compressed rows

`fugue-core/src/il/common/pool.rs`: `IlIndexRange` and `IlCsr`. A compressed sparse row table is
filled by a counting sort: row lengths, then prefix sums, then one cursor for each row.
`tryFromEntries_row` is its specification: a row lists the values entered for it, in entry order.
-/

namespace Fugue.Il

open List

/-- `IlIndexRange` (`pool.rs:4-11`), a half-open range of `u32` indices. -/
structure IlIndexRange where
  start : Nat
  stop : Nat
  deriving DecidableEq, Repr

namespace IlIndexRange

variable {α : Type}

/-- `IlIndexRange::EMPTY`. -/
def empty : IlIndexRange := ⟨0, 0⟩

/-- `IlIndexRange::new` (`pool.rs:16-25`). -/
def new (start stop : Nat) : Except IlError IlIndexRange :=
  if start > stop then .error (.reversedRange start stop)
  else if start > u32Max then .error (.integerOverflow "range start")
  else if stop > u32Max then .error (.integerOverflow "range end")
  else .ok ⟨start, stop⟩

variable (range : IlIndexRange)

def len : Nat := range.stop - range.start

def isEmpty : Bool := range.start == range.stop

def containsIndex (index : Nat) : Bool :=
  decide (range.start ≤ index) && decide (index < range.stop)

/-- `IlIndexRange::slice` (`pool.rs:52-54`) on a range that lies within the pool. -/
def slice (values : List α) : List α :=
  (values.drop range.start).take (range.stop - range.start)

/-- `IlIndexRange::verify_bounds` (`pool.rs:56-66`). -/
def verifyBounds (len : Nat) : Except IlError Unit :=
  if range.start > range.stop then .error (.reversedRange range.start range.stop)
  else if range.stop > len then .error (.rangeOutOfBounds range.stop len)
  else .ok ()

/-- `IlIndexRange::checked_slice` (`pool.rs:47-50`). -/
def checkedSlice (values : List α) : Except IlError (List α) := do
  range.verifyBounds values.length
  return range.slice values

variable {range : IlIndexRange}

theorem new_eq_ok {start stop : Nat} :
    new start stop = .ok range ↔ start ≤ stop ∧ stop ≤ u32Max ∧ range = ⟨start, stop⟩ := by
  unfold new
  split
  · simp only [reduceCtorEq, false_iff]; omega
  · split
    · simp only [reduceCtorEq, false_iff]; omega
    · split
      · simp only [reduceCtorEq, false_iff]; omega
      · rw [Except.ok.injEq]
        constructor
        · intro eq
          exact ⟨by omega, by omega, eq.symm⟩
        · intro ⟨_, _, eq⟩
          exact eq.symm

theorem verifyBounds_eq_ok {len : Nat} :
    range.verifyBounds len = .ok () ↔ range.start ≤ range.stop ∧ range.stop ≤ len := by
  unfold verifyBounds
  split
  · simp only [reduceCtorEq, false_iff]; omega
  · split
    · simp only [reduceCtorEq, false_iff]; omega
    · simp only [true_iff]; omega

theorem checkedSlice_eq_ok {values slice : List α} :
    range.checkedSlice values = .ok slice ↔
      (range.start ≤ range.stop ∧ range.stop ≤ values.length) ∧ slice = range.slice values := by
  rw [← verifyBounds_eq_ok, checkedSlice]
  cases range.verifyBounds values.length with
  | error e => simp [bind, Except.bind]
  | ok _ => simp [bind, Except.bind, pure, Except.pure, eq_comm]

theorem length_slice {values : List α}
    (within : range.stop ≤ values.length) : (range.slice values).length = range.len := by
  simp only [slice, len, length_take, length_drop]
  omega

theorem getElem?_slice (values : List α) (k : Nat) :
    (range.slice values)[k]? =
      if k < range.stop - range.start then values[range.start + k]? else none := by
  unfold slice
  by_cases lt : k < range.stop - range.start
  · rw [getElem?_take_of_lt lt, getElem?_drop, if_pos lt]
  · rw [if_neg lt, getElem?_take_eq_none (by omega)]

/-- Ranges one after another, between two bounds. -/
def Ascending : Nat → List IlIndexRange → Nat → Prop
  | low, [], high => low ≤ high
  | low, range :: ranges, high =>
    low ≤ range.start ∧ range.start ≤ range.stop ∧ Ascending range.stop ranges high

namespace Ascending

theorem le : ∀ {ranges : List IlIndexRange} {low high : Nat}, Ascending low ranges high →
    low ≤ high
  | [], _, _, h => h
  | _ :: _, _, _, ⟨start, ordered, rest⟩ => start.trans (ordered.trans rest.le)

theorem mono : ∀ {ranges : List IlIndexRange} {low high higher : Nat},
    Ascending low ranges high → high ≤ higher → Ascending low ranges higher
  | [], _, _, _, h, le => le_trans h le
  | _ :: _, _, _, _, ⟨start, ordered, rest⟩, le => ⟨start, ordered, rest.mono le⟩

/-- A range that starts at the upper bound can follow. -/
theorem concat : ∀ {ranges : List IlIndexRange} {low high : Nat} {next : IlIndexRange},
    Ascending low ranges high → high ≤ next.start → next.start ≤ next.stop →
    Ascending low (ranges ++ [next]) next.stop
  | [], _, _, _, h, start, ordered => ⟨le_trans h start, ordered, le_refl _⟩
  | _ :: _, _, _, _, ⟨first, within, rest⟩, start, ordered =>
    ⟨first, within, rest.concat start ordered⟩

theorem sum_len_le : ∀ {ranges : List IlIndexRange} {low high : Nat}, Ascending low ranges high →
    low + (ranges.map len).sum ≤ high
  | [], _, _, h => h
  | range :: ranges, low, high, ⟨start, ordered, rest⟩ => by
    have := rest.sum_len_le
    simp only [map_cons, sum_cons, len] at *
    omega

theorem lower : ∀ {ranges : List IlIndexRange} {low lower high : Nat},
    Ascending low ranges high → lower ≤ low → Ascending lower ranges high
  | [], _, _, _, h, le => le_trans le h
  | _ :: _, _, _, _, ⟨start, ordered, rest⟩, le => ⟨le_trans le start, ordered, rest⟩

theorem sublist {ranges others : List IlIndexRange} (sub : others.Sublist ranges) :
    ∀ {low high : Nat}, Ascending low ranges high → Ascending low others high := by
  induction sub with
  | slnil => exact fun h => h
  | cons range _ ih =>
    intro low high ⟨start, ordered, rest⟩
    exact (ih rest).lower (start.trans ordered)
  | cons_cons range _ ih =>
    intro low high ⟨start, ordered, rest⟩
    exact ⟨start, ordered, ih rest⟩

theorem start_ge : ∀ {ranges : List IlIndexRange} {low high : Nat}, Ascending low ranges high →
    ∀ range ∈ ranges, low ≤ range.start
  | first :: ranges, low, high, ⟨start, ordered, rest⟩, range, mem => by
    rcases mem_cons.mp mem with eq | inRest
    · rw [eq]
      exact start
    · exact start.trans (ordered.trans (rest.start_ge range inRest))

theorem pairwise : ∀ {ranges : List IlIndexRange} {low high : Nat}, Ascending low ranges high →
    ranges.Pairwise fun a b => a.stop ≤ b.start
  | [], _, _, _ => .nil
  | _ :: _, _, _, ⟨_, _, rest⟩ => pairwise_cons.mpr ⟨rest.start_ge, rest.pairwise⟩

end Ascending

end IlIndexRange

/-- `IlCsr` (`pool.rs:363-366`): row `i` is `values[offsets[i]..offsets[i + 1]]`. -/
structure IlCsr (α : Type) where
  offsets : List Nat
  values : List α
  deriving DecidableEq, Repr

namespace IlCsr

variable {α : Type}

/-- `IlCsr::default`. -/
def default : IlCsr α := ⟨[0], []⟩

def len (csr : IlCsr α) : Nat := csr.offsets.length - 1

/-- `IlCsr::checked_row` (`pool.rs:413-418`). -/
def checkedRow (csr : IlCsr α) (index : Nat) : Option (List α) := do
  let start ← csr.offsets[index]?
  let stop ← csr.offsets[index + 1]?
  return (IlIndexRange.mk start stop).slice csr.values

/-- `IlCsr::row` (`pool.rs:420-425`) of a row of the table. -/
def row (csr : IlCsr α) (index : Nat) : List α := (csr.checkedRow index).getD []

/-- The first pass of `IlCsr::try_from_entries` (`pool.rs:446-458`): count the entries of a row
one slot above it. -/
def countRows (offsets : List Nat) : List (Nat × α) → Except IlError (List Nat)
  | [] => .ok offsets
  | (row, _) :: rest =>
    match offsets[row + 1]? with
    | none => .error (.rangeOutOfBounds (row + 1) offsets.length)
    | some count =>
      if count + 1 > u32Max then .error (.integerOverflow "CSR row length")
      else countRows (offsets.set (row + 1) (count + 1)) rest

/-- The second pass (`pool.rs:460-464`): the prefix sums of the counts. -/
def sumOffsets (previous : Nat) : List Nat → Except IlError (List Nat)
  | [] => .ok []
  | count :: rest =>
    if count + previous > u32Max then .error (.integerOverflow "CSR entry count")
    else do
      let sums ← sumOffsets (count + previous) rest
      return (count + previous) :: sums

/-- The third pass (`pool.rs:470-474`): drop every value at the cursor of its row. -/
def fillRows (cursor : List Nat) (values : List α) : List (Nat × α) → List α
  | [] => values
  | (row, value) :: rest =>
    let index := cursor.getD row 0
    fillRows (cursor.set row (index + 1)) (values.set index value) rest

/-- `IlCsr::try_from_entries` (`pool.rs:429-477`). -/
def tryFromEntries (rowCount : Nat) (entries : List (Nat × α)) : Except IlError (IlCsr α) :=
  let offsets := List.replicate (rowCount + 1) 0
  match entries with
  | [] => .ok ⟨offsets, []⟩
  | (_, fill) :: _ => do
    let counts ← countRows offsets entries
    let sums ← sumOffsets (counts.getD 0 0) (counts.drop 1)
    let offsets := counts.getD 0 0 :: sums
    let valueCount := offsets.getLastD 0
    return ⟨offsets, fillRows offsets (List.replicate valueCount fill) entries⟩

/-! ## The counting sort -/

section Spec

variable (entries : List (Nat × α))

/-- The values entered for a row, in entry order. -/
def rowOf (row : Nat) : List α := (entries.filter (fun entry => entry.1 == row)).map Prod.snd

/-- The number of entries of the rows below `row`: where the row starts. -/
def offsetOf (row : Nat) : Nat := entries.countP (fun entry => decide (entry.1 < row))

variable {entries}

theorem length_rowOf (row : Nat) :
    (rowOf entries row).length = entries.countP (fun entry => entry.1 == row) := by
  simp [rowOf, countP_eq_length_filter]

theorem rowOf_append (left right : List (Nat × α)) (row : Nat) :
    rowOf (left ++ right) row = rowOf left row ++ rowOf right row := by
  simp [rowOf]

theorem mem_rowOf {row : Nat} {value : α} :
    value ∈ rowOf entries row ↔ (row, value) ∈ entries := by
  simp only [rowOf, mem_map, mem_filter, beq_iff_eq]
  constructor
  · rintro ⟨⟨r, v⟩, ⟨mem, rfl⟩, rfl⟩
    exact mem
  · intro mem
    exact ⟨(row, value), ⟨mem, rfl⟩, rfl⟩

theorem offsetOf_succ (row : Nat) :
    offsetOf entries (row + 1) = offsetOf entries row + (rowOf entries row).length := by
  rw [length_rowOf]
  unfold offsetOf
  induction entries with
  | nil => rfl
  | cons entry rest ih =>
    simp only [countP_cons, ih]
    rcases lt_trichotomy entry.1 row with lt | eq | gt
    · simp [lt, Nat.lt_succ_of_lt lt, ne_of_lt lt]; omega
    · simp [eq]; omega
    · have notLt : ¬ entry.1 < row + 1 := by omega
      simp [notLt, Nat.not_lt_of_lt gt, ne_of_gt gt]

theorem offsetOf_mono {low high : Nat} (le : low ≤ high) :
    offsetOf entries low ≤ offsetOf entries high := by
  apply countP_mono_left
  intro entry _ lt
  simp only [decide_eq_true_eq] at lt ⊢
  omega

theorem offsetOf_zero : offsetOf entries 0 = 0 := by simp [offsetOf]

theorem offsetOf_eq_length {rowCount : Nat} (rows : ∀ entry ∈ entries, entry.1 < rowCount) :
    offsetOf entries rowCount = entries.length := by
  unfold offsetOf
  rw [countP_eq_length]
  intro entry mem
  simpa using rows entry mem

theorem offsetOf_le_length (row : Nat) : offsetOf entries row ≤ entries.length :=
  countP_le_length

theorem countRows_eq_ok : ∀ (entries : List (Nat × α)) (offsets counts : List Nat),
    countRows offsets entries = .ok counts → counts.length = offsets.length ∧
      ∀ i, counts.getD i 0 =
        offsets.getD i 0 + entries.countP (fun entry => entry.1 + 1 == i)
  | [], offsets, counts, run => by
    obtain rfl := Except.ok.inj run
    exact ⟨rfl, by simp⟩
  | (row, value) :: rest, offsets, counts, run => by
    simp only [countRows] at run
    split at run
    · exact absurd run (by simp)
    · rename_i count found
      split at run
      · exact absurd run (by simp)
      · obtain ⟨inside, rfl⟩ := List.getElem?_eq_some_iff.mp found
        obtain ⟨length, sums⟩ := countRows_eq_ok rest _ _ run
        refine ⟨by simpa using length, fun i => ?_⟩
        rw [sums i, countP_cons]
        by_cases eq : row + 1 = i
        · subst eq
          simp [getD_eq_getElem?_getD, inside]
          omega
        · simp [getD_eq_getElem?_getD, eq]

theorem countRows_isOk : ∀ (entries : List (Nat × α)) (offsets : List Nat),
    (∀ entry ∈ entries, entry.1 + 1 < offsets.length) →
    (∀ count ∈ offsets, count + entries.length ≤ u32Max) →
    ∃ counts, countRows offsets entries = .ok counts
  | [], offsets, _, _ => ⟨offsets, rfl⟩
  | (row, value) :: rest, offsets, rows, small => by
    have inside : row + 1 < offsets.length := rows _ (.head _)
    have fits := small offsets[row + 1] (getElem_mem inside)
    simp only [length_cons] at fits
    obtain ⟨counts, run⟩ := countRows_isOk rest
      (offsets.set (row + 1) (offsets[row + 1] + 1))
      (fun entry mem => by simpa using rows entry (.tail _ mem))
      (fun count mem => by
        rcases mem_or_eq_of_mem_set mem with old | rfl
        · have := small count old
          simp only [length_cons] at this
          omega
        · omega)
    have noOverflow : ¬ offsets[row + 1] + 1 > u32Max := by omega
    refine ⟨counts, ?_⟩
    simp only [countRows, getElem?_eq_getElem inside]
    rw [if_neg noOverflow, run]

theorem sum_take_counts {counts : List Nat}
    (counted : ∀ i, counts.getD i 0 = entries.countP (fun entry => entry.1 + 1 == i)) :
    ∀ i, (counts.take (i + 1)).sum = offsetOf entries i
  | 0 => by
    have first := counted 0
    rw [offsetOf_zero]
    cases counts with
    | nil => rfl
    | cons count rest => simpa using first
  | i + 1 => by
    have entered : (counts[i + 1]?).getD 0 = (rowOf entries i).length := by
      rw [← getD_eq_getElem?_getD, counted (i + 1), length_rowOf]
      simp
    rw [take_add_one, sum_append, sum_take_counts counted i, offsetOf_succ, ← entered]
    cases counts[i + 1]? <;> simp

theorem sumOffsets_ok : ∀ (counts : List Nat) (previous : Nat),
    previous + counts.sum ≤ u32Max →
    ∃ sums, sumOffsets previous counts = .ok sums ∧ sums.length = counts.length ∧
      ∀ i < counts.length, sums.getD i 0 = previous + (counts.take (i + 1)).sum
  | [], previous, _ => ⟨[], rfl, rfl, by simp⟩
  | count :: rest, previous, small => by
    simp only [sum_cons] at small
    obtain ⟨sums, run, length, values⟩ := sumOffsets_ok rest (count + previous) (by omega)
    have noOverflow : ¬ count + previous > u32Max := by omega
    refine ⟨(count + previous) :: sums, ?_, by simp [length], ?_⟩
    · rw [sumOffsets, if_neg noOverflow, run]
      rfl
    · intro i lt
      cases i with
      | zero => simp; omega
      | succ i =>
        have := values i (by simpa using lt)
        simp only [getD_cons_succ, take_succ_cons, sum_cons, this]
        omega

theorem sumOffsets_overflow : ∀ (counts : List Nat) (previous : Nat),
    u32Max < previous + counts.sum → previous ≤ u32Max →
    ∃ error, sumOffsets previous counts = .error error
  | [], previous, large, small => by simp at large; omega
  | count :: rest, previous, large, small => by
    simp only [sum_cons] at large
    by_cases large' : count + previous > u32Max
    · exact ⟨_, by rw [sumOffsets, if_pos large']⟩
    · obtain ⟨error, run⟩ := sumOffsets_overflow rest (count + previous) (by omega) (by omega)
      exact ⟨error, by rw [sumOffsets, if_neg large', run]; rfl⟩

theorem fillRows_getElem? {rowCount : Nat} (rows : ∀ entry ∈ entries, entry.1 < rowCount) :
    ∀ (rest done : List (Nat × α)) (cursor : List Nat) (values : List α),
      done ++ rest = entries → rowCount ≤ cursor.length → values.length = entries.length →
      (∀ row < rowCount, cursor.getD row 0 = offsetOf entries row + (rowOf done row).length) →
      (∀ row k value, (rowOf done row)[k]? = some value →
        values[offsetOf entries row + k]? = some value) →
      (fillRows cursor values rest).length = entries.length ∧
      ∀ row k value, (rowOf entries row)[k]? = some value →
        (fillRows cursor values rest)[offsetOf entries row + k]? = some value
  | [], done, cursor, values, split, _, length, _, placed => by
    rw [append_nil] at split
    subst split
    exact ⟨length, placed⟩
  | (row, value) :: rest, done, cursor, values, split, wide, length, at_, placed => by
    have inside : row < rowCount := rows (row, value) (by rw [← split]; simp)
    -- the entries of `row` that are done, this one, and those to come make up the row
    have fits : ∀ r, (rowOf done r).length + (if row = r then 1 else 0) ≤
        (rowOf entries r).length := by
      intro r
      rw [← split, rowOf_append]
      by_cases eq : row = r
      · subst eq; simp [rowOf]
      · simp [eq]
    have index : cursor.getD row 0 = offsetOf entries row + (rowOf done row).length :=
      at_ row inside
    have bound : offsetOf entries row + (rowOf done row).length < values.length := by
      have := fits row
      rw [if_pos rfl] at this
      have next : offsetOf entries (row + 1) = _ := offsetOf_succ row
      have : offsetOf entries (row + 1) ≤ _ := offsetOf_le_length (row + 1)
      omega
    have rec_ := fillRows_getElem? rows rest (done ++ [(row, value)])
      (cursor.set row (cursor.getD row 0 + 1)) (values.set (cursor.getD row 0) value)
      (by simpa using split) (by simpa using wide) (by simpa using length) ?_ ?_
    · simpa only [fillRows] using rec_
    · intro r below
      by_cases eq : row = r
      · subst eq
        have : row < cursor.length := by omega
        simp [getD_eq_getElem?_getD, this, rowOf] at index ⊢
        omega
      · simpa [getD_eq_getElem?_getD, eq, rowOf] using at_ r below
    · intro r k v found
      rw [rowOf_append] at found
      rw [index]
      by_cases eq : row = r
      · subst eq
        by_cases new : k < (rowOf done row).length
        · rw [getElem?_append_left new] at found
          rw [getElem?_set_ne (by omega)]
          exact placed row k v found
        · have single : rowOf [(row, value)] row = [value] := by simp [rowOf]
          rw [single] at found
          obtain ⟨lt, rfl⟩ := List.getElem?_eq_some_iff.mp found
          have last : k = (rowOf done row).length := by simp at lt; omega
          subst last
          simp [bound]
      · have none : rowOf [(row, value)] r = [] := by simp [rowOf, eq]
        rw [none, append_nil] at found
        have lt : k < (rowOf done r).length := (List.getElem?_eq_some_iff.mp found).1
        have mine := fits row
        have other := fits r
        rw [if_pos rfl] at mine
        have apart : offsetOf entries row + (rowOf done row).length ≠ offsetOf entries r + k := by
          rcases Nat.lt_or_gt_of_ne eq with below | above
          · have : offsetOf entries (row + 1) ≤ offsetOf entries r := offsetOf_mono (by omega)
            rw [offsetOf_succ] at this
            omega
          · have : offsetOf entries (r + 1) ≤ offsetOf entries row := offsetOf_mono (by omega)
            rw [offsetOf_succ] at this
            omega
        rw [getElem?_set_ne apart]
        exact placed r k v found

end Spec

/-- What a table of `entries` has to look like. -/
structure Holds (csr : IlCsr α) (rowCount : Nat) (entries : List (Nat × α)) : Prop where
  length : csr.offsets.length = rowCount + 1
  row : ∀ i < rowCount, csr.checkedRow i = some (rowOf entries i)

variable {entries : List (Nat × α)} {rowCount : Nat}

theorem Holds.row_eq {csr : IlCsr α}
    (h : csr.Holds rowCount entries) {i : Nat} (lt : i < rowCount) :
    csr.row i = rowOf entries i := by simp [IlCsr.row, h.row i lt]

theorem Holds.checkedRow_getD {csr : IlCsr α}
    (h : csr.Holds rowCount entries) (rows : ∀ entry ∈ entries, entry.1 < rowCount) (i : Nat) :
    (csr.checkedRow i).getD [] = rowOf entries i := by
  by_cases lt : i < rowCount
  · rw [h.row i lt, Option.getD_some]
  · have none : csr.checkedRow i = none := by
      have : csr.offsets[i + 1]? = none := by rw [List.getElem?_eq_none_iff, h.length]; omega
      simp [checkedRow, this]
    have empty : rowOf entries i = [] := by
      simp only [rowOf, map_eq_nil_iff, filter_eq_nil_iff, beq_iff_eq]
      intro entry mem eq
      exact lt (eq ▸ rows entry mem)
    rw [none, empty, Option.getD_none]

theorem tryFromEntries_cons (rowCount : Nat) (first : Nat × α) (rest : List (Nat × α)) :
    tryFromEntries rowCount (first :: rest) = (do
      let counts ← countRows (List.replicate (rowCount + 1) 0) (first :: rest)
      let sums ← sumOffsets (counts.getD 0 0) (counts.drop 1)
      let offsets := counts.getD 0 0 :: sums
      return ⟨offsets, fillRows offsets (List.replicate (offsets.getLastD 0) first.2)
        (first :: rest)⟩) := rfl

variable (rows : ∀ entry ∈ entries, entry.1 < rowCount)
include rows

/-- The counting sort succeeds whenever the rows exist and a `u32` can count the entries, and
then every row lists its own entries in order. -/
theorem tryFromEntries_ok (small : entries.length ≤ u32Max) :
    ∃ csr, tryFromEntries rowCount entries = .ok csr ∧ csr.Holds rowCount entries := by
  cases entries with
  | nil =>
    refine ⟨_, rfl, by simp, fun i lt => ?_⟩
    simp [checkedRow, show i < rowCount + 1 by omega, lt, IlIndexRange.slice, rowOf]
  | cons first rest =>
    obtain ⟨counts, run⟩ := countRows_isOk (first :: rest) (List.replicate (rowCount + 1) 0)
      (fun entry mem => by simpa using rows entry mem)
      (fun count mem => by rw [eq_of_mem_replicate mem]; omega)
    obtain ⟨length, counted⟩ := countRows_eq_ok _ _ _ run
    have counted' : ∀ i, counts.getD i 0 =
        (first :: rest).countP (fun entry => entry.1 + 1 == i) := by
      intro i
      rw [counted i, getD_eq_getElem?_getD, getElem?_replicate]
      split <;> simp
    rw [length_replicate] at length
    obtain ⟨count, tail, rfl⟩ : ∃ count tail, counts = count :: tail :=
      exists_cons_of_length_eq_add_one length
    have total : count + tail.sum = (first :: rest).length := by
      have := sum_take_counts counted' rowCount
      rwa [take_of_length_le (by omega), offsetOf_eq_length rows, sum_cons] at this
    obtain ⟨sums, summed, sumsLength, sumsEq⟩ := sumOffsets_ok tail count (by omega)
    have tailLength : tail.length = rowCount := by simpa using length
    have offsets : ∀ i ≤ rowCount, (count :: sums)[i]? = some (offsetOf (first :: rest) i) := by
      intro i le
      have lt : i < (count :: sums).length := by simp; omega
      rw [getElem?_eq_getElem lt, Option.some_inj, ← sum_take_counts counted' i]
      cases i with
      | zero => simp
      | succ i =>
        have := sumsEq i (by omega)
        rw [getD_eq_getElem?_getD, getElem?_eq_getElem (by omega),
          Option.getD_some] at this
        simpa using this
    have last : (count :: sums).getLastD 0 = (first :: rest).length := by
      rw [getLastD_eq_getLast?, getLast?_eq_getElem?]
      have := offsets rowCount le_rfl
      rw [offsetOf_eq_length rows] at this
      simp only [length_cons, Nat.add_sub_cancel, sumsLength, tailLength, this, Option.getD_some]
    obtain ⟨filledLength, filled⟩ := fillRows_getElem? rows (first :: rest) [] (count :: sums)
      (List.replicate (first :: rest).length first.2) rfl (by simp; omega) (by simp)
      (fun row lt => by
        rw [getD_eq_getElem?_getD, offsets row (by omega)]; simp [rowOf])
      (fun row k value found => by simp [rowOf] at found)
    refine ⟨⟨count :: sums, fillRows (count :: sums)
      (List.replicate (first :: rest).length first.2) (first :: rest)⟩, ?_, ?_, ?_⟩
    · rw [tryFromEntries_cons, run]
      simp only [getD_cons_zero, drop_one, tail_cons, summed, last,
        bind, Except.bind, pure, Except.pure]
    · simp [sumsLength, tailLength]
    · intro i lt
      simp only [checkedRow, offsets i (by omega), offsets (i + 1) (by omega), Option.bind_eq_bind,
        Option.bind_some, Option.pure_def, Option.some_inj]
      have width : offsetOf (first :: rest) (i + 1) - offsetOf (first :: rest) i =
          (rowOf (first :: rest) i).length := by rw [offsetOf_succ]; omega
      apply ext_getElem?
      intro k
      rw [IlIndexRange.getElem?_slice]
      simp only [width]
      split
      · rename_i inside
        rw [filled i k _ (getElem?_eq_getElem inside), getElem?_eq_getElem inside]
      · rw [getElem?_eq_none (by omega)]

/-- More entries than a `u32` counts are refused. -/
theorem tryFromEntries_overflow (large : u32Max < entries.length) :
    ∃ error, tryFromEntries rowCount entries = .error error := by
  cases entries with
  | nil => simp at large
  | cons first rest =>
    rw [tryFromEntries_cons]
    cases run : countRows (List.replicate (rowCount + 1) 0) (first :: rest) with
    | error error => exact ⟨error, rfl⟩
    | ok counts =>
      obtain ⟨length, counted⟩ := countRows_eq_ok _ _ _ run
      have counted' : ∀ i, counts.getD i 0 =
          (first :: rest).countP (fun entry => entry.1 + 1 == i) := by
        intro i
        rw [counted i, getD_eq_getElem?_getD, getElem?_replicate]
        split <;> simp
      rw [length_replicate] at length
      have total := sum_take_counts counted' rowCount
      rw [take_of_length_le (by omega), offsetOf_eq_length rows] at total
      obtain ⟨count, tail, rfl⟩ : ∃ count tail, counts = count :: tail :=
        exists_cons_of_length_eq_add_one length
      have zero : count = 0 := by simpa using counted' 0
      obtain ⟨error, summed⟩ := sumOffsets_overflow tail count
        (by rw [sum_cons] at total; omega) (by rw [zero]; exact Nat.zero_le _)
      refine ⟨error, ?_⟩
      simp [summed, bind, Except.bind]

omit rows in
/-- `IlCsr::from_entries` (`pool.rs:479-485`): the `expect` on a table that does not fit. -/
def fromEntries (rowCount : Nat) (entries : List (Nat × α)) : Option (IlCsr α) :=
  (tryFromEntries rowCount entries).toOption

theorem fromEntries_some (small : entries.length ≤ u32Max) :
    ∃ csr, fromEntries rowCount entries = some csr ∧ csr.Holds rowCount entries := by
  obtain ⟨csr, run, holds⟩ := tryFromEntries_ok rows small
  exact ⟨csr, by rw [fromEntries, run]; rfl, holds⟩

end IlCsr

end Fugue.Il
