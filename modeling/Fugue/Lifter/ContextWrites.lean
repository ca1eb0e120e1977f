import Fugue.Lifter.Context

/-!
# What a write of the context changes

Every split point of a database whose defaults are set marks all the bits of its variables: the
default marks them, and a split copies the marks of the value that it splits. So
`get_region_to_change_point` stops at the next split point, whichever variable it was made for, and
a write reaches up to there (`getRegion_reads`).
-/

namespace Fugue.Lifter

open Fugue.Lib Option OrdMap PartMap ContextDatabase

/-- A bit of a word, false beyond the words. -/
def bit (words : List (BitVec 32)) (word i : ℕ) : Bool := (words.getD word 0).getLsbD i

theorem bit_set {words : List (BitVec 32)} {num : ℕ} (lt : num < words.length) {new : BitVec 32}
    (word i : ℕ) :
    bit (words.set num new) word i = if word = num then new.getLsbD i else bit words word i := by
  unfold bit
  by_cases eq : num = word
  · subst eq
    simp [lt]
  · simp [eq, Ne.symm eq]

/-- Every bit of the value is a bit of the mask. -/
def Contained (mask value : BitVec 32) : Prop := ∀ i, value.getLsbD i = true → mask.getLsbD i = true

theorem ContextBitRange.contained (range : ContextBitRange) (value : BitVec 32) :
    Contained range.bits ((value &&& range.mask) <<< range.shift) := by
  intro i set
  simp only [ContextBitRange.bits, BitVec.getLsbD_shiftLeft, BitVec.getLsbD_and,
    Bool.and_eq_true] at set ⊢
  exact ⟨set.1, set.2.2⟩

namespace ContextDatabase

/-- A change of a word gives the bits of the mask their new value. -/
theorem changeWord_spec {num : ℕ} {mask value : BitVec 32} (contained : Contained mask value)
    (words : List (BitVec 32)) (lt : num < words.length) :
    ∃ words', changeWord num mask value words = some words' ∧ words'.length = words.length ∧
      ∀ word i, bit words' word i =
        if word = num ∧ mask.getLsbD i = true then value.getLsbD i else bit words word i := by
  refine ⟨words.set num ((words.getD num 0 &&& ~~~mask) ||| value), ?_, List.length_set, ?_⟩
  · simp [changeWord, List.getElem?_eq_getElem lt, List.getD_eq_getElem?_getD]
  intro word i
  rw [bit_set lt]
  by_cases same : word = num
  · subst same
    cases marked : mask.getLsbD i with
    | true => simp [marked]
    | false =>
      have unset : value.getLsbD i = false := by
        cases set : value.getLsbD i with
        | false => rfl
        | true =>
          rw [contained i set] at marked
          cases marked
      have small : (words.getD word 0).getLsbD i = true → i < 32 := BitVec.lt_of_getLsbD
      simp only [bit, BitVec.getLsbD_or, BitVec.getLsbD_and, BitVec.getLsbD_not, marked, unset]
      cases set : (words.getD word 0).getLsbD i with
      | false => simp
      | true => simp [small set]
  · rw [if_neg same, if_neg fun both => same both.1]

theorem set_eq_changeWord (range : ContextBitRange) (value : BitVec 32)
    (words : List (BitVec 32)) : range.set words value =
      changeWord range.word range.bits ((value &&& range.mask) <<< range.shift) words := rfl

end ContextDatabase

section Region

variable {m : PartMap ℕ FreeArray} {addr num size : ℕ} {mask value : BitVec 32}

/-- The words and the marks of a point. -/
def FreeArray.Sized (size : ℕ) (fa : FreeArray) : Prop :=
  fa.values.length = size ∧ fa.masks.length = size

/-- The point does not mark a bit of the mask. -/
def FreeArray.Unmarked (fa : FreeArray) (num : ℕ) (mask : BitVec 32) : Prop :=
  ∀ i, mask.getLsbD i = true → bit fa.masks num i = false

/-- The words of `fa` after the change. -/
def Changed (num : ℕ) (mask value : BitVec 32) (fa fa' : FreeArray) : Prop :=
  fa'.values.length = fa.values.length ∧ fa'.masks = fa.masks ∧ ∀ word i, bit fa'.values word i =
    if word = num ∧ mask.getLsbD i = true then value.getLsbD i else bit fa.values word i

theorem changeUnmarked_spec (contained : Contained mask value) (lt : num < size) :
    ∀ (rest : List (ℕ × FreeArray)) (mapping : OrdMap ℕ FreeArray),
      (∀ x ∈ rest, x.2.Sized size) →
      ∃ mapping', changeUnmarked num mask (changeWord num mask value) rest mapping =
        some mapping' ∧ ∀ k, mapping'.get? k = mapping.get? k ∨
          ∃ fa fa', (k, fa) ∈ rest ∧ fa.Unmarked num mask ∧ Changed num mask value fa fa' ∧
            mapping'.get? k = some fa' := by
  intro rest
  induction rest with
  | nil => exact fun mapping _ => ⟨mapping, rfl, fun k => .inl rfl⟩
  | cons x rest ih =>
    intro mapping sized
    obtain ⟨point, fa⟩ := x
    obtain ⟨lengthValues, lengthMasks⟩ : fa.Sized size := sized _ (.head _)
    have marks : fa.masks[num]? = some (fa.masks.getD num 0) := by
      simp [List.getD_eq_getElem?_getD, lengthMasks, lt]
    rw [changeUnmarked, marks]
    simp only [some_bind]
    by_cases unmarked : fa.masks.getD num 0 &&& mask = 0
    · obtain ⟨values, run, lengths, bits⟩ := changeWord_spec contained fa.values
        (lengthValues ▸ lt)
      obtain ⟨mapping', ran, after⟩ := ih (mapping.insert point { fa with values := values })
        fun y mem => sized y (.tail _ mem)
      refine ⟨mapping', ?_, fun k => ?_⟩
      · rw [if_pos unmarked, run]
        exact ran
      rcases after k with same | ⟨fa₁, fa₂, mem, rest_⟩
      · by_cases eq : k = point
        · subst eq
          refine .inr ⟨fa, { fa with values := values }, .head _, fun i set => ?_,
            ⟨lengths, rfl, bits⟩, same.trans get?_insert_self⟩
          have none : (fa.masks.getD num 0 &&& mask).getLsbD i = false := by
            rw [unmarked]
            exact BitVec.getLsbD_zero
          rw [BitVec.getLsbD_and, set, Bool.and_true] at none
          exact none
        · exact .inl (same.trans (get?_insert_ne eq))
      · exact .inr ⟨fa₁, fa₂, .tail _ mem, rest_⟩
    · exact ⟨mapping, if_neg unmarked, fun k => .inl rfl⟩

theorem filter_split (m : PartMap ℕ FreeArray) (addr : ℕ) : ∃ rest,
    (m.split addr).mapping.entries.filter (fun entry => decide (addr ≤ entry.1)) =
      (addr, m.getOrDefault addr) :: rest ∧
    ∀ x ∈ rest, addr < x.1 ∧ x ∈ m.mapping.entries := by
  have here : (addr, m.getOrDefault addr) ∈
      (m.split addr).mapping.entries.filter fun entry => decide (addr ≤ entry.1) :=
    List.mem_filter.mpr ⟨PartMap.mem_split.mpr (.inl ⟨rfl, rfl⟩), by simp⟩
  have sorted := (m.split addr).mapping.sorted.filter fun entry => decide (addr ≤ entry.1)
  cases found : (m.split addr).mapping.entries.filter fun entry => decide (addr ≤ entry.1) with
  | nil =>
    rw [found] at here
    cases here
  | cons x rest =>
    rw [found] at here sorted
    obtain ⟨above, -⟩ := List.pairwise_cons.mp sorted
    have inside : ∀ y ∈ x :: rest, y ∈ (m.split addr).mapping.entries ∧ addr ≤ y.1 := by
      intro y mem
      rw [← found] at mem
      obtain ⟨mem, le⟩ := List.mem_filter.mp mem
      exact ⟨mem, of_decide_eq_true le⟩
    have first : x = (addr, m.getOrDefault addr) := by
      rcases List.mem_cons.mp here with eq | later
      · exact eq.symm
      · have := above _ later
        have := (inside x (.head _)).2
        omega
    subst first
    refine ⟨rest, rfl, fun y mem => ⟨above y mem, ?_⟩⟩
    obtain ⟨mem', -⟩ := inside y (.tail _ mem)
    rcases PartMap.mem_split.mp mem' with ⟨eq, -⟩ | ⟨old, -⟩
    · exact absurd eq (above y mem).ne'
    · exact old

variable (addr) in
theorem getRegion_spec (contained : Contained mask value) (lt : num < size)
    (sizedDefault : m.default.Sized size) (sized : ∀ x ∈ m.mapping.entries, x.2.Sized size) :
    ∃ m', getRegionToChangePoint m addr num mask (changeWord num mask value) =
        some m' ∧ m'.default = m.default ∧
      (∃ fa', (addr, fa') ∈ m'.mapping.entries ∧ fa'.Sized size ∧
        (∀ word i, bit fa'.values word i = if word = num ∧ mask.getLsbD i = true then
          value.getLsbD i else bit (m.getOrDefault addr).values word i) ∧
        ∀ word i, bit (m.getOrDefault addr).masks word i = true → bit fa'.masks word i = true) ∧
      ∀ k, k ≠ addr → (m'.mapping.get? k = m.mapping.get? k ∨
        ∃ fa fa', (k, fa) ∈ m.mapping.entries ∧ addr < k ∧ fa.Unmarked num mask ∧
          Changed num mask value fa fa' ∧ m'.mapping.get? k = some fa') := by
  obtain ⟨rest, filtered, inRest⟩ := filter_split m addr
  have here : (m.getOrDefault addr).Sized size := getOrDefault_of_all sizedDefault sized
  obtain ⟨values, run, lengths, bits⟩ := changeWord_spec contained
    (m.getOrDefault addr).values (by rw [here.1]; exact lt)
  have marks : (m.getOrDefault addr).masks[num]? =
      some ((m.getOrDefault addr).masks.getD num 0) := by
    simp [List.getD_eq_getElem?_getD, here.2, lt]
  obtain ⟨mapping', ran, after⟩ := changeUnmarked_spec contained lt rest
    ((m.split addr).mapping.insert addr ⟨values, (m.getOrDefault addr).masks.set num
      ((m.getOrDefault addr).masks.getD num 0 ||| mask)⟩) fun x mem => sized x (inRest x mem).2
  refine ⟨{ m.split addr with mapping := mapping' }, ?_, split_default, ?_, ?_⟩
  · simp only [getRegionToChangePoint, filtered, marks, run]
    simp only [some_bind, ran]
    rfl
  · have kept : mapping'.get? addr = some ⟨values, (m.getOrDefault addr).masks.set num
        ((m.getOrDefault addr).masks.getD num 0 ||| mask)⟩ := by
      rcases after addr with same | ⟨fa, fa', mem, -⟩
      · exact same.trans get?_insert_self
      · exact absurd (inRest _ mem).1 (lt_irrefl _)
    refine ⟨_, get?_eq_some.mp kept, ⟨lengths.trans here.1, ?_⟩, bits, ?_⟩
    · exact List.length_set.trans here.2
    · intro word i set
      rw [bit_set (by rw [here.2]; exact lt)]
      by_cases same : word = num
      · subst same
        rw [if_pos rfl, BitVec.getLsbD_or]
        exact Bool.or_eq_true_iff.mpr (.inl set)
      · rw [if_neg same]
        exact set
  · intro k ne
    have split : (m.split addr).mapping.get? k = m.mapping.get? k :=
      get?_congr fun v => by simp [mem_split, ne]
    rcases after k with same | ⟨fa, fa', mem, unmarked, changed, eq⟩
    · exact .inl (same.trans ((get?_insert_ne ne).trans split))
    · exact .inr ⟨fa, fa', (inRest _ mem).2, (inRest _ mem).1, unmarked, changed, eq⟩

theorem getOrDefault_eq_of_unsplit {a : ℕ} (le : addr ≤ a)
    (unsplit : ∀ x ∈ m.mapping.entries, addr < x.1 → a < x.1) :
    m.getOrDefault a = m.getOrDefault addr := by
  rcases m.getOrDefault_cases addr with ⟨k, v, mem, below, last, eq⟩ | ⟨below, eq⟩
  · rw [eq]
    refine getOrDefault_of_mem mem (le_trans below le) fun x xMem xLe => ?_
    refine last x xMem (not_lt.mp fun above => ?_)
    exact absurd (unsplit x xMem above) xLe.not_gt
  · rw [eq]
    exact getOrDefault_of_below fun x xMem => unsplit x xMem (below x xMem)

/-- All the bits of a set are marked at the point. -/
def FreeArray.Marks (bits : ℕ → ℕ → Prop) (fa : FreeArray) : Prop :=
  ∀ word i, bits word i → bit fa.masks word i = true

variable {bits : ℕ → ℕ → Prop}

/-- A write in a database where every point marks the bits of `bits`: these bits change from its
address up to the next split point, and every point still marks them. -/
theorem getRegion_reads (contained : Contained mask value) (lt : num < size)
    (sizedDefault : m.default.Sized size) (sized : ∀ x ∈ m.mapping.entries, x.2.Sized size)
    (marksDefault : m.default.Marks bits) (marks : ∀ x ∈ m.mapping.entries, x.2.Marks bits) :
    ∃ m', getRegionToChangePoint m addr num mask (changeWord num mask value) =
        some m' ∧ m'.default = m.default ∧
      (∀ x ∈ m'.mapping.entries, x.2.Sized size ∧ x.2.Marks bits) ∧
      (∀ k, (∃ fa, (k, fa) ∈ m'.mapping.entries) ↔ k = addr ∨ ∃ fa, (k, fa) ∈ m.mapping.entries) ∧
      ∀ word i, bits word i → ∀ a, bit (m'.getOrDefault a).values word i =
        if (word = num ∧ mask.getLsbD i = true) ∧ addr ≤ a ∧
            ∀ x ∈ m.mapping.entries, addr < x.1 → a < x.1 then value.getLsbD i
        else bit (m.getOrDefault a).values word i := by
  obtain ⟨m', run, default, ⟨here, hereMem, hereSized, hereBits, hereMarks⟩, others⟩ :=
    getRegion_spec addr contained lt sizedDefault sized
  have marksHere : (m.getOrDefault addr).Marks bits :=
    getOrDefault_of_all marksDefault marks
  have keys : ∀ k, (∃ fa, (k, fa) ∈ m'.mapping.entries) ↔
      k = addr ∨ ∃ fa, (k, fa) ∈ m.mapping.entries := by
    intro k
    by_cases eq : k = addr
    · subst eq
      exact iff_of_true ⟨here, hereMem⟩ (.inl rfl)
    · simp only [eq, false_or]
      rcases others k eq with same | ⟨fa, fa', mem, -, -, -, found⟩
      · simp [← get?_eq_some, same]
      · exact iff_of_true ⟨fa', get?_eq_some.mp found⟩ ⟨fa, mem⟩
  -- a point other than that of the write keeps the marked bits
  have old : ∀ k fa', k ≠ addr → (k, fa') ∈ m'.mapping.entries →
      ∃ fa, (k, fa) ∈ m.mapping.entries ∧ fa'.Sized size ∧ fa'.Marks bits ∧
        ∀ word i, bits word i → bit fa'.values word i = bit fa.values word i := by
    intro k fa' ne mem
    rcases others k ne with same | ⟨fa, fa₁, faMem, -, unmarked, changed, found⟩
    · have mem' := get?_eq_some.mp (same.symm.trans (get?_eq_some.mpr mem))
      exact ⟨fa', mem', sized _ mem', marks _ mem', fun _ _ _ => rfl⟩
    · obtain rfl := OrdMap.unique (get?_eq_some.mp found) mem
      obtain ⟨lengths, sameMarks, changedBits⟩ := changed
      refine ⟨fa, faMem, ⟨lengths.trans (sized _ faMem).1, ?_⟩, ?_, fun word i inBits => ?_⟩
      · rw [sameMarks]
        exact (sized _ faMem).2
      · unfold FreeArray.Marks
        rw [sameMarks]
        exact marks _ faMem
      · rw [changedBits, if_neg]
        rintro ⟨rfl, inMask⟩
        have := unmarked i inMask
        rw [marks _ faMem word i inBits] at this
        cases this
  refine ⟨m', run, default, fun x mem => ?_, keys, fun word i inBits a => ?_⟩
  · by_cases eq : x.1 = addr
    · obtain rfl : x.2 = here := OrdMap.unique (k := addr) (eq ▸ mem) hereMem
      exact ⟨hereSized, fun word i inBits => hereMarks word i (marksHere word i inBits)⟩
    · obtain ⟨-, -, sized', marks', -⟩ := old x.1 x.2 eq mem
      exact ⟨sized', marks'⟩
  rcases m'.getOrDefault_cases a with ⟨k, fa', mem, below, last, eq⟩ | ⟨below, eq⟩
  · rw [eq]
    by_cases same : k = addr
    · subst same
      obtain rfl := OrdMap.unique mem hereMem
      have unsplit : ∀ x ∈ m.mapping.entries, k < x.1 → a < x.1 := by
        intro x xMem above
        obtain ⟨fa, xMem'⟩ := (keys x.1).mpr (.inr ⟨x.2, xMem⟩)
        by_contra not
        exact absurd (last _ xMem' (not_lt.mp not)) above.not_ge
      rw [hereBits, getOrDefault_eq_of_unsplit below unsplit]
      by_cases inMask : word = num ∧ mask.getLsbD i = true
      · rw [if_pos inMask, if_pos ⟨inMask, below, unsplit⟩]
      · rw [if_neg inMask, if_neg fun all => inMask all.1]
    · obtain ⟨fa, faMem, -, -, sameBits⟩ := old k fa' same mem
      have lastOld : ∀ x ∈ m.mapping.entries, x.1 ≤ a → x.1 ≤ k := by
        intro x xMem xLe
        obtain ⟨fa₁, xMem'⟩ := (keys x.1).mpr (.inr ⟨x.2, xMem⟩)
        exact last (x.1, fa₁) xMem' xLe
      rw [sameBits word i inBits, getOrDefault_of_mem faMem below lastOld, if_neg]
      rintro ⟨-, le, unsplit⟩
      -- the point of the write is not the last one, so that `k` lies beyond it
      have above : addr < k := lt_of_le_of_ne (last _ hereMem le) (Ne.symm same)
      exact absurd (unsplit _ faMem above) below.not_gt
  · rw [eq, default]
    have belowOld : ∀ x ∈ m.mapping.entries, a < x.1 := by
      intro x xMem
      obtain ⟨fa, xMem'⟩ := (keys x.1).mpr (.inr ⟨x.2, xMem⟩)
      exact below (x.1, fa) xMem'
    rw [getOrDefault_of_below belowOld, if_neg]
    rintro ⟨-, le, -⟩
    exact absurd (below _ hereMem) le.not_gt

/-- A write beyond the words stops. -/
theorem getRegion_isSome {f : List (BitVec 32) → Option (List (BitVec 32))}
    {m' : PartMap ℕ FreeArray} (sizedDefault : m.default.Sized size)
    (sized : ∀ x ∈ m.mapping.entries, x.2.Sized size)
    (run : getRegionToChangePoint m addr num mask f = some m') : num < size := by
  obtain ⟨rest, filtered, -⟩ := filter_split m addr
  have here : (m.getOrDefault addr).Sized size := getOrDefault_of_all sizedDefault sized
  simp only [getRegionToChangePoint, filtered] at run
  obtain ⟨marks, found, -⟩ := bind_eq_some_iff.mp run
  have lt := lt_of_getElem? found
  rw [← here.2]
  exact lt

end Region

end Fugue.Lifter
