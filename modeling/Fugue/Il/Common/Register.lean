import Fugue.Il.Common.Id

/-!
# Register banks

`fugue-core/src/il/common/register.rs`: the storage of registers as disjoint roots of bytes, into
which every inserted range of bytes is merged with those it overlaps, and the slice of its root
that a range stands for. The per-process table of the ranges of each language only saves the
computation and is left out.
-/

namespace Fugue.Il

open List

/-- `RegisterRange` (`register.rs:70-73`); the source calls its bounds `start` and `end`. -/
structure RegisterRange where
  start : Nat
  stop : Nat
  le : start ≤ stop
  lt : stop < 2 ^ 64
  deriving DecidableEq, Repr

namespace RegisterRange

/-- `RegisterRange::new` (`register.rs:76-85`). -/
def new (byteOffset byteSize : Nat) : Except IlError RegisterRange :=
  if lt : byteOffset + byteSize < 2 ^ 64 then
    .ok ⟨byteOffset, byteOffset + byteSize, Nat.le_add_right _ _, lt⟩
  else .error (.integerOverflow "register range")

variable (range : RegisterRange)

/-- `is_empty` (`register.rs:91-93`). -/
def isEmpty : Bool := range.start == range.stop

/-- `byte_size` (`register.rs:95-97`). -/
def byteSize : Nat := range.stop - range.start

variable (range other : RegisterRange)

/-- `merge` (`register.rs:88-94`): the grown range when the other one is merged into it. -/
def merge : Option RegisterRange :=
  if range.stop ≤ other.start then none
  else some ⟨range.start, max range.stop other.stop, le_max_of_le_left range.le,
    max_lt range.lt other.lt⟩

/-- The sort key `(start, end)`. -/
def KeyLe : Prop :=
  range.start < other.start ∨ range.start = other.start ∧ range.stop ≤ other.stop

instance : DecidableRel KeyLe := fun range other =>
  inferInstanceAs (Decidable (range.start < other.start ∨ _))

def Contains (byte : Nat) : Prop := range.start ≤ byte ∧ byte < range.stop

/-- Every byte of a range that is not empty lies in the other one. -/
def Inside (range root : RegisterRange) : Prop :=
  root.start ≤ range.start ∧ range.stop ≤ root.stop

def Nonempty : Prop := range.start < range.stop

/-- The two ranges have a byte in common. -/
def Shares : Prop :=
  ∃ byte, range.Contains byte ∧ other.Contains byte

end RegisterRange
open RegisterRange (KeyLe Contains Inside byteSize)

/-- `RegisterSlice` (`register.rs:109-114`). -/
structure RegisterSlice where
  root : Nat
  rootBits : Nat
  byteOffset : Nat
  bits : Nat
  deriving DecidableEq, Repr

/-- The bits of the root that the slices have in common. -/
def RegisterSlice.Overlaps (slice other : RegisterSlice) : Prop :=
  8 * slice.byteOffset < 8 * other.byteOffset + other.bits ∧
    8 * other.byteOffset < 8 * slice.byteOffset + slice.bits

variable (roots : List RegisterRange)

/-- One round of the sweep of `normalise_register_ranges`; what the loop has written so far, the
last range first. -/
def sweepRange (range : RegisterRange) : List RegisterRange :=
  match roots with
  | [] => [range]
  | last :: done =>
    match last.merge range with
    | some grown => grown :: done
    | none => range :: last :: done

/-- `normalise_register_ranges` (`register.rs:281-296`). Ranges with one sort key are equal, so
that the unstable sort has one result. -/
def normaliseRegisterRanges : List RegisterRange :=
  (((roots.filter fun range => !range.isEmpty).insertionSort KeyLe).foldl
    sweepRange []).reverse

/-- What a register bank reads of its language: the byte order, and the offset and size of each
register. -/
structure Language where
  isLittle : Bool
  registers : List (Nat × Nat)

/-- The ranges of the registers of a language, those without a size left out. -/
def registerRanges (language : Language) : Except IlError (List RegisterRange) :=
  (language.registers.filter fun register => register.2 != 0).mapM fun register =>
    RegisterRange.new register.1 register.2

/-- `language_register_ranges` (`register.rs:298-313`). -/
def languageRegisterRanges (language : Language) : Except IlError (List RegisterRange) := do
  return normaliseRegisterRanges (← registerRanges language)

/-- `RegisterBank` (`register.rs:180-183`). -/
structure RegisterBank where
  language : Language
  roots : List RegisterRange

/-- `slice::partition_point`: how many of the first entries satisfy the predicate, of a list in
which no later one does. -/
def partitionPoint (predicate : RegisterRange → Bool) : Nat :=
  (roots.takeWhile predicate).length

/-- `checked_mul(8)` and `u32::try_from`. -/
def byteBits (byteSize : Nat) : Option Nat :=
  if byteSize * 8 < 2 ^ 64 then if byteSize * 8 ≤ u32Max then some (byteSize * 8) else none
  else none

namespace RegisterBank

/-- `RegisterBank::new` (`register.rs:186-191`). -/
def new (language : Language) : Except IlError RegisterBank := do
  return ⟨language, ← languageRegisterRanges language⟩

variable (bank : RegisterBank)

/-- `insert_ranges` (`register.rs:197-201`). -/
def insertRanges (ranges : List RegisterRange) : RegisterBank :=
  { bank with roots := normaliseRegisterRanges (bank.roots ++ ranges) }

/-- `root_id` (`register.rs:203-211`). -/
def rootId (byteOffset byteSize : Nat) : Option Nat :=
  if byteOffset + byteSize < 2 ^ 64 then
    let stop := byteOffset + byteSize
    let index := partitionPoint bank.roots fun root => root.stop ≤ byteOffset
    ((bank.roots[index]?).filter fun root =>
      decide (root.start ≤ byteOffset) && decide (stop ≤ root.stop)).map RegisterRange.start
  else none

/-- `root_bits` (`register.rs:199-211`). -/
def rootBits (root : Nat) : Option Nat :=
  let index := partitionPoint bank.roots fun range => range.start < root
  ((bank.roots[index]?).filter fun range => range.start == root).bind fun range =>
    byteBits range.byteSize

/-- `slice` (`register.rs:213-248`). -/
def slice (range : RegisterRange) : Except IlError (Option RegisterSlice) :=
  let index := partitionPoint bank.roots fun root => root.stop ≤ range.start
  match (bank.roots[index]?).filter fun root =>
      decide (root.start ≤ range.start) && decide (range.stop ≤ root.stop) with
  | none => .ok none
  | some root =>
    let offsetBytes :=
      if bank.language.isLittle then range.start - root.start else root.stop - range.stop
    match byteBits root.byteSize with
    | none => .error (.integerOverflow "register width")
    | some rootBits =>
      if offsetBytes ≤ u32Max then
        match byteBits range.byteSize with
        | none => .error (.integerOverflow "register slice width")
        | some bits => .ok (some ⟨root.start, rootBits, offsetBytes, bits⟩)
      else .error (.integerOverflow "register slice offset")

end RegisterBank

section Normalise

variable {inserted roots : List RegisterRange} {range root : RegisterRange}

/-- The roots of the inserted ranges: disjoint, in growing order, with the same bytes, and each
inserted range that is not empty lies in one of them. -/
structure Roots (inserted roots : List RegisterRange) : Prop where
  nonempty : ∀ root ∈ roots, root.Nonempty
  sorted : roots.Pairwise fun r s => r.stop ≤ s.start
  union : ∀ byte, (∃ root ∈ roots, root.Contains byte) ↔ ∃ r ∈ inserted, r.Contains byte
  inside : ∀ r ∈ inserted, r.Nonempty → ∃ root ∈ roots, r.Inside root

theorem RegisterRange.isEmpty_eq_false_iff : range.isEmpty = false ↔ range.Nonempty := by
  have := range.le
  simp only [isEmpty, beq_eq_false_iff_ne, Nonempty]
  omega

/-- What the sweep has written when it has read these ranges, the last root first. -/
structure Swept (read roots : List RegisterRange) : Prop where
  nonempty : ∀ root ∈ roots, root.Nonempty
  sorted : roots.Pairwise fun later earlier => earlier.stop ≤ later.start
  union : ∀ byte, (∃ root ∈ roots, root.Contains byte) ↔ ∃ r ∈ read, r.Contains byte
  inside : ∀ r ∈ read, ∃ root ∈ roots, r.Inside root
  started : ∀ root ∈ roots, ∃ r ∈ read, root.start = r.start

theorem swept_nil : Swept [] [] := by
  constructor <;> simp

variable {read : List RegisterRange}

theorem contains_append {byte : Nat} :
    (∃ r ∈ read ++ [range], r.Contains byte) ↔
      (∃ r ∈ read, r.Contains byte) ∨ range.Contains byte := by
  simp [or_and_right, exists_or]

theorem Swept.push (swept : Swept read roots)
    (nonempty : range.Nonempty) (above : ∀ root ∈ roots, root.stop ≤ range.start) :
    Swept (read ++ [range]) (range :: roots) := by
  constructor
  · simpa [nonempty] using swept.nonempty
  · exact pairwise_cons.mpr ⟨above, swept.sorted⟩
  · intro byte
    rw [contains_append, exists_mem_cons_iff, swept.union byte]
    exact or_comm
  · intro r mem
    cases mem_append.mp mem with
    | inl old =>
      obtain ⟨root, mem, inside⟩ := swept.inside r old
      exact ⟨root, .tail _ mem, inside⟩
    | inr new =>
      rw [mem_singleton.mp new]
      exact ⟨range, .head _, le_rfl, le_rfl⟩
  · intro root mem
    cases mem with
    | head => exact ⟨range, by simp, rfl⟩
    | tail _ mem =>
      obtain ⟨r, known, same⟩ := swept.started root mem
      exact ⟨r, by simp [known], same⟩

theorem Swept.grow {read done : List RegisterRange} {last grown : RegisterRange}
    (swept : Swept read (last :: done)) (ordered : last.start ≤ range.start)
    (overlaps : range.start < last.stop) (start : grown.start = last.start)
    (stop : grown.stop = max last.stop range.stop) :
    Swept (read ++ [range]) (grown :: done) := by
  obtain ⟨above, sorted⟩ := pairwise_cons.mp swept.sorted
  obtain ⟨lastNonempty, doneNonempty⟩ := forall_mem_cons.mp swept.nonempty
  have grownContains : ∀ byte, grown.Contains byte ↔ last.Contains byte ∨ range.Contains byte := by
    unfold Contains
    omega
  constructor
  · refine forall_mem_cons.mpr ⟨?_, doneNonempty⟩
    unfold RegisterRange.Nonempty
    omega
  · constructor
    · rw [start]
      exact above
    · exact sorted
  · intro byte
    rw [contains_append, ← swept.union byte, exists_mem_cons_iff, exists_mem_cons_iff,
      grownContains]
    exact or_right_comm
  · intro r mem
    cases mem_append.mp mem with
    | inl old =>
      obtain ⟨root, known, inside⟩ := swept.inside r old
      cases known with
      | head =>
        refine ⟨grown, .head _, ?_⟩
        unfold Inside at inside ⊢
        omega
      | tail _ known => exact ⟨root, .tail _ known, inside⟩
    | inr new =>
      rw [mem_singleton.mp new]
      refine ⟨grown, .head _, ?_⟩
      unfold Inside
      omega
  · intro root mem
    cases mem with
    | head =>
      obtain ⟨r, known, same⟩ := swept.started last (.head _)
      exact ⟨r, by simp [known], start.trans same⟩
    | tail _ mem =>
      obtain ⟨r, known, same⟩ := swept.started root (.tail _ mem)
      exact ⟨r, by simp [known], same⟩

theorem Swept.sweepRange (swept : Swept read roots)
    (nonempty : range.Nonempty) (ordered : ∀ r ∈ read, r.start ≤ range.start) :
    Swept (read ++ [range]) (sweepRange roots range) := by
  have starts : ∀ root ∈ roots, root.start ≤ range.start := by
    intro root mem
    obtain ⟨r, known, same⟩ := swept.started root mem
    rw [same]
    exact ordered r known
  cases roots with
  | nil => exact swept.push nonempty (by simp)
  | cons last done =>
    have lastStart := starts last (.head _)
    by_cases apart : last.stop ≤ range.start
    · have kept : last.merge range = none := if_pos apart
      simp only [Il.sweepRange, kept]
      apply swept.push nonempty
      intro root mem
      cases mem with
      | head => exact apart
      | tail _ mem =>
        have := (pairwise_cons.mp swept.sorted).1 root mem
        omega
    · have merged : last.merge range = some _ := if_neg apart
      simp only [Il.sweepRange, merged]
      exact swept.grow lastStart (by omega) rfl rfl

theorem swept_foldl {ranges read : List RegisterRange} (swept : Swept read roots)
    (nonempty : ∀ r ∈ ranges, r.Nonempty)
    (sorted : (read ++ ranges).Pairwise fun r s => r.start ≤ s.start) :
    Swept (read ++ ranges) (ranges.foldl sweepRange roots) := by
  induction ranges generalizing read roots with
  | nil => simpa using swept
  | cons range ranges ih =>
    obtain ⟨head, rest⟩ := forall_mem_cons.mp nonempty
    have before : ∀ r ∈ read, r.start ≤ range.start := fun r mem =>
      (pairwise_append.mp sorted).2.2 r mem range (.head _)
    have next := swept.sweepRange head before
    rw [append_cons] at sorted ⊢
    exact ih next rest sorted

theorem sorted_starts (ranges : List RegisterRange) :
    (ranges.insertionSort KeyLe).Pairwise fun r s => r.start ≤ s.start := by
  have total : Std.Total KeyLe :=
    ⟨fun r s => by unfold KeyLe; omega⟩
  have trans : IsTrans RegisterRange KeyLe :=
    ⟨fun r s t => by unfold KeyLe; omega⟩
  apply (pairwise_insertionSort KeyLe ranges).imp
  intro r s le
  unfold KeyLe at le
  omega

theorem normaliseRegisterRanges_roots : Roots inserted (normaliseRegisterRanges inserted) := by
  unfold normaliseRegisterRanges
  have members : ∀ r, r ∈ (inserted.filter fun range => !range.isEmpty).insertionSort
      KeyLe ↔ r ∈ inserted ∧ r.Nonempty := by
    intro r
    rw [(perm_insertionSort KeyLe _).mem_iff, mem_filter,
      ← RegisterRange.isEmpty_eq_false_iff]
    simp
  have sorted := sorted_starts (inserted.filter fun range => !range.isEmpty)
  have swept := swept_foldl swept_nil (fun r mem => ((members r).mp mem).2) (by simpa using sorted)
  rw [nil_append] at swept
  constructor
  · intro root mem
    exact swept.nonempty root (mem_reverse.mp mem)
  · exact pairwise_reverse.mpr swept.sorted
  · intro byte
    simp only [mem_reverse, swept.union byte, members]
    constructor
    · intro ⟨r, mem, contains⟩
      exact ⟨r, mem.1, contains⟩
    · intro ⟨r, mem, contains⟩
      exact ⟨r, ⟨mem, lt_of_le_of_lt contains.1 contains.2⟩, contains⟩
  · intro r mem nonempty
    obtain ⟨root, known, inside⟩ := swept.inside r ((members r).mpr ⟨mem, nonempty⟩)
    exact ⟨root, mem_reverse.mpr known, inside⟩

end Normalise

section Lookup

variable {inserted roots : List RegisterRange} {range root : RegisterRange}

theorem getElem?_partitionPoint (predicate : RegisterRange → Bool) :
    roots[partitionPoint roots predicate]? = roots.find? fun root => !predicate root := by
  induction roots with
  | nil => rfl
  | cons root roots ih =>
    unfold partitionPoint at ih ⊢
    cases holds : predicate root with
    | true => simp [holds, ih]
    | false => simp [holds]

variable (known : Roots inserted roots)
include known

theorem Roots.find_stop (mem : root ∈ roots) {byte : Nat} (contains : root.Contains byte) :
    (roots.find? fun root => !decide (root.stop ≤ byte)) = some root := by
  have sorted := known.sorted
  clear known
  induction roots with
  | nil => simp at mem
  | cons first roots ih =>
    obtain ⟨above, sorted⟩ := pairwise_cons.mp sorted
    cases mem with
    | head => simp [not_le.mpr contains.2]
    | tail _ mem =>
      have before : first.stop ≤ byte := (above root mem).trans contains.1
      simpa [find?_cons, before] using ih mem sorted

theorem Roots.find_start (mem : root ∈ roots) :
    (roots.find? fun other => !decide (other.start < root.start)) = some root := by
  have sorted := known.sorted
  have nonempty := known.nonempty
  clear known
  induction roots with
  | nil => simp at mem
  | cons first roots ih =>
    obtain ⟨above, sorted⟩ := pairwise_cons.mp sorted
    obtain ⟨head, rest⟩ := forall_mem_cons.mp nonempty
    cases mem with
    | head => simp
    | tail _ mem =>
      have before : first.start < root.start := lt_of_lt_of_le head (above root mem)
      simpa [find?_cons, before] using ih mem sorted rest

theorem Roots.unique {other : RegisterRange} (mem : root ∈ roots)
    (mem' : other ∈ roots) {byte : Nat} (contains : root.Contains byte)
    (contains' : other.Contains byte) : root = other := by
  have found := known.find_stop mem contains
  rw [known.find_stop mem' contains'] at found
  exact (Option.some.inj found).symm

omit known in
theorem contains_start (nonempty : range.Nonempty) (inside : range.Inside root) :
    root.Contains range.start := ⟨inside.1, lt_of_lt_of_le nonempty inside.2⟩

/-- The lookup that `slice` and `root_id` share finds the root that a range lies in. -/
theorem Roots.lookup_eq_some_iff {start stop : Nat} (lt : start < stop) :
    ((roots[partitionPoint roots fun root => root.stop ≤ start]?).filter fun root =>
        decide (root.start ≤ start) && decide (stop ≤ root.stop)) = some root ↔
      root ∈ roots ∧ root.start ≤ start ∧ stop ≤ root.stop := by
  rw [getElem?_partitionPoint, Option.filter_eq_some_iff]
  simp only [Bool.and_eq_true, decide_eq_true_eq]
  constructor
  · intro found
    exact ⟨mem_of_find?_eq_some found.1, found.2⟩
  · intro inside
    exact ⟨known.find_stop inside.1 ⟨inside.2.1, lt_of_lt_of_le lt inside.2.2⟩, inside.2⟩

theorem Roots.insert (more : List RegisterRange) :
    Roots (inserted ++ more) (normaliseRegisterRanges (roots ++ more)) := by
  have next : Roots (roots ++ more) (normaliseRegisterRanges (roots ++ more)) :=
    normaliseRegisterRanges_roots
  constructor
  · exact next.nonempty
  · exact next.sorted
  · intro byte
    have old := known.union byte
    rw [next.union byte]
    simp [mem_append, or_and_right, exists_or, old]
  · intro r mem nonempty
    cases mem_append.mp mem with
    | inl old =>
      obtain ⟨root, kept, inside⟩ := known.inside r old nonempty
      obtain ⟨grown, mem, around⟩ :=
        next.inside root (mem_append_left _ kept) (known.nonempty root kept)
      exact ⟨grown, mem, around.1.trans inside.1, inside.2.trans around.2⟩
    | inr new => exact next.inside r (mem_append_right _ new) nonempty

end Lookup

section Aliasing

variable {inserted : List RegisterRange} {bank : RegisterBank} {range other : RegisterRange}
variable {slice slice' : RegisterSlice}

theorem byteBits_eq_some_iff {byteSize bits : Nat} :
    byteBits byteSize = some bits ↔ byteSize < 2 ^ 29 ∧ bits = byteSize * 8 := by
  unfold byteBits u32Max
  split
  · split
    · simp only [Option.some.injEq]
      omega
    · simp only [false_iff, reduceCtorEq]
      omega
  · simp only [false_iff, reduceCtorEq]
    omega

theorem byteBits_eq_none_iff {byteSize : Nat} : byteBits byteSize = none ↔ 2 ^ 29 ≤ byteSize := by
  unfold byteBits u32Max
  split
  · split
    · simp only [false_iff, reduceCtorEq]
      omega
    · simp only [true_iff]
      omega
  · simp only [true_iff]
    omega

/-- The slice of a root that a range of its bytes stands for. -/
def sliceIn (isLittle : Bool) (root range : RegisterRange) : RegisterSlice :=
  { root := root.start
    rootBits := root.byteSize * 8
    byteOffset := if isLittle then range.start - root.start else root.stop - range.stop
    bits := range.byteSize * 8 }

section

variable (known : Roots inserted bank.roots) (nonempty : range.Nonempty)
include known nonempty

theorem slice_of_inside
    {root : RegisterRange} (mem : root ∈ bank.roots) (inside : range.Inside root) :
    bank.slice range = if root.byteSize < 2 ^ 29 then
        .ok (some (sliceIn bank.language.isLittle root range))
      else .error (.integerOverflow "register width") := by
  have found := (known.lookup_eq_some_iff nonempty).mpr ⟨mem, inside⟩
  unfold Inside at inside
  unfold RegisterBank.slice
  simp only [found]
  by_cases small : root.byteSize < 2 ^ 29
  · have rootBits : byteBits root.byteSize = some (root.byteSize * 8) :=
      byteBits_eq_some_iff.mpr ⟨small, rfl⟩
    have bits : byteBits range.byteSize = some (range.byteSize * 8) := by
      refine byteBits_eq_some_iff.mpr ⟨?_, rfl⟩
      unfold byteSize at small ⊢
      omega
    have offset : (if bank.language.isLittle then range.start - root.start
        else root.stop - range.stop) ≤ u32Max := by
      have := range.le
      unfold byteSize at small
      unfold u32Max
      split <;> omega
    simp only [rootBits, bits, offset, small, if_true]
    rfl
  · have rootBits : byteBits root.byteSize = none :=
      byteBits_eq_none_iff.mpr (Nat.not_lt.mp small)
    simp only [rootBits, small, if_false]

theorem slice_of_outside
    (outside : ∀ root ∈ bank.roots, ¬ range.Inside root) : bank.slice range = .ok none := by
  unfold RegisterBank.slice
  cases found : (bank.roots[partitionPoint bank.roots fun root =>
      root.stop ≤ range.start]?).filter fun root =>
      decide (root.start ≤ range.start) && decide (range.stop ≤ root.stop) with
  | none => simp [found]
  | some root =>
    obtain ⟨mem, inside⟩ := (known.lookup_eq_some_iff nonempty).mp found
    exact absurd inside (outside root mem)

theorem slice_eq_some_iff :
    bank.slice range = .ok (some slice) ↔ ∃ root ∈ bank.roots, range.Inside root ∧
      root.byteSize < 2 ^ 29 ∧ slice = sliceIn bank.language.isLittle root range := by
  constructor
  · intro ran
    by_cases placed : ∃ root ∈ bank.roots, range.Inside root
    · obtain ⟨root, mem, inside⟩ := placed
      rw [slice_of_inside known nonempty mem inside] at ran
      split at ran
      · cases ran
        exact ⟨root, mem, inside, ‹_›, rfl⟩
      · cases ran
    · rw [slice_of_outside known nonempty fun root mem inside => placed ⟨root, mem, inside⟩] at ran
      cases ran
  · intro ⟨root, mem, inside, small, eq⟩
    rw [slice_of_inside known nonempty mem inside, if_pos small, eq]

end

theorem shares_iff {range other : RegisterRange} (nonempty : range.Nonempty)
    (nonempty' : other.Nonempty) :
    range.Shares other ↔ range.start < other.stop ∧ other.start < range.stop := by
  unfold RegisterRange.Nonempty at nonempty nonempty'
  constructor
  · intro ⟨byte, contains, contains'⟩
    unfold Contains at contains contains'
    omega
  · intro overlap
    refine ⟨max range.start other.start, ?_, ?_⟩
    · unfold Contains
      omega
    · unfold Contains
      omega

theorem sliceIn_overlaps_iff {isLittle : Bool} {root : RegisterRange} (nonempty : range.Nonempty)
    (nonempty' : other.Nonempty) (inside : range.Inside root) (inside' : other.Inside root) :
    (sliceIn isLittle root range).Overlaps (sliceIn isLittle root other) ↔
      range.Shares other := by
  rw [shares_iff nonempty nonempty']
  unfold RegisterRange.Nonempty at nonempty nonempty'
  unfold Inside at inside inside'
  unfold RegisterSlice.Overlaps sliceIn byteSize
  cases isLittle
  · simp only [Bool.false_eq_true, if_false]
    omega
  · simp only [if_true]
    omega

section

variable (known : Roots inserted bank.roots)
include known

theorem rootId_eq_some_iff (nonempty : range.Nonempty)
    {id : Nat} : bank.rootId range.start range.byteSize = some id ↔
      ∃ root ∈ bank.roots, range.Inside root ∧ root.start = id := by
  have stop : range.start + range.byteSize = range.stop := by
    have := range.le
    unfold byteSize
    omega
  unfold RegisterBank.rootId
  simp only [stop, range.lt, if_true, Option.map_eq_some_iff, known.lookup_eq_some_iff nonempty,
    and_assoc, Inside]

theorem rootBits_start {root : RegisterRange}
    (mem : root ∈ bank.roots) : bank.rootBits root.start = byteBits root.byteSize := by
  unfold RegisterBank.rootBits
  simp only [getElem?_partitionPoint, known.find_start mem, Option.filter_some, beq_self_eq_true,
    if_true, Option.bind_some]

omit known in
/-- What the queries of a bank say of the ranges that were inserted. -/
structure AliasingExact (inserted : List RegisterRange) (bank : RegisterBank) : Prop where
  roots : Roots inserted bank.roots
  one_root : ∀ r ∈ inserted, r.Nonempty → ∃! root, root ∈ bank.roots ∧ r.Inside root
  slice_some : ∀ r : RegisterRange, r.Nonempty → ((∃ s, bank.slice r = .ok (some s)) ↔
    ∃ root ∈ bank.roots, r.Inside root ∧ root.byteSize < 2 ^ 29)
  slice_none : ∀ r : RegisterRange, r.Nonempty → (bank.slice r = .ok none ↔
    ∀ root ∈ bank.roots, ¬ r.Inside root)
  slice_error : ∀ r : RegisterRange, r.Nonempty →
    (bank.slice r = .error (.integerOverflow "register width") ↔
      ∃ root ∈ bank.roots, r.Inside root ∧ 2 ^ 29 ≤ root.byteSize)
  window : ∀ (r : RegisterRange) (s : RegisterSlice), r.Nonempty → bank.slice r = .ok (some s) →
    0 < s.bits ∧ 8 * s.byteOffset + s.bits ≤ s.rootBits
  aliases : ∀ (r r' : RegisterRange) (s s' : RegisterSlice), r.Nonempty → r'.Nonempty →
    bank.slice r = .ok (some s) → bank.slice r' = .ok (some s') →
    (r.Shares r' ↔ s.root = s'.root ∧ s.Overlaps s')
  root_id : ∀ r : RegisterRange, r.Nonempty → ∀ id,
    (bank.rootId r.start r.byteSize = some id ↔ ∃ root ∈ bank.roots, r.Inside root ∧ root.start = id)
  root_agrees : ∀ (r : RegisterRange) (s : RegisterSlice), r.Nonempty →
    bank.slice r = .ok (some s) →
    bank.rootId r.start r.byteSize = some s.root ∧ bank.rootBits s.root = some s.rootBits

theorem Roots.aliasingExact : AliasingExact inserted bank where
  roots := known
  one_root := by
    intro r mem nonempty
    obtain ⟨root, kept, inside⟩ := known.inside r mem nonempty
    refine ⟨root, ⟨kept, inside⟩, ?_⟩
    intro other ⟨kept', inside'⟩
    exact known.unique kept' kept (contains_start nonempty inside') (contains_start nonempty inside)
  slice_some := by
    intro r nonempty
    simp only [slice_eq_some_iff known nonempty]
    constructor
    · intro ⟨s, root, mem, inside, small, _⟩
      exact ⟨root, mem, inside, small⟩
    · intro ⟨root, mem, inside, small⟩
      exact ⟨_, root, mem, inside, small, rfl⟩
  slice_none := by
    intro r nonempty
    constructor
    · intro ran root mem inside
      rw [slice_of_inside known nonempty mem inside] at ran
      split at ran <;> cases ran
    · exact slice_of_outside known nonempty
  slice_error := by
    intro r nonempty
    constructor
    · intro ran
      by_cases placed : ∃ root ∈ bank.roots, r.Inside root
      · obtain ⟨root, mem, inside⟩ := placed
        rw [slice_of_inside known nonempty mem inside] at ran
        split at ran
        · cases ran
        · exact ⟨root, mem, inside, not_lt.mp ‹_›⟩
      · rw [slice_of_outside known nonempty fun root mem inside => placed ⟨root, mem, inside⟩]
          at ran
        cases ran
    · intro ⟨root, mem, inside, large⟩
      rw [slice_of_inside known nonempty mem inside, if_neg (not_lt.mpr large)]
  window := by
    intro r s nonempty ran
    obtain ⟨root, mem, inside, -, rfl⟩ := (slice_eq_some_iff known nonempty).mp ran
    unfold RegisterRange.Nonempty at nonempty
    unfold Inside at inside
    unfold sliceIn byteSize
    dsimp only
    split <;> omega
  aliases := by
    intro r r' s s' nonempty nonempty' ran ran'
    obtain ⟨root, mem, inside, -, rfl⟩ := (slice_eq_some_iff known nonempty).mp ran
    obtain ⟨root', mem', inside', -, rfl⟩ := (slice_eq_some_iff known nonempty').mp ran'
    constructor
    · intro shares
      obtain ⟨byte, contains, contains'⟩ := id shares
      have same : root = root' := known.unique mem mem'
        (show root.Contains byte from ⟨inside.1.trans contains.1, contains.2.trans_le inside.2⟩)
        ⟨inside'.1.trans contains'.1, contains'.2.trans_le inside'.2⟩
      subst same
      exact ⟨rfl, (sliceIn_overlaps_iff nonempty nonempty' inside inside').mpr shares⟩
    · intro ⟨sameRoot, overlaps⟩
      have starts : root.start = root'.start := sameRoot
      have same : root = root' := known.unique mem mem'
        (show root.Contains root.start from ⟨le_rfl, known.nonempty root mem⟩)
        ⟨starts.ge, starts ▸ known.nonempty root' mem'⟩
      subst same
      exact (sliceIn_overlaps_iff nonempty nonempty' inside inside').mp overlaps
  root_id := by
    intro r nonempty id
    exact rootId_eq_some_iff known nonempty
  root_agrees := by
    intro r s nonempty ran
    obtain ⟨root, mem, inside, small, rfl⟩ := (slice_eq_some_iff known nonempty).mp ran
    constructor
    · exact (rootId_eq_some_iff known nonempty).mpr ⟨root, mem, inside, rfl⟩
    · show bank.rootBits root.start = some (root.byteSize * 8)
      rw [rootBits_start known mem]
      exact byteBits_eq_some_iff.mpr ⟨small, rfl⟩

theorem roots_insertRanges (batches : List (List RegisterRange)) :
    Roots (inserted ++ batches.flatten) (batches.foldl RegisterBank.insertRanges bank).roots := by
  induction batches generalizing inserted bank with
  | nil => simpa using known
  | cons batch batches ih =>
    rw [flatten_cons, ← append_assoc]
    exact ih (known.insert batch)

end

/-- After any insertions the queries of a bank are exact, apart from the roots that are too wide
for a slice. -/
theorem register_aliasing_exact (language : Language) (initial : List RegisterRange)
    (registers : registerRanges language = .ok initial) (batches : List (List RegisterRange)) :
    ∃ bank, RegisterBank.new language = .ok bank ∧
      AliasingExact (initial ++ batches.flatten)
        (batches.foldl RegisterBank.insertRanges bank) := by
  refine ⟨⟨language, normaliseRegisterRanges initial⟩, ?_, ?_⟩
  · simp [RegisterBank.new, languageRegisterRanges, registers]
  · apply Roots.aliasingExact
    have known : Roots initial (RegisterBank.mk language (normaliseRegisterRanges initial)).roots :=
      normaliseRegisterRanges_roots
    exact roots_insertRanges known batches

/-- A register of four bytes with a part of it, and a range that touches them. -/
theorem register_aliasing_exact_touching :
    ∃ bank, RegisterBank.new ⟨false, [(0, 4), (1, 2)]⟩ = .ok bank ∧
      AliasingExact ([⟨0, 4, by decide, by decide⟩, ⟨1, 3, by decide, by decide⟩] ++
          [[⟨4, 8, by decide, by decide⟩]].flatten)
        ([[⟨4, 8, by decide, by decide⟩]].foldl RegisterBank.insertRanges bank) :=
  register_aliasing_exact ⟨false, [(0, 4), (1, 2)]⟩
    [⟨0, 4, by decide, by decide⟩, ⟨1, 3, by decide, by decide⟩] rfl
    [[⟨4, 8, by decide, by decide⟩]]

/-- A range of `2 ^ 29` bytes lies inside the root that it makes, but has no slice. -/
theorem slice_of_wide_root :
    (RegisterBank.new ⟨true, []⟩).map (fun bank =>
        (bank.insertRanges [⟨0, 2 ^ 29, by decide, by decide⟩]).roots) =
      .ok [⟨0, 2 ^ 29, by decide, by decide⟩] ∧
    (RegisterBank.new ⟨true, []⟩).map (fun bank =>
        (bank.insertRanges [⟨0, 2 ^ 29, by decide, by decide⟩]).slice
          ⟨0, 2 ^ 29, by decide, by decide⟩) =
      .ok (.error (.integerOverflow "register width")) :=
  ⟨rfl, rfl⟩

end Aliasing

end Fugue.Il
