import Fugue.Storage.Segments.Space

/-!
# What the submappings show

The submappings of a space are disjoint, so that at each address they show the reference and the
properties of at most one mapping (`Shows`). Cutting a range leaves what is shown outside of it
(`cutRange_spec`), an insertion at the top shows the new mapping over its range
(`insertSubmapTop_spec`), and filling the gaps adds to what is shown where nothing was
(`fillGaps_spec`).
-/

namespace Fugue.Storage.Segments

open Fugue.Lib Fugue.Ir IntervalMap List Apart
open AddressSpace (cutRange cutView gaps)

def Within (key : ℕ × ℕ) (address : ℕ) : Prop := key.1 ≤ address ∧ address ≤ key.2

section Submaps

variable {S : Type} [IntervalMap S SegmentSubMapping] {id : AddressSpaceId} {m : S}

/-- The submappings of the space `id`: disjoint intervals within the space, each with the
submapping of its range. -/
structure Submapped (id : AddressSpaceId) (m : S) : Prop where
  apart : Apart m
  keyed : ∀ x ∈ entries m, x.1 = bounds x.2.range ∧ x.2.range.space = id ∧ x.1.2 < 2 ^ 64

/-- The submappings show a mapping at an address. -/
def Shows (m : S) (address : ℕ) (mappingRef : SegmentMappingRef)
    (properties : SegmentProperties) : Prop :=
  ∃ x ∈ entries m, Within x.1 address ∧ x.2.mappingRef = mappingRef ∧ x.2.properties = properties

theorem submapped_new : Submapped id (IntervalMap.new : S) :=
  ⟨Apart.new, by simp [entries_new]⟩

/-- The part of an entry between two bounds. -/
def piece (x : (ℕ × ℕ) × SegmentSubMapping) (key : ℕ × ℕ) : (ℕ × ℕ) × SegmentSubMapping :=
  (key, { x.2 with range := ⟨x.2.range.space, key.1, key.2⟩ })

variable {x : (ℕ × ℕ) × SegmentSubMapping}

theorem Submapped.insert (submapped : Submapped id m)
    (keyed : x.1 = bounds x.2.range ∧ x.2.range.space = id ∧ x.1.2 < 2 ^ 64) (le : x.1.1 ≤ x.1.2)
    (clear : Clear m x.1) : Submapped id (IntervalMap.insert m x.1 x.2) ∧
      ∀ y, y ∈ entries (IntervalMap.insert m x.1 x.2) ↔ y = x ∨ y ∈ entries m := by
  refine ⟨⟨submapped.apart.insert le clear, fun y mem => ?_⟩,
    fun y => mem_insert le clear⟩
  rcases (mem_insert le clear).mp mem with rfl | old
  · exact keyed
  · exact submapped.keyed y old

variable {range : AddressRange}

theorem Submapped.insertLeft (submapped : Submapped id m)
    (keyed : x.1 = bounds x.2.range ∧ x.2.range.space = id ∧ x.1.2 < 2 ^ 64)
    (same : range.space = id) (meets : range.start ≤ x.1.2) (clear : Clear m x.1) :
    let m' := if x.2.range.start < range.start then
        match x.2.withLast ⟨range.space, range.start - 1⟩ with
        | some left => IntervalMap.insert m (bounds left.range) left
        | none => m
      else m
    Submapped id m' ∧ ∀ y, y ∈ entries m' ↔
      (x.1.1 < range.start ∧ y = piece x (x.1.1, range.start - 1)) ∨ y ∈ entries m := by
  obtain ⟨key, space, small⟩ := keyed
  have start : x.2.range.start = x.1.1 := (congrArg Prod.fst key).symm
  intro m'
  by_cases lt : x.1.1 < range.start
  · have view : x.2.withLast ⟨range.space, range.start - 1⟩ =
        some (piece x (x.1.1, range.start - 1)).2 := by
      rw [SegmentSubMapping.withLast, if_neg]
      · simp [piece, start]
      · rintro (ne | below)
        · exact ne (same.trans space.symm)
        · dsimp only at below
          omega
    have eq : m' = IntervalMap.insert m (piece x (x.1.1, range.start - 1)).1
        (piece x (x.1.1, range.start - 1)).2 := by
      simp only [m', start, if_pos lt, view]
      rfl
    obtain ⟨kept, mem⟩ := submapped.insert (x := piece x (x.1.1, range.start - 1))
      ⟨rfl, space, by simp only [piece]; omega⟩ (by simp only [piece]; omega) (fun y yMem => by
        have := clear y yMem
        simp only [piece]
        omega)
    rw [eq]
    refine ⟨kept, fun y => (mem y).trans ?_⟩
    simp [lt]
  · have eq : m' = m := by simp [m', start, if_neg lt]
    rw [eq]
    refine ⟨submapped, fun y => ?_⟩
    simp [lt]

theorem Submapped.insertRight (submapped : Submapped id m)
    (keyed : x.1 = bounds x.2.range ∧ x.2.range.space = id ∧ x.1.2 < 2 ^ 64)
    (same : range.space = id) (clear : Clear m (range.stop + 1, x.1.2)) :
    let m' := if range.stop < x.2.range.stop then
        match x.2.withStart ⟨range.space, range.stop + 1⟩ with
        | some right => IntervalMap.insert m (bounds right.range) right
        | none => m
      else m
    Submapped id m' ∧ ∀ y, y ∈ entries m' ↔
      (range.stop < x.1.2 ∧ y = piece x (range.stop + 1, x.1.2)) ∨ y ∈ entries m := by
  obtain ⟨key, space, small⟩ := keyed
  have stop : x.2.range.stop = x.1.2 := (congrArg Prod.snd key).symm
  intro m'
  by_cases lt : range.stop < x.1.2
  · have view : x.2.withStart ⟨range.space, range.stop + 1⟩ =
        some (piece x (range.stop + 1, x.1.2)).2 := by
      rw [SegmentSubMapping.withStart, if_neg]
      · simp [piece, stop]
      · rintro (ne | above)
        · exact ne (same.trans space.symm)
        · dsimp only at above
          omega
    have eq : m' = IntervalMap.insert m (piece x (range.stop + 1, x.1.2)).1
        (piece x (range.stop + 1, x.1.2)).2 := by
      simp only [m', stop, if_pos lt, view]
      rfl
    obtain ⟨kept, mem⟩ := submapped.insert (x := piece x (range.stop + 1, x.1.2))
      ⟨rfl, space, by simp only [piece]; omega⟩ (by simp only [piece]; omega) clear
    rw [eq]
    refine ⟨kept, fun y => (mem y).trans ?_⟩
    simp [lt]
  · have eq : m' = m := by simp [m', stop, if_neg lt]
    rw [eq]
    refine ⟨submapped, fun y => ?_⟩
    simp [lt]

/-- Cutting one submapping leaves its parts on the left and on the right of the range. -/
theorem cutView_spec (submapped : Submapped id m) (same : range.space = id)
    (mem : x ∈ entries m) (left : range.start ≤ x.1.2)
    (right : x.1.1 ≤ range.stop) (le : range.start ≤ range.stop) :
    Submapped id (cutView range m x) ∧
      ∀ y, y ∈ entries (cutView range m x) ↔
        (range.stop < x.1.2 ∧ y = piece x (range.stop + 1, x.1.2)) ∨
        (x.1.1 < range.start ∧ y = piece x (x.1.1, range.start - 1)) ∨ (y ∈ entries m ∧ y ≠ x) := by
  have keyed := submapped.keyed x mem
  have removed : Submapped id (IntervalMap.remove m x.1) :=
    ⟨submapped.apart.remove mem, fun y inRest =>
      submapped.keyed y ((submapped.apart.mem_remove mem).mp inRest).1⟩
  have clear : Clear (IntervalMap.remove m x.1) x.1 := by
    intro y inRest
    obtain ⟨yMem, ne⟩ := (submapped.apart.mem_remove mem).mp inRest
    have yLe := submapped.apart.nonempty y yMem
    have xLe := submapped.apart.nonempty x mem
    by_contra overlap
    rcases le_total x.1.1 y.1.1 with low | high
    · exact ne (submapped.apart.eq_of_common yMem mem (a := y.1.1) ⟨le_rfl, yLe⟩
        ⟨low, show y.1.1 ≤ x.1.2 by omega⟩)
    · exact ne (submapped.apart.eq_of_common yMem mem (a := x.1.1)
        ⟨high, show x.1.1 ≤ y.1.2 by omega⟩
        ⟨le_rfl, xLe⟩)
  obtain ⟨keptLeft, memLeft⟩ := removed.insertLeft keyed same left clear
  obtain ⟨kept, memRight⟩ := keptLeft.insertRight keyed same (by
    intro y inLeft
    rcases (memLeft y).mp inLeft with ⟨lt, rfl⟩ | inRest
    · simp only [piece]
      omega
    · have := clear y inRest
      omega)
  refine ⟨kept, fun y => (memRight y).trans ?_⟩
  rw [memLeft, submapped.apart.mem_remove mem]

theorem foldl_cutView_spec (same : range.space = id)
    (le : range.start ≤ range.stop) : ∀ (cuts : List ((ℕ × ℕ) × SegmentSubMapping)) (m : S),
    Submapped id m → cuts.Nodup →
    (∀ x ∈ cuts, x ∈ entries m ∧ range.start ≤ x.1.2 ∧ x.1.1 ≤ range.stop) →
    Submapped id (cuts.foldl (cutView range) m) ∧
      (∀ y ∈ entries (cuts.foldl (cutView range) m),
        range.start ≤ y.1.2 → y.1.1 ≤ range.stop → y ∈ entries m ∧ y ∉ cuts) ∧
      ∀ a mappingRef properties, ¬ Within (bounds range) a →
        (Shows (cuts.foldl (cutView range) m) a mappingRef properties ↔
          Shows m a mappingRef properties) := by
  intro cuts
  induction cuts with
  | nil =>
    intro m submapped _ _
    exact ⟨submapped, fun y mem _ _ => ⟨mem, by simp⟩, fun _ _ _ _ => Iff.rfl⟩
  | cons x cuts ih =>
    intro m submapped nodup members
    obtain ⟨absent, nodup'⟩ := nodup_cons.mp nodup
    obtain ⟨⟨mem, left, right⟩, members'⟩ := forall_mem_cons.mp members
    obtain ⟨kept, memCut⟩ := cutView_spec submapped same mem left right le
    obtain ⟨final, clears, shows⟩ := ih _ kept nodup' (by
      intro y yMem
      obtain ⟨inside, far⟩ := members' y yMem
      exact ⟨(memCut y).mpr (.inr (.inr ⟨inside, fun eq => absent (eq ▸ yMem)⟩)), far⟩)
    refine ⟨final, fun y yMem low high => ?_, fun a mappingRef properties outside => ?_⟩
    · obtain ⟨inCut, notLater⟩ := clears y yMem low high
      rcases (memCut y).mp inCut with ⟨lt, rfl⟩ | ⟨lt, rfl⟩ | ⟨inside, ne⟩
      · simp only [piece] at low high
        omega
      · simp only [piece] at low high
        omega
      · exact ⟨inside, by simp [ne, notLater]⟩
    · rw [foldl_cons, shows a mappingRef properties outside]
      have outside : ¬ (range.start ≤ a ∧ a ≤ range.stop) := outside
      constructor
      · rintro ⟨y, yMem, inside, rfl, rfl⟩
        rcases (memCut y).mp yMem with ⟨lt, rfl⟩ | ⟨lt, rfl⟩ | ⟨old, -⟩
        · simp only [piece, Within] at inside
          exact ⟨x, mem, ⟨by omega, by omega⟩, rfl, rfl⟩
        · simp only [piece, Within] at inside
          exact ⟨x, mem, ⟨by omega, by omega⟩, rfl, rfl⟩
        · exact ⟨y, old, inside, rfl, rfl⟩
      · rintro ⟨y, yMem, inside, rfl, rfl⟩
        by_cases eq : y = x
        · subst eq
          obtain ⟨low, high⟩ := inside
          rcases lt_or_ge range.stop a with beyond | within
          · exact ⟨piece y (range.stop + 1, y.1.2), (memCut _).mpr (.inl ⟨by omega, rfl⟩),
              ⟨beyond, high⟩, rfl, rfl⟩
          · exact ⟨piece y (y.1.1, range.start - 1), (memCut _).mpr (.inr (.inl ⟨by omega, rfl⟩)),
              ⟨low, by simp only [piece]; omega⟩, rfl, rfl⟩
        · exact ⟨y, (memCut y).mpr (.inr (.inr ⟨yMem, eq⟩)), inside, rfl, rfl⟩

/-- A cut range shows nothing, and what is shown elsewhere stays. -/
theorem cutRange_spec (submapped : Submapped id m) (same : range.space = id)
    (le : range.start ≤ range.stop) :
    Submapped id (cutRange range m) ∧
      Clear (cutRange range m) (bounds range) ∧
      ∀ a mappingRef properties, Shows (cutRange range m) a mappingRef properties ↔
        ¬ Within (bounds range) a ∧ Shows m a mappingRef properties := by
  obtain ⟨final, clears, shows⟩ := foldl_cutView_spec same le (iter m (bounds range)) m submapped
    submapped.apart.iter_nodup (fun x mem => by
      obtain ⟨inside, high, low⟩ := mem_iter.mp mem
      exact ⟨inside, low, high⟩)
  have clear : Clear (cutRange range m) (bounds range) := by
    intro y mem
    by_contra near
    simp only [bounds] at near
    obtain ⟨inside, notCut⟩ := clears y mem (by omega) (by omega)
    exact notCut (mem_iter.mpr ⟨inside, by simp only [bounds]; omega, by simp only [bounds]; omega⟩)
  refine ⟨final, clear, fun a mappingRef properties => ?_⟩
  by_cases inside : Within (bounds range) a
  · refine iff_of_false ?_ fun both => both.1 inside
    rintro ⟨y, mem, within, -, -⟩
    have := clear y mem
    obtain ⟨low, high⟩ := inside
    obtain ⟨low', high'⟩ := within
    omega
  · rw [and_iff_right inside]
    exact shows a mappingRef properties inside

theorem insertTop_spec (submapped : Submapped id m) (same : range.space = id)
    (proper : range.Proper) (mappingRef : SegmentMappingRef) (properties : SegmentProperties) :
    let m' := IntervalMap.insert (cutRange range m) (bounds range)
      ⟨mappingRef, range, properties⟩
    Submapped id m' ∧ ∀ a shownRef shown, Shows m' a shownRef shown ↔
      (Within (bounds range) a ∧ mappingRef = shownRef ∧ properties = shown) ∨
      (¬ Within (bounds range) a ∧ Shows m a shownRef shown) := by
  obtain ⟨cut, clear, shows⟩ := cutRange_spec submapped same proper.start_le
  obtain ⟨kept, mem⟩ := cut.insert (x := (bounds range, ⟨mappingRef, range, properties⟩))
    ⟨rfl, same, proper.stop_lt⟩ proper.start_le clear
  refine ⟨kept, fun a shownRef shown => ?_⟩
  rw [← shows a shownRef shown]
  constructor
  · rintro ⟨y, yMem, inside, eqRef, eqProps⟩
    rcases (mem y).mp yMem with rfl | old
    · exact .inl ⟨inside, eqRef, eqProps⟩
    · exact .inr ⟨y, old, inside, eqRef, eqProps⟩
  · rintro (⟨inside, eqRef, eqProps⟩ | ⟨y, yMem, inside, eqRef, eqProps⟩)
    · exact ⟨_, (mem _).mpr (.inl rfl), inside, eqRef, eqProps⟩
    · exact ⟨y, (mem y).mpr (.inr yMem), inside, eqRef, eqProps⟩

theorem gaps_spec (last : ℕ) : ∀ (covered : List (ℕ × ℕ)) (current : ℕ),
    covered.Pairwise (fun x y => x.2 < y.1) →
    (∀ x ∈ covered, x.1 ≤ x.2 ∧ current ≤ x.2) →
    (∀ gap ∈ gaps last current covered,
      current ≤ gap.1 ∧ gap.1 ≤ gap.2 ∧ (gap.2 ≤ last ∨ ∃ x ∈ covered, gap.2 < x.1)) ∧
    (gaps last current covered).Pairwise (fun x y => x.2 < y.1) ∧
    ∀ a, a ≤ last → ((∃ gap ∈ gaps last current covered, Within gap a) ↔
      current ≤ a ∧ ∀ x ∈ covered, ¬ Within x a) := by
  intro covered
  induction covered with
  | nil =>
    intro current _ _
    unfold gaps
    split
    · rename_i le
      refine ⟨by simp [le], by simp, fun a below => ?_⟩
      simp [Within, below]
    · refine ⟨by simp, by simp, fun a below => ?_⟩
      simp only [not_mem_nil, false_and, exists_false, false_iff]
      omega
  | cons x covered ih =>
    intro current ascending bounded
    obtain ⟨later, ascending'⟩ := pairwise_cons.mp ascending
    obtain ⟨⟨nonempty, reaches⟩, bounded'⟩ := forall_mem_cons.mp bounded
    have first : ∀ gap ∈ (if current < x.1 then [(current, x.1 - 1)] else [] : List (ℕ × ℕ)),
        current < x.1 ∧ gap = (current, x.1 - 1) := by
      intro gap mem
      split at mem
      · exact ⟨‹_›, mem_singleton.mp mem⟩
      · cases mem
    obtain ⟨inside, apart, exact_⟩ := ih (max (x.2 + 1) current) ascending' (by
      intro y mem
      have := later y mem
      have := bounded' y mem
      omega)
    have rest : ∀ gap ∈ (if last ≤ x.2 then [] else
        gaps last (max (x.2 + 1) current) covered : List (ℕ × ℕ)),
        x.2 < gap.1 ∧ current ≤ gap.1 ∧ gap.1 ≤ gap.2 ∧
          (gap.2 ≤ last ∨ ∃ y ∈ covered, gap.2 < y.1) := by
      intro gap mem
      split at mem
      · cases mem
      · obtain ⟨low, le, high⟩ := inside gap mem
        exact ⟨by omega, by omega, le, high⟩
    unfold gaps
    refine ⟨fun gap mem => ?_, ?_, fun a below => ?_⟩
    · rcases mem_append.mp mem with mem | mem
      · obtain ⟨lt, rfl⟩ := first gap mem
        exact ⟨le_rfl, by dsimp only; omega, .inr ⟨x, .head _, by dsimp only; omega⟩⟩
      · obtain ⟨-, low, le, high⟩ := rest gap mem
        exact ⟨low, le, high.imp_right fun ⟨y, mem, lt⟩ => ⟨y, .tail _ mem, lt⟩⟩
    · refine pairwise_append.mpr ⟨?_, ?_, ?_⟩
      · split <;> simp
      · split
        · exact .nil
        · exact apart
      · intro left leftMem right rightMem
        obtain ⟨lt, rfl⟩ := first left leftMem
        have := (rest right rightMem).1
        omega
    · simp only [forall_mem_cons, mem_append, or_and_right, exists_or]
      -- below the interval, within it, or beyond it
      rcases lt_or_ge a x.1 with before | from_
      · have notRest : ¬ ∃ gap ∈ (if last ≤ x.2 then [] else
            gaps last (max (x.2 + 1) current) covered : List (ℕ × ℕ)),
            Within gap a := by
          rintro ⟨gap, mem, low, -⟩
          have := (rest gap mem).1
          omega
        have clear : ∀ y ∈ covered, ¬ Within y a := by
          rintro y mem ⟨low, -⟩
          have := later y mem
          omega
        rw [or_iff_left notRest]
        constructor
        · rintro ⟨gap, mem, low, -⟩
          obtain ⟨-, rfl⟩ := first gap mem
          exact ⟨low, fun within => by have := within.1; omega, clear⟩
        · rintro ⟨low, -, -⟩
          refine ⟨(current, x.1 - 1), ?_, low, by dsimp only; omega⟩
          rw [if_pos (by omega)]
          exact mem_singleton_self _
      · have notFirst : ¬ ∃ gap ∈ (if current < x.1 then [(current, x.1 - 1)] else [] :
            List (ℕ × ℕ)), Within gap a := by
          rintro ⟨gap, mem, -, high⟩
          obtain ⟨lt, rfl⟩ := first gap mem
          omega
        rw [or_iff_right notFirst]
        rcases lt_or_ge x.2 a with beyond | upTo
        · rw [if_neg (by omega), exact_ a below]
          have outside : ¬ Within x a := fun within => by have := within.2; omega
          rw [and_iff_right outside]
          exact and_congr_left fun _ => by omega
        · refine iff_of_false ?_ fun both => both.2.1 ⟨from_, upTo⟩
          rintro ⟨gap, mem, low, -⟩
          have := (rest gap mem).1
          omega

theorem foldl_insert_spec {view : ℕ × ℕ → SegmentSubMapping} : ∀ (keys : List (ℕ × ℕ)) (m : S),
    Submapped id m → keys.Pairwise (fun x y => x.2 < y.1) →
    (∀ key ∈ keys, key.1 ≤ key.2 ∧ key.2 < 2 ^ 64 ∧ (view key).range = ⟨id, key.1, key.2⟩ ∧
      Clear m key) →
    Submapped id (keys.foldl (fun m key => IntervalMap.insert m key (view key)) m) ∧
      ∀ x, x ∈ entries (keys.foldl (fun m key => IntervalMap.insert m key (view key)) m) ↔
        x ∈ entries m ∨ ∃ key ∈ keys, x = (key, view key) := by
  intro keys
  induction keys with
  | nil =>
    intro m submapped _ _
    exact ⟨submapped, fun x => by simp⟩
  | cons key keys ih =>
    intro m submapped ascending fits
    obtain ⟨later, ascending'⟩ := pairwise_cons.mp ascending
    obtain ⟨⟨le, small, range, clear⟩, fits'⟩ := forall_mem_cons.mp fits
    obtain ⟨kept, mem⟩ := @Submapped.insert S _ id m (key, view key) submapped
      ⟨by rw [range]; rfl, by rw [range], small⟩ le clear
    obtain ⟨final, memFinal⟩ := ih _ kept ascending' (by
      intro other otherMem
      obtain ⟨le', small', ranged', clear'⟩ := fits' other otherMem
      refine ⟨le', small', ranged', fun x xMem => ?_⟩
      rcases (mem x).mp xMem with rfl | old
      · exact .inl (later other otherMem)
      · exact clear' x old)
    refine ⟨final, fun x => (memFinal x).trans ?_⟩
    rw [mem, exists_mem_cons_iff, or_assoc, or_left_comm]

/-- Filling the gaps of a range shows the mapping where nothing was shown. -/
theorem fillGaps_spec (submapped : Submapped id m) (proper : range.Proper)
    (mappingRef : SegmentMappingRef) (properties : SegmentProperties) :
    let m' := (gaps range.stop range.start ((iter m (bounds range)).map Prod.fst)).foldl
      (fun submaps gap => IntervalMap.insert submaps gap ⟨mappingRef, ⟨id, gap.1, gap.2⟩, properties⟩)
      m
    Submapped id m' ∧ ∀ a shownRef shown, Shows m' a shownRef shown ↔
      Shows m a shownRef shown ∨ (Within (bounds range) a ∧ (∀ x ∈ entries m, ¬ Within x.1 a) ∧
        mappingRef = shownRef ∧ properties = shown) := by
  have small := proper.stop_lt
  have members : ∀ key ∈ (iter m (bounds range)).map Prod.fst, ∃ x ∈ entries m, x.1 = key ∧
      key.1 ≤ key.2 ∧ key.1 ≤ range.stop ∧ range.start ≤ key.2 := by
    intro key mem
    obtain ⟨x, xMem, rfl⟩ := mem_map.mp mem
    obtain ⟨inside, low, high⟩ := mem_iter.mp xMem
    exact ⟨x, inside, rfl, submapped.apart.nonempty x inside, low, high⟩
  obtain ⟨bounded, ascending, exact_⟩ := gaps_spec range.stop
    ((iter m (bounds range)).map Prod.fst) range.start
    (pairwise_map.mpr submapped.apart.iter_ascending) (fun key mem => by
      obtain ⟨x, -, -, nonempty, -, high⟩ := members key mem
      exact ⟨nonempty, high⟩)
  have within : ∀ gap ∈ gaps range.stop range.start
      ((iter m (bounds range)).map Prod.fst), range.start ≤ gap.1 ∧ gap.1 ≤ gap.2 ∧
        gap.2 ≤ range.stop := by
    intro gap mem
    obtain ⟨low, nonempty, high⟩ := bounded gap mem
    refine ⟨low, nonempty, ?_⟩
    rcases high with high | ⟨key, keyMem, lt⟩
    · exact high
    · obtain ⟨-, -, -, -, below, -⟩ := members key keyMem
      omega
  have clear : ∀ gap ∈ gaps range.stop range.start
      ((iter m (bounds range)).map Prod.fst), Clear m gap := by
    intro gap mem x xMem
    obtain ⟨low, nonempty, high⟩ := within gap mem
    have xLe := submapped.apart.nonempty x xMem
    by_contra near
    -- a point that the gap and the entry share is neither
    have common : ∃ a, Within gap a ∧ Within x.1 a := by
      rcases le_total gap.1 x.1.1 with first | second
      · exact ⟨x.1.1, ⟨first, by omega⟩, le_rfl, xLe⟩
      · exact ⟨gap.1, ⟨le_rfl, nonempty⟩, second, by omega⟩
    obtain ⟨a, inGap, inEntry⟩ := common
    have inRange := inGap.2
    refine ((exact_ a (by omega)).mp ⟨gap, mem, inGap⟩).2 x.1 (mem_map_of_mem ?_) inEntry
    exact mem_iter.mpr ⟨xMem, by simp only [bounds]; omega, by simp only [bounds]; omega⟩
  obtain ⟨kept, mem⟩ := @foldl_insert_spec S _ id
    (fun gap => ⟨mappingRef, ⟨id, gap.1, gap.2⟩, properties⟩) _ m submapped ascending
    (fun gap gapMem => by
      obtain ⟨-, nonempty, high⟩ := within gap gapMem
      exact ⟨nonempty, by omega, rfl, clear gap gapMem⟩)
  refine ⟨kept, fun a shownRef shown => ?_⟩
  constructor
  · rintro ⟨x, xMem, inside, eqRef, eqProps⟩
    rcases (mem x).mp xMem with old | ⟨gap, gapMem, rfl⟩
    · exact .inl ⟨x, old, inside, eqRef, eqProps⟩
    · obtain ⟨low, -, high⟩ := within gap gapMem
      obtain ⟨low', high'⟩ := inside
      dsimp only at low' high'
      refine .inr ⟨⟨by simp only [bounds]; omega, by simp only [bounds]; omega⟩, ?_, eqRef,
        eqProps⟩
      rintro y yMem ⟨yLow, yHigh⟩
      have := clear gap gapMem y yMem
      omega
  · rintro (⟨x, xMem, inside⟩ | ⟨⟨low, high⟩, free, eqRef, eqProps⟩)
    · exact ⟨x, (mem x).mpr (.inl xMem), inside⟩
    · obtain ⟨gap, gapMem, inGap⟩ := (exact_ a high).mpr ⟨low, fun key keyMem => by
        obtain ⟨x, xMem, rfl, -⟩ := members key keyMem
        exact free x xMem⟩
      exact ⟨_, (mem _).mpr (.inr ⟨gap, gapMem, rfl⟩), inGap, eqRef, eqProps⟩

end Submaps

end Fugue.Storage.Segments
