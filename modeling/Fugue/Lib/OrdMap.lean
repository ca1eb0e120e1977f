import Fugue.Lib.Partial
import Mathlib.Order.Lattice
import Mathlib.Order.Defs.LinearOrder
import Mathlib.Data.List.Pairwise
import Mathlib.Data.List.Sort

/-!
# Ordered maps

A map that is iterated in the order of its keys, as a list of entries with strictly growing keys.
Everything about a map is said by the membership of its entries: `mem_insert` and `mem_erase` give
the entries after an update, `get?_eq_some` reads a lookup as a membership, and `unique` says that
a key has one value.
-/

namespace Fugue.Lib

open List Option

universe u v

structure OrdMap (K : Type u) (V : Type v) [LinearOrder K] where
  entries : List (K × V)
  sorted : entries.Pairwise fun x y => x.1 < y.1

namespace OrdMap

variable {K : Type u} {V : Type v} [LinearOrder K]

/-- The entries with the value of `k` set to `v`. -/
def insertEntry (k : K) (v : V) : List (K × V) → List (K × V)
  | [] => [(k, v)]
  | (a, b) :: rest =>
    if k < a then (k, v) :: (a, b) :: rest
    else if a < k then (a, b) :: insertEntry k v rest
    else (k, v) :: rest

theorem mem_insertEntry {k : K} {v : V} {x : K × V} : ∀ {entries : List (K × V)},
    entries.Pairwise (fun x y => x.1 < y.1) →
    (x ∈ insertEntry k v entries ↔ x = (k, v) ∨ (x ∈ entries ∧ x.1 ≠ k))
  | [], _ => by simp [insertEntry]
  | (a, b) :: rest, sorted => by
    obtain ⟨above, sorted⟩ := pairwise_cons.mp sorted
    have ih := mem_insertEntry (k := k) (v := v) (x := x) sorted
    unfold insertEntry
    rcases lt_trichotomy k a with lt | rfl | gt
    · have rest_ne : ∀ y ∈ rest, y.1 ≠ k := fun y mem => (lt_trans lt (above y mem)).ne'
      rw [if_pos lt]
      simp only [mem_cons]
      constructor
      · rintro (rfl | rfl | mem)
        · exact .inl rfl
        · exact .inr ⟨.inl rfl, lt.ne'⟩
        · exact .inr ⟨.inr mem, rest_ne x mem⟩
      · rintro (rfl | ⟨rfl | mem, -⟩)
        · exact .inl rfl
        · exact .inr (.inl rfl)
        · exact .inr (.inr mem)
    · have rest_ne : ∀ y ∈ rest, y.1 ≠ k := fun y mem => (above y mem).ne'
      rw [if_neg (lt_irrefl _), if_neg (lt_irrefl _)]
      simp only [mem_cons]
      constructor
      · rintro (rfl | mem)
        · exact .inl rfl
        · exact .inr ⟨.inr mem, rest_ne x mem⟩
      · rintro (rfl | ⟨rfl | mem, ne⟩)
        · exact .inl rfl
        · exact absurd rfl ne
        · exact .inr mem
    · rw [if_neg gt.not_gt, if_pos gt]
      simp only [mem_cons, ih]
      constructor
      · rintro (rfl | rfl | ⟨mem, ne⟩)
        · exact .inr ⟨.inl rfl, gt.ne⟩
        · exact .inl rfl
        · exact .inr ⟨.inr mem, ne⟩
      · rintro (rfl | ⟨rfl | mem, ne⟩)
        · exact .inr (.inl rfl)
        · exact .inl rfl
        · exact .inr (.inr ⟨mem, ne⟩)

theorem sorted_insertEntry {k : K} {v : V} : ∀ {entries : List (K × V)},
    entries.Pairwise (fun x y => x.1 < y.1) →
    (insertEntry k v entries).Pairwise fun x y => x.1 < y.1
  | [], _ => by simp [insertEntry]
  | (a, b) :: rest, sorted => by
    obtain ⟨above, sorted'⟩ := pairwise_cons.mp sorted
    unfold insertEntry
    rcases lt_trichotomy k a with lt | rfl | gt
    · rw [if_pos lt, pairwise_cons]
      refine ⟨fun y mem => ?_, sorted⟩
      rcases mem_cons.mp mem with rfl | mem
      · exact lt
      · exact lt_trans lt (above y mem)
    · rw [if_neg (lt_irrefl _), if_neg (lt_irrefl _), pairwise_cons]
      exact ⟨above, sorted'⟩
    · rw [if_neg gt.not_gt, if_pos gt, pairwise_cons]
      refine ⟨fun y mem => ?_, sorted_insertEntry sorted'⟩
      rcases (mem_insertEntry sorted').mp mem with rfl | ⟨mem, -⟩
      · exact gt
      · exact above y mem

def empty : OrdMap K V := ⟨[], .nil⟩

instance : Inhabited (OrdMap K V) := ⟨empty⟩

def get? (m : OrdMap K V) (k : K) : Option V :=
  (m.entries.find? fun entry => decide (entry.1 = k)).map Prod.snd

/-- Set the value of a key. -/
def insert (m : OrdMap K V) (k : K) (v : V) : OrdMap K V :=
  ⟨insertEntry k v m.entries, sorted_insertEntry m.sorted⟩

/-- Take a key out. -/
def erase (m : OrdMap K V) (k : K) : OrdMap K V :=
  ⟨m.entries.filter fun entry => decide (entry.1 ≠ k), m.sorted.filter _⟩

/-- Keep the entries that `p` accepts. -/
def retain (m : OrdMap K V) (p : K → V → Bool) : OrdMap K V :=
  ⟨m.entries.filter fun entry => p entry.1 entry.2, m.sorted.filter _⟩

/-- The entries that `f` gives a value, with that value. -/
def filterMap {W : Type v} (m : OrdMap K V) (f : K → V → Option W) : OrdMap K W :=
  ⟨m.entries.filterMap fun entry => (f entry.1 entry.2).map fun w => (entry.1, w), by
    refine List.Pairwise.filterMap _ ?_ m.sorted
    intro x y lt x' xEq y' yEq
    obtain ⟨_, -, rfl⟩ := map_eq_some_iff.mp xEq
    obtain ⟨_, -, rfl⟩ := map_eq_some_iff.mp yEq
    exact lt⟩

/-- The entry with the greatest key up to `k`. -/
def floor? (m : OrdMap K V) (k : K) : Option (K × V) :=
  (m.entries.filter fun entry => decide (entry.1 ≤ k)).getLast?

def len (m : OrdMap K V) : ℕ := m.entries.length

variable {m : OrdMap K V} {k : K} {v w : V} {x : K × V}

@[simp]
theorem entries_empty : (empty : OrdMap K V).entries = [] := rfl

@[simp]
theorem mem_insert : x ∈ (m.insert k v).entries ↔ x = (k, v) ∨ (x ∈ m.entries ∧ x.1 ≠ k) :=
  mem_insertEntry m.sorted

@[simp]
theorem mem_erase : x ∈ (m.erase k).entries ↔ x ∈ m.entries ∧ x.1 ≠ k := by simp [erase]

@[simp]
theorem mem_retain {p : K → V → Bool} :
    x ∈ (m.retain p).entries ↔ x ∈ m.entries ∧ p x.1 x.2 = true := by simp [retain]

theorem mem_filterMap {W : Type v} {f : K → V → Option W} {w : W} :
    (k, w) ∈ (m.filterMap f).entries ↔ ∃ v, (k, v) ∈ m.entries ∧ f k v = some w := by
  simp only [filterMap, List.mem_filterMap, map_eq_some_iff, Prod.mk.injEq]
  constructor
  · intro ⟨⟨k', v⟩, mem, w', eq, same, value⟩
    subst same value
    exact ⟨v, mem, eq⟩
  · intro ⟨v, mem, eq⟩
    exact ⟨(k, v), mem, w, eq, rfl, rfl⟩

theorem eq_of_mem_iff {m' : OrdMap K V} (same : ∀ x, x ∈ m.entries ↔ x ∈ m'.entries) :
    m = m' := by
  have eq := List.Pairwise.eq_of_mem_iff m.sorted m'.sorted same
  obtain ⟨left, sorted⟩ := m
  subst eq
  rfl

theorem unique (left : (k, v) ∈ m.entries) (right : (k, w) ∈ m.entries) : v = w := by
  by_contra ne
  have apart : m.entries.Pairwise fun x y => x.1 ≠ y.1 := m.sorted.imp fun lt => lt.ne
  have : Std.Symm fun x y : K × V => x.1 ≠ y.1 := ⟨fun _ _ h => h.symm⟩
  exact apart.forall left right (fun eq => ne (Prod.mk.inj eq).2) rfl

theorem get?_eq_some : m.get? k = some v ↔ (k, v) ∈ m.entries := by
  constructor
  · intro found
    obtain ⟨⟨a, b⟩, at_, rfl⟩ := map_eq_some_iff.mp found
    have eq : a = k := by simpa using find?_some at_
    exact eq ▸ mem_of_find?_eq_some at_
  · intro mem
    cases found : m.entries.find? fun entry => decide (entry.1 = k) with
    | none =>
      have := find?_eq_none.mp found (k, v) mem
      simp at this
    | some entry =>
      obtain ⟨a, b⟩ := entry
      have eq : a = k := by simpa using find?_some found
      subst eq
      have := m.unique (mem_of_find?_eq_some found) mem
      simp [get?, found, this]

theorem get?_eq_none : m.get? k = none ↔ ∀ v, (k, v) ∉ m.entries := by
  constructor
  · intro none v mem
    rw [get?_eq_some.mpr mem] at none
    cases none
  · intro absent
    cases found : m.get? k with
    | none => rfl
    | some v => exact absurd (get?_eq_some.mp found) (absent v)

theorem get?_insert_self : (m.insert k v).get? k = some v :=
  get?_eq_some.mpr (mem_insert.mpr (.inl rfl))

theorem get?_congr {m' : OrdMap K V} (same : ∀ v, (k, v) ∈ m.entries ↔ (k, v) ∈ m'.entries) :
    m.get? k = m'.get? k := by
  cases found : m'.get? k with
  | none => exact get?_eq_none.mpr fun v mem => get?_eq_none.mp found v ((same v).mp mem)
  | some v => exact get?_eq_some.mpr ((same v).mpr (get?_eq_some.mp found))

theorem get?_insert_ne {k' : K} (ne : k' ≠ k) : (m.insert k v).get? k' = m.get? k' := by
  refine get?_congr fun w => ?_
  simp [ne]

theorem get?_erase_ne {k' : K} (ne : k' ≠ k) : (m.erase k).get? k' = m.get? k' := by
  refine get?_congr fun w => ?_
  simp [ne]

/-- Set the value of a key, or take the key out if there is none. -/
def put (m : OrdMap K V) (k : K) : Option V → OrdMap K V
  | some v => m.insert k v
  | none => m.erase k

theorem get?_put (m : OrdMap K V) (k : K) (value : Option V) (k' : K) :
    (m.put k value).get? k' = if k' = k then value else m.get? k' := by
  split
  · rename_i same
    subst same
    cases value with
    | some v => exact get?_insert_self
    | none => exact get?_eq_none.mpr fun v mem => (mem_erase.mp mem).2 rfl
  · rename_i ne
    cases value with
    | some v => exact get?_insert_ne ne
    | none => exact get?_erase_ne ne

theorem floor?_eq_some {entry : K × V} (found : m.floor? k = some entry) :
    entry ∈ m.entries ∧ entry.1 ≤ k ∧ ∀ x ∈ m.entries, x.1 ≤ k → x.1 ≤ entry.1 := by
  have mem := mem_of_getLast? found
  obtain ⟨inside, le⟩ := mem_filter.mp mem
  refine ⟨inside, of_decide_eq_true le, ?_⟩
  intro x xMem xLe
  obtain ⟨front, split⟩ := getLast?_eq_some_iff.mp found
  have sorted := m.sorted.filter fun entry => decide (entry.1 ≤ k)
  have kept : x ∈ m.entries.filter fun entry => decide (entry.1 ≤ k) :=
    mem_filter.mpr ⟨xMem, decide_eq_true xLe⟩
  rw [split] at sorted kept
  rcases mem_append.mp kept with before | last
  · exact ((pairwise_append.mp sorted).2.2 x before entry (mem_singleton.mpr rfl)).le
  · rw [mem_singleton.mp last]

theorem floor?_eq_none (none : m.floor? k = none) : ∀ x ∈ m.entries, k < x.1 := by
  intro x mem
  have empty := getLast?_eq_none_iff.mp none
  by_contra not
  have kept : x ∈ m.entries.filter fun entry => decide (entry.1 ≤ k) :=
    mem_filter.mpr ⟨mem, decide_eq_true (not_lt.mp not)⟩
  rw [empty] at kept
  cases kept

end OrdMap

end Fugue.Lib
