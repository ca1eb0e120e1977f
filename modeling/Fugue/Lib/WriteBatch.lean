import Mathlib
import Fugue.Lib.OrdMap

/-!
# Batches of writes

A batch is a list of writes to keys, each with a new value or none for a removal, applied in order.
An unstable sort may leave writes to the same key in any order; `reorder_iff` says when that does
not matter: exactly if all the writes to a key have the same value.
-/

namespace Fugue.Lib

open List Function

universe u v

structure KeyWrite (K : Type u) (V : Type v) where
  key : K
  value : Option V

variable {K : Type u} {V : Type v} {writes : List (KeyWrite K V)}

/-- All the writes to a key have the same value. -/
def Agree (writes : List (KeyWrite K V)) : Prop :=
  ∀ write ∈ writes, ∀ other ∈ writes, write.key = other.key → write.value = other.value

/-- Writes whose value is a function of their key agree. -/
theorem agree_of_value (value : K → Option V) (values : ∀ write ∈ writes, write.value =
    value write.key) : Agree writes := by
  intro write mem other otherMem same
  rw [values write mem, values other otherMem, same]

/-- Where the key of a write names the record that it comes from, the writes of a list of records
agree if those of each record do. -/
theorem agree_flatMap {R I : Type*} {records : List R} {f : R → List (KeyWrite K V)} {name : R → I}
    (owner : K → Option I) (distinct : (records.map name).Nodup)
    (owned : ∀ record ∈ records, ∀ write ∈ f record, owner write.key = some (name record)) :
    Agree (records.flatMap f) ↔ ∀ record ∈ records, Agree (f record) := by
  constructor
  · intro agree record mem write inside other otherInside
    exact agree write (mem_flatMap.mpr ⟨record, mem, inside⟩) other
      (mem_flatMap.mpr ⟨record, mem, otherInside⟩)
  · intro agree write inside other otherInside same
    obtain ⟨record, mem, inside⟩ := mem_flatMap.mp inside
    obtain ⟨record', mem', otherInside⟩ := mem_flatMap.mp otherInside
    have sameName : name record = name record' := by
      have left := owned record mem write inside
      rw [same, owned record' mem' other otherInside] at left
      exact (Option.some.inj left).symm
    obtain rfl := inj_on_of_nodup_map distinct mem mem' sameName
    exact agree record mem write inside other otherInside same

/-- The keys of each part carry its number, from the first number on. -/
def Labelled (label : K → ℕ) : ℕ → List (List (KeyWrite K V)) → Prop
  | _, [] => True
  | number, part :: parts =>
    (∀ write ∈ part, label write.key = number) ∧ Labelled label (number + 1) parts

theorem Labelled.le {label : K → ℕ} {parts : List (List (KeyWrite K V))} {number : ℕ}
    (labelled : Labelled label number parts) :
    ∀ write ∈ parts.flatten, number ≤ label write.key := by
  induction parts generalizing number with
  | nil =>
    intro write mem
    cases mem
  | cons part parts ih =>
    intro write mem
    rw [flatten_cons, mem_append] at mem
    rcases mem with here | later
    · exact (labelled.1 write here).ge
    · exact (Nat.le_succ _).trans (ih labelled.2 write later)

/-- Parts with keys of their own agree together if each of them does. -/
theorem agree_flatten {label : K → ℕ} {parts : List (List (KeyWrite K V))} {number : ℕ}
    (labelled : Labelled label number parts) :
    Agree parts.flatten ↔ ∀ part ∈ parts, Agree part := by
  induction parts generalizing number with
  | nil => simp [Agree]
  | cons part parts ih =>
    rw [forall_mem_cons, ← ih labelled.2, flatten_cons]
    have apart : ∀ write ∈ part, ∀ other ∈ parts.flatten, write.key ≠ other.key := by
      intro write mem other otherMem same
      have bound := labelled.2.le other otherMem
      rw [← same, labelled.1 write mem] at bound
      exact absurd bound (Nat.not_succ_le_self _)
    constructor
    · intro agree
      exact ⟨fun write mem other otherMem => agree write (mem_append_left _ mem) other
          (mem_append_left _ otherMem),
        fun write mem other otherMem => agree write (mem_append_right _ mem) other
          (mem_append_right _ otherMem)⟩
    · intro both write mem other otherMem same
      rcases mem_append.mp mem with here | later <;>
        rcases mem_append.mp otherMem with otherHere | otherLater
      · exact both.1 write here other otherHere same
      · exact absurd same (apart write here other otherLater)
      · exact absurd same.symm (apart other otherHere write later)
      · exact both.2 write later other otherLater same

variable [DecidableEq K]

def applyWrites (store : K → Option V) (writes : List (KeyWrite K V)) : K → Option V :=
  writes.foldl (fun store write => Function.update store write.key write.value) store

variable {store : K → Option V} {k : K}

theorem applyWrites_of_last {before after : List (KeyWrite K V)} {write : KeyWrite K V}
    (last : ∀ other ∈ after, other.key ≠ write.key) :
    applyWrites store (before ++ write :: after) write.key = write.value := by
  unfold applyWrites
  rw [foldl_append, foldl_cons]
  have kept : ∀ (after : List (KeyWrite K V)) (store : K → Option V),
      (∀ other ∈ after, other.key ≠ write.key) →
      after.foldl (fun store other => Function.update store other.key other.value) store
        write.key = store write.key := by
    intro after
    induction after with
    | nil => exact fun _ _ => rfl
    | cons other after ih =>
      intro store away
      rw [foldl_cons, ih _ fun w mem => away w (.tail _ mem)]
      exact update_of_ne (Ne.symm (away other (.head _))) _ _
  rw [kept after _ last]
  exact update_self ..

theorem applyWrites_of_untouched (untouched : ∀ write ∈ writes, write.key ≠ k) :
    applyWrites store writes k = store k := by
  induction writes generalizing store with
  | nil => rfl
  | cons write writes ih =>
    change applyWrites (Function.update store write.key write.value) writes k = store k
    rw [ih fun other mem => untouched other (.tail _ mem)]
    exact update_of_ne (Ne.symm (untouched write (.head _))) _ _

theorem exists_last (written : ∃ write ∈ writes, write.key = k) :
    ∃ before last after, writes = before ++ last :: after ∧ last.key = k ∧
      ∀ other ∈ after, other.key ≠ k := by
  induction writes with
  | nil =>
    obtain ⟨write, mem, -⟩ := written
    cases mem
  | cons first writes ih =>
    by_cases later : ∃ other ∈ writes, other.key = k
    · obtain ⟨before, last, after, rfl, rest⟩ := ih later
      exact ⟨first :: before, last, after, rfl, rest⟩
    · refine ⟨[], first, writes, rfl, ?_, fun other mem same => later ⟨other, mem, same⟩⟩
      obtain ⟨write, mem, same⟩ := written
      rcases mem_cons.mp mem with rfl | inTail
      · exact same
      · exact absurd ⟨write, inTail, same⟩ later

theorem applyWrites_of_agree (agree : Agree writes) {write : KeyWrite K V} (mem : write ∈ writes) :
    applyWrites store writes write.key = write.value := by
  obtain ⟨before, last, after, rfl, same, rest⟩ := exists_last ⟨write, mem, rfl⟩
  rw [← same] at rest ⊢
  rw [applyWrites_of_last rest]
  exact agree last (by simp) write mem same

/-- For a key that is written, the store before does not matter. -/
theorem applyWrites_congr {store' : K → Option V} (written : ∃ write ∈ writes, write.key = k) :
    applyWrites store writes k = applyWrites store' writes k := by
  obtain ⟨before, last, after, rfl, rfl, rest⟩ := exists_last written
  rw [applyWrites_of_last rest, applyWrites_of_last rest]

section Reorder

variable [LinearOrder K]

def OrdMap.write (m : OrdMap K V) (write : KeyWrite K V) : OrdMap K V :=
  match write.value with
  | some v => m.insert write.key v
  | none => m.erase write.key

def OrdMap.writeAll (m : OrdMap K V) (writes : List (KeyWrite K V)) : OrdMap K V :=
  writes.foldl OrdMap.write m

theorem OrdMap.get?_write {m : OrdMap K V} {write : KeyWrite K V} :
    (m.write write).get? = Function.update m.get? write.key write.value := by
  funext k
  rcases write with ⟨key, _ | v⟩
  · by_cases same : k = key
    · subst same
      rw [update_self]
      exact OrdMap.get?_eq_none.mpr fun v mem => (OrdMap.mem_erase.mp mem).2 rfl
    · rw [update_of_ne same]
      exact OrdMap.get?_erase_ne same
  · by_cases same : k = key
    · subst same
      rw [update_self]
      exact OrdMap.get?_insert_self
    · rw [update_of_ne same]
      exact OrdMap.get?_insert_ne same

theorem OrdMap.get?_writeAll {m : OrdMap K V} :
    (m.writeAll writes).get? = applyWrites m.get? writes := by
  induction writes generalizing m with
  | nil => rfl
  | cons write writes ih =>
    change ((m.write write).writeAll writes).get? = _
    rw [ih, OrdMap.get?_write]
    rfl

/-- What an unstable sort by key may leave of a batch. -/
def SortedOf (writes sorted : List (KeyWrite K V)) : Prop :=
  sorted.Perm writes ∧ sorted.Pairwise fun x y => x.key ≤ y.key

/-- The sort may leave any of the writes to a key as the last one. -/
theorem exists_sorted_last {write : KeyWrite K V} (mem : write ∈ writes) :
    ∃ sorted, SortedOf writes sorted ∧
      ∀ store : K → Option V, applyWrites store sorted write.key = write.value := by
  obtain ⟨front, back, rfl⟩ := append_of_mem mem
  -- the write goes to the end, and a stable sort keeps it there among those of its key
  let moved := (front ++ back) ++ [write]
  let sorted := moved.insertionSort fun x y => x.key ≤ y.key
  have perm : sorted.Perm moved := perm_insertionSort _ _
  have movedPerm : moved.Perm (front ++ write :: back) := by
    have := (@perm_append_comm _ [write] back).symm.append_left front
    simpa [moved] using this
  let mine : KeyWrite K V → Bool := fun x => decide (x.key = write.key)
  have same : sorted.filter mine = moved.filter mine := by
    have equalKeys : (moved.filter mine).Pairwise fun x y => x.key ≤ y.key := by
      refine pairwise_of_forall_mem_list fun x xMem y yMem => ?_
      have xKey : x.key = write.key := of_decide_eq_true (mem_filter.mp xMem).2
      have yKey : y.key = write.key := of_decide_eq_true (mem_filter.mp yMem).2
      rw [xKey, yKey]
    have sub : (moved.filter mine).Sublist sorted :=
      sublist_insertionSort equalKeys filter_sublist
    have sub' : (moved.filter mine).Sublist (sorted.filter mine) := by
      have := sub.filter mine
      rwa [filter_filter, show (fun x => mine x && mine x) = mine from
        funext fun x => Bool.and_self _] at this
    exact (sub'.eq_of_length (perm.filter mine).length_eq.symm).symm
  refine ⟨sorted, ⟨perm.trans movedPerm, pairwise_insertionSort _ _⟩, fun store => ?_⟩
  have present : ∃ other ∈ sorted, other.key = write.key :=
    ⟨write, perm.mem_iff.mpr (by simp [moved]), rfl⟩
  obtain ⟨before, last, after, split, lastKey, rest⟩ := exists_last present
  have lastMine : mine last = true := decide_eq_true lastKey
  have none : after.filter mine = [] :=
    filter_eq_nil_iff.mpr fun other otherMem isMine =>
      rest other otherMem (of_decide_eq_true isMine)
  have isLast : before.filter mine ++ [last] = (front ++ back).filter mine ++ [write] := by
    rw [split, filter_append, filter_cons_of_pos lastMine, none] at same
    have isMine : mine write = true := decide_eq_true rfl
    rw [same, filter_append, filter_cons_of_pos isMine, filter_nil]
  obtain ⟨-, eq⟩ := append_inj' isLast rfl
  obtain rfl : last = write := by simpa using eq
  rw [split]
  exact applyWrites_of_last rest

/-- Every order that an unstable sort may leave has the effect of the batch itself exactly if all
the writes to a key agree. -/
theorem reorder_iff : (∀ sorted, SortedOf writes sorted → ∀ store : K → Option V,
    applyWrites store sorted = applyWrites store writes) ↔ Agree writes := by
  constructor
  · intro stable write mem other otherMem sameKey
    obtain ⟨sorted, isSorted, effect⟩ := exists_sorted_last mem
    obtain ⟨sorted', isSorted', effect'⟩ := exists_sorted_last otherMem
    have left := (effect fun _ => none).symm.trans (congrFun (stable _ isSorted _) write.key)
    have right := (effect' fun _ => none).symm.trans (congrFun (stable _ isSorted' _) other.key)
    rw [left, right, sameKey]
  · intro agree sorted isSorted store
    funext k
    have agree' : Agree sorted := fun write mem other otherMem =>
      agree write (isSorted.1.mem_iff.mp mem) other (isSorted.1.mem_iff.mp otherMem)
    by_cases written : ∃ write ∈ writes, write.key = k
    · obtain ⟨write, mem, rfl⟩ := written
      rw [applyWrites_of_agree agree mem, applyWrites_of_agree agree' (isSorted.1.mem_iff.mpr mem)]
    · have untouched : ∀ write ∈ writes, write.key ≠ k :=
        fun write mem same => written ⟨write, mem, same⟩
      rw [applyWrites_of_untouched untouched, applyWrites_of_untouched fun write mem =>
        untouched write (isSorted.1.mem_iff.mp mem)]

end Reorder

end Fugue.Lib
