import Fugue.Ir.ReferenceIndex
import Fugue.Lib.BinarySearch

/-!
# Batches of derived references

`DerivedReferenceBatch` (`fugue-core/src/ir/reference/index/mod.rs:193-228`): what was derived under
one provenance for a part of the address space. The references of a key are merged, and the part is
extended to where all of them come from.
-/

namespace Fugue.Ir

open Fugue.Lib List

/-- The properties of all references of a key together, `none` if there is none. -/
def mergedProperties (references : List Reference) (key : ReferenceKey) :
    Option ReferenceProperties :=
  if references.any fun reference => decide (reference.key = key) then
    some (((references.filter fun reference => decide (reference.key = key)).map
      Reference.properties).foldr (· ||| ·) 0)
  else none

/-- `DerivedReferenceBatch` (`index/mod.rs:193-198`). -/
structure DerivedReferenceBatch where
  coverage : AddressRangeSet
  kind : ReferenceKind
  provenance : ReferenceProvenance
  references : List Reference
  sorted : references.Pairwise fun x y => x.key < y.key
  covers : ∀ reference ∈ references, coverage.Contains reference.from_

/-- `Vec::dedup_by` with the merge of `new` (`index/mod.rs:212-218`), from a reference on. -/
def dedupFrom (current : Reference) : List Reference → List Reference
  | [] => [current]
  | next :: rest =>
    if next.key ≠ current.key then current :: dedupFrom next rest
    else dedupFrom (current.withMergedProperties next.properties) rest

/-- `Vec::dedup_by` with the merge of `new`. -/
def dedup : List Reference → List Reference
  | [] => []
  | first :: rest => dedupFrom first rest

/-! ## The references of a key -/

theorem mergedProperties_cons (reference : Reference) (references : List Reference)
    (key : ReferenceKey) :
    mergedProperties (reference :: references) key =
      if reference.key = key then
        some (reference.properties ||| (mergedProperties references key).getD 0)
      else mergedProperties references key := by
  unfold mergedProperties
  by_cases same : reference.key = key
  · rw [if_pos same, any_cons, decide_eq_true same, Bool.true_or, if_pos rfl, filter_cons,
      if_pos (decide_eq_true same), map_cons, foldr_cons]
    split
    · rfl
    · rename_i none
      have empty : references.filter (fun reference => decide (reference.key = key)) = [] := by
        refine filter_eq_nil_iff.mpr fun other mem is => none ?_
        exact any_eq_true.mpr ⟨other, mem, is⟩
      rw [empty]
      rfl
  · have skip : (reference :: references).filter (fun reference => decide (reference.key = key)) =
        references.filter fun reference => decide (reference.key = key) := by
      simp [same]
    rw [if_neg same, any_cons, decide_eq_false same, Bool.false_or, skip]

variable {references : List Reference}

theorem mergedProperties_eq_none {key : ReferenceKey} :
    mergedProperties references key = none ↔ ∀ reference ∈ references, reference.key ≠ key := by
  unfold mergedProperties
  simp

theorem mergedProperties_perm {references others : List Reference} (perm : references.Perm others)
    (key : ReferenceKey) : mergedProperties references key = mergedProperties others key := by
  unfold mergedProperties
  rw [perm.any_eq, ((perm.filter _).map _).foldr_eq 0]

theorem mergedProperties_dedupFrom (key : ReferenceKey) : ∀ (rest : List Reference)
    (current : Reference),
    mergedProperties (dedupFrom current rest) key = mergedProperties (current :: rest) key := by
  intro rest
  induction rest with
  | nil => exact fun _ => rfl
  | cons next rest ih =>
    intro current
    unfold dedupFrom
    split
    · rw [mergedProperties_cons, ih, ← mergedProperties_cons]
    · rename_i same
      have same := not_not.mp same
      rw [ih, mergedProperties_cons, mergedProperties_cons current, mergedProperties_cons next,
        Reference.key_withMergedProperties, same]
      split
      · exact congrArg some (BitVec.or_assoc _ _ _)
      · rfl

theorem mergedProperties_dedup (references : List Reference) (key : ReferenceKey) :
    mergedProperties (dedup references) key = mergedProperties references key := by
  cases references with
  | nil => rfl
  | cons first rest => exact mergedProperties_dedupFrom key rest first

theorem sorted_dedupFrom : ∀ (rest : List Reference) (current : Reference),
    (∀ reference ∈ rest, current.key ≤ reference.key) →
    rest.Pairwise (fun x y => x.key ≤ y.key) →
    (dedupFrom current rest).Pairwise (fun x y => x.key < y.key) ∧
      ∀ reference ∈ dedupFrom current rest, current.key ≤ reference.key := by
  intro rest
  induction rest with
  | nil =>
    intro current _ _
    refine ⟨pairwise_singleton _ _, fun reference mem => ?_⟩
    rw [mem_singleton.mp mem]
  | cons next rest ih =>
    intro current after ordered
    obtain ⟨first, after'⟩ := forall_mem_cons.mp after
    obtain ⟨above, ordered'⟩ := pairwise_cons.mp ordered
    unfold dedupFrom
    split
    · rename_i ne
      obtain ⟨sorted, low⟩ := ih next above ordered'
      have lt : current.key < next.key := lt_of_le_of_ne first ne.symm
      refine ⟨pairwise_cons.mpr ⟨fun x mem => lt.trans_le (low x mem), sorted⟩, ?_⟩
      exact forall_mem_cons.mpr ⟨le_rfl, fun x mem => lt.le.trans (low x mem)⟩
    · exact ih (current.withMergedProperties next.properties) after' ordered'

theorem sorted_dedup (ordered : references.Pairwise fun x y => x.key ≤ y.key) :
    (dedup references).Pairwise fun x y => x.key < y.key := by
  cases references with
  | nil => exact .nil
  | cons first rest =>
    obtain ⟨above, ordered'⟩ := pairwise_cons.mp ordered
    exact (sorted_dedupFrom rest first above ordered').1

theorem from_dedup {reference : Reference}
    (mem : reference ∈ dedup references) : ∃ other ∈ references, other.from_ = reference.from_ := by
  have merged : mergedProperties (dedup references) reference.key ≠ none :=
    fun none => mergedProperties_eq_none.mp none reference mem rfl
  rw [mergedProperties_dedup, Ne, mergedProperties_eq_none] at merged
  obtain ⟨other, otherMem, same⟩ : ∃ other ∈ references, other.key = reference.key := by
    by_contra absent
    exact merged fun other otherMem same => absent ⟨other, otherMem, same⟩
  exact ⟨other, otherMem, congrArg ReferenceKey.from_ same⟩

namespace DerivedReferenceBatch

/-- The derived references in order, one of each key (`index/mod.rs:207-218`). -/
def normalise (references : List Reference) : List Reference :=
  dedup ((references.map fun reference => reference.withOrigin .derived).mergeSort
    fun x y => decide (x.key ≤ y.key))

theorem sorted_normalise (references : List Reference) :
    (normalise references).Pairwise fun x y => x.key < y.key := by
  apply sorted_dedup
  have sorted := @pairwise_mergeSort _ (fun x y : Reference => decide (x.key ≤ y.key))
    (fun x y z xy yz => decide_eq_true ((of_decide_eq_true xy).trans (of_decide_eq_true yz)))
    (fun x y => by
      rw [Bool.or_eq_true, decide_eq_true_eq, decide_eq_true_eq]
      exact le_total x.key y.key)
    (references.map fun reference => reference.withOrigin .derived)
  exact sorted.imp fun le => of_decide_eq_true le

variable {references : List Reference} {reference : Reference}

theorem from_normalise (mem : reference ∈ normalise references) :
    ∃ other ∈ references, other.from_ = reference.from_ := by
  obtain ⟨derived, isDerived, same⟩ := from_dedup mem
  obtain ⟨other, otherMem, eq⟩ := mem_map.mp ((mergeSort_perm _ _).mem_iff.mp isDerived)
  subst eq
  exact ⟨other, otherMem, same⟩

theorem mergedProperties_normalise (references : List Reference) (key : ReferenceKey) :
    mergedProperties (normalise references) key = mergedProperties references key := by
  unfold normalise
  rw [mergedProperties_dedup, mergedProperties_perm (mergeSort_perm _ _)]
  induction references with
  | nil => rfl
  | cons reference references ih =>
    rw [map_cons, mergedProperties_cons, ih, mergedProperties_cons]
    rfl

theorem exists_normalise
    (mem : reference ∈ references) : ∃ other ∈ normalise references, other.key = reference.key := by
  have merged : mergedProperties references reference.key ≠ none :=
    fun none => mergedProperties_eq_none.mp none reference mem rfl
  rw [← mergedProperties_normalise, Ne, mergedProperties_eq_none] at merged
  by_contra absent
  exact merged fun other otherMem same => absent ⟨other, otherMem, same⟩

def points (references : List Reference) : List AddressRange :=
  references.map fun reference => AddressRange.point reference.from_

theorem points_typed (typed : ∀ reference ∈ references, reference.from_.address < 2 ^ 64) :
    ∀ range ∈ points (normalise references), range.stop < 2 ^ 64 := by
  intro range isPoint
  obtain ⟨other, otherMem, eq⟩ := mem_map.mp isPoint
  subst eq
  obtain ⟨source, sourceMem, same⟩ := from_normalise otherMem
  rw [← same]
  exact typed source sourceMem

theorem exists_points {address : Address} :
    (∃ range ∈ points references, range.Contains address) ↔
      ∃ reference ∈ references, reference.from_ = address := by
  unfold points
  simp [AddressRange.contains_point]

/-- `DerivedReferenceBatch::new` (`index/mod.rs:200-228`). The assertion of debug builds that the
references are of the kind is left out. -/
def new (coverage : AddressRangeSet) (kind : ReferenceKind) (provenance : ReferenceProvenance)
    (references : List Reference)
    (typed : ∀ reference ∈ references, reference.from_.address < 2 ^ 64) :
    DerivedReferenceBatch where
  coverage := coverage.insertRanges (points (normalise references))
  kind := kind
  provenance := provenance
  references := normalise references
  sorted := sorted_normalise references
  covers reference mem := (AddressRangeSet.contains_insertRanges (points_typed typed)).mpr
    (.inl (exists_points.mpr ⟨reference, mem, rfl⟩))

/-- A batch covers where its references come from. -/
theorem contains_new {coverage : AddressRangeSet} {kind : ReferenceKind}
    {provenance : ReferenceProvenance}
    {typed : ∀ reference ∈ references, reference.from_.address < 2 ^ 64} {address : Address} :
    (new coverage kind provenance references typed).coverage.Contains address ↔
      coverage.Contains address ∨ ∃ reference ∈ references, reference.from_ = address := by
  unfold new
  rw [AddressRangeSet.contains_insertRanges (points_typed typed), exists_points, or_comm]
  refine or_congr_right ⟨?_, ?_⟩
  · intro ⟨other, mem, eq⟩
    obtain ⟨reference, isOf, same⟩ := from_normalise mem
    exact ⟨reference, isOf, same.trans eq⟩
  · intro ⟨reference, mem, eq⟩
    obtain ⟨other, isOf, same⟩ := exists_normalise mem
    exact ⟨other, isOf, (congrArg ReferenceKey.from_ same).trans eq⟩

variable (batch : DerivedReferenceBatch) (key : ReferenceKey)

/-- The search for the reference of a key (`index/mod.rs:356-360`). -/
def find : Option Reference := do
  let found ← binarySearchBy (fun reference => compare reference.key key) batch.references
  batch.references[found]?

/-- What the batch has for a key: the properties of its reference. -/
def propertiesOf :
    Option ReferenceProperties := mergedProperties batch.references key

variable {batch : DerivedReferenceBatch}

theorem inOrder_find :
    InOrder (fun reference => compare reference.key key) batch.references := by
  refine batch.sorted.imp fun lt => ⟨fun greater => ?_, fun less => ?_⟩
  · exact compare_gt_iff_gt.mpr ((compare_gt_iff_gt.mp greater).trans lt)
  · exact compare_lt_iff_lt.mpr (lt.trans (compare_lt_iff_lt.mp less))

theorem find_eq_some {key : ReferenceKey} (found : batch.find key = some reference) :
    reference ∈ batch.references ∧ reference.key = key := by
  obtain ⟨k, search, here⟩ := Option.bind_eq_some_iff.mp found
  obtain ⟨value, there, equal⟩ := binarySearchBy_eq_some search
  rw [here] at there
  cases there
  exact ⟨mem_of_getElem? here, compare_eq_iff_eq.mp equal⟩

theorem exists_find (mem : reference ∈ batch.references) :
    ∃ found, batch.find reference.key = some found := by
  obtain ⟨k, search⟩ := binarySearchBy_isSome (batch.inOrder_find reference.key) mem
    (compare_eq_iff_eq.mpr rfl)
  obtain ⟨value, there, -⟩ := binarySearchBy_eq_some search
  exact ⟨value, Option.bind_eq_some_iff.mpr ⟨k, search, there⟩⟩

theorem propertiesOf_mem (mem : reference ∈ batch.references) :
    batch.propertiesOf reference.key = some reference.properties := by
  unfold propertiesOf
  have sorted := batch.sorted
  generalize batch.references = references at mem sorted
  induction references with
  | nil => cases mem
  | cons first rest ih =>
    obtain ⟨above, sorted'⟩ := pairwise_cons.mp sorted
    rw [mergedProperties_cons]
    rcases mem_cons.mp mem with eq | later
    · subst eq
      have none : mergedProperties rest reference.key = none :=
        mergedProperties_eq_none.mpr fun other otherMem => (above other otherMem).ne'
      rw [if_pos rfl, none, Option.getD_none]
      exact congrArg some BitVec.or_zero
    · rw [if_neg (above reference later).ne]
      exact ih later sorted'

theorem map_find :
    (batch.find key).map Reference.properties = batch.propertiesOf key := by
  cases found : batch.find key with
  | some reference =>
    obtain ⟨mem, same⟩ := find_eq_some found
    subst same
    exact (propertiesOf_mem mem).symm
  | none =>
    refine (mergedProperties_eq_none.mpr fun reference mem same => ?_).symm
    obtain ⟨other, there⟩ := exists_find mem
    rw [same, found] at there
    cases there

end DerivedReferenceBatch

end Fugue.Ir
