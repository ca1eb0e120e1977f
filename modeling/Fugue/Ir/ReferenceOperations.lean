import Fugue.Ir.ReferenceBatches

/-!
# The operations of the reference staging

What is seen through a staging after each operation: `insert` and `merge_derived_references` merge
properties into one provenance of the entries of their own keys.
-/

namespace Fugue.Ir

open Fugue.Lib

/-- The entries of the reference index, as a transaction sees them. -/
abbrev ReferenceView := ReferenceKey → Option ReferenceEntry

namespace ReferenceEntry

theorem eq_of_propertiesAt {left right : Option ReferenceEntry}
    (same : ∀ provenance, propertiesAt left provenance = propertiesAt right provenance) :
    left = right := by
  have present : ∀ entry : ReferenceEntry,
      ∃ provenance, propertiesAt (some entry) provenance ≠ none := by
    intro entry
    obtain ⟨⟨provenance, properties⟩, mem⟩ := List.exists_mem_of_ne_nil _ entry.visible
    have found : propertiesAt (some entry) provenance = some properties :=
      OrdMap.get?_eq_some.mpr mem
    refine ⟨provenance, ?_⟩
    rw [found]
    exact nofun
  cases left with
  | none =>
    cases right with
    | none => rfl
    | some right =>
      obtain ⟨provenance, seen⟩ := present right
      exact absurd (same provenance).symm seen
  | some left =>
    cases right with
    | none =>
      obtain ⟨provenance, seen⟩ := present left
      exact absurd (same provenance) seen
    | some right =>
      obtain ⟨entries, visible⟩ := left
      obtain ⟨entries', visible'⟩ := right
      have eq : entries = entries' := by
        refine OrdMap.eq_of_mem_iff fun x => ?_
        rw [← OrdMap.get?_eq_some, ← OrdMap.get?_eq_some]
        exact Eq.congr (same x.1) rfl
      subst eq
      rfl

theorem propertiesAt_eq_none {entry : Option ReferenceEntry} :
    entry = none ↔ ∀ provenance, propertiesAt entry provenance = none := by
  constructor
  · intro none provenance
    rw [none]
    rfl
  · exact fun none => eq_of_propertiesAt none

/-- Properties are merged into an entry, which is made for them if there is none. -/
def mergeInto (entry : Option ReferenceEntry) (provenance : ReferenceProvenance)
    (properties : ReferenceProperties) : ReferenceEntry :=
  (entry.getD (.new provenance properties)).mergeProvenance provenance properties

variable {entry : Option ReferenceEntry} {provenance : ReferenceProvenance}

theorem propertiesAt_mergeInto (properties : ReferenceProperties) (other : ReferenceProvenance) :
    propertiesAt (some (mergeInto entry provenance properties)) other =
      if other = provenance then some ((propertiesAt entry provenance).getD 0 ||| properties)
      else propertiesAt entry other := by
  cases entry with
  | some entry => exact get?_mergeProvenance properties other
  | none =>
    refine (get?_mergeProvenance properties other).trans ?_
    rw [Option.getD_none, get?_new, get?_new, if_pos rfl]
    split
    · rw [Option.getD_some, BitVec.or_self]
      exact congrArg some BitVec.zero_or.symm
    · rfl

theorem mergeInto_mergeInto (first second : ReferenceProperties) :
    mergeInto (some (mergeInto entry provenance first)) provenance second =
      mergeInto entry provenance (first ||| second) := by
  refine Option.some_injective _ (eq_of_propertiesAt fun other => ?_)
  rw [propertiesAt_mergeInto, propertiesAt_mergeInto, propertiesAt_mergeInto,
    propertiesAt_mergeInto, if_pos rfl, Option.getD_some, BitVec.or_assoc]
  split
  · rfl
  · rfl

theorem mergeInto_eq_self {first second : ReferenceProperties}
    (same : entry = some (mergeInto entry provenance (first ||| second))) :
    entry = some (mergeInto entry provenance first) := by
  have absorbed : first ||| second ||| first = first ||| second := by
    rw [BitVec.or_comm, ← BitVec.or_assoc, BitVec.or_self]
  calc entry
    _ = some (mergeInto entry provenance (first ||| second ||| first)) := by rwa [absorbed]
    _ = some (mergeInto (some (mergeInto entry provenance (first ||| second))) provenance
        first) := by rw [mergeInto_mergeInto]
    _ = some (mergeInto entry provenance first) := by rw [← same]

/-- An entry with what references have for its key. -/
def withMerged (entry : Option ReferenceEntry) (provenance : ReferenceProvenance) :
    Option ReferenceProperties → Option ReferenceEntry
  | none => entry
  | some properties => some (mergeInto entry provenance properties)

theorem withMerged_ne_iff (first : ReferenceProperties) (rest : Option ReferenceProperties) :
    (some (mergeInto entry provenance first) ≠ entry ∨
      withMerged (some (mergeInto entry provenance first)) provenance rest ≠
        some (mergeInto entry provenance first)) ↔
      withMerged (some (mergeInto entry provenance first)) provenance rest ≠ entry := by
  by_cases same : some (mergeInto entry provenance first) = entry
  · rw [same]
    exact or_iff_right (not_not.mpr rfl)
  · refine iff_of_true (.inl same) fun eq => ?_
    cases rest with
    | none => exact same eq
    | some second =>
      refine same (@mergeInto_eq_self _ _ first second ?_).symm
      rw [← mergeInto_mergeInto]
      exact eq.symm

end ReferenceEntry

namespace ReferenceStaging

variable {index : ReferenceIndex} {provenance : ReferenceProvenance}
  {state next last : Bool × ReferenceStaging}

/-- What merging references does, with the changes noted. -/
structure Merges (index : ReferenceIndex) (provenance : ReferenceProvenance)
    (references : List Reference) (state next : Bool × ReferenceStaging) : Prop where
  entries : ∀ key, next.2.entry index key = ReferenceEntry.withMerged (state.2.entry index key)
    provenance (mergedProperties references key)
  changed : next.1 = true ↔ state.1 = true ∨
    ∃ key, next.2.entry index key ≠ state.2.entry index key
  derivedCoverage : (∀ reference ∈ references, reference.from_.address < 2 ^ 64) → ∀ address,
    (next.2.derivedCoverage.Contains address ↔ state.2.derivedCoverage.Contains address ∨
      ∃ key, key.from_ = address ∧ next.2.entry index key ≠ state.2.entry index key)
  asserted : next.2.asserted = state.2.asserted
  remembers : Remembers index state.2 → Remembers index next.2

theorem Merges.nil (state : Bool × ReferenceStaging) : Merges index provenance [] state state where
  entries _ := rfl
  changed := by simp
  derivedCoverage := by simp
  asserted := rfl
  remembers := id

theorem mergedProperties_singleton (reference : Reference) (key : ReferenceKey) :
    mergedProperties [reference] key =
      if reference.key = key then some reference.properties else none := by
  rw [mergedProperties_cons]
  refine if_congr Iff.rfl ?_ rfl
  exact congrArg some BitVec.or_zero

theorem merges_mergeReference (reference : Reference) :
    Merges index provenance [reference] state
      (mergeReference index provenance state reference) := by
  by_cases same : state.2.entry index reference.key = some (.mergeInto
    (state.2.entry index reference.key) provenance reference.properties)
  · have stays : mergeReference index provenance state reference = state := if_pos same
    rw [stays]
    exact {
      entries := by
        intro key
        rw [mergedProperties_singleton]
        split
        · rename_i isKey
          rw [← isKey]
          exact same
        · rfl
      changed := by simp
      derivedCoverage := by simp
      asserted := rfl
      remembers := id }
  · have moves : mergeReference index provenance state reference = (true, _) := if_neg same
    have entries : ∀ key, (mergeReference index provenance state reference).2.entry index key =
        if key = reference.key then some (.mergeInto (state.2.entry index reference.key) provenance
          reference.properties) else state.2.entry index key := by
      intro key
      rw [moves]
      exact entry_stageChange reference.key _ _ key
    have differs : ∀ key, (mergeReference index provenance state reference).2.entry index key ≠
        state.2.entry index key ↔ key = reference.key := by
      intro key
      rw [entries key]
      split
      · rename_i isKey
        rw [isKey]
        exact iff_of_true (Ne.symm same) rfl
      · rename_i other
        exact iff_of_false (not_not.mpr rfl) other
    exact {
      entries := by
        intro key
        rw [entries key, mergedProperties_singleton]
        by_cases isKey : key = reference.key
        · rw [if_pos isKey, if_pos isKey.symm, isKey]
          rfl
        · rw [if_neg isKey, if_neg (Ne.symm isKey)]
          rfl
      changed := by
        rw [moves]
        refine iff_of_true rfl (.inr ⟨reference.key, ?_⟩)
        rw [← moves]
        exact (differs _).mpr rfl
      derivedCoverage := by
        intro typed address
        have extended : (mergeReference index provenance state reference).2.derivedCoverage =
            state.2.derivedCoverage.insertRange (.point reference.from_) := by
          rw [moves]
          rfl
        rw [extended, AddressRangeSet.contains_insertRange (typed _ List.mem_cons_self), or_comm,
          AddressRange.contains_point]
        apply or_congr_right
        constructor
        · intro here
          exact ⟨reference.key, here, (differs _).mpr rfl⟩
        · intro ⟨key, here, ne⟩
          rw [(differs key).mp ne] at here
          exact here
      asserted := by
        rw [moves]
        rfl
      remembers := by
        intro known
        rw [moves]
        exact known.stageChange rfl _ }

theorem Merges.cons {reference : Reference} {references : List Reference}
    (first : Merges index provenance [reference] state next)
    (rest : Merges index provenance references next last) :
    Merges index provenance (reference :: references) state last := by
  have changes : ∀ key, (next.2.entry index key ≠ state.2.entry index key ∨
      last.2.entry index key ≠ next.2.entry index key) ↔
        last.2.entry index key ≠ state.2.entry index key := by
    intro key
    rw [rest.entries key, first.entries key, mergedProperties_singleton]
    split
    · exact ReferenceEntry.withMerged_ne_iff _ _
    · exact or_iff_right (not_not.mpr rfl)
  exact {
    entries := by
      intro key
      rw [rest.entries key, first.entries key, mergedProperties_singleton, mergedProperties_cons]
      split
      · have zero : reference.properties ||| 0 = reference.properties := BitVec.or_zero
        cases mergedProperties references key with
        | none =>
          rw [Option.getD_none, zero]
          rfl
        | some properties => exact congrArg some (ReferenceEntry.mergeInto_mergeInto _ _)
      · rfl
    changed := by
      rw [rest.changed, first.changed, or_assoc, ← exists_or]
      exact or_congr_right (exists_congr changes)
    derivedCoverage := by
      intro typed address
      obtain ⟨here, typed⟩ := List.forall_mem_cons.mp typed
      rw [rest.derivedCoverage typed, first.derivedCoverage (List.forall_mem_singleton.mpr here),
        or_assoc, ← exists_or]
      refine or_congr_right (exists_congr fun key => ?_)
      rw [← and_or_left, changes key]
    asserted := rest.asserted.trans first.asserted
    remembers := fun known => rest.remembers (first.remembers known) }

theorem merges_foldl : ∀ (references : List Reference) (state : Bool × ReferenceStaging),
    Merges index provenance references state
      (references.foldl (mergeReference index provenance) state) := by
  intro references
  induction references with
  | nil => exact Merges.nil
  | cons reference references ih =>
    intro state
    exact (merges_mergeReference reference).cons (ih _)

/-- `insert` merges a reference like a derived one, but notes it elsewhere. -/
theorem insert_eq (staging : ReferenceStaging) (reference : Reference) :
    (staging.insert index reference).1 =
        (mergeReference index .asserted (false, staging) reference).1 ∧
      (staging.insert index reference).2.stagedReferences =
        (mergeReference index .asserted (false, staging) reference).2.stagedReferences := by
  unfold ReferenceStaging.insert mergeReference
  dsimp only
  split
  · exact ⟨rfl, rfl⟩
  · exact ⟨rfl, rfl⟩

theorem entry_congr {left right : ReferenceStaging}
    (same : left.stagedReferences = right.stagedReferences) :
    left.entry index = right.entry index := by
  unfold ReferenceStaging.entry
  rw [same]

theorem Remembers.congr {left right : ReferenceStaging}
    (same : left.stagedReferences = right.stagedReferences) (remembers : Remembers index right) :
    Remembers index left := by
  unfold Remembers
  rw [same]
  exact remembers

end ReferenceStaging

end Fugue.Ir
