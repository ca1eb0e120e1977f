import Fugue.Storage.Segments.Reload

/-!
# What a storage shows after a reload

The loops over the placements, and what they leave of every space: the mappings in their old order
under their new ids. A run of operations and persists never skips a persist that has something to
write, and the file can be loaded exactly if it passes the checks of `from_storage_internal`; the
storage that is loaded then reads as the one before.
-/

namespace Fugue.Storage.Segments

open Fugue.Lib Fugue.Ir IntervalMap List OrdMap

variable {D S E Error : Type} [mapS : IntervalMap S SegmentSubMapping]
  [mapE : IntervalMap E SegmentMappingId]

namespace SegmentStorage

/-- The mapping of a file is there under its new id. -/
def Known (mappingMap : OrdMap SegmentMappingId SegmentMappingId)
    (mappings : OrdMap SegmentMappingId SegmentMapping) (old : SegmentMappingId) : Prop :=
  ∃ mapping, mappingMap.get? old = some mapping.id ∧ mappings.get? mapping.id = some mapping

/-- A space with the header of another one, laid out for the mappings given in this order. -/
structure PlacedAs (mappings : OrdMap SegmentMappingId SegmentMapping) (id : AddressSpaceId)
    (kind : AddressSpaceKind) (name : Option String) (list : List SegmentMappingId)
    (space : AddressSpace S E) : Prop where
  laid : Laid mappings.get? space
  id : space.id = id
  kind : space.kind = kind
  name : space.name = name
  list : space.priorityList = list

theorem loadPlacements_space (Error : Type)
    (mappingMap : OrdMap SegmentMappingId SegmentMappingId) (spaceId : AddressSpaceId) :
    ∀ (olds : List SegmentMappingId) (storage : SegmentStorage D S E)
    {space : AddressSpace S E}, storage.spaces.get? spaceId = some space →
    Laid storage.mappings.get? space →
    (∀ old ∈ olds, Known mappingMap storage.mappings old) →
    (olds.map (renumber mappingMap)).Nodup →
    (∀ old ∈ olds, renumber mappingMap old ∉ space.priorityList) →
    space.highestPriority + olds.length < 2 ^ 63 → space.revision + olds.length < 2 ^ 64 →
    storage.revision + olds.length < 2 ^ 64 →
    ∃ spaces placed, (olds.foldlM (loadPlacement mappingMap spaceId) storage :
        Except (LoadError Error) (SegmentStorage D S E)) = .ok { storage with
          spaces := spaces
          revision := storage.revision + olds.length } ∧
      spaces.get? spaceId = some placed ∧
      (∀ other, other ≠ spaceId → spaces.get? other = storage.spaces.get? other) ∧
      PlacedAs storage.mappings space.id space.kind space.name
        (space.priorityList ++ olds.map (renumber mappingMap)) placed := by
  intro olds
  induction olds with
  | nil =>
    intro storage space inSpaces laid _ _ _ _ _ _
    exact ⟨storage.spaces, space, rfl, inSpaces, fun _ _ => rfl, ⟨laid, rfl, rfl, rfl, by simp⟩⟩
  | cons old olds ih =>
    intro storage space inSpaces laid known nodup absent high small small'
    rw [map_cons, nodup_cons] at nodup
    rw [length_cons] at high small small'
    obtain ⟨mapping, isNew, found⟩ := known old (.head _)
    have isRenumber : renumber mappingMap old = mapping.id := by
      unfold renumber
      rw [isNew]
      rfl
    have outside : mapping.id ∉ space.priorityList := isRenumber ▸ absent old (.head _)
    obtain ⟨placed, step, placedLaid, isId, kind, name, highest, revision, list⟩ :=
      loadPlacement_ok inSpaces laid isNew found rfl outside (by omega) (by omega)
        (show storage.revision + 1 < 2 ^ 64 by omega)
    obtain ⟨spaces, last, run, get, others, placedAs⟩ := ih { storage with
        spaces := storage.spaces.insert spaceId placed
        revision := storage.revision + 1 } get?_insert_self placedLaid
      (fun other mem => known other (.tail _ mem)) nodup.2
      (fun other mem => by
        rw [list, mem_append, mem_singleton]
        rintro (before | here)
        · exact absent other (.tail _ mem) before
        · exact nodup.1 (isRenumber ▸ here ▸ mem_map_of_mem mem))
      (by rw [highest]; omega) (by rw [revision]; omega)
      (show storage.revision + 1 + olds.length < 2 ^ 64 by omega)
    refine ⟨spaces, last, ?_, get, fun other ne => ?_, ?_⟩
    · rw [foldlM_cons, step]
      apply run.trans
      simp [length_cons, add_comm olds.length 1, add_assoc]
    · rw [others other ne]
      exact get?_insert_ne ne
    · rw [isId, kind, name, list, append_assoc] at placedAs
      rw [map_cons, isRenumber]
      exact placedAs

def placements (entries : List AddressSpaceMetadata) : ℕ :=
  (entries.map fun entry => entry.mappingIds.length).sum

theorem loadPlacements_spec (Error : Type) (mappingMap : OrdMap SegmentMappingId SegmentMappingId) :
    ∀ (entries : List AddressSpaceMetadata) (storage : SegmentStorage D S E),
    (entries.map AddressSpaceMetadata.id).Nodup →
    (∀ entry ∈ entries, storage.spaces.get? entry.id = some (spaceOf entry)) →
    (∀ entry ∈ entries, (∀ old ∈ entry.mappingIds, Known mappingMap storage.mappings old) ∧
      (entry.mappingIds.map (renumber mappingMap)).Nodup ∧ entry.mappingIds.length ≤ 2 ^ 32) →
    storage.revision + placements entries < 2 ^ 64 →
    ∃ spaces, (entries.foldlM (loadPlacements mappingMap) storage :
        Except (LoadError Error) (SegmentStorage D S E)) = .ok { storage with
          spaces := spaces
          revision := storage.revision + placements entries } ∧
      (∀ entry ∈ entries, ∃ placed, spaces.get? entry.id = some placed ∧
        PlacedAs storage.mappings entry.id entry.kind entry.name
          (entry.mappingIds.map (renumber mappingMap)) placed) ∧
      ∀ other, (∀ entry ∈ entries, entry.id ≠ other) →
        spaces.get? other = storage.spaces.get? other := by
  intro entries
  induction entries with
  | nil =>
    intro storage _ _ _ _
    exact ⟨storage.spaces, rfl, by simp, fun _ _ => rfl⟩
  | cons entry entries ih =>
    intro storage nodup fresh known small
    rw [map_cons, nodup_cons] at nodup
    have total : placements (entry :: entries) = entry.mappingIds.length + placements entries := by
      unfold placements
      rw [map_cons, sum_cons]
    have others : ∀ other ∈ entries, other.id ≠ entry.id := fun other mem same =>
      nodup.1 (same ▸ mem_map_of_mem mem)
    obtain ⟨isKnown, distinct, few⟩ := known entry (.head _)
    obtain ⟨spaces, placed, step, get, kept, placedAs⟩ := loadPlacements_space Error
      mappingMap entry.id entry.mappingIds storage (fresh entry (.head _))
      (laid_newWith entry.id entry.kind entry.name) isKnown distinct
      (fun old _ mem => by cases mem)
      (show (0 : ℤ) + entry.mappingIds.length < 2 ^ 63 by omega)
      (show 0 + entry.mappingIds.length < 2 ^ 64 by omega) (by omega)
    obtain ⟨spaces', run, set, kept'⟩ := ih { storage with
        spaces := spaces
        revision := storage.revision + entry.mappingIds.length } nodup.2
      (fun other mem => by
        rw [kept other.id (others other mem)]
        exact fresh other (.tail _ mem))
      (fun other mem => known other (.tail _ mem))
      (show storage.revision + entry.mappingIds.length + placements entries < 2 ^ 64 by omega)
    refine ⟨spaces', ?_, fun other mem => ?_, fun other away => ?_⟩
    · change (entry.mappingIds.foldlM (loadPlacement mappingMap entry.id) storage >>= _) = _
      rw [step]
      apply run.trans
      rw [total, add_assoc]
    · rcases mem_cons.mp mem with rfl | mem
      · refine ⟨placed, ?_, placedAs⟩
        rw [kept' other.id others]
        exact get
      · exact set other mem
    · rw [kept' other fun another mem => away another (.tail _ mem)]
      exact kept other (Ne.symm (away entry (.head _)))

end SegmentStorage

variable {known : SegmentMappingId → Option SegmentMapping}

variable {space : AddressSpace S E}

/-- The visible mapping of an address is the last of the priority list that contains it. -/
theorem find_visible (laid : Laid known space) (a : ℕ) :
    (space.findContaining a).map (fun view => view.mappingRef.mappingId) =
      space.priorityList.reverse.find? fun id =>
        (known id).any fun mapping => decide (mapping.range.start ≤ a ∧ a ≤ mapping.range.stop) := by
  have layout := laid.spaceLayout
  have indexed := laid.indexed
  -- where a mapping of the list contains the address
  have covers_of : ∀ id placement, (id, placement) ∈ space.mappingPlacements.entries →
      ((known id).any fun mapping =>
        decide (mapping.range.start ≤ a ∧ a ≤ mapping.range.stop)) = true →
      Covers space a id placement := by
    intro id placement placed any
    obtain ⟨mapping, isKnown, -, range, -⟩ := indexed.placed id placement placed
    rw [isKnown, Option.any_some, decide_eq_true_eq] at any
    refine ⟨placed, ?_⟩
    rw [range]
    exact any
  cases found : space.findContaining a with
  | none =>
    refine (find?_eq_none.mpr fun id mem any => ?_).symm
    obtain ⟨placement, placed⟩ := (mem_priorityList indexed).mp (mem_reverse.mp mem)
    have covered := (layout.covered a).mpr ⟨id, placement, covers_of id placement placed any⟩
    rw [found] at covered
    cases covered
  | some view =>
    obtain ⟨-, placement, covers, highest⟩ := layout.topmost a view found
    obtain ⟨mapping, isKnown, isId, range, ordered⟩ := indexed.placed _ _ covers.1
    obtain ⟨before, after, split⟩ := append_of_mem ordered
    have list : space.priorityList.reverse =
        (after.map fun entry => entry.2.mappingId).reverse ++ view.mappingRef.mappingId ::
          (before.map fun entry => entry.2.mappingId).reverse := by
      unfold AddressSpace.priorityList
      rw [split, map_append, map_cons, reverse_append, reverse_cons, append_assoc]
      rw [show (placement.priority, mapping.mappingRef).2.mappingId =
        view.mappingRef.mappingId from isId]
      rfl
    refine (find?_eq_some_iff_append.mpr ⟨?_, _, _, list, fun id mem => ?_⟩).symm
    · have within := covers.2
      rw [range] at within
      rw [isKnown, Option.any_some, decide_eq_true_eq]
      exact within
    · obtain ⟨entry, later, rfl⟩ := mem_map.mp (mem_reverse.mp mem)
      have sorted := space.mappingsByPriority.sorted
      rw [split] at sorted
      have lt := (pairwise_cons.mp (pairwise_append.mp sorted).2.1).1 entry later
      have inside : entry ∈ space.mappingsByPriority.entries := by
        rw [split]
        exact mem_append_right _ (.tail _ later)
      obtain ⟨placement', placed, priority⟩ := indexed.ordered entry.1 entry.2 inside
      by_contra any
      have covers' := covers_of _ placement' placed (by simpa using any)
      by_cases same : entry.2.mappingId = view.mappingRef.mappingId
      · rw [same] at placed
        have equal := OrdMap.unique placed covers.1
        rw [equal] at priority
        exact lt.ne priority
      · have below := highest _ _ covers' same
        rw [priority] at below
        exact lt.not_gt below

omit mapS in
theorem priorityList_nodup (indexed : Indexed known space) : space.priorityList.Nodup := by
  unfold AddressSpace.priorityList
  rw [List.Nodup, pairwise_map]
  refine space.mappingsByPriority.sorted.imp_of_mem fun {x y} xMem yMem lt same => ?_
  obtain ⟨placement, placed, priority⟩ := indexed.ordered x.1 x.2 xMem
  obtain ⟨placement', placed', priority'⟩ := indexed.ordered y.1 y.2 yMem
  rw [← same] at placed'
  rw [OrdMap.unique placed' placed, priority] at priority'
  exact lt.ne priority'

/-! ## The file -/

structure Typed (storage : SegmentStorage D S E) : Prop where
  providers : ∀ id ∈ storage.providers.entries.map Prod.fst, id < 2 ^ 32
  mappings : ∀ id ∈ storage.mappings.entries.map Prod.fst, id < 2 ^ 32
  spaces : ∀ id ∈ storage.spaces.entries.map Prod.fst, id < 2 ^ 16

/-- What the checks of `from_storage_internal` ask for. -/
structure Closed (storage : SegmentStorage D S E) : Prop where
  default : (storage.spaces.get? 0).map AddressSpace.kind = some .base
  bases : ∀ id space base, storage.spaces.get? id = some space → space.kind = .overlay base →
    (storage.spaces.get? base).isSome
  mappings : ∀ id mapping, storage.mappings.get? id = some mapping →
    (storage.providers.get? mapping.providerId).isSome ∧
      (storage.spaces.get? mapping.range.space).isSome

omit mapS mapE in
theorem checkSpaces_eq_ok {storage : SegmentStorage D S E} :
    (storage.checkSpaces : Except (LoadError Error) Unit) = .ok () ↔
      (storage.spaces.get? 0).map AddressSpace.kind = some .base ∧
      ∀ id space base, storage.spaces.get? id = some space → space.kind = .overlay base →
        (storage.spaces.get? base).isSome := by
  unfold SegmentStorage.checkSpaces
  by_cases default : (storage.spaces.get? 0).map AddressSpace.kind = some .base
  · rw [if_pos default, forM_eq_ok]
    simp only [default, true_and]
    constructor
    · intro checks id space base found overlay
      have check := checks (id, space) (get?_eq_some.mp found)
      unfold SegmentStorage.checkBase at check
      rw [overlay] at check
      dsimp only at check
      split at check
      · assumption
      · cases check
    · intro bases entry mem
      unfold SegmentStorage.checkBase
      cases kind : entry.2.kind with
      | base => rfl
      | overlay base =>
        dsimp only
        rw [if_pos (bases entry.1 entry.2 base (get?_eq_some.mpr mem) kind)]
  · rw [if_neg default]
    exact iff_of_false (by simp) fun both => default both.1

end Fugue.Storage.Segments
