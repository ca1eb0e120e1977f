import Fugue.Storage.Segments.Revisions

/-!
# The layout of every space in every run

What `LaidOut` keeps from operation to operation, said in terms of what a reader of a space can ask:
`find_containing` returns a submapping exactly where a placed mapping contains the address, and that
submapping belongs to the placed mapping of the highest priority there.
-/

namespace Fugue.Storage.Segments

open Fugue.Lib Fugue.Ir IntervalMap Option

section Reading

variable {S E : Type} [mapS : IntervalMap S SegmentSubMapping]
  [mapE : IntervalMap E SegmentMappingId]
  {known : SegmentMappingId → Option SegmentMapping} {space : AddressSpace S E}

omit mapE in
/-- An address lies in at most one submapping, which is the one that is found. -/
theorem findContaining_eq_some (apart : Apart space.submaps) {a : ℕ} {view : SegmentSubMapping} :
    space.findContaining a = some view ↔
      ∃ x ∈ entries space.submaps, Within x.1 a ∧ x.2 = view := by
  have mem_iff : ∀ x, x ∈ iter space.submaps (a, a) ↔ x ∈ entries space.submaps ∧ Within x.1 a :=
    fun x => mem_iter
  unfold AddressSpace.findContaining
  constructor
  · intro found
    obtain ⟨x, head, rfl⟩ := map_eq_some_iff.mp found
    obtain ⟨mem, within⟩ := (mem_iff x).mp (List.mem_of_mem_head? head)
    exact ⟨x, mem, within, rfl⟩
  · rintro ⟨x, mem, within, rfl⟩
    have listed := (mem_iff x).mpr ⟨mem, within⟩
    cases found : iter space.submaps (a, a) with
    | nil => simp [found] at listed
    | cons y rest =>
      obtain ⟨yMem, yWithin⟩ := (mem_iff y).mp (found ▸ (.head _))
      obtain rfl := apart.eq_of_common mem yMem within yWithin
      rfl

/-- The submapping carries the current reference and properties of the mapping. -/
def Current (view : SegmentSubMapping) (mapping : SegmentMapping) : Prop :=
  view.mappingRef = mapping.mappingRef ∧ view.properties = mapping.properties

/-- The layout of one space, for the mappings that the storage knows. -/
structure SpaceLayout (known : SegmentMappingId → Option SegmentMapping)
    (space : AddressSpace S E) : Prop where
  covered : ∀ a, (space.findContaining a).isSome ↔ ∃ id placement, Covers space a id placement
  topmost : ∀ a view, space.findContaining a = some view → Within (bounds view.range) a ∧
    ∃ placement, Covers space a view.mappingRef.mappingId placement ∧
      ∀ other rival, Covers space a other rival →
        other ≠ view.mappingRef.mappingId → rival.priority < placement.priority
  disjoint : (entries space.submaps).Pairwise fun x y => x.1.2 < y.1.1 ∨ y.1.2 < x.1.1
  current : ∀ x ∈ entries space.submaps, x.1 = bounds x.2.range ∧
    ∃ mapping, known x.2.mappingRef.mappingId = some mapping ∧ Current x.2 mapping
  indexed : Indexed known space

/-- What an entry of the submappings shows, of the mapping it belongs to. -/
theorem Laid.entry (laid : Laid known space) {x : (ℕ × ℕ) × SegmentSubMapping} {a : ℕ}
    (mem : x ∈ entries space.submaps) (within : Within x.1 a) :
    ∃ placement mapping, Covers space a x.2.mappingRef.mappingId placement ∧
      known x.2.mappingRef.mappingId = some mapping ∧ Current x.2 mapping ∧
      ∀ other rival, Covers space a other rival →
        rival.priority ≤ placement.priority := by
  obtain ⟨id, placement, mapping, covers, found, sameRef, sameProperties, highest⟩ :=
    (laid.visible a _ _).mp ⟨x, mem, within, rfl, rfl⟩
  obtain ⟨mapping', found', idEq, -, -⟩ := laid.indexed.placed id placement covers.1
  cases found.symm.trans found'
  have owner : x.2.mappingRef.mappingId = id := by
    rw [← sameRef]
    exact idEq
  rw [owner]
  exact ⟨placement, mapping, covers, found, ⟨sameRef.symm, sameProperties.symm⟩, highest⟩

theorem Laid.spaceLayout (laid : Laid known space) : SpaceLayout known space := by
  have apart := laid.submapped.apart
  refine ⟨fun a => ?_, fun a view found => ?_, apart.disjoint, fun x mem => ?_, laid.indexed⟩
  · constructor
    · intro some_
      obtain ⟨view, found⟩ := isSome_iff_exists.mp some_
      obtain ⟨x, mem, within, -⟩ := (findContaining_eq_some apart).mp found
      obtain ⟨placement, mapping, covers, -⟩ := laid.entry mem within
      exact ⟨_, placement, covers⟩
    · rintro ⟨id, placement, covers⟩
      obtain ⟨top, topPlacement, topCovers, highest⟩ := exists_topmost covers
      obtain ⟨mapping, known_, -⟩ := laid.indexed.placed top topPlacement topCovers.1
      obtain ⟨x, mem, within, -⟩ := (laid.visible a _ _).mpr
        ⟨top, topPlacement, mapping, topCovers, known_, rfl, rfl, highest⟩
      exact isSome_iff_exists.mpr
        ⟨x.2, (findContaining_eq_some apart).mpr ⟨x, mem, within, rfl⟩⟩
  · obtain ⟨x, mem, within, rfl⟩ := (findContaining_eq_some apart).mp found
    obtain ⟨placement, mapping, covers, -, -, highest⟩ := laid.entry mem within
    refine ⟨(laid.submapped.keyed x mem).1 ▸ within, placement, covers, ?_⟩
    intro other rival otherCovers ne
    refine lt_of_le_of_ne (highest other rival otherCovers) fun eq => ne ?_
    exact laid.indexed.eq_of_priority otherCovers.1 covers.1 eq
  · obtain ⟨placement, mapping, -, known_, current, -⟩ :=
      laid.entry mem (a := x.1.1) ⟨le_rfl, apart.nonempty x mem⟩
    exact ⟨(laid.submapped.keyed x mem).1, mapping, known_, current⟩

end Reading

namespace SegmentStorage

variable {D S E : Type} [mapS : IntervalMap S SegmentSubMapping]
  [mapE : IntervalMap E SegmentMappingId]

/-- After every run of operations each space is laid out by the priorities of its mappings, and no
check of an index against another fails on the way: only a counter (the priorities, revisions and
ids) can run out of values. -/
theorem layout_follows_priority (Error : Type) [SyntheticProvider D Error]
    (operations : List (Operation D)) :
    (∀ storage : SegmentStorage D S E, run Error operations = .ok storage →
      ∀ id space, (id, space) ∈ storage.spaces.entries →
        SpaceLayout storage.mappings.get? space) ∧
    (run Error operations : Except Panic (SegmentStorage D S E)) ≠ .error .inconsistent := by
  have returns : Returns LaidOut (run Error operations : Except Panic (SegmentStorage D S E)) :=
    foldlM_apply_laidOut operations empty empty_laidOut
  constructor
  · intro storage ran id space mem
    rw [ran] at returns
    exact (returns.spaces id space mem).2.spaceLayout
  · intro failed
    rw [failed] at returns
    cases returns

end SegmentStorage

end Fugue.Storage.Segments
