import Fugue.Storage.Segments.StagingRun

/-!
# The staged layout

Where a mapping stands in a space follows from its last placement (`standing`): on top of all that
was there, or below. The list that `staged_mappings_in_space` builds step by step is sorted by it
(`layersInSpace_spec`).
-/

namespace Fugue.Storage.Segments.SegmentStorageStaging

open Fugue.Lib Fugue.Ir List Option
open SegmentStorage (LaidOut)

/-! ## Standings -/

/-- Where a mapping stands: one that was put on top by the time of that, above the committed ones by
their priority, and below these the ones that were put at the bottom, the last one lowest. -/
def standing (committed : SegmentMappingId → Option ℤ)
    (placements : List (ℕ × StagedMappingPlacementRecord)) (id : SegmentMappingId) :
    Option (ℤ ×ₗ ℤ) :=
  match placements.find? fun entry => entry.2.mapping == id with
  | some (time, .top _ _) => some (toLex (1, (time : ℤ)))
  | some (time, .bottom _ _) => some (toLex (-1, -(time : ℤ)))
  | none => (committed id).map fun priority => toLex (0, priority)

/-- The list has the mappings that stand somewhere, from the lowest to the highest. -/
structure Layers (place : SegmentMappingId → Option (ℤ ×ₗ ℤ)) (ids : List SegmentMappingId) :
    Prop where
  mem_iff : ∀ id, id ∈ ids ↔ (place id).isSome
  sorted : ids.Pairwise fun id other => ∃ low high, place id = some low ∧ place other = some high ∧
    low < high

section Standing

variable {committed : SegmentMappingId → Option ℤ}
  {placements : List (ℕ × StagedMappingPlacementRecord)} {time : ℕ}
  {placement : StagedMappingPlacementRecord} {id : SegmentMappingId}

theorem standing_nil :
    standing committed [] id = (committed id).map fun priority => toLex (0, priority) := rfl

theorem standing_between (before : ∀ entry ∈ placements, entry.1 < time) {rank : ℤ ×ₗ ℤ}
    (stands : standing committed placements id = some rank) :
    toLex (-1, -(time : ℤ)) < rank ∧ rank < toLex (1, (time : ℤ)) := by
  unfold standing at stands
  split at stands
  · rename_i earlier _ _ found
    have lt : earlier < time := before _ (mem_of_find?_eq_some found)
    cases stands
    constructor
    · exact Prod.Lex.toLex_lt_toLex.mpr (.inl (by norm_num))
    · exact Prod.Lex.toLex_lt_toLex.mpr (.inr ⟨rfl, Int.ofNat_lt.mpr lt⟩)
  · rename_i earlier _ _ found
    have lt : earlier < time := before _ (mem_of_find?_eq_some found)
    cases stands
    constructor
    · exact Prod.Lex.toLex_lt_toLex.mpr (.inr ⟨rfl, neg_lt_neg (Int.ofNat_lt.mpr lt)⟩)
    · exact Prod.Lex.toLex_lt_toLex.mpr (.inl (by norm_num))
  · obtain ⟨priority, -, rfl⟩ := map_eq_some_iff.mp stands
    constructor
    · exact Prod.Lex.toLex_lt_toLex.mpr (.inl (by norm_num))
    · exact Prod.Lex.toLex_lt_toLex.mpr (.inl (by norm_num))

theorem standing_append_ne (ne : id ≠ placement.mapping) :
    standing committed (placements ++ [(time, placement)]) id =
      standing committed placements id := by
  have none_ : [(time, placement)].find? (fun entry => entry.2.mapping == id) = none := by
    simp [ne.symm]
  unfold standing
  rw [find?_append, none_, or_none]

theorem standing_append_self
    (fresh : ∀ entry ∈ placements, entry.2.mapping ≠ placement.mapping) :
    standing committed (placements ++ [(time, placement)]) placement.mapping =
      some (match placement with
        | .top _ _ => toLex (1, (time : ℤ))
        | .bottom _ _ => toLex (-1, -(time : ℤ))) := by
  have none_ : placements.find? (fun entry => entry.2.mapping == placement.mapping) = none := by
    rw [find?_eq_none]
    intro entry mem
    rw [beq_iff_eq]
    exact fresh entry mem
  have some_ : [(time, placement)].find? (fun entry => entry.2.mapping == placement.mapping) =
      some (time, placement) := by
    simp
  unfold standing
  rw [find?_append, none_, none_or, some_]
  cases placement <;> rfl

theorem Layers.place {ids : List SegmentMappingId}
    (layers : Layers (standing committed placements) ids)
    (before : ∀ entry ∈ placements, entry.1 < time)
    (fresh : ∀ entry ∈ placements, entry.2.mapping ≠ placement.mapping) :
    Layers (standing committed (placements ++ [(time, placement)])) (place ids placement) := by
  have others : (ids.filter fun candidate => candidate != placement.mapping).Pairwise
      fun id other => ∃ low high,
        standing committed (placements ++ [(time, placement)]) id = some low ∧
        standing committed (placements ++ [(time, placement)]) other = some high ∧ low < high := by
    refine (layers.sorted.filter _).imp_of_mem fun {id other} idMem otherMem below => ?_
    have ne := bne_iff_ne.mp (mem_filter.mp idMem).2
    have otherNe := bne_iff_ne.mp (mem_filter.mp otherMem).2
    rw [standing_append_ne ne, standing_append_ne otherNe]
    exact below
  have stands : ∀ id ∈ ids.filter (fun candidate => candidate != placement.mapping), ∃ rank,
      standing committed (placements ++ [(time, placement)]) id = some rank ∧
        toLex (-1, -(time : ℤ)) < rank ∧ rank < toLex (1, (time : ℤ)) := by
    intro id mem
    obtain ⟨mem, ne⟩ := mem_filter.mp mem
    obtain ⟨rank, isRank⟩ := isSome_iff_exists.mp ((layers.mem_iff id).mp mem)
    rw [standing_append_ne (bne_iff_ne.mp ne)]
    exact ⟨rank, isRank, standing_between before isRank⟩
  have self := @standing_append_self committed placements time placement fresh
  have mem_iff : ∀ id, (id = placement.mapping ∨ id ∈ ids ∧ id ≠ placement.mapping) ↔
      (standing committed (placements ++ [(time, placement)]) id).isSome := by
    intro id
    by_cases same : id = placement.mapping
    · subst same
      rw [self]
      exact iff_of_true (.inl rfl) rfl
    · rw [standing_append_ne same, ← layers.mem_iff, or_iff_right same, and_iff_left same]
  unfold SegmentStorageStaging.place
  cases placement with
  | bottom mapping space =>
    constructor
    · intro id
      rw [← mem_iff, mem_cons, mem_filter, bne_iff_ne]
      rfl
    · refine pairwise_cons.mpr ⟨fun id mem => ?_, others⟩
      obtain ⟨rank, isRank, above, -⟩ := stands id mem
      exact ⟨_, rank, self, isRank, above⟩
  | top mapping space =>
    constructor
    · intro id
      rw [← mem_iff, mem_append, mem_filter, bne_iff_ne, mem_singleton, or_comm]
      rfl
    · refine pairwise_append.mpr ⟨others, pairwise_singleton _ _, ?_⟩
      intro id mem top isTop
      obtain ⟨rank, isRank, -, below⟩ := stands id mem
      rw [mem_singleton.mp isTop]
      exact ⟨rank, _, isRank, self, below⟩

theorem layers_foldl_place (committed : SegmentMappingId → Option ℤ) :
    ∀ (rest placements : List (ℕ × StagedMappingPlacementRecord)) (ids : List SegmentMappingId),
    (placements ++ rest).Pairwise (fun entry other =>
      entry.1 < other.1 ∧ entry.2.mapping ≠ other.2.mapping) →
    Layers (standing committed placements) ids →
    Layers (standing committed (placements ++ rest)) ((rest.map Prod.snd).foldl place ids) := by
  intro rest
  induction rest with
  | nil =>
    intro placements ids _ layers
    rw [append_nil]
    exact layers
  | cons entry rest ih =>
    intro placements ids apart layers
    have earlier := (pairwise_append.mp apart).2.2
    have next := @Layers.place committed placements entry.1 entry.2 ids layers
      (fun other mem => (earlier other mem entry (.head _)).1)
      (fun other mem => (earlier other mem entry (.head _)).2)
    have split : placements ++ entry :: rest = placements ++ [(entry.1, entry.2)] ++ rest := by
      rw [append_assoc]
      rfl
    rw [split] at apart ⊢
    exact ih _ _ apart next

end Standing

/-! ## The layers of a space -/

variable {D S E : Type} {storage : SegmentStorage D S E} {staging : SegmentStorageStaging}
  {space : AddressSpaceId}

/-- The priority that a mapping has in a space, unless it is removed. -/
def committedPriority (storage : SegmentStorage D S E) (staging : SegmentStorageStaging)
    (space : AddressSpaceId) (id : SegmentMappingId) : Option ℤ :=
  if id ∈ staging.removedMappings then none
  else (spaceOf storage space).bind fun space =>
    (space.mappingPlacements.get? id).map MappingPlacement.priority

/-- What was placed in a space, in the order of the times. -/
def placementsIn (staging : SegmentStorageStaging) (space : AddressSpaceId) :
    List (ℕ × StagedMappingPlacementRecord) :=
  staging.placements.entries.filter fun entry => entry.2.space == space

/-- Where a mapping stands in the staged layout of a space. -/
def standingIn (storage : SegmentStorage D S E) (staging : SegmentStorageStaging)
    (space : AddressSpaceId) (id : SegmentMappingId) : Option (ℤ ×ₗ ℤ) :=
  standing (committedPriority storage staging space) (placementsIn staging space) id

variable {found : AddressSpace S E}

theorem spaceOf_eq_some (isSpace : spaceOf storage space = some found) :
    found.id = space ∧ ∃ key, (key, found) ∈ storage.spaces.entries := by
  obtain ⟨entry, isEntry, rfl⟩ := map_eq_some_iff.mp isSpace
  have same := find?_some isEntry
  exact ⟨beq_iff_eq.mp same, entry.1, mem_of_find?_eq_some isEntry⟩

theorem committedPriority_eq
    (isSpace : spaceOf storage space = some found) (id : SegmentMappingId) :
    committedPriority storage staging space id = if id ∈ staging.removedMappings then none
      else (found.mappingPlacements.get? id).map MappingPlacement.priority := by
  unfold committedPriority
  rw [isSpace]
  rfl

theorem committedPriority_none (noSpace : spaceOf storage space = none) (id : SegmentMappingId) :
    committedPriority storage staging space id = none := by
  unfold committedPriority
  rw [noSpace, bind_none, ite_self]

theorem Sound.placementsIn_apart (sound : Sound storage staging) (space : AddressSpaceId) :
    (placementsIn staging space).Pairwise fun entry other =>
      entry.1 < other.1 ∧ entry.2.mapping ≠ other.2.mapping := by
  have order : ∀ entry ∈ placementsIn staging space,
      staging.placementOrder.get? (toLex (space, entry.2.mapping)) = some entry.1 := by
    intro entry mem
    obtain ⟨mem, here⟩ := mem_filter.mp mem
    exact (sound.ordered space entry.2.mapping entry.1).mpr
      ⟨entry.2, OrdMap.get?_eq_some.mpr mem, beq_iff_eq.mp here, rfl⟩
  refine (staging.placements.sorted.filter _).imp_of_mem fun {entry other} mem otherMem lt => ?_
  refine ⟨lt, fun same => ?_⟩
  have held := order entry mem
  rw [same, order other otherMem] at held
  exact absurd (Option.some.inj held) (ne_of_gt lt)

theorem Sound.unknownSpace (sound : Sound storage staging)
    (unknown : ¬ KnownSpace storage staging space) :
    staging.layersInSpace storage space = .error (.unknownSpace space) ∧
      ∀ id, standingIn storage staging space id = none := by
  obtain ⟨created, committed⟩ := not_or.mp unknown
  have isSpace := not_isSome_iff_eq_none.mp committed
  have nothing : placementsIn staging space = [] := by
    rw [placementsIn, filter_eq_nil_iff]
    intro entry mem here
    obtain ⟨-, held⟩ := sound.placed entry.1 entry.2 (OrdMap.get?_eq_some.mpr mem)
    rw [beq_iff_eq.mp here] at held
    exact unknown held
  constructor
  · unfold SegmentStorageStaging.layersInSpace
    rw [isSpace]
    dsimp only
    rw [if_neg created]
    rfl
  · intro id
    rw [standingIn, nothing, standing_nil, committedPriority_none isSpace]
    rfl

variable [mapS : IntervalMap S SegmentSubMapping] [mapE : IntervalMap E SegmentMappingId]

omit mapS in
theorem layers_committed
    {known : SegmentMappingId → Option SegmentMapping} (indexed : Indexed known found)
    (isSpace : spaceOf storage space = some found) :
    Layers (standing (committedPriority storage staging space) [])
      ((found.mappingsByPriority.entries.map fun entry => entry.2.mappingId).filter
        fun mapping => mapping ∉ staging.removedMappings) := by
  have rank : ∀ entry ∈ found.mappingsByPriority.entries,
      entry.2.mappingId ∉ staging.removedMappings →
      standing (committedPriority storage staging space) [] entry.2.mappingId =
        some (toLex (0, entry.1)) := by
    intro entry mem kept
    obtain ⟨placement, placed, priority⟩ := indexed.ordered entry.1 entry.2 mem
    rw [standing_nil, committedPriority_eq isSpace, if_neg kept, OrdMap.get?_eq_some.mpr placed,
      ← priority]
    rfl
  constructor
  · intro id
    rw [mem_filter, List.mem_map]
    constructor
    · intro ⟨⟨entry, mem, same⟩, kept⟩
      subst same
      rw [rank entry mem (of_decide_eq_true kept)]
      rfl
    · intro stands
      rw [standing_nil, committedPriority_eq isSpace] at stands
      split at stands
      · cases stands
      · rename_i kept
        rw [isSome_map, isSome_map] at stands
        obtain ⟨placement, placed⟩ := isSome_iff_exists.mp stands
        obtain ⟨mapping, -, isId, -, entry⟩ :=
          indexed.placed id placement (OrdMap.get?_eq_some.mp placed)
        exact ⟨⟨_, entry, isId⟩, decide_eq_true kept⟩
  · rw [List.filter_map, pairwise_map]
    apply (found.mappingsByPriority.sorted.filter _).imp_of_mem
    intro entry other mem otherMem lt
    obtain ⟨mem, kept⟩ := mem_filter.mp mem
    obtain ⟨otherMem, otherKept⟩ := mem_filter.mp otherMem
    exact ⟨_, _, rank entry mem (of_decide_eq_true kept),
      rank other otherMem (of_decide_eq_true otherKept),
      Prod.Lex.toLex_lt_toLex.mpr (.inr ⟨rfl, lt⟩)⟩

/-- The layers of a space: the list has what stands in it, from the lowest to the highest. -/
theorem Sound.layersInSpace (sound : Sound storage staging) (laidOut : LaidOut storage)
    (known : KnownSpace storage staging space) :
    ∃ ids, staging.layersInSpace storage space = .ok ids ∧
      Layers (standingIn storage staging space) ids := by
  have placed : ∀ ids, Layers (standing (committedPriority storage staging space) []) ids →
      Layers (standingIn storage staging space)
        (((staging.placements.entries.map Prod.snd).filter fun placement =>
          placement.space == space).foldl place ids) := by
    intro ids layers
    rw [List.filter_map]
    exact layers_foldl_place _ _ [] ids (sound.placementsIn_apart space) layers
  unfold SegmentStorageStaging.layersInSpace
  cases isSpace : spaceOf storage space with
  | some found =>
    obtain ⟨-, key, mem⟩ := spaceOf_eq_some isSpace
    exact ⟨_, rfl, placed _ (layers_committed (laidOut.spaces key found mem).2.indexed isSpace)⟩
  | none =>
    have created : (staging.createdSpaces.get? space).isSome := by
      apply known.resolve_right
      rw [isSpace]
      exact nofun
    dsimp only
    rw [if_pos created]
    refine ⟨_, rfl, placed _ ⟨fun id => ?_, .nil⟩⟩
    rw [standing_nil, committedPriority_none isSpace]
    exact iff_of_false nofun nofun

theorem Sound.known_of_standing (sound : Sound storage staging) (laidOut : LaidOut storage)
    {id : SegmentMappingId} (stands : (standingIn storage staging space id).isSome) :
    Known storage staging id := by
  have placed : ∀ entry, (placementsIn staging space).find? (fun entry => entry.2.mapping == id) =
      some entry → Known storage staging id := by
    intro entry found
    obtain ⟨mem, -⟩ := mem_filter.mp (mem_of_find?_eq_some found)
    have same := find?_some found
    rw [← beq_iff_eq.mp same]
    exact (sound.placed entry.1 entry.2 (OrdMap.get?_eq_some.mpr mem)).1
  unfold standingIn standing at stands
  split at stands
  · exact placed _ (by assumption)
  · exact placed _ (by assumption)
  · rw [isSome_map] at stands
    cases isSpace : spaceOf storage space with
    | none =>
      rw [committedPriority_none isSpace] at stands
      cases stands
    | some found =>
      obtain ⟨-, key, mem⟩ := spaceOf_eq_some isSpace
      rw [committedPriority_eq isSpace] at stands
      split at stands
      · cases stands
      · rename_i kept
        rw [isSome_map] at stands
        obtain ⟨placement, placed⟩ := isSome_iff_exists.mp stands
        obtain ⟨mapping, held, -, -⟩ := (laidOut.spaces key found mem).2.indexed.placed id placement
          (OrdMap.get?_eq_some.mp placed)
        exact ⟨kept, .inr (isSome_iff_exists.mpr ⟨mapping, held⟩)⟩

/-- The staged layout of a space: the records of what stands in it, the lowest first. -/
theorem Sound.stagedMappingsInSpace (sound : Sound storage staging) (laidOut : LaidOut storage)
    (known : KnownSpace storage staging space) :
    ∃ layers : List (SegmentMappingId × StagedMappingRecord),
      staging.stagedMappingsInSpace storage space = .ok (layers.map Prod.snd) ∧
      Layers (standingIn storage staging space) (layers.map Prod.fst) ∧
      ∀ layer ∈ layers, staging.stagedMapping storage layer.1 = .ok layer.2 := by
  obtain ⟨ids, call, isLayers⟩ := sound.layersInSpace laidOut known
  have recorded : ∀ id ∈ ids, ∃ record, staging.stagedMapping storage id = .ok record :=
    fun id mem => (sound.stagedMapping id).1.mp
      (sound.known_of_standing laidOut ((isLayers.mem_iff id).mp mem))
  obtain ⟨layers, keys, run, each⟩ := mapM_total recorded
  refine ⟨layers, ?_, keys ▸ isLayers, each⟩
  unfold SegmentStorageStaging.stagedMappingsInSpace
  rw [call]
  exact run

end Fugue.Storage.Segments.SegmentStorageStaging
