import Fugue.Storage.Segments.Staging

/-!
# What every run of staging keeps

The indexes of the placements agree, and what is placed is a mapping that is committed or created
and not removed (`Sound`). Every staged state is reached by operations from the empty one.
-/

namespace Fugue.Storage.Segments.SegmentStorageStaging

open Fugue.Lib Fugue.Ir OrdMap SegmentMappingBuilder

variable {D S E : Type} {storage : SegmentStorage D S E} {staging staging' : SegmentStorageStaging}

/-! ## Runs -/

inductive Operation where
  | createMapping (builder : SegmentMappingBuilder)
  | createSyntheticMapping (start : Address) (bytes : List UInt8) (properties : SegmentProperties)
  | createSpaceWith (name : Option String) (kind : AddressSpaceKind)
  | createSpaceWithId (id : AddressSpaceId) (name : Option String) (kind : AddressSpaceKind)
  | addMapping (space : AddressSpaceId) (mapping : SegmentMappingId)
  | addMappingWithPlacement (placement : StagedMappingPlacementRecord)
  | removeMapping (id : SegmentMappingId)
  | remapMapping (id : SegmentMappingId) (start : Address)
  | resizeMapping (id : SegmentMappingId) (size : UInt64)
  | updateMappingMetadata (id : SegmentMappingId) (kind : SegmentMappingKind)
      (provenance : SegmentMappingProvenance) (flags : UInt32)
  | reprioritiseMapping (placement : StagedMappingPlacementRecord)
  | stageWrites (writes : PreparedSegmentWriteRecords)

/-- The state after an operation that returns another one or is refused. -/
def after (staging : SegmentStorageStaging) (result : Except StagingError SegmentStorageStaging) :
    SegmentStorageStaging :=
  match result with
  | .ok next => next
  | .error _ => staging

def apply (storage : SegmentStorage D S E) (staging : SegmentStorageStaging) :
    Operation → SegmentStorageStaging
  | .createMapping builder => staging.after ((staging.createMapping storage builder).map Prod.fst)
  | .createSyntheticMapping start bytes properties =>
    (staging.createSyntheticMapping storage start bytes properties).1
  | .createSpaceWith name kind =>
    staging.after ((staging.createSpaceWith storage name kind).map Prod.fst)
  | .createSpaceWithId id name kind =>
    staging.after (staging.createSpaceWithId storage id name kind)
  | .addMapping space mapping => staging.after (staging.addMapping storage space mapping)
  | .addMappingWithPlacement placement =>
    staging.after (staging.addMappingWithPlacement storage placement)
  | .removeMapping id => staging.after ((staging.removeMapping storage id).map Prod.fst)
  | .remapMapping id start => staging.after (staging.remapMapping storage id start)
  | .resizeMapping id size => staging.after (staging.resizeMapping storage id size)
  | .updateMappingMetadata id kind provenance flags =>
    staging.after (staging.updateMappingMetadata storage id kind provenance flags)
  | .reprioritiseMapping placement => staging.after (staging.reprioritiseMapping storage placement)
  | .stageWrites writes => staging.stageWrites writes

/-- The state after a transaction so far. -/
def run (storage : SegmentStorage D S E) (operations : List Operation) : SegmentStorageStaging :=
  operations.foldl (apply storage) new

/-! ## The invariant -/

/-- A mapping that is committed or created, and not removed. -/
def Known (storage : SegmentStorage D S E) (staging : SegmentStorageStaging)
    (id : SegmentMappingId) : Prop :=
  id ∉ staging.removedMappings ∧
    ((staging.createdMappings.get? id).isSome ∨ (storage.mappings.get? id).isSome)

def KnownSpace (storage : SegmentStorage D S E) (staging : SegmentStorageStaging)
    (id : AddressSpaceId) : Prop :=
  (staging.createdSpaces.get? id).isSome ∨ (spaceOf storage id).isSome

/-- What holds between the operations of a transaction. -/
structure Sound (storage : SegmentStorage D S E) (staging : SegmentStorageStaging) : Prop where
  created : ∀ id builder, staging.createdMappings.get? id = some builder →
    storage.mappingCtr ≤ id ∧ id < storage.mappingCtr + staging.mappingReservations ∧
      builder.range.isSome
  staged : ∀ id record, staging.stagedMappings.get? id = some record →
    (storage.mappings.get? id).isSome ∧ record.range.Proper ∧
      record.range.stop - record.range.start + 1 < 2 ^ 64
  removed : ∀ id ∈ staging.removedMappings, (storage.mappings.get? id).isSome
  ordered : ∀ space mapping q, staging.placementOrder.get? (toLex (space, mapping)) = some q ↔
    ∃ placement, staging.placements.get? q = some placement ∧ placement.space = space ∧
      placement.mapping = mapping
  sequenced : ∀ q placement, staging.placements.get? q = some placement → q < staging.sequence
  placed : ∀ q placement, staging.placements.get? q = some placement →
    Known storage staging placement.mapping ∧ KnownSpace storage staging placement.space
  provided : ∀ provider, staging.syntheticProvider = some provider → provider.size < 2 ^ 64

theorem new_sound : Sound storage new := by
  constructor
  · exact fun id builder found => nomatch found
  · exact fun id record found => nomatch found
  · exact fun id mem => nomatch mem
  · intro space mapping q
    constructor
    · exact fun found => nomatch found
    · intro ⟨placement, found, _⟩
      cases found
  · exact fun q placement found => nomatch found
  · exact fun q placement found => nomatch found
  · exact fun provider found => nomatch found

/-! ## Mappings -/

theorem orError_eq_ok {α : Type} {error : StagingError} {value : Option α} {a : α} :
    orError error value = .ok a ↔ value = some a := by
  cases value <;> simp [orError]

variable {builder : SegmentMappingBuilder}

variable {record : StagedMappingRecord}

theorem fromBuilder_eq_ok (call : StagedMappingRecord.fromBuilder builder = .ok record) :
    builder.range = some record.range := by
  obtain ⟨range, found, eq⟩ := bind_eq_ok.mp call
  cases eq
  exact orError_eq_ok.mp found

variable {id : SegmentMappingId}

theorem fromStorage_eq_ok :
    fromStorage storage id = .ok record ↔
      ∃ mapping, storage.mappings.get? id = some mapping ∧ .ofMapping mapping = record := by
  unfold fromStorage
  rw [bind_eq_ok]
  constructor
  · intro ⟨mapping, found, eq⟩
    cases eq
    exact ⟨mapping, orError_eq_ok.mp found, rfl⟩
  · intro ⟨mapping, found, eq⟩
    rw [← eq]
    exact ⟨mapping, orError_eq_ok.mpr found, rfl⟩

variable {range : AddressRange}

theorem range_sized (found : builder.range = some range) :
    range.Proper ∧ range.stop - range.start + 1 < 2 ^ 64 :=
  rangeFromSize_spec found builder.size.toNat_lt

/-- The mappings that staging knows are those that have a record, and its range has a size. -/
theorem Sound.stagedMapping (sound : Sound storage staging) (id : SegmentMappingId) :
    (Known storage staging id ↔ ∃ record, staging.stagedMapping storage id = .ok record) ∧
    ∀ record, staging.stagedMapping storage id = .ok record →
      record.range.Proper ∧ record.range.stop - record.range.start + 1 < 2 ^ 64 := by
  unfold Known SegmentStorageStaging.stagedMapping
  by_cases removed : id ∈ staging.removedMappings
  · rw [if_pos removed]
    refine ⟨⟨fun known => absurd removed known.1, fun ⟨_, call⟩ => nomatch call⟩,
      fun _ call => nomatch call⟩
  · rw [if_neg removed, and_iff_right removed]
    cases created : staging.createdMappings.get? id with
    | some builder =>
      obtain ⟨-, -, ranged⟩ := sound.created id builder created
      obtain ⟨range, found⟩ := Option.isSome_iff_exists.mp ranged
      refine ⟨⟨fun _ => ⟨⟨range, builder.flags, builder.kind, builder.offset, builder.properties,
        builder.provenance, builder.providerId⟩, ?_⟩, fun _ => .inl rfl⟩, fun record call =>
          range_sized (fromBuilder_eq_ok call)⟩
      dsimp only
      unfold StagedMappingRecord.fromBuilder
      rw [found]
      rfl
    | none =>
      cases staged : staging.stagedMappings.get? id with
      | some record =>
        obtain ⟨known, proper, sized⟩ := sound.staged id record staged
        refine ⟨⟨fun _ => ⟨record, rfl⟩, fun _ => .inr known⟩, ?_⟩
        intro other call
        cases call
        exact ⟨proper, sized⟩
      | none =>
        constructor
        · constructor
          · intro known
            obtain ⟨mapping, found⟩ := Option.isSome_iff_exists.mp (known.resolve_left nofun)
            exact ⟨_, fromStorage_eq_ok.mpr ⟨mapping, found, rfl⟩⟩
          · intro ⟨record, call⟩
            obtain ⟨mapping, found, -⟩ := fromStorage_eq_ok.mp call
            exact .inr (Option.isSome_iff_exists.mpr ⟨mapping, found⟩)
        · intro record call
          obtain ⟨mapping, -, rfl⟩ := fromStorage_eq_ok.mp call
          exact ⟨mapping.proper, mapping.sized⟩

/-! ## Operations that do not place mappings -/

theorem Sound.extend (sound : Sound storage staging)
    (created : ∀ id builder, staging'.createdMappings.get? id = some builder →
      storage.mappingCtr ≤ id ∧ id < storage.mappingCtr + staging'.mappingReservations ∧
        builder.range.isSome)
    (staged : ∀ id record, staging'.stagedMappings.get? id = some record →
      (storage.mappings.get? id).isSome ∧ record.range.Proper ∧
        record.range.stop - record.range.start + 1 < 2 ^ 64)
    (provided : ∀ provider, staging'.syntheticProvider = some provider → provider.size < 2 ^ 64)
    (placements : staging'.placements = staging.placements)
    (order : staging'.placementOrder = staging.placementOrder)
    (removed : staging'.removedMappings = staging.removedMappings)
    (sequence : staging'.sequence = staging.sequence)
    (keeps : ∀ id, (staging.createdMappings.get? id).isSome →
      (staging'.createdMappings.get? id).isSome)
    (keepsSpaces : ∀ id, (staging.createdSpaces.get? id).isSome →
      (staging'.createdSpaces.get? id).isSome) : Sound storage staging' := by
  refine ⟨created, staged, ?_, ?_, ?_, ?_, provided⟩
  · rw [removed]
    exact sound.removed
  · rw [placements, order]
    exact sound.ordered
  · rw [placements, sequence]
    exact sound.sequenced
  · rw [placements]
    intro q placement found
    obtain ⟨known, space⟩ := sound.placed q placement found
    exact ⟨⟨by rw [removed]; exact known.1, known.2.imp_left (keeps _)⟩,
      space.imp_left (keepsSpaces _)⟩

theorem Sound.create (sound : Sound storage staging) (ranged : builder.range.isSome)
    (provided : ∀ provider, staging'.syntheticProvider = some provider → provider.size < 2 ^ 64)
    (created : staging'.createdMappings = staging.createdMappings.insert
      (storage.mappingCtr + staging.mappingReservations) builder)
    (reservations : staging'.mappingReservations = staging.mappingReservations + 1)
    (staged : staging'.stagedMappings = staging.stagedMappings)
    (placements : staging'.placements = staging.placements)
    (order : staging'.placementOrder = staging.placementOrder)
    (removed : staging'.removedMappings = staging.removedMappings)
    (sequence : staging'.sequence = staging.sequence)
    (spaces : staging'.createdSpaces = staging.createdSpaces) : Sound storage staging' := by
  refine sound.extend ?_ (by rw [staged]; exact sound.staged) provided placements order removed
    sequence ?_ (by rw [spaces]; exact fun _ => id)
  · intro id other found
    rw [created] at found
    rw [reservations]
    by_cases same : id = storage.mappingCtr + staging.mappingReservations
    · subst same
      rw [get?_insert_self] at found
      cases found
      exact ⟨Nat.le_add_right _ _, Nat.lt_succ_self _, ranged⟩
    · rw [get?_insert_ne same] at found
      obtain ⟨above, below, ranged⟩ := sound.created id other found
      exact ⟨above, below.trans (Nat.lt_succ_self _), ranged⟩
  · intro id some_
    rw [created]
    by_cases same : id = storage.mappingCtr + staging.mappingReservations
    · rw [same, get?_insert_self]
      rfl
    · rwa [get?_insert_ne same]

theorem pendingMappingId_eq_ok {offset : ℕ}
    (call : pendingMappingId storage offset = .ok id) : id = storage.mappingCtr + offset := by
  unfold pendingMappingId at call
  split at call
  · cases call
    rfl
  · cases call

section

variable (sound : Sound storage staging)
include sound

theorem Sound.createMapping {result : SegmentStorageStaging × SegmentMappingId}
    (call : staging.createMapping storage builder = .ok result) : Sound storage result.1 := by
  unfold SegmentStorageStaging.createMapping at call
  split at call
  · cases call
  · obtain ⟨range, ranged, call⟩ := bind_eq_ok.mp call
    obtain ⟨id, pending, call⟩ := bind_eq_ok.mp call
    obtain rfl := pendingMappingId_eq_ok pending
    cases call
    exact sound.create (Option.isSome_iff_exists.mpr ⟨range, orError_eq_ok.mp ranged⟩)
      sound.provided rfl rfl rfl rfl rfl rfl rfl rfl

theorem Sound.createSyntheticMapping (start : Address)
    (bytes : List UInt8) (properties : SegmentProperties) :
    Sound storage (staging.createSyntheticMapping storage start bytes properties).1 := by
  have provided : ∀ provider : StagedSyntheticProvider, provider.size < 2 ^ 64 →
      Sound storage { staging with syntheticProvider := some provider } := by
    intro provider small
    refine sound.extend sound.created sound.staged ?_ rfl rfl rfl rfl (fun _ => id) fun _ => id
    intro other eq
    cases eq
    exact small
  unfold SegmentStorageStaging.createSyntheticMapping
  split
  · exact sound
  · split
    · exact sound
    · split
      · exact sound
      · rename_i provider offset _
        split
        · exact sound
        · rename_i small
          split
          · exact provided _ (not_le.mp small)
          · rename_i id pending
            obtain rfl := pendingMappingId_eq_ok pending
            have size : (UInt64.ofNat bytes.length).toNat = bytes.length :=
              UInt64.toNat_ofNat_of_lt' (by change bytes.length < 2 ^ 64; omega)
            have ranged : (SegmentMappingBuilder.mk start (.ofNat bytes.length) (.ofNat offset)
                provider properties .none .synthetic 0 "").range.isSome := by
              unfold range rangeFromSize
              dsimp only
              rw [size, if_neg (by omega), if_pos (by omega)]
              rfl
            exact sound.create ranged (provided _ (not_le.mp small)).provided rfl rfl rfl rfl rfl
              rfl rfl rfl

theorem Sound.createSpaceWithId {id : AddressSpaceId}
    {name : Option String} {kind : AddressSpaceKind}
    (call : staging.createSpaceWithId storage id name kind = .ok staging') :
    Sound storage staging' := by
  have inserted : Sound storage { staging with
      createdSpaces := staging.createdSpaces.insert id ⟨name, kind⟩ } := by
    refine sound.extend sound.created sound.staged sound.provided rfl rfl rfl rfl
      (fun _ kept => kept) ?_
    intro other some_
    by_cases same : other = id
    · subst same
      rw [get?_insert_self]
      rfl
    · rwa [get?_insert_ne same]
  unfold SegmentStorageStaging.createSpaceWithId at call
  split at call
  · cases call
  · obtain ⟨-, -, call⟩ := bind_eq_ok.mp call
    obtain ⟨-, -, call⟩ := bind_eq_ok.mp call
    cases call
    exact inserted

theorem Sound.createSpaceWith {name : Option String}
    {kind : AddressSpaceKind} {result : SegmentStorageStaging × AddressSpaceId}
    (call : staging.createSpaceWith storage name kind = .ok result) : Sound storage result.1 := by
  unfold SegmentStorageStaging.createSpaceWith at call
  dsimp only at call
  split at call
  · obtain ⟨next, created, call⟩ := bind_eq_ok.mp call
    cases call
    exact sound.createSpaceWithId created
  · cases call

/-! ## Operations on a mapping -/

theorem Sound.setBuilder {builder builder' : SegmentMappingBuilder}
    (found : staging.createdMappings.get? id = some builder) (ranged : builder'.range.isSome) :
    Sound storage
      { staging with createdMappings := staging.createdMappings.insert id builder' } := by
  refine sound.extend ?_ sound.staged sound.provided rfl rfl rfl rfl ?_ fun _ kept => kept
  · intro other held otherFound
    by_cases same : other = id
    · subst same
      rw [get?_insert_self] at otherFound
      cases otherFound
      obtain ⟨above, below, -⟩ := sound.created other builder found
      exact ⟨above, below, ranged⟩
    · rw [get?_insert_ne same] at otherFound
      exact sound.created other held otherFound
  · intro other some_
    by_cases same : other = id
    · subst same
      rw [get?_insert_self]
      rfl
    · rwa [get?_insert_ne same]

theorem Sound.updateStaged {update : StagedMappingRecord → Except StagingError StagedMappingRecord}
    (sized : ∀ record record', record.range.Proper →
      record.range.stop - record.range.start + 1 < 2 ^ 64 → update record = .ok record' →
      record'.range.Proper ∧ record'.range.stop - record'.range.start + 1 < 2 ^ 64)
    (call : staging.updateStaged storage id update = .ok staging') : Sound storage staging' := by
  have inserts : ∀ record : StagedMappingRecord, (storage.mappings.get? id).isSome →
      record.range.Proper → record.range.stop - record.range.start + 1 < 2 ^ 64 →
      (do return { staging with
        stagedMappings := staging.stagedMappings.insert id (← update record) } :
          Except StagingError SegmentStorageStaging) = .ok staging' → Sound storage staging' := by
    intro record known proper small call
    obtain ⟨record', updated, call⟩ := bind_eq_ok.mp call
    cases call
    refine sound.extend sound.created ?_ sound.provided rfl rfl rfl rfl (fun _ kept => kept)
      fun _ kept => kept
    intro other held otherFound
    by_cases same : other = id
    · subst same
      rw [get?_insert_self] at otherFound
      cases otherFound
      exact ⟨known, sized record record' proper small updated⟩
    · rw [get?_insert_ne same] at otherFound
      exact sound.staged other held otherFound
  unfold SegmentStorageStaging.updateStaged at call
  split at call
  · cases call
  · cases found : staging.stagedMappings.get? id with
    | some record =>
      obtain ⟨known, proper, small⟩ := sound.staged id record found
      rw [found] at call
      exact inserts record known proper small call
    | none =>
      rw [found] at call
      obtain ⟨record, fromStorage, call⟩ := bind_eq_ok.mp call
      obtain ⟨mapping, mappingFound, rfl⟩ := fromStorage_eq_ok.mp fromStorage
      exact inserts _ (Option.isSome_iff_exists.mpr ⟨mapping, mappingFound⟩) mapping.proper
        mapping.sized call

end

theorem size_lt {size : ℕ} (found : range.size = some size) :
    size < 2 ^ 64 := by
  unfold AddressRange.size at found
  split at found
  · cases found
    exact Nat.two_pow_pos 64
  · dsimp only at found
    split at found
    · rename_i small
      cases found
      exact small
    · cases found

theorem size_range (found : builder.range = some range) : range.size = some builder.size.toNat := by
  have sized := range_sized found
  rw [sized.1.size_eq, if_pos sized.2]
  unfold SegmentMappingBuilder.range rangeFromSize at found
  split at found
  · cases found
  · split at found
    · cases found
      dsimp only
      congr 1
      omega
    · cases found

theorem stagedMapping_created (found : staging.createdMappings.get? id = some builder)
    (call : staging.stagedMapping storage id = .ok record) : builder.range = some record.range := by
  unfold SegmentStorageStaging.stagedMapping at call
  split at call
  · cases call
  · rw [found] at call
    exact fromBuilder_eq_ok call

theorem Sound.remapMapping (sound : Sound storage staging) {start : Address}
    (call : staging.remapMapping storage id start = .ok staging') : Sound storage staging' := by
  obtain ⟨record, recorded, call⟩ := bind_eq_ok.mp call
  obtain ⟨size, hasSize, call⟩ := bind_eq_ok.mp call
  have hasSize := orError_eq_ok.mp hasSize
  split at call
  · cases call
  · cases found : staging.createdMappings.get? id with
    | some builder =>
      rw [found] at call
      cases call
      apply sound.setBuilder found
      have same := hasSize.symm.trans (size_range (stagedMapping_created found recorded))
      have same := Option.some.inj same
      unfold range rangeFromSize
      dsimp only
      rw [← same, if_neg (by omega), if_pos (by omega)]
      rfl
    | none =>
      rw [found] at call
      refine sound.updateStaged (fun record record' proper small updated => ?_) call
      obtain ⟨size, hasSize, updated⟩ := bind_eq_ok.mp updated
      obtain ⟨range, ranged, updated⟩ := bind_eq_ok.mp updated
      cases updated
      exact rangeFromSize_spec (orError_eq_ok.mp ranged) (size_lt (orError_eq_ok.mp hasSize))

theorem Sound.resizeMapping (sound : Sound storage staging) {size : UInt64}
    (call : staging.resizeMapping storage id size = .ok staging') : Sound storage staging' := by
  obtain ⟨record, recorded, call⟩ := bind_eq_ok.mp call
  dsimp only at call
  split at call
  · cases call
  · cases found : staging.createdMappings.get? id with
    | some builder =>
      rw [found] at call
      cases call
      apply sound.setBuilder found
      have ranged := stagedMapping_created found recorded
      have starts : builder.start.address = record.range.start := by
        unfold range rangeFromSize at ranged
        split at ranged
        · cases ranged
        · split at ranged
          · exact congrArg AddressRange.start (Option.some.inj ranged)
          · cases ranged
      unfold range rangeFromSize
      dsimp only
      rw [starts, if_neg (by omega), if_pos (by omega)]
      rfl
    | none =>
      rw [found] at call
      refine sound.updateStaged (fun record record' proper small updated => ?_) call
      obtain ⟨range, ranged, updated⟩ := bind_eq_ok.mp updated
      cases updated
      exact rangeFromSize_spec (orError_eq_ok.mp ranged) size.toNat_lt

theorem Sound.updateMappingMetadata (sound : Sound storage staging)
    {kind : SegmentMappingKind} {provenance : SegmentMappingProvenance} {flags : UInt32}
    (call : staging.updateMappingMetadata storage id kind provenance flags = .ok staging') :
    Sound storage staging' := by
  unfold SegmentStorageStaging.updateMappingMetadata at call
  cases found : staging.createdMappings.get? id with
  | some builder =>
    rw [found] at call
    cases call
    obtain ⟨-, -, ranged⟩ := sound.created id builder found
    exact sound.setBuilder found ranged
  | none =>
    rw [found] at call
    refine sound.updateStaged (fun record record' proper small updated => ?_) call
    cases updated
    exact ⟨proper, small⟩

/-! ## Placements -/

variable {placement : StagedMappingPlacementRecord}

section

variable (sound : Sound storage staging)
include sound

theorem Sound.setMappingPlacement (known : Known storage staging placement.mapping)
    (space : KnownSpace storage staging placement.space) :
    Sound storage (staging.setMappingPlacement placement) ∧
      ∀ q other, (staging.setMappingPlacement placement).placements.get? q = some other ↔
        q = staging.sequence ∧ other = placement ∨ staging.placements.get? q = some other ∧
            ¬ (other.space = placement.space ∧ other.mapping = placement.mapping) := by
  have placements : ∀ q other,
      (staging.setMappingPlacement placement).placements.get? q = some other ↔
        q = staging.sequence ∧ other = placement ∨
          staging.placements.get? q = some other ∧
            ¬ (other.space = placement.space ∧ other.mapping = placement.mapping) := by
    intro q other
    have below : staging.placements.get? q = some other → q ≠ staging.sequence :=
      fun found => ne_of_lt (sound.sequenced q other found)
    -- a placement of the same mapping in the same space is the one that the order has
    have sameKey : staging.placements.get? q = some other →
        other.space = placement.space ∧ other.mapping = placement.mapping →
        staging.placementOrder.get? (toLex (placement.space, placement.mapping)) = some q :=
      fun found same => (sound.ordered _ _ q).mpr ⟨other, found, same⟩
    unfold SegmentStorageStaging.setMappingPlacement
    rw [get?_eq_some, mem_insert, Prod.mk.injEq]
    apply or_congr Iff.rfl
    cases previous : staging.placementOrder.get? (toLex (placement.space, placement.mapping)) with
    | none =>
      rw [← get?_eq_some]
      constructor
      · intro ⟨found, _⟩
        refine ⟨found, fun same => ?_⟩
        rw [sameKey found same] at previous
        cases previous
      · intro ⟨found, _⟩
        exact ⟨found, below found⟩
    | some old =>
      rw [mem_erase, ← get?_eq_some]
      obtain ⟨held, heldFound, heldSpace, heldMapping⟩ := (sound.ordered _ _ old).mp previous
      constructor
      · intro ⟨⟨found, ne⟩, _⟩
        refine ⟨found, fun same => ne ?_⟩
        rw [sameKey found same] at previous
        exact Option.some.inj previous
      · intro ⟨found, differs⟩
        refine ⟨⟨found, fun same => differs ?_⟩, below found⟩
        dsimp only at same
        rw [same, heldFound] at found
        cases found
        exact ⟨heldSpace, heldMapping⟩
  refine ⟨⟨sound.created, sound.staged, sound.removed, ?_, ?_, ?_, sound.provided⟩, placements⟩
  · intro at_ mapping q
    change (staging.placementOrder.insert (toLex (placement.space, placement.mapping))
      staging.sequence).get? (toLex (at_, mapping)) = some q ↔ _
    by_cases same : toLex (at_, mapping) = toLex (placement.space, placement.mapping)
    · rw [same, get?_insert_self]
      obtain ⟨rfl, rfl⟩ := Prod.mk.inj (toLex.injective same)
      constructor
      · intro eq
        exact ⟨placement, (placements q placement).mpr (.inl ⟨(Option.some.inj eq).symm, rfl⟩), rfl,
          rfl⟩
      · intro ⟨other, found, otherSpace, otherMapping⟩
        rcases (placements q other).mp found with ⟨rfl, -⟩ | ⟨-, differs⟩
        · rfl
        · exact absurd ⟨otherSpace, otherMapping⟩ differs
    · rw [get?_insert_ne same, sound.ordered]
      have apart : ∀ other : StagedMappingPlacementRecord, other.space = at_ →
          other.mapping = mapping →
          ¬ (other.space = placement.space ∧ other.mapping = placement.mapping) := by
        intro other otherSpace otherMapping both
        rw [otherSpace, otherMapping] at both
        exact same (congrArg toLex (Prod.mk.injEq .. ▸ both))
      constructor
      · intro ⟨other, found, otherSpace, otherMapping⟩
        exact ⟨other, (placements q other).mpr (.inr ⟨found, apart other otherSpace otherMapping⟩),
          otherSpace, otherMapping⟩
      · intro ⟨other, found, otherSpace, otherMapping⟩
        rcases (placements q other).mp found with ⟨-, rfl⟩ | ⟨old, -⟩
        · exact absurd ⟨rfl, rfl⟩ (apart other otherSpace otherMapping)
        · exact ⟨other, old, otherSpace, otherMapping⟩
  · intro q other found
    rcases (placements q other).mp found with ⟨rfl, -⟩ | ⟨old, -⟩
    · exact Nat.lt_succ_self _
    · exact (sound.sequenced q other old).trans (Nat.lt_succ_self _)
  · intro q other found
    rcases (placements q other).mp found with ⟨-, rfl⟩ | ⟨old, -⟩
    · exact ⟨known, space⟩
    · exact sound.placed q other old

theorem Sound.validateMappingSpace {space : AddressSpaceId} {mapping : SegmentMappingId}
    (call : staging.validateMappingSpace storage space mapping = .ok ()) :
    Known storage staging mapping ∧ KnownSpace storage staging space := by
  unfold SegmentStorageStaging.validateMappingSpace at call
  split at call
  · cases call
  · rename_i known
    obtain ⟨record, recorded, -⟩ := bind_eq_ok.mp call
    refine ⟨(sound.stagedMapping mapping).1.mpr ⟨record, recorded⟩, ?_⟩
    unfold KnownSpace
    rw [Option.isSome_iff_ne_none, Option.isSome_iff_ne_none]
    rw [Option.isNone_iff_eq_none, Option.isNone_iff_eq_none] at known
    exact not_and_or.mp known

theorem Sound.addMappingWithPlacement
    (call : staging.addMappingWithPlacement storage placement = .ok staging') :
    Sound storage staging' := by
  obtain ⟨_, valid, call⟩ := bind_eq_ok.mp call
  obtain ⟨known, space⟩ := sound.validateMappingSpace valid
  split at call
  · cases call
  · cases call
    exact (sound.setMappingPlacement known space).1

theorem Sound.reprioritiseMapping
    (call : staging.reprioritiseMapping storage placement = .ok staging') :
    Sound storage staging' := by
  obtain ⟨_, valid, call⟩ := bind_eq_ok.mp call
  obtain ⟨known, space⟩ := sound.validateMappingSpace valid
  split at call
  · cases call
    exact (sound.setMappingPlacement known space).1
  · cases call

theorem Sound.addMapping {space : AddressSpaceId}
    {mapping : SegmentMappingId} (call : staging.addMapping storage space mapping = .ok staging') :
    Sound storage staging' := by
  obtain ⟨record, -, call⟩ := bind_eq_ok.mp call
  split at call <;> exact sound.addMappingWithPlacement call

theorem Sound.removeMapping {result : SegmentStorageStaging × List AddressRange}
    (call : staging.removeMapping storage id = .ok result) : Sound storage result.1 := by
  obtain ⟨ranges, -, call⟩ := bind_eq_ok.mp call
  obtain ⟨removed, forgets, call⟩ := bind_eq_ok.mp call
  cases call
  unfold forgetMapping at forgets
  have retained : ∀ removed : SegmentStorageStaging,
      (∀ other builder, removed.createdMappings.get? other = some builder →
        staging.createdMappings.get? other = some builder) →
      removed.mappingReservations = staging.mappingReservations →
      (∀ other record, removed.stagedMappings.get? other = some record →
        staging.stagedMappings.get? other = some record) →
      (∀ other ∈ removed.removedMappings, (storage.mappings.get? other).isSome) →
      removed.placements = staging.placements → removed.placementOrder = staging.placementOrder →
      removed.sequence = staging.sequence → removed.createdSpaces = staging.createdSpaces →
      removed.syntheticProvider = staging.syntheticProvider →
      (∀ other, other ≠ id → Known storage staging other → Known storage removed other) →
      Sound storage { removed with
        placements := removed.placements.retain fun _ placement => placement.mapping != id
        placementOrder := removed.placementOrder.retain fun key _ => (ofLex key).2 != id } := by
    intro removed created reservations staged known placements order sequence spaces provider others
    have kept : ∀ q placement, (removed.placements.retain fun _ placement =>
        placement.mapping != id).get? q = some placement ↔
        staging.placements.get? q = some placement ∧ placement.mapping ≠ id := by
      intro q placement
      rw [get?_eq_some, mem_retain, placements, ← get?_eq_some, bne_iff_ne]
    refine ⟨?_, fun other record found => sound.staged other record (staged other record found),
      known, ?_, ?_, ?_, fun other eq => sound.provided other (provider ▸ eq)⟩
    · intro other builder found
      rw [reservations]
      exact sound.created other builder (created other builder found)
    · intro space mapping q
      rw [get?_eq_some, mem_retain, order, ← get?_eq_some, sound.ordered, bne_iff_ne]
      constructor
      · intro ⟨⟨placement, found, inSpace, ofMapping⟩, ne⟩
        exact ⟨placement, (kept q placement).mpr ⟨found, ofMapping.trans_ne ne⟩, inSpace, ofMapping⟩
      · intro ⟨placement, found, inSpace, ofMapping⟩
        obtain ⟨found, ne⟩ := (kept q placement).mp found
        exact ⟨⟨placement, found, inSpace, ofMapping⟩, ofMapping.symm.trans_ne ne⟩
    · intro q placement found
      rw [sequence]
      exact sound.sequenced q placement ((kept q placement).mp found).1
    · intro q placement found
      obtain ⟨found, ne⟩ := (kept q placement).mp found
      obtain ⟨knownMapping, space⟩ := sound.placed q placement found
      refine ⟨others _ ne knownMapping, ?_⟩
      rw [spaces]
      exact space
  cases found : staging.createdMappings.get? id with
  | some builder =>
    rw [found] at forgets
    cases forgets
    refine retained { staging with createdMappings := staging.createdMappings.erase id }
      (fun other held otherFound => ?_) rfl (fun _ _ same => same) sound.removed rfl rfl rfl rfl
      rfl ?_
    · obtain ⟨mem, -⟩ := mem_erase.mp (get?_eq_some.mp otherFound)
      exact get?_eq_some.mpr mem
    · intro other ne known
      refine ⟨known.1, known.2.imp_left fun some_ => ?_⟩
      rwa [get?_erase_ne ne]
  | none =>
    rw [found] at forgets
    obtain ⟨record, recorded, forgets⟩ := bind_eq_ok.mp forgets
    cases forgets
    have committed := ((sound.stagedMapping id).1.mpr ⟨record, recorded⟩).2.resolve_left
      (by rw [found]; exact Bool.false_ne_true)
    refine retained { staging with
      stagedMappings := staging.stagedMappings.erase id
      removedMappings := staging.removedMappings.insert id } (fun _ _ same => same) rfl
      (fun other held otherFound => ?_) ?_ rfl rfl rfl rfl rfl ?_
    · obtain ⟨mem, -⟩ := mem_erase.mp (get?_eq_some.mp otherFound)
      exact get?_eq_some.mpr mem
    · intro other mem
      rcases List.mem_insert_iff.mp mem with rfl | old
      · exact committed
      · exact sound.removed other old
    · intro other ne known
      refine ⟨fun mem => ?_, known.2⟩
      rcases List.mem_insert_iff.mp mem with same | old
      · exact ne same
      · exact known.1 old

theorem Sound.apply (operation : Operation) :
    Sound storage (staging.apply storage operation) := by
  have after : ∀ {result : Except StagingError SegmentStorageStaging},
      (∀ next, result = .ok next → Sound storage next) → Sound storage (staging.after result) := by
    intro result holds
    cases result with
    | ok next => exact holds next rfl
    | error error => exact sound
  have afterFst : ∀ {α : Type} {result : Except StagingError (SegmentStorageStaging × α)},
      (∀ next, result = .ok next → Sound storage next.1) →
        Sound storage (staging.after (result.map Prod.fst)) := by
    intro α result holds
    cases result with
    | ok next => exact holds next rfl
    | error error => exact sound
  cases operation with
  | createMapping builder => exact afterFst fun _ call => sound.createMapping call
  | createSyntheticMapping start bytes properties =>
    exact sound.createSyntheticMapping start bytes properties
  | createSpaceWith name kind => exact afterFst fun _ call => sound.createSpaceWith call
  | createSpaceWithId id name kind => exact after fun _ call => sound.createSpaceWithId call
  | addMapping space mapping => exact after fun _ call => sound.addMapping call
  | addMappingWithPlacement placement =>
    exact after fun _ call => sound.addMappingWithPlacement call
  | removeMapping id => exact afterFst fun _ call => sound.removeMapping call
  | remapMapping id start => exact after fun _ call => sound.remapMapping call
  | resizeMapping id size => exact after fun _ call => sound.resizeMapping call
  | updateMappingMetadata id kind provenance flags =>
    exact after fun _ call => sound.updateMappingMetadata call
  | reprioritiseMapping placement => exact after fun _ call => sound.reprioritiseMapping call
  | stageWrites writes =>
    exact sound.extend sound.created sound.staged sound.provided rfl rfl rfl rfl
      (fun _ kept => kept) fun _ kept => kept

end

theorem run_sound (operations : List Operation) : Sound storage (run storage operations) := by
  have runs : ∀ (operations : List Operation) (staging : SegmentStorageStaging),
      Sound storage staging → Sound storage (operations.foldl (apply storage) staging) := by
    intro operations
    induction operations with
    | nil => exact fun _ sound => sound
    | cons operation operations ih =>
      intro staging sound
      exact ih _ (sound.apply operation)
  exact runs operations new new_sound

end Fugue.Storage.Segments.SegmentStorageStaging
