import Fugue.Storage.Segments.SpaceRevisions

/-!
# Revisions of a storage

Every operation that changes what the metadata of a storage is made of ends with `touch`, so that
the revision of the storage grows; an operation that is refused leaves the mappings, the spaces and
the set of providers as they were (`Grows`). The spaces keep what they show as long as their
revisions stay, and no space takes the place of another one, as the ids of new spaces come from a
counter that is above all of them (`Follows`). The loops over the spaces of a mapping change the
spaces before the revision (`Steps`), and they do not fail in a storage that is laid out.
-/

namespace Fugue.Storage.Segments

open Fugue.Lib Fugue.Ir IntervalMap AddressSpace
open OrdMap (get?_eq_some get?_insert_ne)

namespace SegmentStorage

variable {D S E Error : Type} [mapS : IntervalMap S SegmentSubMapping]
  [mapE : IntervalMap E SegmentMappingId] {storage storage' storage'' : SegmentStorage D S E}

structure Unchanged (storage storage' : SegmentStorage D S E) : Prop where
  revision : storage'.revision = storage.revision
  mappings : storage'.mappings = storage.mappings
  spaces : storage'.spaces = storage.spaces
  syntheticProvider : storage'.syntheticProvider = storage.syntheticProvider
  providers : ∀ id, (storage'.providers.get? id).isSome = (storage.providers.get? id).isSome

/-- The revision grows, or nothing of the metadata changes. -/
def Grows (storage storage' : SegmentStorage D S E) : Prop :=
  storage.revision < storage'.revision ∨ Unchanged storage storage'

/-- The ids of the spaces are below the counter. -/
def SpacesNumbered (storage : SegmentStorage D S E) : Prop :=
  ∀ id space, storage.spaces.get? id = some space → id < storage.spaceCtr

/-- No space goes away, and each shows the same as long as its revision stays. -/
def Follows (storage storage' : SegmentStorage D S E) : Prop :=
  SpacesNumbered storage → SpacesNumbered storage' ∧
    ∀ id space, storage.spaces.get? id = some space →
      ∃ space', storage'.spaces.get? id = some space' ∧ space.Evolves space'

/-- The spaces change and the revision does not yet. -/
structure Steps (storage storage' : SegmentStorage D S E) : Prop where
  follows : Follows storage storage'
  revision : storage'.revision = storage.revision

/-- What an operation does to the spaces and to the revision. -/
structure Advances (storage storage' : SegmentStorage D S E) : Prop where
  follows : Follows storage storage'
  grows : Grows storage storage'

section Rules

omit mapS mapE

theorem Grows.refl (storage : SegmentStorage D S E) : Grows storage storage :=
  .inr ⟨rfl, rfl, rfl, rfl, fun _ => rfl⟩

theorem Grows.le (grows : Grows storage storage') : storage.revision ≤ storage'.revision :=
  grows.elim le_of_lt fun same => same.revision.ge

theorem Grows.trans (first : Grows storage storage') (second : Grows storage' storage'') :
    Grows storage storage'' := by
  rcases first with lt | same
  · exact .inl (lt.trans_le second.le)
  · rcases second with lt | same'
    · exact .inl (same.revision ▸ lt)
    · exact .inr ⟨same'.revision.trans same.revision, same'.mappings.trans same.mappings,
        same'.spaces.trans same.spaces, same'.syntheticProvider.trans same.syntheticProvider,
        fun id => (same'.providers id).trans (same.providers id)⟩

theorem Follows.refl (storage : SegmentStorage D S E) : Follows storage storage :=
  fun numbered => ⟨numbered, fun _ space found => ⟨space, found, .refl space⟩⟩

theorem Follows.trans (first : Follows storage storage') (second : Follows storage' storage'') :
    Follows storage storage'' := by
  intro numbered
  obtain ⟨numbered', evolves⟩ := first numbered
  obtain ⟨numbered'', evolves'⟩ := second numbered'
  refine ⟨numbered'', fun id space found => ?_⟩
  obtain ⟨space', found', step⟩ := evolves id space found
  obtain ⟨space'', found'', step'⟩ := evolves' id space' found'
  exact ⟨space'', found'', step.trans step'⟩

theorem follows_same (spaces : storage'.spaces = storage.spaces)
    (counter : storage'.spaceCtr = storage.spaceCtr) : Follows storage storage' := by
  intro numbered
  refine ⟨?_, fun id space found => ⟨space, ?_, .refl space⟩⟩
  · intro id space found
    rw [spaces] at found
    rw [counter]
    exact numbered id space found
  · rw [spaces]
    exact found

theorem follows_insert {id : AddressSpaceId} {space space' : AddressSpace S E}
    (found : storage.spaces.get? id = some space) (evolves : space.Evolves space')
    (spaces : storage'.spaces = storage.spaces.insert id space')
    (counter : storage'.spaceCtr = storage.spaceCtr) : Follows storage storage' := by
  intro numbered
  constructor
  · intro other held otherFound
    rw [counter]
    by_cases same : other = id
    · rw [same]
      exact numbered id space found
    · rw [spaces, get?_insert_ne same] at otherFound
      exact numbered other held otherFound
  · intro other held otherFound
    by_cases same : other = id
    · subst same
      cases found.symm.trans otherFound
      exact ⟨space', by rw [spaces, OrdMap.get?_insert_self], evolves⟩
    · exact ⟨held, by rw [spaces, get?_insert_ne same, otherFound], .refl held⟩

theorem follows_new {id : AddressSpaceId} {space : AddressSpace S E}
    (fresh : SpacesNumbered storage → storage.spaces.get? id = none)
    (spaces : storage'.spaces = storage.spaces.insert id space)
    (counter : storage.spaceCtr ≤ storage'.spaceCtr ∧ id < storage'.spaceCtr) :
    Follows storage storage' := by
  intro numbered
  constructor
  · intro other held otherFound
    by_cases same : other = id
    · rw [same]
      exact counter.2
    · rw [spaces, get?_insert_ne same] at otherFound
      exact (numbered other held otherFound).trans_le counter.1
  · intro other held otherFound
    have ne : other ≠ id := by
      intro same
      rw [same, fresh numbered] at otherFound
      cases otherFound
    exact ⟨held, by rw [spaces, get?_insert_ne ne, otherFound], .refl held⟩

theorem Steps.refl (storage : SegmentStorage D S E) : Steps storage storage := ⟨.refl storage, rfl⟩

theorem Steps.trans (first : Steps storage storage') (second : Steps storage' storage'') :
    Steps storage storage'' :=
  ⟨first.follows.trans second.follows, second.revision.trans first.revision⟩

theorem Advances.refl (storage : SegmentStorage D S E) : Advances storage storage :=
  ⟨.refl storage, .refl storage⟩

theorem Advances.trans (first : Advances storage storage') (second : Advances storage' storage'') :
    Advances storage storage'' :=
  ⟨first.follows.trans second.follows, first.grows.trans second.grows⟩

theorem steps_same (spaces : storage'.spaces = storage.spaces)
    (counter : storage'.spaceCtr = storage.spaceCtr)
    (revision : storage'.revision = storage.revision) : Steps storage storage' :=
  ⟨follows_same spaces counter, revision⟩

theorem touch_raises (steps : Steps storage storage') :
    Leaves (fun touched => Follows storage touched ∧ storage.revision < touched.revision)
      storage'.touch := by
  refine (returns_nextRevision _).leaves.bind fun revision next => ?_
  rw [steps.revision] at next
  exact leaves_ok ⟨steps.follows.trans (follows_same rfl rfl), next ▸ Nat.lt_succ_self _⟩

theorem touched_raises {α : Type} (result : α) (steps : Steps storage storage') :
    Leaves (fun out => Follows storage out.1 ∧ storage.revision < out.1.revision)
      (storage'.touched result : Except Panic (Outcome D S E Error α)) :=
  (touch_raises steps).bind fun _ raised => leaves_ok raised

theorem touched_advances {α : Type} (result : α) (steps : Steps storage storage') :
    Leaves (fun out => Advances storage out.1)
      (storage'.touched result : Except Panic (Outcome D S E Error α)) :=
  (touched_raises result steps).mono fun _ raised => ⟨raised.1, .inl raised.2⟩

theorem refuse_advances {α : Type} (error : LayoutError Error) :
    Leaves (fun out => Advances storage out.1)
      (storage.refuse error : Except Panic (Outcome D S E Error α)) :=
  leaves_ok (.refl storage)

theorem leaves_andThen {α β : Type} {outcome : Except Panic (Outcome D S E Error α)}
    {next : SegmentStorage D S E → α → Except Panic (Outcome D S E Error β)}
    {post : Outcome D S E Error α → Prop} {post' : Outcome D S E Error β → Prop}
    (leaves : Leaves post outcome)
    (ok : ∀ storage result, post (storage, .ok result) → Leaves post' (next storage result))
    (error : ∀ storage reason, post (storage, .error reason) → post' (storage, .error reason)) :
    Leaves post' (andThen outcome next) := by
  refine leaves.bind ?_
  rintro ⟨storage, result⟩ holds
  cases result with
  | ok result => exact ok storage result holds
  | error reason => exact leaves_ok (error storage reason holds)

theorem leaves_forIds {body : SegmentStorage D S E → ℕ → Except Panic (Outcome D S E Error Unit)}
    (inv : SegmentStorage D S E → Prop)
    (round : ∀ id storage, inv storage → Leaves (fun out => inv out.1) (body storage id)) :
    ∀ ids storage, inv storage → Leaves (fun out => inv out.1) (forIds body ids storage) := by
  intro ids
  induction ids with
  | nil => exact fun storage holds => leaves_ok holds
  | cons id rest ih =>
    intro storage holds
    exact leaves_andThen (round id storage holds) (fun storage _ holds => ih storage holds)
      fun _ _ holds => holds

end Rules

/-! ## The loops over the spaces of a mapping -/

theorem rebuildSubmapsInRange_steps (spaceId : AddressSpaceId) (range : AddressRange) :
    Leaves (fun out => Steps storage out.1)
      (storage.rebuildSubmapsInRange spaceId range : Except Panic (Outcome D S E Error Unit)) := by
  unfold rebuildSubmapsInRange
  split
  · exact leaves_ok (.refl storage)
  · rename_i space found
    refine leaves_bind_any fun refs => ?_
    refine (rebuildRange_evolves _ _).bind fun rebuilt evolves => ?_
    exact leaves_ok ⟨follows_insert found evolves rfl rfl, rfl⟩

theorem updateMappingInSpace_steps (mappingRef : SegmentMappingRef)
    (oldRange newRange : AddressRange) (spaceId : AddressSpaceId) :
    Leaves (fun out => Steps storage out.1)
      (storage.updateMappingInSpace mappingRef oldRange newRange spaceId :
        Except Panic (Outcome D S E Error Unit)) := by
  unfold updateMappingInSpace
  split
  · exact leaves_ok (.refl storage)
  · rename_i space found
    refine (updateMappingRef_evolves _ _).bind fun updated evolves => ?_
    have start : Steps storage { storage with spaces := storage.spaces.insert spaceId updated } :=
      ⟨follows_insert found evolves rfl rfl, rfl⟩
    have rebuilt : Leaves (fun out => Steps storage out.1)
        (rebuildSubmapsInRange _ spaceId oldRange : Except Panic (Outcome D S E Error Unit)) :=
      (rebuildSubmapsInRange_steps spaceId oldRange).mono fun _ again => start.trans again
    refine leaves_andThen rebuilt ?_ fun _ _ steps => steps
    intro after _ steps
    split
    · exact (rebuildSubmapsInRange_steps _ _).mono fun _ again => steps.trans again
    · exact leaves_ok steps

theorem removeMappingFromSpace_steps (mappingId : SegmentMappingId) (range : AddressRange)
    (spaceId : AddressSpaceId) :
    Leaves (fun out => Steps storage out.1)
      (storage.removeMappingFromSpace mappingId range spaceId :
        Except Panic (Outcome D S E Error Unit)) := by
  unfold removeMappingFromSpace
  split
  · exact leaves_ok (.refl storage)
  · rename_i space found
    refine (removeMappingRef_evolves _).bind fun removed evolves => ?_
    cases removed with
    | none => exact leaves_ok (.refl storage)
    | some removed =>
      have steps : Steps storage { storage with spaces := storage.spaces.insert spaceId removed } :=
        ⟨follows_insert found (evolves removed rfl) rfl rfl, rfl⟩
      exact (rebuildSubmapsInRange_steps _ _).mono fun _ again => steps.trans again

omit mapS mapE in
/-- A call that is not refused, and that raises the revision when it is not. -/
theorem advances_of_ok {outcome : Except Panic (Outcome D S E Error Unit)}
    (raises : Leaves (fun out => Follows storage out.1 ∧
      (out.2 = .ok () → storage.revision < out.1.revision)) outcome)
    (accepted : Leaves (fun out => out.2 = .ok ()) outcome) :
    Leaves (fun out => Advances storage out.1) outcome := fun out returns =>
  ⟨(raises out returns).1, .inl ((raises out returns).2 (accepted out returns))⟩

theorem updateMapping_advances (laidOut : LaidOut storage) {old new : SegmentMapping}
    (sameId : new.id = old.id) (found : storage.mappings.get? old.id = some old) :
    Leaves (fun out => Advances storage out.1)
      (storage.updateMapping old new : Except Panic (Outcome D S E Error Unit)) := by
  refine advances_of_ok ?_
    ((updateMapping_spec laidOut sameId found).leaves.mono fun _ spec => spec.1)
  unfold updateMapping
  refine leaves_andThen (leaves_forIds (Steps storage) (fun id after steps => ?_) _ _
    (steps_same rfl rfl rfl)) ?_ fun _ _ steps => ⟨steps.follows, nofun⟩
  · exact (updateMappingInSpace_steps _ _ _ id).mono fun _ again => steps.trans again
  · intro after _ steps
    exact (touched_raises () steps).mono fun _ raised => ⟨raised.1, fun _ => raised.2⟩

theorem removeMapping_advances (laidOut : LaidOut storage) (id : SegmentMappingId) :
    Leaves (fun out => Advances storage out.1)
      (storage.removeMapping id : Except Panic (Outcome D S E Error Unit)) := by
  cases found : storage.mappings.get? id with
  | none =>
    unfold removeMapping
    rw [found]
    exact refuse_advances _
  | some mapping =>
    obtain ⟨rfl, -⟩ := laidOut.mappings id mapping (get?_eq_some.mp found)
    refine advances_of_ok ?_ ((removeMapping_spec laidOut found).leaves.mono fun _ spec => spec.1)
    unfold removeMapping
    rw [found]
    refine leaves_andThen (leaves_forIds (Steps storage) (fun id after steps => ?_) _ _
      (.refl storage)) ?_ fun _ _ steps => ⟨steps.follows, nofun⟩
    · exact (removeMappingFromSpace_steps _ _ id).mono fun _ again => steps.trans again
    · intro after _ steps
      refine leaves_bind_any fun _ => ?_
      have steps' : Steps storage { after with mappings := after.mappings.erase mapping.id } :=
        steps.trans (steps_same rfl rfl rfl)
      exact (touched_raises () steps').mono fun _ raised => ⟨raised.1, fun _ => raised.2⟩

/-! ## The operations -/

theorem deprioritiseMapping_advances (spaceId : AddressSpaceId) (mappingId : SegmentMappingId) :
    Leaves (fun out => Advances storage out.1) (storage.deprioritiseMapping spaceId mappingId :
        Except Panic (Outcome D S E Error Unit)) := by
  unfold deprioritiseMapping
  split
  · exact refuse_advances _
  · split
    · exact refuse_advances _
    · rename_i space found
      split
      · refine (deprioritise_evolves _).bind fun lowered step => ?_
        have steps : Steps storage
            { storage with spaces := storage.spaces.insert spaceId lowered } :=
          ⟨follows_insert found step rfl rfl, rfl⟩
        refine (touch_raises steps).bind fun touched raised => ?_
        refine (rebuildSubmapsInRange_steps _ _).mono fun _ again => ?_
        exact ⟨raised.1.trans again.follows, .inl (again.revision ▸ raised.2)⟩
      · exact refuse_advances _

omit mapS mapE in
theorem setProvider_advances {id : SegmentStorageProviderId} {provider : D}
    (found : storage.providers.get? id = some provider) (provider' : D) :
    Advances storage { storage with providers := storage.providers.insert id provider' } := by
  refine ⟨follows_same rfl rfl, .inr ⟨rfl, rfl, rfl, rfl, fun other => ?_⟩⟩
  by_cases same : other = id
  · subst same
    rw [OrdMap.get?_insert_self, found]
    rfl
  · rw [get?_insert_ne same]

/-- What an operation leaves: the storage is laid out, and it has advanced. -/
structure Proceeds (storage storage' : SegmentStorage D S E) : Prop where
  laidOut : LaidOut storage'
  advances : Advances storage storage'

theorem Proceeds.refl (laidOut : LaidOut storage) : Proceeds storage storage :=
  ⟨laidOut, .refl storage⟩

theorem Proceeds.trans (first : Proceeds storage storage') (second : Proceeds storage' storage'') :
    Proceeds storage storage'' :=
  ⟨second.laidOut, first.advances.trans second.advances⟩

theorem proceeds_of {α : Type} {outcome : Except Panic (Outcome D S E Error α)}
    (laidOut : Returns (fun out => LaidOut out.1) outcome)
    (advances : Leaves (fun out => Advances storage out.1) outcome) :
    Returns (fun out => Proceeds storage out.1) outcome :=
  (laidOut.and_leaves advances).mono fun _ both => ⟨both.1, both.2⟩

theorem touched_proceeds {α : Type} {result : α} (steps : Steps storage storage')
    (laidOut : ∀ revision, LaidOut { storage' with revision := revision }) :
    Returns (fun out => Proceeds storage out.1)
      (storage'.touched result : Except Panic (Outcome D S E Error α)) :=
  proceeds_of (returns_touched laidOut) (touched_advances result steps)

/-- The operations one after the other, each in a storage that is laid out. -/
theorem andThen_proceeds {α β : Type} {outcome : Except Panic (Outcome D S E Error α)}
    {next : SegmentStorage D S E → α → Except Panic (Outcome D S E Error β)}
    (first : Returns (fun out => Proceeds storage out.1) outcome)
    (second : ∀ storage' result, LaidOut storage' →
      Returns (fun out => Proceeds storage' out.1) (next storage' result)) :
    Returns (fun out => Proceeds storage out.1) (andThen outcome next) := by
  refine returns_andThen first ?_ fun _ _ proceeds => proceeds
  intro storage' result proceeds
  exact (second storage' result proceeds.laidOut).mono fun _ after => proceeds.trans after

section

variable (laidOut : LaidOut storage)
include laidOut

theorem updateMapping_proceeds {old new : SegmentMapping}
    (sameId : new.id = old.id) (found : storage.mappings.get? old.id = some old) :
    Returns (fun out => Proceeds storage out.1)
      (storage.updateMapping old new : Except Panic (Outcome D S E Error Unit)) :=
  proceeds_of ((updateMapping_spec laidOut sameId found).mono fun _ after => after.2)
    (updateMapping_advances laidOut sameId found)

variable (id : SegmentMappingId)

theorem removeMapping_proceeds :
    Returns (fun out => Proceeds storage out.1)
      (storage.removeMapping id : Except Panic (Outcome D S E Error Unit)) :=
  proceeds_of (removeMapping_laidOut laidOut id) (removeMapping_advances laidOut id)

theorem createMappingFromBuilder_proceeds
    (builder : SegmentMappingBuilder) : Returns (fun out => Proceeds storage out.1)
      (storage.createMappingFromBuilder builder :
        Except Panic (Outcome D S E Error SegmentMappingId)) := by
  unfold createMappingFromBuilder
  split
  · exact .refl laidOut
  · apply (returns_newId _).bind
    rintro _ rfl
    split
    · exact .refl laidOut
    · rename_i mapping made
      have idEq := fromBuilder_id made
      rw [← idEq]
      exact touched_proceeds (steps_same rfl rfl rfl) fun revision => laidOut.insertMapping
        (laidOut.fresh (by rw [idEq])) (by rw [idEq]; exact Nat.le_succ _) (Nat.lt_succ_self _)
        revision

theorem createMapping_proceeds (providerId : SegmentStorageProviderId)
    (start : Address) (size offset : UInt64) (properties : SegmentProperties) :
    Returns (fun out => Proceeds storage out.1)
      (storage.createMapping providerId start size offset properties :
        Except Panic (Outcome D S E Error SegmentMappingId)) := by
  unfold createMapping
  split
  · exact .refl laidOut
  · split
    · exact .refl laidOut
    · apply (returns_newId _).bind
      rintro _ rfl
      split
      -- only the counter has changed
      · exact ⟨laidOut.congr rfl rfl (Nat.le_succ _), follows_same rfl rfl,
          .inr ⟨rfl, rfl, rfl, rfl, fun _ => rfl⟩⟩
      · rename_i mapping made
        have idEq := fromBuilder_id made
        rw [← idEq]
        exact touched_proceeds (steps_same rfl rfl rfl) fun revision => laidOut.insertMapping
          (laidOut.fresh (by rw [idEq])) (by rw [idEq]; exact Nat.le_succ _) (Nat.lt_succ_self _)
          revision

theorem createMappingWithId_proceeds
    (builder : SegmentMappingBuilder) : Returns (fun out => Proceeds storage out.1)
      (storage.createMappingWithId id builder : Except Panic (Outcome D S E Error Unit)) := by
  unfold createMappingWithId
  split
  · exact .refl laidOut
  · split
    · exact .refl laidOut
    · rename_i absent
      split
      · exact .refl laidOut
      · rename_i mapping made
        obtain rfl := fromBuilder_id made
        exact touched_proceeds (steps_same rfl rfl rfl) fun revision =>
          laidOut.insertMapping (by simpa using absent) (le_max_left _ _)
            (lt_of_lt_of_le (Nat.lt_succ_self _) (le_max_right _ _)) revision

theorem remapMapping_proceeds (newStart : Address) : Returns (fun out => Proceeds storage out.1)
      (storage.remapMapping id newStart : Except Panic (Outcome D S E Error Unit)) := by
  unfold remapMapping
  split
  · exact .refl laidOut
  · rename_i mapping found
    obtain ⟨rfl, -⟩ := laidOut.mappings _ _ (get?_eq_some.mp found)
    refine setStart_id.bind fun moved sameId => ?_
    cases moved with
    | none => exact .refl laidOut
    | some new => exact updateMapping_proceeds laidOut (sameId new rfl) found

theorem resizeMapping_proceeds (newSize : UInt64) : Returns (fun out => Proceeds storage out.1)
      (storage.resizeMapping id newSize : Except Panic (Outcome D S E Error Unit)) := by
  unfold resizeMapping
  split
  · exact .refl laidOut
  · rename_i mapping found
    obtain ⟨rfl, -⟩ := laidOut.mappings _ _ (get?_eq_some.mp found)
    refine setSize_id.bind fun resized sameId => ?_
    cases resized with
    | none => exact .refl laidOut
    | some new => exact updateMapping_proceeds laidOut (sameId new rfl) found

theorem updateMappingMetadata_proceeds
    (kind : SegmentMappingKind) (provenance : SegmentMappingProvenance) (flags : UInt32) :
    Returns (fun out => Proceeds storage out.1)
      (storage.updateMappingMetadata id kind provenance flags :
        Except Panic (Outcome D S E Error Unit)) := by
  unfold updateMappingMetadata
  split
  · exact .refl laidOut
  · rename_i mapping found
    obtain ⟨rfl, -⟩ := laidOut.mappings _ _ (get?_eq_some.mp found)
    have sameId : Returns (fun new => new.id = mapping.id)
        (mapping.updateMetadata kind provenance flags) :=
      (returns_nextRevision _).bind fun _ _ => rfl
    exact sameId.bind fun new same => updateMapping_proceeds laidOut same found

theorem closeProvider_proceeds (id : SegmentStorageProviderId) :
    Returns (fun out => Proceeds storage out.1)
      (storage.closeProvider id : Except Panic (Outcome D S E Error Unit)) := by
  refine andThen_proceeds (returns_forIds_keeps (Proceeds storage) (fun mapping after proceeds =>
    (removeMapping_proceeds proceeds.laidOut mapping).mono fun _ again => proceeds.trans again)
    _ _ (.refl laidOut)) ?_
  intro after _ laidOut
  split
  · exact .refl laidOut
  · exact touched_proceeds (steps_same rfl rfl rfl) fun revision => laidOut.congr rfl rfl le_rfl

theorem insertSpace_proceeds (kind : AddressSpaceKind)
    (name : Option String) : Returns (fun out => Proceeds storage out.1)
      (storage.insertSpace kind name : Except Panic (Outcome D S E Error AddressSpaceId)) := by
  unfold insertSpace
  split
  · refine touched_proceeds ⟨follows_new (fun numbered => ?_) rfl
      ⟨Nat.le_succ _, Nat.lt_succ_self _⟩, rfl⟩ fun revision =>
        laidOut.insertSpace _ kind name _ revision
    cases found : storage.spaces.get? storage.spaceCtr with
    | none => rfl
    | some space => exact absurd (numbered _ _ found) (lt_irrefl _)
  · exact .refl laidOut

theorem createSpaceWith_proceeds (name : String)
    (kind : AddressSpaceKind) : Returns (fun out => Proceeds storage out.1)
      (storage.createSpaceWith name kind : Except Panic (Outcome D S E Error AddressSpaceId)) := by
  unfold createSpaceWith
  split
  · exact .refl laidOut
  · split
    · exact insertSpace_proceeds laidOut _ _
    · split
      · exact .refl laidOut
      · split
        · exact .refl laidOut
        · exact insertSpace_proceeds laidOut _ _

theorem createSpaceWithId_proceeds (id : AddressSpaceId)
    (name : Option String) (kind : AddressSpaceKind) : Returns (fun out => Proceeds storage out.1)
      (storage.createSpaceWithId id name kind : Except Panic (Outcome D S E Error Unit)) := by
  unfold createSpaceWithId
  split
  · exact .refl laidOut
  · rename_i free
    refine touched_proceeds ⟨follows_new (fun _ => ?_) rfl ⟨le_max_left _ _,
      lt_of_lt_of_le (Nat.lt_succ_self id) (le_max_right _ _)⟩, rfl⟩ fun revision =>
        laidOut.insertSpace _ kind name _ revision
    exact Option.not_isSome_iff_eq_none.mp free

theorem placeSpace_proceeds {spaceId : AddressSpaceId}
    {space : AddressSpace S E} (found : storage.spaces.get? spaceId = some space)
    {placing : Except Panic (AddressSpace S E)}
    (laid : Returns (fun placed => Laid storage.mappings.get? placed ∧ placed.id = space.id)
      placing) (evolves : Leaves space.Evolves placing) :
    Returns (fun out => Proceeds storage out.1) (placing >>= fun placed => touched
        { storage with spaces := storage.spaces.insert spaceId placed } () :
        Except Panic (Outcome D S E Error Unit)) := by
  apply (laid.and_leaves evolves).bind
  rintro placed ⟨⟨placedLaid, idEq⟩, step⟩
  exact touched_proceeds ⟨follows_insert found step rfl rfl, rfl⟩ fun revision =>
    laidOut.placeSpace (get?_eq_some.mp found) placedLaid idEq revision

variable (spaceId : AddressSpaceId) (mappingId : SegmentMappingId)

theorem addMappingToSpaceAt_proceeds (priority : SpacePriority) :
    Returns (fun out => Proceeds storage out.1)
      (storage.addMappingToSpaceAt spaceId mappingId priority :
        Except Panic (Outcome D S E Error Unit)) := by
  unfold addMappingToSpaceAt
  split
  · exact .refl laidOut
  · rename_i mapping found
    split
    · exact .refl laidOut
    · rename_i space inSpaces
      obtain ⟨rfl, -⟩ := laidOut.mappings _ _ (get?_eq_some.mp found)
      have laid := (laidOut.spaces _ _ (get?_eq_some.mp inSpaces)).2
      split
      · exact .refl laidOut
      · rename_i absent
        cases priority with
        | top =>
          exact placeSpace_proceeds laidOut inSpaces (addMappingTop_laid laid found)
            (addMappingTop_evolves _ _ _ _)
        | bottom =>
          exact placeSpace_proceeds laidOut inSpaces
            (addMappingBottom_laid laid found fun placement placed =>
              absent (containsMapping_iff.mpr ⟨placement, placed⟩))
            (addMappingBottom_evolves _ _ _ _)

theorem addMappingToSpace_proceeds : Returns (fun out => Proceeds storage out.1)
      (storage.addMappingToSpace spaceId mappingId : Except Panic (Outcome D S E Error Unit)) := by
  unfold addMappingToSpace
  split
  · exact .refl laidOut
  · split <;> exact addMappingToSpaceAt_proceeds laidOut _ _ _

theorem prioritiseMapping_proceeds : Returns (fun out => Proceeds storage out.1)
      (storage.prioritiseMapping spaceId mappingId : Except Panic (Outcome D S E Error Unit)) := by
  unfold prioritiseMapping
  split
  · exact .refl laidOut
  · rename_i mapping found
    split
    · exact .refl laidOut
    · rename_i space inSpaces
      obtain ⟨rfl, -⟩ := laidOut.mappings _ _ (get?_eq_some.mp found)
      split
      · exact placeSpace_proceeds laidOut inSpaces
          (addMappingTop_laid (laidOut.spaces _ _ (get?_eq_some.mp inSpaces)).2 found)
          (addMappingTop_evolves _ _ _ _)
      · exact .refl laidOut

end

section Synthetic

variable [SyntheticProvider D Error]

theorem openSyntheticProvider_proceeds (laidOut : LaidOut storage) (id : SegmentStorageProviderId)
    (size : ℕ) : Returns (fun out => Proceeds storage out.1)
      (storage.openSyntheticProvider id size : Except Panic (Outcome D S E Error Unit)) := by
  unfold openSyntheticProvider
  split
  · rename_i descriptor found
    split
    · exact ⟨laidOut.congr rfl rfl le_rfl, setProvider_advances found _⟩
    · exact .refl laidOut
  · split
    · exact .refl laidOut
    · dsimp only
      split
      · exact .refl laidOut
      · rename_i provider made
        have steps : Steps storage { storage with
            providerCtr := max storage.providerCtr (id + 1)
            providers := storage.providers.insert id provider } :=
          steps_same rfl rfl rfl
        apply ((returns_storageTouch _).and_leaves (touch_raises steps)).bind
        rintro _ ⟨⟨revision, rfl⟩, raised⟩
        exact ⟨laidOut.congr rfl rfl le_rfl, raised.1.trans (follows_same rfl rfl), .inl raised.2⟩

theorem createSyntheticMapping_proceeds (laidOut : LaidOut storage) (start : Address)
    (bytes : List UInt8) (properties : SegmentProperties) :
    Returns (fun out => Proceeds storage out.1)
      (storage.createSyntheticMapping start bytes properties :
        Except Panic (Outcome D S E Error SegmentMappingId)) := by
  unfold createSyntheticMapping
  split
  · exact .refl laidOut
  · split
    · exact .refl laidOut
    · dsimp only
      split
      · exact .refl laidOut
      · apply andThen_proceeds (openSyntheticProvider_proceeds laidOut _ _)
        intro _ _ laidOut
        apply andThen_proceeds (by
          unfold writeBytesDirect
          split
          · exact .refl laidOut
          · rename_i descriptor found
            exact ⟨laidOut.congr rfl rfl le_rfl, setProvider_advances found _⟩)
        intro _ _ laidOut
        apply andThen_proceeds (createMappingFromBuilder_proceeds laidOut _)
        intro _ _ laidOut
        exact andThen_proceeds (addMappingToSpace_proceeds laidOut _ _) fun _ _ laidOut =>
          .refl laidOut

/-- One operation keeps the layout, it keeps what the spaces show or raises their revisions, and it
raises the revision of the storage or leaves the metadata as it is. -/
theorem apply_proceeds (laidOut : LaidOut storage) (operation : Operation D) :
    Returns (Proceeds storage) (storage.apply Error operation) := by
  have leaves : ∀ {α : Type} {outcome : Except Panic (Outcome D S E Error α)},
      Returns (fun out => Proceeds storage out.1) outcome →
        Returns (Proceeds storage) (left Error outcome) :=
    fun returns => returns.bind fun _ after => after
  cases operation with
  | openProvider provider =>
    refine leaves ((returns_newId _).bind ?_)
    rintro _ rfl
    exact touched_proceeds (steps_same rfl rfl rfl) fun revision => laidOut.congr rfl rfl le_rfl
  | closeProvider id => exact leaves (closeProvider_proceeds laidOut id)
  | createMapping provider start size offset properties =>
    exact leaves (createMapping_proceeds laidOut provider start size offset properties)
  | createMappingFromBuilder builder =>
    exact leaves (createMappingFromBuilder_proceeds laidOut builder)
  | createMappingWithId id builder =>
    exact leaves (createMappingWithId_proceeds laidOut id builder)
  | createSyntheticMapping start bytes properties =>
    exact leaves (createSyntheticMapping_proceeds laidOut start bytes properties)
  | removeMapping id => exact leaves (removeMapping_proceeds laidOut id)
  | remapMapping id newStart => exact leaves (remapMapping_proceeds laidOut id newStart)
  | resizeMapping id newSize => exact leaves (resizeMapping_proceeds laidOut id newSize)
  | updateMappingMetadata id kind provenance flags =>
    exact leaves (updateMappingMetadata_proceeds laidOut id kind provenance flags)
  | createSpace => exact leaves (insertSpace_proceeds laidOut .base none)
  | createSpaceWith name kind => exact leaves (createSpaceWith_proceeds laidOut name kind)
  | createSpaceWithId id name kind =>
    exact leaves (createSpaceWithId_proceeds laidOut id name kind)
  | addMappingToSpace space mapping =>
    exact leaves (addMappingToSpace_proceeds laidOut space mapping)
  | addMappingToSpaceAt space mapping priority =>
    exact leaves (addMappingToSpaceAt_proceeds laidOut space mapping priority)
  | prioritiseMapping space mapping =>
    exact leaves (prioritiseMapping_proceeds laidOut space mapping)
  | deprioritiseMapping space mapping =>
    exact leaves (proceeds_of (deprioritiseMapping_laidOut laidOut space mapping)
      (deprioritiseMapping_advances space mapping))

/-- Every run of operations keeps the layout. -/
theorem foldlM_apply_laidOut : ∀ (operations : List (Operation D)) (storage : SegmentStorage D S E),
    LaidOut storage → Returns LaidOut (operations.foldlM (apply Error) storage) := by
  intro operations
  induction operations with
  | nil => exact fun _ laidOut => laidOut
  | cons operation operations ih =>
    intro storage laidOut
    exact (apply_proceeds laidOut operation).bind fun after proceeds => ih after proceeds.laidOut

end Synthetic

theorem empty_numbered : SpacesNumbered (empty : SegmentStorage D S E) := by
  intro id space found
  obtain ⟨rfl, rfl⟩ := Prod.mk.inj (List.mem_singleton.mp (get?_eq_some.mp found))
  exact Nat.one_pos

end SegmentStorage

end Fugue.Storage.Segments
