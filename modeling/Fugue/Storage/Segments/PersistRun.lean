import Fugue.Storage.Segments.ReloadSpec

/-!
# Persisting and reloading, in every run

A storage with a project path goes through mutations, persists and reloads, in any order. What it was
when it was last persisted is kept beside it, so that a persist that is skipped can be compared with
it. A storage that was loaded has its file written with the old mapping ids: the file then describes
the storage up to the new ids (`Describes`).
-/

namespace Fugue.Storage.Segments

open Fugue.Lib Fugue.Ir IntervalMap SegmentStorage List Option ProjectStorage AddressSpaceMetadata
open OrdMap (get?_eq_some)

variable {D S E Error : Type} [mapS : IntervalMap S SegmentSubMapping]
  [mapE : IntervalMap E SegmentMappingId]

/-! ## Layouts that are alike -/

namespace Alike

variable {project project' project'' : ProjectStorage D S E}
  {renumber renumber' : SegmentMappingId → SegmentMappingId}

omit mapS mapE in
theorem space (alike : Alike renumber project project') {id : AddressSpaceId}
    {space : AddressSpace S E} (found : project.storage.spaces.get? id = some space) :
    ∃ space', project'.storage.spaces.get? id = some space' ∧ space'.id = space.id ∧
      space'.kind = space.kind ∧ space'.name = space.name ∧
      space'.priorityList = space.priorityList.map renumber := by
  have same := alike.spaces id
  rw [found, map_some] at same
  obtain ⟨space', found', same⟩ := map_eq_some_iff.mp same
  exact ⟨space', found', congrArg AddressSpaceMetadata.id same,
    congrArg kind same, congrArg name same,
    congrArg mappingIds same⟩

omit mapS mapE in
theorem space_isSome (alike : Alike renumber project project') (id : AddressSpaceId) :
    (project'.storage.spaces.get? id).isSome = (project.storage.spaces.get? id).isSome :=
  map_isSome (alike.spaces id)

theorem bytes {contents : D → ℕ → Option UInt8} (alike : Alike renumber project project')
    (laidOut : LaidOut project.storage) (laidOut' : LaidOut project'.storage)
    (providers : ∀ id, (project'.storage.providers.get? id).map contents =
      (project.storage.providers.get? id).map contents) (id : AddressSpaceId) (address : ℕ) :
    project'.storage.readByte contents project'.fillByte id address =
      project.storage.readByte contents project.fillByte id address := by
  rw [alike.fillByte]
  cases found : project.storage.spaces.get? id with
  | none =>
    have none' : project'.storage.spaces.get? id = none := by
      rw [← not_isSome_iff_eq_none, alike.space_isSome, found]
      exact nofun
    unfold readByte
    rw [found, none']
    rfl
  | some old =>
    obtain ⟨new, found', -, -, -, list⟩ := alike.space found
    have laid := (laidOut.spaces id old (get?_eq_some.mp found)).2
    have laid' := (laidOut'.spaces id new (get?_eq_some.mp found')).2
    exact readByte_reloaded found laid found' laid' list alike.mappings providers _ address

omit mapS mapE in
theorem refl (project : ProjectStorage D S E) : Alike id project project := by
  refine ⟨rfl, fun id => ?_, strictMonoOn_id, fun id mapping found => ?_,
    fun id there => ⟨id, there, rfl⟩⟩
  · simp only [List.map_id]
    rfl
  · exact ⟨mapping, found, ⟨rfl, rfl, rfl, rfl, rfl, rfl, rfl, rfl⟩⟩

theorem compose (laidOut : LaidOut project.storage) (first : Alike renumber project project')
    (second : Alike renumber' project project'') :
    ∃ renumber'', Alike renumber'' project' project'' := by
  classical
  let known := {id | (project.storage.mappings.get? id).isSome}
  let back := fun id' => renumber' (Function.invFunOn renumber known id')
  have eq : ∀ id ∈ known, back (renumber id) = renumber' id := fun id there =>
    congrArg renumber' (first.increasing.injOn.leftInvOn_invFunOn there)
  refine ⟨back, ⟨second.fillByte.trans first.fillByte.symm, fun id => ?_, ?_, fun id' mapping' found'
    => ?_, fun id'' there => ?_⟩⟩
  · cases found : project.storage.spaces.get? id with
    | none =>
      have absent := first.spaces id
      have absent' := second.spaces id
      rw [found, map_none, map_eq_none_iff] at absent absent'
      rw [absent, absent']
      rfl
    | some space =>
      obtain ⟨space', found', isId, kind, name, list⟩ := first.space found
      obtain ⟨space'', found'', isId', kind', name', list'⟩ := second.space found
      have laid := (laidOut.spaces id space (get?_eq_some.mp found)).2
      have lists : space.priorityList.map renumber' =
          (space.priorityList.map renumber).map back := by
        rw [List.map_map]
        refine map_congr_left fun old mem => (eq old ?_).symm
        obtain ⟨mapping, isKnown⟩ := Laid.listed laid mem
        exact isSome_iff_exists.mpr ⟨mapping, isKnown⟩
      rw [found', found'', map_some, map_some]
      unfold spaceMetadata
      rw [isId, isId', kind, kind', name, name', list, list', lists]
  · intro a' there b' there' lt
    obtain ⟨a, isKnown, rfl⟩ := first.onto a' there
    obtain ⟨b, isKnown', rfl⟩ := first.onto b' there'
    rw [eq a isKnown, eq b isKnown']
    exact second.increasing isKnown isKnown' ((first.increasing.lt_iff_lt isKnown isKnown').mp lt)
  · obtain ⟨id, isKnown, rfl⟩ := first.onto id' (isSome_iff_exists.mpr ⟨_, found'⟩)
    obtain ⟨mapping, found⟩ := isSome_iff_exists.mp isKnown
    obtain ⟨other, isOther, same⟩ := first.mappings id mapping found
    cases isOther.symm.trans found'
    obtain ⟨mapping'', found'', same'⟩ := second.mappings id mapping found
    rw [eq id isKnown]
    exact ⟨mapping'', found'', ⟨same'.range.trans same.range.symm,
      same'.offset.trans same.offset.symm, same'.providerId.trans same.providerId.symm,
      same'.properties.trans same.properties.symm, same'.kind.trans same.kind.symm,
      same'.provenance.trans same.provenance.symm, same'.flags.trans same.flags.symm,
      same'.name.trans same.name.symm⟩⟩
  · obtain ⟨id, isKnown, rfl⟩ := second.onto id'' there
    obtain ⟨mapping, found⟩ := isSome_iff_exists.mp isKnown
    obtain ⟨mapping', found', -⟩ := first.mappings id mapping found
    exact ⟨renumber id, isSome_iff_exists.mpr ⟨mapping', found'⟩, eq id isKnown⟩

omit mapS mapE in
theorem closed_iff (alike : Alike renumber project project')
    (providers : ∀ id, (project'.storage.providers.get? id).isSome =
      (project.storage.providers.get? id).isSome) :
    Closed project'.storage ↔ Closed project.storage := by
  have kinds : ∀ id, (project'.storage.spaces.get? id).map AddressSpace.kind =
      (project.storage.spaces.get? id).map AddressSpace.kind := by
    intro id
    have same := congrArg (Option.map kind) (alike.spaces id)
    rw [Option.map_map, Option.map_map] at same
    exact same
  have overlays : ∀ {storage : SegmentStorage D S E} {id : AddressSpaceId} {kind},
      (storage.spaces.get? id).map AddressSpace.kind = some kind ↔
        ∃ space, storage.spaces.get? id = some space ∧ space.kind = kind :=
    map_eq_some_iff
  constructor
  · rintro ⟨default, bases, mappings⟩
    refine ⟨(kinds 0).symm.trans default, fun id space base found kind => ?_,
      fun id mapping found => ?_⟩
    · obtain ⟨space', found', kind'⟩ := overlays.mp ((kinds id).trans (overlays.mpr
        ⟨space, found, kind⟩))
      rw [← alike.space_isSome]
      exact bases id space' base found' kind'
    · obtain ⟨mapping', found', same⟩ := alike.mappings id mapping found
      rw [← providers, ← alike.space_isSome, ← same.providerId, ← same.range]
      exact mappings _ mapping' found'
  · rintro ⟨default, bases, mappings⟩
    refine ⟨(kinds 0).trans default, fun id space base found kind => ?_,
      fun id' mapping' found' => ?_⟩
    · obtain ⟨space', found', kind'⟩ := overlays.mp ((kinds id).symm.trans (overlays.mpr
        ⟨space, found, kind⟩))
      rw [alike.space_isSome]
      exact bases id space' base found' kind'
    · obtain ⟨id, isKnown, rfl⟩ := alike.onto id' (isSome_iff_exists.mpr ⟨_, found'⟩)
      obtain ⟨mapping, found⟩ := isSome_iff_exists.mp isKnown
      obtain ⟨other, isOther, same⟩ := alike.mappings id mapping found
      cases isOther.symm.trans found'
      rw [providers, alike.space_isSome, same.providerId, same.range]
      exact mappings id mapping found

end Alike

/-! ## Files and storages -/

theorem keys_eq {K V : Type} [LinearOrder K] {m m' : OrdMap K V}
    (same : ∀ k, (m.get? k).isSome = (m'.get? k).isSome) :
    m.entries.map Prod.fst = m'.entries.map Prod.fst := by
  have sorted : ∀ m : OrdMap K V, (m.entries.map Prod.fst).Pairwise (· < ·) := fun m =>
    pairwise_map.mpr m.sorted
  have mem : ∀ (m : OrdMap K V) k, k ∈ m.entries.map Prod.fst ↔ (m.get? k).isSome := by
    intro m k
    rw [List.mem_map, isSome_iff_exists]
    constructor
    · rintro ⟨entry, inside, rfl⟩
      exact ⟨entry.2, get?_eq_some.mpr inside⟩
    · rintro ⟨v, found⟩
      exact ⟨(k, v), get?_eq_some.mp found, rfl⟩
  refine List.Perm.eq_of_pairwise (fun _ _ _ _ lt gt => absurd gt lt.not_gt) (sorted m) (sorted m')
    ((perm_ext_iff_of_nodup (keys_nodup m) (keys_nodup m')).mpr fun k => ?_)
  rw [mem, mem, same]

def ProjectStorage.holding (project : ProjectStorage D S E)
    (providers : OrdMap SegmentStorageProviderId D) : ProjectStorage D S E :=
  { project with storage := { project.storage with providers := providers } }

section Holding

variable {project : ProjectStorage D S E} {providers : OrdMap SegmentStorageProviderId D}

omit mapS mapE in
theorem metadata_holding (same : ∀ id, (providers.get? id).isSome =
    (project.storage.providers.get? id).isSome) :
    (project.holding providers).metadata = project.metadata := by
  unfold metadata holding
  rw [keys_eq same]

omit mapS mapE in
theorem Typed.holding (typed : Typed project.storage) (same : ∀ id, (providers.get? id).isSome =
    (project.storage.providers.get? id).isSome) : Typed (project.holding providers).storage := by
  refine ⟨?_, typed.mappings, typed.spaces⟩
  change ∀ id ∈ providers.entries.map Prod.fst, id < 2 ^ 32
  rw [keys_eq same]
  exact typed.providers

end Holding

/-- The file was written for a storage that is alike. -/
structure Describes (old : ProjectStorage D S E) (renumber : SegmentMappingId → SegmentMappingId)
    (file : SegmentStorageMetadata) (project : ProjectStorage D S E) : Prop where
  laidOut : LaidOut old.storage
  typed : Typed old.storage
  file : file = old.metadata
  providers : ∀ id, (project.storage.providers.get? id).isSome =
    (old.storage.providers.get? id).isSome
  alike : Alike renumber old project

variable {reopen : SegmentStorageProviderId → Except Error D}

theorem Describes.loads_iff {old project : ProjectStorage D S E}
    {renumber : SegmentMappingId → SegmentMappingId} {file : SegmentStorageMetadata}
    {contents : D → ℕ → Option UInt8}
    (describes : Describes old renumber file project) (laidOut : LaidOut project.storage)
    (reopens : Reopens reopen contents project.storage) :
    (∃ loaded renumber', fromStorage reopen file = .ok loaded ∧
      Reloaded contents renumber' project loaded) ↔ Closed project.storage := by
  -- the providers as they are now
  let held := old.holding project.storage.providers
  have isFile : file = held.metadata :=
    describes.file.trans (metadata_holding describes.providers).symm
  have heldLaid : LaidOut held.storage := describes.laidOut.congr rfl rfl le_rfl
  have heldTyped : Typed held.storage := describes.typed.holding describes.providers
  have heldAlike : Alike renumber held project :=
    ⟨describes.alike.fillByte, describes.alike.spaces, describes.alike.increasing,
      describes.alike.mappings, describes.alike.onto⟩
  have heldOpens : Reopens reopen contents held.storage := reopens
  rw [heldAlike.closed_iff fun _ => rfl, isFile]
  constructor
  · rintro ⟨loaded, -, run, -⟩
    exact closed_of_fromStorage heldLaid heldTyped heldOpens run
  · intro closed
    obtain ⟨loaded, run, isLoaded⟩ := fromStorage_reloaded heldLaid heldTyped heldOpens closed
    obtain ⟨second, secondAlike⟩ := isLoaded.alike
    obtain ⟨renumber', alike⟩ := heldAlike.compose heldLaid secondAlike
    exact ⟨loaded, renumber', run, alike, alike.bytes laidOut isLoaded.laidOut isLoaded.providers⟩

omit mapS mapE in
theorem of_loadProviders_ok :
    ∀ (ids : List SegmentStorageProviderId) {storage after : SegmentStorage D S E},
    ids.foldlM (loadProvider reopen) storage = .ok after →
    ∀ id ∈ ids, ∃ provider, reopen id = .ok provider := by
  intro ids
  induction ids with
  | nil =>
    intro storage after _ id mem
    cases mem
  | cons first ids ih =>
    intro storage after run id mem
    obtain ⟨next, step, run⟩ := bind_eq_ok.mp run
    rcases mem_cons.mp mem with rfl | mem
    · unfold loadProvider at step
      split at step
      · cases step
      · exact ⟨_, by assumption⟩
    · exact ih run id mem

theorem fromStorage_describes {old loaded : ProjectStorage D S E} (laidOut : LaidOut old.storage)
    (typed : Typed old.storage) (run : fromStorage reopen old.metadata = .ok loaded) :
    LaidOut loaded.storage ∧ Typed loaded.storage ∧ loaded.file = some old.metadata ∧
      loaded.persistedRevision = loaded.storage.revision ∧
      ∃ held renumber, Describes held renumber old.metadata loaded := by
  have opens : ∀ id ∈ old.metadata.providers, ∃ provider, reopen id = .ok provider := by
    obtain ⟨storage, providers, -⟩ := bind_eq_ok.mp run
    obtain ⟨opened, providers, -⟩ := bind_eq_ok.mp providers
    exact of_loadProviders_ok _ providers
  have few := length_le_of_lt (keys_nodup _) typed.providers
  obtain ⟨providers, ctr, -, get⟩ := loadProviders_spec old.metadata.providers
    (empty : SegmentStorage D S E) opens
    (show 0 + (old.storage.providers.entries.map Prod.fst).length < 2 ^ 64 by omega)
  have same : ∀ id, (providers.get? id).isSome = (old.storage.providers.get? id).isSome := by
    intro id
    rw [get id]
    cases found : old.storage.providers.get? id with
    | none =>
      have absent : id ∉ old.metadata.providers := by
        intro mem
        obtain ⟨entry, inside, rfl⟩ := List.mem_map.mp mem
        exact OrdMap.get?_eq_none.mp found entry.2 inside
      rw [if_neg absent]
      rfl
    | some provider =>
      have there : id ∈ old.metadata.providers :=
        List.mem_map.mpr ⟨(id, provider), get?_eq_some.mp found, rfl⟩
      obtain ⟨provider', opened⟩ := opens id there
      rw [if_pos there, opened]
      rfl
  have heldLaid : LaidOut (old.holding providers).storage := laidOut.congr rfl rfl le_rfl
  have heldTyped := typed.holding same
  have heldOpens : Reopens reopen (fun _ _ => none) (old.holding providers).storage := by
    intro id provider found
    change providers.get? id = some provider at found
    rw [get id] at found
    split at found
    · rename_i there
      obtain ⟨provider', opened⟩ := opens id there
      exact ⟨provider', opened, rfl⟩
    · cases found
  rw [← metadata_holding same] at run ⊢
  have closed := closed_of_fromStorage heldLaid heldTyped heldOpens run
  obtain ⟨other, run', isLoaded⟩ := fromStorage_reloaded heldLaid heldTyped heldOpens closed
  obtain rfl : other = loaded := Except.ok.inj (run'.symm.trans run)
  obtain ⟨renumber, alike⟩ := isLoaded.alike
  exact ⟨isLoaded.laidOut, isLoaded.typed, isLoaded.file, isLoaded.persisted, _, renumber,
    heldLaid, heldTyped, rfl, fun id => map_isSome (isLoaded.providers id), alike⟩

/-! ## Runs -/

/-- What `empty` (`mod.rs:228-246`) and the banks and spaces of an image (`mod.rs:248-342`) leave:
providers and spaces, and no mapping. -/
structure Bare (storage : SegmentStorage D S E) : Prop where
  mappings : storage.mappings = .empty
  spaces : ∀ id space, (id, space) ∈ storage.spaces.entries → ∃ kind,
    space = AddressSpace.newWith id kind

/-- The storages with a project path that mutations, persists and reloads lead to, each with the
metadata that it had when it was last persisted, or when it was made. The ids of a storage are of
their types. -/
inductive Reached (Error : Type) [SyntheticProvider D Error] :
    ProjectStorage D S E → SegmentStorageMetadata → Prop
  | start {storage : SegmentStorage D S E} : Bare storage → Typed storage →
      Reached Error ⟨storage, 0, 0, none⟩ (ProjectStorage.metadata ⟨storage, 0, 0, none⟩)
  | operation {project : ProjectStorage D S E} {last : SegmentStorageMetadata}
      {storage : SegmentStorage D S E} (operation : SegmentStorage.Operation D) :
      Reached Error project last →
      project.storage.apply Error operation = .ok storage → Typed storage →
      Reached Error { project with storage := storage } last
  | setFillByte {project project' : ProjectStorage D S E} {last : SegmentStorageMetadata}
      (byte : UInt8) : Reached Error project last → project.setFillByte byte = .ok project' →
      Reached Error project' last
  /-- `write_bytes` and `write_bytes_direct` (`mod.rs:1689-1822`) change what the providers hold. -/
  | write {project : ProjectStorage D S E} {last : SegmentStorageMetadata}
      {providers : OrdMap SegmentStorageProviderId D} : Reached Error project last →
      (∀ id, (providers.get? id).isSome = (project.storage.providers.get? id).isSome) →
      Reached Error (project.holding providers) last
  | skip {project : ProjectStorage D S E} {last : SegmentStorageMetadata} :
      Reached Error project last → project.persistedRevision = project.storage.revision →
      Reached Error project.persist last
  | persist {project : ProjectStorage D S E} {last : SegmentStorageMetadata} :
      Reached Error project last → project.persistedRevision ≠ project.storage.revision →
      Reached Error project.persist project.metadata
  | load {project loaded : ProjectStorage D S E} {last file : SegmentStorageMetadata}
      {reopen : SegmentStorageProviderId → Except Error D} : Reached Error project last →
      project.file = some file → fromStorage reopen file = .ok loaded →
      Reached Error loaded loaded.metadata

/-- Persisting a storage and loading its file gives the storage back. -/
def Survives (reopen : SegmentStorageProviderId → Except Error D)
    (contents : D → ℕ → Option UInt8) (project : ProjectStorage D S E) : Prop :=
  ∃ file loaded renumber, project.persist.file = some file ∧
    fromStorage reopen file = .ok loaded ∧ Reloaded contents renumber project loaded

structure Inv (project : ProjectStorage D S E) (last : SegmentStorageMetadata) : Prop where
  laidOut : LaidOut project.storage
  typed : Typed project.storage
  le : project.persistedRevision ≤ project.storage.revision
  absent : project.file = none → project.persistedRevision = 0
  filed : ∀ file, project.file = some file →
    ∃ old : ProjectStorage D S E, LaidOut old.storage ∧ Typed old.storage ∧ file = old.metadata
  saved : project.persistedRevision = project.storage.revision → project.metadata = last
  described : ∀ file, project.file = some file →
    project.persistedRevision = project.storage.revision →
    ∃ old renumber, Describes old renumber file project

namespace Inv

variable {project : ProjectStorage D S E} {last : SegmentStorageMetadata}

theorem start {storage : SegmentStorage D S E} (bare : Bare storage) (typed : Typed storage) :
    Inv ⟨storage, 0, 0, none⟩ (metadata ⟨storage, 0, 0, none⟩) := by
  refine ⟨⟨fun id mapping mem => ?_, fun id space mem => ?_⟩, typed, Nat.zero_le _, fun _ => rfl,
    fun _ => nofun, fun _ => rfl, fun _ => nofun⟩
  · rw [bare.mappings] at mem
    cases mem
  · obtain ⟨kind, rfl⟩ := bare.spaces id space mem
    exact ⟨rfl, laid_newWith id kind none⟩

variable (inv : Inv project last)
include inv

theorem grow {storage : SegmentStorage D S E}
    (grows : Grows project.storage storage) (laidOut : LaidOut storage) (typed : Typed storage) :
    Inv { project with storage := storage } last := by
  rcases grows with lt | same
  · have behind : project.persistedRevision ≠ storage.revision := (inv.le.trans_lt lt).ne
    exact ⟨laidOut, typed, (inv.le.trans_lt lt).le, inv.absent, inv.filed,
      fun eq => absurd eq behind, fun _ _ eq => absurd eq behind⟩
  · refine ⟨laidOut, typed, same.revision ▸ inv.le, inv.absent, inv.filed, fun eq => ?_,
      fun file isFile eq => ?_⟩
    · rw [← inv.saved (eq.trans same.revision)]
      unfold metadata
      rw [same.mappings, same.spaces, same.syntheticProvider, keys_eq same.providers]
    · obtain ⟨old, renumber, describes⟩ := inv.described file isFile (eq.trans same.revision)
      refine ⟨old, renumber, describes.laidOut, describes.typed, describes.file,
        fun id => (same.providers id).trans (describes.providers id), describes.alike.fillByte,
        ?_, describes.alike.increasing, ?_, ?_⟩
      · rw [same.spaces]
        exact describes.alike.spaces
      · rw [same.mappings]
        exact describes.alike.mappings
      · rw [same.mappings]
        exact describes.alike.onto

theorem setFillByte {project' : ProjectStorage D S E} {byte : UInt8}
    (run : project.setFillByte byte = .ok project') : Inv project' last := by
  obtain ⟨touched, touch, eq⟩ := bind_eq_ok.mp run
  obtain rfl := Except.ok.inj eq
  have lt : project.storage.revision < touched.revision :=
    (touch_raises (steps_same rfl rfl rfl) touched touch).2
  obtain ⟨revision, -, eq⟩ := bind_eq_ok.mp touch
  obtain rfl := Except.ok.inj eq
  have behind := (inv.le.trans_lt lt).ne
  exact ⟨inv.laidOut.congr rfl rfl le_rfl, ⟨inv.typed.providers, inv.typed.mappings,
    inv.typed.spaces⟩, (inv.le.trans_lt lt).le, inv.absent, inv.filed,
    fun eq => absurd eq behind, fun _ _ eq => absurd eq behind⟩

theorem write {providers : OrdMap SegmentStorageProviderId D}
    (same : ∀ id, (providers.get? id).isSome = (project.storage.providers.get? id).isSome) :
    Inv (project.holding providers) last :=
  inv.grow (.inr ⟨rfl, rfl, rfl, rfl, same⟩) (inv.laidOut.congr rfl rfl le_rfl)
    (inv.typed.holding same)

theorem persist (changed : project.persistedRevision ≠ project.storage.revision) :
    Inv project.persist project.metadata := by
  unfold ProjectStorage.persist
  rw [if_neg changed]
  refine ⟨inv.laidOut, inv.typed, le_rfl, nofun, ?_, fun _ => rfl, ?_⟩
  · rintro _ ⟨⟩
    exact ⟨project, inv.laidOut, inv.typed, rfl⟩
  · rintro _ ⟨⟩ -
    exact ⟨project, id, inv.laidOut, inv.typed, rfl, fun _ => rfl, (Alike.refl project).fillByte,
      (Alike.refl project).spaces, (Alike.refl project).increasing,
      (Alike.refl project).mappings, (Alike.refl project).onto⟩

theorem load {loaded : ProjectStorage D S E}
    {file : SegmentStorageMetadata} {reopen : SegmentStorageProviderId → Except Error D}
    (isFile : project.file = some file) (run : fromStorage reopen file = .ok loaded) :
    Inv loaded loaded.metadata := by
  obtain ⟨old, laidOut, typed, rfl⟩ := inv.filed file isFile
  obtain ⟨loadedLaid, loadedTyped, loadedFile, persisted, held, renumber, describes⟩ :=
    fromStorage_describes laidOut typed run
  refine ⟨loadedLaid, loadedTyped, persisted.le, fun none => ?_, fun file eq => ?_, fun _ => rfl,
    fun file eq _ => ?_⟩
  · rw [loadedFile] at none
    cases none
  · rw [loadedFile] at eq
    exact ⟨old, laidOut, typed, (Option.some.inj eq).symm⟩
  · rw [loadedFile] at eq
    cases eq
    exact ⟨held, renumber, describes⟩

end Inv

section Reached

variable [SyntheticProvider D Error] {project : ProjectStorage D S E}
  {last : SegmentStorageMetadata}

theorem Reached.inv (reached : Reached Error project last) : Inv project last := by
  induction reached with
  | start bare typed => exact .start bare typed
  | @operation project last storage operation reached run typed inv =>
    have proceeds := (apply_proceeds inv.laidOut operation).leaves storage run
    exact inv.grow proceeds.advances.grows proceeds.laidOut typed
  | setFillByte byte reached run inv => exact inv.setFillByte run
  | write reached same inv => exact inv.write same
  | skip reached unchanged inv =>
    unfold ProjectStorage.persist
    rw [if_pos unchanged]
    exact inv
  | persist reached changed inv => exact inv.persist changed
  | load reached isFile run inv => exact inv.load isFile run

theorem Inv.persisted (inv : Inv project last)
    (written : project.file.isSome ∨ 0 < project.storage.revision) :
    ∃ file old renumber, project.persist.file = some file ∧
      Describes old renumber file project := by
  unfold ProjectStorage.persist
  split
  · rename_i unchanged
    cases isFile : project.file with
    | none =>
      have zero := (unchanged.symm.trans (inv.absent isFile))
      rw [isFile] at written
      exact absurd zero (written.resolve_left nofun).ne'
    | some file =>
      obtain ⟨old, renumber, describes⟩ := inv.described file isFile unchanged
      exact ⟨file, old, renumber, rfl, describes⟩
  · exact ⟨_, project, id, rfl, inv.laidOut, inv.typed, rfl, fun _ => rfl, Alike.refl project⟩

/-- In every run a persist is only skipped if the metadata is what was persisted last; and a storage
can be loaded from its file, as it was, exactly if the bases of its overlays and the spaces of its
mappings are there and something has been written. -/
theorem survives_iff_closed (reached : Reached Error project last)
    {reopen : SegmentStorageProviderId → Except Error D} {contents : D → ℕ → Option UInt8}
    (reopens : Reopens reopen contents project.storage) :
    (project.persistedRevision = project.storage.revision → project.metadata = last) ∧
    (Survives reopen contents project ↔ Closed project.storage ∧
      (project.file.isSome ∨ 0 < project.storage.revision)) := by
  have inv := reached.inv
  refine ⟨inv.saved, ?_, ?_⟩
  · rintro ⟨file, loaded, renumber, isFile, run, reloaded⟩
    have written : project.file.isSome ∨ 0 < project.storage.revision := by
      by_contra never
      obtain ⟨noFile, zero⟩ := not_or.mp never
      have none := not_isSome_iff_eq_none.mp noFile
      have unchanged : project.persistedRevision = project.storage.revision := by
        rw [inv.absent none]
        exact (Nat.eq_zero_of_not_pos zero).symm
      unfold persist at isFile
      rw [if_pos unchanged, none] at isFile
      cases isFile
    obtain ⟨file', old, renumber', isFile', describes⟩ := inv.persisted written
    cases isFile.symm.trans isFile'
    exact ⟨(describes.loads_iff inv.laidOut reopens).mp ⟨loaded, renumber, run, reloaded⟩, written⟩
  · rintro ⟨closed, written⟩
    obtain ⟨file, old, renumber, isFile, describes⟩ := inv.persisted written
    obtain ⟨loaded, renumber', run, reloaded⟩ :=
      (describes.loads_iff inv.laidOut reopens).mpr closed
    exact ⟨file, loaded, renumber', isFile, run, reloaded⟩

end Reached

/-! ## A storage with one mapping -/

instance listProvider : SyntheticProvider (List UInt8) Unit where
  size := List.length
  resize bytes size := (bytes.takeD size 0, .ok ())
  writeBytes bytes offset written :=
    (bytes.take offset ++ written ++ bytes.drop (offset + written.length), .ok written.length)
  fromSegmentRange _ last := .ok (List.replicate (last + 1) 0)

abbrev ListStorage :=
  SegmentStorage (List UInt8) (List ((ℕ × ℕ) × SegmentSubMapping)) (List ((ℕ × ℕ) × SegmentMappingId))

/-- A provider, and a mapping of its byte at an address of a space that is placed in the default
space. -/
def oneByte (space : AddressSpaceId) : List (SegmentStorage.Operation (List UInt8)) :=
  [.openProvider [7], .createMapping 0 ⟨space, 0⟩ 1 0 1, .addMappingToSpaceAt 0 0 .top]

def oneByteStorage (space : AddressSpaceId) : ListStorage :=
  ((run Unit (oneByte space)).toOption).getD empty

def oneByteProject (space : AddressSpaceId) :
    ProjectStorage (List UInt8) (List ((ℕ × ℕ) × SegmentSubMapping))
      (List ((ℕ × ℕ) × SegmentMappingId)) :=
  ⟨oneByteStorage space, 0, 0, none⟩

theorem typed_of_keys {storage : ListStorage}
    (providers : ∀ id ∈ storage.providers.entries.map Prod.fst, id = 0)
    (mappings : ∀ id ∈ storage.mappings.entries.map Prod.fst, id = 0)
    (spaces : ∀ id ∈ storage.spaces.entries.map Prod.fst, id = 0) : Typed storage := by
  refine ⟨fun id mem => ?_, fun id mem => ?_, fun id mem => ?_⟩
  · rw [providers id mem]
    decide
  · rw [mappings id mem]
    decide
  · rw [spaces id mem]
    decide

theorem oneByte_reached (space : AddressSpaceId) : ∃ last,
    Reached Unit (oneByteProject space) last := by
  have bare : Bare (empty : ListStorage) := by
    refine ⟨rfl, fun id space mem => ⟨.base, ?_⟩⟩
    obtain ⟨rfl, rfl⟩ := Prod.mk.inj (mem_singleton.mp mem)
    rfl
  refine ⟨_, .operation (.addMappingToSpaceAt 0 0 .top) (.operation
    (.createMapping 0 ⟨space, 0⟩ 1 0 1) (.operation (.openProvider [7]) (.start bare ?_) rfl ?_)
      rfl ?_) rfl ?_⟩
  · exact typed_of_keys nofun nofun fun id mem => mem_singleton.mp mem
  · exact typed_of_keys (fun id mem => mem_singleton.mp mem) nofun
      fun id mem => mem_singleton.mp mem
  · exact typed_of_keys (fun id mem => mem_singleton.mp mem)
      (fun id mem => mem_singleton.mp mem) fun id mem => mem_singleton.mp mem
  · exact typed_of_keys (fun id mem => mem_singleton.mp mem)
      (fun id mem => mem_singleton.mp mem) fun id mem => mem_singleton.mp mem

def listContents (bytes : List UInt8) (offset : ℕ) : Option UInt8 := bytes[offset]?

theorem oneByte_reopens (space : AddressSpaceId) :
    Reopens (fun _ => (.ok [7] : Except Unit (List UInt8))) listContents
      (oneByteProject space).storage := by
  intro id provider found
  have mem : (id, provider) ∈ [(0, [7])] := get?_eq_some.mp found
  obtain ⟨rfl, rfl⟩ := Prod.mk.inj (mem_singleton.mp mem)
  exact ⟨[7], rfl, rfl⟩

/-- A mapping in the default space is loaded again. -/
theorem survives_in_default_space : ∃ last, Reached Unit (oneByteProject 0) last ∧
    Survives (fun _ => (.ok [7] : Except Unit (List UInt8))) listContents (oneByteProject 0) := by
  obtain ⟨last, reached⟩ := oneByte_reached 0
  refine ⟨last, reached, (survives_iff_closed reached (oneByte_reopens 0)).2.mpr
    ⟨⟨rfl, fun id space base found overlay => ?_, fun id mapping found => ?_⟩, .inr (by decide)⟩⟩
  · have mem := get?_eq_some.mp found
    obtain ⟨rfl, rfl⟩ := Prod.mk.inj (mem_singleton.mp mem)
    cases overlay
  · have mem := get?_eq_some.mp found
    obtain ⟨rfl, rfl⟩ := Prod.mk.inj (mem_singleton.mp mem)
    exact ⟨rfl, rfl⟩

/-- `create_mapping` does not look for the space of its address, and `from_storage` refuses the
file. -/
theorem lost_in_unknown_space : (∃ last, Reached Unit (oneByteProject 5) last) ∧
    Reopens (fun _ => (.ok [7] : Except Unit (List UInt8))) listContents
      (oneByteProject 5).storage ∧
    ¬ Survives (fun _ => (.ok [7] : Except Unit (List UInt8))) listContents
      (oneByteProject 5) := by
  refine ⟨oneByte_reached 5, oneByte_reopens 5, ?_⟩
  rintro ⟨file, loaded, renumber, isFile, run, -⟩
  cases isFile
  cases run

end Fugue.Storage.Segments
