import Fugue.Storage.Segments.StagedAliases
import Fugue.Storage.Segments.PersistRun

/-!
# Prepared writes

What `prepare_write` does on a staged layout (`prepareWrite_spec`): it writes where the topmost
mappings are, and reports every placed mapping of what it writes. It also needs that no mapping of
a provider that is written ends beyond the offsets, which nothing checks when a mapping is created
(`prepareWrite_needs_bounded`).
-/

namespace Fugue.Storage.Segments.SegmentStorageStaging

open Fugue.Lib Fugue.Ir Option SegmentStorage
open SegmentStorage (LaidOut)

section Prepare

variable {D S E Error : Type} [SyntheticProvider D Error] [mapS : IntervalMap S SegmentSubMapping]
  [mapE : IntervalMap E SegmentMappingId] {storage : SegmentStorage D S E}
  {staging : SegmentStorageStaging} {space : AddressSpaceId} {a : ℕ}

/-- The topmost mapping at an address is writable, and the provider has the byte. -/
def WritableAt (Error : Type) [SyntheticProvider D Error] (storage : SegmentStorage D S E)
    (staging : SegmentStorageStaging) (space : AddressSpaceId) (a : ℕ) : Prop :=
  ∃ mapping size, TopmostAt storage staging space a mapping ∧
    isWritable mapping.properties = true ∧
    staging.providerSize storage Error mapping.provider = some size ∧
    mapping.offset.toNat + (a - mapping.range.start) < size

/-- The topmost mapping has the address at an offset of the provider. -/
def PutAt (storage : SegmentStorage D S E) (staging : SegmentStorageStaging)
    (space : AddressSpaceId) (a : ℕ) (provider : SegmentStorageProviderId) (offset : ℕ) : Prop :=
  ∃ mapping, TopmostAt storage staging space a mapping ∧ mapping.provider = provider ∧
    mapping.offset.toNat + (a - mapping.range.start) = offset

/-- A placed mapping has the address at an offset of the provider. -/
def MapsTo (storage : SegmentStorage D S E) (staging : SegmentStorageStaging)
    (space : AddressSpaceId) (a : ℕ) (provider : SegmentStorageProviderId) (offset : ℕ) : Prop :=
  ∃ id mapping, CoversAt storage staging space a id mapping ∧ mapping.provider = provider ∧
    mapping.offset.toNat + (a - mapping.range.start) = offset

/-- The mappings of a provider end at offsets. -/
def BoundedOf (storage : SegmentStorage D S E) (staging : SegmentStorageStaging)
    (provider : SegmentStorageProviderId) : Prop :=
  ∀ id mapping, staging.stagedMapping storage id = .ok mapping → mapping.provider = provider →
    Bounded mapping

theorem Lands.mono {place place' : ℕ → SegmentStorageProviderId → ℕ → Prop}
    (weaker : ∀ a provider offset, place a provider offset → place' a provider offset) :
    ∀ (records : List PreparedSegmentWriteRecord) (a : ℕ), Lands place a records →
      Lands place' a records := by
  intro records
  induction records with
  | nil => exact fun _ _ => trivial
  | cons record records ih =>
    intro a lands
    exact ⟨fun i lt => weaker _ _ _ (lands.1 i lt), ih _ lands.2⟩

theorem Lands.placed {place : ℕ → SegmentStorageProviderId → ℕ → Prop} :
    ∀ (records : List PreparedSegmentWriteRecord) (a : ℕ), Lands place a records →
      (∀ i < (records.map PreparedSegmentWriteRecord.bytes).flatten.length, ∃ record ∈ records,
        ∃ j < record.bytes.length, place (a + i) record.provider (record.offset + j)) ∧
      ∀ record ∈ records, ∀ j < record.bytes.length,
        ∃ i < (records.map PreparedSegmentWriteRecord.bytes).flatten.length,
          place (a + i) record.provider (record.offset + j) := by
  intro records
  induction records with
  | nil => exact fun _ _ => ⟨nofun, nofun⟩
  | cons record records ih =>
    intro a lands
    obtain ⟨here, later⟩ := lands
    obtain ⟨bytes, offsets⟩ := ih _ later
    rw [List.map_cons, List.flatten_cons, List.length_append]
    constructor
    · intro i lt
      rcases lt_or_ge i record.bytes.length with inside | beyond
      · exact ⟨record, .head _, i, inside, here i inside⟩
      · obtain ⟨other, mem, j, jLt, placed⟩ := bytes (i - record.bytes.length) (by omega)
        rw [add_assoc, Nat.add_sub_cancel' beyond] at placed
        exact ⟨other, .tail _ mem, j, jLt, placed⟩
    · rw [List.forall_mem_cons]
      refine ⟨fun j lt => ⟨j, by omega, here j lt⟩, fun other mem j jLt => ?_⟩
      obtain ⟨i, lt, placed⟩ := offsets other mem j jLt
      rw [add_assoc] at placed
      exact ⟨record.bytes.length + i, by omega, placed⟩

omit mapS mapE in
theorem Sound.providerSize_lt (sound : Sound storage staging)
    (small : ∀ id provider, storage.providers.get? id = some provider →
      SyntheticProvider.size Error provider < 2 ^ 64) {provider : SegmentStorageProviderId}
    {size : ℕ} (isSize : staging.providerSize storage Error provider = some size) :
    size < 2 ^ 64 := by
  have committed : ∀ size, (storage.providers.get? provider).map (fun found =>
      SyntheticProvider.size Error found) = some size → size < 2 ^ 64 := by
    intro size isSize
    obtain ⟨found, isFound, eq⟩ := map_eq_some_iff.mp isSize
    subst eq
    exact small provider found isFound
  rcases or_eq_some_iff.mp isSize with staged | ⟨-, held⟩
  · obtain ⟨found, isFound, eq⟩ := map_eq_some_iff.mp staged
    have provided := sound.provided found (filter_eq_some_iff.mp isFound).1
    subst eq
    apply max_lt provided
    cases held : (storage.providers.get? provider).map fun found =>
        SyntheticProvider.size Error found with
    | none => exact Nat.two_pow_pos 64
    | some size => exact committed size held
  · exact committed size held

/-- The records of a write: those of the bytes, each where the topmost mapping of its address has
it. -/
theorem Sound.walk (sound : Sound storage staging) (laidOut : LaidOut storage)
    (known : KnownSpace storage staging space)
    (small : ∀ id provider, storage.providers.get? id = some provider →
      SyntheticProvider.size Error provider < 2 ^ 64) (bytes : List UInt8) :
    ∃ mappings, staging.stagedMappingsInSpace storage space = .ok mappings ∧
      ((∀ i < bytes.length, WritableAt Error storage staging space (a + i)) → ∃ records,
        staging.targets storage Error mappings bytes.length a bytes = .ok records) ∧
      ∀ records, staging.targets storage Error mappings bytes.length a bytes = .ok records →
        (records.map PreparedSegmentWriteRecord.bytes).flatten = bytes ∧
        (∀ record ∈ records, record.bytes ≠ []) ∧
        Lands (PutAt storage staging space) a records ∧
        ∀ i < bytes.length, WritableAt Error storage staging space (a + i) := by
  obtain ⟨layers, call, isLayers, each⟩ := sound.stagedMappingsInSpace laidOut known
  have writable_iff : ∀ a, Writable Error storage staging (layers.map Prod.snd) a ↔
      WritableAt Error storage staging space a := by
    intro a
    simp [Writable, WritableAt, visible_iff isLayers each]
  have lays_iff : ∀ a provider offset, Lays (layers.map Prod.snd) a provider offset ↔
      PutAt storage staging space a provider offset := by
    intro a provider offset
    simp [Lays, PutAt, visible_iff isLayers each]
  refine ⟨_, call, fun writable => ?_, fun records walk => ?_⟩
  · refine targets_total (fun mapping mem => ?_) (fun provider size => sound.providerSize_lt small)
      bytes.length a bytes le_rfl fun i lt => (writable_iff _).mpr (writable i lt)
    obtain ⟨layer, isLayer, same⟩ := List.mem_map.mp mem
    rw [← same]
    exact ((sound.stagedMapping layer.1).2 layer.2 (each layer isLayer)).2
  · obtain ⟨contents, nonempty, lands, writable⟩ := targets_eq_ok _ _ _ _ walk
    exact ⟨contents, nonempty,
      lands.mono (fun _ _ _ => (lays_iff _ _ _).mp) records a,
      fun i lt => (writable_iff _).mp (writable i lt)⟩

theorem Sound.ranges (sound : Sound storage staging) (laidOut : LaidOut storage)
    (known : KnownSpace storage staging space)
    (small : ∀ id provider, storage.providers.get? id = some provider →
      SyntheticProvider.size Error provider < 2 ^ 64)
    {records : List PreparedSegmentWriteRecord} (nonempty : ∀ record ∈ records, record.bytes ≠ [])
    (lands : Lands (PutAt storage staging space) a records)
    (writable : ∀ i < (records.map PreparedSegmentWriteRecord.bytes).flatten.length,
      WritableAt Error storage staging space (a + i)) :
    (∃ ranges, records.mapM (fun record => staging.pendingWriteRanges storage record.provider
      record.offset record.bytes.length) = .ok ranges) ↔
      ∀ i < (records.map PreparedSegmentWriteRecord.bytes).flatten.length, ∀ provider offset,
        PutAt storage staging space (a + i) provider offset →
          BoundedOf storage staging provider := by
  obtain ⟨ids, -, layers⟩ := sound.layersInSpace laidOut known
  obtain ⟨ofBytes, ofRecords⟩ := lands.placed records a
  rw [mapM_isOk_iff]
  constructor
  · intro all i lt provider offset put
    obtain ⟨record, mem, j, -, placed⟩ := ofBytes i lt
    have bounded := ((sound.pendingWriteRanges laidOut record.offset record.bytes.length).1.mp
      (all record mem)).2
    obtain ⟨mapping, top, isProvider, -⟩ := put
    obtain ⟨other, otherTop, otherProvider, -⟩ := placed
    have same := layers.topmost_unique top otherTop
    rw [← isProvider, same, otherProvider]
    exact bounded
  · intro bounded record mem
    have positive := List.length_pos_iff.mpr (nonempty record mem)
    obtain ⟨i, lt, placed⟩ := ofRecords record mem (record.bytes.length - 1) (by omega)
    obtain ⟨mapping, size, top, -, isSize, below⟩ := writable i lt
    have sizeLt := sound.providerSize_lt small isSize
    obtain ⟨other, otherTop, -, isOffset⟩ := id placed
    cases layers.topmost_unique top otherTop
    rw [isOffset] at below
    exact (sound.pendingWriteRanges laidOut record.offset record.bytes.length).1.mpr
      ⟨by omega, bounded i lt _ _ placed⟩

theorem Sound.mem_ranges (sound : Sound storage staging) (laidOut : LaidOut storage)
    {records : List PreparedSegmentWriteRecord} {ranges : List (List AddressRange)}
    (run : records.mapM (fun record => staging.pendingWriteRanges storage record.provider
      record.offset record.bytes.length) = .ok ranges) :
    InRanges (ranges.flatten.mergeSort fun range other => range ≤ other).dedup space a ↔
      ∃ record ∈ records, ∃ i < record.bytes.length,
        MapsTo storage staging space a record.provider (record.offset + i) := by
  have reported : InRanges (ranges.flatten.mergeSort fun range other => range ≤ other).dedup space
      a ↔ InRanges ranges.flatten space a := by
    unfold InRanges
    simp [List.mem_dedup, List.mem_mergeSort]
  rw [reported, inRanges_flatten]
  constructor
  · intro ⟨list, mem, inside⟩
    obtain ⟨record, isRecord, call⟩ := (mem_of_mapM_eq_ok run list).mp mem
    obtain ⟨id, mapping, stands, recorded, isProvider, contains, from_, upTo⟩ :=
      ((sound.pendingWriteRanges laidOut _ _).2 list call space a).mp inside
    exact ⟨record, isRecord, _, Nat.sub_lt_left_of_lt_add from_ upTo, id, mapping,
      ⟨stands, recorded, contains⟩, isProvider, (Nat.add_sub_cancel' from_).symm⟩
  · intro ⟨record, isRecord, i, lt, id, mapping, ⟨stands, recorded, contains⟩, isProvider, at_⟩
    obtain ⟨list, call⟩ := mapM_isOk_iff.mp ⟨ranges, run⟩ record isRecord
    refine ⟨list, (mem_of_mapM_eq_ok run list).mpr ⟨record, isRecord, call⟩, ?_⟩
    refine ((sound.pendingWriteRanges laidOut _ _).2 list call space a).mpr
      ⟨id, mapping, stands, recorded, isProvider, contains, ?_, ?_⟩
    · omega
    · omega

/-- A prepared write has the bytes in order, each at the offset where the topmost mapping of its
address has it, and reports the addresses that a placed mapping has there. It is refused where the
write goes past the end, where a byte of it is not writable, and where a mapping of a provider that
is written ends beyond the offsets. Every storage that operations build is laid out
(`foldlM_apply_laidOut`), and so is one that is opened again. -/
theorem prepareWrite_spec (laidOut : LaidOut storage)
    (small : ∀ id provider, storage.providers.get? id = some provider →
      SyntheticProvider.size Error provider < 2 ^ 64) (operations : List Operation)
    (address : Address) (bytes : List UInt8) (nonempty : bytes ≠ []) :
    ((∃ prepared, (run storage operations).prepareWrite storage Error address bytes =
        .ok prepared) ↔
      address.address + (bytes.length - 1) < 2 ^ 64 ∧
      (∀ i < bytes.length,
        WritableAt Error storage (run storage operations) address.space (address.address + i)) ∧
      ∀ i < bytes.length, ∀ provider offset,
        PutAt storage (run storage operations) address.space (address.address + i) provider
          offset → BoundedOf storage (run storage operations) provider) ∧
    ∀ prepared, (run storage operations).prepareWrite storage Error address bytes =
        .ok prepared →
      ∃ writes, prepared = some writes ∧
        (writes.records.map PreparedSegmentWriteRecord.bytes).flatten = bytes ∧
        (∀ record ∈ writes.records, record.bytes ≠ []) ∧
        Lands (PutAt storage (run storage operations) address.space) address.address
          writes.records ∧
        ∀ space a, InRanges writes.ranges space a ↔ ∃ record ∈ writes.records,
          ∃ i < record.bytes.length, MapsTo storage (run storage operations) space a
            record.provider (record.offset + i) := by
  have sound : Sound storage (run storage operations) := run_sound operations
  generalize run storage operations = staging at sound
  unfold prepareWrite
  rw [if_neg nonempty]
  by_cases past : 2 ^ 64 ≤ address.address + (bytes.length - 1)
  · rw [if_pos past]
    exact ⟨iff_of_false nofun fun fits => absurd fits.1 (not_lt.mpr past), nofun⟩
  rw [if_neg past, and_iff_right (not_le.mp past)]
  by_cases known : KnownSpace storage staging address.space
  swap
  · obtain ⟨call, nothing⟩ := sound.unknownSpace known
    have refused : staging.stagedMappingsInSpace storage address.space =
        .error (.unknownSpace address.space) := congrArg (· >>= _) call
    rw [refused]
    refine ⟨iff_of_false nofun fun ⟨writable, _⟩ => ?_, nofun⟩
    obtain ⟨mapping, size, ⟨id, rank, -, stands, -⟩, -⟩ :=
      writable 0 (List.length_pos_iff.mpr nonempty)
    rw [nothing id] at stands
    cases stands
  obtain ⟨mappings, call, walks, walked⟩ :=
    sound.walk laidOut known small (a := address.address) bytes
  constructor
  · constructor
    · intro ⟨prepared, prepare⟩
      obtain ⟨_, same, prepare⟩ := bind_eq_ok.mp prepare
      cases call.symm.trans same
      obtain ⟨records, walk, prepare⟩ := bind_eq_ok.mp prepare
      obtain ⟨ranges, found, -⟩ := bind_eq_ok.mp prepare
      obtain ⟨contents, full, lands, writable⟩ := walked records walk
      rw [← contents] at writable ⊢
      exact ⟨writable, (sound.ranges laidOut known small full lands writable).mp ⟨ranges, found⟩⟩
    · intro ⟨writable, bounded⟩
      obtain ⟨records, walk⟩ := walks writable
      obtain ⟨contents, full, lands, -⟩ := walked records walk
      rw [← contents] at writable bounded
      obtain ⟨ranges, found⟩ := (sound.ranges laidOut known small full lands writable).mpr bounded
      exact ⟨_, bind_eq_ok.mpr ⟨mappings, call, bind_eq_ok.mpr ⟨records, walk,
        bind_eq_ok.mpr ⟨ranges, found, rfl⟩⟩⟩⟩
  · intro prepared prepare
    obtain ⟨_, same, prepare⟩ := bind_eq_ok.mp prepare
    cases call.symm.trans same
    obtain ⟨records, walk, prepare⟩ := bind_eq_ok.mp prepare
    obtain ⟨ranges, found, prepare⟩ := bind_eq_ok.mp prepare
    cases prepare
    obtain ⟨contents, full, lands, -⟩ := walked records walk
    exact ⟨_, rfl, contents, full, lands, fun space a => sound.mem_ranges laidOut found⟩

end Prepare

/-! ## A byte with two mappings -/

variable (offset : UInt64)

/-- A provider with a mapping of its first byte, and another mapping from an offset on. -/
def twoMappings : List (SegmentStorage.Operation (List UInt8)) :=
  [.openProvider [1, 2], .createMapping 0 ⟨0, 0⟩ 1 0 2, .createMapping 0 ⟨0, 16⟩ 2 offset 2,
    .addMappingToSpaceAt 0 0 .top, .addMappingToSpaceAt 0 1 .top]

def twoMappingsStorage : ListStorage :=
  ((SegmentStorage.run Unit (twoMappings offset)).toOption).getD .empty

theorem run_twoMappings :
    (SegmentStorage.run Unit (twoMappings offset) : Except _ ListStorage) =
      .ok (twoMappingsStorage offset) := rfl

theorem twoMappings_laidOut : LaidOut (twoMappingsStorage offset) := by
  have returns : Returns LaidOut ((twoMappings offset).foldlM (SegmentStorage.apply Unit)
      (.empty : ListStorage)) :=
    foldlM_apply_laidOut _ _ empty_laidOut
  exact returns

theorem twoMappings_writable :
    WritableAt Unit (twoMappingsStorage offset) (run (twoMappingsStorage offset) []) 0 0 := by
  have sound : Sound (twoMappingsStorage offset) (run (twoMappingsStorage offset) []) :=
    run_sound []
  have known : KnownSpace (twoMappingsStorage offset) (run (twoMappingsStorage offset) []) 0 :=
    .inr rfl
  obtain ⟨layers, call, isLayers, each⟩ :=
    sound.stagedMappingsInSpace (twoMappings_laidOut offset) known
  have seen : visible (layers.map Prod.snd) 0 =
      some ⟨⟨0, 0, 0⟩, 0, .none, 0, 2, .generic, 0⟩ := by
    rw [← Except.ok.inj call]
    rfl
  exact ⟨_, 2, (visible_iff isLayers each).mp seen, rfl, rfl, Nat.zero_lt_two⟩

theorem twoMappings_small (id : SegmentStorageProviderId) (bytes : List UInt8)
    (found : (twoMappingsStorage offset).providers.get? id = some bytes) :
    SyntheticProvider.size Unit bytes < 2 ^ 64 := by
  have mem : (id, bytes) ∈ [(0, [1, 2])] := OrdMap.get?_eq_some.mp found
  cases List.mem_singleton.mp mem
  exact Nat.lt_of_sub_eq_succ rfl

/-- A write of the first byte, where the other mapping ends beyond the offsets: the byte is
writable, and the write is refused. -/
theorem prepareWrite_needs_bounded :
    (SegmentStorage.run Unit (twoMappings (-1)) : Except _ ListStorage) =
      .ok (twoMappingsStorage (-1)) ∧
    ¬ ((∃ prepared, (run (twoMappingsStorage (-1)) []).prepareWrite (twoMappingsStorage (-1)) Unit
          ⟨0, 0⟩ [9] = .ok prepared) ↔
        0 + (1 - 1) < 2 ^ 64 ∧ ∀ i < 1, WritableAt Unit (twoMappingsStorage (-1))
          (run (twoMappingsStorage (-1)) []) 0 (0 + i)) := by
  refine ⟨run_twoMappings (-1), fun claimed => ?_⟩
  obtain ⟨prepared, call⟩ := claimed.mpr ⟨Nat.two_pow_pos 64, fun i lt => by
    rw [Nat.lt_one_iff.mp lt]
    exact twoMappings_writable (-1)⟩
  cases call

/-- A write of the first byte, where the other mapping is one of the first byte too. -/
theorem prepareWrite_spec_twoMappings :
    ∃ prepared, (run (twoMappingsStorage 0) []).prepareWrite (twoMappingsStorage 0) Unit ⟨0, 0⟩
      [9] = .ok prepared := by
  refine (prepareWrite_spec (twoMappings_laidOut 0) (twoMappings_small 0) [] ⟨0, 0⟩ [9]
    (List.cons_ne_nil 9 [])).1.mpr ⟨Nat.two_pow_pos 64, ?_, ?_⟩
  · intro i lt
    rw [Nat.lt_one_iff.mp lt]
    exact twoMappings_writable 0
  · intro i lt provider offset _ id mapping recorded _
    obtain ⟨held, found, eq⟩ := fromStorage_eq_ok.mp recorded
    subst eq
    have mem := OrdMap.get?_eq_some.mp found
    have bounded : ∀ entry ∈ (twoMappingsStorage 0).mappings.entries,
        Bounded (.ofMapping entry.2) := by
      decide
    exact bounded _ mem

end Fugue.Storage.Segments.SegmentStorageStaging
