import Fugue.Storage.Segments.StagingLayout

/-!
# Staged writes

`prepare_write` walks over the records of a space from the address on. A run goes as far as the
topmost record does without another one above (`visible_run`), so that every byte goes to the
place where the topmost record of its address has it (`targets_spec`).
-/

namespace Fugue.Storage.Segments.SegmentStorageStaging

open Fugue.Lib Fugue.Ir List Bool

/-! ## One run -/

section Runs

variable {mappings : List StagedMappingRecord} {mapping : StagedMappingRecord} {a : ℕ}

/-- The topmost record at an address. -/
def visible (mappings : List StagedMappingRecord) (a : ℕ) : Option StagedMappingRecord :=
  mappings.reverse.find? fun mapping => mapping.contains a

@[simp]
theorem contains_iff :
    mapping.contains a = true ↔ mapping.range.start ≤ a ∧ a ≤ mapping.range.stop := by
  unfold StagedMappingRecord.contains
  rw [and_eq_true, decide_eq_true_iff, decide_eq_true_iff]

theorem mem_of_visible (seen : visible mappings a = some mapping) :
    mapping ∈ mappings ∧ mapping.contains a = true := by
  have contains := find?_some seen
  exact ⟨mem_reverse.mp (mem_of_find?_eq_some seen), contains⟩

theorem topmost_eq (mappings : List StagedMappingRecord) (a : ℕ) :
    topmost mappings a = (visible mappings a).map fun mapping =>
      (mapping, mappings.reverse.takeWhile fun mapping => !mapping.contains a) := by
  unfold topmost visible
  induction mappings.reverse with
  | nil => rfl
  | cons head rest ih =>
    by_cases here : head.contains a
    · simp [here]
    · simp only [here, Bool.not_false, dropWhile_cons_of_pos, find?_cons_of_neg,
        false_eq_true, not_false_eq_true, takeWhile_cons_of_pos] at ih ⊢
      revert ih
      cases List.dropWhile (fun mapping => !mapping.contains a) rest with
      | nil =>
        cases List.find? (fun mapping => mapping.contains a) rest with
        | none => exact fun _ => rfl
        | some found => exact fun ih => nomatch ih
      | cons top others =>
        cases List.find? (fun mapping => mapping.contains a) rest with
        | none => exact fun ih => nomatch ih
        | some found =>
          intro ih
          cases ih
          rfl

/-- What is seen at one address is seen at another one when the record contains it and none of those
above does. -/
theorem visible_congr {b : ℕ} (seen : visible mappings a = some mapping)
    (contains : mapping.contains b)
    (above : ∀ higher ∈ mappings.reverse.takeWhile fun mapping => !mapping.contains a,
      ¬ higher.contains b) : visible mappings b = some mapping := by
  unfold visible at seen ⊢
  generalize mappings.reverse = list at seen above ⊢
  induction list with
  | nil => cases seen
  | cons head rest ih =>
    by_cases here : head.contains a
    · rw [find?_cons, here] at seen
      cases seen
      rw [find?_cons, contains]
    · rw [not_eq_true] at here
      rw [find?_cons, here] at seen
      rw [takeWhile_cons_of_pos (by rw [here]; rfl), forall_mem_cons,
        not_eq_true] at above
      rw [find?_cons, above.1]
      exact ih seen above.2

theorem foldl_clip_le : ∀ (above : List StagedMappingRecord) (size : ℕ),
    above.foldl (clip a) size ≤ size ∧ ∀ higher ∈ above, a < higher.range.start →
      above.foldl (clip a) size ≤ higher.range.start - a := by
  intro above
  induction above with
  | nil => exact fun size => ⟨le_rfl, nofun⟩
  | cons head rest ih =>
    intro size
    obtain ⟨shorter, below⟩ := ih (clip a size head)
    rw [foldl_cons, forall_mem_cons]
    have clipped : clip a size head ≤ size := by
      unfold clip
      split <;> simp
    refine ⟨shorter.trans clipped, fun before => shorter.trans ?_, below⟩
    unfold clip
    rw [if_pos before]
    exact min_le_right _ _

theorem foldl_clip_pos : ∀ (above : List StagedMappingRecord) (size : ℕ), 0 < size →
    0 < above.foldl (clip a) size := by
  intro above
  induction above with
  | nil => exact fun size positive => positive
  | cons head rest ih =>
    intro size positive
    apply ih _
    unfold clip
    split <;> omega

theorem remainingFrom_eq_some {size : ℕ} : mapping.remainingFrom a = some size ↔
    mapping.contains a ∧ mapping.range.stop - a + 1 < 2 ^ 64 ∧
      size = mapping.range.stop - a + 1 := by
  unfold StagedMappingRecord.remainingFrom
  split
  · rename_i both
    rw [Option.some.injEq, eq_comm, and_iff_right both.1, and_iff_right both.2]
  · rename_i neither
    exact iff_of_false nofun fun ⟨contains, small, _⟩ => neither ⟨contains, small⟩

theorem visible_run {above : List StagedMappingRecord} {run size : ℕ}
    (seen : topmost mappings a = some (mapping, above)) (rest : mapping.remainingFrom a = some run)
    (le : size ≤ above.foldl (clip a) run) :
    ∀ i < size, visible mappings (a + i) = some mapping := by
  rw [topmost_eq] at seen
  obtain ⟨found, isFound, eq⟩ := Option.map_eq_some_iff.mp seen
  cases eq
  obtain ⟨contains, -, rfl⟩ := remainingFrom_eq_some.mp rest
  rw [contains_iff] at contains
  obtain ⟨shorter, before⟩ := foldl_clip_le (a := a)
    (mappings.reverse.takeWhile fun mapping => !mapping.contains a) (mapping.range.stop - a + 1)
  intro i lt
  refine visible_congr isFound (contains_iff.mpr (by omega)) fun higher mem inside => ?_
  have apart := mem_takeWhile_imp mem
  rw [not_eq_true', ← not_eq_true, contains_iff] at apart
  rw [contains_iff] at inside
  have next := before higher mem
  omega

end Runs

/-! ## One round -/

section Rounds

variable {D S E Error : Type} [SyntheticProvider D Error] {storage : SegmentStorage D S E}
  {staging : SegmentStorageStaging} {mappings : List StagedMappingRecord} {a remaining : ℕ}

/-- The topmost record puts the address at a byte of a provider. -/
def Lays (mappings : List StagedMappingRecord) (a : ℕ) (provider : SegmentStorageProviderId)
    (offset : ℕ) : Prop :=
  ∃ mapping, visible mappings a = some mapping ∧ mapping.provider = provider ∧
    mapping.offset.toNat + (a - mapping.range.start) = offset

/-- The topmost record is writable, and the provider has the byte. -/
def Writable (Error : Type) [SyntheticProvider D Error] (storage : SegmentStorage D S E)
    (staging : SegmentStorageStaging) (mappings : List StagedMappingRecord) (a : ℕ) : Prop :=
  ∃ mapping size, visible mappings a = some mapping ∧ isWritable mapping.properties = true ∧
    staging.providerSize storage Error mapping.provider = some size ∧
    mapping.offset.toNat + (a - mapping.range.start) < size

theorem nextTarget_eq_ok {provider : SegmentStorageProviderId} {offset size : ℕ}
    (call : staging.nextTarget storage Error mappings a remaining = .ok (provider, offset, size)) :
    0 < size ∧ size ≤ remaining ∧ ∀ i < size, Writable Error storage staging mappings (a + i) ∧
      Lays mappings (a + i) provider (offset + i) := by
  obtain ⟨⟨mapping, above⟩, seen, call⟩ := bind_eq_ok.mp call
  rw [orError_eq_ok] at seen
  dsimp only at call
  split at call
  · cases call
  · rename_i writable
    rw [not_eq_true, not_eq_false'] at writable
    obtain ⟨run, rest, call⟩ := bind_eq_ok.mp call
    rw [orError_eq_ok] at rest
    split at call
    · cases call
    · rename_i nonzero
      obtain ⟨start, physical, call⟩ := bind_eq_ok.mp call
      split at call
      · cases call
      · obtain ⟨held, isHeld, call⟩ := bind_eq_ok.mp call
        rw [orError_eq_ok] at isHeld
        split at call
        · cases call
        · cases call
          refine ⟨Nat.pos_of_ne_zero nonzero, min_le_right _ _, fun i lt => ?_⟩
          have same := visible_run seen rest (min_le_left _ remaining) i lt
          have place : mapping.offset.toNat + (a + i - mapping.range.start) = offset + i := by
            unfold StagedMappingRecord.physicalOffset at physical
            split at physical
            · cases physical
              omega
            · cases physical
          exact ⟨⟨mapping, held, same, writable, isHeld, by omega⟩, mapping, same, rfl, place⟩

theorem nextTarget_total
    (sized : ∀ mapping ∈ mappings, mapping.range.stop - mapping.range.start + 1 < 2 ^ 64)
    (small : ∀ provider size, staging.providerSize storage Error provider = some size →
      size < 2 ^ 64) (positive : 0 < remaining)
    (writable : ∀ i < remaining, Writable Error storage staging mappings (a + i)) :
    ∃ target, staging.nextTarget storage Error mappings a remaining = .ok target := by
  obtain ⟨mapping, held, seen, isWritable_, isHeld, fits⟩ := writable 0 positive
  rw [add_zero] at seen fits
  obtain ⟨mem, contains⟩ := mem_of_visible seen
  have top := topmost_eq mappings a
  rw [seen] at top
  have bounds := contains_iff.mp contains
  have lt := sized mapping mem
  have rest : mapping.remainingFrom a = some (mapping.range.stop - a + 1) :=
    remainingFrom_eq_some.mpr ⟨contains, by omega, rfl⟩
  have heldLt := small _ _ isHeld
  have physical : mapping.physicalOffset a =
      some (mapping.offset.toNat + (a - mapping.range.start)) := by
    unfold StagedMappingRecord.physicalOffset
    rw [if_pos ⟨bounds.1, by omega⟩]
  have length := foldl_clip_pos (a := a)
    (mappings.reverse.takeWhile fun mapping => !mapping.contains a) (mapping.range.stop - a + 1)
    (Nat.succ_pos _)
  obtain ⟨size, isSize⟩ : ∃ size, min (List.foldl (clip a) (mapping.range.stop - a + 1)
    (mappings.reverse.takeWhile fun mapping => !mapping.contains a)) remaining = size := ⟨_, rfl⟩
  -- the last byte of the run is one of this record too
  obtain ⟨last, lastHeld, lastSeen, -, isLastHeld, lastFits⟩ := writable (size - 1) (by omega)
  rw [visible_run top rest (isSize ▸ min_le_left _ remaining) (size - 1) (by omega)] at lastSeen
  cases lastSeen
  rw [isHeld] at isLastHeld
  cases isLastHeld
  refine ⟨(mapping.provider, mapping.offset.toNat + (a - mapping.range.start), size),
    bind_eq_ok.mpr ⟨_, orError_eq_ok.mpr top, ?_⟩⟩
  dsimp only
  rw [isWritable_, Bool.not_true, if_neg Bool.false_ne_true]
  refine bind_eq_ok.mpr ⟨_, orError_eq_ok.mpr rest, ?_⟩
  rw [isSize, if_neg (by omega)]
  refine bind_eq_ok.mpr ⟨_, orError_eq_ok.mpr physical, ?_⟩
  rw [if_neg (by omega)]
  refine bind_eq_ok.mpr ⟨_, orError_eq_ok.mpr isHeld, ?_⟩
  rw [if_neg (by omega)]
  rfl

/-! ## The walk -/

/-- The records follow the addresses: each byte is where the place is that the address has. -/
def Lands (place : ℕ → SegmentStorageProviderId → ℕ → Prop) :
    ℕ → List PreparedSegmentWriteRecord → Prop
  | _, [] => True
  | a, record :: records =>
    (∀ i < record.bytes.length, place (a + i) record.provider (record.offset + i)) ∧
      Lands place (a + record.bytes.length) records

/-- The records have the bytes in order, none of them is empty, and they are where the topmost
records have them. -/
theorem targets_eq_ok : ∀ (rounds a : ℕ) (bytes : List UInt8)
    (records : List PreparedSegmentWriteRecord),
    staging.targets storage Error mappings rounds a bytes = .ok records →
      (records.map PreparedSegmentWriteRecord.bytes).flatten = bytes ∧
      (∀ record ∈ records, record.bytes ≠ []) ∧ Lands (Lays mappings) a records ∧
      ∀ i < bytes.length, Writable Error storage staging mappings (a + i) := by
  intro rounds
  induction rounds with
  | zero =>
    intro a bytes records call
    cases bytes with
    | nil =>
      cases call
      exact ⟨rfl, nofun, trivial, nofun⟩
    | cons byte bytes => cases call
  | succ rounds ih =>
    intro a bytes records call
    cases bytes with
    | nil =>
      cases call
      exact ⟨rfl, nofun, trivial, nofun⟩
    | cons byte bytes =>
      rw [targets] at call
      generalize byte :: bytes = bytes at call ⊢
      obtain ⟨⟨provider, offset, size⟩, next, call⟩ := bind_eq_ok.mp call
      obtain ⟨rest, walk, call⟩ := bind_eq_ok.mp call
      cases call
      obtain ⟨positive, le, here⟩ := nextTarget_eq_ok next
      obtain ⟨contents, nonempty, lands, writable⟩ := ih _ _ _ walk
      have length : (bytes.take size).length = size := length_take_of_le le
      refine ⟨?_, ?_, ⟨?_, ?_⟩, ?_⟩
      · rw [map_cons, flatten_cons, contents, take_append_drop]
      · rw [forall_mem_cons, ← length_pos_iff, length]
        exact ⟨positive, nonempty⟩
      · rw [length]
        exact fun i lt => (here i lt).2
      · rw [length]
        exact lands
      · intro i lt
        rcases lt_or_ge i size with inside | beyond
        · exact (here i inside).1
        · have later := writable (i - size) (by rw [length_drop]; omega)
          rwa [add_assoc, Nat.add_sub_cancel' beyond] at later

/-- As many rounds as bytes are enough. -/
theorem targets_total
    (sized : ∀ mapping ∈ mappings, mapping.range.stop - mapping.range.start + 1 < 2 ^ 64)
    (small : ∀ provider size, staging.providerSize storage Error provider = some size →
      size < 2 ^ 64) :
    ∀ (rounds a : ℕ) (bytes : List UInt8), bytes.length ≤ rounds →
      (∀ i < bytes.length, Writable Error storage staging mappings (a + i)) →
      ∃ records, staging.targets storage Error mappings rounds a bytes = .ok records := by
  intro rounds
  induction rounds with
  | zero =>
    intro a bytes enough _
    rw [length_eq_zero_iff.mp (Nat.le_zero.mp enough)]
    exact ⟨[], rfl⟩
  | succ rounds ih =>
    intro a bytes enough writable
    cases bytes with
    | nil => exact ⟨[], rfl⟩
    | cons byte bytes =>
      rw [targets]
      have positive : 0 < (byte :: bytes).length := Nat.succ_pos _
      generalize byte :: bytes = bytes at *
      obtain ⟨⟨provider, offset, size⟩, next⟩ := nextTarget_total sized small positive writable
      obtain ⟨taken, le, -⟩ := nextTarget_eq_ok next
      obtain ⟨rest, walk⟩ := ih (a + size) (bytes.drop size) (by rw [length_drop]; omega)
        fun i lt => by
          rw [length_drop] at lt
          rw [add_assoc]
          exact writable (size + i) (by omega)
      exact ⟨_, bind_eq_ok.mpr ⟨_, next, bind_eq_ok.mpr ⟨_, walk, rfl⟩⟩⟩

end Rounds

/-! ## What the walk sees -/

section Seen

variable {D S E : Type} {storage : SegmentStorage D S E} {staging : SegmentStorageStaging}
  {space : AddressSpaceId} {a : ℕ} {mapping other : StagedMappingRecord}

/-- A mapping that stands in a space contains the address. -/
def CoversAt (storage : SegmentStorage D S E) (staging : SegmentStorageStaging)
    (space : AddressSpaceId) (a : ℕ) (id : SegmentMappingId) (mapping : StagedMappingRecord) :
    Prop :=
  (standingIn storage staging space id).isSome ∧ staging.stagedMapping storage id = .ok mapping ∧
    mapping.contains a = true

def TopmostAt (storage : SegmentStorage D S E) (staging : SegmentStorageStaging)
    (space : AddressSpaceId) (a : ℕ) (mapping : StagedMappingRecord) : Prop :=
  ∃ id rank, CoversAt storage staging space a id mapping ∧
    standingIn storage staging space id = some rank ∧
    ∀ other otherMapping otherRank, CoversAt storage staging space a other otherMapping →
      standingIn storage staging space other = some otherRank → otherRank ≤ rank

theorem Layers.mem_of_covers {layers : List (SegmentMappingId × StagedMappingRecord)}
    (isLayers : Layers (standingIn storage staging space) (layers.map Prod.fst))
    (each : ∀ layer ∈ layers, staging.stagedMapping storage layer.1 = .ok layer.2)
    {id : SegmentMappingId} (covers : CoversAt storage staging space a id mapping) :
    (id, mapping) ∈ layers := by
  obtain ⟨stands, recorded, -⟩ := covers
  obtain ⟨layer, mem, same⟩ := mem_map.mp ((isLayers.mem_iff id).mpr stands)
  subst same
  have held := each layer mem
  rw [recorded] at held
  cases held
  exact mem

theorem Layers.injective {place : SegmentMappingId → Option (ℤ ×ₗ ℤ)} {ids : List SegmentMappingId}
    (layers : Layers place ids) {id other : SegmentMappingId} {rank : ℤ ×ₗ ℤ}
    (stands : place id = some rank) (otherStands : place other = some rank) : id = other := by
  have mem := (layers.mem_iff id).mpr (Option.isSome_of_eq_some stands)
  have otherMem := (layers.mem_iff other).mpr (Option.isSome_of_eq_some otherStands)
  obtain ⟨i, iLt, isId⟩ := getElem_of_mem mem
  obtain ⟨j, jLt, isOther⟩ := getElem_of_mem otherMem
  subst isId isOther
  have sorted := pairwise_iff_getElem.mp layers.sorted
  rcases lt_trichotomy i j with lt | same | gt
  · obtain ⟨low, high, isLow, isHigh, below⟩ := sorted i j iLt jLt lt
    rw [isLow] at stands
    rw [isHigh, ← stands] at otherStands
    exact absurd (Option.some.inj otherStands).symm (ne_of_lt below)
  · subst same
    rfl
  · obtain ⟨low, high, isLow, isHigh, below⟩ := sorted j i jLt iLt gt
    rw [isLow] at otherStands
    rw [isHigh, ← otherStands] at stands
    exact absurd (Option.some.inj stands).symm (ne_of_lt below)

theorem Layers.topmost_unique {ids : List SegmentMappingId}
    (layers : Layers (standingIn storage staging space) ids)
    (top : TopmostAt storage staging space a mapping)
    (otherTop : TopmostAt storage staging space a other) : mapping = other := by
  obtain ⟨id, rank, covers, stands, highest⟩ := top
  obtain ⟨otherId, otherRank, otherCovers, otherStands, otherHighest⟩ := otherTop
  have same := le_antisymm (otherHighest _ _ _ covers stands)
    (highest _ _ _ otherCovers otherStands)
  rw [same] at stands
  have eq := layers.injective stands otherStands
  have recorded := covers.2.1
  rw [eq, otherCovers.2.1] at recorded
  exact (Except.ok.inj recorded).symm

/-- What the walk sees at an address is the mapping that stands highest among those that contain
it. -/
theorem visible_iff {layers : List (SegmentMappingId × StagedMappingRecord)}
    (isLayers : Layers (standingIn storage staging space) (layers.map Prod.fst))
    (each : ∀ layer ∈ layers, staging.stagedMapping storage layer.1 = .ok layer.2) :
    visible (layers.map Prod.snd) a = some mapping ↔ TopmostAt storage staging space a mapping := by
  have seen : ∀ mapping, visible (layers.map Prod.snd) a = some mapping →
      TopmostAt storage staging space a mapping := by
    intro mapping seen
    unfold visible at seen
    rw [← map_reverse, find?_map] at seen
    obtain ⟨layer, found, same⟩ := Option.map_eq_some_iff.mp seen
    subst same
    obtain ⟨contains, above, below, split, apart⟩ := find?_eq_some_iff_append.mp found
    have whole : layers = below.reverse ++ layer :: above.reverse := by
      rw [← reverse_reverse layers, split]
      simp
    have mem : layer ∈ layers := by
      rw [whole]
      exact mem_append_right _ (.head _)
    obtain ⟨rank, stands⟩ := Option.isSome_iff_exists.mp
      ((isLayers.mem_iff layer.1).mp (mem_map_of_mem mem))
    refine ⟨layer.1, rank, ⟨Option.isSome_of_eq_some stands, each layer mem, contains⟩, stands, ?_⟩
    intro other otherMapping otherRank covers otherStands
    have otherMem := isLayers.mem_of_covers each covers
    have sorted := pairwise_map.mp isLayers.sorted
    rw [whole] at otherMem sorted
    rcases mem_append.mp otherMem with lower | higher
    · obtain ⟨low, high, isLow, isHigh, lt⟩ :=
        (pairwise_append.mp sorted).2.2 _ lower layer (.head _)
      rw [otherStands] at isLow
      rw [stands] at isHigh
      cases isLow
      cases isHigh
      exact le_of_lt lt
    · rcases mem_cons.mp higher with same | higher
      · rw [← same, otherStands] at stands
        exact le_of_eq (Option.some.inj stands)
      · have misses := apart _ (mem_reverse.mp higher)
        have inside := covers.2.2
        simp [Function.comp_apply, inside, Bool.not_true, false_eq_true] at misses
  constructor
  · exact seen mapping
  · intro top
    have held := top
    obtain ⟨id, rank, covers, -⟩ := held
    have mem := mem_map_of_mem (f := Prod.snd) (isLayers.mem_of_covers each covers)
    cases found : visible (layers.map Prod.snd) a with
    | none =>
      have misses := find?_eq_none.mp found mapping (mem_reverse.mpr mem)
      exact absurd covers.2.2 misses
    | some other => rw [isLayers.topmost_unique (seen other found) top]

end Seen

end Fugue.Storage.Segments.SegmentStorageStaging
