import Fugue.Storage.Segments.ViewSpec
import Fugue.Storage.Segments.PersistRun

/-!
# What a view records of a read

`ProjectView::read_bytes` (`fugue-core/src/engine/view.rs:353-371`) records the range that begins at
the address and is as long as the count that the reader returns. The reader does not count the
addresses of gaps, so that the range is the one that was read exactly if it has no gaps
(`readBytes_recorded_iff`).
-/

namespace Fugue.Engine.ProjectView

open Fugue.Lib Fugue.Ir Fugue.Storage.Segments IntervalMap List Option OrdMap

variable {D S E Error : Type} [mapS : IntervalMap S SegmentSubMapping] [ProviderReads D Error]

/-! ## The source -/

/-- `AddressRange::point` (`address.rs:850-856`). -/
def point (address : Address) : AddressRange := ⟨address.space, address.address, address.address⟩

/-- The range of a read of so many bytes (`view.rs:362-367`). -/
def readRange (address : Address) (read : ℕ) : Option AddressRange :=
  if read = 0 then some (point address) else rangeFromSize address read

/-- `ProjectView::read_bytes` (`view.rs:353-371`): the result, the buffer, and the range that becomes
a dependency on the bytes. -/
def readBytes (storage : SegmentStorage D S E) (fillByte : UInt8) (address : Address)
    (bytes : List UInt8) :
    Option (Except (ReadError Error) ℕ × List UInt8 × Option AddressRange) := do
  match ← storage.readBytes fillByte address bytes with
  | (.error error, buffer) => return (.error error, buffer, none)
  | (.ok read, buffer) =>
    if bytes = [] then return (.ok read, buffer, none)
    else
      let range ← readRange address read
      return (.ok read, buffer, some range)

/-! ## What it stands for -/

/-- What is seen at an address of a known space: the reference there with its mapping, which says
where the bytes are, and the byte. -/
def seenAt (storage : SegmentStorage D S E) (fillByte : UInt8) (address : Address) :
    Option (Option (SegmentMappingRef × Option SegmentMapping) × UInt8) :=
  (storage.spaces.get? address.space).map fun space =>
    ((space.findContaining address.address).map fun view =>
      (view.mappingRef, (storage.validMapping view.mappingRef).map Prod.fst),
      seenByte storage fillByte space address.address)

/-- Every state that agrees on what was recorded reads the same. -/
def Recorded (storage : SegmentStorage D S E) (fillByte : UInt8) (address : Address)
    (bytes : List UInt8) : Prop :=
  ∀ (other : SegmentStorage D S E) (otherFill : UInt8), CoherentAt other address.space →
    ∀ result buffer range, readBytes storage fillByte address bytes = some (result, buffer, range) →
    (∀ recorded, range = some recorded → ∀ a, recorded.Contains a →
      seenAt other otherFill a = seenAt storage fillByte a) →
    ∀ otherResult otherBuffer otherRange,
      readBytes other otherFill address bytes = some (otherResult, otherBuffer, otherRange) →
      otherResult = result ∧ otherBuffer = buffer

/-- The read says by its arguments alone that it fails, or it is of one address, or of mapped
addresses only. -/
def Gapless (storage : SegmentStorage D S E) (address : Address) (bytes : List UInt8) : Prop :=
  bytes = [] ∨ 2 ^ 64 ≤ address.address + (bytes.length - 1) ∨
    ∃ space, storage.spaces.get? address.space = some space ∧
      (bytes.length = 1 ∨
        ∀ i, i < bytes.length → (space.findContaining (address.address + i)).isSome)

section Reading

variable {storage other : SegmentStorage D S E} {space : AddressSpace S E}
  {fillByte otherFill : UInt8} {address : Address} {bytes : List UInt8}

theorem mappedCount_le (space : AddressSpace S E) (start count : ℕ) :
    mappedCount space start count ≤ count := by
  apply countP_le_length.trans
  rw [length_range']

theorem readBytes_admitted [LawfulProviderReads D Error] (fillByte : UInt8) (coherent : Coherent storage space)
    (nonempty : bytes ≠ []) (fits : address.address + (bytes.length - 1) < 2 ^ 64)
    (found : storage.spaces.get? address.space = some space)
    (admitted : Admitted storage space address.address (address.address + bytes.length)) :
    readBytes storage fillByte address bytes =
      some (.ok (mappedCount space address.address bytes.length),
        window (seenByte storage fillByte space) address.address bytes.length,
        some ⟨address.space, address.address,
          address.address + (mappedCount space address.address bytes.length - 1)⟩) := by
  have shows := (readBytes_spec fillByte coherent nonempty fits found).1 admitted
  have counted := mappedCount_le space address.address bytes.length
  unfold readBytes
  rw [shows, some_bind]
  dsimp only
  rw [if_neg nonempty]
  generalize mappedCount space address.address bytes.length = count at *
  have ranged : readRange address count =
      some ⟨address.space, address.address, address.address + (count - 1)⟩ := by
    unfold readRange
    split
    · rename_i zero
      rw [zero]
      rfl
    · rename_i positive
      unfold rangeFromSize
      rw [if_neg positive, if_pos (by omega)]
  rw [ranged]
  rfl

theorem admitted_of_readBytes [LawfulProviderReads D Error] (coherent : Coherent storage space)
    (nonempty : bytes ≠ []) (fits : address.address + (bytes.length - 1) < 2 ^ 64)
    (found : storage.spaces.get? address.space = some space)
    (returns : (readBytes storage fillByte address bytes).isSome) :
    Admitted storage space address.address (address.address + bytes.length) := by
  by_contra refused
  have fails := (readBytes_spec fillByte coherent nonempty fits found).2 refused
  unfold readBytes at returns
  rw [fails] at returns
  cases returns

theorem readBytes_congr [LawfulProviderReads D Error] {otherSpace : AddressSpace S E}
    (found : storage.spaces.get? address.space = some space)
    (otherFound : other.spaces.get? address.space = some otherSpace) {count : ℕ}
    (agree : ∀ i, i < count → seenAt other otherFill ⟨address.space, address.address + i⟩ =
      seenAt storage fillByte ⟨address.space, address.address + i⟩) :
    mappedCount otherSpace address.address count = mappedCount space address.address count ∧
      window (seenByte other otherFill otherSpace) address.address count =
        window (seenByte storage fillByte space) address.address count := by
  have same : ∀ i, i < count →
      (otherSpace.findContaining (address.address + i)).isSome =
        (space.findContaining (address.address + i)).isSome ∧
      seenByte other otherFill otherSpace (address.address + i) =
        seenByte storage fillByte space (address.address + i) := by
    intro i lt
    have eq := agree i lt
    unfold seenAt at eq
    rw [found, otherFound] at eq
    obtain ⟨eqRef, eqByte⟩ := Prod.mk.inj (Option.some.inj eq)
    refine ⟨?_, eqByte⟩
    have eqSome := congrArg Option.isSome eqRef
    rwa [isSome_map, isSome_map] at eqSome
  constructor
  · refine countP_congr fun a mem => ?_
    obtain ⟨i, lt, rfl⟩ := mem_range'.mp mem
    rw [one_mul, (same i lt).1]
  · refine window_congr fun i from_ below => ?_
    obtain ⟨n, rfl⟩ := Nat.exists_eq_add_of_le from_
    exact (same n (by omega)).2

theorem readBytes_nil :
    readBytes storage fillByte address [] = some (.ok 0, [], none) := by
  rfl

theorem readBytes_overflow (nonempty : bytes ≠ [])
    (beyond : 2 ^ 64 ≤ address.address + (bytes.length - 1)) :
    readBytes storage fillByte address bytes = some (.error .invalidAddressRange, bytes, none) := by
  unfold readBytes SegmentStorage.readBytes
  rw [if_neg nonempty, if_pos beyond]
  rfl

theorem readBytes_unknown (nonempty : bytes ≠ [])
    (fits : address.address + (bytes.length - 1) < 2 ^ 64)
    (unknown : storage.spaces.get? address.space = none) :
    readBytes storage fillByte address bytes =
      some (.error (.unknownSpace address.space), bytes, none) := by
  unfold readBytes SegmentStorage.readBytes
  rw [if_neg nonempty, if_neg (not_le.mpr fits), unknown]
  rfl

theorem recorded_of_gapless [LawfulProviderReads D Error]
    (coherent : CoherentAt storage address.space) (gapless : Gapless storage address bytes) :
    Recorded storage fillByte address bytes := by
  intro other otherFill otherCoherent result buffer range returns agree otherResult otherBuffer
    otherRange otherReturns
  by_cases empty : bytes = []
  · subst empty
    cases returns
    cases otherReturns
    exact ⟨rfl, rfl⟩
  by_cases beyond : 2 ^ 64 ≤ address.address + (bytes.length - 1)
  · rw [readBytes_overflow empty beyond] at returns otherReturns
    cases returns
    cases otherReturns
    exact ⟨rfl, rfl⟩
  have fits := Nat.lt_of_not_le beyond
  obtain ⟨space, found, mapped⟩ := (gapless.resolve_left empty).resolve_left beyond
  have length := length_pos_iff.mpr empty
  have admitted := admitted_of_readBytes (coherent space found).2 empty fits found
    (isSome_of_eq_some returns)
  rw [readBytes_admitted _ (coherent space found).2 empty fits found admitted] at returns
  cases returns
  have agreed : ∀ i, i < bytes.length →
      seenAt other otherFill ⟨address.space, address.address + i⟩ =
        seenAt storage fillByte ⟨address.space, address.address + i⟩ := by
    intro i lt
    refine agree _ rfl _ ⟨rfl, Nat.le_add_right _ _, ?_⟩
    rcases mapped with single | all
    · dsimp only
      omega
    · have whole : mappedCount space address.address bytes.length =
          if true then bytes.length else 0 := mappedCount_of_all all
      rw [whole, if_pos rfl]
      dsimp only
      omega
  obtain ⟨otherSpace, otherFound⟩ : ∃ otherSpace,
      other.spaces.get? address.space = some otherSpace := by
    have first := agreed 0 length
    unfold seenAt at first
    rw [found] at first
    obtain ⟨otherSpace, otherFound, -⟩ := map_eq_some_iff.mp first
    exact ⟨otherSpace, otherFound⟩
  have otherAdmitted := admitted_of_readBytes (otherCoherent otherSpace otherFound).2 empty fits
    otherFound (isSome_of_eq_some otherReturns)
  rw [readBytes_admitted _ (otherCoherent otherSpace otherFound).2 empty fits otherFound
    otherAdmitted] at otherReturns
  cases otherReturns
  obtain ⟨counts, contents⟩ := readBytes_congr found otherFound agreed
  rw [counts, contents]
  exact ⟨rfl, rfl⟩

end Reading

/-! ## A state that differs at one address -/

section Flipping

variable {storage : SegmentStorage D S E} {space : AddressSpace S E} {z : ℕ}

/-- The submappings are those of the space but for one address, which is mapped if it was not and
not mapped if it was. -/
structure Flips (storage : SegmentStorage D S E) (space : AddressSpace S E) (z : ℕ)
    (submaps : S) : Prop where
  coherent : Coherent storage { space with submaps }
  elsewhere : ∀ a, a ≠ z → (({ space with submaps } : AddressSpace S E).findContaining a).map
    SegmentSubMapping.mappingRef = (space.findContaining a).map SegmentSubMapping.mappingRef
  here : (({ space with submaps } : AddressSpace S E).findContaining z).isSome =
    !(space.findContaining z).isSome
  admitted : ∀ start, Admitted storage space start (z + 1) →
    Admitted storage { space with submaps } start (z + 1)

omit [ProviderReads D Error] in
theorem findContaining_ref (apart : Apart space.submaps) {a : ℕ} {mappingRef : SegmentMappingRef} :
    (space.findContaining a).map SegmentSubMapping.mappingRef = some mappingRef ↔
      ∃ x ∈ entries space.submaps, Within x.1 a ∧ x.2.mappingRef = mappingRef := by
  rw [map_eq_some_iff]
  constructor
  · rintro ⟨view, found, rfl⟩
    obtain ⟨x, mem, within, rfl⟩ := (findContaining_eq_some apart).mp found
    exact ⟨x, mem, within, rfl⟩
  · rintro ⟨x, mem, within, rfl⟩
    exact ⟨x.2, (findContaining_eq_some apart).mpr ⟨x, mem, within, rfl⟩, rfl⟩

theorem flips_mapped (coherent : Coherent storage space)
    (mapped : (space.findContaining z).isSome) : ∃ submaps, Flips storage space z submaps := by
  obtain ⟨view, found⟩ := isSome_iff_exists.mp mapped
  obtain ⟨x, mem, within, -⟩ := (findContaining_eq_some coherent.submapped.apart).mp found
  have low : x.1.1 ≤ z := within.1
  have high : z ≤ x.1.2 := within.2
  obtain ⟨kept, parts⟩ := cutView_spec coherent.submapped
    (rfl : (⟨space.id, z, z⟩ : AddressRange).space = space.id) mem high low le_rfl
  have others : ∀ y ∈ entries space.submaps, y ≠ x → ¬ Within y.1 z := fun y yMem ne inside =>
    ne (coherent.submapped.apart.eq_of_common yMem mem inside within)
  dsimp only at parts
  refine ⟨AddressSpace.cutView ⟨space.id, z, z⟩ space.submaps x,
    ⟨⟨kept, fun y yMem => ?_, fun y yMem mapping provider valid => ?_⟩, fun a ne => ?_, ?_,
    fun start admitted y yMem below upTo => ?_⟩⟩
  · have sized := coherent.sized x mem
    rcases (parts y).mp yMem with ⟨-, rfl⟩ | ⟨-, rfl⟩ | ⟨old, -⟩
    · dsimp only [piece]
      omega
    · dsimp only [piece]
      omega
    · exact coherent.sized y old
  · rcases (parts y).mp yMem with ⟨-, rfl⟩ | ⟨-, rfl⟩ | ⟨old, -⟩
    · have := coherent.within x mem mapping provider valid
      dsimp only [piece]
      omega
    · exact coherent.within x mem mapping provider valid
    · exact coherent.within y old mapping provider valid
  · refine Option.ext fun mappingRef => ?_
    rw [findContaining_ref kept.apart, findContaining_ref coherent.submapped.apart]
    constructor
    · rintro ⟨y, yMem, inside, rfl⟩
      obtain ⟨inLow, inHigh⟩ := inside
      rcases (parts y).mp yMem with ⟨-, rfl⟩ | ⟨-, rfl⟩ | ⟨old, -⟩
      · dsimp only [piece] at inLow inHigh
        exact ⟨x, mem, ⟨by omega, by omega⟩, rfl⟩
      · dsimp only [piece] at inLow inHigh
        exact ⟨x, mem, ⟨by omega, by omega⟩, rfl⟩
      · exact ⟨y, old, ⟨inLow, inHigh⟩, rfl⟩
    · rintro ⟨y, yMem, inside, rfl⟩
      by_cases same : y = x
      · subst same
        obtain ⟨inLow, inHigh⟩ := inside
        rcases Nat.lt_or_gt_of_ne ne with before | after
        · exact ⟨_, (parts _).mpr (.inr (.inl ⟨by omega, rfl⟩)),
            ⟨inLow, Nat.le_sub_one_of_lt before⟩, rfl⟩
        · exact ⟨_, (parts _).mpr (.inl ⟨by omega, rfl⟩), ⟨after, inHigh⟩, rfl⟩
      · exact ⟨y, (parts y).mpr (.inr (.inr ⟨yMem, same⟩)), inside, rfl⟩
  · rw [mapped, Bool.not_true, isSome_eq_false_iff, isNone_iff_eq_none]
    by_contra some_
    obtain ⟨other, otherFound⟩ := ne_none_iff_exists'.mp some_
    obtain ⟨y, yMem, ⟨inLow, inHigh⟩, -⟩ := (findContaining_eq_some kept.apart).mp otherFound
    rcases (parts y).mp yMem with ⟨-, rfl⟩ | ⟨before, rfl⟩ | ⟨old, ne⟩
    · dsimp only [piece] at inLow
      omega
    · dsimp only [piece] at inHigh
      omega
    · exact others y old ne ⟨inLow, inHigh⟩
  · rcases (parts y).mp yMem with ⟨-, rfl⟩ | ⟨-, rfl⟩ | ⟨old, -⟩
    · dsimp only [piece] at below
      omega
    · have reach : start ≤ x.1.2 := by omega
      exact admitted x mem below reach
    · exact admitted y old below upTo

theorem exists_fresh (mappings : OrdMap SegmentMappingId SegmentMapping) :
    ∃ id, mappings.get? id = none := by
  obtain ⟨id, fresh⟩ := Infinite.exists_notMem_finset (mappings.entries.map Prod.fst).toFinset
  refine ⟨id, get?_eq_none.mpr fun mapping mem => fresh ?_⟩
  exact List.mem_toFinset.mpr (List.mem_map_of_mem mem)

theorem flips_gap (coherent : Coherent storage space) (small : z < 2 ^ 64)
    (gap : space.findContaining z = none) : ∃ submaps, Flips storage space z submaps := by
  obtain ⟨id, fresh⟩ := exists_fresh storage.mappings
  have clear : Apart.Clear space.submaps (z, z) := by
    intro x mem
    by_contra inside
    have found := coherent.findContaining mem (show Within x.1 z from ⟨by omega, by omega⟩)
    rw [gap] at found
    cases found
  let view : SegmentSubMapping := ⟨⟨id, 0⟩, ⟨space.id, z, z⟩, 0⟩
  have invalid : storage.validMapping view.mappingRef = none := by
    unfold SegmentStorage.validMapping
    rw [fresh]
    rfl
  obtain ⟨kept, parts⟩ := coherent.submapped.insert (x := ((z, z), view)) ⟨rfl, rfl, small⟩ le_rfl
    clear
  refine ⟨IntervalMap.insert space.submaps (z, z) view,
    ⟨⟨kept, fun y mem => ?_, fun y mem mapping provider valid => ?_⟩, fun a ne => ?_, ?_,
    fun start admitted y mem below upTo => ?_⟩⟩
  · rcases (parts y).mp mem with rfl | old
    · dsimp only
      omega
    · exact coherent.sized y old
  · rcases (parts y).mp mem with rfl | old
    · rw [invalid] at valid
      cases valid
    · exact coherent.within y old mapping provider valid
  · refine Option.ext fun mappingRef => ?_
    rw [findContaining_ref kept.apart, findContaining_ref coherent.submapped.apart]
    constructor
    · rintro ⟨y, mem, inside, rfl⟩
      rcases (parts y).mp mem with rfl | old
      · exact absurd (le_antisymm inside.2 inside.1) ne
      · exact ⟨y, old, inside, rfl⟩
    · rintro ⟨y, mem, inside, rfl⟩
      exact ⟨y, (parts y).mpr (.inr mem), inside, rfl⟩
  · rw [gap]
    exact isSome_iff_exists.mpr ⟨view, (findContaining_eq_some kept.apart).mpr
      ⟨((z, z), view), (parts _).mpr (.inl rfl), ⟨le_rfl, le_rfl⟩, rfl⟩⟩
  · rcases (parts y).mp mem with rfl | old
    · intro mapping provider valid
      rw [invalid] at valid
      cases valid
    · exact admitted y old below upTo

theorem exists_flips (coherent : Coherent storage space) (small : z < 2 ^ 64) :
    ∃ submaps, Flips storage space z submaps := by
  cases found : space.findContaining z with
  | none => exact flips_gap coherent small found
  | some view => exact flips_mapped coherent (by rw [found]; rfl)

theorem Flips.mappedCount_ne {submaps : S} (flips : Flips storage space z submaps) {start n : ℕ}
    (last : start + n = z) :
    mappedCount ({ space with submaps } : AddressSpace S E) start (n + 1) ≠
      mappedCount space start (n + 1) := by
  have before : mappedCount ({ space with submaps } : AddressSpace S E) start n =
      mappedCount space start n := by
    refine countP_congr fun a mem => ?_
    obtain ⟨i, lt, rfl⟩ := mem_range'.mp mem
    have same := congrArg Option.isSome (flips.elsewhere (start + 1 * i) (by omega))
    rw [isSome_map, isSome_map] at same
    rw [same]
  have single : ∀ held : AddressSpace S E, mappedCount held (start + n) 1 =
      if (held.findContaining z).isSome then 1 else 0 := by
    intro held
    refine mappedCount_of_all fun i lt => ?_
    rw [show start + n + i = z by omega]
  rw [mappedCount_add, mappedCount_add, before, single, single, flips.here]
  cases (space.findContaining z).isSome <;> simp

end Flipping

section Exactly

variable [mapE : IntervalMap E SegmentMappingId] {storage : SegmentStorage D S E} {fillByte : UInt8}
  {address : Address} {bytes : List UInt8}

def withSubmaps (storage : SegmentStorage D S E) (id : AddressSpaceId) (space : AddressSpace S E)
    (submaps : S) : SegmentStorage D S E :=
  { storage with spaces := storage.spaces.insert id { space with submaps } }

omit mapE in
theorem seenAt_withSubmaps (fillByte : UInt8) {space : AddressSpace S E} {submaps : S} {z : ℕ}
    (flips : Flips storage space z submaps)
    (found : storage.spaces.get? address.space = some space) (a : ℕ) (ne : a ≠ z) :
    seenAt (withSubmaps storage address.space space submaps) fillByte ⟨address.space, a⟩ =
      seenAt storage fillByte ⟨address.space, a⟩ := by
  have same := flips.elsewhere a ne
  unfold seenAt withSubmaps
  rw [get?_insert_self, found, map_some, map_some]
  unfold seenByte
  cases before : space.findContaining a with
  | none =>
    rw [before, map_none, map_eq_none_iff] at same
    rw [same]
    rfl
  | some view =>
    rw [before, map_some] at same
    obtain ⟨after, afterFound, afterRef⟩ := map_eq_some_iff.mp same
    rw [afterFound, map_some, map_some]
    dsimp only
    rw [afterRef]
    rfl

theorem gapless_of_recorded [LawfulProviderReads D Error]
    (coherent : CoherentAt storage address.space)
    (returns : (readBytes storage fillByte address bytes :
      Option (Except (ReadError Error) ℕ × List UInt8 × Option AddressRange)).isSome)
    (recorded : Recorded storage fillByte address bytes) : Gapless storage address bytes := by
  by_contra gaps
  obtain ⟨empty, rest⟩ := not_or.mp gaps
  obtain ⟨beyond, unmapped⟩ := not_or.mp rest
  have fits := Nat.lt_of_not_le beyond
  have length := length_pos_iff.mpr empty
  cases found : storage.spaces.get? address.space with
  | none =>
    -- a state with an empty space reads the fill byte
    let space : AddressSpace S E := .newWith address.space .base
    let other := { storage with spaces := storage.spaces.insert address.space space }
    have otherFound : other.spaces.get? address.space = some space := get?_insert_self
    have coherentSpace : Coherent other space := by
      refine ⟨submapped_new, fun x mem => ?_, fun x mem => ?_⟩
      all_goals
        change x ∈ entries IntervalMap.new at mem
        rw [entries_new] at mem
        cases mem
    have admitted : Admitted other space address.address (address.address + bytes.length) := by
      intro x mem
      change x ∈ entries IntervalMap.new at mem
      rw [entries_new] at mem
      cases mem
    have otherRun := readBytes_admitted fillByte coherentSpace empty fits otherFound
      admitted
    obtain ⟨same, -⟩ := recorded other fillByte (fun held heldFound => by
      rw [otherFound] at heldFound
      cases heldFound
      exact ⟨rfl, coherentSpace⟩) _ _ _ (readBytes_unknown empty fits found)
      (fun _ none_ => nomatch none_) _ _ _ otherRun
    cases same
  | some space =>
    have coherentSpace := (coherent space found).2
    have admitted := admitted_of_readBytes coherentSpace empty fits found returns
    obtain ⟨submaps, flips⟩ := exists_flips coherentSpace fits
    have otherFound : (withSubmaps storage address.space space submaps).spaces.get?
        address.space = some { space with submaps } := get?_insert_self
    have otherCoherent : Coherent (withSubmaps storage address.space space submaps)
        { space with submaps } :=
      ⟨flips.coherent.submapped, flips.coherent.sized, flips.coherent.within⟩
    have ends : address.address + (bytes.length - 1) + 1 = address.address + bytes.length := by
      omega
    have otherAdmitted := flips.admitted address.address
    rw [ends] at otherAdmitted
    have run := readBytes_admitted fillByte coherentSpace empty fits found admitted
    have otherRun := readBytes_admitted fillByte otherCoherent empty fits otherFound
      (otherAdmitted admitted)
    -- the count leaves out the gap, so the last address is not recorded
    have short : mappedCount space address.address bytes.length - 1 < bytes.length - 1 := by
      have counted := mappedCount_le space address.address bytes.length
      have missing : mappedCount space address.address bytes.length ≠ bytes.length := by
        intro whole
        refine unmapped ⟨space, found, .inr fun i lt => ?_⟩
        have all := countP_eq_length.mp (whole.trans length_range'.symm)
        exact all _ (mem_range'.mpr ⟨i, lt, by rw [one_mul]⟩)
      have several : bytes.length ≠ 1 := fun single => unmapped ⟨space, found, .inl single⟩
      omega
    obtain ⟨same, -⟩ := recorded _ fillByte (fun held heldFound => by
      rw [otherFound] at heldFound
      cases heldFound
      exact ⟨(coherent space found).1, otherCoherent⟩) _ _ _ run (fun range eq a inside => by
        cases eq
        obtain ⟨sameSpace, from_, upTo⟩ := inside
        dsimp only at sameSpace upTo
        have seen := seenAt_withSubmaps fillByte flips found a.address (by omega)
        rwa [sameSpace] at seen ⊢) _ _ _ otherRun
    apply flips.mappedCount_ne (n := bytes.length - 1) rfl
    rw [Nat.sub_add_cancel length]
    exact Except.ok.inj same

/-- The range that is recorded covers what was read exactly for the reads without gaps. -/
theorem readBytes_recorded_iff [LawfulProviderReads D Error]
    (coherent : CoherentAt storage address.space)
    (returns : (readBytes storage fillByte address bytes).isSome) :
    Recorded storage fillByte address bytes ↔ Gapless storage address bytes :=
  ⟨gapless_of_recorded coherent returns, recorded_of_gapless coherent⟩

end Exactly

/-! ## A storage with a gap -/

instance listReads : ProviderReads (List UInt8) Unit where
  size := List.length
  viewBytes bytes offset count := .ok (.contiguous ((bytes.drop offset).take count))
  viewBytesFrom bytes offset := .ok (.contiguous (bytes.drop offset))
  cell bytes offset := bytes[offset]?

instance lawfulListReads : LawfulProviderReads (List UInt8) Unit where
  viewBytes_ok bytes offset count positive fits := by
    change offset + count ≤ bytes.length at fits
    refine ⟨_, rfl, fun buffer fill enough => ?_⟩
    have length : ((bytes.drop offset).take count).length = count := by
      rw [length_take, length_drop]
      omega
    have contents : (bytes.drop offset).take count =
        window (fun i => (bytes[offset + i]?).getD fill) 0 count := by
      refine eq_window length fun i lt => ?_
      rw [getElem?_take_of_lt lt, getElem?_drop, zero_add,
        getElem?_eq_getElem (show offset + i < bytes.length by omega), getD_some]
    have chunks : (SegmentView.contiguous ((bytes.drop offset).take count)).chunks =
        [(0, (bytes.drop offset).take count)] := by
      unfold SegmentView.contiguous SegmentView.push
      rw [if_neg fun empty => by rw [empty, length_nil] at length; omega]
      rfl
    unfold SegmentView.readIntoWithFill
    rw [chunks]
    change (if buffer.length ≤ ((bytes.drop offset).take count).length then
        some (((bytes.drop offset).take count).take buffer.length)
      else [(0, (bytes.drop offset).take count)].foldlM SegmentView.readChunk
        (List.replicate buffer.length fill)) = _
    rw [length]
    split
    · rename_i whole
      rw [contents, take_window whole]
      congr 1
      refine window_congr fun i _ below => ?_
      rw [if_pos (by omega)]
      rfl
    · rw [foldlM_cons]
      unfold SegmentView.readChunk
      rw [length_replicate, if_neg (by omega)]
      dsimp only
      rw [length, take_of_length_le (by omega), contents, replicate_eq_window fill,
        show window (fun i => (bytes[offset + i]?).getD fill) 0 count =
          window (fun i => (bytes[offset + i]?).getD fill) (0 + 0) count from rfl,
        copyAt_window (by omega), some_bind]
      change some _ = some _
      congr 1
      refine window_congr fun i _ below => ?_
      unfold patch
      dsimp only
      refine if_congr ?_ rfl rfl
      omega

/-- Two mappings of a provider with a gap between them. -/
def gapped (bytes : List UInt8) : List (SegmentStorage.Operation (List UInt8)) :=
  [.openProvider bytes, .createMapping 0 ⟨0, 0⟩ 2 0 1, .createMapping 0 ⟨0, 4⟩ 2 2 1,
    .addMappingToSpaceAt 0 0 .top, .addMappingToSpaceAt 0 1 .top]

def gappedStorage (bytes : List UInt8) : ListStorage :=
  ((SegmentStorage.run Unit (gapped bytes)).toOption).getD .empty

theorem run_gapped : (SegmentStorage.run Unit (gapped [10, 11, 12, 13]) : Except _ ListStorage) =
      .ok (gappedStorage [10, 11, 12, 13]) ∧
    (SegmentStorage.run Unit (gapped [10, 11, 99, 13]) : Except _ ListStorage) =
      .ok (gappedStorage [10, 11, 99, 13]) := ⟨rfl, rfl⟩

/-- The read of two mapped bytes, a gap of two and two more mapped bytes records the first four
addresses, and the fifth byte can be another one. -/
theorem readBytes_records_less_than_it_reads :
    (SegmentStorage.run Unit (gapped [10, 11, 12, 13]) : Except _ ListStorage) =
      .ok (gappedStorage [10, 11, 12, 13]) ∧
    readBytes (gappedStorage [10, 11, 12, 13]) 0 ⟨0, 0⟩ (List.replicate 6 0) =
      some (.ok 4, [10, 11, 0, 0, 12, 13], some ⟨0, 0, 3⟩) ∧
    ¬ Recorded (gappedStorage [10, 11, 12, 13]) 0 ⟨0, 0⟩ (List.replicate 6 0) := by
  refine ⟨rfl, rfl, fun recorded => ?_⟩
  have agree : ∀ i, i ≤ 3 → seenAt (gappedStorage [10, 11, 99, 13]) 0 ⟨0, i⟩ =
      seenAt (gappedStorage [10, 11, 12, 13]) 0 ⟨0, i⟩ := by
    intro i le
    interval_cases i <;> rfl
  obtain ⟨-, buffer⟩ := recorded (gappedStorage [10, 11, 99, 13]) 0
    (run_coherentAt Unit (gapped [10, 11, 99, 13]) run_gapped.2 0) (.ok 4) [10, 11, 0, 0, 12, 13]
    (some ⟨0, 0, 3⟩) rfl (fun range eq a inside => by
      cases eq
      obtain ⟨space, -, upTo⟩ := inside
      obtain ⟨held, address⟩ := a
      obtain rfl : 0 = held := space
      exact agree address upTo) (.ok 4) [10, 11, 0, 0, 99, 13] (some ⟨0, 0, 3⟩) rfl
  exact absurd buffer (by decide)

/-- The read of the first two bytes has no gap. -/
theorem readBytes_recorded_iff_gapped :
    Recorded (gappedStorage [10, 11, 12, 13]) 0 ⟨0, 0⟩ [0, 0] :=
  (readBytes_recorded_iff (run_coherentAt Unit (gapped [10, 11, 12, 13]) run_gapped.1 0) rfl).mpr
    (.inr (.inr ⟨_, rfl, .inr fun i lt => by
      change i < 2 at lt
      interval_cases i <;> rfl⟩))

end Fugue.Engine.ProjectView
