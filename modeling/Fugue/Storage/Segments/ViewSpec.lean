import Fugue.Storage.Segments.View

/-!
# What the reader of a space reads

One round of the reader takes the rest of a submapping or of a gap (`readLoop_round`). A read returns
the byte that is seen at each address and counts those that are mapped; it stops only where the
offset of a mapping overflows (`readLoop_ok`, `admitted_of_readLoop`).
-/

namespace Fugue.Storage.Segments

open Fugue.Lib Fugue.Ir IntervalMap List Option SegmentStorage

variable {D S E Error : Type} [IntervalMap S SegmentSubMapping] [ProviderReads D Error]
  {storage : SegmentStorage D S E} {space : AddressSpace S E} {fillByte : UInt8}
  {x : (ℕ × ℕ) × SegmentSubMapping} {current : ℕ}

/-! ## One submapping -/

section

variable (coherent : Coherent storage space)
include coherent

theorem Coherent.findContaining (mem : x ∈ entries space.submaps)
    (within : Within x.1 current) : space.findContaining current = some x.2 :=
  (findContaining_eq_some coherent.submapped.apart).mpr ⟨x, mem, within, rfl⟩

theorem Coherent.remainingFrom (mem : x ∈ entries space.submaps) (within : Within x.1 current) :
    remainingFrom x.2.range ⟨space.id, current⟩ = some (x.1.2 - current + 1) := by
  obtain ⟨key, id, -⟩ := coherent.submapped.keyed x mem
  have sized := coherent.sized x mem
  have start : x.2.range.start = x.1.1 := (congrArg Prod.fst key).symm
  have stop : x.2.range.stop = x.1.2 := (congrArg Prod.snd key).symm
  obtain ⟨low, high⟩ := within
  unfold Segments.remainingFrom
  rw [if_pos]
  · rw [stop]
  · refine ⟨AddressRange.containsAddress_iff.mpr ⟨id, ?_, ?_⟩, ?_⟩
    · rw [start]
      exact low
    · rw [stop]
      exact high
    · dsimp only
      omega

theorem readBytes_mapped [LawfulProviderReads D Error] {mapping : SegmentMapping} {provider : D}
    {n : ℕ} {buffer : List UInt8} (mem : x ∈ entries space.submaps) (within : Within x.1 current)
    (inMapping : mapping.range.start ≤ current) (readable : isReadable mapping.properties = true)
    (length : buffer.length = n) (positive : 0 < n) (fits : n ≤ x.1.2 - current + 1) :
    (SegmentMappingView.new mapping provider x.2 fillByte).readBytes ⟨space.id, current⟩ buffer =
      if mapping.place current < 2 ^ 64 then
        some (.ok n, window (mappedByte fillByte mapping provider) current n)
      else none := by
  have remaining := coherent.remainingFrom mem within
  have contains : x.2.range.containsAddress ⟨space.id, current⟩ = true := by
    unfold Segments.remainingFrom at remaining
    split at remaining
    · rename_i inside
      exact inside.1
    · cases remaining
  have nonempty : buffer ≠ [] := by
    intro empty
    rw [empty, length_nil] at length
    omega
  have whole : min n (x.1.2 - current + 1) = n := min_eq_left fits
  have offset : mapping.toOffset current =
      if mapping.place current < 2 ^ 64 then some (mapping.place current) else none := by
    exact if_congr (and_iff_right inMapping) rfl rfl
  unfold SegmentMappingView.readBytes
  rw [if_neg nonempty, if_pos (by exact contains)]
  change (Segments.remainingFrom x.2.range ⟨space.id, current⟩ >>= _) = _
  rw [remaining, some_bind]
  change (mapping.toOffset current >>= _) = _
  rw [offset]
  split
  · rw [some_bind, length, whole]
    change (if min (ProviderReads.size provider - mapping.place current) n = 0 then _ else _) = _
    have dropped : buffer.drop n = [] := drop_eq_nil_of_le length.le
    have taken : buffer.take n = buffer := take_of_length_le length.le
    have placed : ∀ i, mapping.place (current + i) = mapping.place current + i := by
      unfold SegmentMapping.place
      omega
    have bytes : ∀ i, mappedByte fillByte mapping provider (current + i) =
        if i < ProviderReads.size provider - mapping.place current then
          (ProviderReads.cell provider (mapping.place current + i)).getD fillByte
        else fillByte := by
      intro i
      unfold mappedByte
      rw [placed]
      refine if_congr ?_ rfl rfl
      rw [and_iff_right readable]
      omega
    split
    · rw [dropped, append_nil]
      change some (Except.ok n, List.replicate n fillByte) = _
      congr 2
      refine eq_window length_replicate fun i lt => ?_
      rw [getElem?_replicate, if_pos lt, bytes, if_neg (by omega)]
    · obtain ⟨found, view, shows⟩ := LawfulProviderReads.viewBytes_ok provider
        (mapping.place current) (min (ProviderReads.size provider - mapping.place current) n)
        (by omega) (by omega)
      rw [show (SegmentMappingView.new mapping provider x.2 fillByte).provider = provider from rfl,
        view, taken]
      dsimp only
      rw [show (SegmentMappingView.new mapping provider x.2 fillByte).fillByte = fillByte from rfl,
        shows buffer fillByte (by omega), some_bind, dropped,
        append_nil, length]
      congr 2
      refine eq_window length_window fun i lt => ?_
      rw [getElem?_window, if_pos lt, bytes, zero_add]
      congr 1
      refine if_congr ?_ rfl rfl
      omega
  · rfl

omit coherent in
theorem readView_spec [LawfulProviderReads D Error] (fillByte : UInt8) {n : ℕ}
    {buffer : List UInt8} (coherent : Coherent storage space) (mem : x ∈ entries space.submaps)
    (within : Within x.1 current) (length : buffer.length = n) (positive : 0 < n)
    (fits : n ≤ x.1.2 - current + 1) :
    (Admits storage x current → storage.readView fillByte x.2 ⟨space.id, current⟩ buffer =
      some (.ok n, window (seenByte storage fillByte space) current n)) ∧
    (¬ Admits storage x current →
      storage.readView fillByte x.2 ⟨space.id, current⟩ buffer = none) := by
  have located : ∀ i, i < n → space.findContaining (current + i) = some x.2 := by
    intro i lt
    have low : x.1.1 ≤ current := within.1
    have high : current ≤ x.1.2 := within.2
    exact coherent.findContaining mem ⟨by omega, by omega⟩
  unfold readView
  unfold Admits
  cases found : storage.validMapping x.2.mappingRef with
  | none =>
    refine ⟨fun _ => ?_, fun refused => absurd nofun refused⟩
    dsimp only
    rw [length]
    congr 2
    refine eq_window length_replicate fun i lt => ?_
    rw [getElem?_replicate, if_pos lt]
    simp [seenByte, located i lt, found]
  | some pair =>
    obtain ⟨mapping, provider⟩ := pair
    have seen : ∀ i, i < n → seenByte storage fillByte space (current + i) =
        mappedByte fillByte mapping provider (current + i) := by
      intro i lt
      simp [seenByte, located i lt, found]
    dsimp only
    by_cases readable : isReadable mapping.properties = true
    · have inMapping := (coherent.within x mem mapping provider found).trans within.1
      rw [if_pos readable,
        readBytes_mapped coherent mem within inMapping readable length positive fits]
      constructor
      · intro admits
        rw [if_pos (admits mapping provider rfl readable)]
        congr 2
        refine eq_window length_window fun i lt => ?_
        rw [getElem?_window, if_pos lt, seen i lt]
      · intro refused
        refine if_neg fun small => refused fun other otherProvider same _ => ?_
        cases same
        exact small
    · rw [if_neg readable]
      refine ⟨fun _ => ?_, fun refused => absurd ?_ refused⟩
      · rw [length]
        congr 2
        refine eq_window length_replicate fun i lt => ?_
        rw [getElem?_replicate, if_pos lt, seen i lt, mappedByte,
          if_neg fun both => readable both.1]
      · intro other otherProvider same otherReadable
        cases same
        exact absurd otherReadable readable

/-! ## One round -/

theorem gapLenAt_spec {remaining : ℕ}
    (gap : space.findContaining current = none) (positive : 0 < remaining) :
    0 < space.gapLenAt current remaining ∧ space.gapLenAt current remaining ≤ remaining ∧
      ∀ x ∈ entries space.submaps, current ≤ x.1.2 →
        current + space.gapLenAt current remaining ≤ x.1.1 := by
  have later : ∀ x ∈ entries space.submaps, current ≤ x.1.2 → current < x.1.1 := by
    intro x mem upTo
    by_contra before
    have found := coherent.findContaining mem (show Within x.1 current from ⟨by omega, upTo⟩)
    rw [gap] at found
    cases found
  have starts : ∀ x ∈ entries space.submaps, x.2.range.start = x.1.1 := fun x mem =>
    (congrArg Prod.fst (coherent.submapped.keyed x mem).1).symm
  have listed : ∀ x ∈ entries space.submaps, current ≤ x.1.2 →
      x ∈ iter space.submaps (current, 2 ^ 64 - 1) := by
    intro x mem upTo
    have proper := coherent.submapped.apart.nonempty x mem
    have small := (coherent.submapped.keyed x mem).2.2
    refine mem_iter.mpr ⟨mem, ?_, upTo⟩
    omega
  unfold AddressSpace.gapLenAt
  cases entered : iter space.submaps (current, 2 ^ 64 - 1) with
  | nil =>
    refine ⟨positive, le_rfl, fun x mem upTo => ?_⟩
    have member := listed x mem upTo
    rw [entered] at member
    cases member
  | cons first rest =>
    -- the entries come in the order of their starts, and all of them start after the gap
    have member : first ∈ iter space.submaps (current, 2 ^ 64 - 1) := by
      rw [entered]
      exact .head _
    obtain ⟨mem, -, upTo⟩ := mem_iter.mp member
    have after := later first mem upTo
    have sorted := sorted_iter space.submaps (current, 2 ^ 64 - 1)
    rw [entered] at sorted
    rw [map_cons, find?_cons_of_pos (by
      rw [starts first mem]
      exact decide_eq_true after)]
    dsimp only
    rw [starts first mem]
    refine ⟨by omega, by omega, fun x xMem xUpTo => ?_⟩
    have member := listed x xMem xUpTo
    rw [entered] at member
    rcases mem_cons.mp member with rfl | inRest
    · omega
    · have := rel_of_pairwise_cons sorted inRest
      omega

omit coherent in
theorem mappedCount_add (n m : ℕ) :
    mappedCount space current (n + m) = mappedCount space current n +
      mappedCount space (current + n) m := by
  unfold mappedCount
  rw [← countP_append, range'_append_1]

omit coherent in
theorem mappedCount_of_all {n : ℕ} {mapped : Bool}
    (all : ∀ i, i < n → (space.findContaining (current + i)).isSome = mapped) :
    mappedCount space current n = if mapped then n else 0 := by
  unfold mappedCount
  cases mapped with
  | true =>
    rw [if_pos rfl, countP_eq_length.mpr, length_range']
    intro address mem
    obtain ⟨i, lt, rfl⟩ := mem_range'.mp mem
    rw [one_mul]
    exact all i lt
  | false =>
    rw [if_neg Bool.false_ne_true, countP_eq_zero]
    intro address mem
    obtain ⟨i, lt, rfl⟩ := mem_range'.mp mem
    rw [one_mul, all i lt]
    exact Bool.false_ne_true

theorem Coherent.admitted_gap {n stop : ℕ}
    (clear : ∀ x ∈ entries space.submaps, current ≤ x.1.2 → current + n ≤ x.1.1) :
    Admitted storage space current stop ↔ Admitted storage space (current + n) stop := by
  constructor
  · intro admitted x mem below upTo
    have := clear x mem (by omega)
    have admits := admitted x mem (by omega) (by omega)
    rwa [show max x.1.1 (current + n) = max x.1.1 current by omega]
  · intro admitted x mem below upTo
    have := clear x mem upTo
    have := coherent.submapped.apart.nonempty x mem
    have admits := admitted x mem (by omega) (by omega)
    rwa [show max x.1.1 current = max x.1.1 (current + n) by omega]

theorem Coherent.admitted_entry {n remaining : ℕ}
    (mem : x ∈ entries space.submaps) (within : Within x.1 current) (positive : 0 < remaining)
    (rest : n = min remaining (x.1.2 - current + 1)) :
    Admitted storage space current (current + remaining) ↔
      Admits storage x current ∧ Admitted storage space (current + n) (current + remaining) := by
  have low : x.1.1 ≤ current := within.1
  have high : current ≤ x.1.2 := within.2
  have atCurrent : max x.1.1 current = current := max_eq_right low
  -- an entry that reaches to the address starts after this one, or is this one
  have apart : ∀ y ∈ entries space.submaps, current ≤ y.1.2 → x ≠ y → x.1.2 < y.1.1 := by
    intro y yMem yUpTo other
    by_contra notAfter
    have proper := coherent.submapped.apart.nonempty y yMem
    exact other (coherent.submapped.apart.eq_of_common (a := max y.1.1 current) mem yMem
      ⟨by omega, by omega⟩ ⟨by omega, by omega⟩)
  constructor
  · intro admitted
    constructor
    · have admits := admitted x mem (by omega) high
      rwa [atCurrent] at admits
    · intro y yMem below upTo
      have after := apart y yMem (by omega) (by
        intro same
        rw [same] at rest high
        omega)
      have admits := admitted y yMem (by omega) (by omega)
      rwa [show max y.1.1 (current + n) = max y.1.1 current by omega]
  · intro both y yMem below upTo
    by_cases same : x = y
    · rw [← same, atCurrent]
      exact both.1
    · have after := apart y yMem upTo same
      have proper := coherent.submapped.apart.nonempty y yMem
      have admits := both.2 y yMem (by omega) (by omega)
      rwa [show max y.1.1 current = max y.1.1 (current + n) by omega]

end

/-! ## The loop -/

/-- One round takes the rest of a submapping or of a gap, and goes on unless the offset of the
mapping overflows there. -/
theorem readLoop_round [LawfulProviderReads D Error] (fillByte : UInt8)
    (coherent : Coherent storage space) {start length remaining : ℕ} (rounds total : ℕ)
    (f : ℕ → UInt8) (from_ : start ≤ current) (whole : current + (remaining + 1) = start + length) :
    ∃ n, ∃ admits : Prop, 0 < n ∧ n ≤ remaining + 1 ∧
      (Admitted storage space current (current + (remaining + 1)) ↔
        admits ∧ Admitted storage space (current + n) (current + (remaining + 1))) ∧
      (admits → storage.readLoop fillByte space start (rounds + 1) current (remaining + 1) total
          (window f start length) =
        storage.readLoop fillByte space start rounds (current + n) (remaining + 1 - n)
          (total + mappedCount space current n)
          (window (patch f (seenByte storage fillByte space) current n) start length)) ∧
      (¬ admits → storage.readLoop fillByte space start (rounds + 1) current (remaining + 1) total
        (window f start length) = none) := by
  have place : start + (current - start) = current := by omega
  have copied : ∀ n, n ≤ remaining + 1 → copyAt (window f start length) (current - start)
      (window (seenByte storage fillByte space) current n) =
      some (window (patch f (seenByte storage fillByte space) current n) start length) := by
    intro n fits
    have patched : copyAt (window f start length) (current - start)
        (window (seenByte storage fillByte space) (start + (current - start)) n) = _ :=
      copyAt_window (by omega)
    rwa [place] at patched
  cases found : space.findContaining current with
  | none =>
    obtain ⟨positive, fits, clear⟩ := gapLenAt_spec coherent found remaining.succ_pos
    refine ⟨space.gapLenAt current (remaining + 1), True, positive, fits,
      (coherent.admitted_gap clear).trans (iff_of_eq (true_and _)).symm, fun _ => ?_,
      fun refused => absurd trivial refused⟩
    rw [readLoop, found]
    dsimp only
    generalize space.gapLenAt current (remaining + 1) = n at *
    have unmapped : ∀ i, i < n → space.findContaining (current + i) = none := by
      intro i lt
      by_contra some_
      obtain ⟨view, some_⟩ := ne_none_iff_exists'.mp some_
      obtain ⟨x, mem, inside, -⟩ := (findContaining_eq_some coherent.submapped.apart).mp some_
      have low : x.1.1 ≤ current + i := inside.1
      have high : current + i ≤ x.1.2 := inside.2
      have := clear x mem (by omega)
      omega
    have seen : List.replicate n fillByte =
        window (seenByte storage fillByte space) current n := by
      refine eq_window length_replicate fun i lt => ?_
      rw [getElem?_replicate, if_pos lt, seenByte, unmapped i lt]
    have count : mappedCount space current n = if false then n else 0 :=
      mappedCount_of_all fun i lt => by
        rw [unmapped i lt]
        rfl
    rw [seen, copied n fits, bind_eq_bind, bind_some, count, if_neg Bool.false_ne_true]
    rfl
  | some view =>
    obtain ⟨x, mem, within, rfl⟩ := (findContaining_eq_some coherent.submapped.apart).mp found
    have low : x.1.1 ≤ current := within.1
    have high : current ≤ x.1.2 := within.2
    obtain ⟨n, rest⟩ : ∃ n, n = min (remaining + 1) (x.1.2 - current + 1) := ⟨_, rfl⟩
    have positive : 0 < n := by omega
    have fits : n ≤ remaining + 1 := by omega
    have sliced : slice (window f start length) (current - start) (current - start + n) =
        some (window f current n) := by
      rw [slice_window (by omega) (by omega), place, Nat.add_sub_cancel_left]
    have count : mappedCount space current n = if true then n else 0 :=
      mappedCount_of_all fun i lt => by
        rw [coherent.findContaining mem ⟨by omega, by omega⟩]
        rfl
    obtain ⟨shows, fails⟩ := readView_spec fillByte coherent mem within
      (show (window f current n).length = n from length_window) positive (by omega)
    refine ⟨n, Admits storage x current, positive, fits,
      coherent.admitted_entry mem within remaining.succ_pos rest, fun admits => ?_,
      fun refused => ?_⟩
    all_goals
      rw [readLoop, found]
      dsimp only
      rw [coherent.remainingFrom mem within, bind_eq_bind, bind_some, ← rest, sliced,
        bind_eq_bind, bind_some]
    · rw [shows admits, bind_eq_bind, bind_some]
      dsimp only
      rw [copied n fits, bind_some, count, if_pos rfl]
    · rw [fails refused]
      rfl

theorem readLoop_spec [LawfulProviderReads D Error] (fillByte : UInt8) (coherent : Coherent storage space)
    (start length : ℕ) : ∀ (rounds remaining current total : ℕ) (f : ℕ → UInt8),
    remaining ≤ rounds → start ≤ current → current + remaining = start + length →
    (Admitted storage space current (current + remaining) →
      storage.readLoop fillByte space start rounds current remaining total
          (window f start length) =
        some (.ok (total + mappedCount space current remaining),
          window (patch f (seenByte storage fillByte space) current remaining) start length)) ∧
    (¬ Admitted storage space current (current + remaining) →
      storage.readLoop fillByte space start rounds current remaining total
        (window f start length) = none) := by
  have done : ∀ rounds current total (f : ℕ → UInt8),
      (Admitted storage space current (current + 0) →
        storage.readLoop fillByte space start rounds current 0 total (window f start length) =
          some (.ok (total + mappedCount space current 0),
            window (patch f (seenByte storage fillByte space) current 0) start length)) ∧
      (¬ Admitted storage space current (current + 0) →
        storage.readLoop fillByte space start rounds current 0 total
          (window f start length) = none) := by
    intro rounds current total f
    constructor
    · intro
      rw [patch_zero]
      cases rounds <;> rfl
    · intro refused
      refine absurd (fun x _ below _ => ?_) refused
      omega
  intro rounds
  induction rounds with
  | zero =>
    intro remaining current total f enough _ _
    obtain rfl : remaining = 0 := Nat.le_zero.mp enough
    exact done 0 current total f
  | succ rounds ih =>
    intro remaining current total f enough from_ whole
    cases remaining with
    | zero => exact done (rounds + 1) current total f
    | succ remaining =>
      obtain ⟨n, admits, positive, fits, split, next, fails⟩ :=
        readLoop_round fillByte coherent rounds total f from_ whole
      obtain ⟨okRest, noneRest⟩ := ih (remaining + 1 - n) (current + n)
        (total + mappedCount space current n) (patch f (seenByte storage fillByte space) current n)
        (by omega) (by omega) (by omega)
      have splits : n + (remaining + 1 - n) = remaining + 1 := by omega
      have counts : mappedCount space current (n + (remaining + 1 - n)) = _ :=
        mappedCount_add n (remaining + 1 - n)
      rw [add_assoc, splits] at okRest noneRest
      rw [splits] at counts
      rw [split]
      constructor
      · intro both
        rw [next both.1, okRest both.2, patch_patch, splits, counts, add_assoc]
      · intro refused
        by_cases here : admits
        · rw [next here, noneRest fun later => refused ⟨here, later⟩]
        · exact fails here

/-! ## A whole read -/

/-- Each space that an address can name is coherent. -/
def CoherentAt (storage : SegmentStorage D S E) (id : AddressSpaceId) : Prop :=
  ∀ space, storage.spaces.get? id = some space → space.id = id ∧ Coherent storage space

/-- A read of a known space: it returns what is seen and how much of it is mapped. -/
theorem readBytes_spec [LawfulProviderReads D Error] (fillByte : UInt8) {address : Address} {bytes : List UInt8}
    (coherent : Coherent storage space) (nonempty : bytes ≠ [])
    (fits : address.address + (bytes.length - 1) < 2 ^ 64)
    (found : storage.spaces.get? address.space = some space) :
    (Admitted storage space address.address (address.address + bytes.length) →
      storage.readBytes fillByte address bytes =
        some (.ok (mappedCount space address.address bytes.length),
          window (seenByte storage fillByte space) address.address bytes.length)) ∧
    (¬ Admitted storage space address.address (address.address + bytes.length) →
      storage.readBytes fillByte address bytes = none) := by
  have unfolded : storage.readBytes fillByte address bytes =
      storage.readLoop fillByte space address.address bytes.length address.address bytes.length 0
        bytes := by
    unfold readBytes
    rw [if_neg nonempty, if_neg (not_le.mpr fits), found]
  obtain ⟨f, contents⟩ := exists_window bytes address.address
  obtain ⟨shows, fails⟩ := readLoop_spec fillByte coherent address.address
    bytes.length bytes.length bytes.length address.address 0 f le_rfl le_rfl rfl
  rw [← contents] at shows fails
  rw [unfolded]
  refine ⟨fun admitted => ?_, fails⟩
  rw [shows admitted, zero_add]
  congr 2
  refine window_congr fun i from_ below => ?_
  exact patch_inside from_ below

section Reachable

variable [IntervalMap E SegmentMappingId]

theorem SegmentStorage.LaidOut.coherentAt (laidOut : storage.LaidOut) (id : AddressSpaceId) :
    CoherentAt storage id := by
  intro space found
  obtain ⟨sameId, laid⟩ := laidOut.spaces id space (OrdMap.get?_eq_some.mp found)
  have inMapping : ∀ x ∈ entries space.submaps, ∀ a, Within x.1 a → ∃ mapping : SegmentMapping,
      storage.mappings.get? x.2.mappingRef.mappingId = some mapping ∧
        mapping.range.start ≤ a ∧ a ≤ mapping.range.stop := by
    intro x mem a within
    obtain ⟨placement, mapping, covers, known, -⟩ := laid.entry mem within
    obtain ⟨other, otherKnown, -, range, -⟩ := laid.indexed.placed _ _ covers.1
    cases known.symm.trans otherKnown
    have inside := covers.2
    rw [range] at inside
    exact ⟨mapping, known, inside⟩
  refine ⟨sameId, laid.submapped, fun x mem => ?_, fun x mem mapping provider valid => ?_⟩
  · have proper := laid.submapped.apart.nonempty x mem
    obtain ⟨mapping, known, low, -⟩ := inMapping x mem x.1.1 ⟨le_rfl, proper⟩
    obtain ⟨other, otherKnown, -, high⟩ := inMapping x mem x.1.2 ⟨proper, le_rfl⟩
    cases known.symm.trans otherKnown
    have sized := mapping.sized
    omega
  · have proper := laid.submapped.apart.nonempty x mem
    obtain ⟨other, known, low, -⟩ := inMapping x mem x.1.1 ⟨le_rfl, proper⟩
    unfold validMapping at valid
    rw [known] at valid
    obtain ⟨held, filtered, rest⟩ := bind_eq_some_iff.mp valid
    obtain ⟨provided, -, pair⟩ := bind_eq_some_iff.mp rest
    obtain ⟨same, -⟩ := filter_eq_some_iff.mp filtered
    cases same
    cases pair
    exact low

theorem run_coherentAt (LayoutError : Type) [SyntheticProvider D LayoutError]
    (operations : List (SegmentStorage.Operation D))
    (ran : SegmentStorage.run LayoutError operations = .ok storage) (id : AddressSpaceId) :
    CoherentAt storage id := by
  have laidOut : Returns LaidOut
      (SegmentStorage.run LayoutError operations : Except Panic (SegmentStorage D S E)) :=
    foldlM_apply_laidOut operations _ empty_laidOut
  rw [ran] at laidOut
  exact laidOut.coherentAt id

end Reachable

end Fugue.Storage.Segments
