import Fugue.Project.Read

/-!
# What a read set stands for

A read set is compared with the list of the reads that went into it (`Built`). It has all of them
(`Complete`), and whatever it has comes from one of them (`Sound`): from a read of the address as
long as no ranges were collapsed, and from a read in the address space afterwards.
-/

namespace Fugue.Project

open Fugue.Ir Fugue.Lib List ChangeKinds

/-- A read that was recorded: in a range, or anywhere. -/
structure RecordedRead where
  kinds : ChangeKinds
  range : Option AddressRange

namespace RecordedRead

/-- `merge` passes a read on unless its range is empty. -/
def carried (read : RecordedRead) : Bool := read.range.all fun range => !range.isEmpty

/-- The read was made anywhere, or at an address of the set. -/
def Meets (read : RecordedRead) (inside : Address → Prop) : Prop :=
  ∀ range, read.range = some range → ∃ address, range.Contains address ∧ inside address

/-- The read was made anywhere, or in the space of an address of the set. -/
def Near (read : RecordedRead) (inside : Address → Prop) : Prop :=
  ∀ range, read.range = some range →
    ∃ address, range.space = address.space ∧ address.address < 2 ^ 64 ∧ inside address

end RecordedRead

namespace ReadSet

/-- The read sets that `record`, `record_unbounded` and `merge` make, with the reads that went into
them and whether a collapse was reported. -/
inductive Built : ReadSet → List RecordedRead → Bool → Prop
  | new : Built .new [] false
  | record {reads : ReadSet} {done : List RecordedRead} {collapsed : Bool}
      (built : Built reads done collapsed) (kinds : ChangeKinds) (range : AddressRange)
      (fits : range.stop < 2 ^ 64) :
      Built (reads.record kinds range).1 (done ++ [⟨kinds, some range⟩])
        (collapsed || (reads.record kinds range).2)
  | recordUnbounded {reads : ReadSet} {done : List RecordedRead} {collapsed : Bool}
      (built : Built reads done collapsed) (kinds : ChangeKinds) :
      Built (reads.recordUnbounded kinds) (done ++ [⟨kinds, none⟩]) collapsed
  | merge {reads other : ReadSet} {done more : List RecordedRead} {collapsed collapsed' : Bool}
      (built : Built reads done collapsed) (built' : Built other more collapsed') :
      Built (reads.merge other).1 (done ++ more.filter RecordedRead.carried)
        (collapsed || collapsed' || (reads.merge other).2)

variable {reads other : ReadSet} {done more : List RecordedRead} {collapsed : Bool}
  {kinds kind : ChangeKinds} {range : AddressRange} {address : Address}

/-! ## Nothing is lost -/

def HasRead (reads : ReadSet) (read : RecordedRead) : Prop :=
  match read.range with
  | some range => reads.Has read.kinds range
  | none => ∀ kind, read.kinds.intersects kind = true → reads.unbounded.intersects kind = true

variable {read : RecordedRead}

theorem HasRead.mono (has : reads.HasRead read) (le : reads.Le other) :
    other.HasRead read := by
  unfold HasRead at *
  split
  · exact Has.mono (by simpa [*] using has) le
  · intro kind shared
    exact le.unbounded kind (by simp_all)

theorem HasRead.observes (has : reads.HasRead read)
    (shared : read.kinds.intersects kind = true) : reads.observes kind = true := by
  unfold HasRead at has
  split at has
  · exact (has kind shared).1
  · exact observes_iff.mpr (.inl (has kind shared))

theorem HasRead.merge (has : other.HasRead read) (carried : read.carried = true) :
    (reads.merge other).1.HasRead read := by
  unfold HasRead at *
  unfold RecordedRead.carried at carried
  cases found : read.range with
  | none =>
    rw [found] at has
    exact fun kind shared => merge_unbounded_right reads (has kind shared)
  | some range =>
    rw [found] at has carried
    have le : range.start ≤ range.stop := by simpa [AddressRange.isEmpty] using carried
    have seen : ∀ kind, read.kinds.intersects kind = true → ∀ address, range.Contains address →
        (reads.merge other).1.unbounded.intersects kind = true ∨
          (reads.merge other).1.Sees kind address := by
      intro kind shared address inside
      rcases (has kind shared).2 address inside with anywhere | seen
      · exact .inl (merge_unbounded_right reads anywhere)
      · exact merge_sees_right reads seen
    intro kind shared
    refine ⟨?_, seen kind shared⟩
    rcases seen kind shared range.startAddress ⟨rfl, le_rfl, le⟩ with anywhere | ⟨entry, mem, meets, -⟩
    · exact observes_iff.mpr (.inl anywhere)
    · exact observes_iff.mpr (.inr ⟨entry, mem, meets⟩)

theorem Built.complete (built : Built reads done collapsed) : ∀ read ∈ done, reads.HasRead read := by
  induction built with
  | new => exact nofun
  | @record reads done _ _ kinds range fits ih =>
    obtain ⟨le, has⟩ := record_spec reads kinds fits
    refine forall_mem_append.mpr ⟨fun read mem => (ih read mem).mono le, ?_⟩
    exact forall_mem_singleton.mpr has
  | @recordUnbounded reads done _ _ kinds ih =>
    have le := recordUnbounded_le reads kinds
    refine forall_mem_append.mpr ⟨fun read mem => (ih read mem).mono le, ?_⟩
    refine forall_mem_singleton.mpr fun kind shared => ?_
    exact ChangeKinds.intersects_or.mpr (.inr shared)
  | @merge reads other done more _ _ _ _ ih ih' =>
    have le := merge_le_left reads other
    refine forall_mem_append.mpr ⟨fun read mem => (ih read mem).mono le, fun read mem => ?_⟩
    obtain ⟨mem, carried⟩ := mem_filter.mp mem
    exact (ih' read mem).merge carried

/-! ## Nothing is made up -/

/-- The set has ranges in the space. -/
def Mentions (set : AddressRangeSet) (space : AddressSpaceId) : Prop :=
  ∃ ranges, (space, ranges) ∈ set.spaces.entries

variable {set : AddressRangeSet}

theorem mentions_of_contains (inside : set.Contains address) :
    Mentions set address.space := by
  obtain ⟨ranges, mem, -⟩ := inside
  exact ⟨ranges, mem⟩

theorem mentions_of_mem_ranges (mem : range ∈ set.ranges) :
    Mentions set range.space := by
  have le := (AddressRangeSet.ranges_proper range mem).start_le
  exact mentions_of_contains (AddressRangeSet.contains_iff_ranges.mpr
    ⟨range, mem, rfl, le_rfl, le⟩ : set.Contains range.startAddress)

variable {space : AddressSpaceId}

theorem not_mentions_new : ¬ Mentions .new space := by
  simp [Mentions, AddressRangeSet.new]

theorem mentions_insertRange (mentions : Mentions (set.insertRange range) space) :
    (range.start ≤ range.stop ∧ range.space = space) ∨ Mentions set space := by
  unfold AddressRangeSet.insertRange at mentions
  split at mentions
  · exact .inr mentions
  · rename_i notEmpty
    obtain ⟨ranges, mem⟩ := mentions
    rcases OrdMap.mem_insert.mp mem with new | ⟨old, -⟩
    · exact .inl ⟨by simpa [AddressRange.isEmpty] using notEmpty, (Prod.mk.inj new).1.symm⟩
    · exact .inr ⟨ranges, old⟩

theorem mentions_wholeSpaces
    (mentions : Mentions (wholeSpaces set) space) : Mentions set space := by
  have general : ∀ (entries : List (AddressSpaceId × RawAddressRangeSet)) (whole : AddressRangeSet),
      Mentions (entries.foldl (fun spaces entry =>
        spaces.insertRange ⟨entry.1, 0, 2 ^ 64 - 1⟩) whole) space →
      Mentions whole space ∨ ∃ ranges, (space, ranges) ∈ entries := by
    intro entries
    induction entries with
    | nil => exact fun _ => .inl
    | cons entry entries ih =>
      intro whole mentions
      rcases ih _ mentions with first | ⟨ranges, mem⟩
      · rcases mentions_insertRange first with ⟨-, rfl⟩ | old
        · exact .inr ⟨entry.2, .head _⟩
        · exact .inl old
      · exact .inr ⟨ranges, .tail _ mem⟩
  rcases general _ _ mentions with new | mentioned
  · exact absurd new not_mentions_new
  · exact mentioned

/-- What an entry has after a read was added: the spaces of both, and if no collapse was reported
the addresses of both. -/
theorem extend_spec (ranges : AddressRangeSet) (range : AddressRange) (fits : range.stop < 2 ^ 64) :
    (∀ space, Mentions (extend ranges range).1 space →
      (range.start ≤ range.stop ∧ range.space = space) ∨ Mentions ranges space) ∧
    ((extend ranges range).2 = false → ∀ address, (extend ranges range).1.Contains address →
      range.Contains address ∨ ranges.Contains address) := by
  unfold extend
  dsimp only
  split
  · exact ⟨fun space mentions => mentions_insertRange (mentions_wholeSpaces mentions), nofun⟩
  · exact ⟨fun space => mentions_insertRange,
      fun _ address => (AddressRangeSet.contains_insertRange fits).mp⟩

/-- An entry after `record` is an old one, or has the kinds and extends an old one or none. -/
theorem mem_recordBounded {entry : ChangeKinds × AddressRangeSet} :
    ∀ {entries : List (ChangeKinds × AddressRangeSet)},
      entry ∈ (recordBounded kinds range entries).1 →
      entry ∈ entries ∨ ∃ ranges, (ranges = .new ∨ (kinds, ranges) ∈ entries) ∧
        ((entry = (kinds, (extend ranges range).1) ∧
            (recordBounded kinds range entries).2 = (extend ranges range).2) ∨
          entry = (kinds, ranges.insertRange range))
  | [], mem => .inr ⟨.new, .inl rfl, .inr (mem_singleton.mp mem)⟩
  | first :: entries, mem => by
    unfold recordBounded at mem ⊢
    split at mem
    · rename_i same
      rw [if_pos same]
      rcases mem_cons.mp mem with rfl | later
      · exact .inr ⟨first.2, .inr (same ▸ (.head _)), .inl ⟨rfl, rfl⟩⟩
      · exact .inl (.tail _ later)
    · rename_i different
      rw [if_neg different]
      rcases mem_cons.mp mem with rfl | later
      · exact .inl (.head _)
      · rcases mem_recordBounded later with old | ⟨ranges, base, new⟩
        · exact .inl (.tail _ old)
        · exact .inr ⟨ranges, base.imp_right (mem_cons_of_mem _), new⟩

/-- One of the reads has a kind, and is as said. -/
def Among (done : List RecordedRead) (kind : ChangeKinds) (where_ : Option AddressRange → Prop) :
    Prop :=
  ∃ read ∈ done, read.kinds.intersects kind = true ∧ where_ read.range

theorem Among.mono {where_ : Option AddressRange → Prop} (among : Among done kind where_)
    (sub : ∀ read ∈ done, where_ read.range → read ∈ more) : Among more kind where_ := by
  obtain ⟨read, mem, shared, here⟩ := among
  exact ⟨read, sub read mem here, shared, here⟩

/-- The read was made in a range of the space that is not empty. -/
def InSpace (space : AddressSpaceId) (range : Option AddressRange) : Prop :=
  ∃ found, range = some found ∧ found.start ≤ found.stop ∧ found.space = space

/-- The read was made at the address. -/
def AtAddress (address : Address) (range : Option AddressRange) : Prop :=
  ∃ found, range = some found ∧ found.Contains address

/-- Whatever the set has comes from one of the reads. -/
structure Sound (reads : ReadSet) (done : List RecordedRead) (collapsed : Bool) : Prop where
  unbounded : ∀ kind, reads.unbounded.intersects kind = true → Among done kind (· = none)
  made : ∀ entry ∈ reads.bounded, ∀ kind, entry.1.intersects kind = true →
    Among done kind fun _ => True
  spaces : ∀ entry ∈ reads.bounded, ∀ kind, entry.1.intersects kind = true →
    ∀ space, Mentions entry.2 space → Among done kind (InSpace space)
  addresses : collapsed = false → ∀ entry ∈ reads.bounded, ∀ kind,
    entry.1.intersects kind = true → ∀ address, entry.2.Contains address →
      Among done kind (AtAddress address)

/-- A range that comes from the reads, for kinds that do. -/
structure Justified (done : List RecordedRead) (collapsed : Bool) (kinds : ChangeKinds)
    (range : AddressRange) : Prop where
  made : ∀ kind, kinds.intersects kind = true → Among done kind fun _ => True
  space : range.start ≤ range.stop → ∀ kind, kinds.intersects kind = true →
    Among done kind (InSpace range.space)
  addresses : collapsed = false → ∀ kind, kinds.intersects kind = true → ∀ address,
    range.Contains address → Among done kind (AtAddress address)

theorem Sound.mono {collapsed' : Bool} (sound : Sound reads done collapsed)
    (sub : ∀ read ∈ done, read ∈ more) (flag : collapsed = true → collapsed' = true) :
    Sound reads more collapsed' where
  unbounded kind shared := (sound.unbounded kind shared).mono fun read mem _ => sub read mem
  made entry mem kind shared := (sound.made entry mem kind shared).mono fun read mem _ =>
    sub read mem
  spaces entry mem kind shared space mentions :=
    (sound.spaces entry mem kind shared space mentions).mono fun read mem _ => sub read mem
  addresses clear entry mem kind shared address inside := by
    have before : collapsed = false := by
      cases collapsed with
      | false => rfl
      | true => rw [flag rfl] at clear; cases clear
    exact (sound.addresses before entry mem kind shared address inside).mono fun read mem _ =>
      sub read mem

theorem intersects_of_difference {known : ChangeKinds}
    (shared : (kinds.difference known).intersects kind = true) :
    kinds.intersects kind = true := by
  obtain ⟨i, left, right⟩ := ChangeKinds.intersects_iff.mp shared
  rw [difference, BitVec.getLsbD_and, Bool.and_eq_true] at left
  exact ChangeKinds.intersects_iff.mpr ⟨i, left.1, right⟩

theorem Sound.record (sound : Sound reads done collapsed) (fits : range.stop < 2 ^ 64)
    (justified : Justified done collapsed kinds range) :
    Sound (reads.record kinds range).1 done (collapsed || (reads.record kinds range).2) := by
  unfold ReadSet.record
  dsimp only
  split
  · rw [Bool.or_false]
    exact sound
  · have weaken : ∀ {kind}, (kinds.difference reads.unbounded).intersects kind = true →
        kinds.intersects kind = true := intersects_of_difference
    have inserted : ∀ (ranges : AddressRangeSet) (address : Address),
        (ranges.insertRange range).Contains address →
          range.Contains address ∨ ranges.Contains address :=
      fun _ _ => (AddressRangeSet.contains_insertRange fits).mp
    refine ⟨sound.unbounded, ?_, ?_, ?_⟩
    · intro entry mem kind shared
      rcases mem_recordBounded mem with old | ⟨ranges, -, ⟨rfl, -⟩ | rfl⟩
      · exact sound.made entry old kind shared
      · exact justified.made kind (weaken shared)
      · exact justified.made kind (weaken shared)
    · intro entry mem kind shared space mentions
      rcases mem_recordBounded mem with old | ⟨ranges, base, new⟩
      · exact sound.spaces entry old kind shared space mentions
      · have parts : ((kinds.difference reads.unbounded).intersects kind = true) ∧
            ((range.start ≤ range.stop ∧ range.space = space) ∨ Mentions ranges space) := by
          rcases new with ⟨rfl, -⟩ | rfl
          · exact ⟨shared, (extend_spec ranges range fits).1 space mentions⟩
          · exact ⟨shared, mentions_insertRange mentions⟩
        obtain ⟨shared, ⟨le, rfl⟩ | before⟩ := parts
        · exact justified.space le kind (weaken shared)
        · rcases base with rfl | old
          · exact absurd before not_mentions_new
          · exact sound.spaces _ old kind shared space before
    · intro clear entry mem kind shared address inside
      rw [Bool.or_eq_false_iff] at clear
      rcases mem_recordBounded mem with old | ⟨ranges, base, new⟩
      · exact sound.addresses clear.1 entry old kind shared address inside
      · have parts : ((kinds.difference reads.unbounded).intersects kind = true) ∧
            (range.Contains address ∨ ranges.Contains address) := by
          rcases new with ⟨rfl, flag⟩ | rfl
          · exact ⟨shared, (extend_spec ranges range fits).2 (flag ▸ clear.2) address inside⟩
          · exact ⟨shared, inserted ranges address inside⟩
        obtain ⟨shared, here | before⟩ := parts
        · exact justified.addresses clear.1 kind (weaken shared) address here
        · rcases base with rfl | old
          · exact absurd before AddressRangeSet.not_contains_new
          · exact sound.addresses clear.1 _ old kind shared address before

theorem Sound.recordUnbounded (sound : Sound reads done collapsed)
    (justified : ∀ kind, kinds.intersects kind = true → Among done kind (· = none)) :
    Sound (reads.recordUnbounded kinds) done collapsed := by
  have original : ∀ entry ∈ (reads.recordUnbounded kinds).bounded, ∃ before ∈ reads.bounded,
      before.2 = entry.2 ∧ ∀ kind, entry.1.intersects kind = true →
        before.1.intersects kind = true := by
    intro entry mem
    obtain ⟨before, beforeMem, rfl⟩ := mem_map.mp (mem_filter.mp mem).1
    exact ⟨before, beforeMem, rfl, fun kind => intersects_of_difference⟩
  refine ⟨?_, ?_, ?_, ?_⟩
  · intro kind shared
    rcases ChangeKinds.intersects_or.mp shared with old | new
    · exact sound.unbounded kind old
    · exact justified kind new
  · intro entry mem kind shared
    obtain ⟨before, beforeMem, -, weaken⟩ := original entry mem
    exact sound.made before beforeMem kind (weaken kind shared)
  · intro entry mem kind shared space mentions
    obtain ⟨before, beforeMem, same, weaken⟩ := original entry mem
    exact sound.spaces before beforeMem kind (weaken kind shared) space (same ▸ mentions)
  · intro clear entry mem kind shared address inside
    obtain ⟨before, beforeMem, same, weaken⟩ := original entry mem
    exact sound.addresses clear before beforeMem kind (weaken kind shared) address (same ▸ inside)

theorem Justified.or (justified : Justified done collapsed kinds range) (more : Bool) :
    Justified done (collapsed || more) kinds range :=
  ⟨justified.made, justified.space, fun clear =>
    justified.addresses (Bool.or_eq_false_iff.mp clear).1⟩

theorem foldl_mergeRange_sound : ∀ (ranges : List AddressRange) {state : ReadSet × Bool},
    (∀ range ∈ ranges, range.stop < 2 ^ 64 ∧ Justified done collapsed kinds range) →
    Sound state.1 done (collapsed || state.2) →
    Sound (ranges.foldl (mergeRange kinds) state).1 done
      (collapsed || (ranges.foldl (mergeRange kinds) state).2)
  | [], _, _, sound => sound
  | range :: ranges, state, justified, sound => by
    obtain ⟨⟨fits, head⟩, rest⟩ := forall_mem_cons.mp justified
    apply foldl_mergeRange_sound ranges rest
    have recorded := sound.record fits (head.or state.2)
    rwa [Bool.or_assoc] at recorded

theorem foldl_mergeEntry_sound : ∀ (entries : List (ChangeKinds × AddressRangeSet))
    {state : ReadSet × Bool},
    (∀ entry ∈ entries, ∀ range ∈ entry.2.ranges, Justified done collapsed entry.1 range) →
    Sound state.1 done (collapsed || state.2) →
    Sound (entries.foldl mergeEntry state).1 done (collapsed || (entries.foldl mergeEntry state).2)
  | [], _, _, sound => sound
  | entry :: entries, state, justified, sound => by
    obtain ⟨head, rest⟩ := forall_mem_cons.mp justified
    refine foldl_mergeEntry_sound entries rest (foldl_mergeRange_sound entry.2.ranges ?_ sound)
    intro range mem
    exact ⟨(AddressRangeSet.ranges_proper range mem).stop_lt, head range mem⟩

/-- The ranges of a sound set come from the reads that `merge` passes on. -/
theorem Sound.justified (sound : Sound reads done collapsed)
    {entry : ChangeKinds × AddressRangeSet} (mem : entry ∈ reads.bounded)
    (rangeMem : range ∈ entry.2.ranges) :
    Justified (done.filter RecordedRead.carried) collapsed entry.1 range := by
  have carried : ∀ {space : AddressSpaceId} {read : RecordedRead}, read ∈ done →
      InSpace space read.range → read ∈ done.filter RecordedRead.carried := by
    intro space read readMem inSpace
    obtain ⟨found, eq, le, -⟩ := inSpace
    refine mem_filter.mpr ⟨readMem, ?_⟩
    unfold RecordedRead.carried
    rw [eq]
    simpa [AddressRange.isEmpty] using le
  have inSpace : ∀ kind, entry.1.intersects kind = true →
      Among (done.filter RecordedRead.carried) kind (InSpace range.space) := by
    intro kind shared
    exact (sound.spaces entry mem kind shared range.space (mentions_of_mem_ranges rangeMem)).mono
      fun read readMem here => carried readMem here
  refine ⟨fun kind shared => ?_, fun _ => inSpace, ?_⟩
  · obtain ⟨read, readMem, readShared, -⟩ := inSpace kind shared
    exact ⟨read, readMem, readShared, trivial⟩
  · intro clear kind shared address inside
    have contains : entry.2.Contains address :=
      AddressRangeSet.contains_iff_ranges.mpr ⟨range, rangeMem, inside⟩
    apply (sound.addresses clear entry mem kind shared address contains).mono
    rintro read readMem ⟨found, eq, _, low, high⟩
    exact carried readMem ⟨found, eq, low.trans high, rfl⟩

theorem Sound.merge {collapsed' : Bool} (sound : Sound reads done collapsed)
    (sound' : Sound other more collapsed') :
    Sound (reads.merge other).1 (done ++ more.filter RecordedRead.carried)
      (collapsed || collapsed' || (reads.merge other).2) := by
  apply foldl_mergeEntry_sound other.bounded
  · intro entry mem range rangeMem
    obtain ⟨made, space, addresses⟩ := sound'.justified mem rangeMem
    have later : ∀ {kind} {where_ : Option AddressRange → Prop},
        Among (more.filter RecordedRead.carried) kind where_ →
          Among (done ++ more.filter RecordedRead.carried) kind where_ := fun among =>
      among.mono fun read readMem _ => mem_append_right _ readMem
    refine ⟨fun kind shared => later (made kind shared),
      fun le kind shared => later (space le kind shared), ?_⟩
    intro clear kind shared address inside
    exact later (addresses (Bool.or_eq_false_iff.mp clear).2 kind shared address inside)
  · rw [Bool.or_false]
    refine Sound.recordUnbounded (sound.mono (fun read => mem_append_left _) ?_) ?_
    · intro flag
      rw [flag, Bool.true_or]
    · intro kind shared
      obtain ⟨read, readMem, readShared, anywhere⟩ := sound'.unbounded kind shared
      refine ⟨read, mem_append_right _ (mem_filter.mpr ⟨readMem, ?_⟩), readShared, anywhere⟩
      rw [RecordedRead.carried, anywhere]
      rfl

theorem Built.sound (built : Built reads done collapsed) : Sound reads done collapsed := by
  induction built with
  | new =>
    refine ⟨fun kind shared => ?_, nofun, nofun, nofun⟩
    cases ChangeKinds.not_intersects_zero.symm.trans shared
  | @record reads done collapsed _ kinds range fits ih =>
    have mem : (⟨kinds, some range⟩ : RecordedRead) ∈ done ++ [⟨kinds, some range⟩] := by simp
    refine (ih.mono (fun read => mem_append_left _) id).record fits ⟨?_, ?_, ?_⟩
    · exact fun kind shared => ⟨_, mem, shared, trivial⟩
    · exact fun le kind shared => ⟨_, mem, shared, range, rfl, le, rfl⟩
    · exact fun _ kind shared address inside => ⟨_, mem, shared, range, rfl, inside⟩
  | @recordUnbounded reads done collapsed _ kinds ih =>
    apply (ih.mono (fun read => mem_append_left _) id).recordUnbounded
    exact fun kind shared => ⟨⟨kinds, none⟩, by simp, shared, rfl⟩
  | merge _ _ ih ih' => exact ih.merge ih'

/-! ## What the set answers -/

/-- A kind was read anywhere, or at an address of those. -/
def Found (reads : ReadSet) (kinds : ChangeKinds) (inside : Address → Prop) : Prop :=
  reads.unbounded.intersects kinds = true ∨ ∃ address, inside address ∧ reads.Sees kinds address

theorem intersects_iff {regions : AddressRangeSet} :
    reads.intersects kinds regions = true ↔ reads.Found kinds regions.Contains := by
  simp only [intersects, Found, Sees, Bool.or_eq_true, any_eq_true, Bool.and_eq_true,
    AddressRangeSet.intersects_iff]
  refine or_congr_right ⟨?_, ?_⟩
  · intro h
    obtain ⟨entry, mem, shared, address, inside, within⟩ := h
    exact ⟨address, within, entry, mem, shared, inside⟩
  · intro h
    obtain ⟨address, within, entry, mem, shared, inside⟩ := h
    exact ⟨entry, mem, shared, address, inside, within⟩

theorem escapes_iff {region : AddressRangeSet} :
    reads.escapes kinds region = true ↔
      reads.Found kinds fun address => ¬ region.Contains address := by
  have outside : ∀ ranges : AddressRangeSet, (!(ranges.difference region).isEmpty) = true ↔
      ∃ address, ranges.Contains address ∧ ¬ region.Contains address := by
    intro ranges
    rw [Bool.not_eq_true', ← Bool.not_eq_true, AddressRangeSet.isEmpty_iff]
    simp [AddressRangeSet.contains_difference, not_forall, not_not]
  simp only [escapes, Found, Sees, Bool.or_eq_true, any_eq_true, Bool.and_eq_true, outside]
  refine or_congr_right ⟨?_, ?_⟩
  · intro h
    obtain ⟨entry, mem, shared, address, inside, without⟩ := h
    exact ⟨address, without, entry, mem, shared, inside⟩
  · intro h
    obtain ⟨address, without, entry, mem, shared, inside⟩ := h
    exact ⟨entry, mem, shared, address, inside, without⟩

theorem conflictsWith_iff {changes : ChangeSet} :
    reads.conflictsWith changes kinds = true ↔ ∃ record ∈ changes.records,
      kinds.contains record.kind = true ∧ reads.observes record.kind = true ∧
        (record.ranges = [] ∨ ∃ range ∈ record.ranges, reads.Found record.kind range.Contains) := by
  unfold conflictsWith Found
  simp [any_eq_true, conflictsRecord_iff]

/-- The answer to a question about the reads of some kinds: it is positive if one of the reads meets
the addresses; and then one is near them, and meets them if no collapse was reported. -/
structure Answers (done : List RecordedRead) (collapsed : Bool) (kinds : ChangeKinds)
    (inside : Address → Prop) (answer : Prop) : Prop where
  complete : ∀ read ∈ done, read.kinds.intersects kinds = true → read.Meets inside → answer
  near : answer → ∃ read ∈ done, read.kinds.intersects kinds = true ∧ read.Near inside
  exact : collapsed = false → answer →
    ∃ read ∈ done, read.kinds.intersects kinds = true ∧ read.Meets inside

theorem Built.answers (built : Built reads done collapsed) (kinds : ChangeKinds)
    (inside : Address → Prop) : Answers done collapsed kinds inside (reads.Found kinds inside) := by
  have anywhere : reads.unbounded.intersects kinds = true →
      ∃ read ∈ done, read.kinds.intersects kinds = true ∧ read.range = none :=
    built.sound.unbounded kinds
  constructor
  · intro read mem shared meets
    have has := built.complete read mem
    unfold HasRead at has
    cases found : read.range with
    | none =>
      rw [found] at has
      exact .inl (has kinds shared)
    | some range =>
      rw [found] at has
      obtain ⟨address, within, here⟩ := meets range found
      exact ((has kinds shared).2 address within).imp_right fun seen => ⟨address, here, seen⟩
  · intro found
    rcases found with unbounded | ⟨address, here, entry, mem, shared, contains⟩
    · obtain ⟨read, readMem, readShared, none⟩ := anywhere unbounded
      refine ⟨read, readMem, readShared, fun range eq => ?_⟩
      cases none.symm.trans eq
    · obtain ⟨read, readMem, readShared, range, eq, -, space⟩ := built.sound.spaces entry mem kinds
        shared address.space (mentions_of_contains contains)
      obtain ⟨ranges, -, r, rMem, -, high⟩ := contains
      refine ⟨read, readMem, readShared, fun other otherEq => ?_⟩
      cases eq.symm.trans otherEq
      exact ⟨address, space, high.trans_lt (ranges.bounded r rMem), here⟩
  · intro clear found
    rcases found with unbounded | ⟨address, here, entry, mem, shared, contains⟩
    · obtain ⟨read, readMem, readShared, none⟩ := anywhere unbounded
      refine ⟨read, readMem, readShared, fun range eq => ?_⟩
      cases none.symm.trans eq
    · obtain ⟨read, readMem, readShared, range, eq, within⟩ :=
        built.sound.addresses clear entry mem kinds shared address contains
      refine ⟨read, readMem, readShared, fun other otherEq => ?_⟩
      cases eq.symm.trans otherEq
      exact ⟨address, within, here⟩

theorem Built.observes_iff (built : Built reads done collapsed) :
    reads.observes kinds = true ↔ ∃ read ∈ done, read.kinds.intersects kinds = true := by
  constructor
  · intro seen
    rcases ReadSet.observes_iff.mp seen with anywhere | ⟨entry, mem, shared⟩
    · obtain ⟨read, readMem, readShared, -⟩ := built.sound.unbounded kinds anywhere
      exact ⟨read, readMem, readShared⟩
    · obtain ⟨read, readMem, readShared, -⟩ := built.sound.made entry mem kinds shared
      exact ⟨read, readMem, readShared⟩
  · intro recorded
    obtain ⟨read, mem, shared⟩ := recorded
    exact (built.complete read mem).observes shared

theorem intersects_foldl_or {α : Type} (of : α → ChangeKinds) (list : List α) (start : ChangeKinds) :
    (list.foldl (fun kinds a => kinds ||| of a) start).intersects kinds = true ↔
      start.intersects kinds = true ∨ ∃ a ∈ list, (of a).intersects kinds = true := by
  induction list generalizing start with
  | nil => simp
  | cons a list ih =>
    rw [foldl_cons, ih, intersects_or, or_assoc, exists_mem_cons_iff]

theorem eq_of_intersects {left right : ChangeKinds}
    (same : ∀ kinds, left.intersects kinds = true ↔ right.intersects kinds = true) :
    left = right := by
  have single : ∀ (set : ChangeKinds) (i : Nat), i < 32 →
      (set.intersects (BitVec.twoPow 32 i) = true ↔ set.getLsbD i = true) := by
    intro set i lt
    rw [ChangeKinds.intersects_iff]
    simp only [BitVec.getLsbD_twoPow, Bool.and_eq_true, decide_eq_true_eq]
    constructor
    · rintro ⟨j, bit, -, rfl⟩
      exact bit
    · exact fun bit => ⟨i, bit, lt, rfl⟩
  refine BitVec.eq_of_getLsbD_eq fun i lt => ?_
  rw [Bool.eq_iff_iff, ← single left i lt, ← single right i lt]
  exact same _

theorem Built.observed_eq (built : Built reads done collapsed) :
    reads.observed = done.foldl (fun kinds read => kinds ||| read.kinds) 0 := by
  refine eq_of_intersects fun kinds => ?_
  rw [observed, intersects_foldl_or, intersects_foldl_or, not_intersects_zero,
    or_iff_right Bool.false_ne_true, ← built.observes_iff, ReadSet.observes_iff]

/-- What a set of reads that were recorded and merged in any order answers: which kinds it observes,
which regions it meets and which it escapes, and what it conflicts with. -/
theorem Built.answers_exactly (built : Built reads done collapsed) :
    (∀ kinds, reads.observes kinds = true ↔ ∃ read ∈ done, read.kinds.intersects kinds = true) ∧
      reads.observed = done.foldl (fun kinds read => kinds ||| read.kinds) 0 ∧
      (∀ kinds regions, Answers done collapsed kinds regions.Contains
        (reads.intersects kinds regions = true)) ∧
      (∀ kinds region, Answers done collapsed kinds (fun address => ¬ region.Contains address)
        (reads.escapes kinds region = true)) ∧
      ∀ changes tracked, reads.conflictsWith changes tracked = true ↔
        ∃ record ∈ changes.records, tracked.contains record.kind = true ∧
          reads.observes record.kind = true ∧ (record.ranges = [] ∨
            ∃ range ∈ record.ranges, reads.Found record.kind range.Contains) := by
  refine ⟨fun kinds => built.observes_iff, built.observed_eq, ?_, ?_, ?_⟩
  · intro kinds regions
    rw [intersects_iff]
    exact built.answers kinds regions.Contains
  · intro kinds region
    rw [escapes_iff]
    exact built.answers kinds _
  · exact fun changes tracked => conflictsWith_iff

theorem Built.answers_exactly_merged :
    ((ReadSet.new.record symbols ⟨0, 16, 31⟩).1.merge
      (ReadSet.new.recordUnbounded functions)).1.observed =
        symbols ||| functions := by
  have built := (Built.new.record symbols ⟨0, 16, 31⟩ (by decide)).merge
    (Built.new.recordUnbounded functions)
  exact built.answers_exactly.2.1

/-- A read of an empty range is observed, and no longer so once it is merged. -/
theorem merge_forgets_empty_read :
    (ReadSet.new.record symbols ⟨0, 1, 0⟩).1.observes symbols = true ∧
      (ReadSet.new.merge (ReadSet.new.record symbols ⟨0, 1, 0⟩).1).1.observes
        symbols = false ∧
      (ReadSet.new.merge (ReadSet.new.record symbols ⟨0, 1, 0⟩).1).1.observed ≠
        symbols := by
  refine ⟨?_, ?_, ?_⟩ <;> decide

end ReadSet

end Fugue.Project
