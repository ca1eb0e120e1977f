import Fugue.Lifter.ContextReads

/-!
# Runs of context calls

One call keeps the reads as set exactly if it reaches as far as it should (`bitsAsSet_step`); from
that, by induction over a run, the reads are as set in every state of the run exactly if each of its
calls does.
-/

namespace Fugue.Lifter

open Fugue.Lib ContextDatabase List Option Function

section Points

variable {lookup : String → Option ContextBitRange} {calls : List ContextCall} {call : ContextCall}
  {word i : ℕ}

theorem bitPoints_of_none (none : call.write lookup = none) :
    bitPoints lookup (calls ++ [call]) word i = bitPoints lookup calls word i := by
  simp [bitPoints, none]

theorem bitPoints_of_write {write : Write} (writes : call.write lookup = some write) :
    bitPoints lookup (calls ++ [call]) word i =
      if write.word = word ∧ write.mask.getLsbD i = true then
        Function.update (bitPoints lookup calls word i) write.address
          (some (write.value.getLsbD i))
      else bitPoints lookup calls word i := by
  simp [bitPoints, writes]

theorem exists_write_of_bitPoints {y : ℕ} (set : bitPoints lookup calls word i y ≠ none) :
    ∃ call ∈ calls, ∃ write, call.write lookup = some write ∧ write.address = y := by
  induction calls using List.reverseRecOn with
  | nil => exact absurd rfl set
  | append_singleton calls call ih =>
    have earlier : bitPoints lookup calls word i y ≠ none →
        ∃ c ∈ calls ++ [call], ∃ write, c.write lookup = some write ∧ write.address = y := by
      intro set'
      obtain ⟨c, mem, rest⟩ := ih set'
      exact ⟨c, mem_append_left _ mem, rest⟩
    cases writes : call.write lookup with
    | none =>
      rw [bitPoints_of_none writes] at set
      exact earlier set
    | some write =>
      rw [bitPoints_of_write writes] at set
      split at set
      · by_cases eq : y = write.address
        · exact ⟨call, by simp, write, writes, eq.symm⟩
        · rw [update_of_ne eq] at set
          exact earlier set
      · exact earlier set

variable {range : ContextBitRange} {name : String}

theorem variablePoints_of_none (none : call.sets name range = none) :
    variablePoints name range (calls ++ [call]) = variablePoints name range calls := by
  simp [variablePoints, none]

variable {value : BitVec 32}

theorem variablePoints_of_sets {address : ℕ} (sets : call.sets name range = some (address, value)) :
    variablePoints name range (calls ++ [call]) =
      Function.update (variablePoints name range calls) address (some value) := by
  simp [variablePoints, sets]

theorem sets_masked {address : ℕ}
    (sets : call.sets name range = some (address, value)) (unmasked : range.mask.getLsbD i = false) :
    value.getLsbD i = false := by
  cases call with
  | setVariable name' address' value' =>
    simp only [ContextCall.sets] at sets
    split at sets
    · cases sets
      simp [unmasked]
    · cases sets
  | setContextChangePoint address' num mask value' =>
    simp only [ContextCall.sets] at sets
    split at sets
    · cases sets
      simp [unmasked]
    · cases sets
  | getVariable name' address' => cases sets

theorem variablePoints_masked (unmasked : range.mask.getLsbD i = false) {x : ℕ}
    (set : variablePoints name range calls x = some value) : value.getLsbD i = false := by
  induction calls using List.reverseRecOn with
  | nil => cases set
  | append_singleton calls call ih =>
    cases sets : call.sets name range with
    | none =>
      rw [variablePoints_of_none sets] at set
      exact ih set
    | some point =>
      rw [variablePoints_of_sets sets] at set
      by_cases eq : x = point.1
      · rw [eq, update_self] at set
        cases set
        exact sets_masked sets unmasked
      · rw [update_of_ne eq] at set
        exact ih set

/-- Different variables have no bit in common. -/
def BitsDisjoint (lookup : String → Option ContextBitRange) : Prop :=
  ∀ name name' range range', name ≠ name' → lookup name = some range →
    lookup name' = some range' → range.word = range'.word → range.bits &&& range'.bits = 0

/-- How a call that is whole for a variable acts on one of its bits: it sets the variable and the bit
to the same, or neither of them. -/
theorem sets_of_whole (disjoint : BitsDisjoint lookup)
    (found : lookup name = some range) (fits : range.Fits) (masked : range.mask.getLsbD i = true)
    (whole : call.Whole range) :
    (∃ address value write, call.sets name range = some (address, value) ∧
      call.write lookup = some write ∧ write.word = range.word ∧
      write.mask.getLsbD (range.shift + i) = true ∧ write.address = address ∧
      write.value.getLsbD (range.shift + i) = value.getLsbD i) ∨
    (call.sets name range = none ∧ ∀ write, call.write lookup = some write →
      ¬ (write.word = range.word ∧ write.mask.getLsbD (range.shift + i) = true)) := by
  have here : range.bits.getLsbD (range.shift + i) = true := by
    rw [ContextBitRange.getLsbD_bits fits]
    exact masked
  have missed : ∀ mask : BitVec 32, range.bits &&& mask = 0 →
      mask.getLsbD (range.shift + i) ≠ true := by
    intro mask none set
    have := congrArg (·.getLsbD (range.shift + i)) none
    simp [here, set] at this
  cases call with
  | setVariable name' address value =>
    by_cases same : name' = name
    · subst same
      refine .inl ⟨address, value &&& range.mask,
        ⟨address, range.word, range.bits, (value &&& range.mask) <<< range.shift⟩,
        if_pos rfl, by simp [ContextCall.write, found], rfl, here, rfl, ?_⟩
      rw [BitVec.getLsbD_shiftLeft, Nat.add_sub_cancel_left]
      simp only [fits i masked, decide_true, not_lt.mpr (Nat.le_add_right _ _), decide_false,
        Bool.not_false, Bool.true_and]
    · refine .inr ⟨if_neg same, fun write writes both => ?_⟩
      obtain ⟨range', found', rfl⟩ := map_eq_some_iff.mp writes
      exact missed _ (disjoint name name' range range' (Ne.symm same) found found' both.1.symm)
        both.2
  | setContextChangePoint address num mask value =>
    by_cases covered : num = range.word ∧ range.bits &&& mask = range.bits
    · refine .inl ⟨address, value >>> range.shift &&& range.mask, ⟨address, num, mask, value⟩,
        if_pos covered, rfl, covered.1, ?_, rfl, ?_⟩
      · have := congrArg (·.getLsbD (range.shift + i)) covered.2
        simpa [here] using this
      · simp [masked]
    · refine .inr ⟨if_neg covered, fun write writes both => ?_⟩
      cases writes
      rcases whole both.1 with all | none
      · exact covered ⟨both.1, all⟩
      · exact missed _ none both.2
  | getVariable name' address => exact .inr ⟨rfl, fun write writes => nomatch writes⟩

theorem variablePoints_map (disjoint : BitsDisjoint lookup)
    (found : lookup name = some range) (fits : range.Fits) (masked : range.mask.getLsbD i = true)
    (whole : ∀ call ∈ calls, call.Whole range) (x : ℕ) :
    (variablePoints name range calls x).map (·.getLsbD i) =
      bitPoints lookup calls range.word (range.shift + i) x := by
  induction calls using List.reverseRecOn with
  | nil => rfl
  | append_singleton calls call ih =>
    have ih := ih fun c mem => whole c (mem_append_left _ mem)
    rcases sets_of_whole disjoint found fits masked (whole call (by simp)) with
      ⟨address, value, write, sets, writes, sameWord, inMask, rfl, sameBit⟩ | ⟨none, missed⟩
    · rw [variablePoints_of_sets sets, bitPoints_of_write writes, if_pos ⟨sameWord, inMask⟩]
      by_cases eq : x = write.address
      · rw [eq, update_self, update_self, sameBit]
        rfl
      · rw [update_of_ne eq, update_of_ne eq]
        exact ih
    · rw [variablePoints_of_none none]
      cases writes : call.write lookup with
      | none => rw [bitPoints_of_none writes, ih]
      | some write => rw [bitPoints_of_write writes, if_neg (missed write writes), ih]

end Points

section Steps

variable {lookup : String → Option ContextBitRange} {defaults : String → BitVec 32}
  {before : List ContextCall} {db : ContextDatabase}

/-- The words of the database, at the bits of the variables, are those of the calls. -/
def BitsAsSet (lookup : String → Option ContextBitRange) (defaults : String → BitVec 32)
    (calls : List ContextCall) (db : ContextDatabase) : Prop :=
  ∀ name range, lookup name = some range → ∀ i, range.mask.getLsbD i = true → ∀ a,
    bit (db.database.getOrDefault a).values range.word (range.shift + i) =
      stepAt (bitPoints lookup calls range.word (range.shift + i)) ((defaults name).getLsbD i) a

/-- The split points are the addresses of the calls. -/
def PointsAsSet (lookup : String → Option ContextBitRange) (calls : List ContextCall)
    (db : ContextDatabase) : Prop :=
  ∀ k, (∃ fa, (k, fa) ∈ db.database.mapping.entries) ↔
    ∃ call ∈ calls, ∃ write, call.write lookup = some write ∧ write.address = k

theorem readsAsSet_iff (sound : Sound lookup db) (disjoint : BitsDisjoint lookup)
    (fits : ∀ name range, lookup name = some range → range.Fits) :
    ReadsAsSet lookup defaults before db ↔ BitsAsSet lookup defaults before db := by
  constructor
  · intro reads name range found i masked a
    obtain ⟨value, db', read, bits, -⟩ := reads name range found a
    obtain ⟨value', db'', read', -, -, bits'⟩ := sound.getVariable found a
    obtain ⟨rfl, -⟩ : value = value' ∧ db' = db'' := by
      rw [read, Option.some.injEq, Prod.mk.injEq, Option.some.injEq] at read'
      exact read'
    have := (bits' i).symm.trans (bits i)
    rw [masked, Bool.true_and, Bool.true_and] at this
    exact this
  · intro words name range found a
    obtain ⟨value, db', read, -, -, bits⟩ := sound.getVariable found a
    have bits' : ∀ i, value.getLsbD i = (range.mask.getLsbD i && stepAt
        (bitPoints lookup before range.word (range.shift + i)) ((defaults name).getLsbD i) a) := by
      intro i
      rw [bits i]
      cases masked : range.mask.getLsbD i with
      | false => rfl
      | true => rw [words name range found i masked a]
    refine ⟨value, db', read, bits', fun whole => BitVec.eq_of_getLsbD_eq fun i _ => ?_⟩
    rw [bits' i]
    cases masked : range.mask.getLsbD i with
    | false =>
      refine (stepAt_of_all (p := fun v : BitVec 32 => v.getLsbD i = false) ?_ ?_).symm
      · exact fun x v set => variablePoints_masked masked set
      · simp [masked]
    | true =>
      rw [map_stepAt (fun v : BitVec 32 => v.getLsbD i), Bool.true_and]
      have same : (fun x => (variablePoints name range before x).map (·.getLsbD i)) =
          bitPoints lookup before range.word (range.shift + i) :=
        funext fun x => variablePoints_map disjoint found (fits name range found) masked whole x
      rw [same]
      simp [masked]

theorem PointsAsSet.step (points : PointsAsSet lookup before db) {call : ContextCall}
    {write : Write} (writes : call.write lookup = some write) {db' : ContextDatabase}
    (keys : ∀ k, (∃ fa, (k, fa) ∈ db'.database.mapping.entries) ↔
      k = write.address ∨ ∃ fa, (k, fa) ∈ db.database.mapping.entries) :
    PointsAsSet lookup (before ++ [call]) db' := by
  intro k
  rw [keys k, points k]
  constructor
  · rintro (rfl | ⟨earlier, mem, rest⟩)
    · exact ⟨call, by simp, write, writes, rfl⟩
    · exact ⟨earlier, mem_append_left _ mem, rest⟩
  · rintro ⟨earlier, mem, write', writes', rfl⟩
    rcases mem_append.mp mem with old | new
    · exact .inr ⟨earlier, old, write', writes', rfl⟩
    · obtain rfl := mem_singleton.mp new
      cases writes.symm.trans writes'
      exact .inl rfl

/-- One call: the words are those of the calls afterwards exactly if it reaches as far as it
should. -/
theorem bitsAsSet_step (sound : Sound lookup db)
    (points : PointsAsSet lookup before db) (asSet : BitsAsSet lookup defaults before db)
    {call : ContextCall} (contained : call.Contained) {db' : ContextDatabase}
    (called : db.call call = some db') :
    Sound lookup db' ∧ PointsAsSet lookup (before ++ [call]) db' ∧
      (BitsAsSet lookup defaults (before ++ [call]) db' ↔
        Reaches lookup defaults before call) := by
  classical
  cases writes : call.write lookup with
  | none =>
    obtain ⟨after, called', sound', same⟩ := sound.call_of_none writes
    cases called'.symm.trans called
    refine ⟨sound', fun k => ?_, iff_of_true ?_ ?_⟩
    · rw [same, points k]
      simp [writes, or_and_right, exists_or]
    · intro name range found i masked a
      rw [same, bitPoints_of_none writes]
      exact asSet name range found i masked a
    · intro write writes'
      rw [writes] at writes'
      cases writes'
  | some write =>
    obtain ⟨sound', keys, reads⟩ := sound.call_of_write contained writes called
    refine ⟨sound', points.step writes keys, ?_⟩
    -- what the code and the calls give for one bit of a variable
    have code := fun name range i found masked a => reads range.word (range.shift + i)
      ⟨name, range, i, found, rfl, masked, rfl⟩ a
    have between : ∀ a, (∀ x ∈ db.database.mapping.entries, write.address < x.1 → a < x.1) ↔
        ∀ earlier ∈ before, ∀ other, earlier.write lookup = some other →
          write.address < other.address → a < other.address := by
      intro a
      constructor
      · intro unsplit earlier mem other isWrite above
        obtain ⟨fa, faMem⟩ := (points other.address).mpr ⟨earlier, mem, other, isWrite, rfl⟩
        exact unsplit _ faMem above
      · intro unsplit x mem above
        obtain ⟨earlier, earlierMem, other, isWrite, eq⟩ := (points x.1).mp ⟨x.2, mem⟩
        rw [← eq] at above ⊢
        exact unsplit earlier earlierMem other isWrite above
    constructor
    · intro after write' writes' name range found sameWord i masked inMask
      cases writes.symm.trans writes'
      by_contra neither
      push Not at neither
      obtain ⟨differs, earlier, mem, other, isWrite, above, unset⟩ := neither
      -- at the split point in the way the code keeps the old value
      have read := after name range found i masked other.address
      rw [code name range i found masked, if_neg, asSet name range found i masked,
        bitPoints_of_write writes, if_pos ⟨sameWord.symm, inMask⟩, stepAt_update,
        if_pos ⟨above.le, unset⟩, stepAt_eq_of_unset above.le unset] at read
      · exact differs read
      · rintro ⟨-, -, unsplit⟩
        exact lt_irrefl _ ((between _).mp unsplit earlier mem other isWrite above)
    · intro reaches name range found i masked a
      have set : bitPoints lookup (before ++ [call]) range.word (range.shift + i) = _ :=
        bitPoints_of_write writes
      rw [code name range i found masked, asSet name range found i masked]
      by_cases inMask : range.word = write.word ∧ write.mask.getLsbD (range.shift + i) = true
      · rw [if_pos ⟨inMask.1.symm, inMask.2⟩] at set
        rw [set, stepAt_update]
        by_cases spec : write.address ≤ a ∧
            Unset (bitPoints lookup before range.word (range.shift + i)) write.address a
        · rw [if_pos spec]
          by_cases unsplit : ∀ x ∈ db.database.mapping.entries, write.address < x.1 → a < x.1
          · rw [if_pos ⟨inMask, spec.1, unsplit⟩]
          · rw [if_neg fun all => unsplit all.2.2]
            rw [stepAt_eq_of_unset spec.1 spec.2]
            rcases reaches write writes name range found inMask.1 i masked inMask.2 with
              same | clear
            · exact same
            · rw [between] at unsplit
              push Not at unsplit
              obtain ⟨earlier, mem, other, isWrite, above, upTo⟩ := unsplit
              obtain ⟨y, beyond, le, set⟩ := clear earlier mem other isWrite above
              exact absurd (spec.2 y beyond (le_trans le upTo)) set
        · rw [if_neg spec, if_neg]
          rintro ⟨-, le, unsplit⟩
          refine spec ⟨le, fun y above upTo => ?_⟩
          by_contra set
          obtain ⟨earlier, mem, other, isWrite, rfl⟩ := exists_write_of_bitPoints set
          exact absurd ((between a).mp unsplit earlier mem other isWrite above) upTo.not_gt
      · rw [if_neg fun both => inMask ⟨both.1.symm, both.2⟩] at set
        rw [set, if_neg fun all => inMask all.1]

end Steps

section Start

variable {lookup : String → Option ContextBitRange} {db : ContextDatabase}

/-- A database without split points, where the variables of `set` have their defaults. -/
structure Started (lookup : String → Option ContextBitRange) (set : String → Option (BitVec 32))
    (db : ContextDatabase) : Prop where
  named : ∀ name, db.variable_ name = lookup name
  inside : ∀ name range, lookup name = some range → range.word < db.size
  sized : db.database.default.Sized db.size
  unsplit : db.database.mapping = .empty
  uncached : ∀ index, db.databaseCache.occupied index = false
  defaults : ∀ name range, lookup name = some range → ∀ value, set name = some value →
    ∀ i, range.mask.getLsbD i = true →
      bit db.database.default.values range.word (range.shift + i) = value.getLsbD i ∧
      bit db.database.default.masks range.word (range.shift + i) = true

theorem le_foldl_max : ∀ (values : List ℕ) (start x : ℕ), x ∈ values ∨ x ≤ start →
    x ≤ values.foldl max start := by
  intro values
  induction values with
  | nil =>
    rintro start x (mem | le)
    · cases mem
    · exact le
  | cons value values ih =>
    intro start x
    rw [mem_cons]
    rintro ((rfl | mem) | le)
    · exact ih _ _ (.inr (le_max_right _ _))
    · exact ih _ _ (.inl mem)
    · exact ih _ _ (.inr (le_trans le (le_max_left _ _)))

theorem mem_of_lookup {β : Type} {name : String} {value : β} {entries : List (String × β)}
    (found : entries.lookup name = some value) : (name, value) ∈ entries := by
  obtain ⟨before, after, rfl, -⟩ := lookup_eq_some_iff.mp found
  simp

def lastOf {β : Type} (entries : List (String × β)) (name : String) : Option β :=
  entries.reverse.lookup name

theorem started_build (alignment : ℕ) (vars : List (String × ContextBitRange)) :
    Started (lastOf vars) (fun _ => none) (build alignment vars) := by
  refine ⟨fun name => rfl, fun name range found => ?_, ?_, rfl, fun index => rfl, ?_⟩
  · have mem := mem_reverse.mp (mem_of_lookup found)
    exact le_foldl_max _ 0 (range.word + 1) (.inl (List.mem_map.mpr ⟨_, mem, rfl⟩))
  · constructor <;> simp [build, PartMap.new, FreeArray.reset, resize]
  · intro name range found value set
    cases set

theorem Started.setVariableDefault {set : String → Option (BitVec 32)}
    (started : Started lookup set db) (disjoint : BitsDisjoint lookup)
    (fits : ∀ name range, lookup name = some range → range.Fits) (name : String)
    (value : BitVec 32) {db' : ContextDatabase}
    (run : (db.setVariableDefault name value).map Prod.snd = some db') :
    Started lookup (Function.update set name (some value)) db' := by
  unfold ContextDatabase.setVariableDefault at run
  rw [started.named] at run
  cases found : lookup name with
  | none =>
    rw [found] at run
    cases run
    refine ⟨started.named, started.inside, started.sized, started.unsplit, started.uncached, ?_⟩
    intro name' range' found' value' set'
    have ne : name' ≠ name := by
      rintro rfl
      rw [found] at found'
      cases found'
    rw [update_of_ne ne] at set'
    exact started.defaults name' range' found' value' set'
  | some range =>
    have lt := started.inside name range found
    obtain ⟨values, changed, lengths, bits⟩ := changeWord_spec (range.contained value)
      db.database.default.values (by rw [started.sized.1]; exact lt)
    have marks : db.database.default.masks[range.word]? =
        some (db.database.default.masks.getD range.word 0) := by
      simp [getD_eq_getElem?_getD, started.sized.2, lt]
    rw [found] at run
    simp only [ContextBitRange.setFull, set_eq_changeWord, changed, marks,
      some_bind, Option.pure_def, map_some, Option.some.injEq] at run
    subst run
    refine ⟨started.named, started.inside, ⟨lengths.trans started.sized.1, ?_⟩, started.unsplit,
      fun index => rfl, ?_⟩
    · exact length_set.trans started.sized.2
    intro name' range' found' value' set' i masked
    have inMask : range'.bits.getLsbD (range'.shift + i) = true := by
      rw [ContextBitRange.getLsbD_bits (fits name' range' found')]
      exact masked
    rw [bits, bit_set (by rw [started.sized.2]; exact lt)]
    by_cases same : name' = name
    · subst same
      cases found.symm.trans found'
      obtain rfl : value = value' := by simpa using set'
      rw [if_pos ⟨rfl, inMask⟩, if_pos rfl]
      constructor
      · rw [BitVec.getLsbD_shiftLeft, Nat.add_sub_cancel_left]
        simp only [fits name' range found i masked, decide_true,
          not_lt.mpr (Nat.le_add_right _ _), decide_false, Bool.not_false, Bool.true_and,
          BitVec.getLsbD_and, masked, Bool.and_true]
      · rw [BitVec.getLsbD_or, inMask, Bool.or_true]
    · rw [update_of_ne same] at set'
      obtain ⟨sameValue, marked⟩ := started.defaults name' range' found' value' set' i masked
      rw [if_neg]
      · refine ⟨sameValue, ?_⟩
        split
        · rename_i sameWord
          rw [sameWord] at marked
          rw [BitVec.getLsbD_or]
          exact Bool.or_eq_true_iff.mpr (.inl marked)
        · exact marked
      · rintro ⟨sameWord, inRange⟩
        have := congrArg (·.getLsbD (range'.shift + i))
          (disjoint name' name range' range same found' found sameWord)
        simp [inMask, inRange] at this

theorem started_start {alignment : ℕ} {vars : List (String × ContextBitRange)}
    (disjoint : BitsDisjoint (lastOf vars))
    (fits : ∀ name range, lastOf vars name = some range → range.Fits)
    (defaults : List (String × BitVec 32)) : ∀ db, start alignment vars defaults = some db →
      Started (lastOf vars) (lastOf defaults) db := by
  induction defaults using List.reverseRecOn with
  | nil =>
    intro db run
    cases run
    exact started_build alignment vars
  | append_singleton defaults default ih =>
    intro db run
    unfold start at run
    rw [foldlM_append] at run
    obtain ⟨db₁, run₁, run₂⟩ := bind_eq_some_iff.mp run
    have started := (ih db₁ run₁).setVariableDefault disjoint fits default.1 default.2
      (by simpa using run₂)
    have lookups : Function.update (lastOf defaults) default.1 (some default.2) =
        lastOf (defaults ++ [default]) := by
      funext name
      unfold lastOf
      rw [reverse_append, reverse_singleton, singleton_append, lookup_cons]
      by_cases same : name = default.1
      · rw [same, update_self]
        simp
      · rw [update_of_ne same]
        rw [beq_false_of_ne same]
    rw [← lookups]
    exact started

end Start

namespace ContextDatabase

theorem Started.sound {lookup : String → Option ContextBitRange}
    {set : String → Option (BitVec 32)} {db : ContextDatabase} (started : Started lookup set db)
    (complete : ∀ name range, lookup name = some range → set name ≠ none) :
    Sound lookup db ∧ PointsAsSet lookup [] db ∧
      BitsAsSet lookup (fun name => (set name).getD 0) [] db := by
  have none : ∀ x, x ∉ db.database.mapping.entries := by
    rw [started.unsplit]
    exact fun x => not_mem_nil
  have defaults : ∀ name range, lookup name = some range → ∀ i, range.mask.getLsbD i = true →
      bit db.database.default.values range.word (range.shift + i) =
        ((set name).getD 0).getLsbD i ∧
      bit db.database.default.masks range.word (range.shift + i) = true := by
    intro name range found i masked
    obtain ⟨value, isSet⟩ := ne_none_iff_exists'.mp (complete name range found)
    rw [isSet]
    exact started.defaults name range found value isSet i masked
  refine ⟨⟨started.named, started.inside, started.sized, fun x mem => absurd mem (none x), ?_,
    fun x mem => absurd mem (none x), ?_⟩, ?_, ?_⟩
  · rintro word p ⟨name, range, i, found, rfl, masked, rfl⟩
    exact (defaults name range found i masked).2
  · intro index occupied
    rw [started.uncached index] at occupied
    cases occupied
  · intro k
    apply iff_of_false
    · rintro ⟨fa, mem⟩
      exact none _ mem
    · rintro ⟨call, mem, -⟩
      cases mem
  · intro name range found i masked a
    rw [PartMap.getOrDefault_of_below fun x mem => absurd mem (none x),
      (defaults name range found i masked).1]
    exact (stepAt_eq_default fun y _ => rfl).symm

/-- The reads are as set in every state of a run exactly if each call that the run makes reaches as
far as it should. -/
theorem run_reads_iff {lookup : String → Option ContextBitRange} {defaults : String → BitVec 32}
    {db : ContextDatabase} (disjoint : BitsDisjoint lookup)
    (fits : ∀ name range, lookup name = some range → range.Fits) (sound : Sound lookup db)
    (points : PointsAsSet lookup [] db) (asSet : BitsAsSet lookup defaults [] db)
    (calls : List ContextCall) (contained : ∀ call ∈ calls, call.Contained) :
    (∀ before after, calls = before ++ after → ∀ db', db.run before = some db' →
      ReadsAsSet lookup defaults before db') ↔
    ∀ before call after, calls = before ++ call :: after → (db.run (before ++ [call])).isSome →
      Reaches lookup defaults before call := by
  have snoc : ∀ before call db', db.run (before ++ [call]) = some db' →
      ∃ db₁, db.run before = some db₁ ∧ db₁.call call = some db' := by
    intro before call db' ran
    unfold run at ran
    rw [foldlM_append] at ran
    obtain ⟨db₁, ran₁, ran₂⟩ := bind_eq_some_iff.mp ran
    exact ⟨db₁, ran₁, by simpa using ran₂⟩
  constructor
  · intro reads before call after split returns
    obtain ⟨db', ran⟩ := isSome_iff_exists.mp returns
    -- the database is sound and has its points in every state, so that the step can be read back
    have states : ∀ before, (∃ after, calls = before ++ after) → ∀ db', db.run before = some db' →
        Sound lookup db' ∧ PointsAsSet lookup before db' ∧ BitsAsSet lookup defaults before db' := by
      intro before
      induction before using List.reverseRecOn with
      | nil =>
        rintro - db' ran
        cases ran
        exact ⟨sound, points, asSet⟩
      | append_singleton before call ih =>
        rintro ⟨after, split⟩ db' ran
        obtain ⟨db₁, ran₁, called⟩ := snoc before call db' ran
        obtain ⟨sound₁, points₁, asSet₁⟩ := ih ⟨call :: after, by simpa using split⟩ db₁ ran₁
        obtain ⟨sound', points', -⟩ := bitsAsSet_step sound₁ points₁ asSet₁
          (contained call (by rw [split]; simp)) called
        exact ⟨sound', points', (readsAsSet_iff sound' disjoint fits).mp
          (reads _ after split db' ran)⟩
    obtain ⟨db₁, ran₁, called⟩ := snoc before call db' ran
    obtain ⟨sound₁, points₁, asSet₁⟩ := states before ⟨_, split⟩ db₁ ran₁
    have here : calls = (before ++ [call]) ++ after := by simpa using split
    exact (bitsAsSet_step sound₁ points₁ asSet₁ (contained call (by rw [split]; simp)) called).2.2.mp
      (states _ ⟨after, here⟩ db' ran).2.2
  · intro reaches before
    have states : ∀ after, calls = before ++ after → ∀ db', db.run before = some db' →
        Sound lookup db' ∧ PointsAsSet lookup before db' ∧ BitsAsSet lookup defaults before db' := by
      induction before using List.reverseRecOn with
      | nil =>
        intro after _ db' ran
        cases ran
        exact ⟨sound, points, asSet⟩
      | append_singleton before call ih =>
        intro after split db' ran
        obtain ⟨db₁, ran₁, called⟩ := snoc before call db' ran
        have here : calls = before ++ call :: after := by simpa using split
        obtain ⟨sound₁, points₁, asSet₁⟩ := ih (call :: after) here db₁ ran₁
        obtain ⟨sound', points', step⟩ := bitsAsSet_step sound₁ points₁ asSet₁
          (contained call (by rw [here]; simp)) called
        exact ⟨sound', points', step.mpr (reaches before call after here (by rw [ran]; rfl))⟩
    intro after split db' ran
    obtain ⟨sound', -, asSet'⟩ := states after split db' ran
    exact (readsAsSet_iff sound' disjoint fits).mpr asSet'

/-- From a database whose variables have disjoint bit ranges and whose defaults are set, every run
of calls reads in each of its states what its calls set, exactly if each call that it makes finds no
address of an earlier call in the way of a value that it changes. -/
theorem reads_as_set_iff (alignment : ℕ) (vars : List (String × ContextBitRange))
    (defaults : List (String × BitVec 32)) (ranges : ∀ entry ∈ vars, ∃ startBit endBit,
      ContextBitRange.new startBit endBit = some entry.2) (disjoint : BitsDisjoint (lastOf vars))
    (complete : ∀ name range, lastOf vars name = some range → lastOf defaults name ≠ none)
    (db : ContextDatabase) (started : start alignment vars defaults = some db)
    (calls : List ContextCall) (contained : ∀ call ∈ calls, call.Contained) :
    (∀ before after, calls = before ++ after → ∀ db', db.run before = some db' →
      ReadsAsSet (lastOf vars) (fun name => (lastOf defaults name).getD 0) before db') ↔
    ∀ before call after, calls = before ++ call :: after → (db.run (before ++ [call])).isSome →
      Reaches (lastOf vars) (fun name => (lastOf defaults name).getD 0) before call := by
  have fits : ∀ name range, lastOf vars name = some range → range.Fits := by
    intro name range found
    obtain ⟨startBit, endBit, new⟩ := ranges _ (mem_reverse.mp (mem_of_lookup found))
    exact ContextBitRange.fits_new new
  obtain ⟨sound, points, asSet⟩ :=
    Started.sound (started_start disjoint fits defaults db started) complete
  exact run_reads_iff disjoint fits sound points asSet calls contained

def twoFlags : List (String × ContextBitRange) := [("v", ⟨0, 0, 0, 31, 1⟩), ("w", ⟨0, 1, 1, 30, 1⟩)]

theorem twoFlags_ranges : ∀ entry ∈ twoFlags, ∃ startBit endBit,
    ContextBitRange.new startBit endBit = some entry.2 := by
  intro entry mem
  simp only [twoFlags, mem_cons, not_mem_nil, or_false] at mem
  rcases mem with rfl | rfl
  · exact ⟨0, 0, by decide⟩
  · exact ⟨1, 1, by decide⟩

theorem twoFlags_disjoint : BitsDisjoint (lastOf twoFlags) := by
  intro name name' range range' ne found found' _
  have mem := mem_reverse.mp (mem_of_lookup found)
  have mem' := mem_reverse.mp (mem_of_lookup found')
  simp only [twoFlags, mem_cons, Prod.mk.injEq, not_mem_nil, or_false] at mem mem'
  rcases mem with ⟨rfl, rfl⟩ | ⟨rfl, rfl⟩ <;> rcases mem' with ⟨rfl, rfl⟩ | ⟨rfl, rfl⟩
  · exact absurd rfl ne
  · decide
  · decide
  · exact absurd rfl ne

/-- A single call reaches as far as it should. -/
theorem reads_as_set_flag : ∃ db, start 1 twoFlags [("v", 0), ("w", 0)] = some db ∧
    ∀ before after, [ContextCall.setVariable "v" 10 1] = before ++ after →
      ∀ db', db.run before = some db' →
        ReadsAsSet (lastOf twoFlags) (fun name => (lastOf [("v", 0), ("w", 0)] name).getD 0)
          before db' := by
  have returns : (start 1 twoFlags [("v", 0), ("w", 0)]).isSome = true := by decide
  obtain ⟨db, started⟩ := isSome_iff_exists.mp returns
  refine ⟨db, started, (reads_as_set_iff 1 twoFlags _ twoFlags_ranges twoFlags_disjoint ?_ db
    started _ (by simp [ContextCall.Contained])).mpr ?_⟩
  · intro name range found
    have mem := mem_reverse.mp (mem_of_lookup found)
    simp only [twoFlags, mem_cons, Prod.mk.injEq, not_mem_nil, or_false] at mem
    rcases mem with ⟨rfl, rfl⟩ | ⟨rfl, rfl⟩ <;> decide
  · intro before call after split _ write _ name range _ _ i _ _
    obtain rfl : before = [] := by
      cases before with
      | nil => rfl
      | cons first rest => simp at split
    exact .inr fun earlier mem => nomatch mem

/-- The variable `w` is set at 20, then `v` at 10: the split point at 20 keeps `v` from reaching 25,
where a read of it returns its default. -/
theorem reads_as_set_fails :
    ((start 1 twoFlags [("v", 0), ("w", 0)]).bind fun db =>
      (db.run [.setVariable "w" 20 1, .setVariable "v" 10 1]).bind fun db =>
        (db.getVariable "v" 25).map Prod.fst) = some (some 0) ∧
    stepAt (variablePoints "v" ⟨0, 0, 0, 31, 1⟩
      [.setVariable "w" 20 1, .setVariable "v" 10 1]) 0 25 = 1 ∧
    ¬ ∀ db, start 1 twoFlags [("v", 0), ("w", 0)] = some db →
      ∀ db', db.run [.setVariable "w" 20 1, .setVariable "v" 10 1] = some db' →
        ReadsAsSet (lastOf twoFlags) (fun name => (lastOf [("v", 0), ("w", 0)] name).getD 0)
          [.setVariable "w" 20 1, .setVariable "v" 10 1] db' := by
  have code : ((start 1 twoFlags [("v", 0), ("w", 0)]).bind fun db =>
      (db.run [.setVariable "w" 20 1, .setVariable "v" 10 1]).bind fun db =>
        (db.getVariable "v" 25).map Prod.fst) = some (some 0) := by decide
  refine ⟨code, by decide, fun reads => ?_⟩
  obtain ⟨db, started, rest⟩ := bind_eq_some_iff.mp code
  obtain ⟨db', ran, read⟩ := bind_eq_some_iff.mp rest
  obtain ⟨value, db'', read', -, whole⟩ :=
    reads db started db' ran "v" ⟨0, 0, 0, 31, 1⟩ (by decide) 25
  rw [read', map_some, Option.some.injEq, Option.some.injEq] at read
  have := whole (by simp [ContextCall.Whole])
  rw [read] at this
  revert this
  decide

end ContextDatabase

end Fugue.Lifter
