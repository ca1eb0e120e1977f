import Fugue.Lifter.ContextWrites

/-!
# Context variables as functions of the address

A variable is meant to be a step function of the address: a call that sets it at an address holds
from there up to the next address where it was set. `ReadsAsSet` says that the reads of a database
are those of the calls made on it. The code carries a value only up to the next split point of any
variable, so that this holds exactly as long as no such point stands in the way of a value that
changes something (`reads_as_set_iff`).
-/

namespace Fugue.Lifter

open Fugue.Lib ContextDatabase Option Function ContextCache

/-- What a call writes: the bits of a mask in a word, from an address on. -/
structure Write where
  address : ℕ
  word : ℕ
  mask : BitVec 32
  value : BitVec 32

section Calls

variable (lookup : String → Option ContextBitRange)

def ContextCall.write : ContextCall → Option Write
  | .setVariable name address value => (lookup name).map fun range =>
    ⟨address, range.word, range.bits, (value &&& range.mask) <<< range.shift⟩
  | .setContextChangePoint address num mask value => some ⟨address, num, mask, value⟩
  | .getVariable _ _ => none

/-- Where the calls set a bit, and to what: the last one at an address counts. -/
def bitPoints (calls : List ContextCall) (word i : ℕ) : ℕ → Option Bool :=
  calls.foldl (fun points call =>
    match call.write lookup with
    | some write =>
      if write.word = word ∧ write.mask.getLsbD i = true then
        Function.update points write.address (some (write.value.getLsbD i))
      else points
    | none => points) fun _ => none

/-- The address and the value to which a call sets the whole variable. -/
def ContextCall.sets (name : String) (range : ContextBitRange) :
    ContextCall → Option (ℕ × BitVec 32)
  | .setVariable name' address value =>
    if name' = name then some (address, value &&& range.mask) else none
  | .setContextChangePoint address num mask value =>
    if num = range.word ∧ range.bits &&& mask = range.bits then
      some (address, value >>> range.shift &&& range.mask)
    else none
  | .getVariable _ _ => none

/-- Where the calls set the variable, and to what: the last one at an address counts. -/
def variablePoints (name : String) (range : ContextBitRange) (calls : List ContextCall) :
    ℕ → Option (BitVec 32) :=
  calls.foldl (fun points call =>
    match call.sets name range with
    | some (address, value) => Function.update points address (some value)
    | none => points) fun _ => none

/-- The call sets the whole variable or nothing of it. -/
def ContextCall.Whole (range : ContextBitRange) : ContextCall → Prop
  | .setContextChangePoint _ num mask _ =>
    num = range.word → range.bits &&& mask = range.bits ∨ range.bits &&& mask = 0
  | _ => True

def ContextCall.Contained : ContextCall → Prop
  | .setContextChangePoint _ _ mask value => Lifter.Contained mask value
  | _ => True

variable (defaults : String → BitVec 32)

/-- Every read returns what the calls set: each bit of a variable is that of the last call that set
it at the greatest address up to the one read, and a variable that every call sets as a whole or not
at all has the value of the last call that set it there. -/
def ReadsAsSet (calls : List ContextCall) (db : ContextDatabase) : Prop :=
  ∀ name range, lookup name = some range → ∀ a, ∃ value db',
    db.getVariable name a = some (some value, db') ∧
    (∀ i, value.getLsbD i = (range.mask.getLsbD i && stepAt
      (bitPoints lookup calls range.word (range.shift + i)) ((defaults name).getLsbD i) a)) ∧
    ((∀ call ∈ calls, call.Whole range) →
      value = stepAt (variablePoints name range calls) (defaults name &&& range.mask) a)

/-- A call reaches as far as it should: each bit of a variable that it sets has the value already,
or no address of an earlier call lies between the address of this one and the next address where
this bit was set. -/
def Reaches (before : List ContextCall) (call : ContextCall) : Prop :=
  ∀ write, call.write lookup = some write →
  ∀ name range, lookup name = some range → range.word = write.word →
  ∀ i, range.mask.getLsbD i = true → write.mask.getLsbD (range.shift + i) = true →
    stepAt (bitPoints lookup before range.word (range.shift + i)) ((defaults name).getLsbD i)
        write.address = write.value.getLsbD (range.shift + i) ∨
    ∀ earlier ∈ before, ∀ other, earlier.write lookup = some other →
      write.address < other.address → ∃ y, write.address < y ∧ y ≤ other.address ∧
        bitPoints lookup before range.word (range.shift + i) y ≠ none

end Calls

/-- The mask of a range lies within a word. -/
def ContextBitRange.Fits (range : ContextBitRange) : Prop :=
  ∀ i, range.mask.getLsbD i = true → range.shift + i < 32

theorem ContextBitRange.fits_new {startBit endBit : ℕ} {range : ContextBitRange}
    (new : ContextBitRange.new startBit endBit = some range) : range.Fits := by
  simp only [ContextBitRange.new] at new
  split at new
  · split at new
    · split at new
      · cases new
        intro i set
        simp only [BitVec.getLsbD_ushiftRight, BitVec.getLsbD_allOnes, decide_eq_true_eq] at set
        dsimp only
        omega
      · cases new
    · cases new
  · cases new

theorem ContextBitRange.getLsbD_bits {range : ContextBitRange} (fits : range.Fits) (i : ℕ) :
    range.bits.getLsbD (range.shift + i) = range.mask.getLsbD i := by
  rw [ContextBitRange.bits, BitVec.getLsbD_shiftLeft, Nat.add_sub_cancel_left]
  cases set : range.mask.getLsbD i with
  | false => simp
  | true => simp [fits i set]

theorem ContextBitRange.get_spec (range : ContextBitRange) (words : List (BitVec 32))
    (lt : range.word < words.length) : ∃ value, range.get words = some value ∧
      ∀ i, value.getLsbD i = (range.mask.getLsbD i && bit words range.word (range.shift + i)) := by
  refine ⟨words.getD range.word 0 >>> range.shift &&& range.mask, ?_, fun i => ?_⟩
  · simp [ContextBitRange.get, List.getElem?_eq_getElem lt]
  · rw [BitVec.getLsbD_and, BitVec.getLsbD_ushiftRight, Bool.and_comm]
    rfl

def VariableBit (lookup : String → Option ContextBitRange) (word p : ℕ) : Prop :=
  ∃ name range i, lookup name = some range ∧ range.word = word ∧
    range.mask.getLsbD i = true ∧ p = range.shift + i

/-- What every database of these variables keeps: its points have all the words and mark all the
bits of the variables, and an occupied entry of the cache has the words of its address. -/
structure Sound (lookup : String → Option ContextBitRange) (db : ContextDatabase) : Prop where
  named : ∀ name, db.variable_ name = lookup name
  inside : ∀ name range, lookup name = some range → range.word < db.size
  sizedDefault : db.database.default.Sized db.size
  sized : ∀ x ∈ db.database.mapping.entries, x.2.Sized db.size
  marksDefault : db.database.default.Marks (VariableBit lookup)
  marks : ∀ x ∈ db.database.mapping.entries, x.2.Marks (VariableBit lookup)
  coherent : ∀ index, db.databaseCache.occupied index = true →
    (db.databaseCache.entries index).values =
      (db.database.getOrDefault (db.databaseCache.entries index).address).values

section Sound

variable {lookup : String → Option ContextBitRange} {db : ContextDatabase}

/-- The cache after a read that found the words at the address. -/
def ContextCache.filled (cache : ContextCache) (a : ℕ) (words : List (BitVec 32)) : ContextCache :=
  { cache with
    entries := Function.update cache.entries (cache.index a) ⟨a, words⟩
    occupied := Function.update cache.occupied (cache.index a) true }

/-- A read returns the words of the database and leaves the database. -/
theorem Sound.getVariable (sound : Sound lookup db) {name : String} {range : ContextBitRange}
    (found : lookup name = some range) (a : ℕ) : ∃ value db',
      db.getVariable name a = some (some value, db') ∧ Sound lookup db' ∧
      db'.database = db.database ∧
      ∀ i, value.getLsbD i = (range.mask.getLsbD i &&
        bit (db.database.getOrDefault a).values range.word (range.shift + i)) := by
  have words : (if (db.databaseCache.entry a).1 = true then
      ((db.databaseCache.entry a).2.entries ((db.databaseCache.entry a).2.index a)).values
      else (db.database.getOrDefault a).values) = (db.database.getOrDefault a).values := by
    split
    · rename_i hit
      simp only [entry, Bool.and_eq_true, beq_iff_eq] at hit
      have coherent := sound.coherent _ hit.1
      rw [hit.2] at coherent
      simpa [entry, index] using coherent
    · rfl
  have here : (db.database.getOrDefault a).Sized db.size :=
    PartMap.getOrDefault_of_all sound.sizedDefault sound.sized
  obtain ⟨value, got, bits⟩ := ContextBitRange.get_spec range
    (db.database.getOrDefault a).values
    (by rw [here.1]; exact sound.inside name range found)
  refine ⟨value, { db with
    databaseCache := db.databaseCache.filled a (db.database.getOrDefault a).values },
    ?_, ⟨sound.named, sound.inside, sound.sizedDefault, sound.sized, sound.marksDefault,
      sound.marks, fun index occupied => ?_⟩, rfl, bits⟩
  · simp only [ContextDatabase.getVariable, sound.named, found, words, got]
    simp [entry, filled, index]
  · dsimp only [filled] at occupied ⊢
    by_cases same : index = db.databaseCache.index a
    · subst same
      rw [update_self]
    · rw [update_of_ne same] at occupied ⊢
      exact sound.coherent index occupied

variable {call : ContextCall}

/-- A call that writes nothing leaves the database. -/
theorem Sound.call_of_none (sound : Sound lookup db) (none : call.write lookup = none) :
    ∃ db', db.call call = some db' ∧ Sound lookup db' ∧ db'.database = db.database := by
  cases call with
  | setVariable name address value =>
    have unknown := map_eq_none_iff.mp none
    exact ⟨db, by simp [ContextDatabase.call, ContextDatabase.setVariable, sound.named, unknown],
      sound, rfl⟩
  | setContextChangePoint address num mask value => cases none
  | getVariable name address =>
    cases found : lookup name with
    | none =>
      exact ⟨db, by simp [ContextDatabase.call, ContextDatabase.getVariable, sound.named, found],
        sound, rfl⟩
    | some range =>
      obtain ⟨value, db', read, sound', same, -⟩ := sound.getVariable found address
      exact ⟨db', by simp [ContextDatabase.call, read], sound', same⟩

theorem ContextDatabase.call_of_write (named : ∀ name, db.variable_ name = lookup name)
    {write : Write} (writes : call.write lookup = some write) :
    db.call call = (getRegionToChangePoint db.database write.address write.word write.mask
      (changeWord write.word write.mask write.value)).map fun database =>
        { db with database := database, databaseCache := db.databaseCache.clear } := by
  cases call with
  | setVariable name address value =>
    obtain ⟨range, found, rfl⟩ := map_eq_some_iff.mp writes
    have same : (fun change => range.set change value) =
        changeWord range.word range.bits ((value &&& range.mask) <<< range.shift) := rfl
    simp only [ContextDatabase.call, ContextDatabase.setVariable, named, found, same]
    cases getRegionToChangePoint db.database address range.word range.bits
      (changeWord range.word range.bits ((value &&& range.mask) <<< range.shift)) <;> rfl
  | setContextChangePoint address num mask value =>
    cases writes
    simp only [ContextDatabase.call, ContextDatabase.setContextChangePoint]
    cases getRegionToChangePoint db.database address num mask (changeWord num mask value) <;> rfl
  | getVariable name address => cases writes

theorem ContextCall.contained_write (contained : call.Contained)
    {write : Write} (writes : call.write lookup = some write) :
    Lifter.Contained write.mask write.value := by
  cases call with
  | setVariable name address value =>
    obtain ⟨range, found, rfl⟩ := map_eq_some_iff.mp writes
    exact range.contained value
  | setContextChangePoint address num mask value =>
    cases writes
    exact contained
  | getVariable name address => cases writes

/-- A call that writes gives the bits of its mask their value up to the next split point. -/
theorem Sound.call_of_write (sound : Sound lookup db)
    (contained : call.Contained) {write : Write} (writes : call.write lookup = some write)
    {db' : ContextDatabase} (called : db.call call = some db') : Sound lookup db' ∧
      (∀ k, (∃ fa, (k, fa) ∈ db'.database.mapping.entries) ↔
        k = write.address ∨ ∃ fa, (k, fa) ∈ db.database.mapping.entries) ∧
      ∀ word i, VariableBit lookup word i → ∀ a, bit (db'.database.getOrDefault a).values word i =
          if (word = write.word ∧ write.mask.getLsbD i = true) ∧ write.address ≤ a ∧
              ∀ x ∈ db.database.mapping.entries, write.address < x.1 → a < x.1 then
            write.value.getLsbD i else bit (db.database.getOrDefault a).values word i := by
  rw [ContextDatabase.call_of_write sound.named writes] at called
  obtain ⟨m, run, rfl⟩ := map_eq_some_iff.mp called
  have lt := getRegion_isSome sound.sizedDefault sound.sized run
  obtain ⟨m', run', default, points, keys, reads⟩ := getRegion_reads
    (ContextCall.contained_write contained writes) lt sound.sizedDefault sound.sized
    sound.marksDefault sound.marks
  cases run.symm.trans run'
  refine ⟨⟨sound.named, sound.inside, ?_, fun x mem => (points x mem).1, ?_,
    fun x mem => (points x mem).2, fun index occupied => ?_⟩, keys, reads⟩
  · rw [default]
    exact sound.sizedDefault
  · rw [default]
    exact sound.marksDefault
  · cases occupied

end Sound

end Fugue.Lifter
