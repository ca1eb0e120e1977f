import Fugue.Lib.StepFunction
import Fugue.Lifter.PartMap

/-!
# The context database

`fugue-lifter-runtime/src/context.rs`: the context variables of a processor are bit ranges of a few
words, and all of them share one partition map from addresses to words. Beside its words each split
point has marks, the bits that were set explicitly; a new value of a variable is carried on to the
points after its own as long as these do not mark it. Reads go through a cache that every write
clears.

An index out of bounds is `none` in the outer `Option` of an operation. Addresses are only compared
and shifted, so that they are natural numbers.
-/

namespace Fugue.Lifter

open Fugue.Lib

/-- `ContextBitRange` (`context.rs:151-157`). -/
structure ContextBitRange where
  word : ℕ
  startBit : ℕ
  endBit : ℕ
  shift : ℕ
  mask : BitVec 32
  deriving DecidableEq, Repr

namespace ContextBitRange

/-- `ContextBitRange::new` (`context.rs:166-181`), `none` where an operation overflows: the last bit
before the first one, or in another word. -/
def new (startBit endBit : ℕ) : Option ContextBitRange :=
  let word := startBit / 32
  let start := startBit - word * 32
  if word * 32 ≤ endBit then
    let stop := endBit - word * 32
    if stop + 1 ≤ 32 then
      let shift := 32 - stop - 1
      if start + shift < 32 then
        some ⟨word, start, stop, shift, BitVec.allOnes 32 >>> (start + shift)⟩
      else none
    else none
  else none

/-- The bits of the range in its word, `mask.checked_shl(shift)`. -/
def bits (range : ContextBitRange) : BitVec 32 := range.mask <<< range.shift

/-- `ContextBitRange::get` (`context.rs:203-206`). -/
def get (range : ContextBitRange) (values : List (BitVec 32)) : Option (BitVec 32) := do
  return (← values[range.word]?) >>> range.shift &&& range.mask

/-- `ContextBitRange::set` (`context.rs:208-214`). -/
def set (range : ContextBitRange) (values : List (BitVec 32)) (value : BitVec 32) :
    Option (List (BitVec 32)) := do
  let old ← values[range.word]?
  return values.set range.word
    ((old &&& ~~~range.bits) ||| ((value &&& range.mask) <<< range.shift))

end ContextBitRange

/-- `FreeArray` (`context.rs:297-300`). -/
structure FreeArray where
  values : List (BitVec 32)
  masks : List (BitVec 32)
  deriving DecidableEq, Repr

/-- `Vec::resize_with` with the default word. -/
def resize (words : List (BitVec 32)) (size : ℕ) : List (BitVec 32) :=
  words.take size ++ List.replicate (size - words.length) 0

/-- `FreeArray::reset` (`context.rs:303-306`). -/
def FreeArray.reset (fa : FreeArray) (size : ℕ) : FreeArray :=
  ⟨resize fa.values size, resize fa.masks size⟩

/-- `ContextBitRange::set_full` (`context.rs:216-227`). -/
def ContextBitRange.setFull (range : ContextBitRange) (fa : FreeArray) (value : BitVec 32) :
    Option FreeArray := do
  let values ← range.set fa.values value
  let marks ← fa.masks[range.word]?
  return ⟨values, fa.masks.set range.word (marks ||| range.bits)⟩

/-- `ContextCacheEntry` (`context.rs:337-340`). -/
structure ContextCacheEntry where
  address : ℕ
  values : List (BitVec 32)

/-- `ContextCache` (`context.rs:371-376`), with its bit set of occupied entries as a predicate. -/
structure ContextCache where
  entries : Fin 256 → ContextCacheEntry
  occupied : Fin 256 → Bool
  shift : ℕ

namespace ContextCache

/-- `usize::trailing_zeros`. -/
def trailingZeros (alignment : ℕ) : ℕ :=
  if alignment = 0 then 64 else padicValNat 2 alignment

/-- `ContextCache::new` (`context.rs:385-391`), with the address of an empty entry. -/
def new (alignment : ℕ) : ContextCache :=
  ⟨fun _ => ⟨2 ^ 64 - 1, []⟩, fun _ => false, trailingZeros alignment⟩

/-- `ContextCache::index` (`context.rs:433-436`). -/
def index (cache : ContextCache) (address : ℕ) : Fin 256 := Fin.ofNat 256 (address >>> cache.shift)

/-- `ContextCache::entry` (`context.rs:394-404`): whether the entry holds the words of the address,
and the cache where it is taken for the address. -/
def entry (cache : ContextCache) (address : ℕ) : Bool × ContextCache :=
  let index := cache.index address
  let taken := cache.entries index
  (cache.occupied index && taken.address == address,
    { cache with
      entries := Function.update cache.entries index { taken with address := address }
      occupied := Function.update cache.occupied index true })

/-- `ContextCache::clear` (`context.rs:422-432`). -/
def clear (cache : ContextCache) : ContextCache :=
  { cache with
    entries := fun index =>
      if cache.occupied index then { cache.entries index with address := 2 ^ 64 - 1 }
      else cache.entries index
    occupied := fun _ => false }

end ContextCache

/-- `ContextDatabase` (`context.rs:439-449`), without the tracked sets. A later variable of a name
stands before an earlier one. -/
structure ContextDatabase where
  size : ℕ
  contextVariables : List (String × ContextBitRange)
  database : PartMap ℕ FreeArray
  databaseCache : ContextCache

/-- The loop of `get_region_to_change_point` after its first point (`context.rs:766-783`): it goes
on as long as a point does not mark a bit of `mask`. -/
def changeUnmarked (num : ℕ) (mask : BitVec 32) (f : List (BitVec 32) → Option (List (BitVec 32))) :
    List (ℕ × FreeArray) → OrdMap ℕ FreeArray → Option (OrdMap ℕ FreeArray)
  | [], mapping => some mapping
  | (point, fa) :: rest, mapping => do
    let marks ← fa.masks[num]?
    if marks &&& mask = 0 then
      let values ← f fa.values
      changeUnmarked num mask f rest (mapping.insert point { fa with values := values })
    else return mapping

/-- `get_region_to_change_point` (`context.rs:752-784`). -/
def getRegionToChangePoint (db : PartMap ℕ FreeArray) (addr num : ℕ) (mask : BitVec 32)
    (f : List (BitVec 32) → Option (List (BitVec 32))) : Option (PartMap ℕ FreeArray) :=
  let db := db.split addr
  match db.mapping.entries.filter fun entry => decide (addr ≤ entry.1) with
  | [] => some db
  | (point, fa) :: rest => do
    let marks ← fa.masks[num]?
    let values ← f fa.values
    let mapping ← changeUnmarked num mask f rest
      (db.mapping.insert point ⟨values, fa.masks.set num (marks ||| mask)⟩)
    return { db with mapping := mapping }

namespace ContextDatabase

/-- `ContextDatabaseBuilder::build` (`context.rs:478-497`). -/
def build (alignment : ℕ) (contextVariables : List (String × ContextBitRange)) : ContextDatabase :=
  let size := (contextVariables.map fun entry => entry.2.word + 1).foldl max 0
  { size := size
    contextVariables := contextVariables.reverse
    database := PartMap.new (FreeArray.reset ⟨[], []⟩ size)
    databaseCache := .new alignment }

variable (db : ContextDatabase)

/-- `ContextDatabase::variable` (`context.rs:527-529`). -/
def variable_ (name : String) : Option ContextBitRange := db.contextVariables.lookup name

/-- `ContextDatabase::get_variable` (`context.rs:535-549`), with the database that it leaves. -/
def getVariable (name : String) (address : ℕ) : Option (Option (BitVec 32) × ContextDatabase) :=
  match db.variable_ name with
  | none => some (none, db)
  | some context => do
    let (hit, cache) := db.databaseCache.entry address
    let index := cache.index address
    let values := if hit then (cache.entries index).values
      else (db.database.getOrDefault address).values
    let cache := { cache with
      entries := Function.update cache.entries index { cache.entries index with values := values } }
    let value ← context.get values
    return (some value, { db with databaseCache := cache })

/-- `ContextDatabase::set_variable` (`context.rs:564-575`). -/
def setVariable (name : String) (address : ℕ) (value : BitVec 32) :
    Option (Option Unit × ContextDatabase) :=
  match db.variable_ name with
  | none => some (none, db)
  | some context => do
    let database ← getRegionToChangePoint db.database address context.word context.bits
      fun change => context.set change value
    return (some (), { db with database := database, databaseCache := db.databaseCache.clear })

/-- `ContextDatabase::set_variable_default` (`context.rs:597-605`). -/
def setVariableDefault (name : String) (value : BitVec 32) :
    Option (Option Unit × ContextDatabase) :=
  match db.variable_ name with
  | none => some (none, db)
  | some context => do
    let default ← context.setFull db.database.default value
    return (some (), { db with
      database := { db.database with default := default }
      databaseCache := db.databaseCache.clear })

/-- What `set_context_change_point` does with the words of a point (`context.rs:676-683`). -/
def changeWord (num : ℕ) (mask value : BitVec 32) (change : List (BitVec 32)) :
    Option (List (BitVec 32)) := do
  let old ← change[num]?
  return change.set num ((old &&& ~~~mask) ||| value)

/-- `ContextDatabase::set_context_change_point` (`context.rs:676-683`). -/
def setContextChangePoint (address num : ℕ) (mask value : BitVec 32) : Option ContextDatabase := do
  let database ← getRegionToChangePoint db.database address num mask (changeWord num mask value)
  return { db with database := database, databaseCache := db.databaseCache.clear }

end ContextDatabase

inductive ContextCall where
  | setVariable (name : String) (address : ℕ) (value : BitVec 32)
  | setContextChangePoint (address num : ℕ) (mask value : BitVec 32)
  | getVariable (name : String) (address : ℕ)
  deriving DecidableEq, Repr

namespace ContextDatabase

def call (db : ContextDatabase) : ContextCall → Option ContextDatabase
  | .setVariable name address value => (db.setVariable name address value).map Prod.snd
  | .setContextChangePoint address num mask value =>
    db.setContextChangePoint address num mask value
  | .getVariable name address => (db.getVariable name address).map Prod.snd

/-- A database with its variables and their defaults. -/
def start (alignment : ℕ) (contextVariables : List (String × ContextBitRange))
    (defaults : List (String × BitVec 32)) : Option ContextDatabase :=
  defaults.foldlM (fun db default => (db.setVariableDefault default.1 default.2).map Prod.snd)
    (build alignment contextVariables)

/-- The database after a sequence of calls. -/
def run (db : ContextDatabase) (calls : List ContextCall) : Option ContextDatabase :=
  calls.foldlM call db

end ContextDatabase

end Fugue.Lifter
