import Fugue.Ir.Address
import Fugue.Ir.IdAllocator

/-!
# Staged symbols

`SymbolTableStaging` (`ir/symbol/table/mod.rs:55-60`, `580-868`) collects changes of a symbol table
until a transaction commits: `prepare` makes a record of every symbol that has changed, and
`PreparedSymbolBatch::publish` (`mod.rs:895-930`) carries them out. A transient table
(`ir/symbol/table/transient.rs`) has vectors and maps, a persistent one
(`ir/symbol/table/persistent.rs`) rows of the entity store, of which the rows of an address or a name
are found by their prefix. A vector is its length with a function here, a map a function.
-/

namespace Fugue.Ir

open Fugue.Lib
open Function (update)

/-- `Id::key` (`ir/mod.rs:206-208`), the generation above the index. -/
def IrId.key (id : IrId) : ℕ ×ₗ ℕ := toLex (id.generation, id.index)

theorem IrId.key_injective : Function.Injective IrId.key := by
  rintro ⟨index, generation⟩ ⟨index', generation'⟩ same
  obtain ⟨rfl, rfl⟩ := Prod.mk.inj (toLex.injective same)
  rfl

/-- The order of ids (`ir/mod.rs:147-157`). -/
instance : LinearOrder IrId := LinearOrder.lift' IrId.key IrId.key_injective

/-- `SymbolProperties` (`symbol/mod.rs:276-295`), a set of 8 flags. -/
abbrev SymbolProperties := BitVec 8

namespace SymbolProperties

def kindMask : SymbolProperties := 0b00011000
def visibilityMask : SymbolProperties := 0b00000111
def invalid : SymbolProperties := 0b11111111

end SymbolProperties

/-- `SymbolEntry` (`symbol/mod.rs:88-94`). -/
structure SymbolEntry where
  address : Address
  symbol : String
  properties : SymbolProperties
  size : Option ℕ
  indices : List ℕ
  deriving DecidableEq

namespace SymbolEntry

/-- The default entry of a free slot. -/
def default : SymbolEntry := ⟨⟨0, 0⟩, "", SymbolProperties.invalid, none, []⟩

variable (entry : SymbolEntry)

/-- `is_valid` (`symbol/mod.rs:204-206`). -/
def isValid : Bool := decide (entry.properties ≠ SymbolProperties.invalid)

/-- `kind` (`symbol/mod.rs:208-210`). -/
def kind : SymbolProperties := entry.properties &&& SymbolProperties.kindMask

/-- `has_same_referent` (`symbol/mod.rs:216-218`). -/
def hasSameReferent (other : SymbolEntry) : Bool :=
  decide (entry.address = other.address) && decide (entry.symbol = other.symbol) &&
    decide (entry.kind = other.kind)

/-- `add_index` (`symbol/mod.rs:220-224`). -/
def addIndex (index : ℕ) : SymbolEntry :=
  if index ∈ entry.indices then entry else { entry with indices := entry.indices ++ [index] }

/-- `remove_index` (`symbol/mod.rs:226-228`). -/
def removeIndex (index : ℕ) : SymbolEntry :=
  { entry with indices := entry.indices.filter fun existing => decide (existing ≠ index) }

/-- `update_visibility` (`symbol/mod.rs:265-269`). -/
def updateVisibility (properties : SymbolProperties) : SymbolEntry :=
  { entry with properties := (entry.properties &&& ~~~SymbolProperties.visibilityMask) |||
      (properties &&& SymbolProperties.visibilityMask) }

end SymbolEntry

structure SymbolReads where
  /-- `try_get_by_id` -/
  entry : IrId → Option SymbolEntry
  /-- `get_id_by_index` -/
  idByIndex : ℕ → Option IrId
  /-- the ids of `get_by_address` -/
  byAddress : Address → List IrId
  /-- the ids of `iter` -/
  ids : List IrId
  /-- `pending_id`; `none` if there are no more -/
  pendingId : ℕ → Option IrId

/-- `SymbolTableStaging` (`table/mod.rs:55-60`). -/
structure SymbolTableStaging where
  cancelledSymbols : List IrId
  stagedIndices : ℕ → Option (Option IrId)
  stagedSymbols : OrdMap IrId (Option SymbolEntry)
  symbolReservations : List IrId

/-- `PreparedSymbolRecord` (`table/mod.rs:70-75`); of the previous entry the source keeps the name,
the address and the indices. -/
structure PreparedSymbolRecord where
  id : IrId
  entry : Option SymbolEntry
  previous : Option SymbolEntry

namespace SymbolTableStaging

/-- A staging without changes. -/
def empty : SymbolTableStaging := ⟨[], fun _ => none, .empty, []⟩

variable (staging : SymbolTableStaging) (reads : SymbolReads)

/-- `symbol` (`table/mod.rs:732-743`). -/
def symbol (id : IrId) : Option SymbolEntry :=
  match staging.stagedSymbols.get? id with
  | some entry => entry
  | none => reads.entry id

/-- `symbol_id_by_index` (`table/mod.rs:745-757`). -/
def symbolIdByIndex (index : ℕ) : Option IrId :=
  match staging.stagedIndices index with
  | some id => id
  | none => (reads.idByIndex index).bind fun id =>
    match staging.stagedSymbols.get? id with
    | none => some id
    | some entry => (entry.filter fun entry => decide (index ∈ entry.indices)).map fun _ => id

/-- The first loop of `stage` (`table/mod.rs:716-722`). -/
def unstageIndices (id : IrId) (indices : List ℕ) : SymbolTableStaging :=
  indices.foldl (fun staging index =>
    if staging.symbolIdByIndex reads index = some id then
      { staging with stagedIndices := update staging.stagedIndices index (some none) }
    else staging) staging

/-- The second loop of `stage` (`table/mod.rs:723-727`). -/
def stageIndices (id : IrId) (indices : List ℕ) : SymbolTableStaging :=
  indices.foldl (fun staging index =>
    { staging with
      stagedIndices := update staging.stagedIndices index (some (some id)) }) staging

/-- `stage` (`table/mod.rs:710-730`). -/
def stage (id : IrId) (entry : Option SymbolEntry) : SymbolTableStaging :=
  let previous := ((staging.symbol reads id).map SymbolEntry.indices).getD []
  let staged := (staging.unstageIndices reads id previous).stageIndices id
    ((entry.map SymbolEntry.indices).getD [])
  { staged with stagedSymbols := staged.stagedSymbols.insert id entry }

/-- `remove_symbol` (`table/mod.rs:697-708`). -/
def removeSymbol (id : IrId) : SymbolTableStaging :=
  let staged := staging.stage reads id none
  if (reads.entry id).isNone then
    { staged with
      stagedSymbols := staged.stagedSymbols.erase id
      cancelledSymbols := staged.cancelledSymbols ++ [id] }
  else staged

/-- `get_referent` (`table/mod.rs:676-695`). -/
def getReferent (entry : SymbolEntry) : Option IrId :=
  ((reads.byAddress entry.address).find? fun id =>
    (staging.symbol reads id).any fun candidate => candidate.hasSameReferent entry).or
  ((staging.stagedSymbols.entries.find? fun staged =>
    staged.2.any fun candidate => candidate.hasSameReferent entry).map Prod.fst)

/-- `add_or_update` (`table/mod.rs:652-674`). -/
def addOrUpdate (index : ℕ) (entry : SymbolEntry) : Option SymbolTableStaging :=
  match staging.getReferent reads entry with
  | some id => do
    let existing ← staging.symbol reads id
    return staging.stage reads id
      (some ((existing.addIndex index).updateVisibility entry.properties))
  | none => do
    let id ← reads.pendingId staging.symbolReservations.length
    return { staging with symbolReservations := staging.symbolReservations ++ [id] }.stage reads id
      (some entry)

/-- `add` (`table/mod.rs:580-604`). -/
def add (index : ℕ) (entry : SymbolEntry) : Option SymbolTableStaging :=
  let entry := entry.addIndex index
  match staging.symbolIdByIndex reads index with
  | none => staging.addOrUpdate reads index entry
  | some existingId => do
    let existing ← staging.symbol reads existingId
    if existing = entry then return staging
    let staging := if 1 < existing.indices.length then
        staging.stage reads existingId (some (existing.removeIndex index))
      else staging.removeSymbol reads existingId
    staging.addOrUpdate reads index entry

/-- `set_properties` (`table/mod.rs:562-578`). -/
def setProperties (id : IrId) (properties : SymbolProperties) : SymbolTableStaging :=
  match staging.symbol reads id with
  | none => staging
  | some entry =>
    if entry.properties = properties then staging
    else staging.stage reads id (some { entry with properties := properties })

/-- `remove_by_id` (`table/mod.rs:619-629`). -/
def removeById (id : IrId) : SymbolTableStaging :=
  if (staging.symbol reads id).isNone then staging else staging.removeSymbol reads id

/-- `remove_by_index` (`table/mod.rs:631-641`). -/
def removeByIndex (index : ℕ) : SymbolTableStaging :=
  match staging.symbolIdByIndex reads index with
  | none => staging
  | some id => staging.removeSymbol reads id

/-- `symbol_ids_matching` (`table/mod.rs:759-784`), a set of ids. -/
def symbolIdsMatching (predicate : SymbolEntry → Bool) : OrdMap IrId Unit :=
  let ids := reads.ids.foldl (fun ids id =>
    if (staging.symbol reads id).any predicate then ids.insert id () else ids) .empty
  staging.stagedSymbols.entries.foldl (fun ids staged =>
    if staged.2.any predicate then ids.insert staged.1 () else ids.erase staged.1) ids

/-- `remove_by_name` and `remove_by_address`. -/
def removeMatching (predicate : SymbolEntry → Bool) : SymbolTableStaging :=
  (staging.symbolIdsMatching reads predicate).entries.foldl
    (fun staging found => staging.removeSymbol reads found.1) staging

/-- The records of `prepare` (`table/mod.rs:787-842`): the symbols that have changed. -/
def prepare : List PreparedSymbolRecord :=
  staging.stagedSymbols.entries.filterMap fun staged =>
    if staged.2 = reads.entry staged.1 then none
    else some ⟨staged.1, staged.2, reads.entry staged.1⟩

end SymbolTableStaging

inductive SymbolOp where
  | add (index : ℕ) (entry : SymbolEntry)
  | setProperties (id : IrId) (properties : SymbolProperties)
  | removeById (id : IrId)
  | removeByIndex (index : ℕ)
  | removeByName (symbol : String)
  | removeByAddress (address : Address)

/-- An operation of a staging; `none` where it stops, as there are no more ids. -/
def SymbolOp.apply (reads : SymbolReads) (staging : SymbolTableStaging) :
    SymbolOp → Option SymbolTableStaging
  | .add index entry => staging.add reads index entry
  | .setProperties id properties => some (staging.setProperties reads id properties)
  | .removeById id => some (staging.removeById reads id)
  | .removeByIndex index => some (staging.removeByIndex reads index)
  | .removeByName symbol =>
    some (staging.removeMatching reads fun entry => decide (entry.symbol = symbol))
  | .removeByAddress address =>
    some (staging.removeMatching reads fun entry => decide (entry.address = address))

/-! ## Transient tables -/

/-- `SymbolTable` (`table/transient.rs:14-22`). -/
structure TransientSymbols where
  allocator : IdAllocator
  count : ℕ
  symbols : ℕ → SymbolEntry
  generations : ℕ → ℕ
  indices : ℕ → Option IrId
  names : String → List IrId
  addresses : Address → List IrId

namespace TransientSymbols

/-- `SymbolTable::new`. -/
def new : TransientSymbols :=
  ⟨.new, 0, fun _ => .default, fun _ => 0, fun _ => none, fun _ => [], fun _ => []⟩

variable (table : TransientSymbols)

/-- `get_by_id` (`table/transient.rs:150-157`). -/
def getById (id : IrId) : Option SymbolEntry :=
  if id.index < table.count ∧ table.generations id.index = id.generation then
    some (table.symbols id.index) |>.filter SymbolEntry.isValid
  else none

/-- `len` (`table/transient.rs:118-120`). -/
def len : ℕ := table.count - table.allocator.freeIds.length

def reads : SymbolReads where
  entry := table.getById
  idByIndex := table.indices
  byAddress := table.addresses
  ids := ((List.range table.count).filter fun i => (table.symbols i).isValid).map
    fun i => ⟨i, table.generations i⟩
  pendingId := table.allocator.pendingId

/-- `clear_entry` (`table/transient.rs:281-319`). -/
def clearEntry (id : IrId) : TransientSymbols :=
  match table.getById id with
  | none => table
  | some entry =>
    { table with
      names := update table.names entry.symbol
        ((table.names entry.symbol).filter fun other => decide (other ≠ id))
      addresses := update table.addresses entry.address
        ((table.addresses entry.address).filter fun other => decide (other ≠ id))
      indices := fun i => if i ∈ entry.indices then none else table.indices i
      symbols := update table.symbols id.index .default }

/-- `publish_reservation` (`table/transient.rs:626-635`). -/
def publishReservation (id : IrId) : TransientSymbols :=
  { table with
    count := max table.count (id.index + 1)
    symbols := fun i => if table.count ≤ i then .default else table.symbols i
    generations := update (fun i => if table.count ≤ i then 0 else table.generations i)
      id.index id.generation }

/-- `publish_release` (`table/transient.rs:637-640`). -/
def publishRelease (id : IrId) : TransientSymbols :=
  { table with generations := update table.generations id.index (id.generation + 1) }

/-- `publish_remove` (`table/transient.rs:661-666`). -/
def publishRemove (id : IrId) : TransientSymbols := (table.clearEntry id).publishRelease id

/-- `publish_upsert` (`table/transient.rs:642-659`). -/
def publishUpsert (record : PreparedSymbolRecord) : TransientSymbols :=
  match record.entry with
  | none => table
  | some entry =>
    let table := if record.previous.isSome then table.clearEntry record.id else table
    { table with
      symbols := update table.symbols record.id.index entry
      generations := update table.generations record.id.index record.id.generation
      names := update table.names entry.symbol (table.names entry.symbol ++ [record.id])
      addresses := update table.addresses entry.address
        (table.addresses entry.address ++ [record.id])
      indices := fun i => if i ∈ entry.indices then some record.id else table.indices i }

/-- `PreparedSymbolBatch::publish` (`table/mod.rs:895-930`); `none` where the allocator stops. Each
reservation and release calls the allocator, which nothing else uses. -/
def publish (staging : SymbolTableStaging) : Option TransientSymbols := do
  let records := staging.prepare table.reads
  let removed := records.filter fun record => record.entry.isNone
  let upserted := records.filter fun record => record.entry.isSome
  let allocator ← table.allocator.commit staging.symbolReservations
    (staging.cancelledSymbols ++ removed.map PreparedSymbolRecord.id)
  let table := staging.symbolReservations.foldl publishReservation table
  let table := staging.cancelledSymbols.foldl publishRelease table
  let table := removed.foldl (fun table record => table.publishRemove record.id) table
  let table := upserted.foldl publishUpsert table
  return { table with allocator := allocator }

end TransientSymbols

/-! ## Persistent tables -/

structure SymbolRows where
  entries : OrdMap IrId SymbolEntry
  names : String → OrdMap IrId Unit
  addresses : Address → OrdMap IrId Unit
  loaders : ℕ → Option IrId

/-- A write of a row, with its value or none for a removal. -/
inductive SymbolWrite where
  | entry (id : IrId) (entry : Option SymbolEntry)
  | name (symbol : String) (id : IrId) (present : Bool)
  | address (address : Address) (id : IrId) (present : Bool)
  | loader (index : ℕ) (id : Option IrId)

def setRow (rows : OrdMap IrId Unit) (id : IrId) (present : Bool) : OrdMap IrId Unit :=
  if present then rows.insert id () else rows.erase id

def SymbolRows.apply (rows : SymbolRows) : SymbolWrite → SymbolRows
  | .entry id (some entry) => { rows with entries := rows.entries.insert id entry }
  | .entry id none => { rows with entries := rows.entries.erase id }
  | .name symbol id present =>
    { rows with names := update rows.names symbol (setRow (rows.names symbol) id present) }
  | .address address id present =>
    { rows with
      addresses := update rows.addresses address
        (setRow (rows.addresses address) id present) }
  | .loader index id => { rows with loaders := update rows.loaders index id }

/-- `append_unlinks` (`table/persistent.rs:499-508`). -/
def appendUnlinks (id : IrId) (entry : SymbolEntry) : List SymbolWrite :=
  .name entry.symbol id false :: .address entry.address id false ::
    entry.indices.map fun index => .loader index none

/-- `append_links` (`table/persistent.rs:159-176`). -/
def appendLinks (id : IrId) (entry : SymbolEntry) : List SymbolWrite :=
  .name entry.symbol id true :: .address entry.address id true ::
    entry.indices.map fun index => .loader index (some id)

/-- `append_prepared_writes` (`table/persistent.rs:510-523`). -/
def PreparedSymbolRecord.writes (record : PreparedSymbolRecord) : List SymbolWrite :=
  ((record.previous.map (appendUnlinks record.id)).getD []) ++
    ((record.entry.map (appendLinks record.id)).getD [])

/-- `SymbolTable` (`table/persistent.rs:153-157`): the allocator, its records and the rows. -/
structure PersistentSymbols where
  allocator : PersistentIdAllocator
  idStore : IdStore
  rows : SymbolRows

namespace PersistentSymbols

variable (table : PersistentSymbols)

/-- `len` (`table/persistent.rs`). -/
def len : ℕ := table.allocator.state.live

/-- `pending_id`, after the ids before it. -/
def pendingId (offset : ℕ) : Option IrId := do
  let (ids, _) ← table.allocator.reserve table.idStore (offset + 1)
  ids.getLast?

def reads : SymbolReads where
  entry := table.rows.entries.get?
  idByIndex := table.rows.loaders
  byAddress address := ((table.rows.addresses address).entries.map Prod.fst).filter
    fun id => (table.rows.entries.get? id).isSome
  ids := table.rows.entries.entries.map Prod.fst
  pendingId := table.pendingId

/-- The writes of `prepare` (`table/mod.rs:787-868`), applied in order, and the publication of the
batch (`table/mod.rs:880-921`). -/
def publish (staging : SymbolTableStaging) : Option PersistentSymbols := do
  let records := staging.prepare table.reads
  let added := (records.filter fun record => record.entry.isSome && record.previous.isNone).length
  let removed := records.filter fun record => record.entry.isNone && record.previous.isSome
  let (_, allocator) ← table.allocator.reserve table.idStore staging.symbolReservations.length
  let idWrites ← allocator.appendTransition staging.symbolReservations
    (staging.cancelledSymbols ++ removed.map PreparedSymbolRecord.id) added removed.length
  let writes := records.map (fun record => SymbolWrite.entry record.id record.entry) ++
    records.flatMap PreparedSymbolRecord.writes
  let allocator ← allocator.publishTransition staging.symbolReservations added removed.length
  return ⟨allocator, idWrites.foldl IdStore.apply table.idStore,
    writes.foldl SymbolRows.apply table.rows⟩

end PersistentSymbols

end Fugue.Ir
