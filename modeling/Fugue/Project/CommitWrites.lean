import Fugue.Ir.IdAllocator
import Fugue.Lib.WriteBatch
import Fugue.Project.Change

/-!
# The entity writes of a commit

`ProjectTransaction::commit` (`fugue-core/src/project/transaction/mod.rs:427-483`) collects the
writes that each table has prepared, sorts them by key with an unstable sort
(`EntityWriteBatch::sort_by_key`) and hands them to the entity store. The prepared records of the
tables are the input here, each table with the function that turns them into writes.

A key stands for its encoding, and a value for the record that is archived; the contents of an
entity are its archived bytes. Every commit has at most one record for each id, which the maps of
the staged records see to.
-/

namespace Fugue.Project

open Fugue.Lib Fugue.Ir

/-- `ReferenceKey` (`reference/mod.rs:355-359`). -/
structure ReferenceKey where
  origin : Address
  target : ReferenceTarget
  kind : ReferenceKind
  deriving DecidableEq, Repr

inductive EntityKey where
  | problem (id : IrId)
  | switch (id : IrId)
  | symbol (id : IrId)
  | symbolName (name : String) (id : IrId)
  | symbolAddress (address : Address) (id : IrId)
  | symbolLoader (index : ℕ)
  | reference (key : ReferenceKey)
  | inverseReference (key : ReferenceKey)
  | codeBlock (id : IrId)
  | function (id : IrId)
  | functionEntry (entry : Address)
  | functionBlock (block function : IrId)
  | functionSwitch (switch function : IrId)
  | codeBlockStart (address : Address) (id : IrId)
  | codeBlockSizeBucket (bucket : ℕ) (address : Address) (id : IrId)
  | codeBlockSizeBuckets (space : AddressSpaceId)
  | callGraphEdge (caller callee : Address)
  | inverseCallGraphEdge (callee caller : Address)
  | ilOverride (function : IrId) (form : String)
  | freeId (table index : ℕ)
  | tableState (table : ℕ)
  deriving DecidableEq

/-- The values of the entity store: the archived contents of an entity and the records of the
indexes. -/
inductive EntityValue where
  | archived (bytes : List UInt8)
  | marker
  | entity (id : IrId)
  | rangeEnd (stop : ℕ)
  | buckets (bits : ℕ)
  | generation (generation : ℕ)
  | state (state : TableIndexState)
  deriving DecidableEq

/-- `EntityWrite` (`storage/entities/mod.rs`). -/
abbrev EntityWrite := KeyWrite EntityKey EntityValue

/-- The row of an entity: its contents are inserted, or it is removed. -/
def entityRow (key : EntityKey) (contents : Option (List UInt8)) : EntityWrite :=
  ⟨key, contents.map .archived⟩

/-- What a table hands to `append_transition`. -/
structure Allocation where
  allocator : PersistentIdAllocator
  reservations : List IrId
  releases : List IrId
  added : ℕ
  removed : ℕ

def allocatorWrite (table : ℕ) : IdWrite → EntityWrite
  | .insertFree key generation =>
    ⟨.freeId (ofLex key).1 (ofLex key).2, some (.generation generation)⟩
  | .removeFree key => ⟨.freeId (ofLex key).1 (ofLex key).2, none⟩
  | .insertState state => ⟨.tableState table, some (.state state)⟩

/-- The writes of `append_transition`. -/
def Allocation.writes (allocation : Allocation) : Option (List EntityWrite) := do
  let writes ← allocation.allocator.appendTransition allocation.reservations allocation.releases
    allocation.added allocation.removed
  return writes.map (allocatorWrite allocation.allocator.table)

/-- `SymbolIndexState` (`symbol/table/mod.rs:28-32`): what the indexes hold of a symbol. -/
structure SymbolIndexState where
  symbol : String
  address : Address
  indices : List ℕ
  deriving DecidableEq, Repr

/-- `PreparedSymbolRecord` (`symbol/table/mod.rs:70-75`). -/
structure SymbolRecord where
  id : IrId
  entry : Option (SymbolIndexState × List UInt8)
  previous : Option SymbolIndexState

/-- `append_unlinks` (`symbol/table/persistent.rs:499-508`). -/
def appendUnlinks (id : IrId) (entry : SymbolIndexState) : List EntityWrite :=
  ⟨.symbolName entry.symbol id, none⟩ :: ⟨.symbolAddress entry.address id, none⟩ ::
    entry.indices.map fun index => ⟨.symbolLoader index, none⟩

/-- `append_links` (`symbol/table/persistent.rs:155-172`). -/
def appendLinks (id : IrId) (entry : SymbolIndexState) : List EntityWrite :=
  ⟨.symbolName entry.symbol id, some .marker⟩ ::
    ⟨.symbolAddress entry.address id, some .marker⟩ ::
    entry.indices.map fun index => ⟨.symbolLoader index, some (.entity id)⟩

/-- `SymbolTable::append_prepared_writes` (`symbol/table/persistent.rs:510-523`). -/
def SymbolRecord.indexWrites (record : SymbolRecord) : List EntityWrite :=
  (match record.previous with
    | some previous => appendUnlinks record.id previous
    | none => []) ++
  match record.entry with
    | some entry => appendLinks record.id entry.1
    | none => []

/-- `PreparedFunctionRecord` (`function/table/mod.rs:371-376`), a function with its entry. -/
structure FunctionRecord where
  id : IrId
  function : Option (Address × List UInt8)
  previous : Option Address

/-- The entry rows of `FunctionTable::append_prepared_writes`
(`function/table/persistent.rs:308-331`). -/
def FunctionRecord.entryWrites (record : FunctionRecord) : List EntityWrite :=
  (match record.previous with
    | some previous =>
      if record.function.all (fun function => function.1 ≠ previous) then
        [⟨.functionEntry previous, none⟩]
      else []
    | none => []) ++
  match record.function with
    | some function => [⟨.functionEntry function.1, some (.entity record.id)⟩]
    | none => []

/-- The membership rows of a block or switch (`function/table/persistent.rs:333-374`): the functions
that it lost and those that it gained. -/
def membershipWrites (row : IrId → IrId → EntityKey) (original : List (IrId × List IrId))
    (entry : IrId × List IrId) : List EntityWrite :=
  let previous := (original.lookup entry.1).getD []
  (previous.filter fun function => !entry.2.contains function).map
      (fun function => ⟨row entry.1 function, none⟩) ++
    (entry.2.filter fun function => !previous.contains function).map
      fun function => ⟨row entry.1 function, some .marker⟩

/-- `PreparedCodeBlockRecord` (`block/table/mod.rs:47-52`), a block with its range. -/
structure CodeBlockRecord where
  id : IrId
  block : Option (AddressRange × List UInt8)
  previous : Option AddressRange

/-- `CodeBlockSizeBucket::new` (`block/table/persistent.rs:40-52`): the number of bits of the last
offset. A block has between one and `2^16 - 1` bytes, so that its `expect` holds. -/
def sizeBucket (range : AddressRange) : ℕ := Nat.size (range.stop - range.start)

/-- The range rows of `CodeBlockTable::append_prepared_writes` (`block/table/persistent.rs:481-507`)
with `append_range_remove` and `append_range_insert`. -/
def CodeBlockRecord.rangeWrites (record : CodeBlockRecord) : List EntityWrite :=
  (match record.previous with
    | some range => [⟨.codeBlockStart range.startAddress record.id, none⟩,
        ⟨.codeBlockSizeBucket (sizeBucket range) range.startAddress record.id, none⟩]
    | none => []) ++
  match record.block with
    | some (range, _) => [⟨.codeBlockStart range.startAddress record.id, some .marker⟩,
        ⟨.codeBlockSizeBucket (sizeBucket range) range.startAddress record.id,
          some (.rangeEnd range.stop)⟩]
    | none => []

/-- `StagedCallees` (`call_graph/index/mod.rs`). -/
structure StagedCallees where
  baseKnownEmpty : Bool
  callees : List Address

/-- The edges of `CallGraphStaging::prepare` (`call_graph/index/mod.rs:135-168`) with
`append_prepared_writes` (`call_graph/index/persistent.rs:161-189`). -/
def callGraphWrites (committed : Address → List Address) (entry : Address × StagedCallees) :
    List EntityWrite :=
  let current := if entry.2.baseKnownEmpty then [] else committed entry.1
  (current.filter fun callee => !entry.2.callees.contains callee).flatMap (fun callee =>
      [⟨.callGraphEdge entry.1 callee, none⟩, ⟨.inverseCallGraphEdge callee entry.1, none⟩]) ++
    (entry.2.callees.filter fun callee => !current.contains callee).flatMap fun callee =>
      [⟨.callGraphEdge entry.1 callee, some .marker⟩,
        ⟨.inverseCallGraphEdge callee entry.1, some .marker⟩]

/-- The rows of a reference (`reference/index/persistent.rs:198-227`). -/
def referenceWrites (record : ReferenceKey × Option (List UInt8)) : List EntityWrite :=
  [entityRow (.reference record.1) record.2, entityRow (.inverseReference record.1) record.2]

/-- `StagedIlRecord` (`il/storage.rs`). -/
structure StagedIlRecord where
  basePresent : Bool
  value : Option (List UInt8)

/-- A record of `IlStaging::prepare` (`il/storage.rs:263-284`). -/
def ilWrites (entry : (IrId × String) × StagedIlRecord) : List EntityWrite :=
  if !entry.2.basePresent && entry.2.value.isNone then []
  else [entityRow (.ilOverride entry.1.1 entry.1.2) entry.2.value]

structure PreparedCommit where
  problems : List (IrId × Option (List UInt8))
  switches : List (IrId × Option (List UInt8))
  symbols : List SymbolRecord
  references : List (ReferenceKey × Option (List UInt8))
  functions : List FunctionRecord
  byBlock : List (IrId × List IrId)
  originalByBlock : List (IrId × List IrId)
  bySwitch : List (IrId × List IrId)
  originalBySwitch : List (IrId × List IrId)
  blocks : List CodeBlockRecord
  /-- the occupied size buckets of the spaces that the blocks change (`append_bucket_writes`) -/
  sizeBuckets : List (AddressSpaceId × ℕ)
  callees : List (Address × StagedCallees)
  committedCallees : Address → List Address
  ilRecords : List ((IrId × String) × StagedIlRecord)
  problemIds : Allocation
  switchIds : Allocation
  symbolIds : Allocation
  functionIds : Allocation
  blockIds : Allocation
  problems_distinct : (problems.map Prod.fst).Nodup
  switches_distinct : (switches.map Prod.fst).Nodup
  symbols_distinct : (symbols.map SymbolRecord.id).Nodup
  references_distinct : (references.map Prod.fst).Nodup
  functions_distinct : (functions.map FunctionRecord.id).Nodup
  byBlock_distinct : (byBlock.map Prod.fst).Nodup
  bySwitch_distinct : (bySwitch.map Prod.fst).Nodup
  blocks_distinct : (blocks.map CodeBlockRecord.id).Nodup
  sizeBuckets_distinct : (sizeBuckets.map Prod.fst).Nodup
  callees_distinct : (callees.map Prod.fst).Nodup
  ilRecords_distinct : (ilRecords.map Prod.fst).Nodup
  /-- the bytes of the tables (`persistent.rs:61-67`) -/
  tables : problemIds.allocator.table = 4 ∧ switchIds.allocator.table = 3 ∧
    symbolIds.allocator.table = 2 ∧ functionIds.allocator.table = 0 ∧ blockIds.allocator.table = 1

namespace PreparedCommit

variable (commit : PreparedCommit)

/-- The writes of the tables, in the order of the commit (`project/transaction/mod.rs:443-465`). -/
def parts : Option (List (List EntityWrite)) := do
  let problemIds ← commit.problemIds.writes
  let switchIds ← commit.switchIds.writes
  let symbolIds ← commit.symbolIds.writes
  let functionIds ← commit.functionIds.writes
  let blockIds ← commit.blockIds.writes
  return [
    commit.problems.map fun record => entityRow (.problem record.1) record.2,
    problemIds,
    commit.switches.map fun record => entityRow (.switch record.1) record.2,
    switchIds,
    commit.symbols.map fun record => entityRow (.symbol record.id) (record.entry.map Prod.snd),
    commit.symbols.flatMap SymbolRecord.indexWrites,
    symbolIds,
    commit.references.flatMap referenceWrites,
    commit.blocks.map fun record => entityRow (.codeBlock record.id) (record.block.map Prod.snd),
    commit.functions.map fun record =>
      entityRow (.function record.id) (record.function.map Prod.snd),
    commit.functions.flatMap FunctionRecord.entryWrites,
    commit.byBlock.flatMap (membershipWrites .functionBlock commit.originalByBlock),
    commit.bySwitch.flatMap (membershipWrites .functionSwitch commit.originalBySwitch),
    functionIds,
    commit.blocks.flatMap CodeBlockRecord.rangeWrites,
    commit.sizeBuckets.map fun record => ⟨.codeBlockSizeBuckets record.1,
      if record.2 = 0 then none else some (.buckets record.2)⟩,
    blockIds,
    commit.callees.flatMap (callGraphWrites commit.committedCallees),
    commit.ilRecords.flatMap ilWrites]

/-- The batch that `commit` sorts; `none` where an allocator stops. -/
def writes : Option (List EntityWrite) := commit.parts.map List.flatten

end PreparedCommit

end Fugue.Project
