import Fugue.Project.CommitWrites

/-!
# The order of a commit's writes

A commit sorts its writes with an unstable sort, after which the writes to a key may stand in any
order. Each kind of row is written by one table only, so that the question is one of each table:
where a table removes a row and inserts it again, or two of its records insert the same row, what
the store holds depends on the sort. `PreparedCommit.sorted_effect_iff` says for which prepared
records that does not happen.
-/

namespace Fugue.Project

open Fugue.Lib Fugue.Ir List Option EntityKey Allocation

/-- The position of the part of a commit that writes a key. -/
def EntityKey.part : EntityKey → ℕ
  | .problem _ => 0
  | .switch _ => 2
  | .symbol _ => 4
  | .symbolName .. | .symbolAddress .. | .symbolLoader _ => 5
  | .reference _ | .inverseReference _ => 7
  | .codeBlock _ => 8
  | .function _ => 9
  | .functionEntry _ => 10
  | .functionBlock .. => 11
  | .functionSwitch .. => 12
  | .codeBlockStart .. | .codeBlockSizeBucket .. => 14
  | .codeBlockSizeBuckets _ => 15
  | .callGraphEdge .. | .inverseCallGraphEdge .. => 17
  | .ilOverride .. => 18
  | .freeId table _ | .tableState table =>
    if table = 4 then 1 else if table = 3 then 3 else if table = 2 then 6
    else if table = 0 then 13 else 16

/-- The entity whose row, or whose row in an index, a key is. -/
def EntityKey.id? : EntityKey → Option IrId
  | .problem id | .switch id | .symbol id | .codeBlock id | .function id => some id
  | .functionBlock id _ | .functionSwitch id _ => some id
  | .codeBlockStart _ id | .codeBlockSizeBucket _ _ id => some id
  | _ => none

/-- The function of a membership row. -/
def EntityKey.member? : EntityKey → Option IrId
  | .functionBlock _ owner | .functionSwitch _ owner => some owner
  | _ => none

def EntityKey.reference? : EntityKey → Option ReferenceKey
  | .reference key | .inverseReference key => some key
  | _ => none

def EntityKey.space? : EntityKey → Option AddressSpaceId
  | .codeBlockSizeBuckets space => some space
  | _ => none

def EntityKey.caller? : EntityKey → Option Address
  | .callGraphEdge caller _ | .inverseCallGraphEdge _ caller => some caller
  | _ => none

def EntityKey.callee? : EntityKey → Option Address
  | .callGraphEdge _ callee | .inverseCallGraphEdge callee _ => some callee
  | _ => none

def EntityKey.ilForm? : EntityKey → Option (IrId × String)
  | .ilOverride id form => some (id, form)
  | _ => none

/-- The index of a free id. -/
def EntityKey.index? : EntityKey → Option ℕ
  | .freeId _ index => some index
  | _ => none

/-! ## Rows of one record -/

theorem agree_singleton (write : EntityWrite) : Agree [write] := by
  intro other mem third thirdMem _
  rw [mem_singleton.mp mem, mem_singleton.mp thirdMem]

theorem agree_rows {R I : Type*} {records : List R} {row : R → EntityWrite} {name : R → I}
    (owner : EntityKey → Option I) (distinct : (records.map name).Nodup)
    (owned : ∀ record, owner (row record).key = some (name record)) : Agree (records.map row) := by
  rw [map_eq_flatMap]
  refine (agree_flatMap owner distinct fun record _ write mem => ?_).mpr fun record _ =>
    agree_singleton _
  rw [mem_singleton.mp mem]
  exact owned record

theorem agree_referenceWrites (records : List (ReferenceKey × Option (List UInt8)))
    (distinct : (records.map Prod.fst).Nodup) : Agree (records.flatMap referenceWrites) := by
  refine (agree_flatMap reference? distinct fun record _ write mem => ?_).mpr fun record _ => ?_
  · simp only [referenceWrites, mem_cons, not_mem_nil, or_false] at mem
    rcases mem with rfl | rfl <;> rfl
  · refine agree_of_value (fun _ => record.2.map .archived) fun write mem => ?_
    simp only [referenceWrites, mem_cons, not_mem_nil, or_false] at mem
    rcases mem with rfl | rfl <;> rfl

theorem agree_ilWrites (records : List ((IrId × String) × StagedIlRecord))
    (distinct : (records.map Prod.fst).Nodup) : Agree (records.flatMap ilWrites) := by
  refine (agree_flatMap ilForm? distinct fun record _ write mem => ?_).mpr fun record _ => ?_
  · unfold ilWrites at mem
    split at mem
    · cases mem
    · rw [mem_singleton.mp mem]
      simp [entityRow, ilForm?]
  · unfold ilWrites
    split
    · intro write mem
      cases mem
    · exact agree_singleton _

theorem agree_membershipWrites {row : IrId → IrId → EntityKey}
    (rowOwner : ∀ x f, (row x f).id? = some x) (rowMember : ∀ x f, (row x f).member? = some f)
    (original entries : List (IrId × List IrId)) (distinct : (entries.map Prod.fst).Nodup) :
    Agree (entries.flatMap (membershipWrites row original)) := by
  refine (agree_flatMap EntityKey.id? distinct fun entry _ write mem => ?_).mpr fun entry _ => ?_
  · simp only [membershipWrites, mem_append, List.mem_map] at mem
    rcases mem with ⟨f, -, rfl⟩ | ⟨f, -, rfl⟩ <;> exact rowOwner _ _
  · refine agree_of_value (fun key =>
      if key.member?.any entry.2.contains then some .marker else none) fun write mem => ?_
    simp only [membershipWrites, mem_append, List.mem_map, mem_filter] at mem
    rcases mem with ⟨f, ⟨-, lost⟩, rfl⟩ | ⟨f, ⟨kept, -⟩, rfl⟩
    · simp only [rowMember, any_some]
      simpa using lost
    · simp only [rowMember, any_some]
      simpa using kept

theorem agree_callGraphWrites (committed : Address → List Address)
    (entries : List (Address × StagedCallees)) (distinct : (entries.map Prod.fst).Nodup) :
    Agree (entries.flatMap (callGraphWrites committed)) := by
  refine (agree_flatMap caller? distinct fun entry _ write mem => ?_).mpr fun entry _ => ?_
  · simp only [callGraphWrites, mem_append, mem_flatMap, mem_cons, not_mem_nil, or_false] at mem
    rcases mem with ⟨f, -, rfl | rfl⟩ | ⟨f, -, rfl | rfl⟩ <;> rfl
  · refine agree_of_value (fun key =>
      if key.callee?.any entry.2.callees.contains then some .marker else none) fun write mem => ?_
    simp only [callGraphWrites, mem_append, mem_flatMap, mem_filter, mem_cons,
      not_mem_nil, or_false] at mem
    rcases mem with ⟨f, ⟨-, lost⟩, rfl | rfl⟩ | ⟨f, ⟨kept, -⟩, rfl | rfl⟩
    · simpa [callee?] using lost
    · simpa [callee?] using lost
    · simpa [callee?] using kept
    · simpa [callee?] using kept

/-- The writes of an allocator: a row for each index that its transition frees or takes, and the
state of the table. -/
theorem Allocation.mem_writes {allocation : Allocation} {writes : List EntityWrite}
    (prepared : allocation.writes = some writes) :
    ∃ (free : OrdMap ℕ (Option ℕ)) (state : TableIndexState), ∀ write ∈ writes,
      (∃ entry ∈ free.entries, write =
        ⟨.freeId allocation.allocator.table entry.1, entry.2.map .generation⟩) ∨
      write = ⟨.tableState allocation.allocator.table, some (.state state)⟩ := by
  simp only [Allocation.writes, PersistentIdAllocator.appendTransition, Option.pure_def,
    bind_eq_bind, bind_eq_some_iff, Option.some.injEq] at prepared
  obtain ⟨transition, appended, rfl⟩ := prepared
  split at appended
  · cases appended
    exact ⟨.empty, ⟨0, 0, 0⟩, by simp⟩
  · simp only [bind_eq_some_iff, Option.some.injEq] at appended
    obtain ⟨free, -, state, -, rfl⟩ := appended
    refine ⟨free, state, fun write mem => ?_⟩
    rw [map_append, mem_append, List.map_map, List.mem_map] at mem
    rcases mem with ⟨entry, inside, rfl⟩ | last
    · refine .inl ⟨entry, inside, ?_⟩
      rcases entry with ⟨index, _ | generation⟩ <;> rfl
    · exact .inr (mem_singleton.mp last)

theorem Allocation.agree {allocation : Allocation} {writes : List EntityWrite}
    (prepared : allocation.writes = some writes) : Agree writes := by
  obtain ⟨free, state, rows⟩ := mem_writes prepared
  refine agree_of_value (fun key => (key.index?.map fun index =>
    ((free.get? index).join.map .generation)).getD (some (.state state))) fun write mem => ?_
  rcases rows write mem with ⟨entry, inside, rfl⟩ | rfl
  · have found : free.get? entry.1 = some entry.2 := OrdMap.get?_eq_some.mpr inside
    simp [index?, found]
  · rfl

/-! ## Symbols -/

/-- The rows of a symbol's indexes, with what they hold. -/
def SymbolIndexState.keys (id : IrId) (state : SymbolIndexState) : List EntityKey :=
  .symbolName state.symbol id :: .symbolAddress state.address id ::
    state.indices.map .symbolLoader

/-- What the index rows of a symbol hold. -/
def symbolValue (id : IrId) : EntityKey → EntityValue
  | .symbolLoader _ => .entity id
  | _ => .marker

variable {write : EntityWrite}

theorem mem_appendUnlinks {id : IrId} {state : SymbolIndexState} :
    write ∈ appendUnlinks id state ↔ ∃ key ∈ state.keys id, write = ⟨key, none⟩ := by
  simp [appendUnlinks, SymbolIndexState.keys, or_and_right, exists_or, eq_comm]

theorem mem_appendLinks {id : IrId} {state : SymbolIndexState} :
    write ∈ appendLinks id state ↔
      ∃ key ∈ state.keys id, write = ⟨key, some (symbolValue id key)⟩ := by
  simp [appendLinks, SymbolIndexState.keys, symbolValue, eq_comm]

theorem SymbolRecord.mem_indexWrites {record : SymbolRecord} :
    write ∈ record.indexWrites ↔
      (∃ previous, record.previous = some previous ∧ ∃ key ∈ previous.keys record.id,
        write = ⟨key, none⟩) ∨ ∃ entry, record.entry = some entry ∧ ∃ key ∈ entry.1.keys record.id,
        write = ⟨key, some (symbolValue record.id key)⟩ := by
  unfold SymbolRecord.indexWrites
  cases record.previous <;> cases record.entry <;> simp [mem_appendUnlinks, mem_appendLinks]

/-- The symbol records of a commit that write no row twice with different values. -/
structure SymbolsUnclashed (records : List SymbolRecord) : Prop where
  /-- a symbol that is written again has a new name and a new address -/
  links : ∀ record ∈ records, ∀ previous entry, record.previous = some previous →
    record.entry = some entry →
    previous.symbol ≠ entry.1.symbol ∧ previous.address ≠ entry.1.address
  /-- no loader index that a record gives up is one that a record has -/
  moves : ∀ record ∈ records, ∀ other ∈ records, ∀ previous entry,
    record.previous = some previous → other.entry = some entry →
    ∀ index ∈ previous.indices, index ∉ entry.1.indices
  /-- no two symbols have the same loader index -/
  owners : ∀ record ∈ records, ∀ other ∈ records, ∀ entry entry',
    record.entry = some entry → other.entry = some entry' →
    ∀ index ∈ entry.1.indices, index ∈ entry'.1.indices → record.id = other.id

theorem SymbolsUnclashed.apart {records : List SymbolRecord} (unclashed : SymbolsUnclashed records)
    (distinct : (records.map SymbolRecord.id).Nodup) {record other : SymbolRecord}
    (mem : record ∈ records) (otherMem : other ∈ records) {previous : SymbolIndexState}
    {entry : SymbolIndexState × List UInt8} (earlier : record.previous = some previous)
    (hasEntry : other.entry = some entry) {key : EntityKey} (old : key ∈ previous.keys record.id) :
    key ∉ entry.1.keys other.id := by
  intro new
  simp only [SymbolIndexState.keys, mem_cons, List.mem_map] at old new
  rcases old with rfl | rfl | ⟨index, old, rfl⟩
  · obtain ⟨sameName, sameId⟩ : previous.symbol = entry.1.symbol ∧ record.id = other.id := by
      simpa using new
    obtain rfl := inj_on_of_nodup_map distinct mem otherMem sameId
    exact (unclashed.links record mem previous entry earlier hasEntry).1 sameName
  · obtain ⟨sameAddress, sameId⟩ : previous.address = entry.1.address ∧ record.id = other.id := by
      simpa using new
    obtain rfl := inj_on_of_nodup_map distinct mem otherMem sameId
    exact (unclashed.links record mem previous entry earlier hasEntry).2 sameAddress
  · exact unclashed.moves record mem other otherMem previous entry earlier hasEntry index old
      (by simpa using new)

theorem agree_symbols_iff {records : List SymbolRecord}
    (distinct : (records.map SymbolRecord.id).Nodup) :
    Agree (records.flatMap SymbolRecord.indexWrites) ↔ SymbolsUnclashed records := by
  constructor
  · intro agree
    have removed : ∀ record ∈ records, ∀ other ∈ records, ∀ previous entry,
        record.previous = some previous → other.entry = some entry →
        ∀ key ∈ previous.keys record.id, key ∉ entry.1.keys other.id := by
      intro record mem other otherMem previous entry earlier hasEntry key old new
      have same := agree _ (mem_flatMap.mpr ⟨record, mem, SymbolRecord.mem_indexWrites.mpr
          (.inl ⟨previous, earlier, key, old, rfl⟩)⟩) _
        (mem_flatMap.mpr ⟨other, otherMem, SymbolRecord.mem_indexWrites.mpr
          (.inr ⟨entry, hasEntry, key, new, rfl⟩)⟩) rfl
      cases same
    refine ⟨?_, ?_, ?_⟩
    · intro record mem previous entry earlier hasEntry
      have apart := removed record mem record mem previous entry earlier hasEntry
      constructor
      · intro same
        exact apart (.symbolName previous.symbol record.id) (by simp [SymbolIndexState.keys])
          (by simp [SymbolIndexState.keys, same])
      · intro same
        exact apart (.symbolAddress previous.address record.id) (by simp [SymbolIndexState.keys])
          (by simp [SymbolIndexState.keys, same])
    · intro record mem other otherMem previous entry earlier hasEntry index old new
      exact removed record mem other otherMem previous entry earlier hasEntry
        (.symbolLoader index) (by simpa [SymbolIndexState.keys] using old)
        (by simpa [SymbolIndexState.keys] using new)
    · intro record mem other otherMem entry entry' hasEntry hasEntry' index here there
      have same := agree _ (mem_flatMap.mpr ⟨record, mem, SymbolRecord.mem_indexWrites.mpr
          (.inr ⟨entry, hasEntry, .symbolLoader index, by simpa [SymbolIndexState.keys] using here,
            rfl⟩)⟩) _
        (mem_flatMap.mpr ⟨other, otherMem, SymbolRecord.mem_indexWrites.mpr
          (.inr ⟨entry', hasEntry', .symbolLoader index,
            by simpa [SymbolIndexState.keys] using there, rfl⟩)⟩) rfl
      simpa [symbolValue] using same
  · intro unclashed write mem other otherMem same
    obtain ⟨record, inside, mem⟩ := mem_flatMap.mp mem
    obtain ⟨record', inside', otherMem⟩ := mem_flatMap.mp otherMem
    rcases SymbolRecord.mem_indexWrites.mp mem with
      ⟨previous, earlier, key, old, rfl⟩ | ⟨entry, hasEntry, key, new, rfl⟩ <;>
    rcases SymbolRecord.mem_indexWrites.mp otherMem with
      ⟨previous', earlier', key', old', rfl⟩ | ⟨entry', hasEntry', key', new', rfl⟩ <;>
    obtain rfl : key = key' := same
    · rfl
    · exact absurd new' (unclashed.apart distinct inside inside' earlier hasEntry' old)
    · exact absurd new (unclashed.apart distinct inside' inside earlier' hasEntry old')
    · cases key with
      | symbolLoader index =>
        have sameId := unclashed.owners record inside record' inside' entry entry' hasEntry
          hasEntry' index (by simpa [SymbolIndexState.keys] using new)
          (by simpa [SymbolIndexState.keys] using new')
        rw [sameId]
      | _ => rfl

/-! ## Functions -/

/-- The function records of a commit that write no row twice with different values. -/
structure FunctionsUnclashed (records : List FunctionRecord) : Prop where
  /-- an entry that a function leaves is not the entry of another -/
  takeovers : ∀ record ∈ records, ∀ other ∈ records, ∀ previous function,
    record.previous = some previous → other.function = some function → function.1 = previous →
    ∃ kept, record.function = some kept ∧ kept.1 = previous
  /-- no two functions have the same entry -/
  owners : ∀ record ∈ records, ∀ other ∈ records, ∀ function function',
    record.function = some function → other.function = some function' →
    function.1 = function'.1 → record.id = other.id

theorem FunctionRecord.mem_entryWrites {record : FunctionRecord} :
    write ∈ record.entryWrites ↔ (∃ previous, record.previous = some previous ∧
        (∀ function, record.function = some function → function.1 ≠ previous) ∧
        write = ⟨.functionEntry previous, none⟩) ∨ ∃ function, record.function = some function ∧
        write = ⟨.functionEntry function.1, some (.entity record.id)⟩ := by
  unfold FunctionRecord.entryWrites
  cases record.previous with
  | none => cases record.function <;> simp
  | some previous =>
    cases record.function with
    | none => simp
    | some function =>
      by_cases same : function.1 = previous <;> simp [same]

theorem agree_functions_iff {records : List FunctionRecord} :
    Agree (records.flatMap FunctionRecord.entryWrites) ↔ FunctionsUnclashed records := by
  constructor
  · intro agree
    have written : ∀ record ∈ records, ∀ function, record.function = some function →
        ⟨.functionEntry function.1, some (.entity record.id)⟩ ∈
          records.flatMap FunctionRecord.entryWrites := fun record mem function has =>
      mem_flatMap.mpr ⟨record, mem, FunctionRecord.mem_entryWrites.mpr (.inr ⟨function, has, rfl⟩)⟩
    constructor
    · intro record mem other otherMem previous function earlier has same
      by_contra left
      have removed : ⟨.functionEntry previous, none⟩ ∈
          records.flatMap FunctionRecord.entryWrites :=
        mem_flatMap.mpr ⟨record, mem, FunctionRecord.mem_entryWrites.mpr (.inl
          ⟨previous, earlier, fun kept hasKept keptSame => left ⟨kept, hasKept, keptSame⟩,
            rfl⟩)⟩
      have clash := agree _ removed _ (written other otherMem function has) (by rw [same])
      cases clash
    · intro record mem other otherMem function function' has has' same
      have value := agree _ (written record mem function has) _
        (written other otherMem function' has') (by rw [same])
      simpa using value
  · intro unclashed
    have kept : ∀ record ∈ records, ∀ other ∈ records, ∀ previous function,
        record.previous = some previous →
        (∀ function, record.function = some function → function.1 ≠ previous) →
        other.function = some function → function.1 ≠ previous := by
      intro record mem other otherMem previous function earlier left has same
      obtain ⟨own, hasOwn, ownSame⟩ := unclashed.takeovers record mem other otherMem previous
        function earlier has same
      exact left own hasOwn ownSame
    intro write mem other otherMem same
    obtain ⟨record, inside, mem⟩ := mem_flatMap.mp mem
    obtain ⟨record', inside', otherMem⟩ := mem_flatMap.mp otherMem
    rcases FunctionRecord.mem_entryWrites.mp mem with
      ⟨previous, earlier, left, rfl⟩ | ⟨function, has, rfl⟩ <;>
    rcases FunctionRecord.mem_entryWrites.mp otherMem with
      ⟨previous', earlier', left', rfl⟩ | ⟨function', has', rfl⟩
    · rfl
    · exact absurd (EntityKey.functionEntry.inj same).symm
        (kept record inside record' inside' previous function' earlier left has')
    · exact absurd (EntityKey.functionEntry.inj same)
        (kept record' inside' record inside previous' function earlier' left' has)
    · rw [unclashed.owners record inside record' inside' function function' has has'
        (EntityKey.functionEntry.inj same)]

/-! ## Blocks -/

/-- A block that is written again starts elsewhere. -/
def BlocksUnclashed (records : List CodeBlockRecord) : Prop :=
  ∀ record ∈ records, ∀ range block, record.previous = some range → record.block = some block →
    range.startAddress ≠ block.1.startAddress

theorem CodeBlockRecord.owner_rangeWrites {record : CodeBlockRecord} :
    ∀ write ∈ record.rangeWrites, write.key.id? = some record.id := by
  intro write mem
  unfold CodeBlockRecord.rangeWrites at mem
  rw [mem_append] at mem
  rcases mem with old | new
  · cases was : record.previous with
    | none => simp [was] at old
    | some range =>
      simp only [was, mem_cons, not_mem_nil, or_false] at old
      rcases old with rfl | rfl <;> rfl
  · cases has : record.block with
    | none => simp [has] at new
    | some block =>
      simp only [has, mem_cons, not_mem_nil, or_false] at new
      rcases new with rfl | rfl <;> rfl

theorem agree_blocks_iff {records : List CodeBlockRecord}
    (distinct : (records.map CodeBlockRecord.id).Nodup) :
    Agree (records.flatMap CodeBlockRecord.rangeWrites) ↔ BlocksUnclashed records := by
  rw [agree_flatMap EntityKey.id? distinct fun record _ => record.owner_rangeWrites]
  refine forall₂_congr fun record _ => ?_
  unfold CodeBlockRecord.rangeWrites
  cases was : record.previous with
  | none => cases has : record.block <;> simp [Agree]
  | some range =>
    cases has : record.block with
    | none => simp [Agree]
    | some block =>
      simp only [Agree, cons_append, nil_append]
      constructor
      · intro agree range' block' isRange isBlock same
        cases isRange
        cases isBlock
        have clash := agree ⟨.codeBlockStart range.startAddress record.id, none⟩ (by simp)
          ⟨.codeBlockStart block.1.startAddress record.id, some .marker⟩ (by simp) (by rw [same])
        cases clash
      · intro elsewhere write mem other otherMem same
        simp only [mem_cons, not_mem_nil, or_false] at mem otherMem
        rcases mem with rfl | rfl | rfl | rfl <;> rcases otherMem with rfl | rfl | rfl | rfl <;>
          first
          | rfl
          | simp_all

/-! ## The commit -/

namespace PreparedCommit

/-- The prepared records write no row twice with different values. -/
structure Unclashed (commit : PreparedCommit) : Prop where
  symbols : SymbolsUnclashed commit.symbols
  functions : FunctionsUnclashed commit.functions
  blocks : BlocksUnclashed commit.blocks

theorem part_allocation {allocation : Allocation} {writes : List EntityWrite} {number : ℕ}
    (prepared : allocation.writes = some writes)
    (atTable : (tableState allocation.allocator.table).part = number) :
    ∀ write ∈ writes, write.key.part = number := by
  obtain ⟨free, state, rows⟩ := mem_writes prepared
  intro write mem
  rcases rows write mem with ⟨entry, -, rfl⟩ | rfl <;> exact atTable

theorem part_flatMap {R : Type*} {records : List R} {f : R → List EntityWrite} {number : ℕ}
    (each : ∀ record, ∀ write ∈ f record, write.key.part = number) :
    ∀ write ∈ records.flatMap f, write.key.part = number := by
  intro write mem
  obtain ⟨record, -, inside⟩ := mem_flatMap.mp mem
  exact each record write inside

theorem part_map {R : Type*} {records : List R} {row : R → EntityWrite} {number : ℕ}
    (each : ∀ record, (row record).key.part = number) :
    ∀ write ∈ records.map row, write.key.part = number := by
  intro write mem
  obtain ⟨record, -, rfl⟩ := List.mem_map.mp mem
  exact each record

variable {commit : PreparedCommit} {parts : List (List EntityWrite)}

theorem labelled_parts (prepared : commit.parts = some parts) :
    Labelled part 0 parts := by
  simp only [PreparedCommit.parts, Option.pure_def, bind_eq_bind, bind_eq_some_iff,
    Option.some.injEq] at prepared
  obtain ⟨problemIds, fromProblems, switchIds, fromSwitches, symbolIds, fromSymbols, functionIds,
    fromFunctions, blockIds, fromBlocks, rfl⟩ := prepared
  obtain ⟨problemTable, switchTable, symbolTable, functionTable, blockTable⟩ := commit.tables
  refine ⟨part_map fun _ => rfl, part_allocation fromProblems (by rw [problemTable]; rfl),
    part_map fun _ => rfl, part_allocation fromSwitches (by rw [switchTable]; rfl),
    part_map fun _ => rfl, part_flatMap ?_, part_allocation fromSymbols (by rw [symbolTable]; rfl),
    part_flatMap ?_, part_map fun _ => rfl, part_map fun _ => rfl, part_flatMap ?_,
    part_flatMap ?_, part_flatMap ?_, part_allocation fromFunctions (by rw [functionTable]; rfl),
    part_flatMap ?_, part_map fun _ => rfl, part_allocation fromBlocks (by rw [blockTable]; rfl),
    part_flatMap ?_, part_flatMap ?_, trivial⟩
  · intro record write mem
    rcases SymbolRecord.mem_indexWrites.mp mem with
      ⟨state, -, key, inside, rfl⟩ | ⟨entry, -, key, inside, rfl⟩ <;>
    · simp only [SymbolIndexState.keys, mem_cons, List.mem_map] at inside
      rcases inside with rfl | rfl | ⟨index, -, rfl⟩ <;> rfl
  · intro record write mem
    simp only [referenceWrites, mem_cons, not_mem_nil, or_false] at mem
    rcases mem with rfl | rfl <;> rfl
  · intro record write mem
    rcases FunctionRecord.mem_entryWrites.mp mem with ⟨_, -, -, rfl⟩ | ⟨_, -, rfl⟩ <;> rfl
  · intro entry write mem
    simp only [membershipWrites, mem_append, List.mem_map] at mem
    rcases mem with ⟨_, -, rfl⟩ | ⟨_, -, rfl⟩ <;> rfl
  · intro entry write mem
    simp only [membershipWrites, mem_append, List.mem_map] at mem
    rcases mem with ⟨_, -, rfl⟩ | ⟨_, -, rfl⟩ <;> rfl
  · intro record write mem
    unfold CodeBlockRecord.rangeWrites at mem
    cases was : record.previous <;> cases has : record.block <;>
      simp only [was, has, append_nil, nil_append, cons_append, mem_cons,
        not_mem_nil, or_false] at mem
    · rcases mem with rfl | rfl <;> rfl
    · rcases mem with rfl | rfl <;> rfl
    · rcases mem with rfl | rfl | rfl | rfl <;> rfl
  · intro entry write mem
    simp only [callGraphWrites, mem_append, mem_flatMap, mem_cons, not_mem_nil, or_false] at mem
    rcases mem with ⟨f, -, rfl | rfl⟩ | ⟨f, -, rfl | rfl⟩ <;> rfl
  · intro record write mem
    unfold ilWrites at mem
    split at mem
    · cases mem
    · rw [mem_singleton.mp mem]
      rfl

theorem agree_writes_iff {batch : List EntityWrite} (prepared : commit.writes = some batch) :
    Agree batch ↔ commit.Unclashed := by
  obtain ⟨parts, ofParts, rfl⟩ := map_eq_some_iff.mp prepared
  rw [agree_flatten (labelled_parts ofParts)]
  simp only [PreparedCommit.parts, Option.pure_def, bind_eq_bind, bind_eq_some_iff,
    Option.some.injEq] at ofParts
  obtain ⟨problemIds, fromProblems, switchIds, fromSwitches, symbolIds, fromSymbols, functionIds,
    fromFunctions, blockIds, fromBlocks, rfl⟩ := ofParts
  simp only [forall_mem_cons, not_mem_nil, IsEmpty.forall_iff, implies_true, and_true,
    agree_symbols_iff commit.symbols_distinct, agree_functions_iff,
    agree_blocks_iff commit.blocks_distinct]
  constructor
  · rintro ⟨-, -, -, -, -, symbols, -, -, -, -, functions, -, -, -, blocks, -⟩
    exact ⟨symbols, functions, blocks⟩
  · intro unclashed
    exact ⟨agree_rows EntityKey.id? commit.problems_distinct fun _ => rfl,
      agree fromProblems,
      agree_rows EntityKey.id? commit.switches_distinct fun _ => rfl,
      agree fromSwitches,
      agree_rows EntityKey.id? commit.symbols_distinct fun _ => rfl,
      unclashed.symbols,
      agree fromSymbols,
      agree_referenceWrites _ commit.references_distinct,
      agree_rows EntityKey.id? commit.blocks_distinct fun _ => rfl,
      agree_rows EntityKey.id? commit.functions_distinct fun _ => rfl,
      unclashed.functions,
      agree_membershipWrites (fun _ _ => rfl) (fun _ _ => rfl) _ _ commit.byBlock_distinct,
      agree_membershipWrites (fun _ _ => rfl) (fun _ _ => rfl) _ _ commit.bySwitch_distinct,
      agree fromFunctions,
      unclashed.blocks,
      agree_rows space? commit.sizeBuckets_distinct fun _ => rfl,
      agree fromBlocks,
      agree_callGraphWrites _ _ commit.callees_distinct,
      agree_ilWrites _ commit.ilRecords_distinct⟩

/-- Every order of the batch that the sort may leave has the effect of the writes in the order in
which they were staged exactly if the records do not clash. -/
theorem sorted_effect_iff [LinearOrder EntityKey] (commit : PreparedCommit)
    {batch : List EntityWrite} (prepared : commit.writes = some batch) :
    (∀ sorted, SortedOf batch sorted → ∀ store : EntityKey → Option EntityValue,
      applyWrites store sorted = applyWrites store batch) ↔ commit.Unclashed :=
  reorder_iff.trans (agree_writes_iff prepared)

/-- A commit without changes of ids. -/
def noIds (table : ℕ) : Allocation := ⟨.new table (.new 1 1), [], [], 0, 0⟩

def ofSymbol (record : SymbolRecord) : PreparedCommit where
  problems := []
  switches := []
  symbols := [record]
  references := []
  functions := []
  byBlock := []
  originalByBlock := []
  bySwitch := []
  originalBySwitch := []
  blocks := []
  sizeBuckets := []
  callees := []
  committedCallees _ := []
  ilRecords := []
  problemIds := noIds 4
  switchIds := noIds 3
  symbolIds := noIds 2
  functionIds := noIds 0
  blockIds := noIds 1
  problems_distinct := nodup_nil
  switches_distinct := nodup_nil
  symbols_distinct := nodup_singleton _
  references_distinct := nodup_nil
  functions_distinct := nodup_nil
  byBlock_distinct := nodup_nil
  bySwitch_distinct := nodup_nil
  blocks_distinct := nodup_nil
  sizeBuckets_distinct := nodup_nil
  callees_distinct := nodup_nil
  ilRecords_distinct := nodup_nil
  tables := ⟨rfl, rfl, rfl, rfl, rfl⟩

theorem writes_ofSymbol (record : SymbolRecord) : (ofSymbol record).writes =
    some (entityRow (.symbol record.id) (record.entry.map Prod.snd) :: record.indexWrites) := by
  simp [PreparedCommit.writes, PreparedCommit.parts, ofSymbol, noIds, Allocation.writes,
    PersistentIdAllocator.appendTransition]

/-- A symbol that moves from one name and address to others. -/
def movedSymbol : SymbolRecord where
  id := ⟨0, 0⟩
  entry := some (⟨"main", ⟨0, 0x2000⟩, []⟩, [1])
  previous := some ⟨"start", ⟨0, 0x1000⟩, []⟩

theorem sorted_effect_iff_moved : ∃ _ : LinearOrder EntityKey,
    (∀ sorted, SortedOf (entityRow (.symbol movedSymbol.id) (movedSymbol.entry.map Prod.snd) ::
        movedSymbol.indexWrites) sorted → ∀ store : EntityKey → Option EntityValue,
      applyWrites store sorted = applyWrites store
        (entityRow (.symbol movedSymbol.id) (movedSymbol.entry.map Prod.snd) ::
          movedSymbol.indexWrites)) := by
  classical
  refine ⟨linearOrderOfSTO WellOrderingRel, ?_⟩
  let _ : LinearOrder EntityKey := linearOrderOfSTO WellOrderingRel
  refine (sorted_effect_iff (ofSymbol movedSymbol) (writes_ofSymbol movedSymbol)).mpr ⟨?_, ?_, ?_⟩
  · constructor <;> simp [ofSymbol, movedSymbol]
  · constructor <;> simp [ofSymbol]
  · simp [BlocksUnclashed, ofSymbol]

/-- A symbol whose properties change, with its name and address. -/
def changedSymbol : SymbolRecord where
  id := ⟨0, 0⟩
  entry := some (⟨"main", ⟨0, 0x1000⟩, []⟩, [1])
  previous := some ⟨"main", ⟨0, 0x1000⟩, []⟩

theorem sorted_effect_fails : ¬ ∃ _ : LinearOrder EntityKey, ∀ batch sorted,
    (ofSymbol changedSymbol).writes = some batch → SortedOf batch sorted →
      ∀ store : EntityKey → Option EntityValue,
        applyWrites store sorted = applyWrites store batch := by
  rintro ⟨order, stable⟩
  have unclashed := (agree_writes_iff (writes_ofSymbol changedSymbol)).mp
    (reorder_iff.mp fun sorted isSorted => stable _ sorted (writes_ofSymbol _) isSorted)
  exact (unclashed.symbols.links changedSymbol (mem_singleton_self _) _ _ rfl rfl).1 rfl

end PreparedCommit

end Fugue.Project
