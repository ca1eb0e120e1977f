import Fugue.Ir.PersistentSymbols
import Fugue.Ir.TransientSymbols

/-!
# Runs of symbol transactions

A transaction stages its operations on a table and publishes them. Where it is orderly, the table
after it answers as the staging did before; where an index goes to a symbol with a smaller id, the
row that it gets there is taken again.
-/

namespace Fugue.Ir

open Fugue.Lib SymbolTableStaging Option List PersistentSymbols

namespace TransientSymbols

/-- A transaction: the staging that its operations leave, and the table after its publication. -/
def commit (table : TransientSymbols) (ops : List SymbolOp) :
    Option (SymbolTableStaging × TransientSymbols) :=
  (stageAll table.reads ops).bind fun staging =>
    (table.publish staging).map fun after => (staging, after)

/-- What the publication relies on: no new symbol got an index of another one, no symbol is staged
with the properties of a free slot, and no index goes to a symbol with a smaller id from one that
stays. -/
structure Orderly (table : TransientSymbols) (ops : List SymbolOp) (staging : SymbolTableStaging) :
    Prop where
  clean : CleanOps table.reads .empty ops
  valid : Valid staging
  ascending : Ascending table.reads staging fun id => staging.symbol table.reads id ≠ none

inductive Step : TransientSymbols → TransientSymbols → Prop
  | commit {table table' : TransientSymbols} {ops : List SymbolOp} {staging : SymbolTableStaging}
      (orderly : table.Orderly ops staging) (run : table.commit ops = some (staging, table')) :
      Step table table'

variable {table table' : TransientSymbols} {ops : List SymbolOp} {staging : SymbolTableStaging}

theorem of_commit (run : table.commit ops = some (staging, table')) :
    stageAll table.reads ops = some staging ∧ table.publish staging = some table' := by
  obtain ⟨staged, first, run⟩ := bind_eq_some_iff.mp run
  obtain ⟨after, second, eq⟩ := map_eq_some_iff.mp run
  cases eq
  exact ⟨first, second⟩

theorem Ok.commit (ok : table.Ok) (orderly : table.Orderly ops staging)
    (run : table.commit ops = some (staging, table')) :
    table'.Ok ∧ table'.view.Shows table.reads staging := by
  obtain ⟨staged, published⟩ := of_commit run
  exact ok.publish (stageAll_ok ok.readsOk orderly.clean staged) orderly.valid orderly.ascending
    published

theorem Ok.run (ok : table.Ok) (run : Relation.ReflTransGen Step table table') : table'.Ok := by
  induction run with
  | refl => exact ok
  | tail _ step ih =>
    cases step with
    | commit orderly run => exact (ih.commit orderly run).1

theorem Ok.commit_isSome (ok : table.Ok) (clean : CleanOps table.reads .empty ops)
    (staged : stageAll table.reads ops = some staging) (renewable : Renewable table.reads staging) :
    (table.commit ops).isSome := by
  unfold TransientSymbols.commit
  rw [staged, bind_some, isSome_map]
  exact ok.publish_isSome (stageAll_ok ok.readsOk clean staged) renewable

end TransientSymbols

namespace PersistentSymbols

/-- A transaction: the staging that its operations leave, and the table after its publication. -/
def commit (table : PersistentSymbols) (ops : List SymbolOp) :
    Option (SymbolTableStaging × PersistentSymbols) :=
  (stageAll table.reads ops).bind fun staging =>
    (table.publish staging).map fun after => (staging, after)

/-- What the publication relies on: no new symbol got an index of another one, and no index goes to
a symbol with a smaller id. -/
structure Orderly (table : PersistentSymbols) (ops : List SymbolOp) (staging : SymbolTableStaging) :
    Prop where
  clean : CleanOps table.reads .empty ops
  ascending : Ascending table.reads staging fun _ => True

inductive Step : PersistentSymbols → PersistentSymbols → Prop
  | commit {table table' : PersistentSymbols} {ops : List SymbolOp} {staging : SymbolTableStaging}
      (orderly : table.Orderly ops staging) (run : table.commit ops = some (staging, table')) :
      Step table table'

variable {table table' : PersistentSymbols} {ops : List SymbolOp} {staging : SymbolTableStaging}

theorem of_commit (run : table.commit ops = some (staging, table')) :
    stageAll table.reads ops = some staging ∧ table.publish staging = some table' := by
  obtain ⟨staged, first, run⟩ := bind_eq_some_iff.mp run
  obtain ⟨after, second, eq⟩ := map_eq_some_iff.mp run
  cases eq
  exact ⟨first, second⟩

theorem Ok.commit (ok : table.Ok) (orderly : table.Orderly ops staging)
    (run : table.commit ops = some (staging, table')) :
    table'.Ok ∧ table'.view.Shows table.reads staging := by
  obtain ⟨staged, published⟩ := of_commit run
  exact ok.publish (stageAll_ok ok.readsOk orderly.clean staged) orderly.ascending published

theorem Ok.run (ok : table.Ok) (run : Relation.ReflTransGen Step table table') : table'.Ok := by
  induction run with
  | refl => exact ok
  | tail _ step ih =>
    cases step with
    | commit orderly run => exact (ih.commit orderly run).1

theorem Ok.commit_isSome (ok : table.Ok) (clean : CleanOps table.reads .empty ops)
    (staged : stageAll table.reads ops = some staging) (renewable : Renewable table.reads staging) :
    (table.commit ops).isSome := by
  unfold PersistentSymbols.commit
  rw [staged, bind_some, isSome_map]
  exact ok.publish_isSome (stageAll_ok ok.readsOk clean staged) renewable

end PersistentSymbols

/-- In every run of orderly transactions, on a transient and on a persistent table, each publication
makes the staged view real; and it does not stop before the generation of an id is exhausted. New
tables are among those that a run can start from (`ok_new`, `ok_initial`). -/
theorem staged_view_published {transient : TransientSymbols} {persistent : PersistentSymbols}
    (ok : transient.Ok) (ok' : persistent.Ok) :
    (∀ table, Relation.ReflTransGen TransientSymbols.Step transient table → table.view.Exact ∧
      ∀ ops staging,
        (∀ table', table.Orderly ops staging → table.commit ops = some (staging, table') →
          table'.view.Shows table.reads staging) ∧
        (CleanOps table.reads .empty ops → stageAll table.reads ops = some staging →
          Renewable table.reads staging → (table.commit ops).isSome)) ∧
    ∀ table, Relation.ReflTransGen Step persistent table → table.view.Exact ∧
      ∀ ops staging,
        (∀ table', table.Orderly ops staging → table.commit ops = some (staging, table') →
          table'.view.Shows table.reads staging) ∧
        (CleanOps table.reads .empty ops → stageAll table.reads ops = some staging →
          Renewable table.reads staging → (table.commit ops).isSome) := by
  constructor
  · intro table run
    have reached := ok.run run
    refine ⟨reached.exact, fun ops staging => ⟨fun table' orderly committed => ?_, ?_⟩⟩
    · exact (reached.commit orderly committed).2
    · exact reached.commit_isSome
  · intro table run
    have reached := ok'.run run
    refine ⟨reached.exact, fun ops staging => ⟨fun table' orderly committed => ?_, ?_⟩⟩
    · exact (reached.commit orderly committed).2
    · exact reached.commit_isSome

/-- A symbol without indices, as a loader makes it. -/
def loaded (offset : ℕ) (symbol : String) : SymbolEntry := ⟨⟨0, offset⟩, symbol, 0, none, []⟩

def twoSymbols : List SymbolOp :=
  [.add 0 (loaded 16 "a"), .add 1 (loaded 32 "b"), .add 2 (loaded 32 "b")]

/-- The same, and then an index of the second is given to the first. -/
def movedWithin : List SymbolOp := twoSymbols ++ [.add 1 (loaded 16 "a")]

theorem cleanOps_loaded (reads : SymbolReads) : ∀ (ops : List SymbolOp)
    (staging : SymbolTableStaging), (∀ op ∈ ops, ∃ index offset symbol,
      op = .add index (loaded offset symbol)) → CleanOps reads staging ops := by
  intro ops
  induction ops with
  | nil => exact fun _ _ => trivial
  | cons op ops ih =>
    intro staging adds
    refine ⟨?_, fun staging' _ => ih staging' fun other mem => adds other (.tail _ mem)⟩
    obtain ⟨index, offset, symbol, rfl⟩ := adds op (.head _)
    exact .inr (.inr fun i mem => by cases mem)

theorem cleanOps_movedWithin (reads : SymbolReads) : CleanOps reads .empty movedWithin := by
  refine cleanOps_loaded reads _ _ fun op mem => ?_
  simp only [movedWithin, twoSymbols, cons_append, nil_append, mem_cons,
    not_mem_nil, or_false] at mem
  rcases mem with rfl | rfl | rfl | rfl <;> exact ⟨_, _, _, rfl⟩

def allValid (staging : SymbolTableStaging) : Bool :=
  staging.stagedSymbols.entries.all fun staged => staged.2.all SymbolEntry.isValid

theorem valid_of_allValid {staging : SymbolTableStaging} (all : allValid staging = true) :
    TransientSymbols.Valid staging := by
  intro id e staged
  have here := List.all_eq_true.mp all _ (OrdMap.get?_eq_some.mp staged)
  exact here

theorem staged_view_published_moved :
    (∃ staging table, TransientSymbols.new.commit movedWithin = some (staging, table) ∧
      table.view.loader 1 = some ⟨0, 0⟩ ∧ table.view.len = 2 ∧
      table.view.Shows TransientSymbols.new.reads staging) ∧
    ∃ staging table, (initial .empty 0).commit movedWithin =
        some (staging, table) ∧
      table.view.loader 1 = some ⟨0, 0⟩ ∧ table.view.len = 2 ∧
      table.view.Shows (initial .empty 0).reads staging := by
  obtain ⟨transient, persistent⟩ := staged_view_published TransientSymbols.ok_new
    (ok_initial .empty 0 fun index => rfl)
  constructor
  · have run : (TransientSymbols.new.commit movedWithin).map (fun out =>
        (allValid out.1, out.2.view.loader 1, out.2.view.len)) = some (true, some ⟨0, 0⟩, 2) := by
      decide +kernel
    obtain ⟨out, committed, eq⟩ := map_eq_some_iff.mp run
    obtain ⟨valid, rest⟩ := Prod.mk.inj eq
    obtain ⟨index, len⟩ := Prod.mk.inj rest
    refine ⟨out.1, out.2, committed, index, len, ?_⟩
    refine ((transient _ .refl).2 movedWithin out.1).1 out.2 ⟨cleanOps_movedWithin _,
      valid_of_allValid valid, fun i id id' _ none => by cases none⟩ committed
  · have run : ((initial .empty 0).commit movedWithin).map (fun out =>
        (out.2.view.loader 1, out.2.view.len)) = some (some ⟨0, 0⟩, 2) := by
      decide +kernel
    obtain ⟨out, committed, eq⟩ := map_eq_some_iff.mp run
    obtain ⟨index, len⟩ := Prod.mk.inj eq
    refine ⟨out.1, out.2, committed, index, len, ?_⟩
    exact ((persistent _ .refl).2 movedWithin out.1).1 out.2 ⟨cleanOps_movedWithin _,
      fun i id id' _ none => by cases none⟩ committed

/-- What the staging shows of an index and what the table has after the second of two
transactions. -/
def TransientSymbols.indexAfter (ops ops' : List SymbolOp) (index : ℕ) :
    Option (Option IrId × Option IrId) :=
  (TransientSymbols.new.commit ops).bind fun first => (first.2.commit ops').map fun second =>
    (second.1.symbolIdByIndex first.2.reads index, second.2.indices index)

def PersistentSymbols.indexAfter (ops ops' : List SymbolOp) (index : ℕ) :
    Option (Option IrId × Option IrId) :=
  ((PersistentSymbols.initial .empty 0).commit ops).bind fun first =>
    (first.2.commit ops').map fun second =>
      (second.1.symbolIdByIndex first.2.reads index, second.2.rows.loaders index)

/-- An index of a symbol with two is given to the symbol before it: the staging shows it there, but
neither table has it after the publication. -/
theorem staged_view_lost :
    (∃ before first staging table, TransientSymbols.new.commit twoSymbols = some (before, first) ∧
      first.commit [.add 1 (loaded 16 "a")] = some (staging, table) ∧
      staging.symbolIdByIndex first.reads 1 = some ⟨0, 0⟩ ∧ table.view.loader 1 = none ∧
      ¬ table.view.Shows first.reads staging) ∧
    ∃ before first staging table,
      (initial .empty 0).commit twoSymbols = some (before, first) ∧
      first.commit [.add 1 (loaded 16 "a")] = some (staging, table) ∧
      staging.symbolIdByIndex first.reads 1 = some ⟨0, 0⟩ ∧ table.view.loader 1 = none ∧
      ¬ table.view.Shows first.reads staging := by
  constructor
  · have lost : TransientSymbols.indexAfter twoSymbols [.add 1 (loaded 16 "a")] 1 =
        some (some ⟨0, 0⟩, none) := by decide +kernel
    obtain ⟨first, run, lost⟩ := bind_eq_some_iff.mp lost
    obtain ⟨second, run', eq⟩ := map_eq_some_iff.mp lost
    obtain ⟨shown, gone⟩ := Prod.mk.inj eq
    refine ⟨first.1, first.2, second.1, second.2, run, run', shown, gone, fun real => ?_⟩
    have same := real.loader 1
    rw [shown] at same
    exact some_ne_none _ (same.symm.trans gone)
  · have lost : indexAfter twoSymbols [.add 1 (loaded 16 "a")] 1 =
        some (some ⟨0, 0⟩, none) := by decide +kernel
    obtain ⟨first, run, lost⟩ := bind_eq_some_iff.mp lost
    obtain ⟨second, run', eq⟩ := map_eq_some_iff.mp lost
    obtain ⟨shown, gone⟩ := Prod.mk.inj eq
    refine ⟨first.1, first.2, second.1, second.2, run, run', shown, gone, fun real => ?_⟩
    have same := real.loader 1
    rw [shown] at same
    exact some_ne_none _ (same.symm.trans gone)

end Fugue.Ir
