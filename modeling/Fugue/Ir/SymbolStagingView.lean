import Fugue.Ir.SymbolStaging

/-!
# The view of a staging

What a staging shows of its table stays consistent under its operations: a loader index is found at
a symbol exactly if the symbol lists it. `stage` is the one operation that changes the view, and
`stage_spec` says how.
-/

namespace Fugue.Ir

open Fugue.Lib List Option Function OrdMap

/-- What staging may rely on of a table. -/
structure SymbolReads.Ok (reads : SymbolReads) : Prop where
  index : ∀ i id, reads.idByIndex i = some id ↔ ∃ entry, reads.entry id = some entry ∧
    i ∈ entry.indices
  fresh : ∀ n id, reads.pendingId n = some id → reads.entry id = none
  distinct : ∀ n m id, reads.pendingId n = some id → reads.pendingId m = some id → n = m

namespace SymbolTableStaging

structure Ok (reads : SymbolReads) (staging : SymbolTableStaging) : Prop where
  index : ∀ i id, staging.symbolIdByIndex reads i = some id ↔
    ∃ entry, staging.symbol reads id = some entry ∧ i ∈ entry.indices
  reserved : ∀ j id, staging.symbolReservations[j]? = some id → reads.pendingId j = some id
  staged : ∀ id entry, staging.stagedSymbols.get? id = some entry → reads.entry id ≠ none ∨
    (id ∈ staging.symbolReservations ∧ entry ≠ none)
  cancelledNodup : staging.cancelledSymbols.Nodup
  cancelled : ∀ id ∈ staging.cancelledSymbols, id ∈ staging.symbolReservations ∧
    staging.stagedSymbols.get? id = none
  kept : ∀ id ∈ staging.symbolReservations, id ∈ staging.cancelledSymbols ∨
    ∃ entry, staging.stagedSymbols.get? id = some (some entry)

/-- The invariant, but for a reservation that is not yet staged. -/
structure OkBut (reads : SymbolReads) (id : IrId) (staging : SymbolTableStaging) : Prop where
  index : ∀ i id, staging.symbolIdByIndex reads i = some id ↔
    ∃ entry, staging.symbol reads id = some entry ∧ i ∈ entry.indices
  reserved : ∀ j id, staging.symbolReservations[j]? = some id → reads.pendingId j = some id
  staged : ∀ id entry, staging.stagedSymbols.get? id = some entry → reads.entry id ≠ none ∨
    (id ∈ staging.symbolReservations ∧ entry ≠ none)
  cancelledNodup : staging.cancelledSymbols.Nodup
  cancelled : ∀ id ∈ staging.cancelledSymbols, id ∈ staging.symbolReservations ∧
    staging.stagedSymbols.get? id = none
  kept : ∀ other ∈ staging.symbolReservations, other ≠ id → other ∈ staging.cancelledSymbols ∨
    ∃ entry, staging.stagedSymbols.get? other = some (some entry)

variable {reads : SymbolReads} {staging : SymbolTableStaging} {id : IrId}
  {entry : Option SymbolEntry}

theorem Ok.toBut (ok : staging.Ok reads) (id : IrId) : staging.OkBut reads id :=
  { ok with kept := fun other mem _ => ok.kept other mem }

def indicesOf (entry : Option SymbolEntry) : List ℕ := (entry.map SymbolEntry.indices).getD []

theorem mem_indicesOf {i : ℕ} : i ∈ indicesOf entry ↔ ∃ e, entry = some e ∧ i ∈ e.indices := by
  cases entry <;> simp [indicesOf]

theorem unstageIndices_eq : ∀ (indices : List ℕ) (staging : SymbolTableStaging),
    (∀ i ∈ indices, staging.symbolIdByIndex reads i = some id ∨
      staging.stagedIndices i = some none) →
    staging.unstageIndices reads id indices = { staging with
      stagedIndices := fun i => if i ∈ indices then some none else staging.stagedIndices i } := by
  intro indices
  induction indices with
  | nil =>
    simp [unstageIndices]
  | cons index indices ih =>
    intro staging held
    unfold unstageIndices at ih ⊢
    rw [foldl_cons]
    rcases held index (.head _) with isHeld | gone
    · rw [if_pos isHeld, ih]
      · congr 1
        funext i
        by_cases same : i = index
        · subst same
          simp
        · simp [same]
      · intro i mem
        by_cases same : i = index
        · subst same
          exact .inr (update_self ..)
        · rcases held i (.tail _ mem) with isHeld | gone
          · refine .inl ?_
            unfold symbolIdByIndex at isHeld ⊢
            dsimp only
            rw [update_of_ne same]
            exact isHeld
          · refine .inr ?_
            dsimp only
            rw [update_of_ne same]
            exact gone
    · have notHeld : ¬ staging.symbolIdByIndex reads index = some id := by
        simp [symbolIdByIndex, gone]
      rw [if_neg notHeld, ih staging fun i mem => held i (.tail _ mem)]
      congr 1
      funext i
      by_cases same : i = index
      · subst same
        simp [gone]
      · simp [same]

theorem stageIndices_eq : ∀ (indices : List ℕ) (staging : SymbolTableStaging),
    staging.stageIndices id indices = { staging with
      stagedIndices := fun i => if i ∈ indices then some (some id) else
        staging.stagedIndices i } := by
  intro indices
  induction indices with
  | nil =>
    simp [stageIndices]
  | cons index indices ih =>
    intro staging
    unfold stageIndices at ih ⊢
    rw [foldl_cons, ih]
    congr 1
    funext i
    by_cases same : i = index
    · subst same
      simp
    · simp [same]

theorem stage_eq (id : IrId) (entry : Option SymbolEntry)
    (ok : ∀ i id, staging.symbolIdByIndex reads i = some id ↔
      ∃ entry, staging.symbol reads id = some entry ∧ i ∈ entry.indices) :
    staging.stage reads id entry = { staging with
      stagedIndices := fun i => if i ∈ indicesOf entry then some (some id)
        else if i ∈ indicesOf (staging.symbol reads id) then some none
        else staging.stagedIndices i
      stagedSymbols := staging.stagedSymbols.insert id entry } := by
  have held : ∀ i ∈ indicesOf (staging.symbol reads id),
      staging.symbolIdByIndex reads i = some id ∨ staging.stagedIndices i = some none :=
    fun i mem => .inl ((ok i id).mpr (mem_indicesOf.mp mem))
  have unstaged := unstageIndices_eq _ _ held
  unfold indicesOf at unstaged
  dsimp only [stage]
  rw [unstaged, stageIndices_eq]
  rfl

theorem symbol_insert {staged : SymbolTableStaging}
    (inserted : staged.stagedSymbols = staging.stagedSymbols.insert id entry) (id' : IrId) :
    staged.symbol reads id' = if id' = id then entry else staging.symbol reads id' := by
  unfold symbol
  rw [inserted]
  by_cases same : id' = id
  · subst same
    rw [get?_insert_self, if_pos rfl]
  · rw [get?_insert_ne same, if_neg same]

theorem stage_spec (id : IrId) (entry : Option SymbolEntry)
    (ok : ∀ i id, staging.symbolIdByIndex reads i = some id ↔
      ∃ entry, staging.symbol reads id = some entry ∧ i ∈ entry.indices) :
    (∀ id', (staging.stage reads id entry).symbol reads id' =
      if id' = id then entry else staging.symbol reads id') ∧
    ∀ i, (staging.stage reads id entry).symbolIdByIndex reads i =
      if i ∈ indicesOf entry then some id
      else if i ∈ indicesOf (staging.symbol reads id) then none
      else staging.symbolIdByIndex reads i := by
  rw [stage_eq id entry ok]
  refine ⟨symbol_insert rfl, fun i => ?_⟩
  by_cases new : i ∈ indicesOf entry
  · simp [symbolIdByIndex, new]
  by_cases old : i ∈ indicesOf (staging.symbol reads id)
  · simp [symbolIdByIndex, new, old]
  -- an index that is neither in the new entry nor in the one before
  rw [if_neg new, if_neg old]
  have notHeld : staging.symbolIdByIndex reads i ≠ some id := fun held =>
    old (mem_indicesOf.mpr ((ok i id).mp held))
  unfold symbolIdByIndex at notHeld ⊢
  simp only [if_neg new, if_neg old]
  cases here : staging.stagedIndices i with
  | some found => rfl
  | none =>
    rw [here] at notHeld
    cases committed : reads.idByIndex i with
    | none => rfl
    | some id' =>
      rw [committed] at notHeld
      simp only [bind_some] at notHeld ⊢
      by_cases same : id' = id
      · subst same
        rw [get?_insert_self]
        have gone : ((entry.filter fun e => decide (i ∈ e.indices)).map fun _ => id') = none := by
          cases entry with
          | none => rfl
          | some e =>
            have absent : i ∉ e.indices := fun mem => new (mem_indicesOf.mpr ⟨e, rfl, mem⟩)
            simp [Option.filter, absent]
        dsimp only
        rw [gone]
        cases staged : staging.stagedSymbols.get? id' with
        | none =>
          rw [staged] at notHeld
          exact absurd rfl notHeld
        | some other =>
          rw [staged] at notHeld
          cases other with
          | none => rfl
          | some e =>
            by_cases mem : i ∈ e.indices
            · simp [Option.filter, mem] at notHeld
            · simp [Option.filter, mem]
      · rw [get?_insert_ne same]

variable (readsOk : reads.Ok)

include readsOk

theorem OkBut.reserved_fresh {other : IrId} (ok : staging.OkBut reads other)
    (mem : id ∈ staging.symbolReservations) : reads.entry id = none := by
  obtain ⟨j, at_⟩ := mem_iff_getElem?.mp mem
  exact readsOk.fresh j id (ok.reserved j id at_)

theorem Ok.reserved_fresh (ok : staging.Ok reads) (mem : id ∈ staging.symbolReservations) :
    reads.entry id = none :=
  (ok.toBut id).reserved_fresh readsOk mem

/-- A symbol that the staging shows is one of the table or staged, and not cancelled. -/
theorem Ok.of_symbol (ok : staging.Ok reads) {shown : SymbolEntry}
    (shows_ : staging.symbol reads id = some shown) : id ∉ staging.cancelledSymbols ∧
      (reads.entry id ≠ none ∨ id ∈ staging.symbolReservations) := by
  unfold symbol at shows_
  constructor
  · intro cancelled
    obtain ⟨reserved, unstaged⟩ := ok.cancelled id cancelled
    rw [unstaged, ok.reserved_fresh readsOk reserved] at shows_
    cases shows_
  · cases staged : staging.stagedSymbols.get? id with
    | none =>
      rw [staged] at shows_
      dsimp only at shows_
      rw [shows_]
      exact .inl (by simp)
    | some entry =>
      rcases ok.staged id entry staged with committed | reserved
      · exact .inl committed
      · exact .inr reserved.1

/-- A change of a symbol to an entry whose indices no other symbol has; the symbol may have been
reserved just now. -/
theorem OkBut.stage (ok : staging.OkBut reads id)
    (free : ∀ i ∈ indicesOf entry, staging.symbolIdByIndex reads i = none ∨
      staging.symbolIdByIndex reads i = some id)
    (known : reads.entry id ≠ none ∨ (id ∈ staging.symbolReservations ∧ entry ≠ none))
    (notCancelled : id ∉ staging.cancelledSymbols) : (staging.stage reads id entry).Ok reads := by
  obtain ⟨symbol, index⟩ := stage_spec id entry ok.index
  have eq := stage_eq id entry ok.index
  have reservations : (staging.stage reads id entry).symbolReservations =
      staging.symbolReservations := by rw [eq]
  have cancelled : (staging.stage reads id entry).cancelledSymbols = staging.cancelledSymbols := by
    rw [eq]
  have symbols : (staging.stage reads id entry).stagedSymbols =
      staging.stagedSymbols.insert id entry := by rw [eq]
  exact {
    index := by
      intro i id'
      rw [index, symbol]
      by_cases same : id' = id
      · subst same
        rw [if_pos rfl]
        by_cases new : i ∈ indicesOf entry
        · rw [if_pos new]
          exact ⟨fun _ => mem_indicesOf.mp new, fun _ => rfl⟩
        · rw [if_neg new]
          have absent : ¬ ∃ e, entry = some e ∧ i ∈ e.indices := fun has =>
            new (mem_indicesOf.mpr has)
          by_cases old : i ∈ indicesOf (staging.symbol reads id')
          · rw [if_pos old]
            exact ⟨by simp, fun has => absurd has absent⟩
          · rw [if_neg old]
            refine ⟨fun held => ?_, fun has => absurd has absent⟩
            exact absurd (mem_indicesOf.mpr ((ok.index i id').mp held)) old
      · rw [if_neg same]
        by_cases new : i ∈ indicesOf entry
        · rw [if_pos new]
          refine ⟨fun isId => absurd (Option.some.inj isId).symm same, fun has => ?_⟩
          have held := (ok.index i id').mpr has
          rcases free i new with none | own
          · rw [none] at held
            cases held
          · rw [own] at held
            exact absurd (Option.some.inj held).symm same
        · rw [if_neg new]
          by_cases old : i ∈ indicesOf (staging.symbol reads id)
          · rw [if_pos old]
            refine ⟨by simp, fun has => ?_⟩
            have held := (ok.index i id').mpr has
            rw [(ok.index i id).mpr (mem_indicesOf.mp old)] at held
            exact absurd (Option.some.inj held).symm same
          · rw [if_neg old]
            exact ok.index i id'
    reserved := by
      rw [reservations]
      exact ok.reserved
    staged := by
      rw [reservations, symbols]
      intro id' staged here
      by_cases same : id' = id
      · subst same
        rw [get?_insert_self] at here
        cases here
        exact known
      · rw [get?_insert_ne same] at here
        exact ok.staged id' staged here
    cancelledNodup := by
      rw [cancelled]
      exact ok.cancelledNodup
    cancelled := by
      rw [cancelled, reservations, symbols]
      intro id' mem
      have ne : id' ≠ id := fun same => notCancelled (same ▸ mem)
      rw [get?_insert_ne ne]
      exact ok.cancelled id' mem
    kept := by
      rw [cancelled, reservations, symbols]
      intro id' mem
      by_cases same : id' = id
      · subst same
        rw [get?_insert_self]
        rcases known with committed | ⟨-, some_⟩
        · exact absurd (ok.reserved_fresh readsOk mem) committed
        · obtain ⟨e, rfl⟩ := ne_none_iff_exists'.mp some_
          exact .inr ⟨e, rfl⟩
      · rw [get?_insert_ne same]
        exact ok.kept id' mem same }

theorem Ok.stage (ok : staging.Ok reads)
    (free : ∀ i ∈ indicesOf entry, staging.symbolIdByIndex reads i = none ∨
      staging.symbolIdByIndex reads i = some id)
    (known : reads.entry id ≠ none ∨ (id ∈ staging.symbolReservations ∧ entry ≠ none))
    (notCancelled : id ∉ staging.cancelledSymbols) : (staging.stage reads id entry).Ok reads :=
  (ok.toBut id).stage readsOk free known notCancelled

theorem Ok.removeSymbol (ok : staging.Ok reads) {shown : SymbolEntry}
    (shows_ : staging.symbol reads id = some shown) :
    (staging.removeSymbol reads id).Ok reads ∧
    (∀ id', (staging.removeSymbol reads id).symbol reads id' =
      if id' = id then none else staging.symbol reads id') ∧
    ∀ i, (staging.removeSymbol reads id).symbolIdByIndex reads i =
      if i ∈ shown.indices then none else staging.symbolIdByIndex reads i := by
  obtain ⟨notCancelled, known⟩ := ok.of_symbol readsOk shows_
  obtain ⟨symbol, index⟩ := stage_spec id none ok.index
  have index : ∀ i, (staging.stage reads id none).symbolIdByIndex reads i =
      if i ∈ shown.indices then none else staging.symbolIdByIndex reads i := fun i => by
    rw [index, shows_]
    by_cases mem : i ∈ shown.indices <;> simp [indicesOf, mem]
  unfold SymbolTableStaging.removeSymbol
  by_cases new : reads.entry id = none
  · rw [if_pos (by simpa [isNone_iff_eq_none] using new)]
    have reserved : id ∈ staging.symbolReservations := known.resolve_left fun some_ => some_ new
    have eq := stage_eq id none ok.index
    have reservations : (staging.stage reads id none).symbolReservations =
        staging.symbolReservations := by rw [eq]
    have cancelled : (staging.stage reads id none).cancelledSymbols =
        staging.cancelledSymbols := by rw [eq]
    have symbols : (staging.stage reads id none).stagedSymbols =
        staging.stagedSymbols.insert id none := by rw [eq]
    -- what is staged of the other symbols
    have others : ∀ id', id' ≠ id → ((staging.stage reads id none).stagedSymbols.erase id).get? id' =
        staging.stagedSymbols.get? id' := fun id' ne => by
      rw [get?_erase_ne ne, symbols, get?_insert_ne ne]
    have gone : ((staging.stage reads id none).stagedSymbols.erase id).get? id = none :=
      get?_eq_none.mpr fun _ mem => (mem_erase.mp mem).2 rfl
    have symbol' : ∀ id', ({ staging.stage reads id none with
        stagedSymbols := (staging.stage reads id none).stagedSymbols.erase id
        cancelledSymbols := (staging.stage reads id none).cancelledSymbols ++ [id] } :
        SymbolTableStaging).symbol reads id' =
          if id' = id then none else staging.symbol reads id' := by
      intro id'
      unfold SymbolTableStaging.symbol
      by_cases same : id' = id
      · subst same
        rw [gone, if_pos rfl]
        exact new
      · rw [others id' same, if_neg same]
    have index' : ∀ i, ({ staging.stage reads id none with
        stagedSymbols := (staging.stage reads id none).stagedSymbols.erase id
        cancelledSymbols := (staging.stage reads id none).cancelledSymbols ++ [id] } :
        SymbolTableStaging).symbolIdByIndex reads i =
          if i ∈ shown.indices then none else staging.symbolIdByIndex reads i := by
      intro i
      rw [← index i]
      unfold symbolIdByIndex
      cases staged : (staging.stage reads id none).stagedIndices i with
      | some found => rfl
      | none =>
        cases committed : reads.idByIndex i with
        | none => rfl
        | some id' =>
          obtain ⟨e, isEntry, -⟩ := (readsOk.index i id').mp committed
          have ne : id' ≠ id := by
            rintro rfl
            rw [new] at isEntry
            cases isEntry
          simp only [bind_some]
          rw [get?_erase_ne ne]
    refine ⟨?_, symbol', index'⟩
    exact {
      index := by
        intro i id'
        rw [index', symbol']
        by_cases same : id' = id
        · subst same
          by_cases mem : i ∈ shown.indices
          · simp [mem]
          · rw [if_neg mem]
            refine ⟨fun held => ?_, by simp⟩
            obtain ⟨e, isEntry, inside⟩ := (ok.index i id').mp held
            rw [shows_] at isEntry
            cases isEntry
            exact absurd inside mem
        · rw [if_neg same, ← ok.index i id']
          by_cases mem : i ∈ shown.indices
          · rw [if_pos mem, (ok.index i id).mpr ⟨shown, shows_, mem⟩]
            simp [Ne.symm same]
          · rw [if_neg mem]
      reserved := by
        rw [reservations]
        exact ok.reserved
      staged := by
        rw [reservations]
        intro id' entry here
        by_cases same : id' = id
        · subst same
          rw [gone] at here
          cases here
        · rw [others id' same] at here
          exact ok.staged id' entry here
      cancelledNodup := by
        rw [cancelled]
        exact List.Nodup.append ok.cancelledNodup (nodup_singleton _)
          (by simpa using notCancelled)
      cancelled := by
        intro id' mem
        rw [cancelled] at mem
        rw [reservations]
        by_cases same : id' = id
        · subst same
          exact ⟨reserved, gone⟩
        · have before : id' ∈ staging.cancelledSymbols := by simpa [same] using mem
          rw [others id' same]
          exact ok.cancelled id' before
      kept := by
        intro id' mem
        rw [reservations] at mem
        rw [cancelled]
        by_cases same : id' = id
        · subst same
          exact .inl (mem_append_right _ (mem_singleton_self _))
        · rw [others id' same]
          rcases ok.kept id' mem with before | staged
          · exact .inl (mem_append_left _ before)
          · exact .inr staged }
  · rw [if_neg (by simpa [isNone_iff_eq_none] using new)]
    exact ⟨ok.stage readsOk (fun i mem => by simp [indicesOf] at mem) (.inl new) notCancelled,
      symbol, index⟩

theorem Ok.restage (ok : staging.Ok reads) {shown changed : SymbolEntry}
    (shows_ : staging.symbol reads id = some shown)
    (free : ∀ i ∈ changed.indices, i ∈ shown.indices ∨ staging.symbolIdByIndex reads i = none) :
    (staging.stage reads id (some changed)).Ok reads := by
  obtain ⟨notCancelled, known⟩ := ok.of_symbol readsOk shows_
  refine ok.stage readsOk (fun i mem => ?_) ?_ notCancelled
  · rcases free i mem with own | none
    · exact .inr ((ok.index i id).mpr ⟨shown, shows_, own⟩)
    · exact .inl none
  · rcases known with committed | reserved
    · exact .inl committed
    · exact .inr ⟨reserved, by simp⟩

/-! ## The operations -/

variable {entry : SymbolEntry}

omit readsOk in
theorem symbol_of_getReferent
    (found : staging.getReferent reads entry = some id) : ∃ e, staging.symbol reads id = some e := by
  unfold getReferent at found
  cases first : (reads.byAddress entry.address).find? fun id =>
      (staging.symbol reads id).any fun candidate => candidate.hasSameReferent entry with
  | some id' =>
    rw [first] at found
    obtain rfl : id' = id := by simpa using found
    have any := find?_some first
    obtain ⟨e, isEntry, -⟩ := Option.any_eq_true _ _ |>.mp any
    exact ⟨e, isEntry⟩
  | none =>
    rw [first, none_or] at found
    obtain ⟨staged, second, rfl⟩ := map_eq_some_iff.mp found
    have any := find?_some second
    obtain ⟨e, isEntry, -⟩ := Option.any_eq_true _ _ |>.mp any
    have here : staging.stagedSymbols.get? staged.1 = some staged.2 :=
      get?_eq_some.mpr (mem_of_find?_eq_some second)
    refine ⟨e, ?_⟩
    unfold symbol
    rw [here]
    exact isEntry

omit readsOk in
theorem mem_addIndex {index i : ℕ} :
    i ∈ (entry.addIndex index).indices ↔ i ∈ entry.indices ∨ i = index := by
  unfold SymbolEntry.addIndex
  split
  · rename_i mem
    exact ⟨.inl, fun either => either.elim id fun same => same ▸ mem⟩
  · simp

variable {staging' : SymbolTableStaging}

theorem Ok.addOrUpdate (ok : staging.Ok reads) {index : ℕ}
    (unheld : (staging.getReferent reads entry).isSome ∨
      ∀ i ∈ entry.indices, staging.symbolIdByIndex reads i = none)
    (free : staging.symbolIdByIndex reads index = none)
    (run : staging.addOrUpdate reads index entry = some staging') : staging'.Ok reads := by
  unfold SymbolTableStaging.addOrUpdate at run
  cases referent : staging.getReferent reads entry with
  | some id =>
    rw [referent] at run
    obtain ⟨existing, shows_⟩ := symbol_of_getReferent referent
    obtain rfl : staging.stage reads id
        (some ((existing.addIndex index).updateVisibility entry.properties)) = staging' := by
      simpa [shows_] using run
    refine ok.restage readsOk shows_ fun i mem => ?_
    rcases mem_addIndex.mp mem with before | rfl
    · exact .inl before
    · exact .inr free
  | none =>
    rw [referent] at run unheld
    obtain ⟨id, pending, same⟩ := bind_eq_some_iff.mp run
    cases same
    have fresh : id ∉ staging.symbolReservations := by
      intro mem
      obtain ⟨j, at_⟩ := mem_iff_getElem?.mp mem
      have equal := readsOk.distinct _ _ id (ok.reserved j id at_) pending
      have lt := lt_of_getElem? at_
      omega
    have fresh' : id ∉ staging.cancelledSymbols := fun mem => fresh (ok.cancelled id mem).1
    have but : ({ staging with symbolReservations := staging.symbolReservations ++ [id] } :
        SymbolTableStaging).OkBut reads id :=
      { ok with
        reserved := by
          intro j other at_
          rw [getElem?_append] at at_
          split at at_
          · exact ok.reserved j other at_
          · rw [getElem?_singleton] at at_
            split at at_
            · cases at_
              obtain rfl : j = staging.symbolReservations.length := by omega
              exact pending
            · cases at_
        staged := fun other e here => (ok.staged other e here).imp_right fun both =>
          ⟨mem_append_left _ both.1, both.2⟩
        cancelled := fun other mem =>
          ⟨mem_append_left _ (ok.cancelled other mem).1, (ok.cancelled other mem).2⟩
        kept := by
          intro other mem ne
          exact ok.kept other ((mem_append.mp mem).resolve_right (by simpa using ne)) }
    refine but.stage readsOk (fun i mem => .inl ?_) (.inr ⟨by simp, by simp⟩) fresh'
    exact (unheld.resolve_left (by simp)) i mem

/-- Where `add` goes on after it has taken the index from the symbol that has it. -/
def vacated (staging : SymbolTableStaging) (reads : SymbolReads) (index : ℕ) : SymbolTableStaging :=
  match staging.symbolIdByIndex reads index with
  | none => staging
  | some existingId =>
    match staging.symbol reads existingId with
    | none => staging
    | some existing =>
      if 1 < existing.indices.length then
        staging.stage reads existingId (some (existing.removeIndex index))
      else staging.removeSymbol reads existingId

/-- An entry that is already there, that goes to the symbol of its referent, or whose indices no
symbol has. -/
def Clean (staging : SymbolTableStaging) (reads : SymbolReads) (index : ℕ) (entry : SymbolEntry) :
    Prop :=
  (staging.symbolIdByIndex reads index).bind (staging.symbol reads) = some (entry.addIndex index) ∨
  ((staging.vacated reads index).getReferent reads (entry.addIndex index)).isSome ∨
  ∀ i ∈ entry.indices, (staging.vacated reads index).symbolIdByIndex reads i = none

theorem Ok.vacated (ok : staging.Ok reads) (index : ℕ) :
    (staging.vacated reads index).Ok reads ∧
      (staging.vacated reads index).symbolIdByIndex reads index = none := by
  unfold SymbolTableStaging.vacated
  cases held : staging.symbolIdByIndex reads index with
  | none => exact ⟨ok, held⟩
  | some existingId =>
    obtain ⟨existing, shows_, lists⟩ := (ok.index index existingId).mp held
    dsimp only
    rw [shows_]
    dsimp only
    split
    · -- the symbol keeps its other indices
      have removed : ∀ i ∈ (existing.removeIndex index).indices, i ∈ existing.indices ∧
          i ≠ index := fun i mem => by simpa [SymbolEntry.removeIndex] using mem
      refine ⟨ok.restage readsOk shows_ fun i mem => .inl (removed i mem).1, ?_⟩
      rw [(stage_spec existingId _ ok.index).2, if_neg, if_pos]
      · rw [shows_]
        exact lists
      · intro mem
        exact (removed index mem).2 rfl
    · obtain ⟨ok', -, index'⟩ := ok.removeSymbol readsOk shows_
      exact ⟨ok', by rw [index', if_pos lists]⟩

omit readsOk in
theorem add_eq (staging : SymbolTableStaging) (index : ℕ) (entry : SymbolEntry)
    (run : staging.add reads index entry = some staging') :
    ((staging.symbolIdByIndex reads index).bind (staging.symbol reads) =
      some (entry.addIndex index) ∧ staging' = staging) ∨
    (¬ (staging.symbolIdByIndex reads index).bind (staging.symbol reads) =
      some (entry.addIndex index) ∧
      (staging.vacated reads index).addOrUpdate reads index (entry.addIndex index) =
        some staging') := by
  unfold SymbolTableStaging.add at run
  unfold SymbolTableStaging.vacated
  cases held : staging.symbolIdByIndex reads index with
  | none =>
    rw [held] at run
    exact .inr ⟨by simp, run⟩
  | some existingId =>
    rw [held] at run
    obtain ⟨existing, shows_, run⟩ := bind_eq_some_iff.mp run
    dsimp only
    rw [bind_some, shows_]
    by_cases same : existing = entry.addIndex index
    · rw [if_pos same] at run
      exact .inl ⟨by rw [same], (Option.some.inj run).symm⟩
    · rw [if_neg same] at run
      exact .inr ⟨fun equal => same (Option.some.inj equal), run⟩

theorem Ok.add (ok : staging.Ok reads) {index : ℕ} (clean : staging.Clean reads index entry)
    (run : staging.add reads index entry = some staging') : staging'.Ok reads := by
  rcases add_eq staging index entry run with ⟨-, rfl⟩ | ⟨differs, run⟩
  · exact ok
  · obtain ⟨ok', free⟩ := ok.vacated readsOk index
    refine ok'.addOrUpdate readsOk ((clean.resolve_left differs).imp_right fun unheld i mem => ?_)
      free run
    rcases mem_addIndex.mp mem with listed | rfl
    · exact unheld i listed
    · exact free

theorem Ok.setProperties (ok : staging.Ok reads) (properties : SymbolProperties) :
    (staging.setProperties reads id properties).Ok reads := by
  unfold SymbolTableStaging.setProperties
  cases shows_ : staging.symbol reads id with
  | none => exact ok
  | some entry =>
    dsimp only
    split
    · exact ok
    · exact ok.restage readsOk shows_ fun i mem => .inl mem

theorem Ok.removeById (ok : staging.Ok reads) : (staging.removeById reads id).Ok reads := by
  unfold SymbolTableStaging.removeById
  cases shows_ : staging.symbol reads id with
  | none => exact ok
  | some entry => exact (ok.removeSymbol readsOk shows_).1

theorem Ok.removeByIndex (ok : staging.Ok reads) {index : ℕ} :
    (staging.removeByIndex reads index).Ok reads := by
  unfold SymbolTableStaging.removeByIndex
  cases held : staging.symbolIdByIndex reads index with
  | none => exact ok
  | some id =>
    obtain ⟨existing, shows_, -⟩ := (ok.index index id).mp held
    exact (ok.removeSymbol readsOk shows_).1

omit readsOk in
theorem symbol_of_matching {predicate : SymbolEntry → Bool} :
    ∀ found ∈ (staging.symbolIdsMatching reads predicate).entries,
      staging.symbol reads found.1 ≠ none := by
  have shown : ∀ {e : Option SymbolEntry}, e.any predicate = true → e ≠ none := by
    rintro (_ | e) any
    · cases any
    · simp
  have first : ∀ (ids : List IrId) (set : OrdMap IrId Unit),
      (∀ found ∈ set.entries, staging.symbol reads found.1 ≠ none) →
      ∀ found ∈ (ids.foldl (fun set id => if (staging.symbol reads id).any predicate
        then set.insert id () else set) set).entries, staging.symbol reads found.1 ≠ none := by
    intro ids
    induction ids with
    | nil => exact fun _ before => before
    | cons id ids ih =>
      intro set before
      rw [foldl_cons]
      split
      · rename_i any
        refine ih _ fun found mem => ?_
        rcases mem_insert.mp mem with rfl | ⟨mem, -⟩
        · exact shown any
        · exact before found mem
      · exact ih set before
  have second : ∀ (staged : List (IrId × Option SymbolEntry)) (set : OrdMap IrId Unit),
      (∀ entry ∈ staged, staging.stagedSymbols.get? entry.1 = some entry.2) →
      (∀ found ∈ set.entries, staging.symbol reads found.1 ≠ none) →
      ∀ found ∈ (staged.foldl (fun set entry => if entry.2.any predicate
        then set.insert entry.1 () else set.erase entry.1) set).entries,
        staging.symbol reads found.1 ≠ none := by
    intro staged
    induction staged with
    | nil => exact fun _ _ before => before
    | cons entry staged ih =>
      intro set here before
      rw [foldl_cons]
      refine ih _ (fun other mem => here other (.tail _ mem)) fun found mem => ?_
      split at mem
      · rename_i any
        rcases mem_insert.mp mem with rfl | ⟨mem, -⟩
        · unfold symbol
          rw [here entry mem_cons_self]
          exact shown any
        · exact before found mem
      · exact before found (mem_erase.mp mem).1
  exact second _ _ (fun entry mem => get?_eq_some.mpr mem)
    (first _ _ fun found mem => by cases mem)

theorem Ok.removeMatching (ok : staging.Ok reads) {predicate : SymbolEntry → Bool} :
    (staging.removeMatching reads predicate).Ok reads := by
  have all : ∀ (found : List (IrId × Unit)) (staging : SymbolTableStaging), staging.Ok reads →
      (found.Pairwise fun x y => x.1 < y.1) →
      (∀ entry ∈ found, staging.symbol reads entry.1 ≠ none) →
      (found.foldl (fun staging entry => staging.removeSymbol reads entry.1) staging).Ok reads := by
    intro found
    induction found with
    | nil => exact fun _ ok _ _ => ok
    | cons entry found ih =>
      intro staging ok sorted shown
      obtain ⟨above, sorted⟩ := pairwise_cons.mp sorted
      obtain ⟨e, shows_⟩ := ne_none_iff_exists'.mp (shown entry (.head _))
      obtain ⟨ok', symbol, -⟩ := ok.removeSymbol readsOk shows_
      refine ih _ ok' sorted fun other mem => ?_
      rw [symbol, if_neg (above other mem).ne']
      exact shown other (.tail _ mem)
  exact all _ staging ok (OrdMap.sorted _) symbol_of_matching

theorem ok_empty : SymbolTableStaging.empty.Ok reads where
  index := by
    intro i id
    have same : SymbolTableStaging.empty.symbolIdByIndex reads i = reads.idByIndex i := by
      cases found : reads.idByIndex i with
      | none => simp [symbolIdByIndex, SymbolTableStaging.empty, found]
      | some held =>
        simp only [symbolIdByIndex, SymbolTableStaging.empty, found, bind_some]
        rfl
    rw [same]
    exact readsOk.index i id
  reserved := fun j id none => by simp [SymbolTableStaging.empty] at none
  staged := fun id entry none => by cases none
  cancelledNodup := nodup_nil
  cancelled := fun id none => by cases none
  kept := fun id none => by cases none

end SymbolTableStaging

/-- An operation that gives no new symbol an index of another one. -/
def SymbolOp.Clean (reads : SymbolReads) (staging : SymbolTableStaging) : SymbolOp → Prop
  | .add index entry => staging.Clean reads index entry
  | _ => True

theorem SymbolOp.apply_ok {reads : SymbolReads} (readsOk : reads.Ok)
    {staging staging' : SymbolTableStaging} (ok : staging.Ok reads) {op : SymbolOp}
    (clean : op.Clean reads staging) (run : op.apply reads staging = some staging') :
    staging'.Ok reads := by
  cases op with
  | add index entry => exact ok.add readsOk clean run
  | setProperties id properties =>
    cases run
    exact ok.setProperties readsOk properties
  | removeById id =>
    cases run
    exact ok.removeById readsOk
  | removeByIndex index =>
    cases run
    exact ok.removeByIndex readsOk
  | removeByName symbol =>
    cases run
    exact ok.removeMatching readsOk
  | removeByAddress address =>
    cases run
    exact ok.removeMatching readsOk

def stageAll (reads : SymbolReads) (ops : List SymbolOp) : Option SymbolTableStaging :=
  ops.foldlM (SymbolOp.apply reads) .empty

/-- Operations that give no new symbol an index of another one. -/
def CleanOps (reads : SymbolReads) : SymbolTableStaging → List SymbolOp → Prop
  | _, [] => True
  | staging, op :: ops => op.Clean reads staging ∧
    ∀ staging', op.apply reads staging = some staging' → CleanOps reads staging' ops

theorem stageAll_ok {reads : SymbolReads} (readsOk : reads.Ok) {ops : List SymbolOp}
    (clean : CleanOps reads .empty ops) {staging : SymbolTableStaging}
    (run : stageAll reads ops = some staging) : staging.Ok reads := by
  have all : ∀ (ops : List SymbolOp) (before : SymbolTableStaging), before.Ok reads →
      CleanOps reads before ops → ops.foldlM (SymbolOp.apply reads) before = some staging →
      staging.Ok reads := by
    intro ops
    induction ops with
    | nil =>
      intro before ok _ run
      cases run
      exact ok
    | cons op ops ih =>
      intro before ok clean run
      obtain ⟨next, first, run⟩ := bind_eq_some_iff.mp run
      exact ih next (SymbolOp.apply_ok readsOk ok clean.1 first) (clean.2 next first) run
  exact all ops _ (SymbolTableStaging.ok_empty readsOk) clean run

end Fugue.Ir
