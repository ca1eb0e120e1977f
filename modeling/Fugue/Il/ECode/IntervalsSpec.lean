import Fugue.Il.ECode.IntervalsStep
import Fugue.Il.ECode.IntervalsTables
import Fugue.Lib.Settling
import Mathlib.Algebra.BigOperators.Group.Finset.Basic
import Mathlib.Algebra.Order.BigOperators.Group.Finset

/-!
# Termination of the interval analysis

A visit that changes the interval of a block argument makes it larger, of which there are only
finitely many for the width; between such visits the operations settle in the order of their
definitions. So the loop ends, and what is not on the worklist is settled.
-/

namespace Fugue.Il.ECodeStridedIntervals

open Fugue.Lib Fugue.Bv Fugue.Bv.BitVec Fugue.Analysis.Value StridedInterval ECodeIr List Option

variable {ir : ECodeIr} {tables : Tables} {s t : State} {value : Nat}

/-! ## Rounds -/

theorem users_spec (fit : ir.TablesFit) (exact_ : tables.Exact ir) (value : Nat) :
    ∃ defined, users ir tables value = some defined ∧ (∀ user ∈ defined, user < ir.values.length) ∧
      ∀ user, value ∈ operandsOf ir user → user ∈ defined := by
  have all : ((tables.uses.checkedRow value).getD []).mapM (fun useSite => do
      let user ← ir.operations[useSite.1]?
      return List.range' user.results.start user.results.len) =
      some (((tables.uses.checkedRow value).getD []).map fun useSite =>
        ((ir.operations[useSite.1]?).map fun user : ECodeOp =>
          List.range' user.results.start user.results.len).getD []) :=
    mapM_eq_some fun useSite mem => by
      obtain ⟨record, found, -⟩ := (exact_.uses value useSite.1 useSite.2).mp mem
      simp only [found, map_some, getD_some]
      rfl
  refine ⟨_, by rw [users, all]; rfl, fun user mem => ?_, fun user mem => ?_⟩
  · obtain ⟨row, rowMem, mem⟩ := mem_flatten.mp mem
    obtain ⟨useSite, useMem, rfl⟩ := List.mem_map.mp rowMem
    obtain ⟨record, found, -⟩ := (exact_.uses value useSite.1 useSite.2).mp useMem
    rw [found, map_some, getD_some, mem_range'_1] at mem
    obtain ⟨-, bounds, -⟩ :=
      verifyOpResults_eq_ok.mp (fit.definitions.results_ok useSite.1 record found)
    have stop : record.results.start + record.results.len = record.results.stop :=
      Nat.add_sub_cancel' bounds.1
    exact lt_of_lt_of_le (stop ▸ mem.2) bounds.2
  · unfold operandsOf at mem
    cases defined : ir.definingOp user with
    | none =>
      rw [defined] at mem
      cases mem
    | some record =>
      have mem : value ∈ ir.opOperandsFor record := by rwa [defined] at mem
      obtain ⟨index, found, recordAt⟩ := definingOp_eq fit defined
      have names : SsaIl.valueDefinition ir user = some (.op index) := by
        show (ir.values[user]?).map ECodeValue.definition = _
        rw [recordAt, map_some]
      obtain ⟨other, otherAt, low, high⟩ := fit.definitions.definition_op_iff.mp names
      cases found.symm.trans otherAt
      obtain ⟨position, at_⟩ := mem_iff_getElem?.mp mem
      have used := (exact_.uses value index position).mpr ⟨record, found, at_⟩
      refine mem_flatten.mpr ⟨_, List.mem_map.mpr ⟨_, used, rfl⟩, ?_⟩
      simp only [found, map_some, getD_some, mem_range'_1]
      have stop : record.results.start + record.results.len = record.results.stop :=
        Nat.add_sub_cancel' (le_of_lt (lt_of_le_of_lt low high))
      exact ⟨low, stop.symm ▸ high⟩

/-- The interval of a value agrees with what it is computed of: that of an operation is its
evaluation, and that of an argument has what the edges bring. -/
def Settled (ir : ECodeIr) (tables : Tables) (intervals : List StridedInterval)
    (value : IlValueId) : Prop :=
  match tables.blockArgInputs.inputsFor value with
  | none => evaluate ir intervals value = intervals[value]?
  | some [] => StridedInterval.full (widthOf ir value) = intervals[value]?
  | some inputs => ∃ brought current, joined ir intervals value inputs = some brought ∧
      intervals[value]? = some current ∧
      ∀ x < 2 ^ widthOf ir value, brought.Has (widthOf ir value) x →
        current.Has (widthOf ir value) x

/-- The values whose intervals the next one of a value is computed of. -/
def readsOf (ir : ECodeIr) (tables : Tables) (value : IlValueId) : List IlValueId :=
  (tables.blockArgInputs.inputsFor value).getD (operandsOf ir value)

theorem joined_congr {intervals other : List StridedInterval} {inputs : List IlValueId}
    (same : ∀ input ∈ inputs, intervals[input]? = other[input]?) :
    joined ir intervals value inputs = joined ir other value inputs := by
  unfold joined
  generalize StridedInterval.empty ((ir.valueWidth value).getD 0) = accumulated
  induction inputs generalizing accumulated with
  | nil => rfl
  | cons input inputs ih =>
    obtain ⟨first, rest⟩ := forall_mem_cons.mp same
    simp only [foldlM_cons]
    have at_ : intervals[input]? = other[input]? := first
    rw [at_]
    congr 1
    funext next
    exact ih rest next

theorem Settled.congr {intervals other : List StridedInterval}
    (settled : Settled ir tables intervals value)
    (same : ∀ read ∈ readsOf ir tables value, intervals[read]? = other[read]?)
    (own : intervals[value]? = other[value]?) : Settled ir tables other value := by
  unfold Settled readsOf at *
  cases inputsEq : tables.blockArgInputs.inputsFor value with
  | none =>
    simp only [inputsEq, getD_none] at settled same ⊢
    rw [← own, ← evaluate_congr same]
    exact settled
  | some inputs =>
    cases inputs with
    | nil =>
      simp only [inputsEq] at settled ⊢
      rw [← own]
      exact settled
    | cons first rest =>
      simp only [inputsEq, getD_some] at settled same ⊢
      rw [← own, ← joined_congr same]
      exact settled

/-- What holds before every round: the intervals fit, and what is not settled is on the
worklist. -/
structure Inv (ir : ECodeIr) (tables : Tables) (s : State) : Prop where
  all : AllFit ir s.intervals
  within : ∀ value ∈ s.worklist, value < ir.values.length
  pending : ∀ value < ir.values.length, value ∈ s.worklist ∨ Settled ir tables s.intervals value

/-- A visit that finds a new interval: the readers of the value go on the worklist. -/
structure Changed (ir : ECodeIr) (tables : Tables) (s : State) (value : Nat) (rest : List Nat)
    (t : State) (current result : StridedInterval) (readers : List Nat) : Prop where
  at_ : s.intervals[value]? = some current
  next : next ir tables s.intervals value = some result
  fits : result.Fits (widthOf ir value)
  ne : result ≠ current
  grows : tables.blockArgInputs.inputsFor value ≠ none →
    current.StrictlyBelow (widthOf ir value) result
  state : t = ⟨s.intervals.set value result, readers.reverse ++ rest⟩
  within : ∀ reader ∈ readers, reader < ir.values.length
  reads : ∀ reader, value ∈ readsOf ir tables reader → reader ∈ readers

theorem readers_spec (fit : ir.TablesFit) (exact_ : tables.Exact ir) (value : Nat) :
    ∃ defined, users ir tables value = some defined ∧
      (∀ reader ∈ defined ++ tables.dependents.row value, reader < ir.values.length) ∧
      ∀ reader, value ∈ readsOf ir tables reader →
        reader ∈ defined ++ tables.dependents.row value := by
  obtain ⟨defined, run, within, reads⟩ := users_spec fit exact_ value
  refine ⟨defined, run, fun reader mem => ?_, fun reader mem => ?_⟩
  · rcases mem_append.mp mem with mem | mem
    · exact within reader mem
    · obtain ⟨inputs, eq, -⟩ := (exact_.dependents value reader).mp mem
      obtain ⟨arg, argMem, rfl⟩ := (exact_.isArg reader).mp (by rw [eq, isSome_some])
      exact (blockArg_lt fit argMem).2
  · unfold readsOf at mem
    cases inputsEq : tables.blockArgInputs.inputsFor reader with
    | none =>
      rw [inputsEq, getD_none] at mem
      exact mem_append_left _ (reads reader mem)
    | some inputs =>
      rw [inputsEq, getD_some] at mem
      exact mem_append_right _ ((exact_.dependents value reader).mpr ⟨inputs, inputsEq, mem⟩)

variable {rest : List Nat}

theorem round_spec (fit : ir.TablesFit) (exact_ : tables.Exact ir) (inv : Inv ir tables s)
    (top : s.worklist = value :: rest) (regular : Regular ir tables s.intervals value) :
    (next ir tables s.intervals value = s.intervals[value]? ∧
      round ir tables s = some (.inl ⟨s.intervals, rest⟩)) ∨
    ∃ t current result readers, round ir tables s = some (.inl t) ∧
      Changed ir tables s value rest t current result readers := by
  have lt : value < ir.values.length := inv.within value (by rw [top]; exact .head _)
  obtain ⟨current, at_, currentFits⟩ := inv.all.getElem? lt
  obtain ⟨result, nextEq, fits, grows⟩ := next_spec inv.all fit lt (exact_.inputs value) regular at_
  obtain ⟨defined, usersEq, within, reads⟩ := readers_spec fit exact_ value
  have id : (tryFromIndex "value" value).toOption = some value := by
    have small := (verifyValue_eq_ok.mp
      (fit.definitions.values_ok value _ (getElem?_eq_getElem lt))).1
    rw [tryFromIndex_ok small]
    rfl
  by_cases same : result = current
  · refine .inl ⟨by rw [nextEq, at_, same], ?_⟩
    have isEq : result.eq current = true := (fits.eq_iff currentFits).mpr same
    simp only [round, top, id, nextEq, at_, isEq, some_bind, if_true]
    rfl
  · have isNew : ¬ result.eq current = true := fun isEq => same ((fits.eq_iff currentFits).mp isEq)
    refine .inr ⟨_, current, result, defined ++ tables.dependents.row value, ?_, at_, nextEq, fits,
      same, fun isArg => grows isArg same, rfl, within, reads⟩
    simp only [round, top, id, nextEq, at_, if_neg isNew, usersEq, some_bind]
    rfl

theorem settled_of_next (all : AllFit ir s.intervals) (lt : value < ir.values.length)
    (exact_ : tables.Exact ir) (regular : Regular ir tables s.intervals value)
    {result : StridedInterval} (nextEq : next ir tables s.intervals value = some result)
    {other : List StridedInterval} (own : other[value]? = some result)
    (same : ∀ read ∈ readsOf ir tables value, s.intervals[read]? = other[read]?) :
    Settled ir tables other value := by
  unfold Settled
  unfold next at nextEq
  unfold readsOf at same
  cases inputsEq : tables.blockArgInputs.inputsFor value with
  | none =>
    simp only [inputsEq, getD_none] at nextEq same ⊢
    rw [← evaluate_congr same, nextEq, own]
  | some inputs =>
    cases inputs with
    | nil =>
      simp only [inputsEq] at nextEq ⊢
      rw [own]
      exact nextEq
    | cons first rest =>
      simp only [inputsEq, getD_some] at nextEq same ⊢
      obtain ⟨brought, broughtEq, broughtFits⟩ :=
        joined_spec all (exact_.inputs _ _ inputsEq) (regular.uniform _ inputsEq)
      obtain ⟨current, at_, currentFits⟩ := all.getElem? lt
      have ran : current.widen brought = some result := by
        simpa only [broughtEq, at_, some_bind] using nextEq
      have widens := regular.widens _ inputsEq (by simp) current brought at_ broughtEq
      exact ⟨brought, result, by rw [← joined_congr same]; exact broughtEq, own,
        (currentFits.widen_covers broughtFits widens ran).2⟩

theorem Changed.own {current result : StridedInterval} {readers : List Nat}
    (changed : Changed ir tables s value rest t current result readers) :
    t.intervals[value]? = some result := by
  have lt := lt_of_getElem? changed.at_
  rw [changed.state]
  exact getElem?_set_self lt

theorem Changed.others {current result : StridedInterval} {readers : List Nat}
    (changed : Changed ir tables s value rest t current result readers) {other : Nat}
    (ne : other ≠ value) : s.intervals[other]? = t.intervals[other]? := by
  rw [changed.state]
  exact (getElem?_set_ne ne.symm).symm

theorem Inv.step (fit : ir.TablesFit) (exact_ : tables.Exact ir) (inv : Inv ir tables s)
    (top : s.worklist = value :: rest) (regular : Regular ir tables s.intervals value)
    (ran : round ir tables s = some (.inl t)) : Inv ir tables t := by
  have lt : value < ir.values.length := inv.within value (by rw [top]; exact .head _)
  rcases round_spec fit exact_ inv top regular with ⟨nextEq, eq⟩ | ⟨u, current, result, readers,
    eq, changed⟩
  · cases ran.symm.trans eq
    obtain ⟨current, at_, -⟩ := inv.all.getElem? lt
    refine ⟨inv.all, fun other mem => inv.within other (by rw [top]; exact .tail _ mem),
      fun other otherLt => ?_⟩
    rcases inv.pending other otherLt with listed | settled
    · rw [top] at listed
      rcases mem_cons.mp listed with rfl | listed
      · exact .inr (settled_of_next inv.all lt exact_ regular (nextEq.trans at_) at_ fun _ _ => rfl)
      · exact .inl listed
    · exact .inr settled
  · cases ran.symm.trans eq
    have others := fun other (ne : other ≠ value) => changed.others ne
    have own := changed.own
    have worklist : t.worklist = readers.reverse ++ rest := by rw [changed.state]
    refine ⟨?_, fun other mem => ?_, fun other otherLt => ?_⟩
    · rw [changed.state]
      exact inv.all.set changed.fits
    · rw [worklist] at mem
      rcases mem_append.mp mem with mem | mem
      · exact changed.within other (mem_reverse.mp mem)
      · exact inv.within other (by rw [top]; exact .tail _ mem)
    · rw [worklist]
      by_cases reads : value ∈ readsOf ir tables other
      · exact .inl (mem_append_left _ (mem_reverse.mpr (changed.reads other reads)))
      · have same : ∀ read ∈ readsOf ir tables other, s.intervals[read]? = t.intervals[read]? :=
          fun read mem => others read fun eq => reads (eq ▸ mem)
        by_cases isValue : other = value
        · subst isValue
          exact .inr (settled_of_next inv.all lt exact_ regular changed.next own same)
        · rcases inv.pending other otherLt with listed | settled
          · rw [top] at listed
            rcases mem_cons.mp listed with isValue' | listed
            · exact absurd isValue' isValue
            · exact .inl (mem_append_right _ listed)
          · exact .inr (settled.congr same (others other isValue))

theorem Inv.start : Inv ir tables (State.start ir) := by
  refine ⟨⟨length_map _, fun value i found => ?_⟩, fun value mem => mem_range.mp mem,
    fun value lt => .inl (mem_range.mpr lt)⟩
  obtain ⟨record, at_, rfl⟩ := map_eq_some_iff.mp
    ((getElem?_map.symm.trans found : (ir.values[value]?).map _ = some i))
  have width : widthOf ir value = record.width := by
    simp [widthOf, valueWidth, at_, map_some, getD_some]
  rw [width]
  exact fits_empty

/-! ## Termination -/

section Measure

open Classical in
/-- How far the intervals of the block arguments can still grow. -/
noncomputable def room (ir : ECodeIr) (tables : Tables) (intervals : List StridedInterval) : Nat :=
  ∑ value ∈ (Finset.range ir.values.length).filter
      fun value => tables.blockArgInputs.inputsFor value ≠ none,
    (2 ^ widthOf ir value -
      ((intervals[value]?).map fun i => (elements (widthOf ir value) i).card).getD 0)

open Classical in
/-- The operations whose evaluation is not their interval. -/
noncomputable def unsettled (ir : ECodeIr) (tables : Tables) (intervals : List StridedInterval) :
    Finset Nat :=
  (Finset.range ir.values.length).filter fun value =>
    tables.blockArgInputs.inputsFor value = none ∧ evaluate ir intervals value ≠ intervals[value]?

/-- The level of a value: the later its operation, the lower. -/
def level (ir : ECodeIr) (rank : IlOpId → Nat) (value : IlValueId) : Nat :=
  match SsaIl.valueDefinition ir value with
  | some (.op operation) => (Finset.range ir.operations.length).sup rank - rank operation
  | _ => (Finset.range ir.operations.length).sup rank + 1

/-- What goes down with every regular round. -/
noncomputable def measure (ir : ECodeIr) (tables : Tables) (rank : IlOpId → Nat) (s : State) :
    Nat × Multiset Nat × Nat :=
  (room ir tables s.intervals, (unsettled ir tables s.intervals).val.map (level ir rank),
    s.worklist.length)

/-- The lexicographic order of the measure. -/
def Below : Nat × Multiset Nat × Nat → Nat × Multiset Nat × Nat → Prop :=
  Prod.Lex (· < ·) (Prod.Lex Multiset.IsDershowitzMannaLT (· < ·))

theorem wellFounded_below : WellFounded Below :=
  WellFounded.prod_lex wellFounded_lt
    (WellFounded.prod_lex Multiset.wellFounded_isDershowitzMannaLT wellFounded_lt)

variable {rank : IlOpId → Nat}

theorem level_lt (fit : ir.TablesFit) (ranked : ir.Ranked rank)
    {reader : Nat} (reads : value ∈ operandsOf ir reader) :
    level ir rank reader < level ir rank value := by
  unfold operandsOf at reads
  cases defined : ir.definingOp reader with
  | none =>
    rw [defined] at reads
    cases reads
  | some record =>
    have mem : value ∈ ir.opOperandsFor record := by rwa [defined] at reads
    obtain ⟨index, found, recordAt⟩ := definingOp_eq fit defined
    have names : SsaIl.valueDefinition ir reader = some (.op index) := by
      show (ir.values[reader]?).map ECodeValue.definition = _
      rw [recordAt, map_some]
    have indexLe : rank index ≤ (Finset.range ir.operations.length).sup rank :=
      Finset.le_sup (Finset.mem_range.mpr (lt_of_getElem? found))
    unfold level
    simp only [names]
    split
    · rename_i definition definedBy
      have lt := ranked index record found value mem definition definedBy
      omega
    · omega

variable {current result : StridedInterval}

variable {rest : List Nat} {readers : List Nat}

theorem room_lt (all : AllFit ir s.intervals)
    (changed : Changed ir tables s value rest t current result readers)
    (isArg : tables.blockArgInputs.inputsFor value ≠ none) :
    room ir tables t.intervals < room ir tables s.intervals := by
  have lt : value < ir.values.length := by
    rw [← all.length]
    exact lt_of_getElem? changed.at_
  have card := (changed.grows isArg).card_lt
  have bound := card_elements_le (w := widthOf ir value) (i := result)
  refine Finset.sum_lt_sum (fun other _ => ?_)
    ⟨value, Finset.mem_filter.mpr ⟨Finset.mem_range.mpr lt, isArg⟩, ?_⟩
  · by_cases same : other = value
    · subst same
      rw [changed.own, changed.at_, map_some, map_some, getD_some, getD_some]
      omega
    · rw [changed.others same]
  · rw [changed.own, changed.at_, map_some, map_some, getD_some, getD_some]
    omega

theorem room_eq (changed : Changed ir tables s value rest t current result readers)
    (isOp : tables.blockArgInputs.inputsFor value = none) :
    room ir tables t.intervals = room ir tables s.intervals := by
  refine Finset.sum_congr rfl fun other mem => ?_
  have ne : other ≠ value := fun eq => (Finset.mem_filter.mp mem).2 (eq ▸ isOp)
  rw [changed.others ne]

/-- Where an operation changes, it is settled, and only operations of a lower level are not settled
any more. -/
theorem unsettled_lt (fit : ir.TablesFit) (all : AllFit ir s.intervals) (ranked : ir.Ranked rank)
    (changed : Changed ir tables s value rest t current result readers)
    (isOp : tables.blockArgInputs.inputsFor value = none) :
    ((unsettled ir tables t.intervals).val.map (level ir rank)).IsDershowitzMannaLT
      ((unsettled ir tables s.intervals).val.map (level ir rank)) := by
  have lt : value < ir.values.length := by
    rw [← all.length]
    exact lt_of_getElem? changed.at_
  have evaluated : evaluate ir s.intervals value = some result := by
    have nextEq := changed.next
    unfold next at nextEq
    rwa [isOp] at nextEq
  have same : ∀ other : Nat, value ∉ operandsOf ir other →
      evaluate ir s.intervals other = evaluate ir t.intervals other := fun other reads =>
    evaluate_congr fun operand mem => changed.others fun eq => reads (eq ▸ mem)
  have notOwn : value ∉ operandsOf ir value := fun reads =>
    absurd (level_lt fit ranked reads) (lt_irrefl _)
  refine settled_lt (level ir rank) (a := value) ?_ ?_ fun other mem new => ?_
  · refine Finset.mem_filter.mpr ⟨Finset.mem_range.mpr lt, isOp, ?_⟩
    rw [evaluated, changed.at_]
    exact fun eq => changed.ne (Option.some.inj eq)
  · intro mem
    apply (Finset.mem_filter.mp mem).2.2
    rw [← same value notOwn, evaluated, changed.own]
  · obtain ⟨range, otherOp, unequal⟩ := Finset.mem_filter.mp mem
    by_cases reads : value ∈ operandsOf ir other
    · exact level_lt fit ranked reads
    · have ne : other ≠ value := fun eq => unequal (by
        rw [eq, ← same value notOwn, evaluated, changed.own])
      refine absurd (Finset.mem_filter.mpr ⟨range, otherOp, ?_⟩) new
      rwa [same other reads, changed.others ne]

theorem measure_lt (fit : ir.TablesFit) (exact_ : tables.Exact ir)
    (ranked : ir.Ranked rank) (inv : Inv ir tables s)
    (top : s.worklist = value :: rest) (regular : Regular ir tables s.intervals value)
    (ran : round ir tables s = some (.inl t)) :
    Below (measure ir tables rank t) (measure ir tables rank s) := by
  rcases round_spec fit exact_ inv top regular with ⟨-, eq⟩ | ⟨u, current, result, readers, eq,
    changed⟩
  · cases ran.symm.trans eq
    refine .right _ (.right _ ?_)
    rw [top, length_cons]
    exact Nat.lt_succ_self _
  · cases ran.symm.trans eq
    by_cases isOp : tables.blockArgInputs.inputsFor value = none
    · unfold measure
      rw [room_eq changed isOp]
      exact .right _ (.left _ _ (unsettled_lt fit inv.all ranked changed isOp))
    · exact .left _ _ (room_lt inv.all changed isOp)

end Measure

theorem Reached.inv (fit : ir.TablesFit) (exact_ : tables.Exact ir)
    (regular : ∀ s, Reached ir tables s → ∀ value rest, s.worklist = value :: rest →
      Regular ir tables s.intervals value) (reached : Reached ir tables s) : Inv ir tables s := by
  induction reached with
  | refl => exact Inv.start
  | tail reached ran inv =>
    rename_i s t
    cases top : s.worklist with
    | nil =>
      simp only [round, top] at ran
      cases ran
    | cons value rest => exact inv.step fit exact_ top (regular s reached value rest top) ran

/-- For a verified form, as long as the visits are regular: the loop ends, and then every value is
settled; a round that changes the interval of a block argument makes it strictly larger; and a chain
of strictly larger intervals that widenings make is no longer than the width has elements. -/
theorem analyse_settles (ir : ECodeIr) (tables : Tables) (verified : ir.verify = some (.ok ()))
    (built : Tables.new ir = some tables)
    (regular : ∀ s, Reached ir tables s → ∀ value rest, s.worklist = value :: rest →
      Regular ir tables s.intervals value) :
    (∃ fuel intervals, analyse ir fuel = some intervals ∧
      ∀ value < ir.values.length, Settled ir tables intervals value) ∧
    (∀ s t, Reached ir tables s → round ir tables s = some (.inl t) → ∀ arg ∈ ir.blockArgs,
      ∀ current result, s.intervals[arg.value]? = some current →
        t.intervals[arg.value]? = some result → result ≠ current →
        current.StrictlyBelow (widthOf ir arg.value) result) ∧
    ∀ (w : Nat) (chain brought : Nat → StridedInterval) (steps : Nat),
      (∀ step < steps, (chain step).widen (brought step) = some (chain (step + 1)) ∧
        (chain step).StrictlyBelow w (chain (step + 1))) → steps ≤ 2 ^ w := by
  have fit : ir.TablesFit := by
    apply verifyTables_eq_ok.mp
    unfold verify at verified
    split at verified
    · cases verified
    · assumption
  have exact_ := Tables.new_exact fit built
  obtain ⟨rank, ranked⟩ := exists_ranked verified
  refine ⟨?_, fun s t reached ran arg argMem current result at_ own ne => ?_, ?_⟩
  · have each : ∀ s, Reached ir tables s →
        (∃ t, round ir tables s = some (.inl t) ∧ Reached ir tables t ∧
          InvImage Below (measure ir tables rank) t s) ∨
        ∃ intervals, round ir tables s = some (.inr intervals) ∧
          ∀ value < ir.values.length, Settled ir tables intervals value := by
      intro s reached
      have inv := reached.inv fit exact_ regular
      cases top : s.worklist with
      | nil =>
        refine .inr ⟨s.intervals, by rw [round, top], fun value lt => ?_⟩
        refine (inv.pending value lt).resolve_left fun listed => ?_
        rw [top] at listed
        cases listed
      | cons value rest =>
        have regular := regular s reached value rest top
        have goesOn : ∃ t, round ir tables s = some (.inl t) := by
          rcases round_spec fit exact_ inv top regular with ⟨-, eq⟩ | ⟨t, -, -, -, eq, -⟩
          · exact ⟨_, eq⟩
          · exact ⟨t, eq⟩
        obtain ⟨t, ran⟩ := goesOn
        exact .inl ⟨t, ran, reached.tail ran, measure_lt fit exact_ ranked inv top regular ran⟩
    obtain ⟨fuel, intervals, run, settled⟩ := runLoop_wellFounded
      (InvImage.wf (measure ir tables rank) wellFounded_below) (Reached ir tables) _ each
      (State.start ir) .refl
    exact ⟨fuel, intervals, by rw [analyse, built]; exact run, settled⟩
  · have inv := reached.inv fit exact_ regular
    have isArg : tables.blockArgInputs.inputsFor arg.value ≠ none := by
      rw [ne_none_iff_isSome]
      exact (exact_.isArg arg.value).mpr ⟨arg, argMem, rfl⟩
    cases top : s.worklist with
    | nil =>
      simp only [round, top] at ran
      cases ran
    | cons value rest =>
      rcases round_spec fit exact_ inv top (regular s reached value rest top) with
        ⟨-, eq⟩ | ⟨u, before, after, readers, eq, changed⟩
      · cases ran.symm.trans eq
        exact absurd (Option.some.inj (own.symm.trans at_)) ne
      · cases ran.symm.trans eq
        by_cases same : arg.value = value
        · subst same
          cases changed.at_.symm.trans at_
          cases changed.own.symm.trans own
          exact changed.grows isArg
        · exact absurd (Option.some.inj ((changed.others same ▸ own).symm.trans at_)) ne
  · intro w chain brought steps grows
    have cards : ∀ step ≤ steps, step ≤ (elements w (chain step)).card := by
      intro step
      induction step with
      | zero => exact fun _ => Nat.zero_le _
      | succ step ih =>
        intro le
        have lt := (grows step le).2.card_lt
        omega
    exact (cards steps le_rfl).trans card_elements_le

/-! ## A loop that sets its argument back -/

/-- A loop whose block argument starts with a constant and is set to 0 by each round. -/
def resetLoop (entered : Nat) : ECodeIr where
  metadata := ⟨0, 0⟩
  graph :=
    { blocks := [⟨⟨0, 1⟩, ⟨0, 1⟩, ⟨true, false⟩⟩, ⟨⟨1, 3⟩, ⟨1, 2⟩, ⟨false, true⟩⟩]
      successors := [1, 1]
      successorKinds := [⟨false, true, false, false⟩, ⟨false, false, true, false⟩]
      blockSources := [] }
  sourceSpans := []
  parentSpans := []
  values := [⟨32, .op 0⟩, ⟨32, .blockArg 0⟩, ⟨32, .op 1⟩]
  valueDomains := [none, none, none]
  blockArgs := [⟨1, 1, 32⟩]
  edgeArgs := [⟨0, 1⟩, ⟨1, 2⟩]
  edgeArgValues := [0, 2]
  operations := [⟨.constant, ⟨0, 1⟩, ⟨0, 0⟩, 32, entered, none, none⟩,
    ⟨.constant, ⟨2, 3⟩, ⟨0, 0⟩, 32, 0, none, none⟩,
    ⟨.return, ⟨3, 3⟩, ⟨0, 1⟩, 0, 0, none, none⟩]
  valueOperands := [1]
  memoryDomains := []
  constantStorage := []

def resetTables : Tables where
  blockArgInputs := ⟨[false, true, false], ⟨[0, 0, 2, 2], [0, 2]⟩⟩
  dependents := ⟨[0, 1, 1, 2], [1, 1]⟩
  uses := ⟨[0, 0, 1, 1], [(2, 0)]⟩

def only (number : Nat) : Progression := .ofBounds number number 0 (Nat.le_refl number)

def resetStates : List State :=
  [⟨[.empty 32, .empty 32, .empty 32], [0, 1, 2]⟩,
    ⟨[ofProgression 32 (only 4), .empty 32, .empty 32], [1, 1, 2]⟩,
    ⟨[ofProgression 32 (only 4), ofProgression 32 (only 4), .empty 32], [1, 2]⟩,
    ⟨[ofProgression 32 (only 4), ofProgression 32 (only 4), .empty 32], [2]⟩,
    ⟨[ofProgression 32 (only 4), ofProgression 32 (only 4), ofProgression 32 (only 0)], [1]⟩,
    ⟨[ofProgression 32 (only 4), ofProgression 32 ⟨0, 4, 4, by decide, by decide, by decide⟩,
      ofProgression 32 (only 0)], []⟩]

theorem reached_resetLoop (reached : Reached (resetLoop 4) resetTables s) : s ∈ resetStates := by
  have closed : ∀ s ∈ resetStates,
      ((round (resetLoop 4) resetTables s).bind Sum.getLeft?).all (· ∈ resetStates) = true := by
    decide +kernel
  induction reached with
  | refl => decide +kernel
  | tail _ ran mem =>
    have next := closed _ mem
    rw [ran] at next
    simpa using next

theorem regular_constant {intervals : List StridedInterval} (mem : value ∈ [0, 2]) :
    Regular (resetLoop 4) resetTables intervals value := by
  have isOp : resetTables.blockArgInputs.inputsFor value = none := by
    revert value
    decide +kernel
  have constant : (resetLoop 4).constantValue value ≠ none := by
    revert value
    decide +kernel
  have width : widthOf (resetLoop 4) value ≤ maxBits := by
    revert value
    decide +kernel
  refine ⟨fun _ => width, fun _ _ => constant, fun eq => ?_, fun inputs eq => ?_,
    fun inputs eq => ?_⟩
  all_goals
    rw [isOp] at eq
    cases eq

theorem regular_arg {intervals : List StridedInterval}
    (widens : ∀ current brought, intervals[1]? = some current →
      joined (resetLoop 4) intervals 1 [0, 2] = some brought → WidensExactly 32 current brought) :
    Regular (resetLoop 4) resetTables intervals 1 := by
  refine ⟨fun _ => by decide +kernel, fun eq => ?_, fun _ => by decide +kernel,
    fun values eq => ?_, fun values eq _ => ?_⟩
  · cases eq
  · cases eq
    decide +kernel
  · cases eq
    exact widens

theorem widensExactly_empty {w : Nat} {j : StridedInterval} : WidensExactly w (.empty w) j :=
  fun _ _ eq => by cases eq

theorem widensExactly_of {w : Nat} {p q : Progression} (widens : WidenExact w p q) :
    WidensExactly w (ofProgression w p) (ofProgression w q) := fun _ _ eqP eqQ => by
  rwa [← ofProgression_inj eqP, ← ofProgression_inj eqQ]

theorem regular_resetLoop (mem : s ∈ resetStates)
    (top : s.worklist = value :: rest) : Regular (resetLoop 4) resetTables s.intervals value := by
  have unchanged : WidensExactly 32 (ofProgression 32 (only 4)) (ofProgression 32 (only 4)) :=
    widensExactly_of (by unfold WidenExact; decide +kernel)
  have grown : WidensExactly 32 (ofProgression 32 (only 4))
      (ofProgression 32 ⟨0, 4, 4, by decide, by decide, by decide⟩) :=
    widensExactly_of (by unfold WidenExact; decide +kernel)
  simp only [resetStates, mem_cons, not_mem_nil, or_false] at mem
  rcases mem with rfl | rfl | rfl | rfl | rfl | rfl
  · cases top
    exact regular_constant (by decide)
  · cases top
    refine regular_arg fun current brought at_ _ => ?_
    cases at_
    exact widensExactly_empty
  · cases top
    refine regular_arg fun current brought at_ joinedEq => ?_
    have same : joined (resetLoop 4) [ofProgression 32 (only 4), ofProgression 32 (only 4),
        .empty 32] 1 [0, 2] = some (ofProgression 32 (only 4)) := by decide +kernel
    cases at_
    cases same.symm.trans joinedEq
    exact unchanged
  · cases top
    exact regular_constant (by decide)
  · cases top
    refine regular_arg fun current brought at_ joinedEq => ?_
    have both : joined (resetLoop 4) [ofProgression 32 (only 4), ofProgression 32 (only 4),
        ofProgression 32 (only 0)] 1 [0, 2] =
        some (ofProgression 32 ⟨0, 4, 4, by decide, by decide, by decide⟩) := by decide +kernel
    cases at_
    cases both.symm.trans joinedEq
    exact grown
  · cases top

theorem analyse_settles_resetLoop :
    ∃ fuel intervals, analyse (resetLoop 4) fuel = some intervals ∧
      ∀ value < (resetLoop 4).values.length,
        Settled (resetLoop 4) resetTables intervals value :=
  (analyse_settles (resetLoop 4) resetTables (by decide +kernel) (by decide +kernel)
    fun _ reached _ _ top => regular_resetLoop (reached_resetLoop reached) top).1

/-- The last state of the loop that starts with 4294967293 before its argument is widened by 0. -/
def beforeReset : State :=
  ⟨[ofProgression 32 (only 4294967293), ofProgression 32 (only 4294967293),
    ofProgression 32 (only 0)], [1]⟩

/-- The widening takes the stride 3, which is the magnitude of 4294967293, and loses the number that
the argument starts with. -/
theorem analyse_loses_entered :
    (resetLoop 4294967293).verify = some (.ok ()) ∧
      Tables.new (resetLoop 4294967293) = some resetTables ∧
      ∃ s t current result, Reached (resetLoop 4294967293) resetTables s ∧
        round (resetLoop 4294967293) resetTables s = some (.inl t) ∧
        s.intervals[1]? = some current ∧ t.intervals[1]? = some result ∧ result ≠ current ∧
        ¬ current.StrictlyBelow 32 result := by
  have step : ∀ {s t}, Reached (resetLoop 4294967293) resetTables s →
      round (resetLoop 4294967293) resetTables s = some (.inl t) →
      Reached (resetLoop 4294967293) resetTables t := fun reached ran => reached.tail ran
  refine ⟨by decide +kernel, by decide +kernel, beforeReset,
    ⟨[ofProgression 32 (only 4294967293),
      ofProgression 32 ⟨0, 4294967292, 3, by decide, by decide, by decide⟩,
      ofProgression 32 (only 0)], []⟩, _, _, ?_, by decide +kernel, rfl, rfl, by decide +kernel,
    fun below => ?_⟩
  · have first : Reached (resetLoop 4294967293) resetTables
        ⟨[ofProgression 32 (only 4294967293), .empty 32, .empty 32], [1, 1, 2]⟩ :=
      step .refl (by decide +kernel)
    have second : Reached (resetLoop 4294967293) resetTables
        ⟨[ofProgression 32 (only 4294967293), ofProgression 32 (only 4294967293), .empty 32],
          [1, 2]⟩ := step first (by decide +kernel)
    have third : Reached (resetLoop 4294967293) resetTables
        ⟨[ofProgression 32 (only 4294967293), ofProgression 32 (only 4294967293), .empty 32],
          [2]⟩ := step second (by decide +kernel)
    exact step third (by decide +kernel)
  · have kept := below.1 4294967293 (by decide) (by decide +kernel)
    revert kept
    decide +kernel

end Fugue.Il.ECodeStridedIntervals
