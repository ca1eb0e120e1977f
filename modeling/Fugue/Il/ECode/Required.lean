import Fugue.Il.Common.BlockArgInputs
import Fugue.Il.ECode.Builder
import Fugue.Il.ECode.VerifySpec

/-!
# Required definitions

`ECodeRequiredDefs` (`fugue-core/src/il/ecode/optimise/required.rs`) over `IlRequiredDefs`
(`il/common/ssa.rs:44-71`): what has a side effect or a domain is required, and so is what a
required definition uses. `RequiredDef` is that closure, and `analyse_spec` says that the worklist
computes it.
-/

namespace Fugue.Il

open Fugue.Lib List
open Option (bind_eq_bind bind_some map_some)

/-- `IlRequiredDefs` (`ssa.rs:44-48`); the bit sets are lists of flags. -/
structure IlRequiredDefs where
  blockArgs : List Bool
  operations : List Bool
  deriving DecidableEq, Repr

namespace IlRequiredDefs

/-- `new` (`ssa.rs:51-56`). -/
def new (blockArgCount operationCount : Nat) : IlRequiredDefs :=
  ⟨List.replicate blockArgCount false, List.replicate operationCount false⟩

variable (required : IlRequiredDefs)

/-- `block_arg_is_required` (`ssa.rs:58-60`). -/
def blockArgIsRequired (index : Nat) : Bool :=
  required.blockArgs.getD index false

/-- `op_is_required` (`ssa.rs:62-64`). -/
def opIsRequired (index : Nat) : Bool :=
  required.operations.getD index false

def contains : IlSsaDef → Bool
  | .blockArg arg => required.blockArgIsRequired arg
  | .op operation => required.opIsRequired operation

/-- `mark` (`ssa.rs:66-71`): whether the definition was not marked before. A definition beyond the
capacity is a panic of the bit set. -/
def mark : IlSsaDef → Option (Bool × IlRequiredDefs)
  | .blockArg arg => do
    let blockArgs ← insertBit required.blockArgs arg
    return (!required.blockArgIsRequired arg, { required with blockArgs })
  | .op operation => do
    let operations ← insertBit required.operations operation
    return (!required.opIsRequired operation, { required with operations })

end IlRequiredDefs

namespace ECodeIr

/-- `ECodeBlockArgInputs::analyse` (`analysis/def_use.rs:76-87`). -/
def blockArgInputs (ir : ECodeIr) : Option IlSsaBlockArgInputs :=
  IlSsaBlockArgInputs.new ir.values.length ir.graph
    (ir.blockArgs.map fun arg => (arg.block, arg.value)) ir.argsForEdge

end ECodeIr

namespace ECodeRequiredDefs

/-- The state of `analyse`; the end of the worklist is the head of the list. -/
structure State where
  definitions : IlRequiredDefs
  worklist : List IlSsaDef

/-- Mark a definition, and work on it when it was not marked before. -/
def State.push (state : State) (definition : IlSsaDef) : Option State := do
  let (new, definitions) ← state.definitions.mark definition
  return ⟨definitions, if new then definition :: state.worklist else state.worklist⟩

variable (ir : ECodeIr)

def State.pushValue (state : State) (value : IlValueId) : Option State :=
  match ir.values[value]? with
  | none => some state
  | some record => state.push record.definition

/-- The operations with a side effect (`required.rs:26-36`). -/
def seedOp (state : State) (entry : ECodeOp × Nat) : Option State :=
  if entry.1.opcode.hasSideEffect then do
    let operation ← (tryFromIndex "operation" entry.2).toOption
    let (_, definitions) ← state.definitions.mark (.op operation)
    return ⟨definitions, .op operation :: state.worklist⟩
  else some state

/-- The values with a domain (`required.rs:37-54`). -/
def seedValue (state : State) (index : Nat) : Option State := do
  let value ← (tryFromIndex "value" index).toOption
  if (ir.valueDomain value).isNone then return state
  else state.pushValue ir value

/-- One round of the worklist (`required.rs:58-93`). -/
def step (inputs : IlSsaBlockArgInputs) (state : State) : Option (State ⊕ IlRequiredDefs) :=
  match state.worklist with
  | [] => some (.inr state.definitions)
  | .op operation :: worklist => do
    let operation ← ir.operations[operation]?
    return .inl (← (ir.opOperandsFor operation).foldlM (State.pushValue ir) { state with worklist })
  | .blockArg arg :: worklist => do
    let arg ← ir.blockArgs[arg]?
    match inputs.inputsFor arg.value with
    | none => return .inl { state with worklist }
    | some argInputs =>
      return .inl (← argInputs.foldlM (State.pushValue ir) { state with worklist })

/-- `analyse` (`required.rs:20-96`); a definition is worked on once, or twice for an operation that
has a side effect and is used. -/
def analyse : Option IlRequiredDefs := do
  let start : State := ⟨.new ir.blockArgs.length ir.operations.length, []⟩
  let seeded ← ir.operations.zipIdx.foldlM seedOp start
  let seeded ← (List.range ir.values.length).foldlM (seedValue ir) seeded
  let inputs ← ir.blockArgInputs
  runLoop (step ir inputs) (ir.blockArgs.length + 2 * ir.operations.length + 1) seeded

end ECodeRequiredDefs

namespace ECodeIr

def HasDef (ir : ECodeIr) : IlSsaDef → Prop
  | .blockArg arg => arg < ir.blockArgs.length
  | .op operation => operation < ir.operations.length

/-- A definition uses another one: as the definition of an operand, or as that of a value which an
edge into the block of the argument brings at its position. -/
inductive UsesDef (ir : ECodeIr) : IlSsaDef → IlSsaDef → Prop
  | operand {operation : IlOpId} {record : ECodeOp} {operand : IlValueId} {value : ECodeValue}
    (found : ir.operations[operation]? = some record) (mem : operand ∈ ir.opOperandsFor record)
    (at_ : ir.values[operand]? = some value) : UsesDef ir (.op operation) value.definition
  | edgeArg {arg : IlBlockArgId} {block : IlBlockId} {position edge : Nat} {input : IlValueId}
    {value : ECodeValue} (argAt : (SsaVerifier.argsOf ir block)[position]? = some arg)
    (target : ir.graph.successors[edge]? = some block)
    (inputAt : (ir.argsForEdge edge)[position]? = some input)
    (at_ : ir.values[input]? = some value) : UsesDef ir (.blockArg arg) value.definition

/-- A definition is required: it has a side effect, it defines a value with a domain, or a required
definition uses it. -/
inductive RequiredDef (ir : ECodeIr) : IlSsaDef → Prop
  | sideEffect {operation : IlOpId} {record : ECodeOp}
    (found : ir.operations[operation]? = some record)
    (effect : record.opcode.hasSideEffect = true) : RequiredDef ir (.op operation)
  | domain {value : IlValueId} {record : ECodeValue} {domain : ECodeDomain}
    (found : ir.values[value]? = some record) (has : ir.valueDomain value = some domain) :
    RequiredDef ir record.definition
  | uses {user used : IlSsaDef} (required : RequiredDef ir user) (uses : UsesDef ir user used) :
    RequiredDef ir used

end ECodeIr

/-! ## The worklist -/

/-- The number of flags that are not set. -/
def unset (bits : List Bool) : Nat := bits.count false

theorem insertBit_spec {bits : List Bool} {index : Nat} (lt : index < bits.length) :
    ∃ next, insertBit bits index = some next ∧ next.length = bits.length ∧
      (∀ other, next.getD other false = (bits.getD other false || other == index)) ∧
      unset next + (!bits.getD index false).toNat = unset bits := by
  refine ⟨bits.set index true, if_pos lt, length_set, fun other => ?_, ?_⟩
  · by_cases eq : index = other
    · subst eq
      simp [getD_eq_getElem?_getD, lt]
    · have ne : (other == index) = false := by simpa using fun h => eq h.symm
      simp [getD_eq_getElem?_getD, eq, ne]
  · have found : bits.getD index false = bits[index] := by
      simp [getD_eq_getElem?_getD, lt]
    unfold unset
    rw [count_set lt, found]
    cases flag : bits[index] with
    | true => simp
    | false =>
      have pos : 0 < bits.count false := count_pos_iff.mpr (flag ▸ getElem_mem lt)
      simp
      omega

namespace ECodeRequiredDefs

def State.Covers (state : State) : IlSsaDef → Prop
  | .blockArg arg => arg < state.definitions.blockArgs.length
  | .op operation => operation < state.definitions.operations.length

/-- The work that is left: definitions to mark, and those to work on. -/
def State.work (state : State) : Nat :=
  unset state.definitions.blockArgs + unset state.definitions.operations + state.worklist.length

variable {definition : IlSsaDef} {state : State}

theorem mark_spec (covers : state.Covers definition) :
    ∃ definitions, state.definitions.mark definition =
        some (!state.definitions.contains definition, definitions) ∧
      definitions.blockArgs.length = state.definitions.blockArgs.length ∧
      definitions.operations.length = state.definitions.operations.length ∧
      (∀ other, definitions.contains other = true ↔
        state.definitions.contains other = true ∨ other = definition) ∧
      unset definitions.blockArgs + unset definitions.operations +
          (!state.definitions.contains definition).toNat =
        unset state.definitions.blockArgs + unset state.definitions.operations := by
  cases definition with
  | blockArg arg =>
    obtain ⟨next, run, length, flags, count⟩ := insertBit_spec covers
    refine ⟨{ state.definitions with blockArgs := next }, ?_, length, rfl, ?_, ?_⟩
    · simp [IlRequiredDefs.mark, run, IlRequiredDefs.contains]
    · intro other
      cases other with
      | blockArg other =>
        simp only [IlRequiredDefs.contains, IlRequiredDefs.blockArgIsRequired, flags,
          Bool.or_eq_true, beq_iff_eq, IlSsaDef.blockArg.injEq]
      | op other => simp [IlRequiredDefs.contains, IlRequiredDefs.opIsRequired]
    · simp only [IlRequiredDefs.contains, IlRequiredDefs.blockArgIsRequired]
      omega
  | op operation =>
    obtain ⟨next, run, length, flags, count⟩ := insertBit_spec covers
    refine ⟨{ state.definitions with operations := next }, ?_, rfl, length, ?_, ?_⟩
    · simp [IlRequiredDefs.mark, run, IlRequiredDefs.contains]
    · intro other
      cases other with
      | blockArg other => simp [IlRequiredDefs.contains, IlRequiredDefs.blockArgIsRequired]
      | op other =>
        simp only [IlRequiredDefs.contains, IlRequiredDefs.opIsRequired, flags, Bool.or_eq_true,
          beq_iff_eq, IlSsaDef.op.injEq]
    · simp only [IlRequiredDefs.contains, IlRequiredDefs.opIsRequired]
      omega

/-- From one state to another, with more definitions marked; what is new is to be worked on. -/
structure Extends (state next : State) (added : IlSsaDef → Prop) : Prop where
  argsLength : next.definitions.blockArgs.length = state.definitions.blockArgs.length
  opsLength : next.definitions.operations.length = state.definitions.operations.length
  marked : ∀ definition, next.definitions.contains definition = true ↔
    state.definitions.contains definition = true ∨ added definition
  keeps : ∀ definition ∈ state.worklist, definition ∈ next.worklist
  listed : ∀ definition ∈ next.worklist, definition ∈ state.worklist ∨ added definition
  fresh : ∀ definition, added definition → state.definitions.contains definition = true ∨
    definition ∈ next.worklist

theorem Extends.covers {state next : State} {added : IlSsaDef → Prop}
    (extended : Extends state next added)
    (covers : state.Covers definition) : next.Covers definition := by
  cases definition with
  | blockArg arg =>
    show _ < _
    rw [extended.argsLength]
    exact covers
  | op operation =>
    show _ < _
    rw [extended.opsLength]
    exact covers

theorem Extends.refl (state : State) : Extends state state fun _ => False :=
  ⟨rfl, rfl, by simp, fun _ h => h, fun _ h => .inl h, fun _ h => h.elim⟩

theorem Extends.trans {a b c : State} {first second : IlSsaDef → Prop} (ab : Extends a b first)
    (bc : Extends b c second) : Extends a c fun d => first d ∨ second d := by
  refine ⟨bc.argsLength.trans ab.argsLength, bc.opsLength.trans ab.opsLength, fun d => ?_, ?_, ?_,
    ?_⟩
  · rw [bc.marked, ab.marked, or_assoc]
  · exact fun d mem => bc.keeps d (ab.keeps d mem)
  · intro d mem
    rcases bc.listed d mem with before | new
    · rcases ab.listed d before with old | new
      · exact .inl old
      · exact .inr (.inl new)
    · exact .inr (.inr new)
  · intro d added
    rcases added with new | new
    · rcases ab.fresh d new with old | listed
      · exact .inl old
      · exact .inr (bc.keeps d listed)
    · rcases bc.fresh d new with marked | listed
      · rcases (ab.marked d).mp marked with old | new'
        · exact .inl old
        · rcases ab.fresh d new' with old | listed
          · exact .inl old
          · exact .inr (bc.keeps d listed)
      · exact .inr listed

theorem Extends.congr {a b : State} {added other : IlSsaDef → Prop} (h : Extends a b added)
    (same : ∀ d, added d ↔ other d) : Extends a b other := by
  have eq : added = other := funext fun d => propext (same d)
  exact eq ▸ h

theorem push_spec (covers : state.Covers definition) :
    ∃ next, state.push definition = some next ∧ Extends state next (· = definition) ∧
      next.work = state.work := by
  obtain ⟨definitions, run, argsLength, opsLength, marked, count⟩ := mark_spec covers
  refine ⟨_, by simp only [State.push, run]; rfl, ⟨argsLength, opsLength, marked, ?_, ?_, ?_⟩, ?_⟩
  · intro d mem
    split
    · exact .tail _ mem
    · exact mem
  · intro d mem
    split at mem
    · exact (mem_cons.mp mem).symm
    · exact .inl mem
  · intro d eq
    subst eq
    cases before : state.definitions.contains d with
    | true => exact .inl rfl
    | false => exact .inr (by simp)
  · unfold State.work
    cases before : state.definitions.contains definition with
    | true =>
      rw [before] at count
      simp at count ⊢
      omega
    | false =>
      rw [before] at count
      simp at count ⊢
      omega

variable {ir : ECodeIr}

def ValuesCovered (ir : ECodeIr) (state : State) : Prop :=
  ∀ (value : IlValueId) (record : ECodeValue), ir.values[value]? = some record →
    state.Covers record.definition

def DefinesOneOf (ir : ECodeIr) (values : List IlValueId) (definition : IlSsaDef) : Prop :=
  ∃ value ∈ values, ∃ record, ir.values[value]? = some record ∧ record.definition = definition

theorem Extends.valuesCovered {state next : State} {added : IlSsaDef → Prop}
    (extended : Extends state next added) (covered : ValuesCovered ir state) :
    ValuesCovered ir next :=
  fun value record found => extended.covers (covered value record found)

theorem pushValue_spec (covered : ValuesCovered ir state) (value : IlValueId) :
    ∃ next, state.pushValue ir value = some next ∧
      Extends state next (DefinesOneOf ir [value]) ∧ next.work = state.work := by
  unfold State.pushValue
  cases found : ir.values[value]? with
  | none =>
    refine ⟨state, rfl, (Extends.refl state).congr fun d => ?_, rfl⟩
    simp [DefinesOneOf, found]
  | some record =>
    obtain ⟨next, run, extended, work⟩ := push_spec (covered value record found)
    refine ⟨next, run, extended.congr fun d => ?_, work⟩
    simp [DefinesOneOf, found, eq_comm]

theorem pushValues_spec : ∀ (values : List IlValueId) {state : State}, ValuesCovered ir state →
    ∃ next, values.foldlM (State.pushValue ir) state = some next ∧
      Extends state next (DefinesOneOf ir values) ∧ next.work = state.work
  | [], state, _ => ⟨state, rfl, (Extends.refl state).congr (by simp [DefinesOneOf]), rfl⟩
  | value :: values, state, covered => by
    obtain ⟨middle, first, extendedFirst, workFirst⟩ := pushValue_spec covered value
    obtain ⟨next, rest, extendedRest, workRest⟩ :=
      pushValues_spec values (extendedFirst.valuesCovered covered)
    refine ⟨next, ?_, (extendedFirst.trans extendedRest).congr fun d => ?_,
      workRest.trans workFirst⟩
    · rw [foldlM_cons, first]
      exact rest
    · simp [DefinesOneOf]

/-! ## The seeds -/

/-- The definition has a side effect, or defines a value with a domain. -/
def IsSeed (ir : ECodeIr) (definition : IlSsaDef) : Prop :=
  (∃ (operation : IlOpId) (record : ECodeOp), ir.operations[operation]? = some record ∧
    record.opcode.hasSideEffect = true ∧ definition = .op operation) ∨
  ∃ (value : IlValueId) (record : ECodeValue) (domain : ECodeDomain),
    ir.values[value]? = some record ∧ ir.valueDomain value = some domain ∧
    definition = record.definition

theorem seedOp_spec {operation : ECodeOp} {index : Nat}
    (covers : state.Covers (.op index)) (fits : index + 1 ≤ u32Max) :
    ∃ next, seedOp state (operation, index) = some next ∧ Extends state next (fun definition =>
        operation.opcode.hasSideEffect = true ∧ definition = .op index) ∧
      next.work ≤ state.work + 1 := by
  unfold seedOp
  cases effect : operation.opcode.hasSideEffect with
  | false =>
    refine ⟨state, rfl, (Extends.refl state).congr (by simp), Nat.le_succ _⟩
  | true =>
    obtain ⟨definitions, run, argsLength, opsLength, marked, count⟩ := mark_spec covers
    refine ⟨⟨definitions, .op index :: state.worklist⟩, ?_, ⟨argsLength, opsLength, ?_, ?_, ?_, ?_⟩,
      ?_⟩
    · simp only [if_true, tryFromIndex_ok fits, Except.toOption, some_bind, run]
      rfl
    · simp [marked]
    · exact fun d mem => .tail _ mem
    · simp [or_comm]
    · intro d eq
      exact .inr (by simp [eq.2])
    · simp only [State.work, length_cons]
      omega

theorem seedOps_spec : ∀ (operations : List ECodeOp) (start : Nat) {state : State},
    (∀ index, start ≤ index → index < start + operations.length → state.Covers (.op index)) →
    start + operations.length ≤ u32Max →
    ∃ next, (operations.zipIdx start).foldlM seedOp state = some next ∧
      Extends state next (fun definition => ∃ (offset : Nat) (record : ECodeOp),
        operations[offset]? = some record ∧ record.opcode.hasSideEffect = true ∧
          definition = .op (start + offset)) ∧
      next.work ≤ state.work + operations.length
  | [], _, state, _, _ => ⟨state, rfl, (Extends.refl state).congr (by simp), le_rfl⟩
  | operation :: operations, start, state, covers, fits => by
    rw [length_cons] at covers fits
    obtain ⟨middle, first, extendedFirst, workFirst⟩ :=
      @seedOp_spec state operation start (covers start le_rfl (by omega)) (by omega)
    obtain ⟨next, rest, extendedRest, workRest⟩ :=
      @seedOps_spec operations (start + 1) middle
        (fun index low high => extendedFirst.covers (covers index (by omega) (by omega)))
        (by omega)
    refine ⟨next, ?_, (extendedFirst.trans extendedRest).congr fun d => ?_, ?_⟩
    · rw [zipIdx_cons, foldlM_cons, first]
      exact rest
    · constructor
      · intro added
        rcases added with ⟨effect, eq⟩ | ⟨offset, record, found, effect, eq⟩
        · exact ⟨0, operation, rfl, effect, eq⟩
        · exact ⟨offset + 1, record, found, effect, by rw [eq, Nat.add_right_comm]; rfl⟩
      · intro ⟨offset, record, found, effect, eq⟩
        cases offset with
        | zero =>
          cases found
          exact .inl ⟨effect, eq⟩
        | succ offset => exact .inr ⟨offset, record, found, effect, by rw [eq, Nat.add_right_comm]; rfl⟩
    · rw [length_cons]
      omega

theorem seedValues_spec : ∀ (indices : List Nat) {state : State}, ValuesCovered ir state →
    (∀ index ∈ indices, index + 1 ≤ u32Max) →
    ∃ next, indices.foldlM (seedValue ir) state = some next ∧
      Extends state next (DefinesOneOf ir (indices.filter fun value =>
        (ir.valueDomain value).isSome)) ∧ next.work = state.work
  | [], state, _, _ => ⟨state, rfl, (Extends.refl state).congr (by simp [DefinesOneOf]), rfl⟩
  | index :: indices, state, covered, fits => by
    obtain ⟨fitsHead, fitsRest⟩ := forall_mem_cons.mp fits
    have head : ∃ next, seedValue ir state index = some next ∧
        Extends state next (DefinesOneOf ir ([index].filter fun value =>
          (ir.valueDomain value).isSome)) ∧ next.work = state.work := by
      unfold seedValue
      simp only [tryFromIndex_ok fitsHead, Except.toOption, some_bind]
      cases domain : ir.valueDomain index with
      | none => exact ⟨state, rfl, (Extends.refl state).congr (by simp [DefinesOneOf, domain]), rfl⟩
      | some found =>
        rw [filter_singleton, domain]
        exact pushValue_spec covered index
    obtain ⟨middle, first, extendedFirst, workFirst⟩ := head
    obtain ⟨next, rest, extendedRest, workRest⟩ :=
      seedValues_spec indices (extendedFirst.valuesCovered covered) fitsRest
    refine ⟨next, ?_, (extendedFirst.trans extendedRest).congr fun d => ?_,
      workRest.trans workFirst⟩
    · rw [foldlM_cons, first]
      exact rest
    · simp [DefinesOneOf, or_and_right, exists_or]

/-! ## The closure -/

structure Inv (ir : ECodeIr) (state : State) : Prop where
  argsLength : state.definitions.blockArgs.length = ir.blockArgs.length
  opsLength : state.definitions.operations.length = ir.operations.length
  sound : ∀ definition, state.definitions.contains definition = true → ir.RequiredDef definition
  listed : ∀ definition ∈ state.worklist, state.definitions.contains definition = true
  closed : ∀ definition, state.definitions.contains definition = true →
    definition ∈ state.worklist ∨
      ∀ used, ir.UsesDef definition used → state.definitions.contains used = true
  seeds : ∀ definition, IsSeed ir definition → state.definitions.contains definition = true

theorem Inv.next {state next : State} {worklist : List IlSsaDef}
    (inv : Inv ir state) (head : state.worklist = definition :: worklist)
    (extended : Extends { state with worklist } next (ir.UsesDef definition)) : Inv ir next := by
  have marked : state.definitions.contains definition = true :=
    inv.listed definition (by rw [head]; exact .head _)
  have grows : ∀ d, state.definitions.contains d = true → next.definitions.contains d = true :=
    fun d old => (extended.marked d).mpr (.inl old)
  have old_closed : ∀ d, state.definitions.contains d = true → d ∈ next.worklist ∨
      ∀ used, ir.UsesDef d used → next.definitions.contains used = true := by
    intro d old
    rcases inv.closed d old with listed | closed
    · rw [head, mem_cons] at listed
      rcases listed with eq | inRest
      · exact .inr fun used uses => (extended.marked used).mpr (.inr (eq ▸ uses))
      · exact .inl (extended.keeps d inRest)
    · exact .inr fun used uses => grows used (closed used uses)
  refine ⟨extended.argsLength.trans inv.argsLength, extended.opsLength.trans inv.opsLength, ?_, ?_,
    ?_, fun d seed => grows d (inv.seeds d seed)⟩
  · intro d contains
    rcases (extended.marked d).mp contains with old | uses
    · exact inv.sound d old
    · exact .uses (inv.sound definition marked) uses
  · intro d mem
    rcases extended.listed d mem with old | uses
    · exact grows d (inv.listed d (by rw [head]; exact .tail _ old))
    · exact (extended.marked d).mpr (.inr uses)
  · intro d contains
    rcases (extended.marked d).mp contains with old | uses
    · exact old_closed d old
    · rcases extended.fresh d uses with old | listed
      · exact old_closed d old
      · exact .inl listed

theorem Inv.complete (inv : Inv ir state) (empty : state.worklist = []) (definition : IlSsaDef) :
    state.definitions.contains definition = true ↔ ir.RequiredDef definition := by
  refine ⟨inv.sound definition, fun required => ?_⟩
  induction required with
  | sideEffect found effect => exact inv.seeds _ (.inl ⟨_, _, found, effect, rfl⟩)
  | domain found has => exact inv.seeds _ (.inr ⟨_, _, _, found, has, rfl⟩)
  | uses _ uses ih =>
    rcases inv.closed _ ih with listed | closed
    · rw [empty] at listed
      cases listed
    · exact closed _ uses

end ECodeRequiredDefs

namespace ECodeIr

variable {ir : ECodeIr}

/-- What a table of the block arguments has for the arguments of a block, in order. -/
theorem rowOf_zipIdx {β : Type} (f : IlBlockArgId → β) (block : IlBlockId) :
    IlCsr.rowOf (ir.blockArgs.zipIdx.map fun entry => (entry.1.block, f entry.2)) block =
      (SsaVerifier.argsOf ir block).map f := by
  show _ = ((List.range ir.blockArgs.length).filter fun arg =>
    (ir.blockArgs[arg]?).map ECodeBlockArg.block == some block).map _
  generalize ir.blockArgs = args
  induction args using List.reverseRecOn with
  | nil => rfl
  | append_singleton args last ih =>
    rw [zipIdx_append, map_append, IlCsr.rowOf_append, ih, length_append,
      length_singleton, range_succ, filter_append, map_append]
    congr 1
    · have kept : ((List.range args.length).filter fun arg =>
          ((args ++ [last])[arg]?).map ECodeBlockArg.block == some block) =
            (List.range args.length).filter fun arg =>
              (args[arg]?).map ECodeBlockArg.block == some block :=
        filter_congr fun arg mem => by
          rw [getElem?_append_left (mem_range.mp mem)]
      rw [kept]
    · by_cases eq : last.block = block <;> simp [IlCsr.rowOf, eq]

theorem rowOf_blockArgs (block : IlBlockId) :
    IlCsr.rowOf (ir.blockArgs.map fun arg => (arg.block, arg.value)) block =
      (SsaVerifier.argsOf ir block).map fun arg =>
        ((ir.blockArgs[arg]?).map ECodeBlockArg.value).getD 0 := by
  rw [← rowOf_zipIdx]
  congr 1
  apply ext_getElem?
  intro arg
  simp only [getElem?_map, getElem?_zipIdx]
  cases found : ir.blockArgs[arg]? with
  | none => rfl
  | some record => simp [found]

/-- The arguments of all edges together are those that the table names. -/
theorem sum_argsForEdge (edgeArgs_length : ir.edgeArgs.length = ir.graph.successors.length)
    (within : ∀ range ∈ ir.edgeArgs, range.stop ≤ ir.edgeArgValues.length) :
    (ir.graph.successors.zipIdx.map fun entry => (ir.argsForEdge entry.2).length).sum =
      (ir.edgeArgs.map IlIndexRange.len).sum := by
  have indices : (ir.graph.successors.zipIdx.map fun entry => (ir.argsForEdge entry.2).length) =
      (List.range ir.edgeArgs.length).map fun edge => (ir.argsForEdge edge).length := by
    rw [edgeArgs_length, range_eq_range', ← zipIdx_map_snd 0 ir.graph.successors, map_map]
    rfl
  rw [indices]
  congr 1
  apply ext_getElem?
  intro edge
  rw [getElem?_map, getElem?_map]
  by_cases lt : edge < ir.edgeArgs.length
  · rw [getElem?_range lt, getElem?_eq_getElem lt, map_some, map_some,
      argsForEdge, getElem?_eq_getElem lt]
    exact congrArg some (IlIndexRange.length_slice (within _ (getElem_mem lt)))
  · rw [getElem?_eq_none (by rw [length_range]; omega), getElem?_eq_none (by omega)]
    rfl

namespace DefinitionChecks

variable (checks : DefinitionChecks ir)

include checks

theorem blockArg_at {arg : IlBlockArgId} {record : ECodeBlockArg}
    (found : ir.blockArgs[arg]? = some record) :
    record.block < ir.graph.blocks.length ∧
      ir.values[record.value]? = some ⟨record.width, .blockArg arg⟩ :=
  (verifyBlockArg_eq_ok.mp (checks.blockArgs_ok arg record found)).2

theorem values_le : ir.values.length ≤ u32Max :=
  length_le_of_index fun i value found => (verifyValue_eq_ok.mp (checks.values_ok i value found)).1

theorem blockArgInputs_spec (ordered : ir.Ordered) :
    ∃ inputs, ir.blockArgInputs = some inputs ∧
      ∀ (arg : IlBlockArgId) (record : ECodeBlockArg), ir.blockArgs[arg]? = some record →
        ∃ values, inputs.inputsFor record.value = some values ∧
          ∀ input, input ∈ values ↔ ∃ (block : IlBlockId) (position edge : Nat),
            (SsaVerifier.argsOf ir block)[position]? = some arg ∧
            ir.graph.successors[edge]? = some block ∧
            (ir.argsForEdge edge)[position]? = some input := by
  obtain ⟨edgeLength, edgeBounds, -⟩ := verifyEdgeArgs_eq_ok.mp checks.edgeArgs_ok
  have argsWithin : ∀ arg ∈ ir.blockArgs.map fun arg => (arg.block, arg.value),
      arg.1 < ir.graph.blocks.length ∧ arg.2 < ir.values.length := by
    intro entry mem
    obtain ⟨record, recordMem, rfl⟩ := mem_map.mp mem
    obtain ⟨i, found⟩ := getElem?_of_mem recordMem
    obtain ⟨block, value⟩ := checks.blockArg_at found
    exact ⟨block, (lt_of_getElem? value)⟩
  have args_le : (ir.blockArgs.map fun arg => (arg.block, arg.value)).length ≤ u32Max := by
    rw [length_map]
    exact checks.checked.blockArgs_le
  have edges_le := (sum_argsForEdge edgeLength fun range mem => (edgeBounds range mem).2).trans_le
    ordered.edgeArgs_le
  obtain ⟨inputs, run, spec⟩ := IlSsaBlockArgInputs.new_spec argsWithin args_le
    ordered.graph.targets ordered.graph.successors_le edges_le
  refine ⟨inputs, run, fun arg record found => ?_⟩
  have value := (checks.blockArg_at found).2
  obtain ⟨isSome, members⟩ := spec record.value (lt_of_getElem? value)
  have present : ((ir.blockArgs.map fun arg => (arg.block, arg.value)).map Prod.snd).contains
      record.value = true := by
    rw [contains_iff_mem, map_map]
    exact mem_map.mpr ⟨record, mem_of_getElem? found, rfl⟩
  rw [present] at isSome
  obtain ⟨values, valuesEq⟩ := Option.isSome_iff_exists.mp isSome
  refine ⟨values, valuesEq, fun input => ?_⟩
  rw [members values valuesEq input]
  refine exists_congr fun block => exists_congr fun position => exists_congr fun edge =>
    and_congr_left fun _ => ?_
  rw [rowOf_blockArgs, getElem?_map, Option.map_eq_some_iff]
  constructor
  · intro ⟨other, otherAt, eq⟩
    have lt := (SsaVerifier.mem_argsOf.mp (mem_of_getElem? otherAt)).1
    have otherFound : ir.blockArgs[other]? = some ir.blockArgs[other] := getElem?_eq_getElem lt
    have same : ir.blockArgs[other].value = record.value := by simpa [otherFound] using eq
    have first := (checks.blockArg_at otherFound).2
    rw [same, (checks.blockArg_at found).2, Option.some.injEq, ECodeValue.mk.injEq] at first
    rw [otherAt, IlSsaDef.blockArg.inj first.2]
  · intro argAt
    exact ⟨arg, argAt, by rw [found]; rfl⟩

theorem hasDef {value : IlValueId} {record : ECodeValue} (found : ir.values[value]? = some record) :
    ir.HasDef record.definition := by
  have check := (verifyValue_eq_ok.mp (checks.values_ok value record found)).2
  cases definition : record.definition with
  | blockArg arg =>
    simp only [definition] at check
    obtain ⟨other, otherFound, -⟩ := check
    exact lt_of_getElem? otherFound
  | op operation =>
    simp only [definition] at check
    obtain ⟨other, otherFound, -⟩ := check
    exact lt_of_getElem? otherFound

theorem hasDef_of_required {definition : IlSsaDef} (required : ir.RequiredDef definition) :
    ir.HasDef definition := by
  cases required with
  | sideEffect found _ => exact lt_of_getElem? found
  | domain found _ => exact checks.hasDef found
  | uses _ uses =>
    cases uses with
    | operand _ _ found => exact checks.hasDef found
    | edgeArg _ _ _ found => exact checks.hasDef found

end DefinitionChecks

end ECodeIr

namespace ECodeRequiredDefs

variable {ir : ECodeIr}

theorem valuesCovered (checks : ECodeIr.DefinitionChecks ir) {state : State}
    (argsLength : state.definitions.blockArgs.length = ir.blockArgs.length)
    (opsLength : state.definitions.operations.length = ir.operations.length) :
    ValuesCovered ir state := by
  intro value record found
  have covers := checks.hasDef found
  cases definition : record.definition with
  | blockArg arg =>
    rw [definition] at covers
    show arg < _
    rw [argsLength]
    exact covers
  | op operation =>
    rw [definition] at covers
    show operation < _
    rw [opsLength]
    exact covers

theorem lt_of_getD {bits : List Bool} {index : Nat} (flag : bits.getD index false = true) :
    index < bits.length := by
  by_contra beyond
  rw [getD_eq_getElem?_getD, getElem?_eq_none (by omega)] at flag
  cases flag

theorem step_spec (checks : ECodeIr.DefinitionChecks ir) {inputs : IlSsaBlockArgInputs}
    (inputs_spec : ∀ (arg : IlBlockArgId) (record : ECodeBlockArg),
      ir.blockArgs[arg]? = some record →
        ∃ values, inputs.inputsFor record.value = some values ∧
          ∀ input, input ∈ values ↔ ∃ (block : IlBlockId) (position edge : Nat),
            (SsaVerifier.argsOf ir block)[position]? = some arg ∧
            ir.graph.successors[edge]? = some block ∧
            (ir.argsForEdge edge)[position]? = some input) {state : State} (inv : Inv ir state) :
    (∃ next, step ir inputs state = some (.inl next) ∧ Inv ir next ∧ next.work < state.work) ∨
    ∃ definitions, step ir inputs state = some (.inr definitions) ∧
      ∀ definition, definitions.contains definition = true ↔ ir.RequiredDef definition := by
  cases worklist : state.worklist with
  | nil => exact .inr ⟨state.definitions, by rw [step, worklist], inv.complete worklist⟩
  | cons definition rest =>
    have marked := inv.listed definition (by rw [worklist]; exact .head _)
    have less : ({ state with worklist := rest } : State).work < state.work := by
      simp only [State.work, worklist, length_cons]
      omega
    have covered : ValuesCovered ir { state with worklist := rest } :=
      valuesCovered checks inv.argsLength inv.opsLength
    left
    cases definition with
    | op operation =>
      have lt : operation < ir.operations.length := inv.opsLength ▸ lt_of_getD marked
      have found := getElem?_eq_getElem lt
      obtain ⟨next, run, extended, work⟩ :=
        pushValues_spec (ir.opOperandsFor ir.operations[operation]) covered
      refine ⟨next, ?_, inv.next worklist (extended.congr fun d => ?_), by omega⟩
      · simp [step, worklist, found, some_bind, run, Option.pure_def]
      · constructor
        · intro ⟨value, mem, record, recordFound, eq⟩
          rw [← eq]
          exact .operand found mem recordFound
        · intro uses
          cases uses with
          | operand found' mem recordFound =>
            rw [found] at found'
            cases found'
            exact ⟨_, mem, _, recordFound, rfl⟩
    | blockArg arg =>
      have lt : arg < ir.blockArgs.length := inv.argsLength ▸ lt_of_getD marked
      have found := getElem?_eq_getElem lt
      obtain ⟨values, valuesEq, members⟩ := inputs_spec arg _ found
      obtain ⟨next, run, extended, work⟩ := pushValues_spec values covered
      refine ⟨next, ?_, inv.next worklist (extended.congr fun d => ?_), by omega⟩
      · simp [step, worklist, found, some_bind, valuesEq, run, Option.pure_def]
      · constructor
        · intro ⟨value, mem, record, recordFound, eq⟩
          obtain ⟨block, position, edge, argAt, target, inputAt⟩ := (members value).mp mem
          rw [← eq]
          exact .edgeArg argAt target inputAt recordFound
        · intro uses
          cases uses with
          | edgeArg argAt target inputAt recordFound =>
            exact ⟨_, (members _).mpr ⟨_, _, _, argAt, target, inputAt⟩, _, recordFound, rfl⟩

theorem unset_replicate (count : Nat) : unset (List.replicate count false) = count := by
  simp [unset]

/-- The analysis finds the required definitions. -/
theorem analyse_spec (checks : ECodeIr.DefinitionChecks ir) (ordered : ir.Ordered) :
    ∃ required, analyse ir = some required ∧
      ∀ definition, required.contains definition = true ↔ ir.RequiredDef definition := by
  let start : State := ⟨.new ir.blockArgs.length ir.operations.length, []⟩
  have argsLength : start.definitions.blockArgs.length = ir.blockArgs.length :=
    length_replicate
  have opsLength : start.definitions.operations.length = ir.operations.length :=
    length_replicate
  have unmarked : ∀ d, start.definitions.contains d = false := by
    intro d
    cases d <;> simp [start, IlRequiredDefs.contains, IlRequiredDefs.new,
      IlRequiredDefs.blockArgIsRequired, IlRequiredDefs.opIsRequired, getElem?_replicate] <;>
      split <;> rfl
  have startWork : start.work = ir.blockArgs.length + ir.operations.length := by
    simp [start, State.work, IlRequiredDefs.new, unset_replicate]
  obtain ⟨seeded, opsRun, opsExtended, opsWork⟩ := @seedOps_spec ir.operations 0 start
    (fun index _ lt => by
      show index < start.definitions.operations.length
      omega)
    (by rw [zero_add]; exact checks.checked.ops_le)
  have seededArgs := opsExtended.argsLength.trans argsLength
  have seededOps := opsExtended.opsLength.trans opsLength
  obtain ⟨ready, valuesRun, valuesExtended, valuesWork⟩ :=
    seedValues_spec (List.range ir.values.length) (valuesCovered checks seededArgs seededOps)
      (fun index mem => le_trans (mem_range.mp mem) checks.values_le)
  have extended := opsExtended.trans valuesExtended
  obtain ⟨inputs, inputsRun, inputs_spec⟩ := checks.blockArgInputs_spec ordered
  -- what is marked so far are the seeds, and all of them are to be worked on
  have seeds : ∀ d, ready.definitions.contains d = true ↔ IsSeed ir d := by
    intro d
    rw [extended.marked, unmarked]
    refine (or_iff_right (by simp)).trans (or_congr ?_ ?_)
    · simp [zero_add]
    · constructor
      · intro ⟨value, mem, record, found, eq⟩
        obtain ⟨domain, has⟩ := Option.isSome_iff_exists.mp (mem_filter.mp mem).2
        exact ⟨value, record, domain, found, has, eq.symm⟩
      · intro ⟨value, record, domain, found, has, eq⟩
        refine ⟨value, mem_filter.mpr ⟨?_, by rw [has]; rfl⟩, record, found, eq.symm⟩
        exact mem_range.mpr (lt_of_getElem? found)
  have inv : Inv ir ready := by
    refine ⟨valuesExtended.argsLength.trans seededArgs, valuesExtended.opsLength.trans seededOps,
      ?_, ?_, ?_, fun d => (seeds d).mpr⟩
    · intro d marked
      rcases (seeds d).mp marked with ⟨_, _, found, effect, eq⟩ | ⟨_, _, _, found, has, eq⟩
      · rw [eq]
        exact .sideEffect found effect
      · rw [eq]
        exact .domain found has
    · intro d mem
      rcases extended.listed d mem with old | new
      · cases old
      · exact (extended.marked d).mpr (.inr new)
    · intro d marked
      rcases (extended.marked d).mp marked with old | new
      · rw [unmarked] at old
        cases old
      · rcases extended.fresh d new with old | listed
        · rw [unmarked] at old
          cases old
        · exact .inl listed
  obtain ⟨definitions, run, spec⟩ := runLoop_total (Inv ir) State.work
    (fun definitions : IlRequiredDefs =>
      ∀ d, definitions.contains d = true ↔ ir.RequiredDef d)
    (fun state => step_spec checks inputs_spec)
    (ir.blockArgs.length + 2 * ir.operations.length + 1) ready inv (by omega)
  refine ⟨definitions, ?_, spec⟩
  simp only [analyse, bind_eq_bind]
  rw [show ir.operations.zipIdx.foldlM seedOp _ = some seeded from opsRun, bind_some,
    valuesRun, bind_some, inputsRun, bind_some]
  exact run

end ECodeRequiredDefs

end Fugue.Il
