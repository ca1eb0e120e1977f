import Fugue.Il.ECode.DefinitionOrder
import Fugue.Il.ECode.Intervals

/-!
# What one round of the interval analysis computes

The intervals of a run have the widths of their values and the shape of progressions. A value that is
visited gets an interval of that kind, unless its width or a constant is not supported; a block
argument that changes gets a strictly larger one, where the stride of the widening is exact.
-/

namespace Fugue.Analysis.Value.StridedInterval

open Fugue.Bv Fugue.Bv.BitVec Fugue.Lib List Option

/-- An interval of a value of the width; without a bit vector of the width it is empty. -/
structure Fits (w : Nat) (i : StridedInterval) : Prop where
  shape : Shape w i
  plain : ¬ Supported w → i = .empty w

/-- The second interval has what the first one has, and more. -/
def StrictlyBelow (w : Nat) (i j : StridedInterval) : Prop :=
  (∀ x < 2 ^ w, i.Has w x → j.Has w x) ∧ ∃ x < 2 ^ w, j.Has w x ∧ ¬ i.Has w x

/-- The strides of a widening of two progressions divide what they are taken of. -/
def WidensExactly (w : Nat) (i j : StridedInterval) : Prop :=
  ∀ p q : Progression, i = ofProgression w p → j = ofProgression w q → WidenExact w p q

instance (i : StridedInterval) (w x : Nat) : Decidable (i.Has w x) :=
  inferInstanceAs (Decidable (_ = some true))

def elements (w : Nat) (i : StridedInterval) : Finset Nat :=
  (Finset.range (2 ^ w)).filter fun x => i.Has w x

variable {w wide : Nat} {i j r : StridedInterval}

theorem fits_empty : Fits w (.empty w) := ⟨.empty, fun _ => rfl⟩

theorem Shaped.fits {result : Option StridedInterval} (supported : Supported w)
    (shaped : Shaped w result) : ∃ r, result = some r ∧ Fits w r := by
  obtain ⟨r, eq, shape⟩ := shaped
  exact ⟨r, eq, shape, fun unsupported => absurd supported unsupported⟩

theorem card_elements_le : (elements w i).card ≤ 2 ^ w := by
  apply (Finset.card_filter_le _ _).trans
  rw [Finset.card_range]

theorem StrictlyBelow.card_lt (below : StrictlyBelow w i j) :
    (elements w i).card < (elements w j).card := by
  obtain ⟨within, x, lt, has, new⟩ := below
  refine Finset.card_lt_card ((Finset.ssubset_iff_of_subset fun y mem => ?_).mpr
    ⟨x, Finset.mem_filter.mpr ⟨Finset.mem_range.mpr lt, has⟩,
      fun mem => new (Finset.mem_filter.mp mem).2⟩)
  obtain ⟨yLt, hasY⟩ := Finset.mem_filter.mp mem
  exact Finset.mem_filter.mpr ⟨yLt, within y (Finset.mem_range.mp yLt) hasY⟩

section

variable (fitsI : Fits w i) (fitsJ : Fits w j)
include fitsI fitsJ

theorem Fits.eq_iff : i.eq j = true ↔ i = j := by
  by_cases supported : Supported w
  · obtain ⟨shapeI, -⟩ := fitsI
    obtain ⟨shapeJ, -⟩ := fitsJ
    cases shapeI with
    | empty =>
      cases shapeJ with
      | empty => simp [StridedInterval.eq]
      | progression q ltQ => simp [StridedInterval.eq, ofProgression]
    | progression p ltP =>
      cases shapeJ with
      | empty => simp [StridedInterval.eq, ofProgression]
      | progression q ltQ =>
        constructor
        · intro same
          simp only [StridedInterval.eq, ofProgression, Bool.and_eq_true,
            natural_eq supported (lo_lt ltP) (lo_lt ltQ), natural_eq supported ltP ltQ,
            natural_eq supported (stride_lt ltP) (stride_lt ltQ), decide_eq_true_eq] at same
          rw [ofProgression, ofProgression, same.1.1, same.1.2, same.2]
        · intro same
          rw [ofProgression_inj same]
          simp [StridedInterval.eq, ofProgression, natural_eq supported (lo_lt ltQ) (lo_lt ltQ),
            natural_eq supported ltQ ltQ, natural_eq supported (stride_lt ltQ) (stride_lt ltQ)]
  · rw [fitsI.plain supported, fitsJ.plain supported]
    simp [StridedInterval.eq]

theorem strictlyBelow_of_ne (ne : i ≠ j)
    (within : ∀ x < 2 ^ w, i.Has w x → j.Has w x) : StrictlyBelow w i j := by
  have supported : Supported w := by
    by_contra unsupported
    exact ne ((fitsI.plain unsupported).trans (fitsJ.plain unsupported).symm)
  refine ⟨within, ?_⟩
  by_contra none
  have back : ∀ x < 2 ^ w, j.Has w x → i.Has w x := fun x lt has => by
    by_contra new
    exact none ⟨x, lt, has, new⟩
  obtain ⟨shapeI, -⟩ := fitsI
  obtain ⟨shapeJ, -⟩ := fitsJ
  cases shapeI with
  | empty =>
    cases shapeJ with
    | empty => exact ne rfl
    | progression q ltQ =>
      exact not_has_empty (back q.lo (lo_lt ltQ) ((has_iff supported ltQ (lo_lt ltQ)).mpr q.lo_mem))
  | progression p ltP =>
    cases shapeJ with
    | empty =>
      exact not_has_empty (within p.lo (lo_lt ltP)
        ((has_iff supported ltP (lo_lt ltP)).mpr p.lo_mem))
    | progression q ltQ =>
      refine ne (congrArg (ofProgression w) (Progression.ext_mem fun x => ⟨fun mem => ?_,
        fun mem => ?_⟩))
      · have lt : x < 2 ^ w := lt_of_le_of_lt mem.2.1 ltP
        exact (has_iff supported ltQ lt).mp (within x lt ((has_iff supported ltP lt).mpr mem))
      · have lt : x < 2 ^ w := lt_of_le_of_lt mem.2.1 ltQ
        exact (has_iff supported ltP lt).mp (back x lt ((has_iff supported ltQ lt).mpr mem))

theorem Fits.join : ∃ r, i.join j = some r ∧ Fits w r := by
  by_cases supported : Supported w
  · exact (BinaryOp.shaped supported .join fitsI.shape fitsJ.shape).fits supported
  · rw [fitsI.plain supported, fitsJ.plain supported]
    exact ⟨_, rfl, fits_empty⟩

theorem Fits.widen : ∃ r, i.widen j = some r ∧ Fits w r := by
  by_cases supported : Supported w
  · exact (BinaryOp.shaped supported .widen fitsI.shape fitsJ.shape).fits supported
  · rw [fitsI.plain supported, fitsJ.plain supported]
    exact ⟨_, rfl, fits_empty⟩

/-- A widening with an exact stride has what its two intervals have. -/
theorem Fits.widen_covers (exact_ : WidensExactly w i j) (ran : i.widen j = some r) :
    (∀ x < 2 ^ w, i.Has w x → r.Has w x) ∧ ∀ x < 2 ^ w, j.Has w x → r.Has w x := by
  have both : CoversImage (i.widen j) w w i id ∧ CoversImage (i.widen j) w w j id := by
    apply coversBoth_of fitsI.shape fitsJ.shape widen_empty_left (fun p => rfl)
    rintro p q rfl rfl
    have supported : Supported w := by
      by_contra unsupported
      cases fitsI.plain unsupported
    exact (widen_iff supported fitsI.shape.lt fitsJ.shape.lt).mpr (exact_ p q rfl rfl)
  obtain ⟨⟨first, ranFirst, coversFirst⟩, second, ranSecond, coversSecond⟩ := both
  cases ran.symm.trans ranFirst
  cases ran.symm.trans ranSecond
  exact ⟨coversFirst, coversSecond⟩

end

theorem Fits.cast (fits : Fits w i) (supported : Supported wide) (op : CastOp) :
    ∃ r, op.apply i wide = some r ∧ Fits wide r := by
  by_cases supportedW : Supported w
  · exact (CastOp.shaped supportedW supported op fits.shape).fits supported
  · rw [fits.plain supportedW]
    refine ⟨.empty wide, ?_, fits_empty⟩
    cases op with
    | castTo =>
      have apart : w ≠ wide := fun same => supportedW (same ▸ supported)
      show (if w = wide then some (empty w) else if w < wide then some (empty wide)
        else some (empty wide)) = some (empty wide)
      rw [if_neg apart]
      split <;> rfl
    | signExtend => rfl
    | truncate => rfl
    | zeroExtend => rfl

end Fugue.Analysis.Value.StridedInterval

namespace Fugue.Il.ECodeStridedIntervals

open Fugue.Bv Fugue.Bv.BitVec Fugue.Analysis.Value StridedInterval ECodeIr List Option

variable {ir : ECodeIr} {intervals : List StridedInterval} {value : Nat} {w : Nat}

/-- The width of a value, as the analysis reads it. -/
abbrev widthOf (ir : ECodeIr) (value : IlValueId) : Nat := (ir.valueWidth value).getD 0

/-- Every value has an interval of its width. -/
structure AllFit (ir : ECodeIr) (intervals : List StridedInterval) : Prop where
  length : intervals.length = ir.values.length
  fits : ∀ (value : Nat) (i : StridedInterval), intervals[value]? = some i →
    i.Fits (widthOf ir value)

theorem AllFit.getElem? (all : AllFit ir intervals) (lt : value < ir.values.length) :
    ∃ i, intervals[value]? = some i ∧ i.Fits (widthOf ir value) := by
  have within : value < intervals.length := all.length ▸ lt
  exact ⟨_, getElem?_eq_getElem within, all.fits value _ (getElem?_eq_getElem within)⟩

theorem AllFit.set (all : AllFit ir intervals) {i : StridedInterval}
    (fits : i.Fits (widthOf ir value)) : AllFit ir (intervals.set value i) := by
  refine ⟨by rw [length_set, all.length], fun other j found => ?_⟩
  by_cases same : value = other
  · subst same
    have lt : value < intervals.length := by
      have := (List.getElem?_eq_some_iff.mp found).1
      rwa [length_set] at this
    rw [getElem?_set_self lt] at found
    cases found
    exact fits
  · rw [getElem?_set_ne same] at found
    exact all.fits other j found

/-! ## Constants -/

section Constants

variable (tables : ir.TablesFit)

include tables

theorem definingOp_eq {operation : ECodeOp} (defined : ir.definingOp value = some operation) :
    ∃ index : Nat, ir.operations[index]? = some operation ∧
      ir.values[value]? = some ⟨operation.width, .op index⟩ := by
  obtain ⟨record, found, defined⟩ := bind_eq_some_iff.mp defined
  cases definition : record.definition with
  | blockArg arg =>
    rw [definition] at defined
    cases defined
  | op index =>
    rw [definition] at defined
    have at_ : ir.operations[index]? = some operation := defined
    refine ⟨index, at_, ?_⟩
    have names : SsaIl.valueDefinition ir value = some (.op index) := by
      show (ir.values[value]?).map ECodeValue.definition = _
      rw [found, map_some, definition]
    obtain ⟨other, otherAt, low, high⟩ := tables.definitions.definition_op_iff.mp names
    cases at_.symm.trans otherAt
    obtain ⟨-, bounds, -, results⟩ :=
      verifyOpResults_eq_ok.mp (tables.definitions.results_ok _ _ at_)
    have member : (operation.results.slice ir.values)[value - operation.results.start]? =
        some record := by
      rw [IlIndexRange.getElem?_slice, if_pos (Nat.sub_lt_sub_right low high),
        Nat.add_sub_cancel' low, found]
    rw [found, results record (mem_of_getElem? member)]

omit tables in
theorem constant_spec {operation : ECodeOp} {constants : List UInt8} {constant : BitVec}
    (supported : Supported operation.width)
    (ran : operation.constant constants = some (some constant)) :
    ∃ n < 2 ^ operation.width, constant = natural operation.width n := by
  unfold ECodeOp.constant at ran
  split at ran
  · cases ran
  · split at ran
    · rw [natural_fromU64 supported, map_some] at ran
      cases ran
      exact ⟨_, Nat.mod_lt _ (Nat.two_pow_pos _), rfl⟩
    · split at ran
      · cases ran
      · rename_i bytes _
        obtain ⟨read, readEq, ran⟩ := bind_eq_some_iff.mp ran
        obtain ⟨cast, castEq, ran⟩ := bind_eq_some_iff.mp ran
        cases ran
        have packed := readEq
        obtain ⟨pos, le, -⟩ := packMeta_bind packed
        have notEmpty : bytes ≠ [] := fun empty => by
          rw [empty, length_nil] at pos
          omega
        obtain ⟨read', readEq', stores⟩ := fromLeBytesWith_spec bytes notEmpty le
        cases readEq.symm.trans readEq'
        have narrow : Supported (bytes.length * 8) := ⟨pos, le⟩
        rw [stores.eq_natural, natural_cast supported narrow
          (Nat.mod_lt _ (Nat.two_pow_pos _))] at castEq
        cases castEq
        exact ⟨_, Nat.mod_lt _ (Nat.two_pow_pos _), rfl⟩

theorem constantFrom_spec : ∀ (rounds : Nat) {value : Nat} {w : Nat} {constant : BitVec},
    ir.valueWidth value = some w → Supported w →
    ir.constantFrom rounds value = some (some constant) → ∃ n < 2 ^ w, constant = natural w n
  | 0, _, _, _, _, _, ran => by cases ran
  | rounds + 1, value, w, constant, width, supported, ran => by
    unfold constantFrom at ran
    cases defined : ir.definingOp value with
    | none =>
      rw [defined] at ran
      cases ran
    | some operation =>
      simp only [defined] at ran
      obtain ⟨index, at_, record⟩ := definingOp_eq tables defined
      have same : operation.width = w := by
        rw [valueWidth, record] at width
        exact Option.some.inj width
      split at ran
      · rename_i writes
        cases first : (ir.opOperandsFor operation).head? with
        | none =>
          rw [first] at ran
          cases ran
        | some input =>
          simp only [first] at ran
          obtain ⟨inputRecord, inputAt, uniform⟩ :=
            (tables.ops index operation at_).operands input (mem_of_head? first)
          have isUniform : operation.opcode.hasUniformOperandWidth = true := by
            rcases writes with flag | register
            · rw [flag]
              rfl
            · rw [register]
              rfl
          refine constantFrom_spec rounds ?_ supported ran
          rw [valueWidth, inputAt, map_some, uniform isUniform, same]
      · subst same
        exact constant_spec supported ran

end Constants

/-! ## Evaluation -/

section Evaluate

/-- The operands whose intervals the evaluation of a value reads. -/
def operandsOf (ir : ECodeIr) (value : IlValueId) : List IlValueId :=
  ((ir.definingOp value).map ir.opOperandsFor).getD []

theorem operand_congr {other : List StridedInterval} {operands : List IlValueId}
    (same : ∀ operand ∈ operands, intervals[operand]? = other[operand]?) (index : Nat) :
    operand intervals operands index = operand other operands index := by
  unfold operand
  cases found : operands[index]? with
  | none => rfl
  | some input =>
    show (intervals[input]?).map some = (other[input]?).map some
    rw [same input (mem_of_getElem? found)]

/-- The evaluation reads the intervals of its operands only. -/
theorem evaluate_congr {other : List StridedInterval}
    (same : ∀ operand ∈ operandsOf ir value, intervals[operand]? = other[operand]?) :
    evaluate ir intervals value = evaluate ir other value := by
  unfold operandsOf at same
  unfold evaluate
  cases defined : ir.definingOp value with
  | none => rfl
  | some operation =>
    rw [defined] at same
    have operands : ∀ index, operand intervals (ir.opOperandsFor operation) index =
        operand other (ir.opOperandsFor operation) index := operand_congr same
    unfold evaluateOp
    simp [operands]

variable (all : AllFit ir intervals)

include all

theorem operand_spec {operands : List IlValueId}
    (within : ∀ operand ∈ operands, operand < ir.values.length) (index : Nat) :
    ∃ found, operand intervals operands index = some found ∧
      ∀ i, found = some i → ∃ wide, i.Fits wide := by
  unfold operand
  cases found : operands[index]? with
  | none => exact ⟨none, rfl, fun i eq => by cases eq⟩
  | some input =>
    obtain ⟨i, at_, fits⟩ := all.getElem? (within input (mem_of_getElem? found))
    refine ⟨some i, ?_, fun j eq => ?_⟩
    · show (intervals[input]?).map some = _
      rw [at_, map_some]
    · cases eq
      exact ⟨_, fits⟩

omit all in
theorem unary_spec (supported : Supported w) (transfer : StridedInterval.CastOp)
    (arg : Option StridedInterval) (fits : ∀ i, arg = some i → ∃ wide, i.Fits wide) :
    ∃ r, unary w transfer arg = some r ∧ r.Fits w := by
  cases arg with
  | none => exact (full_shaped supported).fits supported
  | some i =>
    obtain ⟨wide, fits⟩ := fits i rfl
    exact fits.cast supported transfer

omit all in
theorem binary_spec (supported : Supported w) (transfer : StridedInterval.BinaryOp)
    (left right : Option StridedInterval) (fitsLeft : ∀ i, left = some i → ∃ wide, i.Fits wide)
    (fitsRight : ∀ i, right = some i → ∃ wide, i.Fits wide) :
    ∃ r, binary w transfer left right = some r ∧ r.Fits w := by
  cases left with
  | none => exact (full_shaped supported).fits supported
  | some i =>
    obtain ⟨wideI, fitsI⟩ := fitsLeft i rfl
    obtain ⟨castI, castIEq, fitsCastI⟩ := fitsI.cast supported .castTo
    have castIEq : i.castTo w = some castI := castIEq
    cases right with
    | none =>
      obtain ⟨r, eq, fits⟩ := (full_shaped supported).fits supported
      refine ⟨r, ?_, fits⟩
      simp [binary, castIEq, bind_eq_bind, bind_some, eq]
    | some j =>
      obtain ⟨wideJ, fitsJ⟩ := fitsRight j rfl
      obtain ⟨castJ, castJEq, fitsCastJ⟩ := fitsJ.cast supported .castTo
      have castJEq : j.castTo w = some castJ := castJEq
      obtain ⟨r, eq, fits⟩ :=
        (StridedInterval.BinaryOp.shaped supported transfer fitsCastI.shape fitsCastJ.shape).fits supported
      refine ⟨r, ?_, fits⟩
      simp [binary, castIEq, castJEq, bind_eq_bind, bind_some, eq]

theorem evaluateOp_spec (supported : Supported w) {operation : ECodeOp}
    (within : ∀ operand ∈ ir.opOperandsFor operation, operand < ir.values.length) :
    ∃ r, evaluateOp ir intervals w operation = some r ∧ r.Fits w := by
  obtain ⟨first, firstEq, fitsFirst⟩ := operand_spec all within 0
  obtain ⟨second, secondEq, fitsSecond⟩ := operand_spec all within 1
  unfold evaluateOp
  cases unaryTransfer operation.opcode with
  | some transfer =>
    simp only [firstEq, bind_eq_bind, bind_some]
    exact unary_spec supported transfer first fitsFirst
  | none =>
    cases binaryTransfer operation.opcode with
    | none => exact (full_shaped supported).fits supported
    | some transfer =>
      simp only [firstEq, secondEq, bind_eq_bind, bind_some]
      exact binary_spec supported transfer first second fitsFirst fitsSecond

theorem evaluate_spec (tables : ir.TablesFit) {value : Nat} (lt : value < ir.values.length)
    (width : widthOf ir value ≠ 0 → widthOf ir value ≤ maxBits)
    (constant : widthOf ir value ≠ 0 → ir.constantValue value ≠ none) :
    ∃ r, evaluate ir intervals value = some r ∧ r.Fits (widthOf ir value) := by
  have has : ir.valueWidth value = some (widthOf ir value) := by
    simp [widthOf, valueWidth, getElem?_eq_getElem lt, map_some, getD_some]
  unfold evaluate
  by_cases zero : widthOf ir value = 0
  · rw [if_pos zero, zero]
    exact ⟨_, rfl, fits_empty⟩
  · have supported : Supported (widthOf ir value) := ⟨Nat.pos_of_ne_zero zero, width zero⟩
    rw [if_neg zero]
    cases constantEq : ir.constantValue value with
    | none => exact absurd constantEq (constant zero)
    | some found =>
      cases found with
      | some number =>
        obtain ⟨n, nLt, rfl⟩ := constantFrom_spec tables _ has supported constantEq
        exact Shaped.fits supported ⟨_, single_of supported, between_shape nLt⟩
      | none =>
        cases defined : ir.definingOp value with
        | none => exact (full_shaped supported).fits supported
        | some operation =>
          obtain ⟨index, at_, -⟩ := definingOp_eq tables defined
          refine evaluateOp_spec all supported fun operand mem => ?_
          obtain ⟨record, found, -⟩ := (tables.ops index operation at_).operands operand mem
          exact (List.getElem?_eq_some_iff.mp found).1

end Evaluate

/-! ## The next interval of a value -/

section Next

/-- What a visit of a value asks for: the width is one of bit vectors, unless there is none; a
constant can be built; an argument that no edge brings a value for has a width; the edges bring
values of the width of the argument; and the stride of the widening is exact. -/
structure Regular (ir : ECodeIr) (tables : Tables) (intervals : List StridedInterval)
    (value : IlValueId) : Prop where
  width : widthOf ir value ≠ 0 → widthOf ir value ≤ maxBits
  constant : tables.blockArgInputs.inputsFor value = none → widthOf ir value ≠ 0 →
    ir.constantValue value ≠ none
  entered : tables.blockArgInputs.inputsFor value = some [] → widthOf ir value ≠ 0
  uniform : ∀ inputs, tables.blockArgInputs.inputsFor value = some inputs →
    ∀ input ∈ inputs, ir.valueWidth input = ir.valueWidth value
  widens : ∀ inputs, tables.blockArgInputs.inputsFor value = some inputs → inputs ≠ [] →
    ∀ current brought, intervals[value]? = some current →
      joined ir intervals value inputs = some brought →
      WidensExactly (widthOf ir value) current brought

variable {tables : Tables}

theorem joined_spec (all : AllFit ir intervals) {inputs : List IlValueId}
    (within : ∀ input ∈ inputs, input < ir.values.length)
    (uniform : ∀ input ∈ inputs, ir.valueWidth input = ir.valueWidth value) :
    ∃ r, joined ir intervals value inputs = some r ∧ r.Fits (widthOf ir value) := by
  have folded : ∀ (rest : List IlValueId), (∀ input ∈ rest, input ∈ inputs) →
      ∀ accumulated : StridedInterval, accumulated.Fits (widthOf ir value) →
        ∃ r, rest.foldlM (fun accumulated input => do accumulated.join (← intervals[input]?))
          accumulated = some r ∧ r.Fits (widthOf ir value) := by
    intro rest
    induction rest with
    | nil => exact fun _ accumulated fits => ⟨accumulated, rfl, fits⟩
    | cons input rest ih =>
      intro listed accumulated fits
      have mem := listed input (.head _)
      obtain ⟨brought, at_, broughtFits⟩ := all.getElem? (within input mem)
      have broughtFits : brought.Fits (widthOf ir value) := by
        have width := uniform input mem
        simp only [widthOf] at broughtFits ⊢
        rwa [width] at broughtFits
      obtain ⟨next, nextEq, nextFits⟩ := fits.join broughtFits
      obtain ⟨r, ran, rFits⟩ :=
        ih (fun other otherMem => listed other (mem_cons_of_mem input otherMem)) next nextFits
      refine ⟨r, ?_, rFits⟩
      simp only [foldlM_cons, at_, bind_eq_bind, bind_some, nextEq]
      exact ran
  exact folded inputs (fun _ mem => mem) _ fits_empty

theorem full_has (supported : Supported w) {r : StridedInterval} (ran : full w = some r) :
    ∀ x < 2 ^ w, r.Has w x := by
  intro x lt
  rw [full_of supported] at ran
  cases ran
  exact (has_iff supported everything_lt lt).mpr (mem_everything lt)

/-- A regular visit returns an interval of the width of the value; that of an argument is the
current one or has more. -/
theorem next_spec (all : AllFit ir intervals) (fit : ir.TablesFit) {value : Nat}
    (lt : value < ir.values.length)
    (within : ∀ inputs, tables.blockArgInputs.inputsFor value = some inputs →
      ∀ input ∈ inputs, input < ir.values.length)
    (regular : Regular ir tables intervals value) {current : StridedInterval}
    (at_ : intervals[value]? = some current) :
    ∃ r, next ir tables intervals value = some r ∧ r.Fits (widthOf ir value) ∧
      (tables.blockArgInputs.inputsFor value ≠ none → r ≠ current →
        current.StrictlyBelow (widthOf ir value) r) := by
  have currentFits := all.fits value current at_
  unfold next
  cases inputsEq : tables.blockArgInputs.inputsFor value with
  | none =>
    obtain ⟨r, ran, fits⟩ := evaluate_spec all fit lt regular.width (regular.constant inputsEq)
    exact ⟨r, ran, fits, fun isArg => absurd rfl isArg⟩
  | some inputs =>
    cases inputs with
    | nil =>
      have pos := regular.entered inputsEq
      have supported : Supported (widthOf ir value) := ⟨Nat.pos_of_ne_zero pos, regular.width pos⟩
      obtain ⟨r, ran, fits⟩ := (full_shaped supported).fits supported
      exact ⟨r, ran, fits, fun _ ne => strictlyBelow_of_ne currentFits fits ne.symm
        fun x xLt _ => full_has supported ran x xLt⟩
    | cons first rest =>
      obtain ⟨brought, broughtEq, broughtFits⟩ :=
        joined_spec all (within _ inputsEq) (regular.uniform _ inputsEq)
      obtain ⟨r, ran, fits⟩ := currentFits.widen broughtFits
      have widens := regular.widens _ inputsEq (by simp) current brought at_ broughtEq
      refine ⟨r, ?_, fits, fun _ ne => strictlyBelow_of_ne currentFits fits ne.symm
        (currentFits.widen_covers broughtFits widens ran).1⟩
      simp [broughtEq, at_, bind_eq_bind, bind_some, ran]

end Next

end Fugue.Il.ECodeStridedIntervals
