import Fugue.Analysis.Switch.Evaluator

/-!
# What a switch target denotes

`Denotes` is the value of an SSA value under an assignment of the switch index, by rules alone: no
memo, no stack and no step limit. It has at most one value, and what it derives without the index
holds under every assignment.
-/

namespace Fugue.Analysis.Switch

open Fugue.Bv Fugue.Il Fugue.Ir List Option

theorem pointerOperand_mem {ssa : ECodeIr} {operation : ECodeOp} {pointer : IlValueId}
    (found : ssa.pointerOperand operation = some pointer) :
    pointer ∈ ssa.opOperandsFor operation := by
  unfold ECodeIr.pointerOperand at found
  split at found
  · exact mem_of_head? found
  · exact mem_of_head? found
  · cases found

/-- The operands whose values an operation needs. -/
def operandsRead (ssa : ECodeIr) (operation : ECodeOp) : List IlValueId :=
  match operation.opcode with
  | .constant => []
  | .load => (ssa.pointerOperand operation).toList
  | .writeFlag | .writeRegister => (ssa.opOperandsFor operation).take 1
  | _ => ssa.opOperandsFor operation

theorem operandsRead_subset {ssa : ECodeIr} {operation : ECodeOp} {operand : IlValueId}
    (mem : operand ∈ operandsRead ssa operation) : operand ∈ ssa.opOperandsFor operation := by
  unfold operandsRead at mem
  split at mem
  · cases mem
  · exact pointerOperand_mem (mem_toList.mp mem)
  · exact mem_of_mem_take mem
  · exact mem_of_mem_take mem
  · exact mem

/-- The value of an operation from the values of these operands: a constant, a load, the cast of a
register or flag write, or the scalar evaluation of any other opcode. -/
def operationValue (context : SwitchContext) (readMemory : ReadMemory) (operation : ECodeOp)
    (operands : List BitVec) : OptionT Option BitVec :=
  match operation.opcode with
  | .constant => OptionT.mk (operation.constant context.ssa.constantStorage)
  | .load => do
    SwitchTargetEvaluator.load context readMemory operation (← OptionT.mk (some operands.head?))
  | .writeFlag | .writeRegister => do
    OptionT.lift ((← OptionT.mk (some operands.head?)).cast operation.width)
  | opcode => opcode.evaluate operation.width operands

/-- The value of an SSA value when the index has the assigned value, if one is assigned. -/
inductive Denotes (context : SwitchContext) (readMemory : ReadMemory) (index : IlValueId)
    (assignment : Option BitVec) : IlValueId → BitVec → Prop
  | index {result : BitVec} : assignment = some result →
      Denotes context readMemory index assignment index result
  | forward {value input : IlValueId} {result : BitVec} : value ≠ index →
      context.ssa.definingOp value = none →
      context.blockArgInputs.commonInputFor value = some input →
      Denotes context readMemory index assignment input result →
      Denotes context readMemory index assignment value result
  | operation {value : IlValueId} {operation : ECodeOp} {operands : List BitVec}
      {result : BitVec} : value ≠ index → context.ssa.definingOp value = some operation →
      (operandsRead context.ssa operation).length = operands.length →
      (∀ operand known, (operand, known) ∈ (operandsRead context.ssa operation).zip operands →
        Denotes context readMemory index assignment operand known) →
      (operationValue context readMemory operation operands).run = some (some result) →
      Denotes context readMemory index assignment value result

section Denotes

variable {context : SwitchContext} {readMemory : ReadMemory} {index value : IlValueId}
  {assignment : Option BitVec}

theorem eq_of_zip {α β : Type} : ∀ {keys : List α} {left right : List β},
    keys.length = left.length → keys.length = right.length →
    (∀ key x y, (key, x) ∈ keys.zip left → (key, y) ∈ keys.zip right → x = y) → left = right
  | [], [], [], _, _, _ => rfl
  | key :: keys, x :: left, y :: right, sameLeft, sameRight, agree => by
    have first := agree key x y (.head _) (.head _)
    have rest := eq_of_zip (Nat.succ.inj sameLeft) (Nat.succ.inj sameRight)
      fun key x y memX memY =>
        agree key x y (.tail _ memX) (.tail _ memY)
    rw [first, rest]

/-- A value denotes one bit vector at most. -/
theorem Denotes.unique {x y : BitVec} (first : Denotes context readMemory index assignment value x)
    (second : Denotes context readMemory index assignment value y) : x = y := by
  induction first generalizing y with
  | index assigned =>
    cases second with
    | index assigned' => exact Option.some.inj (assigned.symm.trans assigned')
    | forward ne _ _ _ => exact absurd rfl ne
    | operation ne _ _ _ _ => exact absurd rfl ne
  | forward ne undefined common _ ih =>
    cases second with
    | index _ => exact absurd rfl ne
    | forward _ _ common' denotes =>
      rw [common] at common'
      cases common'
      exact ih denotes
    | operation _ defined _ _ _ =>
      rw [undefined] at defined
      cases defined
  | operation ne defined count _ computed ih =>
    cases second with
    | index _ => exact absurd rfl ne
    | forward _ undefined _ _ =>
      rw [defined] at undefined
      cases undefined
    | operation _ defined' count' denote' computed' =>
      rw [defined] at defined'
      cases defined'
      have same := eq_of_zip count count' fun operand x y memX memY =>
        ih operand x memX (denote' operand y memY)
      rw [same, computed'] at computed
      exact (Option.some.inj (Option.some.inj computed)).symm

/-- What is derived without the index holds under every assignment. -/
theorem Denotes.assign {result : BitVec}
    (denotes : Denotes context readMemory index none value result) (assigned : BitVec) :
    Denotes context readMemory index (some assigned) value result := by
  induction denotes with
  | index impossible => cases impossible
  | forward ne undefined common _ ih => exact .forward ne undefined common ih
  | operation ne defined count _ computed ih => exact .operation ne defined count ih computed

end Denotes

namespace SwitchTargetEvaluator

variable {context : SwitchContext} {readMemory : ReadMemory} {evaluator : SwitchTargetEvaluator}
  {value : IlValueId} {operation : ECodeOp}

section

variable (defined : context.ssa.definingOp value = some operation)
include defined

theorem definingOp_lt :
    value < context.ssa.values.length := by
  obtain ⟨record, found, -⟩ := bind_eq_some_iff.mp defined
  exact Lib.lt_of_getElem? found

theorem constantValue_eq (isConstant : operation.opcode = .constant) :
    context.ssa.constantValue value = operation.constant context.ssa.constantStorage := by
  have positive : 0 < context.ssa.values.length := Nat.zero_lt_of_lt (definingOp_lt defined)
  obtain ⟨rounds, eq⟩ := Nat.exists_eq_succ_of_ne_zero positive.ne'
  rw [ECodeIr.constantValue, eq, ECodeIr.constantFrom, defined]
  simp [isConstant]

/-- `apply` looks up the operands that are read and computes the value of the operation. -/
theorem apply_run :
    (evaluator.apply context readMemory value operation).run =
      ((operandsRead context.ssa operation).mapM evaluator.memo).elim (some none)
        fun operands => (operationValue context readMemory operation operands).run := by
  unfold apply operandsRead operationValue
  cases opcode : operation.opcode
  case constant =>
    rw [constantValue_eq defined opcode]
    rfl
  case load =>
    cases context.ssa.pointerOperand operation with
    | none => rfl
    | some pointer =>
      cases known : evaluator.memo pointer <;>
        simp [lookup, known, OptionT.run_bind, Option.elimM]
  case writeFlag =>
    cases context.ssa.opOperandsFor operation with
    | nil => rfl
    | cons input rest =>
      cases known : evaluator.memo input <;>
        simp [lookup, known, OptionT.run_bind, Option.elimM]
  case writeRegister =>
    cases context.ssa.opOperandsFor operation with
    | nil => rfl
    | cons input rest =>
      cases known : evaluator.memo input <;>
        simp [lookup, known, OptionT.run_bind, Option.elimM]
  all_goals
    cases known : (context.ssa.opOperandsFor operation).mapM evaluator.memo <;> rfl

end

theorem mapM_eq_some {α β : Type} {f : α → Option β} : ∀ {keys : List α} {values : List β},
    keys.mapM f = some values ↔
      keys.length = values.length ∧ ∀ key x, (key, x) ∈ keys.zip values → f key = some x
  | [], values => by
    cases values with
    | nil => simp
    | cons x values => simp
  | key :: keys, values => by
    rw [mapM_cons]
    cases values with
    | nil =>
      cases f key with
      | none => simp
      | some x => cases keys.mapM f <;> simp
    | cons x values =>
      have ih : keys.mapM f = some values ↔ keys.length = values.length ∧
          ∀ key x, (key, x) ∈ keys.zip values → f key = some x := mapM_eq_some
      cases known : f key with
      | none =>
        simp only [bind_eq_bind, bind_none, length_cons, zip_cons_cons,
          false_iff, not_and, reduceCtorEq]
        intro _ all
        have := all key x (.head _)
        rw [known] at this
        cases this
      | some y =>
        have split : ((do
            let rest ← keys.mapM f
            pure (y :: rest)) = some (x :: values)) ↔ y = x ∧ keys.mapM f = some values := by
          cases keys.mapM f with
          | none => simp
          | some rest => simp
        apply split.trans
        rw [ih, length_cons, length_cons, Nat.succ_inj, zip_cons_cons]
        constructor
        · rintro ⟨rfl, count, all⟩
          refine ⟨count, fun key' x' mem => ?_⟩
          rcases mem_cons.mp mem with same | mem
          · cases same
            exact known
          · exact all key' x' mem
        · rintro ⟨count, all⟩
          have first := all key x (.head _)
          rw [known] at first
          exact ⟨Option.some.inj first, count, fun key' x' mem => all key' x' (.tail _ mem)⟩

end SwitchTargetEvaluator

end Fugue.Analysis.Switch
