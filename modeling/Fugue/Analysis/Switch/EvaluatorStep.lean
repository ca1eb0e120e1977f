import Fugue.Analysis.Switch.Denotation

/-!
# One step of the switch-target evaluator

The operands that an evaluation waits for, the item it leaves on the stack until they are known, and
what each item does to the state. An item on the stack either asks for a value or settles one.
-/

namespace Fugue.Analysis.Switch

open Fugue.Bv Fugue.Il Fugue.Ir Option SwitchContext
open SwitchTargetEvaluator (mapM_eq_some)

/-- The values that are asked for before a value is settled. -/
def SwitchContext.awaited (context : SwitchContext) (value : IlValueId) : List IlValueId :=
  match context.ssa.definingOp value with
  | none => (context.blockArgInputs.commonInputFor value).toList
  | some operation =>
    if operation.opcode = .load then (context.ssa.pointerOperand operation).toList
    else context.ssa.opOperandsFor operation

/-- The values through which a value can depend on the index. -/
def SwitchContext.sources (context : SwitchContext) (value : IlValueId) : List IlValueId :=
  match context.ssa.definingOp value with
  | none => (context.blockArgInputs.commonInputFor value).toList
  | some operation => context.ssa.opOperandsFor operation

/-- No operation defines the value, and it is no block argument with one common input. -/
def SwitchContext.Unresolvable (context : SwitchContext) (value : IlValueId) : Prop :=
  context.ssa.definingOp value = none ∧ context.blockArgInputs.commonInputFor value = none

def SwitchContext.settle (context : SwitchContext) (value : IlValueId) : EvaluationStep :=
  match context.ssa.definingOp value, context.blockArgInputs.commonInputFor value with
  | none, some input => .forward value input
  | _, _ => .apply value

/-- The value that an item on the stack is about. -/
def EvaluationStep.value : EvaluationStep → IlValueId
  | .apply value => value
  | .evaluate value => value
  | .forward value _ => value

def EvaluationStep.settles : EvaluationStep → Bool
  | .evaluate _ => false
  | _ => true

/-- The value of an SSA value from what is known of its operands. -/
def SwitchContext.computed (context : SwitchContext) (readMemory : ReadMemory)
    (memo : IlValueId → Option BitVec) (value : IlValueId) : Option (Option BitVec) :=
  match context.ssa.definingOp value with
  | none => some ((context.blockArgInputs.commonInputFor value).bind memo)
  | some operation =>
    ((operandsRead context.ssa operation).mapM memo).elim (some none)
      fun operands => (operationValue context readMemory operation operands).run

section Context

variable {context : SwitchContext} {readMemory : ReadMemory} {index value : IlValueId}

@[simp] theorem settle_value : (context.settle value).value = value := by
  unfold settle
  split <;> rfl

@[simp] theorem settle_settles : (context.settle value).settles = true := by
  unfold settle
  split <;> rfl

theorem awaited_subset_sources {operand : IlValueId} (mem : operand ∈ context.awaited value) :
    operand ∈ context.sources value := by
  unfold awaited at mem
  unfold sources
  cases defined : context.ssa.definingOp value with
  | none => simpa [defined] using mem
  | some operation =>
    simp only [defined] at mem ⊢
    split at mem
    · exact pointerOperand_mem (mem_toList.mp mem)
    · exact mem

theorem Denotes.of_computed {assignment : Option BitVec} {memo : IlValueId → Option BitVec}
    {result : BitVec} (ne : value ≠ index)
    (computed : context.computed readMemory memo value = some (some result))
    (known : ∀ operand ∈ context.sources value, ∀ x, memo operand = some x →
      Denotes context readMemory index assignment operand x) :
    Denotes context readMemory index assignment value result := by
  unfold SwitchContext.computed at computed
  unfold sources at known
  cases defined : context.ssa.definingOp value with
  | none =>
    simp only [defined, Option.some.injEq] at computed known
    obtain ⟨input, common, found⟩ := bind_eq_some_iff.mp computed
    exact .forward ne defined common (known input (by simp [common]) result found)
  | some operation =>
    simp only [defined] at computed known
    cases read : (operandsRead context.ssa operation).mapM memo with
    | none =>
      rw [read] at computed
      cases computed
    | some operands =>
      rw [read] at computed
      obtain ⟨count, all⟩ := mapM_eq_some.mp read
      refine .operation ne defined count (fun operand x mem => ?_) computed
      refine known operand ?_ x (all operand x mem)
      exact operandsRead_subset (List.of_mem_zip mem).1

theorem computed_mono {memo larger : IlValueId → Option BitVec} {result : BitVec}
    (le : ∀ operand x, memo operand = some x → larger operand = some x)
    (computed : context.computed readMemory memo value = some (some result)) :
    context.computed readMemory larger value = some (some result) := by
  unfold SwitchContext.computed at computed ⊢
  cases defined : context.ssa.definingOp value with
  | none =>
    simp only [defined, Option.some.injEq] at computed ⊢
    obtain ⟨input, common, found⟩ := bind_eq_some_iff.mp computed
    simp [common, le input result found]
  | some operation =>
    simp only [defined] at computed ⊢
    cases read : (operandsRead context.ssa operation).mapM memo with
    | none =>
      rw [read] at computed
      cases computed
    | some operands =>
      rw [read] at computed
      obtain ⟨count, all⟩ := mapM_eq_some.mp read
      have larger_read := mapM_eq_some.mpr
        ⟨count, fun operand x mem => le operand x (all operand x mem)⟩
      rw [larger_read]
      exact computed

end Context

namespace SwitchTargetEvaluator

variable {context : SwitchContext} {readMemory : ReadMemory}
  {evaluator next : SwitchTargetEvaluator} {value : IlValueId}

/-- The items for the values that are asked for and not known. -/
def requests (evaluator : SwitchTargetEvaluator) (values : List IlValueId) :
    List EvaluationStep :=
  ((values.filter fun value => (evaluator.memo value).isNone).map .evaluate).reverse

theorem foldl_pushUnknown (values : List IlValueId) :
    ∀ evaluator : SwitchTargetEvaluator, values.foldl pushUnknown evaluator =
      { evaluator with stack := evaluator.requests values ++ evaluator.stack } := by
  induction values with
  | nil => exact fun _ => rfl
  | cons value values ih =>
    intro evaluator
    rw [List.foldl_cons, ih]
    unfold pushUnknown requests
    cases known : evaluator.memo value with
    | none => simp [known, push]
    | some x => simp [known]

/-- A value that is not known and can be settled is put under the values it waits for. -/
theorem evaluateValue_cases (ran : evaluator.evaluateValue context value = some next) :
    ((evaluator.memo value).isSome ∧ next = evaluator) ∨
    (evaluator.memo value = none ∧ context.Unresolvable value ∧ next = evaluator) ∨
    (evaluator.memo value = none ∧ ¬ context.Unresolvable value ∧ next = { evaluator with
      stack := evaluator.requests (context.awaited value) ++
        context.settle value :: evaluator.stack }) := by
  unfold evaluateValue at ran
  by_cases known : (evaluator.memo value).isSome = true
  · rw [if_pos known] at ran
    exact .inl ⟨known, (Option.some.inj ran).symm⟩
  · rw [if_neg known] at ran
    have unknown : evaluator.memo value = none := by simpa using known
    unfold Unresolvable awaited settle
    cases defined : context.ssa.definingOp value with
    | none =>
      simp only [defined] at ran
      cases common : context.blockArgInputs.commonInputFor value with
      | none =>
        simp only [common] at ran
        exact .inr (.inl ⟨unknown, ⟨rfl, rfl⟩, (Option.some.inj ran).symm⟩)
      | some input =>
        simp only [common, Option.some.injEq] at ran
        refine .inr (.inr ⟨unknown, by simp, ?_⟩)
        rw [← ran]
        exact foldl_pushUnknown [input] _
    | some operation =>
      simp only [defined] at ran
      refine .inr (.inr ⟨unknown, by simp, ?_⟩)
      split at ran
      · rename_i isLoad
        obtain ⟨pointer, found, eq⟩ := bind_eq_some_iff.mp ran
        rw [← Option.some.inj eq]
        simp only [if_pos isLoad, found]
        exact foldl_pushUnknown [pointer] _
      · rename_i notLoad
        rw [← Option.some.inj ran]
        simp only [if_neg notLoad]
        exact foldl_pushUnknown _ _

/-- The item that settles a value records what is computed. -/
theorem step_settle (resolvable : ¬ context.Unresolvable value) :
    step context readMemory evaluator (context.settle value) =
      (context.computed readMemory evaluator.memo value).map fun result =>
        result.map fun result => evaluator.record value result
          ((context.sources value).any evaluator.dependent) := by
  unfold settle computed sources
  cases defined : context.ssa.definingOp value with
  | none =>
    cases common : context.blockArgInputs.commonInputFor value with
    | none => exact absurd ⟨defined, common⟩ resolvable
    | some input => simp [step]
  | some operation =>
    simp only [step, defined]
    rw [apply_run defined]

end SwitchTargetEvaluator

end Fugue.Analysis.Switch
