import Fugue.Analysis.Switch.EvaluatorStep

/-!
# The invariant of the switch-target evaluator

While an evaluation runs, every known value is what it denotes, and a known value that is not
marked as dependent is denoted without the index. What a known value waits for is known as well,
unless nothing resolves it. The stack is a path of values that wait for each other; so no value is
settled twice, and no mark is set on a value after one that waits for it was settled without.
-/

namespace Fugue.Analysis.Switch

open Fugue.Bv Fugue.Il Fugue.Ir List Function
open Function (update)

/-- The values that the items of a stack settle. -/
def pending (stack : List EvaluationStep) : List IlValueId :=
  (stack.filter EvaluationStep.settles).map EvaluationStep.value

@[simp] theorem pending_nil : pending [] = [] := rfl

@[simp] theorem pending_evaluate (value : IlValueId) (stack : List EvaluationStep) :
    pending (.evaluate value :: stack) = pending stack := rfl

theorem pending_cons {item : EvaluationStep} (settles : item.settles = true)
    (stack : List EvaluationStep) : pending (item :: stack) = item.value :: pending stack := by
  simp [pending, settles]

theorem pending_requests (asked : List IlValueId) (stack : List EvaluationStep) :
    pending (asked.map EvaluationStep.evaluate ++ stack) = pending stack := by
  induction asked with
  | nil => rfl
  | cons value asked ih => exact ih

/-- The next value that is settled under an item waits for it. -/
def Linked (context : SwitchContext) : List EvaluationStep → Prop
  | [] => True
  | item :: below =>
    (∀ waiting, (pending below).head? = some waiting → item.value ∈ context.awaited waiting) ∧
      Linked context below

/-- What a settled value waits for is known, cannot be resolved, or lies above it. -/
def Covered (context : SwitchContext) (memo : IlValueId → Option BitVec) :
    List IlValueId → List EvaluationStep → Prop
  | _, [] => True
  | above, item :: below =>
    (item.settles = true → ∀ operand ∈ context.awaited item.value,
      (memo operand).isSome ∨ context.Unresolvable operand ∨ operand ∈ above) ∧
      Covered context memo (item.value :: above) below

section Stack

variable {context : SwitchContext} {memo larger : IlValueId → Option BitVec}

variable {stack : List EvaluationStep}

theorem Covered.mono : ∀ {above wider : List IlValueId}, Covered context memo above stack →
    (∀ operand, (memo operand).isSome → (larger operand).isSome) →
    (∀ operand ∈ above, (larger operand).isSome ∨ context.Unresolvable operand ∨ operand ∈ wider) →
    Covered context larger wider stack := by
  induction stack with
  | nil => exact fun _ _ _ => trivial
  | cons item below ih =>
    intro above wider covered grows widens
    refine ⟨fun settles operand mem => ?_, ih covered.2 grows fun operand mem => ?_⟩
    · rcases covered.1 settles operand mem with known | unresolvable | lies
      · exact .inl (grows operand known)
      · exact .inr (.inl unresolvable)
      · exact widens operand lies
    · rcases mem_cons.mp mem with rfl | mem
      · exact .inr (.inr (.head _))
      · exact (widens operand mem).imp_right (Or.imp_right (mem_cons_of_mem _))

theorem Covered.requests : ∀ {asked above : List IlValueId},
    Covered context memo (asked.reverse ++ above) stack →
    Covered context memo above (asked.map .evaluate ++ stack)
  | [], _, covered => covered
  | value :: asked, above, covered => by
    refine ⟨fun settles => (by cases settles), Covered.requests ?_⟩
    rw [reverse_cons, append_assoc] at covered
    exact covered

theorem Linked.requests {item : EvaluationStep}
    (linked : Linked context (item :: stack)) (settles : item.settles = true) :
    ∀ {asked : List IlValueId}, (∀ value ∈ asked, value ∈ context.awaited item.value) →
      Linked context (asked.map .evaluate ++ item :: stack)
  | [], _ => linked
  | value :: asked, awaits => by
    refine ⟨fun waiting first => ?_, Linked.requests linked settles fun value mem =>
      awaits value (.tail _ mem)⟩
    change (pending (asked.map EvaluationStep.evaluate ++ item :: stack)).head? = _ at first
    rw [pending_requests, pending_cons settles] at first
    cases first
    exact awaits value (.head _)

/-- A value is not settled again under an item that a linked stack has on top, when everything that
the value waits for is known or cannot be resolved. -/
theorem Linked.notPending {value : IlValueId} (ready : ∀ operand ∈ context.awaited value,
      (memo operand).isSome ∨ context.Unresolvable operand) :
    ∀ {stack : List EvaluationStep} {item : EvaluationStep},
      Linked context (item :: stack) → memo item.value = none →
      ¬ context.Unresolvable item.value →
      (∀ item ∈ stack, item.settles = true →
        memo item.value = none ∧ ¬ context.Unresolvable item.value) →
      value ∉ pending stack
  | [], _, _, _, _, _ => by simp
  | next :: stack, item, linked, unknown, resolvable, open' => by
    have openBelow := fun item mem => open' item (.tail _ mem)
    cases settles : next.settles with
    | false =>
      have same : pending (next :: stack) = pending stack := by simp [pending, settles]
      rw [same]
      have relinked : Linked context (item :: stack) :=
        ⟨fun waiting first => linked.1 waiting (same ▸ first), linked.2.2⟩
      exact Linked.notPending ready relinked unknown resolvable openBelow
    | true =>
      obtain ⟨unknownNext, resolvableNext⟩ := open' next (.head _) settles
      rw [pending_cons settles, mem_cons, not_or]
      refine ⟨fun same => ?_,
        Linked.notPending ready linked.2 unknownNext resolvableNext openBelow⟩
      have waits := linked.1 next.value (by rw [pending_cons settles]; rfl)
      rcases ready item.value (same ▸ waits) with known | unresolvable
      · rw [unknown] at known
        cases known
      · exact resolvable unresolvable

end Stack

/-- The evaluator while it evaluates for an assignment of the index. -/
structure Running (context : SwitchContext) (readMemory : ReadMemory) (index : IlValueId)
    (assignment : BitVec) (evaluator : SwitchTargetEvaluator) : Prop where
  known : ∀ value x, evaluator.memo value = some x →
    Denotes context readMemory index (some assignment) value x
  fixed : ∀ value x, evaluator.memo value = some x → evaluator.dependent value = false →
    Denotes context readMemory index none value x
  assigned : evaluator.memo index = some assignment
  marked : evaluator.dependent index = true
  closed : ∀ value, (evaluator.memo value).isSome → value ≠ index →
    ∀ operand ∈ context.awaited value,
      (evaluator.memo operand).isSome ∨ context.Unresolvable operand
  unmarked : ∀ value, (evaluator.memo value).isSome → evaluator.dependent value = false →
    ∀ operand ∈ context.awaited value, evaluator.dependent operand = false
  recorded : ∀ value, evaluator.dependent value = true → (evaluator.memo value).isSome
  settling : ∀ item ∈ evaluator.stack, item.settles = true → item = context.settle item.value ∧
    evaluator.memo item.value = none ∧ ¬ context.Unresolvable item.value
  linked : Linked context evaluator.stack
  covered : Covered context evaluator.memo [] evaluator.stack

/-- The evaluator between two evaluations: what it keeps does not need the index. -/
structure Retained (context : SwitchContext) (readMemory : ReadMemory) (index : IlValueId)
    (evaluator : SwitchTargetEvaluator) : Prop where
  fixed : ∀ value x, evaluator.memo value = some x →
    Denotes context readMemory index none value x
  closed : ∀ value, (evaluator.memo value).isSome → ∀ operand ∈ context.awaited value,
    operand ≠ index ∧ ((evaluator.memo operand).isSome ∨ context.Unresolvable operand)
  unassigned : evaluator.memo index = none

namespace Running

variable {context : SwitchContext} {readMemory : ReadMemory} {index value : IlValueId}
  {assignment : BitVec} {evaluator next : SwitchTargetEvaluator} {item : EvaluationStep}
  {stack : List EvaluationStep}

section

variable (running : Running context readMemory index assignment evaluator)
include running

/-- An item that asks for a known or an unresolvable value can be dropped. -/
theorem pop (top : evaluator.stack = item :: stack)
    (done : (evaluator.memo item.value).isSome ∨ context.Unresolvable item.value) :
    Running context readMemory index assignment { evaluator with stack } := by
  have linked := running.linked
  have covered := running.covered
  rw [top] at linked covered
  refine ⟨running.known, running.fixed, running.assigned, running.marked, running.closed,
    running.unmarked, running.recorded, fun item mem => running.settling item ?_, linked.2,
    covered.2.mono (fun _ known => known) fun operand mem => ?_⟩
  · rw [top]
    exact .tail _ mem
  · rw [mem_singleton.mp mem]
    exact done.imp_right .inl

/-- A request is replaced by the item that settles the value and the requests for what it waits
for. -/
theorem ask
    (top : evaluator.stack = .evaluate value :: stack) (unknown : evaluator.memo value = none)
    (resolvable : ¬ context.Unresolvable value) :
    Running context readMemory index assignment { evaluator with
      stack := evaluator.requests (context.awaited value) ++ context.settle value :: stack } := by
  have linked := running.linked
  have covered := running.covered
  rw [top] at linked covered
  have asked : evaluator.requests (context.awaited value) =
      ((context.awaited value).filter fun value => (evaluator.memo value).isNone).reverse.map
        .evaluate := by
    rw [SwitchTargetEvaluator.requests, map_reverse]
  rw [asked]
  refine ⟨running.known, running.fixed, running.assigned, running.marked, running.closed,
    running.unmarked, running.recorded, fun item mem => ?_, ?_, ?_⟩
  · intro settles
    rcases mem_append.mp mem with request | mem
    · obtain ⟨operand, -, rfl⟩ := mem_map.mp request
      cases settles
    · rcases mem_cons.mp mem with rfl | mem
      · rw [settle_value]
        exact ⟨rfl, unknown, resolvable⟩
      · exact running.settling item (by rw [top]; exact .tail _ mem) settles
  · refine Linked.requests ⟨?_, linked.2⟩ settle_settles fun operand mem => ?_
    · rw [settle_value]
      exact linked.1
    · rw [settle_value]
      exact (mem_filter.mp (mem_reverse.mp mem)).1
  · refine Covered.requests ⟨fun _ operand mem => ?_, ?_⟩
    · rw [settle_value] at mem
      cases known : evaluator.memo operand with
      | some x => exact .inl rfl
      | none =>
        refine .inr (.inr (mem_append_left _ ?_))
        rw [reverse_reverse]
        exact mem_filter.mpr ⟨mem, by simp [known]⟩
    · rw [settle_value]
      refine covered.2.mono (fun _ known => known) fun operand mem => .inr (.inr ?_)
      rw [mem_singleton.mp mem]
      exact .head _

/-- The item on top of the stack records what its value denotes. -/
theorem record (top : evaluator.stack = context.settle value :: stack) {result : BitVec}
    (computed : context.computed readMemory evaluator.memo value = some (some result)) :
    Running context readMemory index assignment
      (SwitchTargetEvaluator.record { evaluator with stack } value result
        ((context.sources value).any evaluator.dependent)) := by
  obtain ⟨-, unknown, resolvable⟩ := running.settling (context.settle value)
    (by rw [top]; exact .head _) settle_settles
  rw [settle_value] at unknown resolvable
  have linked := running.linked
  have covered := running.covered
  rw [top] at linked covered
  have ne : value ≠ index := by
    rintro rfl
    rw [running.assigned] at unknown
    cases unknown
  have unmarkedValue : evaluator.dependent value = false := by
    cases marked : evaluator.dependent value with
    | false => rfl
    | true =>
      have known := running.recorded value marked
      rw [unknown] at known
      cases known
  -- nothing lies above the item, so what the value waits for is known
  have ready : ∀ operand ∈ context.awaited value,
      (evaluator.memo operand).isSome ∨ context.Unresolvable operand := by
    intro operand mem
    rcases covered.1 settle_settles operand (settle_value.symm ▸ mem) with known | rest
    · exact .inl known
    · exact .inr (rest.resolve_right (by simp))
  have notPending : value ∉ pending stack := by
    refine Linked.notPending ready linked (settle_value.symm ▸ unknown)
      (settle_value.symm ▸ resolvable) fun item mem settles => ?_
    exact (running.settling item (by rw [top]; exact .tail _ mem) settles).2
  have denotes := Denotes.of_computed ne computed fun operand _ x known =>
    running.known operand x known
  have grows : ∀ operand, (evaluator.memo operand).isSome →
      (update evaluator.memo value (some result) operand).isSome := by
    intro operand known
    by_cases same : operand = value
    · simp [same]
    · rwa [update_of_ne same]
  have marks : ∀ operand, operand ≠ value →
      (SwitchTargetEvaluator.record { evaluator with stack } value result
        ((context.sources value).any evaluator.dependent)).dependent operand =
          evaluator.dependent operand := by
    intro operand other
    unfold SwitchTargetEvaluator.record
    split
    · exact update_of_ne other _ _
    · rfl
  have mark : (SwitchTargetEvaluator.record { evaluator with stack } value result
      ((context.sources value).any evaluator.dependent)).dependent value =
        (context.sources value).any evaluator.dependent := by
    unfold SwitchTargetEvaluator.record
    split
    · rename_i depends
      simp [depends]
    · rename_i independent
      simpa [independent] using unmarkedValue
  refine ⟨fun operand x found => ?_, fun operand x found unmarked => ?_, ?_, ?_,
    fun operand known other => ?_, fun operand known unmarked => ?_, fun operand marked => ?_,
    fun item mem settles => ?_, linked.2, ?_⟩
  · change update evaluator.memo value (some result) operand = some x at found
    by_cases same : operand = value
    · rw [same, update_self] at found
      rw [same, ← Option.some.inj found]
      exact denotes
    · rw [update_of_ne same] at found
      exact running.known operand x found
  · change update evaluator.memo value (some result) operand = some x at found
    by_cases same : operand = value
    · rw [same, update_self] at found
      rw [same, mark] at unmarked
      rw [same, ← Option.some.inj found]
      refine Denotes.of_computed ne computed fun operand mem x known =>
        running.fixed operand x known ?_
      exact Bool.eq_false_iff.mpr (any_eq_false.mp unmarked operand mem)
    · rw [update_of_ne same] at found
      rw [marks operand same] at unmarked
      exact running.fixed operand x found unmarked
  · change update evaluator.memo value (some result) index = _
    rw [update_of_ne ne.symm, running.assigned]
  · rw [marks index ne.symm, running.marked]
  · have readyOperand : ∀ other ∈ context.awaited operand,
        (evaluator.memo other).isSome ∨ context.Unresolvable other := by
      by_cases same : operand = value
      · exact same ▸ ready
      · change (update evaluator.memo value (some result) operand).isSome at known
        rw [update_of_ne same] at known
        exact running.closed operand known other
    exact fun other mem => (readyOperand other mem).imp_left (grows other)
  · by_cases same : operand = value
    · rw [same, mark] at unmarked
      rw [same]
      intro other mem
      have otherUnmarked : evaluator.dependent other = false :=
        Bool.eq_false_iff.mpr (any_eq_false.mp unmarked other (awaited_subset_sources mem))
      by_cases self : other = value
      · rw [self, mark, unmarked]
      · rw [marks other self, otherUnmarked]
    · change (update evaluator.memo value (some result) operand).isSome at known
      rw [update_of_ne same] at known
      rw [marks operand same] at unmarked
      intro other mem
      by_cases self : other = value
      · -- the value was unknown, and what a known value waits for is known
        by_cases isIndex : operand = index
        · rw [isIndex, running.marked] at unmarked
          cases unmarked
        · rcases running.closed operand known isIndex other mem with known' | unresolvable
          · rw [self, unknown] at known'
            cases known'
          · exact absurd (self ▸ unresolvable) resolvable
      · rw [marks other self]
        exact running.unmarked operand known unmarked other mem
  · change (update evaluator.memo value (some result) operand).isSome
    by_cases same : operand = value
    · simp [same]
    · rw [marks operand same] at marked
      exact grows operand (running.recorded operand marked)
  · obtain ⟨isSettle, unknownItem, resolvableItem⟩ :=
      running.settling item (by rw [top]; exact .tail _ mem) settles
    refine ⟨isSettle, ?_, resolvableItem⟩
    have other : item.value ≠ value := by
      rintro same
      apply notPending
      rw [← same]
      exact mem_map_of_mem (mem_filter.mpr ⟨mem, settles⟩)
    change update evaluator.memo value (some result) item.value = none
    rw [update_of_ne other, unknownItem]
  · refine covered.2.mono grows fun operand mem => .inl ?_
    rw [mem_singleton.mp mem, settle_value]
    change (update evaluator.memo value (some result) value).isSome
    simp

end

end Running

end Fugue.Analysis.Switch
