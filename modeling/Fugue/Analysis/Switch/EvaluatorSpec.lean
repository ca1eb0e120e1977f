import Fugue.Analysis.Switch.EvaluatorInvariant

/-!
# Evaluation with a shared memo

An evaluator that keeps what earlier assignments left in its memo is simulated by a fresh one: its
stack lacks items whose values it knows already, so it returns whatever the fresh evaluator returns
and needs no more steps. What either returns is what the target denotes.
-/

namespace Fugue.Analysis.Switch

open Fugue.Bv Fugue.Il Fugue.Ir SwitchTargetEvaluator List Option Function
open Function (update)
open SwitchTargetEvaluator (step)

/-- The second stack lacks items of the first one whose values are known or cannot be resolved. -/
inductive Reduced (context : SwitchContext) (memo : IlValueId → Option BitVec) :
    List EvaluationStep → List EvaluationStep → Prop
  | nil : Reduced context memo [] []
  | keep {item : EvaluationStep} {full reduced : List EvaluationStep} :
      Reduced context memo full reduced → Reduced context memo (item :: full) (item :: reduced)
  | skip {item : EvaluationStep} {full reduced : List EvaluationStep} :
      (memo item.value).isSome ∨ context.Unresolvable item.value →
      Reduced context memo full reduced → Reduced context memo (item :: full) reduced

section Reduced

variable {context : SwitchContext} {memo larger : IlValueId → Option BitVec}
  {full reduced : List EvaluationStep}

theorem Reduced.mono (grows : ∀ value, (memo value).isSome → (larger value).isSome)
    (lacks : Reduced context memo full reduced) : Reduced context larger full reduced := by
  induction lacks with
  | nil => exact .nil
  | keep _ ih => exact .keep ih
  | skip done _ ih => exact .skip (done.imp_left (grows _)) ih

theorem Reduced.append {above kept : List EvaluationStep}
    (top : Reduced context memo above kept) (lacks : Reduced context memo full reduced) :
    Reduced context memo (above ++ full) (kept ++ reduced) := by
  induction top with
  | nil => exact lacks
  | keep _ ih => exact .keep ih
  | skip done _ ih => exact .skip done ih

theorem Reduced.requests {evaluator shared : SwitchTargetEvaluator}
    (le : ∀ value, (evaluator.memo value).isSome → (shared.memo value).isSome)
    (values : List IlValueId) :
    Reduced context shared.memo (evaluator.requests values) (shared.requests values) := by
  unfold SwitchTargetEvaluator.requests
  rw [← map_reverse, ← map_reverse, ← filter_reverse, ← filter_reverse]
  induction values.reverse with
  | nil => exact .nil
  | cons value values ih =>
    rw [filter_cons, filter_cons]
    cases known : evaluator.memo value with
    | some x =>
      have knownShared : (shared.memo value).isNone = false := by
        simpa using le value (by simp [known])
      simpa [known, knownShared] using ih
    | none =>
      cases knownShared : shared.memo value with
      | none => simpa using ih.keep
      | some x =>
        have isKnown : (shared.memo (EvaluationStep.evaluate value).value).isSome :=
          isSome_iff_exists.mpr ⟨x, knownShared⟩
        exact .skip (.inl isKnown) ih

theorem Reduced.skipAll {above : List EvaluationStep}
    (done : ∀ item ∈ above, (memo item.value).isSome ∨ context.Unresolvable item.value)
    (lacks : Reduced context memo full reduced) :
    Reduced context memo (above ++ full) reduced := by
  induction above with
  | nil => exact lacks
  | cons item above ih =>
    exact .skip (done item (.head _)) (ih fun item mem =>
      done item (.tail _ mem))

end Reduced

section Step

variable {context : SwitchContext} {readMemory : ReadMemory} {index value : IlValueId}
  {assignment : BitVec} {evaluator shared next : SwitchTargetEvaluator} {item : EvaluationStep}
  {stack : List EvaluationStep}

theorem Running.step (running : Running context readMemory index assignment evaluator)
    (top : evaluator.stack = item :: stack)
    (ran : step context readMemory { evaluator with stack } item =
      some (some next)) :
    Running context readMemory index assignment next := by
  cases settles : item.settles with
  | false =>
    cases item with
    | apply value => cases settles
    | forward value input => cases settles
    | evaluate value =>
      rcases evaluateValue_cases (Option.some.inj ran) with
        ⟨known, rfl⟩ | ⟨-, unresolvable, rfl⟩ | ⟨unknown, resolvable, rfl⟩
      · exact running.pop top (.inl known)
      · exact running.pop top (.inr unresolvable)
      · exact running.ask top unknown resolvable
  | true =>
    obtain ⟨isSettle, -, resolvable⟩ :=
      running.settling item (by rw [top]; exact .head _) settles
    rw [isSettle, step_settle resolvable] at ran
    obtain ⟨result, computed, eq⟩ := map_eq_some_iff.mp ran
    obtain ⟨result, rfl, rfl⟩ := map_eq_some_iff.mp eq
    rw [isSettle] at top
    exact running.record top computed

variable {final : SwitchTargetEvaluator}

theorem Running.run {finished : Bool} : ∀ {limit : Nat} {evaluator : SwitchTargetEvaluator},
    Running context readMemory index assignment evaluator →
    SwitchTargetEvaluator.run context readMemory limit evaluator = some (final, finished) →
    Running context readMemory index assignment final
  | 0, evaluator, running, ran => by
    cases ran
    exact running
  | limit + 1, evaluator, running, ran => by
    unfold SwitchTargetEvaluator.run at ran
    cases top : evaluator.stack with
    | nil =>
      simp only [top, Option.some.injEq, Prod.mk.injEq] at ran
      exact ran.1 ▸ running
    | cons item stack =>
      simp only [top] at ran
      split at ran
      · cases ran
      · cases ran
        exact running
      · rename_i next stepped
        exact (running.step top stepped).run ran

theorem evaluateValue_isSome (ran : (evaluator.evaluateValue context value).isSome)
    (unknown : evaluator.memo value = none) :
    (shared.evaluateValue context value).isSome := by
  unfold evaluateValue at ran ⊢
  rw [unknown] at ran
  by_cases known : (shared.memo value).isSome = true
  · simp [known]
  · simp only [known, isSome_none, Bool.false_eq_true, if_false] at ran ⊢
    cases defined : context.ssa.definingOp value with
    | none => cases context.blockArgInputs.commonInputFor value <;> rfl
    | some operation =>
      simp only [defined] at ran ⊢
      split
      · rename_i isLoad
        rw [if_pos isLoad] at ran
        cases found : context.ssa.pointerOperand operation with
        | none => simp [found] at ran
        | some pointer => rfl
      · rfl

/-- The evaluator that knows more is ahead of the other one: what the other one knows it knows, and
items of its stack are left out. -/
structure Ahead (context : SwitchContext) (evaluator shared : SwitchTargetEvaluator) : Prop where
  le : ∀ value x, evaluator.memo value = some x → shared.memo value = some x
  lacks : Reduced context shared.memo evaluator.stack shared.stack

theorem Ahead.skip (running : Running context readMemory index assignment evaluator)
    (runningShared : Running context readMemory index assignment shared)
    (le : ∀ operand x, evaluator.memo operand = some x → shared.memo operand = some x)
    (top : evaluator.stack = item :: stack)
    (done : (shared.memo item.value).isSome ∨ context.Unresolvable item.value)
    (lacks : Reduced context shared.memo stack shared.stack)
    (ran : step context readMemory { evaluator with stack } item =
      some (some next)) : Ahead context next shared := by
  have after := running.step top ran
  cases settles : item.settles with
  | false =>
    cases item with
    | apply value => cases settles
    | forward value input => cases settles
    | evaluate value =>
      rcases evaluateValue_cases (Option.some.inj ran) with
        ⟨-, rfl⟩ | ⟨-, -, rfl⟩ | ⟨unknown, resolvable, rfl⟩
      · exact ⟨le, lacks⟩
      · exact ⟨le, lacks⟩
      · have known := done.resolve_right resolvable
        have ne : value ≠ index := by
          rintro rfl
          rw [running.assigned] at unknown
          cases unknown
        refine ⟨le, Reduced.skipAll (fun asked mem => ?_)
          (.skip (.inl (settle_value.symm ▸ known)) lacks)⟩
        obtain ⟨operand, asks, rfl⟩ := List.mem_map.mp (mem_reverse.mp mem)
        exact runningShared.closed value known ne operand (mem_filter.mp asks).1
  | true =>
    obtain ⟨isSettle, -, resolvable⟩ :=
      running.settling item (by rw [top]; exact .head _) settles
    rw [isSettle, step_settle resolvable] at ran
    obtain ⟨result, computed, eq⟩ := map_eq_some_iff.mp ran
    obtain ⟨result, rfl, rfl⟩ := map_eq_some_iff.mp eq
    obtain ⟨x, found⟩ := isSome_iff_exists.mp (done.resolve_right resolvable)
    refine ⟨fun operand y recorded => ?_, lacks⟩
    change update evaluator.memo item.value (some result) operand = some y at recorded
    by_cases same : operand = item.value
    · rw [same, update_self] at recorded
      have denotes := after.known item.value result (update_self ..)
      rw [same, found, (runningShared.known item.value x found).unique denotes, recorded]
    · rw [update_of_ne same] at recorded
      exact le operand y recorded

theorem Ahead.keep {kept : List EvaluationStep}
    (le : ∀ operand x, evaluator.memo operand = some x → shared.memo operand = some x)
    (running : Running context readMemory index assignment evaluator)
    (runningShared : Running context readMemory index assignment shared)
    (top : evaluator.stack = item :: stack) (topShared : shared.stack = item :: kept)
    (lacks : Reduced context shared.memo stack kept)
    (ran : step context readMemory { evaluator with stack } item =
      some (some next)) :
    ∃ nextShared, step context readMemory
      { shared with stack := kept } item = some (some nextShared) ∧
      Ahead context next nextShared := by
  cases settles : item.settles with
  | false =>
    cases item with
    | apply value => cases settles
    | forward value input => cases settles
    | evaluate value =>
      cases knownShared : shared.memo value with
      | some x =>
        have isKnown : (shared.memo value).isSome := isSome_iff_exists.mpr ⟨x, knownShared⟩
        refine ⟨{ shared with stack := kept }, congrArg some (if_pos isKnown), ?_⟩
        exact Ahead.skip running (runningShared.pop topShared (.inl isKnown)) le top
          (.inl isKnown) lacks ran
      | none =>
        have unknown : evaluator.memo value = none := by
          cases known : evaluator.memo value with
          | none => rfl
          | some x => exact (le value x known).symm.trans knownShared
        have ranValue := Option.some.inj ran
        have served : (evaluateValue context { shared with stack := kept } value).isSome :=
          evaluateValue_isSome (isSome_iff_exists.mpr ⟨next, ranValue⟩) unknown
        obtain ⟨nextShared, ranShared⟩ := isSome_iff_exists.mp served
        refine ⟨nextShared, congrArg some ranShared, ?_⟩
        rcases evaluateValue_cases ranValue with
          ⟨known, -⟩ | ⟨-, unresolvable, rfl⟩ | ⟨-, resolvable, rfl⟩
        · rw [show evaluator.memo value = none from unknown] at known
          cases known
        · rcases evaluateValue_cases ranShared with
            ⟨known, -⟩ | ⟨-, -, rfl⟩ | ⟨-, resolvable, -⟩
          · rw [show shared.memo value = none from knownShared] at known
            cases known
          · exact ⟨le, lacks⟩
          · exact absurd unresolvable resolvable
        · rcases evaluateValue_cases ranShared with
            ⟨known, -⟩ | ⟨-, unresolvable, -⟩ | ⟨-, -, rfl⟩
          · rw [show shared.memo value = none from knownShared] at known
            cases known
          · exact absurd unresolvable resolvable
          · refine ⟨le, Reduced.append (Reduced.requests (fun operand known => ?_) _) lacks.keep⟩
            obtain ⟨x, found⟩ := isSome_iff_exists.mp known
            exact isSome_iff_exists.mpr ⟨x, le operand x found⟩
  | true =>
    obtain ⟨isSettle, -, resolvable⟩ :=
      running.settling item (by rw [top]; exact .head _) settles
    rw [isSettle, step_settle resolvable] at ran ⊢
    obtain ⟨result, computed, eq⟩ := map_eq_some_iff.mp ran
    obtain ⟨result, rfl, rfl⟩ := map_eq_some_iff.mp eq
    have computedShared : context.computed readMemory shared.memo item.value =
      some (some result) := computed_mono le computed
    rw [computedShared]
    refine ⟨_, rfl, fun operand x recorded => ?_, Reduced.mono (fun operand known => ?_) lacks⟩
    · change update evaluator.memo item.value (some result) operand = some x at recorded
      change update shared.memo item.value (some result) operand = some x
      by_cases same : operand = item.value
      · rw [same, update_self] at recorded ⊢
        exact recorded
      · rw [update_of_ne same] at recorded ⊢
        exact le operand x recorded
    · change (update shared.memo item.value (some result) operand).isSome
      by_cases same : operand = item.value
      · simp [same]
      · rwa [update_of_ne same]

theorem run_succ : ∀ {limit : Nat} {evaluator : SwitchTargetEvaluator},
    SwitchTargetEvaluator.run context readMemory limit evaluator = some (final, true) →
    SwitchTargetEvaluator.run context readMemory (limit + 1) evaluator = some (final, true)
  | 0, evaluator, ran => by
    simp only [SwitchTargetEvaluator.run, Option.some.injEq, Prod.mk.injEq] at ran
    obtain ⟨rfl, empty⟩ := ran
    simp [SwitchTargetEvaluator.run, List.isEmpty_iff.mp empty]
  | limit + 1, evaluator, ran => by
    unfold SwitchTargetEvaluator.run at ran ⊢
    cases top : evaluator.stack with
    | nil => simpa only [top] using ran
    | cons item stack =>
      simp only [top] at ran ⊢
      split at ran
      · cases ran
      · cases ran
      · exact run_succ ran

theorem Ahead.run : ∀ {limit : Nat}
    {evaluator shared : SwitchTargetEvaluator}, Ahead context evaluator shared →
    Running context readMemory index assignment evaluator →
    Running context readMemory index assignment shared →
    SwitchTargetEvaluator.run context readMemory limit evaluator = some (final, true) →
    ∃ finalShared, SwitchTargetEvaluator.run context readMemory limit shared =
      some (finalShared, true) ∧
      ∀ value x, final.memo value = some x → finalShared.memo value = some x
  | 0, evaluator, shared, ahead, _, _, ran => by
    simp only [SwitchTargetEvaluator.run, Option.some.injEq, Prod.mk.injEq, List.isEmpty_iff] at ran
    have lacks := ahead.lacks
    rw [ran.2] at lacks
    cases stackShared : shared.stack with
    | cons item stack => rw [stackShared] at lacks; cases lacks
    | nil => exact ⟨shared, by simp [SwitchTargetEvaluator.run, stackShared], ran.1 ▸ ahead.le⟩
  | limit + 1, evaluator, shared, ahead, running, runningShared, ran => by
    have lacks := ahead.lacks
    unfold SwitchTargetEvaluator.run at ran
    cases top : evaluator.stack with
    | nil =>
      simp only [top, Option.some.injEq, Prod.mk.injEq, and_true] at ran
      rw [top] at lacks
      cases stackShared : shared.stack with
      | cons item stack => rw [stackShared] at lacks; cases lacks
      | nil => exact ⟨shared, by simp [SwitchTargetEvaluator.run, stackShared], ran ▸ ahead.le⟩
    | cons item stack =>
      simp only [top] at ran
      split at ran
      · cases ran
      · cases ran
      rename_i next stepped
      rw [top] at lacks
      generalize stackShared : shared.stack = reduced at lacks
      cases lacks with
      | skip done lacks =>
        have after := Ahead.skip running runningShared ahead.le top done (stackShared ▸ lacks)
          stepped
        obtain ⟨finalShared, ranShared, le⟩ :=
          Ahead.run after (running.step top stepped) runningShared ran
        exact ⟨finalShared, run_succ ranShared, le⟩
      | keep lacks =>
        obtain ⟨nextShared, steppedShared, after⟩ :=
          Ahead.keep ahead.le running runningShared top stackShared lacks stepped
        obtain ⟨finalShared, ranShared, le⟩ := Ahead.run after (running.step top stepped)
          (runningShared.step stackShared steppedShared) ran
        refine ⟨finalShared, ?_, le⟩
        rw [SwitchTargetEvaluator.run, stackShared]
        simp only [steppedShared]
        exact ranShared

end Step

section Evaluate

variable {context : SwitchContext} {readMemory : ReadMemory} {target index : IlValueId}
  {assignment result : BitVec} {evaluator after : SwitchTargetEvaluator}

theorem Retained.new : Retained context readMemory index SwitchTargetEvaluator.new where
  fixed _ _ found := by cases found
  closed _ known := by cases known
  unassigned := rfl

variable (retained : Retained context readMemory index evaluator)
include retained

theorem Retained.start :
    Running context readMemory index assignment (evaluator.start target index assignment) := by
  have memo : ∀ value, value ≠ index →
      (evaluator.start target index assignment).memo value = evaluator.memo value :=
    fun value ne => update_of_ne ne _ _
  have assigned : (evaluator.start target index assignment).memo index = some assignment :=
    update_self ..
  have marked : (evaluator.start target index assignment).dependent index = true := by
    simp [SwitchTargetEvaluator.start]
  have marks : ∀ value, value ≠ index →
      (evaluator.start target index assignment).dependent value = false :=
    fun value ne => by simp [SwitchTargetEvaluator.start, ne]
  refine ⟨fun value x found => ?_, fun value x found unmarked => ?_, assigned, marked,
    fun value known ne operand mem => ?_, fun value known unmarked operand mem => ?_,
    fun value isMarked => ?_, fun item mem settles => ?_, ⟨fun _ none => ?_, trivial⟩,
    ⟨fun settles => ?_, trivial⟩⟩
  · by_cases same : value = index
    · rw [same, assigned] at found
      rw [same]
      exact .index found
    · rw [memo value same] at found
      exact (retained.fixed value x found).assign assignment
  · by_cases same : value = index
    · rw [same, marked] at unmarked
      cases unmarked
    · rw [memo value same] at found
      exact retained.fixed value x found
  · rw [memo value ne] at known
    obtain ⟨other, ready⟩ := retained.closed value known operand mem
    rwa [memo operand other]
  · have ne : value ≠ index := by
      rintro rfl
      rw [marked] at unmarked
      cases unmarked
    rw [memo value ne] at known
    exact marks operand (retained.closed value known operand mem).1
  · by_cases same : value = index
    · rw [same, assigned]
      rfl
    · rw [marks value same] at isMarked
      cases isMarked
  · rw [mem_singleton.mp mem] at settles
    cases settles
  · cases none
  · cases settles

omit retained in
theorem Running.evict (running : Running context readMemory index assignment evaluator) :
    Retained context readMemory index { evaluator with
      memo := fun value => if evaluator.dependent value then none else evaluator.memo value } where
  fixed value x found := by
    cases marked : evaluator.dependent value with
    | true => simp [marked] at found
    | false => exact running.fixed value x (by simpa [marked] using found) marked
  closed value known operand mem := by
    cases marked : evaluator.dependent value with
    | true => simp [marked] at known
    | false =>
      have isKnown : (evaluator.memo value).isSome := by simpa [marked] using known
      have unmarked := running.unmarked value isKnown marked operand mem
      have ne : ∀ {other}, evaluator.dependent other = false → other ≠ index := by
        rintro _ isUnmarked rfl
        rw [running.marked] at isUnmarked
        cases isUnmarked
      refine ⟨ne unmarked, ?_⟩
      simpa [unmarked] using running.closed value isKnown (ne marked) operand mem
  unassigned := by simp [running.marked]

omit retained in
theorem evaluate_cases {outcome : Option BitVec}
    (ran : evaluator.evaluate context readMemory target index assignment = some (after, outcome)) :
    ∃ final finished,
      SwitchTargetEvaluator.run context readMemory context.maxTraceSteps
        (evaluator.start target index assignment) = some (final, finished) ∧
      after = { final with
        memo := fun value => if final.dependent value then none else final.memo value } ∧
      outcome = if finished then final.memo target else none := by
  obtain ⟨⟨final, finished⟩, ranLoop, eq⟩ := bind_eq_some_iff.mp ran
  cases eq
  exact ⟨final, finished, ranLoop, rfl, rfl⟩

omit retained in
theorem Retained.evaluateAll : ∀ {assignments : List BitVec} {evaluator : SwitchTargetEvaluator},
    Retained context readMemory index evaluator →
    evaluator.evaluateAll context readMemory target index assignments = some after →
    Retained context readMemory index after
  | [], evaluator, retained, ran => by
    cases ran
    exact retained
  | assignment :: assignments, evaluator, retained, ran => by
    obtain ⟨next, evaluated, rest⟩ := bind_eq_some_iff.mp ran
    obtain ⟨⟨_, outcome⟩, ranOnce, rfl⟩ := map_eq_some_iff.mp evaluated
    obtain ⟨final, finished, ranLoop, rfl, -⟩ := evaluate_cases ranOnce
    exact ((retained.start).run ranLoop).evict.evaluateAll rest

theorem Retained.denotes (ran : evaluator.evaluate context readMemory target index assignment =
      some (after, some result)) :
    Denotes context readMemory index (some assignment) target result := by
  obtain ⟨final, finished, ranLoop, -, outcome⟩ := evaluate_cases ran
  cases finished with
  | false => cases outcome
  | true => exact ((retained.start).run ranLoop).known target result outcome.symm

theorem Retained.agrees
    (ran : SwitchTargetEvaluator.new.evaluate context readMemory target index assignment =
      some (after, some result)) :
    ∃ kept, evaluator.evaluate context readMemory target index assignment =
      some (kept, some result) := by
  obtain ⟨final, finished, ranLoop, -, outcome⟩ := evaluate_cases ran
  cases finished with
  | false => cases outcome
  | true =>
    have ahead : Ahead context (SwitchTargetEvaluator.new.start target index assignment)
        (evaluator.start target index assignment) := by
      refine ⟨fun value x found => ?_, .keep .nil⟩
      change update (fun _ => none) index (some assignment) value = some x at found
      change update evaluator.memo index (some assignment) value = some x
      by_cases same : value = index
      · rw [same, update_self] at found ⊢
        exact found
      · rw [update_of_ne same] at found
        cases found
    have fresh : Running context readMemory index assignment
        (SwitchTargetEvaluator.new.start target index assignment) := Retained.new.start
    obtain ⟨finalShared, ranShared, le⟩ := ahead.run fresh retained.start ranLoop
    unfold SwitchTargetEvaluator.evaluate
    rw [ranShared]
    exact ⟨_, congrArg some (Prod.ext rfl (le target result outcome.symm))⟩

end Evaluate

/-- Whatever assignments of the index one evaluator evaluated before, and whether or not these
evaluations failed, the next result is what the target denotes under the next assignment, and there
is one whenever a fresh evaluator has one. -/
theorem evaluate_refines_fresh (context : SwitchContext) (readMemory : ReadMemory)
    (target index : IlValueId) (before : List BitVec) (assignment : BitVec)
    (shared : SwitchTargetEvaluator)
    (earlier : SwitchTargetEvaluator.new.evaluateAll context readMemory target index before =
      some shared) :
    (∀ after result, shared.evaluate context readMemory target index assignment =
      some (after, some result) →
        Denotes context readMemory index (some assignment) target result) ∧
    (∀ fresh result, SwitchTargetEvaluator.new.evaluate context readMemory target index assignment =
      some (fresh, some result) →
        ∃ after, shared.evaluate context readMemory target index assignment =
          some (after, some result)) := by
  have retained : Retained context readMemory index shared := Retained.new.evaluateAll earlier
  exact ⟨fun _ _ ran => retained.denotes ran, fun _ _ ran => retained.agrees ran⟩

/-- A target that is the index, of 32 bits, plus a constant. -/
def shiftedIndex : SwitchContext where
  ssa :=
    { metadata := ⟨0, 0⟩
      graph := { blocks := [], successors := [], successorKinds := [], blockSources := [] }
      sourceSpans := []
      parentSpans := []
      values := [⟨32, .op 0⟩, ⟨32, .op 1⟩, ⟨32, .op 2⟩]
      valueDomains := [none, none, none]
      blockArgs := []
      edgeArgs := []
      edgeArgValues := []
      operations := [⟨.undefined, ⟨0, 1⟩, ⟨0, 0⟩, 32, 0, none, none⟩,
        ⟨.constant, ⟨1, 2⟩, ⟨0, 0⟩, 32, 4096, none, none⟩,
        ⟨.add, ⟨2, 3⟩, ⟨0, 2⟩, 32, 0, none, none⟩]
      valueOperands := [0, 1]
      memoryDomains := []
      constantStorage := [] }
  blockArgInputs := ⟨[false, false, false], ⟨[0, 0, 0, 0], []⟩⟩
  maxTraceSteps := 8
  space := 0

theorem evaluate_refines_fresh_shiftedIndex :
    ∃ shared, SwitchTargetEvaluator.new.evaluateAll shiftedIndex (fun _ _ => none) 2 0
        [BitVec.fromSmall 1 64] = some shared ∧
      (∀ after result, shared.evaluate shiftedIndex (fun _ _ => none) 2 0
        (BitVec.fromSmall 2 64) = some (after, some result) →
          Denotes shiftedIndex (fun _ _ => none) 0 (some (BitVec.fromSmall 2 64)) 2 result) ∧
      (∀ fresh result, SwitchTargetEvaluator.new.evaluate shiftedIndex (fun _ _ => none) 2 0
        (BitVec.fromSmall 2 64) = some (fresh, some result) →
          ∃ after, shared.evaluate shiftedIndex (fun _ _ => none) 2 0
            (BitVec.fromSmall 2 64) = some (after, some result)) := by
  have earlier : (SwitchTargetEvaluator.new.evaluateAll shiftedIndex (fun _ _ => none) 2 0
      [BitVec.fromSmall 1 64]).isSome := by decide +kernel
  obtain ⟨shared, eq⟩ := isSome_iff_exists.mp earlier
  exact ⟨shared, eq, evaluate_refines_fresh shiftedIndex (fun _ _ => none) 2 0
    [BitVec.fromSmall 1 64] (BitVec.fromSmall 2 64) shared eq⟩

end Fugue.Analysis.Switch
