import Fugue.Il.ECode.Lift

/-!
# What the steps of the lifter emit

Operations are only ever added. Everything but `liftOpAt` leaves the records of the effects alone
(`Emits`), and the lifting of an effect emits at least one operation (`liftOp_emits`).
-/

namespace Fugue.Il

open Fugue.Lib Fugue.Ir

namespace ECodeBuilder

variable {builder : ECodeBuilder}

theorem emit_operations {spec : ECodeOpSpec} {operands : List IlValueId} {resultCount : Nat}
    {emitted : IlOpId × IlIndexRange} {after : ECodeBuilder}
    (call : builder.emit spec operands resultCount = (.ok emitted, after)) :
    after.operations.length = builder.operations.length + 1 := by
  unfold emit at call
  split at call
  · cases call
  · dsimp only [poolAppend] at call
    split at call
    · cases call
    · split at call
      · cases call
      · cases call
        simp

theorem setValueDomain_operations (value : IlValueId) (domain : ECodeDomain) :
    (builder.setValueDomain value domain).2.operations = builder.operations :=
  (setValueDomain_sameTables value domain).2.2.2.1

theorem emitBlockArg_operations (block : IlBlockId) (width : Nat) :
    (builder.emitBlockArg block width).2.operations = builder.operations := by
  unfold emitBlockArg
  split <;> rfl

theorem emitEdgeArgs_operations (args : List IlValueId) :
    (builder.emitEdgeArgs args).2.operations = builder.operations := by
  unfold emitEdgeArgs
  dsimp only [poolAppend]
  split <;> rfl

end ECodeBuilder

/-- Operations may have been emitted; the records are as they were. -/
structure Lifting.Emits (s t : Lifting) : Prop where
  count : s.opCount ≤ t.opCount
  lifted : t.lifted = s.lifted
  opRanges : t.opRanges = s.opRanges
  blocks : t.blocks = s.blocks

namespace Lifting.Emits

instance : Std.Refl Lifting.Emits := ⟨fun _ => ⟨le_rfl, rfl, rfl, rfl⟩⟩

instance : IsTrans Lifting Lifting.Emits where
  trans _ _ _ left right := ⟨left.count.trans right.count, right.lifted.trans left.lifted,
    right.opRanges.trans left.opRanges, right.blocks.trans left.blocks⟩

end Lifting.Emits

/-- At least one operation has been emitted, too. -/
structure Lifting.EmitsSome (s t : Lifting) : Prop extends Lifting.Emits s t where
  some : s.opCount < t.opCount

namespace PCodeToECodeSsaLifter

open Lifting Stateful

variable {lifter : PCodeToECodeSsaLifter} {rounds : Nat}

theorem modify_emits {g : Lifting → Lifting} (builder : ∀ s, (g s).builder = s.builder)
    (lifted : ∀ s, (g s).lifted = s.lifted) (opRanges : ∀ s, (g s).opRanges = s.opRanges)
    (blocks : ∀ s, (g s).blocks = s.blocks) :
    Keeps Emits (modify g : LiftM Unit) :=
  Keeps.modify fun s => ⟨by rw [opCount, opCount, builder s], lifted s, opRanges s, blocks s⟩

theorem emitting_returns {α : Type} {call : ECodeBuilder → Except IlError α × ECodeBuilder}
    {s t : Lifting} {a : α} :
    Returns (emitting call) s a t ↔
      (call s.builder).1 = .ok a ∧ t = { s with builder := (call s.builder).2 } := by
  unfold emitting
  simp only [returns_bind, returns_get, returns_ofExcept, returns_modify, returns_pure]
  constructor
  · rintro ⟨_, _, ⟨rfl, rfl⟩, b, _, ⟨called, rfl⟩, _, _, rfl, rfl, rfl⟩
    exact ⟨called, rfl⟩
  · rintro ⟨called, rfl⟩
    exact ⟨s, s, ⟨rfl, rfl⟩, a, s, ⟨called, rfl⟩, (), _, rfl, rfl, rfl⟩

/-- A call of the emitter that adds no operation. -/
theorem emitting_emits {α : Type} {call : ECodeBuilder → Except IlError α × ECodeBuilder}
    (same : ∀ builder, (call builder).2.operations = builder.operations) :
    Keeps Emits (emitting call) := by
  intro s a t run
  obtain ⟨-, rfl⟩ := emitting_returns.mp run
  exact ⟨by simp [opCount, same], rfl, rfl, rfl⟩

theorem emit_emits (spec : ECodeOpSpec) (operands : List IlValueId) (resultCount : Nat) :
    Keeps EmitsSome (emitting fun builder => builder.emit spec operands resultCount) := by
  intro s a t run
  obtain ⟨called, rfl⟩ := emitting_returns.mp run
  have count := ECodeBuilder.emit_operations (Prod.ext called rfl)
  exact ⟨⟨by simp [opCount, count], rfl, rfl, rfl⟩, by simp [opCount, count]⟩

theorem emitsSome_then {α β : Type} {x : LiftM α} {f : α → LiftM β} (first : Keeps EmitsSome x)
    (second : ∀ a, Keeps Emits (f a)) : Keeps EmitsSome (x >>= f) :=
  first.comp second fun _ _ _ left right =>
    ⟨IsTrans.trans _ _ _ left.toEmits right, left.some.trans_le right.count⟩

theorem emitsSome_after {α β : Type} {x : LiftM α} {f : α → LiftM β} (first : Keeps Emits x)
    (second : ∀ a, Keeps EmitsSome (f a)) : Keeps EmitsSome (x >>= f) :=
  first.comp second fun _ _ _ left right =>
    ⟨IsTrans.trans _ _ _ left right.toEmits, left.count.trans_lt right.some⟩

theorem define_emits (domain : ECodeDomain) (value : IlValueId) :
    Keeps Emits (define domain value) :=
  modify_emits (fun _ => rfl) (fun _ => rfl) (fun _ => rfl) fun _ => rfl

theorem setExpression_emits (expression : IlExprId) (value : IlValueId) :
    Keeps Emits (setExpression expression value) :=
  modify_emits (fun _ => rfl) (fun _ => rfl) (fun _ => rfl) fun _ => rfl

theorem emitInDomain_emits (spec : ECodeOpSpec) (operands : List IlValueId)
    (domain : ECodeDomain) : Keeps EmitsSome (emitInDomain spec operands domain) := by
  refine emitsSome_then (emit_emits spec operands 1) fun _ => ?_
  refine (Keeps.ofExcept _).bind fun value => ?_
  exact (emitting_emits fun builder => ECodeBuilder.setValueDomain_operations _ _).bind
    fun _ => Keeps.pure _

theorem pushUndefined_emits (domain : ECodeDomain) (width : Nat) :
    Keeps EmitsSome (pushUndefined domain width) := emitInDomain_emits _ _ _

theorem currentValue_emits (domain : ECodeDomain) (width : Nat) :
    Keeps Emits (currentValue domain width) := by
  refine Keeps.get.bind fun s => ?_
  split
  · exact Keeps.pure _
  · refine ((pushUndefined_emits _ _).mono fun _ _ => EmitsSome.toEmits).bind fun value => ?_
    exact (define_emits _ _).bind fun _ => Keeps.pure _

theorem expressionOperands_emits (expression : ECodeLiftExpr) :
    Keeps Emits (lifter.expressionOperands expression) := by
  refine (Keeps.ofOption _).bind fun ids => ?_
  refine (Keeps.mapM fun _ _ => Keeps.get.bind fun s => (Keeps.ofOption _).bind fun _ =>
    Keeps.ofExcept _).bind fun operands => ?_
  split
  · refine (Keeps.ofExcept _).bind fun space => ?_
    exact (currentValue_emits _ _).bind fun _ => Keeps.pure _
  · exact Keeps.pure _

theorem buildExpression_emits (expressionId : IlExprId) :
    Keeps Emits (lifter.buildExpression expressionId) := by
  refine (Keeps.ofOption _).bind fun expression => ?_
  refine (expressionOperands_emits _).bind fun operands => ?_
  split
  · refine ((emit_emits _ _ _).mono fun _ _ => EmitsSome.toEmits).bind fun emitted => ?_
    exact (Keeps.ofExcept _).bind fun value => setExpression_emits _ _
  · exact Keeps.ofExcept _

theorem enterExpression_emits (expressionId : IlExprId) :
    Keeps Emits (lifter.enterExpression expressionId) := by
  refine (Keeps.ofOption _).bind fun expression => ?_
  have read : ∀ domain, Keeps Emits (do
      let value ← currentValue domain expression.width
      setExpression expressionId value
      return ([] : List ExprVisit)) := fun domain =>
    (currentValue_emits _ _).bind fun _ => (setExpression_emits _ _).bind fun _ => Keeps.pure _
  split
  · exact read _
  · exact read _
  · exact (Keeps.ofOption _).bind fun _ => Keeps.pure _

theorem visitExpression_emits (visit : ExprVisit) : Keeps Emits (lifter.visitExpression visit) := by
  cases visit with
  | enter expressionId =>
    refine Keeps.get.bind fun s => (Keeps.ofOption _).bind fun value => ?_
    split
    · exact Keeps.pure _
    · exact enterExpression_emits _
  | exit expressionId =>
    refine Keeps.get.bind fun s => (Keeps.ofOption _).bind fun value => ?_
    split
    · exact Keeps.pure _
    · exact (buildExpression_emits _).bind fun _ => Keeps.pure _

theorem visitExpressions_emits (visits : List ExprVisit) :
    Keeps Emits (lifter.visitExpressions rounds visits) := by
  induction rounds generalizing visits with
  | zero => exact Keeps.panicked
  | succ rounds ih =>
    cases visits with
    | nil => exact Keeps.pure _
    | cons visit visits => exact (visitExpression_emits _).bind fun _ => ih _

theorem liftExpression_emits (id : IlExprId) : Keeps Emits (lifter.liftExpression rounds id) := by
  refine (visitExpressions_emits _).bind fun _ => Keeps.get.bind fun s => ?_
  exact (Keeps.ofOption _).bind fun _ => Keeps.ofExcept _

theorem liftEffectOperands_emits (op : ECodeLiftEffect) :
    Keeps Emits (lifter.liftEffectOperands rounds op) := by
  refine (Keeps.mapM fun id _ => liftExpression_emits id).bind fun value => ?_
  refine (Keeps.ofOption _).bind fun operands => ?_
  exact (Keeps.mapM fun id _ => liftExpression_emits id).bind fun _ => Keeps.pure _

theorem liftWrite_emits (op : ECodeLiftEffect) (domain : ECodeDomain) :
    Keeps EmitsSome (lifter.liftWrite rounds op domain) := by
  refine emitsSome_after (Keeps.ofExcept _) fun value => ?_
  refine emitsSome_after (Keeps.ofOption _) fun expression => ?_
  refine emitsSome_after (liftExpression_emits _) fun source => ?_
  exact emitsSome_then (emitInDomain_emits _ _ _) fun _ => define_emits _ _

theorem liftStore_emits (op : ECodeLiftEffect) : Keeps EmitsSome (lifter.liftStore rounds op) := by
  refine emitsSome_after (Keeps.ofExcept _) fun space => ?_
  refine emitsSome_after (liftEffectOperands_emits _) fun operands => ?_
  refine emitsSome_after (currentValue_emits _ _) fun memory => ?_
  exact emitsSome_then (emitInDomain_emits _ _ _) fun _ => define_emits _ _

theorem liftOther_emits (op : ECodeLiftEffect) : Keeps EmitsSome (lifter.liftOther rounds op) := by
  refine emitsSome_after (liftEffectOperands_emits _) fun operands => ?_
  refine emitsSome_then (emit_emits _ _ _) fun _ => ?_
  split
  · exact modify_emits (fun _ => rfl) (fun _ => rfl) (fun _ => rfl) fun _ => rfl
  · exact Keeps.pure _

theorem liftOp_emits (op : ECodeLiftEffect) : Keeps EmitsSome (lifter.liftOp rounds op) := by
  unfold liftOp
  split
  · exact liftWrite_emits _ _
  · exact liftWrite_emits _ _
  · exact liftStore_emits _
  · exact liftOther_emits _

theorem resetExpressionCache_emits : Keeps Emits resetExpressionCache :=
  modify_emits (fun _ => rfl) (fun _ => rfl) (fun _ => rfl) fun _ => rfl

theorem allocateInputValues_emits : Keeps Emits allocateInputValues := by
  refine Keeps.get.bind fun s => Keeps.forM fun input _ => Keeps.get.bind fun s => ?_
  split
  · exact Keeps.pure _
  · exact ((pushUndefined_emits _ _).mono fun _ _ => EmitsSome.toEmits).bind fun _ =>
      define_emits _ _

theorem edgeArg_emits (arg : ECodeDomain × IlValueId) : Keeps Emits (edgeArg arg) := by
  refine Keeps.get.bind fun s => ?_
  split
  · exact Keeps.pure _
  · refine Keeps.get.bind fun s => (Keeps.ofOption _).bind fun width => ?_
    refine ((pushUndefined_emits _ _).mono fun _ _ => EmitsSome.toEmits).bind fun _ => ?_
    exact (define_emits _ _).bind fun _ => Keeps.pure _

theorem liftEdgeArgs_emits (sourceBlock : IlBlock) :
    Keeps Emits (lifter.liftEdgeArgs sourceBlock) := by
  refine Keeps.forM fun edge _ => (Keeps.ofOption _).bind fun successor => ?_
  refine Keeps.get.bind fun s => (Keeps.ofOption _).bind fun blockArgs => ?_
  refine (Keeps.mapM fun arg _ => edgeArg_emits arg).bind fun args => ?_
  exact modify_emits (fun _ => rfl) (fun _ => rfl) (fun _ => rfl) fun _ => rfl

theorem placeDomain_emits (frontiers : IlDominanceFrontier) (widths : OrdMap ECodeDomain Nat)
    (placed : List (IlBlockId × ECodeDomain)) (definition : ECodeDomain × List IlBlockId) :
    Keeps Emits (lifter.placeDomain frontiers widths placed definition) := by
  refine (Keeps.ofOption _).bind fun width => (Keeps.ofOption _).bind fun result => ?_
  refine (Keeps.ofExcept _).bind fun placement => Keeps.foldlM _ fun block _ placed => ?_
  split
  · exact Keeps.pure _
  · refine (emitting_emits fun _ => ECodeBuilder.emitBlockArg_operations _ _).bind fun value => ?_
    refine (emitting_emits fun _ => ECodeBuilder.setValueDomain_operations _ _).bind fun _ => ?_
    refine Keeps.get.bind fun s => (Keeps.ofOption _).bind fun args => ?_
    refine (modify_emits ?_ ?_ ?_ ?_).bind fun _ => Keeps.pure _
    all_goals exact fun _ => rfl

theorem placeBlockArgs_emits (domains : ECodeDomains) (dominance : IlDominance) :
    Keeps Emits (lifter.placeBlockArgs domains dominance) := by
  refine (Keeps.ofOption _).bind fun frontiers => ?_
  refine (Keeps.foldlM _ fun definition _ placed => placeDomain_emits _ _ _ _).bind fun _ => ?_
  exact modify_emits (fun _ => rfl) (fun _ => rfl) (fun _ => rfl) fun _ => rfl

end PCodeToECodeSsaLifter

end Fugue.Il
