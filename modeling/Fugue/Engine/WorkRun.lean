import Fugue.Engine.WorkStep

/-!
# Runs of the work queue

The calls that an engine makes on its queue, in any order. `run` makes them one after another and
records the items that each call hands out. No run fails, and in every run each piece of work that
was asked for is queued at the end, or was handed out or cancelled later.
-/

namespace Fugue.Engine

open Fugue.Lib Fugue.Ir AnalysisWorkQueue List

inductive Call where
  | schedule (analyser : AnalyserId) (analyserOrder : Nat) (phase : AnalysisPhase)
      (priority : Int) (regions : AddressRangeSet) (cause : Option AddressRange → WorkCause)
  | requeue (item : WorkItem)
  | requeueContinuation (items : List WorkItem)
  | pop (budget : Nat)
  | popBatch (budget maxItems : Nat)
  | cancel (phases : List AnalysisPhase) (region : AddressRangeSet)

namespace Call

/-- The call, with the items that it hands out. -/
def apply (queue : AnalysisWorkQueue) : Call → Option (AnalysisWorkQueue × List WorkItem)
  | .schedule analyser analyserOrder phase priority regions cause => do
    let (queue, _) ← queue.schedule analyser analyserOrder phase priority regions cause
    return (queue, [])
  | .requeue item => do
    let (queue, _) ← queue.requeue item
    return (queue, [])
  | .requeueContinuation items => do
    let (queue, _) ← queue.requeueContinuation items
    return (queue, [])
  | .pop budget => do
    let (queue, popped) ← queue.pop budget
    return (queue, popped.toList)
  | .popBatch budget maxItems => queue.popBatch budget maxItems
  | .cancel phases region => do
    let (queue, _) ← queue.cancel phases region
    return (queue, [])

/-- The calls that an engine with these analysers can make: an analyser is scheduled with its own
order and phase, an item that is requeued belongs to its analyser (as every item that was handed
out does, see `run_spec`), and a budget is a `u64`. -/
def Valid (analysers : Analysers) : Call → Prop
  | .schedule analyser analyserOrder phase _ _ _ =>
    analyser < analysers.count ∧ analyserOrder = analysers.order analyser ∧
      phase = analysers.phase analyser
  | .requeue item => Belongs analysers item
  | .requeueContinuation items => ∀ item ∈ items, Belongs analysers item
  | .pop budget => budget < 2 ^ 64
  | .popBatch budget _ => budget < 2 ^ 64
  | .cancel _ _ => True

/-- The call asks an analyser for a piece of work. -/
def Asks : Call → AnalyserId → Target → Prop
  | .schedule analyser _ _ _ regions _, other, target => analyser = other ∧ Scheduled regions target
  | .requeue item, other, target => item.analyser = other ∧ Holds item.range target
  | .requeueContinuation items, other, target =>
    ∃ item ∈ items, item.analyser = other ∧ Holds item.range target
  | _, _, _ => False

/-- The call cancels the phase of an analyser in a region with the address. -/
def Cancels (analysers : Analysers) : Call → AnalyserId → Target → Prop
  | .cancel phases region, analyser, target => Cancelled analysers phases region analyser target
  | _, _, _ => False

/-- What holds of the items that a call of `pop_batch` hands out. -/
def Batched (analysers : Analysers) : Call → List WorkItem → Prop
  | .popBatch budget maxItems, items =>
    (∃ analyser phase kind, IsBatch analysers analyser phase kind budget items) ∧
      items.length ≤ max 1 maxItems
  | _, _ => True

/-- One call: it succeeds, keeps the invariant, and accounts for all work. -/
theorem apply_spec {analysers : Analysers} {queue : AnalysisWorkQueue} (inv : Inv analysers queue)
    {call : Call} (valid : call.Valid analysers) :
    ∃ queue' items, call.apply queue = some (queue', items) ∧
      Kept analysers queue queue' (fun analyser target =>
        TakenByAny items analyser target ∨ call.Cancels analysers analyser target) ∧
      (∀ analyser target, call.Asks analyser target → Covers queue' analyser target) ∧
      (∀ item ∈ items, Belongs analysers item) ∧ call.Batched analysers items := by
  cases call with
  | schedule analyser analyserOrder phase priority regions cause =>
    obtain ⟨registered, rfl, rfl⟩ := valid
    obtain ⟨queue', report, step, kept, covers⟩ :=
      schedule_spec inv registered priority regions cause
    refine ⟨queue', [], by simp [apply, step], kept.mono (by simp [nothing]), ?_, by simp, trivial⟩
    rintro _ target ⟨rfl, scheduled⟩
    exact covers target scheduled
  | requeue item =>
    obtain ⟨queue', report, step, kept, covers⟩ := insert_spec inv valid
    refine ⟨queue', [], by
      simp [apply, AnalysisWorkQueue.requeue, step], kept.mono (by simp [nothing]), ?_,
      by simp, trivial⟩
    rintro _ target ⟨rfl, holds⟩
    exact covers target holds
  | requeueContinuation items =>
    -- a continuation is an item of its own kind for the same work
    obtain ⟨queue', report, step, kept, covers⟩ := insertAll_spec
      (items.map fun item => { item with kind := .continuation }) [] inv (by
        intro item mem
        obtain ⟨old, oldMem, rfl⟩ := List.mem_map.mp mem
        obtain ⟨registered, order, phase, proper⟩ := valid old oldMem
        exact ⟨registered, order, phase, proper⟩)
    refine ⟨queue', [], by simp [apply, AnalysisWorkQueue.requeueContinuation, step],
      kept.mono (by simp [nothing]), ?_, by simp, trivial⟩
    rintro _ target ⟨item, mem, rfl, holds⟩
    exact covers _ (List.mem_map_of_mem mem) target holds
  | pop budget =>
    obtain ⟨queue', popped, step, kept, spec⟩ := pop_spec inv valid
    refine ⟨queue', popped.toList, by simp [apply, step], kept.mono ?_, by simp [Asks], ?_, trivial⟩
    · rintro analyser target ⟨item, rfl, taken⟩
      exact .inl ⟨item, by simp, taken⟩
    · intro item mem
      exact (spec item (Option.mem_toList.mp mem)).belongs
  | popBatch budget maxItems =>
    obtain ⟨queue', items, step, kept, batch, length⟩ := popBatch_spec inv valid maxItems
    refine ⟨queue', items, step, kept.mono fun _ _ => .inl, by simp [Asks], ?_, batch, length⟩
    obtain ⟨_, _, _, batch⟩ := batch
    exact batch.belongs
  | cancel phases region =>
    obtain ⟨queue', report, step, kept⟩ := cancel_spec inv phases region
    exact ⟨queue', [], by simp [apply, step], kept.mono fun _ _ => .inr, by simp [Asks], by simp,
      trivial⟩

end Call

/-- The calls one after another, with the items that each of them hands out. -/
def run (queue : AnalysisWorkQueue) : List Call → Option (AnalysisWorkQueue × List (List WorkItem))
  | [] => some (queue, [])
  | call :: calls => do
    let (queue, items) ← call.apply queue
    let (queue, outputs) ← run queue calls
    return (queue, items :: outputs)

/-- All work of a run is accounted for: what the call number `i` asked an analyser for is queued for
the analyser at the end, or an item of the analyser that a later call handed out has it, or a later
call cancelled it. What a call of `pop_batch` handed out is a batch. -/
structure Accounted (analysers : Analysers) (calls : List Call) (queue : AnalysisWorkQueue)
    (outputs : List (List WorkItem)) : Prop where
  work : ∀ i call, calls[i]? = some call → ∀ analyser target, call.Asks analyser target →
    Covers queue analyser target ∨
    (∃ items ∈ outputs.drop (i + 1), ∃ item ∈ items,
      item.analyser = analyser ∧ Holds item.range target) ∨
    ∃ later ∈ calls.drop (i + 1), later.Cancels analysers analyser target
  batches : ∀ (i : Nat) (call : Call) (items : List WorkItem), calls[i]? = some call →
    outputs[i]? = some items → call.Batched analysers items

variable {analysers : Analysers}

/-- A queue without analysers' work meets the invariant. -/
theorem withAnalysers_inv : Inv analysers (withAnalysers analysers.count) := by
  refine ⟨by simp [withAnalysers], by simp [withAnalysers], by simp [withAnalysers], ?_⟩
  intro analyser keys found location key mem
  obtain rfl := eq_of_mem_replicate (mem_of_getElem? found)
  exact absurd mem not_mem_nil

/-- The run lemma, by induction on the calls: the work that is queued before is accounted for as
well, and every item that was handed out belongs to its analyser. -/
theorem run_spec : ∀ (calls : List Call) {queue : AnalysisWorkQueue}, Inv analysers queue →
    (∀ call ∈ calls, call.Valid analysers) →
    ∃ queue' outputs, run queue calls = some (queue', outputs) ∧ Inv analysers queue' ∧
      (∀ analyser target, Covers queue analyser target → Covers queue' analyser target ∨
        (∃ items ∈ outputs, TakenByAny items analyser target) ∨
        ∃ call ∈ calls, call.Cancels analysers analyser target) ∧
      (∀ items ∈ outputs, ∀ item ∈ items, Belongs analysers item) ∧
      Accounted analysers calls queue' outputs
  | [], queue, inv, _ =>
    ⟨queue, [], rfl, inv, fun _ _ covers => .inl covers, by simp, ⟨by simp, by simp⟩⟩
  | call :: calls, queue, inv, valid => by
    obtain ⟨validCall, validCalls⟩ := forall_mem_cons.mp valid
    obtain ⟨middle, items, step, kept, asked, belongs, batched⟩ := call.apply_spec inv validCall
    obtain ⟨queue', outputs, rest, inv', covers, belongs', accounted⟩ :=
      run_spec calls kept.inv validCalls
    refine ⟨queue', items :: outputs, by simp [run, step, rest], inv', ?_,
      forall_mem_cons.mpr ⟨belongs, belongs'⟩, ?_, ?_⟩
    · intro analyser target before
      rcases kept.covers analyser target before with before | taken | cancelled
      · rcases covers analyser target before with covers | ⟨later, mem, taken⟩ | ⟨later, mem, cut⟩
        · exact .inl covers
        · exact .inr (.inl ⟨later, .tail _ mem, taken⟩)
        · exact .inr (.inr ⟨later, .tail _ mem, cut⟩)
      · exact .inr (.inl ⟨items, .head _, taken⟩)
      · exact .inr (.inr ⟨call, .head _, cancelled⟩)
    · rintro (_ | i) found at_ analyser target asks
      · cases at_
        exact covers analyser target (asked analyser target asks)
      · exact accounted.work i found at_ analyser target asks
    · rintro (_ | i) found items' at_ out
      · cases at_
        cases out
        exact batched
      · exact accounted.batches i found items' at_ out

/-- The queue never loses work: every run of valid calls on a new queue succeeds, and all work is
accounted for at its end, hence after each of its calls. -/
theorem run_accounted (analysers : Analysers) (calls : List Call)
    (valid : ∀ call ∈ calls, call.Valid analysers) :
    ∃ queue outputs, run (withAnalysers analysers.count) calls = some (queue, outputs) ∧
      Accounted analysers calls queue outputs := by
  obtain ⟨queue, outputs, step, -, -, -, accounted⟩ := run_spec calls withAnalysers_inv valid
  exact ⟨queue, outputs, step, accounted⟩

def twoAnalysers : Analysers where
  count := 2
  order := id
  phase := fun analyser => if analyser = 0 then .decode else .propagate
  order_injective := fun _ _ _ _ eq => eq

def wholeSpace : AddressRange := ⟨0, 0, 2 ^ 64 - 1⟩

/-- A run that splits, merges, requeues and cancels. -/
def mixedCalls : List Call :=
  let cause := fun range => ⟨range, 0, [], .change, 0⟩
  [.schedule 0 0 .decode 5 (AddressRangeSet.new.insertRange wholeSpace) cause,
    .schedule 1 1 .propagate 0 .new cause,
    .pop 4096,
    .requeue ⟨0, 0, .decode, 3, some ⟨0, 16, 4095⟩, [], 1, .region⟩,
    .popBatch 8192 4,
    .requeueContinuation [⟨0, 0, .decode, 3, some ⟨0, 64, 127⟩, [], 1, .region⟩],
    .cancel [.decode] (AddressRangeSet.new.insertRange ⟨0, 96, 2 ^ 63⟩)]

theorem run_accounted_mixedCalls : ∃ queue outputs,
    run (withAnalysers 2) mixedCalls = some (queue, outputs) ∧
      Accounted twoAnalysers mixedCalls queue outputs := by
  apply run_accounted twoAnalysers mixedCalls
  have range : ∀ start stop, start ≤ stop → stop < 2 ^ 64 →
      Belongs twoAnalysers ⟨0, 0, .decode, 3, some ⟨0, start, stop⟩, [], 1, .region⟩ := by
    intro start stop le lt
    refine ⟨by simp [twoAnalysers], rfl, rfl, ?_⟩
    rintro found eq
    cases eq
    exact ⟨le, lt⟩
  simp only [mixedCalls, forall_mem_cons, not_mem_nil, false_implies, implies_true, and_true]
  refine ⟨⟨by decide, rfl, rfl⟩, ⟨by decide, rfl, rfl⟩, by simp [Call.Valid], ?_,
    by simp [Call.Valid], ?_, trivial⟩
  · exact range 16 4095 (by decide) (by decide)
  · intro item mem
    rw [mem_singleton.mp mem]
    exact range 64 127 (by decide) (by decide)

end Fugue.Engine
