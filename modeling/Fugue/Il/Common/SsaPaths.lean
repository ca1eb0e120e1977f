import Fugue.Il.Common.SsaUses

/-!
# Definition before use, along every path

The meaning of the dominance checks: the events of a walk from the entry block are the blocks that
it enters and the operations that it executes, and a program defines its values before their use
when every operand and every edge argument is defined by an earlier event of the walk.
-/

namespace Fugue.Il

open Fugue.Lib SsaIl List IlGraph

/-- What happens along a walk. -/
inductive Event where
  | enter (block : IlBlockId)
  | exec (operation : IlOpId)
  deriving DecidableEq, Repr

/-- The operations of a block, in order. -/
def IlGraph.opsOf (graph : IlGraph) (block : IlBlockId) : List IlOpId :=
  match graph.blocks[block]? with
  | some record => List.range' record.ops.start (record.ops.stop - record.ops.start)
  | none => []

/-- The events of a walk, which lists its last block first. -/
def IlGraph.trace (graph : IlGraph) : List IlBlockId → List Event
  | [] => []
  | block :: walk => graph.trace walk ++ .enter block :: (graph.opsOf block).map .exec

/-- Control passes along the edges of the graph, from its entry block. -/
def IlGraph.IsPath (graph : IlGraph) (block : IlBlockId) (walk : List IlBlockId) : Prop :=
  ∃ entry, graph.entryBlock = some entry ∧
    IsWalk (Edge graph.blocks graph.successors) entry block walk

namespace SsaVerifier

variable {I : Type} [SsaIl I]

/-- Every value is defined before it is used, along every path from the entry block. -/
structure DefinedBeforeUse (ir : I) (defines : Event → IlValueId → Prop)
    (accepts : IlValueId → IlValueId → Prop) : Prop where
  placed : ∀ operation, operation < opCount ir → ∃ block, (graph ir).InBlock operation block
  uses : ∀ block walk, (graph ir).IsPath block walk →
    ∀ before operation after, (graph ir).trace walk = before ++ .exec operation :: after →
    ∀ operands, opOperands ir operation = some operands → ∀ value ∈ operands,
      ∃ event ∈ before, defines event value
  edgeUses : ∀ (block : IlBlockId) (walk : List IlBlockId) (record : IlBlock) (offset : Nat)
    (successor : IlBlockId), (graph ir).IsPath block walk →
    (graph ir).blocks[block]? = some record →
    (record.successors.slice (graph ir).successors)[offset]? = some successor →
    ∀ value ∈ argsForEdge ir (record.successors.start + offset),
      ∃ event ∈ (graph ir).trace walk, defines event value
  edgeShapes : ∀ (block : IlBlockId) (record : IlBlock) (offset : Nat) (successor : IlBlockId),
    (graph ir).blocks[block]? = some record →
    (record.successors.slice (graph ir).successors)[offset]? = some successor →
    (argsForEdge ir (record.successors.start + offset)).length = (argsOf ir successor).length ∧
    ∀ (i : Nat) (value : IlValueId) (arg : IlBlockArgId),
      (argsForEdge ir (record.successors.start + offset))[i]? = some value →
      (argsOf ir successor)[i]? = some arg →
        valueWidth ir value = blockArgWidth ir arg ∧
        ∀ destination, blockArgValue ir arg = some destination → accepts value destination
  unreachable : ∀ operation block, (graph ir).InBlock operation block →
    (∀ walk, ¬ (graph ir).IsPath block walk) →
    ∀ operands, opOperands ir operation = some operands → ∀ value ∈ operands,
      (∃ entered, defines (.enter entered) value) ∨
        ∃ earlier, earlier < operation ∧ defines (.exec earlier) value

section Trace

variable {graph : IlGraph} {operation : IlOpId} {block : IlBlockId} {walk : List IlBlockId}

theorem mem_opsOf : operation ∈ graph.opsOf block ↔ graph.InBlock operation block := by
  unfold opsOf InBlock
  cases graph.blocks[block]? with
  | none => simp
  | some record =>
    simp only [mem_range'_1, Option.some.injEq, exists_eq_left']
    have : ∀ low high x : Nat, (low ≤ x ∧ x < low + (high - low)) ↔ (low ≤ x ∧ x < high) := by
      omega
    exact this _ _ _

theorem enter_mem_trace : .enter block ∈ graph.trace walk ↔ block ∈ walk := by
  induction walk with
  | nil => simp [trace]
  | cons last walk ih => simp [trace, ih, or_comm]

theorem exec_mem_trace :
    .exec operation ∈ graph.trace walk ↔ ∃ home ∈ walk, graph.InBlock operation home := by
  induction walk with
  | nil => simp [trace]
  | cons last walk ih => simp [trace, ih, mem_opsOf, or_comm]

theorem mem_before_iff {before after : List IlOpId} {earlier : IlOpId}
    (split : graph.opsOf block = before ++ operation :: after) :
    earlier ∈ before ↔ graph.InBlock earlier block ∧ earlier < operation := by
  have sorted : (graph.opsOf block).Pairwise (· < ·) := by
    unfold opsOf
    split
    · exact pairwise_lt_range'
    · exact .nil
  rw [split] at sorted
  obtain ⟨-, sortedAfter, cross⟩ := pairwise_append.mp sorted
  rw [← mem_opsOf, split, mem_append]
  constructor
  · intro mem
    exact ⟨.inl mem, cross earlier mem operation (.head _)⟩
  · rintro ⟨mem | mem, lt⟩
    · exact mem
    · rcases mem_cons.mp mem with rfl | mem
      · exact absurd lt (lt_irrefl _)
      · exact absurd lt (not_lt_of_gt ((pairwise_cons.mp sortedAfter).1 earlier mem))

/-- The events before an operation of the last block of a walk. -/
structure EventsBefore (graph : IlGraph) (block : IlBlockId) (walk : List IlBlockId)
    (operation : IlOpId) (before : List Event) : Prop where
  enter : ∀ entered, .enter entered ∈ before ↔ entered ∈ block :: walk
  exec : ∀ earlier, .exec earlier ∈ before ↔
    (∃ home ∈ walk, graph.InBlock earlier home) ∨
      (graph.InBlock earlier block ∧ earlier < operation)

theorem eventsBefore_of_split {before after : List IlOpId}
    (split : graph.opsOf block = before ++ operation :: after) :
    EventsBefore graph block walk operation
      (graph.trace walk ++ .enter block :: before.map .exec) := by
  refine ⟨fun entered => ?_, fun earlier => ?_⟩
  · simp [enter_mem_trace, or_comm]
  · simp [exec_mem_trace, mem_before_iff split]

theorem exists_trace_split (inBlock : graph.InBlock operation block) (walk : List IlBlockId) :
    ∃ before after, graph.trace (block :: walk) = before ++ .exec operation :: after ∧
      EventsBefore graph block walk operation before := by
  obtain ⟨before, after, split⟩ := append_of_mem (mem_opsOf.mpr inBlock)
  refine ⟨graph.trace walk ++ .enter block :: before.map .exec, after.map .exec, ?_,
    eventsBefore_of_split split⟩
  rw [trace, split]
  simp

theorem trace_split {before after : List Event}
    (split : graph.trace walk = before ++ .exec operation :: after) :
    ∃ home rest, home :: rest <:+ walk ∧ graph.InBlock operation home ∧
      EventsBefore graph home rest operation before := by
  induction walk generalizing after with
  | nil => simp [trace] at split
  | cons last walk ih =>
    rcases append_eq_append_iff.mp split with ⟨middle, beforeEq, restEq⟩ |
      ⟨middle, traceEq, restEq⟩
    · -- the occurrence lies in the last block
      cases middle with
      | nil => simp at restEq
      | cons first middle =>
        rw [cons_append, List.cons.injEq] at restEq
        obtain ⟨rfl, restEq⟩ := restEq
        obtain ⟨ops, rest, opsEq, middleEq, tailEq⟩ := map_eq_append_iff.mp restEq
        obtain ⟨operation', rest', rfl, execEq, -⟩ := map_eq_cons_iff.mp tailEq
        cases execEq
        refine ⟨last, walk, suffix_refl _, ?_, ?_⟩
        · rw [← mem_opsOf, opsEq]
          simp
        · rw [beforeEq, ← middleEq]
          exact eventsBefore_of_split opsEq
    · -- the occurrence lies in the walk before it
      cases middle with
      | nil => simp at restEq
      | cons first middle =>
        obtain ⟨rfl, -⟩ := restEq
        obtain ⟨home, rest, suffix, inBlock, events⟩ := ih traceEq
        exact ⟨home, rest, suffix.trans (suffix_cons _ _), inBlock, events⟩

end Trace

section Meaning

variable {ir : I} {dominance : IlDominance} {entry : IlBlockId}
  {defines : Event → IlValueId → Prop} {accepts : IlValueId → IlValueId → Prop}

/-- The events that define a value are those that the definition of the value names. -/
structure NamesDefinitions (ir : I) (defines : Event → IlValueId → Prop) : Prop where
  exec : ∀ operation value,
    defines (.exec operation) value ↔ valueDefinition ir value = some (.op operation)
  enter : ∀ block value, defines (.enter block) value ↔
    ∃ arg, valueDefinition ir value = some (.blockArg arg) ∧ blockArgBlock ir arg = some block

theorem NamesDefinitions.unique (names : NamesDefinitions ir defines) {value : IlValueId}
    {event other : Event} (first : defines event value) (second : defines other value) :
    event = other := by
  cases event <;> cases other <;> simp only [names.exec, names.enter] at first second <;> grind

section

variable (checked : Checked ir) (names : NamesDefinitions ir defines)
include checked names

variable {value : IlValueId}

theorem availableAt_iff (exact_ : dominance.Exact (graph ir).blocks (graph ir).successors entry)
    {block : IlBlockId} {operation : IlOpId} (inBlock : (graph ir).InBlock operation block)
    (reached : Reaches (Edge (graph ir).blocks (graph ir).successors) entry block) :
    AvailableAt ir dominance value block operation ↔
      ∀ walk before, IsWalk (Edge (graph ir).blocks (graph ir).successors) entry block
          (block :: walk) → EventsBefore (graph ir) block walk operation before →
        ∃ event ∈ before, defines event value := by
  unfold AvailableAt
  constructor
  · intro available walk before ends events
    cases found : valueDefinition ir value with
    | none => simp [found] at available
    | some definition =>
      cases definition with
      | op definition =>
        simp only [found] at available
        obtain ⟨home, inHome, available⟩ := available
        refine ⟨.exec definition, (events.exec definition).mpr ?_, (names.exec _ _).mpr found⟩
        by_cases same : home = block
        · subst same
          rw [if_pos rfl] at available
          exact .inr ⟨inHome, available⟩
        · rw [if_neg same, exact_.dominates_iff] at available
          have mem := (mem_cons.mp (available.2 _ ends)).resolve_left same
          exact .inl ⟨home, mem, inHome⟩
      | blockArg arg =>
        simp only [found] at available
        obtain ⟨home, blockEq, dominates⟩ := available
        rw [exact_.dominates_iff] at dominates
        exact ⟨.enter home, (events.enter home).mpr (dominates.2 _ ends),
          (names.enter _ _).mpr ⟨arg, found, blockEq⟩⟩
  · intro defined
    -- a walk without repetitions shows where the definition has to be
    obtain ⟨walk', ends'⟩ := reached
    obtain ⟨short, ends, nodup, -⟩ := ends'.exists_nodup
    obtain ⟨walk, rfl⟩ := ends.eq_cons
    obtain ⟨before, after, -, events⟩ := exists_trace_split inBlock walk
    obtain ⟨event, mem, defines⟩ := defined walk before ends events
    cases event with
    | exec definition =>
      have found := (names.exec _ _).mp defines
      simp only [found]
      -- any other walk has the same definition before the use
      have everywhere : ∀ walk, IsWalk (Edge (graph ir).blocks (graph ir).successors) entry block
          (block :: walk) → (∃ home ∈ walk, (graph ir).InBlock definition home) ∨
            ((graph ir).InBlock definition block ∧ definition < operation) := by
        intro walk ends
        obtain ⟨before, after, -, events⟩ := exists_trace_split inBlock walk
        obtain ⟨event, mem, defines'⟩ := defined walk before ends events
        cases names.unique defines defines'
        exact (events.exec definition).mp mem
      rcases everywhere walk ends with ⟨home, homeMem, inHome⟩ | ⟨inSame, lt⟩
      · have ne : home ≠ block := by
          rintro rfl
          exact (nodup_cons.mp nodup).1 homeMem
        refine ⟨home, inHome, ?_⟩
        rw [if_neg ne, exact_.dominates_iff]
        refine ⟨⟨_, ends⟩, fun other otherEnds => ?_⟩
        obtain ⟨otherWalk, rfl⟩ := otherEnds.eq_cons
        rcases everywhere otherWalk otherEnds with ⟨home', mem', inHome'⟩ | ⟨inSame, -⟩
        · rw [checked.wellFormed.inBlock_unique inHome inHome']
          exact .tail _ mem'
        · exact absurd (checked.wellFormed.inBlock_unique inHome inSame) ne
      · exact ⟨block, inSame, by rw [if_pos rfl]; exact lt⟩
    | enter home =>
      obtain ⟨arg, found, blockEq⟩ := (names.enter _ _).mp defines
      simp only [found]
      refine ⟨home, blockEq, ?_⟩
      rw [exact_.dominates_iff]
      refine ⟨⟨_, ends⟩, fun other otherEnds => ?_⟩
      obtain ⟨otherWalk, rfl⟩ := otherEnds.eq_cons
      obtain ⟨before, after, -, events⟩ := exists_trace_split inBlock otherWalk
      obtain ⟨event, mem, defines'⟩ := defined otherWalk before otherEnds events
      cases names.unique defines defines'
      exact (events.enter home).mp mem

theorem availableAfter_iff (exact_ : dominance.Exact (graph ir).blocks (graph ir).successors entry)
    {block : IlBlockId}
    (reached : Reaches (Edge (graph ir).blocks (graph ir).successors) entry block) :
    AvailableAfter ir dominance value block ↔
      ∀ walk, IsWalk (Edge (graph ir).blocks (graph ir).successors) entry block walk →
        ∃ event ∈ (graph ir).trace walk, defines event value := by
  unfold AvailableAfter
  constructor
  · intro available walk ends
    cases found : valueDefinition ir value with
    | none => simp [found] at available
    | some definition =>
      cases definition with
      | op definition =>
        simp only [found] at available
        obtain ⟨home, inHome, available⟩ := available
        refine ⟨.exec definition, exec_mem_trace.mpr ⟨home, ?_, inHome⟩, (names.exec _ _).mpr found⟩
        rcases available with rfl | dominates
        · exact ends.target_mem
        · rw [exact_.dominates_iff] at dominates
          exact dominates.2 _ ends
      | blockArg arg =>
        simp only [found] at available
        obtain ⟨home, blockEq, dominates⟩ := available
        rw [exact_.dominates_iff] at dominates
        exact ⟨.enter home, enter_mem_trace.mpr (dominates.2 _ ends),
          (names.enter _ _).mpr ⟨arg, found, blockEq⟩⟩
  · intro defined
    obtain ⟨walk, ends⟩ := reached
    obtain ⟨event, mem, defines⟩ := defined walk ends
    cases event with
    | exec definition =>
      have found := (names.exec _ _).mp defines
      obtain ⟨home, -, inHome⟩ := exec_mem_trace.mp mem
      simp only [found]
      refine ⟨home, inHome, .inr ?_⟩
      rw [exact_.dominates_iff]
      refine ⟨⟨_, ends⟩, fun other otherEnds => ?_⟩
      obtain ⟨event, mem, defines'⟩ := defined other otherEnds
      cases names.unique defines defines'
      obtain ⟨home', mem', inHome'⟩ := exec_mem_trace.mp mem
      rw [checked.wellFormed.inBlock_unique inHome inHome']
      exact mem'
    | enter home =>
      obtain ⟨arg, found, blockEq⟩ := (names.enter _ _).mp defines
      simp only [found]
      refine ⟨home, blockEq, ?_⟩
      rw [exact_.dominates_iff]
      refine ⟨⟨_, ends⟩, fun other otherEnds => ?_⟩
      obtain ⟨event, mem, defines'⟩ := defined other otherEnds
      cases names.unique defines defines'
      exact enter_mem_trace.mp mem

theorem precedes_iff
    (args : ∀ value arg, valueDefinition ir value = some (.blockArg arg) → arg < blockArgCount ir)
    {operation : Nat} :
    Precedes ir value operation ↔ (∃ entered, defines (.enter entered) value) ∨
      ∃ earlier, earlier < operation ∧ defines (.exec earlier) value := by
  unfold Precedes
  simp only [names.exec, names.enter]
  cases found : valueDefinition ir value with
  | none => simp
  | some definition =>
    cases definition with
    | op definition => simp
    | blockArg arg =>
      obtain ⟨block, -, blockEq, -⟩ := checked.blockArg arg (args value arg found)
      simp [blockEq]

/-- The dominance checks mean that values are defined before their use along every path. -/
theorem usesFit_iff
    (args : ∀ value arg, valueDefinition ir value = some (.blockArg arg) → arg < blockArgCount ir)
    (entryEq : (graph ir).entryBlock = some entry)
    (exact_ : dominance.Exact (graph ir).blocks (graph ir).successors entry) :
    UsesFit ir dominance accepts ↔ DefinedBeforeUse ir defines accepts := by
  have isPath_iff : ∀ block walk, (graph ir).IsPath block walk ↔
      IsWalk (Edge (graph ir).blocks (graph ir).successors) entry block walk := by
    unfold IsPath
    rw [entryEq]
    simp
  constructor
  · rintro ⟨placed, operands, edges⟩
    refine ⟨placed, ?_, ?_, ?_, ?_⟩
    · intro block walk path before operation after split list listEq value mem
      rw [isPath_iff] at path
      obtain ⟨home, rest, suffix, inHome, events⟩ := trace_split split
      have ends := path.of_suffix suffix
      have fits := operands operation home list inHome listEq value mem
      rw [if_pos ((exact_.isReachable_iff home).mpr ⟨_, ends⟩)] at fits
      exact (availableAt_iff checked names exact_ inHome ⟨_, ends⟩).mp fits rest before ends events
    · intro block walk record offset successor path found at_ value mem
      rw [isPath_iff] at path
      have fits := edges block record offset successor found at_
      obtain ⟨i, valueAt⟩ := getElem?_of_mem mem
      obtain ⟨arg, argAt⟩ : ∃ arg, (argsOf ir successor)[i]? = some arg :=
        ⟨_, getElem?_eq_getElem (by
          rw [← fits.length]; exact (lt_of_getElem? valueAt))⟩
      have available := (fits.args i value arg valueAt argAt).2.2
        ((exact_.isReachable_iff block).mpr ⟨_, path⟩)
      exact (availableAfter_iff checked names exact_ ⟨_, path⟩).mp available walk path
    · intro block record offset successor found at_
      have fits := edges block record offset successor found at_
      refine ⟨fits.length, fun i value arg valueAt argAt => ?_⟩
      obtain ⟨width, accepted, -⟩ := fits.args i value arg valueAt argAt
      exact ⟨width, accepted⟩
    · intro operation block inBlock unreached list listEq value mem
      have fits := operands operation block list inBlock listEq value mem
      have notReachable : ¬ dominance.isReachable block = true := by
        rw [exact_.isReachable_iff]
        rintro ⟨walk, ends⟩
        exact unreached walk ((isPath_iff _ _).mpr ends)
      rw [if_neg notReachable] at fits
      exact (precedes_iff checked names args).mp fits
  · rintro ⟨placed, uses, edgeUses, edgeShapes, unreachable⟩
    refine ⟨placed, ?_, ?_⟩
    · intro operation block list inBlock listEq value mem
      split
      · rename_i reachable
        have reached := (exact_.isReachable_iff block).mp reachable
        apply (availableAt_iff checked names exact_ inBlock reached).mpr
        intro walk before ends events
        obtain ⟨before', after, split, events'⟩ := exists_trace_split inBlock walk
        obtain ⟨event, eventMem, defines⟩ := uses block (block :: walk)
          ((isPath_iff _ _).mpr ends) before' operation after split list listEq value mem
        refine ⟨event, ?_, defines⟩
        cases event with
        | enter entered => exact (events.enter entered).mpr ((events'.enter entered).mp eventMem)
        | exec earlier => exact (events.exec earlier).mpr ((events'.exec earlier).mp eventMem)
      · rename_i unreached
        refine (precedes_iff checked names args).mpr
          (unreachable operation block inBlock ?_ list listEq value mem)
        intro walk path
        exact unreached ((exact_.isReachable_iff block).mpr ⟨walk, (isPath_iff _ _).mp path⟩)
    · intro predecessor record offset successor found at_
      obtain ⟨length, shapes⟩ := edgeShapes predecessor record offset successor found at_
      refine ⟨length, fun i value arg valueAt argAt => ?_⟩
      obtain ⟨width, accepted⟩ := shapes i value arg valueAt argAt
      refine ⟨width, accepted, fun reachable => ?_⟩
      have reached := (exact_.isReachable_iff predecessor).mp reachable
      refine (availableAfter_iff checked names exact_ reached).mpr fun walk ends => ?_
      exact edgeUses predecessor walk record offset successor ((isPath_iff _ _).mpr ends) found at_
        value (mem_of_getElem? valueAt)

end

end Meaning

end SsaVerifier

end Fugue.Il
