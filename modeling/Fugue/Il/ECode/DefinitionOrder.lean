import Fugue.Il.ECode.VerifyTables
import Mathlib.Order.Lattice.Nat

/-!
# The order of definitions

In a verified form no operation uses its own result, through however many other operations: the
operations have ranks, and an operand that an operation defines comes from one of a lower rank. In a
block that can be reached the rank is the length of a shortest walk to it, and then the place in the
block; the other blocks come behind.
-/

namespace Fugue.Il.ECodeIr

open Fugue.Lib SsaVerifier List Option

variable {ir : ECodeIr}

/-- The operands of an operation that are results of operations come from operations of a lower
rank. -/
def Ranked (ir : ECodeIr) (rank : IlOpId → Nat) : Prop :=
  ∀ (operation : Nat) (record : ECodeOp), ir.operations[operation]? = some record →
    ∀ operand ∈ ir.opOperandsFor record, ∀ definition : Nat,
      SsaIl.valueDefinition ir operand = some (.op definition) → rank definition < rank operation

theorem ranked_of_linearUses (ok : verifyLinearUses ir = .ok ()) : ir.Ranked id := by
  intro operation record found operand mem definition defined
  have lt := lt_of_getElem? found
  have checked := forM_eq_ok.mp ok operation (mem_range.mpr lt)
  obtain ⟨id, idEq, checked⟩ := bind_eq_ok.mp checked
  obtain ⟨same, -⟩ := tryFromIndex_eq_ok (mapError_eq_ok.mp idEq)
  rw [same] at checked
  obtain ⟨operands, operandsEq, precedes⟩ := verifyOperandsPrecede_eq_ok.mp checked
  have operandsEq : (ir.operations[operation]?).map ir.opOperandsFor = some operands := operandsEq
  rw [found, map_some, Option.some.injEq] at operandsEq
  have before := precedes operand (operandsEq ▸ mem)
  unfold Precedes at before
  rw [defined] at before
  exact before

section Placed

/-- The lengths of the walks that end in a block with the operation. -/
def walkLengths (ir : ECodeIr) (operation : IlOpId) : Set Nat :=
  {length | ∃ block walk, ir.graph.IsPath block walk ∧ ir.graph.InBlock operation block ∧
    walk.length = length}

noncomputable def reachedRank (ir : ECodeIr) (operation : IlOpId) : Nat :=
  sInf (ir.walkLengths operation) * ir.operations.length + operation

open Classical in
/-- Operations that no walk reaches come behind all others. -/
noncomputable def definitionRank (ir : ECodeIr) (operation : IlOpId) : Nat :=
  if (ir.walkLengths operation).Nonempty then ir.reachedRank operation
  else (Finset.range ir.operations.length).sup ir.reachedRank + 1 + operation

theorem event_eq_exec (checks : DefinitionChecks ir) {operand : IlValueId} {definition : IlOpId}
    (defined : SsaIl.valueDefinition ir operand = some (.op definition)) {event : Event}
    (defines : ir.Defines event operand) : event = .exec definition := by
  cases event with
  | enter block =>
    obtain ⟨arg, argDefined, -⟩ := (checks.namesDefinitions.2 block operand).mp defines
    rw [defined] at argDefined
    cases argDefined
  | exec operation =>
    have same := (checks.namesDefinitions.1 operation operand).mp defines
    rw [defined] at same
    cases same
    rfl

/-- On a shortest walk to an operation its operands are defined on a shorter walk, or before it in
its block. -/
theorem reachedRank_lt (checks : DefinitionChecks ir) {accepts : IlValueId → IlValueId → Prop}
    (before : DefinedBeforeUse ir ir.Defines accepts) {operation definition : Nat}
    {record : ECodeOp} (found : ir.operations[operation]? = some record) {operand : IlValueId}
    (mem : operand ∈ ir.opOperandsFor record)
    (defined : SsaIl.valueDefinition ir operand = some (.op definition))
    (reached : (ir.walkLengths operation).Nonempty) :
    (ir.walkLengths definition).Nonempty ∧
      ir.reachedRank definition < ir.reachedRank operation := by
  obtain ⟨block, walk, path, inBlock, shortest⟩ := Nat.sInf_mem reached
  obtain ⟨entry, entryEq, ends⟩ := path
  obtain ⟨rest, rfl⟩ := ends.eq_cons
  obtain ⟨first, after, split⟩ := append_of_mem (mem_opsOf.mpr inBlock)
  have trace : ir.graph.trace (block :: rest) =
      (ir.graph.trace rest ++ .enter block :: first.map .exec) ++
        .exec operation :: after.map .exec := by
    rw [IlGraph.trace, split]
    simp
  have operandsEq : SsaIl.opOperands ir operation = some (ir.opOperandsFor record) := by
    show (ir.operations[operation]?).map ir.opOperandsFor = _
    rw [found, map_some]
  obtain ⟨event, eventMem, defines⟩ := before.uses block (block :: rest) ⟨entry, entryEq, ends⟩ _
    operation _ trace _ operandsEq operand mem
  obtain rfl := event_eq_exec checks defined defines
  have definitionLt : definition < ir.operations.length := checks.checked.valueOp _ _ defined
  have shorter : ∀ length ∈ ir.walkLengths definition, length < (block :: rest).length →
      (ir.walkLengths definition).Nonempty ∧
        ir.reachedRank definition < ir.reachedRank operation := by
    intro length within lt
    have le : sInf (ir.walkLengths definition) ≤ length := Nat.sInf_le within
    refine ⟨⟨length, within⟩, ?_⟩
    have next : sInf (ir.walkLengths definition) + 1 ≤ sInf (ir.walkLengths operation) := by omega
    have scaled := Nat.mul_le_mul_right ir.operations.length next
    rw [Nat.add_mul, one_mul] at scaled
    unfold reachedRank
    omega
  rcases mem_append.mp eventMem with earlier | here
  · obtain ⟨home, homeMem, inHome⟩ := exec_mem_trace.mp earlier
    obtain ⟨short, shortEnds, suffix⟩ := ends.upTo (mem_cons_of_mem block homeMem)
    by_cases same : home = block
    · -- the walk to an earlier visit of the block would be shorter
      cases ends with
      | start => cases homeMem
      | step prior last =>
        obtain ⟨short', shortEnds', suffix'⟩ := prior.upTo homeMem
        exact shorter short'.length ⟨home, short', ⟨entry, entryEq, shortEnds'⟩, inHome, rfl⟩
          (Nat.lt_succ_of_le suffix'.length_le)
    · rcases suffix_cons_iff.mp suffix with rfl | within
      · obtain ⟨tail, eq⟩ := shortEnds.eq_cons
        exact absurd (List.cons.inj eq).1.symm same
      · exact shorter short.length ⟨home, short, ⟨entry, entryEq, shortEnds⟩, inHome, rfl⟩
          (Nat.lt_succ_of_le within.length_le)
  · rcases mem_cons.mp here with impossible | here
    · cases impossible
    · obtain ⟨other, otherMem, eq⟩ := List.mem_map.mp here
      cases eq
      obtain ⟨inHome, lt⟩ := (mem_before_iff split).mp otherMem
      have lt : definition < operation := lt
      have within : (block :: rest).length ∈ ir.walkLengths definition :=
        ⟨block, _, ⟨entry, entryEq, ends⟩, inHome, rfl⟩
      refine ⟨⟨_, within⟩, ?_⟩
      have le := Nat.sInf_le within
      rw [shortest] at le
      have scaled := Nat.mul_le_mul_right ir.operations.length le
      unfold reachedRank
      omega

theorem ranked_of_definedBeforeUse (checks : DefinitionChecks ir)
    {accepts : IlValueId → IlValueId → Prop} (before : DefinedBeforeUse ir ir.Defines accepts) :
    ir.Ranked ir.definitionRank := by
  intro operation record found operand mem definition defined
  have definitionLt : definition < ir.operations.length := checks.checked.valueOp _ _ defined
  have operationLt := lt_of_getElem? found
  unfold definitionRank
  by_cases reached : (ir.walkLengths operation).Nonempty
  · obtain ⟨reached', lt⟩ := reachedRank_lt checks before found mem defined reached
    rwa [if_pos reached, if_pos reached']
  · split
    · have le := Finset.le_sup (f := ir.reachedRank) (Finset.mem_range.mpr definitionLt)
      omega
    · obtain ⟨block, inBlock⟩ := before.placed operation operationLt
      have operandsEq : SsaIl.opOperands ir operation = some (ir.opOperandsFor record) := by
        show (ir.operations[operation]?).map ir.opOperandsFor = _
        rw [found, map_some]
      rcases before.unreachable operation block inBlock
          (fun walk path => reached ⟨_, block, walk, path, inBlock, rfl⟩) _ operandsEq operand mem
        with ⟨entered, defines⟩ | ⟨earlier, lt, defines⟩
      · cases event_eq_exec checks defined defines
      · cases event_eq_exec checks defined defines
        omega

end Placed

theorem exists_ranked (verified : ir.verify = some (.ok ())) : ∃ rank, ir.Ranked rank := by
  unfold verify at verified
  cases tables : ir.verifyTables with
  | error error =>
    rw [tables] at verified
    cases verified
  | ok _ =>
    rw [tables] at verified
    have checks := definitionChecks_of_tables tables
    by_cases nonempty : ir.graph.blocks = []
    · have linear : verifyUses ir VerifyError.fromSsa ir.verifyEdgeArg =
          some ((verifyLinearUses ir).mapError VerifyError.fromSsa) := by
        unfold verifyUses
        rw [show SsaIl.graph ir = ir.graph from rfl, nonempty]
        rfl
      exact ⟨id, ranked_of_linearUses
        (mapError_eq_ok.mp (Option.some.inj (linear.symm.trans verified)))⟩
    · exact ⟨_, ranked_of_definedBeforeUse checks
        ((verifyUses_exact ir .fromSsa ir.verifyEdgeArg nonempty checks).1 verified)⟩

end Fugue.Il.ECodeIr
