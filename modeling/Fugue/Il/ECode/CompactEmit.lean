import Fugue.Il.ECode.Compact

/-!
# What compaction emits

The effect of each call that compaction makes on its builder, and from it what the builder holds
once part of the items have been emitted (`Emitted`). The emission follows three numberings at
once, those of the operations, of the block arguments and of the values; `Enumerates` says for
each of them that the items left list what is kept, in order.
-/

namespace Fugue.Il

open Fugue.Lib Fugue.Bv Fugue.Ir List Option

/-- Memory domains are only added, and no space twice. -/
structure MemoryGrows (old new : List ECodeMemoryDomain) : Prop where
  keeps : ∀ domain ∈ old, domain ∈ new
  nodup : (old.map ECodeMemoryDomain.space).Nodup → (new.map ECodeMemoryDomain.space).Nodup

namespace MemoryGrows

theorem refl (domains : List ECodeMemoryDomain) : MemoryGrows domains domains :=
  ⟨fun _ mem => mem, fun nodup => nodup⟩

theorem trans {a b c : List ECodeMemoryDomain} (ab : MemoryGrows a b) (bc : MemoryGrows b c) :
    MemoryGrows a c :=
  ⟨fun domain mem => bc.keeps domain (ab.keeps domain mem), fun nodup => bc.nodup (ab.nodup nodup)⟩

end MemoryGrows

namespace ECodeBuilder

variable (builder : ECodeBuilder)

theorem internMemoryDomain_eq (space : AddressSpaceId) :
    ∃ memoryDomains, builder.internMemoryDomain space = { builder with memoryDomains } ∧
      MemoryGrows builder.memoryDomains memoryDomains ∧ ⟨space⟩ ∈ memoryDomains := by
  unfold internMemoryDomain
  split
  · rename_i known
    obtain ⟨domain, mem, eq⟩ := List.any_eq_true.mp known
    rw [beq_iff_eq] at eq
    exact ⟨_, rfl, .refl _, eq ▸ mem⟩
  · rename_i unknown
    refine ⟨_, rfl, ⟨fun domain mem => mem_append_left _ mem, fun nodup => ?_⟩, by simp⟩
    rw [map_append, nodup_append]
    refine ⟨nodup, by simp, fun old oldMem new newMem eq => ?_⟩
    obtain ⟨domain, mem, rfl⟩ := List.mem_map.mp oldMem
    have same : new = space := by simpa using newMem
    exact unknown (List.any_eq_true.mpr ⟨domain, mem, by rw [beq_iff_eq, eq, same]⟩)

theorem internOpDomain_eq (spec : ECodeOpSpec) :
    ∃ memoryDomains, builder.internOpDomain spec = { builder with memoryDomains } ∧
      MemoryGrows builder.memoryDomains memoryDomains := by
  unfold internOpDomain
  split
  · split
    · obtain ⟨memoryDomains, eq, grows, -⟩ := builder.internMemoryDomain_eq _
      exact ⟨memoryDomains, eq, grows⟩
    · exact ⟨_, rfl, .refl _⟩
  · exact ⟨_, rfl, .refl _⟩

theorem emit_eq (spec : ECodeOpSpec) (operands : List IlValueId) (resultCount : Nat)
    (opsFit : builder.operations.length + 1 ≤ u32Max)
    (valuesFit : builder.values.length + resultCount ≤ u32Max)
    (operandsFit : builder.valueOperands.length + operands.length ≤ u32Max) :
    ∃ memoryDomains, builder.emit spec operands resultCount =
        (.ok (builder.operations.length,
          ⟨builder.values.length, builder.values.length + resultCount⟩),
        { builder with
          values := builder.values ++
            List.replicate resultCount ⟨spec.width, .op builder.operations.length⟩
          valueDomains := builder.valueDomains ++ List.replicate resultCount none
          valueOperands := builder.valueOperands ++ operands
          operations := builder.operations ++ [{
            opcode := spec.opcode
            results := ⟨builder.values.length, builder.values.length + resultCount⟩
            operands := ⟨builder.valueOperands.length,
              builder.valueOperands.length + operands.length⟩
            width := spec.width
            immediate := spec.immediate
            address := spec.address
            addressSpace := spec.addressSpace }]
          memoryDomains }) ∧
      MemoryGrows builder.memoryDomains memoryDomains := by
  have results : IlIndexRange.new builder.values.length (builder.values ++
      List.replicate resultCount
        (⟨spec.width, .op builder.operations.length⟩ : ECodeValue)).length =
      .ok ⟨builder.values.length, builder.values.length + resultCount⟩ := by
    rw [length_append, length_replicate, IlIndexRange.new_eq_ok]
    exact ⟨Nat.le_add_right _ _, valuesFit, rfl⟩
  have pooled : IlIndexRange.new builder.valueOperands.length
      (builder.valueOperands ++ operands).length =
      .ok ⟨builder.valueOperands.length, builder.valueOperands.length + operands.length⟩ := by
    rw [length_append, IlIndexRange.new_eq_ok]
    exact ⟨Nat.le_add_right _ _, operandsFit, rfl⟩
  obtain ⟨memoryDomains, interned, grows⟩ := internOpDomain_eq { builder with
    values := builder.values ++
      List.replicate resultCount ⟨spec.width, .op builder.operations.length⟩
    valueDomains := builder.valueDomains ++ List.replicate resultCount none
    valueOperands := builder.valueOperands ++ operands } spec
  refine ⟨memoryDomains, ?_, grows⟩
  simp only [emit, tryFromIndex_ok opsFit, poolAppend, results, pooled, interned]

theorem emitEdgeArgs_eq (args : List IlValueId)
    (fits : builder.edgeArgValues.length + args.length ≤ u32Max) :
    builder.emitEdgeArgs args =
      (.ok ⟨builder.edgeArgValues.length, builder.edgeArgValues.length + args.length⟩,
        { builder with
          edgeArgValues := builder.edgeArgValues ++ args
          edgeArgs := builder.edgeArgs ++
            [⟨builder.edgeArgValues.length, builder.edgeArgValues.length + args.length⟩] }) := by
  have pooled : IlIndexRange.new builder.edgeArgValues.length
      (builder.edgeArgValues ++ args).length =
      .ok ⟨builder.edgeArgValues.length, builder.edgeArgValues.length + args.length⟩ := by
    rw [length_append, IlIndexRange.new_eq_ok]
    exact ⟨Nat.le_add_right _ _, fits, rfl⟩
  simp only [emitEdgeArgs, poolAppend, pooled]

end ECodeBuilder

namespace ECodeCompaction

variable (ir : ECodeIr)

theorem setDomain_eq (builder : ECodeBuilder) (old : IlValueId)
    (before after : List (Option ECodeDomain))
    (slots : builder.valueDomains = before ++ none :: after) :
    ∃ memoryDomains, setDomain ir builder old before.length = some { builder with
        valueDomains := before ++ ir.valueDomain old :: after
        memoryDomains } ∧
      MemoryGrows builder.memoryDomains memoryDomains := by
  unfold setDomain
  cases has : ir.valueDomain old with
  | none =>
    refine ⟨builder.memoryDomains, ?_, .refl _⟩
    rw [← slots]
  | some domain =>
    have slot : builder.valueDomains[before.length]? = some none := by simp [slots]
    have stored : builder.valueDomains.set before.length (some domain) =
        before ++ some domain :: after := by simp [slots]
    simp only [ECodeBuilder.setValueDomain, slot, stored]
    cases domain with
    | memory space =>
      obtain ⟨memoryDomains, interned, grows, -⟩ := ECodeBuilder.internMemoryDomain_eq
        { builder with valueDomains := before ++ some (.memory space) :: after } space
      exact ⟨memoryDomains, by simp only [interned]; rfl, grows⟩
    | flag storage => exact ⟨_, rfl, .refl _⟩
    | register storage => exact ⟨_, rfl, .refl _⟩

theorem setResultDomains_eq (count : Nat) : ∀ (builder : ECodeBuilder) (start : Nat)
    (before : List (Option ECodeDomain)),
    builder.valueDomains = before ++ List.replicate count none →
    start + count ≤ u32Max → before.length + count ≤ u32Max →
    ∃ memoryDomains, ((List.range' start count).zip (List.range' before.length count)).foldlM
        (setResultDomain ir) builder = some { builder with
          valueDomains := before ++ (List.range' start count).map ir.valueDomain
          memoryDomains } ∧
      MemoryGrows builder.memoryDomains memoryDomains := by
  induction count with
  | zero =>
    intro builder start before slots _ _
    refine ⟨builder.memoryDomains, ?_, .refl _⟩
    rw [replicate_zero] at slots
    simp only [range'_zero, zip_nil_left, foldlM_nil, map_nil, ← slots]
    rfl
  | succ count ih =>
    intro builder start before slots startFits newFits
    obtain ⟨first, run, growsFirst⟩ := setDomain_eq ir builder start _ _ slots
    obtain ⟨memoryDomains, rest, growsRest⟩ := ih { builder with
        valueDomains := before ++ ir.valueDomain start :: List.replicate count none
        memoryDomains := first } (start + 1) (before ++ [ir.valueDomain start]) (by simp)
      (by omega) (by rw [length_append, length_singleton]; omega)
    refine ⟨memoryDomains, ?_, growsFirst.trans growsRest⟩
    have head : setResultDomain ir builder (start, before.length) = some { builder with
        valueDomains := before ++ ir.valueDomain start :: List.replicate count none
        memoryDomains := first } := by
      simp only [setResultDomain,
        tryFromIndex_ok (show start + 1 ≤ u32Max by omega),
        tryFromIndex_ok (show before.length + 1 ≤ u32Max by omega), Except.toOption,
        some_bind, run]
    rw [range'_succ, range'_succ, zip_cons_cons, foldlM_cons, head]
    rw [length_append, length_singleton] at rest
    simp only [some_bind, rest]
    simp

/-- A block argument comes out with its domain. -/
theorem emitArg_eq (builder : ECodeBuilder) (arg : ECodeBlockArg)
    (domains : builder.valueDomains.length = builder.values.length)
    (argsFit : builder.blockArgs.length + 1 ≤ u32Max)
    (valuesFit : builder.values.length + 1 ≤ u32Max) :
    ∃ memoryDomains, emitArg ir builder arg = some { builder with
        values := builder.values ++ [⟨arg.width, .blockArg builder.blockArgs.length⟩]
        valueDomains := builder.valueDomains ++ [ir.valueDomain arg.value]
        blockArgs := builder.blockArgs ++ [⟨arg.block, builder.values.length, arg.width⟩]
        memoryDomains } ∧
      MemoryGrows builder.memoryDomains memoryDomains := by
  obtain ⟨memoryDomains, run, grows⟩ := setDomain_eq ir { builder with
    values := builder.values ++ [⟨arg.width, .blockArg builder.blockArgs.length⟩]
    valueDomains := builder.valueDomains ++ [none]
    blockArgs := builder.blockArgs ++ [⟨arg.block, builder.values.length, arg.width⟩] }
    arg.value builder.valueDomains [] rfl
  refine ⟨memoryDomains, ?_, grows⟩
  rw [domains] at run
  simp only [emitArg, ECodeBuilder.emitBlockArg, tryFromIndex_ok argsFit,
    tryFromIndex_ok valuesFit, Except.toOption, some_bind, run]

theorem remapValue_eq {kept : Nat → Bool} {count value : Nat} (fits : count ≤ u32Max)
    (lt : value < count) : remapValue (.fromKept count kept) value = some (rank kept value) := by
  have le : rank kept value ≤ value := rank_le_self
  have small : rank kept value + 1 ≤ u32Max := by omega
  unfold remapValue
  rw [IlIndexMapper.fromKept_mapIndex lt.le]
  show (tryFromIndex "value" (rank kept value)).toOption = _
  rw [tryFromIndex_ok small]
  rfl

end ECodeCompaction

/-! ## Wide constants -/

namespace ECodeOp

/-- The operation is a constant that is too wide for its immediate. -/
def IsWideConstant (operation : ECodeOp) : Prop :=
  operation.opcode = .constant ∧ 64 < operation.width

instance (operation : ECodeOp) : Decidable operation.IsWideConstant :=
  inferInstanceAs (Decidable (_ ∧ _))

variable {operation : ECodeOp}

theorem constantBytes_eq (wide : operation.IsWideConstant)
    (storage : List UInt8) : operation.constantBytes storage =
      storedBytes storage operation.immediate operation.constantLength := by
  unfold constantBytes storedBytes
  rw [if_neg]
  intro narrow
  rcases narrow with other | le
  · exact other wide.1
  · exact absurd wide.2 (by omega)

theorem constant_spec (wide : operation.IsWideConstant)
    (le : operation.width ≤ 2 ^ 31 - 8) {storage bytes : List UInt8}
    (stored : storedBytes storage operation.immediate operation.constantLength = some bytes) :
    ∃ value, operation.constant storage = some (some value) ∧
      value.Stores (2 * operation.width) (BitVec.ofLeBytes bytes % 2 ^ operation.width) := by
  have length : bytes.length = (operation.width + 7) / 8 := storedBytes_length stored
  have pos : 64 < operation.width := wide.2
  have fits : bytes.length * 8 ≤ maxBits := by
    unfold maxBits
    omega
  have notEmpty : bytes ≠ [] := by
    rw [← length_pos_iff]
    omega
  obtain ⟨raw, rawEq, rawStores⟩ := BitVec.fromLeBytesWith_spec bytes notEmpty fits
  obtain ⟨value, castEq, valueStores⟩ := @BitVec.cast_spec raw operation.width
    rawStores.valid (by omega) (by unfold maxBits; omega)
  have unsigned : raw.isSigned = false := by
    rw [BitVec.isSigned, rawStores.metadata_eq]
    exact BitVec.packed_sign false _
  have denote : residue operation.width raw.denote =
      BitVec.ofLeBytes bytes % 2 ^ operation.width := by
    rw [BitVec.denote, unsigned, if_neg (by simp), residue_natCast, rawStores.toNat_eq,
      Nat.mod_mod_of_dvd]
    exact Nat.pow_dvd_pow 2 (by omega)
  rw [unsigned, denote] at valueStores
  refine ⟨value, ?_, valueStores⟩
  have notOther : ¬ operation.opcode ≠ .constant := fun other => other wide.1
  have notNarrow : ¬ operation.width ≤ 64 := by omega
  rw [constant, if_neg notOther, if_neg notNarrow, constantBytes_eq wide, stored]
  simp [rawEq, some_bind, castEq, Option.pure_def]

/-- The immediate `copied` names, in the new storage, the value that the operation had in the old
one; for all other operations it is the same number. -/
def ImmediateCopied (operation : ECodeOp) (old new : List UInt8) (copied : Nat) : Prop :=
  if operation.IsWideConstant then
    ∃ value, operation.constant old = some (some value) ∧
      value.Stores (2 * operation.width) value.toNat ∧
      storedBytes new copied operation.constantLength =
        some (BitVec.leBytes operation.constantLength value.toNat)
  else copied = operation.immediate

theorem ImmediateCopied.append {old new : List UInt8} {copied : Nat}
    (h : operation.ImmediateCopied old new copied) (suffix : List UInt8) :
    operation.ImmediateCopied old (new ++ suffix) copied := by
  unfold ImmediateCopied at *
  split at h
  · rename_i wide
    obtain ⟨value, eq, stores, stored⟩ := h
    rw [if_pos wide]
    exact ⟨value, eq, stores, storedBytes_append suffix stored⟩
  · rename_i narrow
    rw [if_neg narrow]
    exact h

theorem ImmediateCopied.constant_eq {operation copy : ECodeOp} {old new : List UInt8}
    (opcode : copy.opcode = operation.opcode) (width : copy.width = operation.width)
    (le : operation.IsWideConstant → operation.width ≤ 2 ^ 31 - 8)
    (h : operation.ImmediateCopied old new copy.immediate) :
    copy.constant new = operation.constant old := by
  unfold ImmediateCopied at h
  split at h
  · rename_i wide
    obtain ⟨value, eq, stores, stored⟩ := h
    have copyWide : copy.IsWideConstant := by
      unfold IsWideConstant
      rw [opcode, width]
      exact wide
    have sameLength : copy.constantLength = operation.constantLength := by
      unfold constantLength
      rw [width]
    obtain ⟨value', eq', stores'⟩ := constant_spec copyWide (by rw [width]; exact le wide)
      (by rw [sameLength]; exact stored)
    have lt : value.toNat < 2 ^ operation.width := by
      have := stores.valid.toNat_lt
      rwa [stores.bits_eq, show (2 * operation.width) >>> 1 = operation.width from
        BitVec.packed_bits false _] at this
    have bytes : value.toNat < 256 ^ operation.constantLength := by
      apply lt_of_lt_of_le lt
      rw [show (256 : Nat) = 2 ^ 8 from rfl, ← pow_mul]
      apply Nat.pow_le_pow_right (by decide)
      unfold constantLength
      omega
    rw [width, BitVec.ofLeBytes_leBytes, Nat.mod_eq_of_lt bytes, Nat.mod_eq_of_lt lt] at stores'
    rw [eq', eq, stores'.eq stores]
  · rename_i narrow
    unfold constant constantBytes
    rw [opcode, width]
    split
    · rfl
    · rename_i isConstant
      split
      · rw [h]
      · exact absurd ⟨not_not.mp isConstant, by omega⟩ narrow

end ECodeOp

namespace ECodeCompaction

theorem emitImmediate_eq {ir : ECodeIr} (builder : ECodeBuilder) {operation : ECodeOp}
    (indexes : builder.constants.Indexes builder.constantStorage)
    (stored : operation.IsWideConstant →
      operation.immediate + operation.constantLength ≤ ir.constantStorage.length)
    (le : operation.IsWideConstant → operation.width ≤ 2 ^ 31 - 8) :
    ∃ immediate constants suffix, emitImmediate ir builder operation = some (immediate,
        { builder with constants, constantStorage := builder.constantStorage ++ suffix }) ∧
      constants.Indexes (builder.constantStorage ++ suffix) ∧
      operation.ImmediateCopied ir.constantStorage (builder.constantStorage ++ suffix)
        immediate := by
  unfold emitImmediate
  by_cases wide : operation.IsWideConstant
  · have condition : operation.opcode = .constant ∧ 64 < operation.width := wide
    have bytes : storedBytes ir.constantStorage operation.immediate operation.constantLength =
        some _ := if_pos (stored wide)
    obtain ⟨value, eq, stores⟩ := ECodeOp.constant_spec wide (le wide) bytes
    rw [if_pos condition]
    have bits : value.bits = operation.width := by
      rw [stores.bits_eq]
      exact BitVec.packed_bits false _
    obtain ⟨offset, constants, suffix, run, indexes', found⟩ :=
      IlConstantInterner.intern_spec indexes stores.valid (by rw [bits]; exact wide.2)
    refine ⟨offset, constants, suffix, ?_, indexes', ?_⟩
    · simp [eq, some_bind, ECodeBuilder.internConstant, run, Option.pure_def]
    · rw [ECodeOp.ImmediateCopied, if_pos wide]
      rw [bits] at found
      exact ⟨value, eq, ⟨stores.valid, stores.metadata_eq, rfl⟩, found⟩
  · have narrow : ¬ (operation.opcode = .constant ∧ 64 < operation.width) := wide
    rw [if_neg narrow]
    refine ⟨operation.immediate, builder.constants, [], by rw [append_nil], ?_, ?_⟩
    · rw [append_nil]
      exact indexes
    · rw [ECodeOp.ImmediateCopied, if_neg wide]

/-- An operation comes out with its operands remapped and the domains of its results. -/
theorem emitOp_eq {ir : ECodeIr} (builder : ECodeBuilder) {operation : ECodeOp} {kept : Nat → Bool}
    (indexes : builder.constants.Indexes builder.constantStorage)
    (stored : operation.IsWideConstant →
      operation.immediate + operation.constantLength ≤ ir.constantStorage.length)
    (le : operation.IsWideConstant → operation.width ≤ 2 ^ 31 - 8)
    (values_le : ir.values.length ≤ u32Max)
    (operands_lt : ∀ operand ∈ ir.opOperandsFor operation, operand < ir.values.length)
    (ordered : operation.results.start ≤ operation.results.stop)
    (results_le : operation.results.stop ≤ ir.values.length)
    (domains : builder.valueDomains.length = builder.values.length)
    (opsFit : builder.operations.length + 1 ≤ u32Max)
    (valuesFit : builder.values.length + operation.results.len ≤ u32Max)
    (operandsFit : builder.valueOperands.length + (ir.opOperandsFor operation).length ≤ u32Max) :
    ∃ immediate constants suffix memoryDomains,
      emitOp ir (.fromKept ir.values.length kept) builder operation = some { builder with
        values := builder.values ++ List.replicate operation.results.len
          ⟨operation.width, .op builder.operations.length⟩
        valueDomains := builder.valueDomains ++
          (List.range' operation.results.start operation.results.len).map ir.valueDomain
        valueOperands := builder.valueOperands ++ (ir.opOperandsFor operation).map (rank kept)
        operations := builder.operations ++ [{
          opcode := operation.opcode
          results := ⟨builder.values.length, builder.values.length + operation.results.len⟩
          operands := ⟨builder.valueOperands.length,
            builder.valueOperands.length + (ir.opOperandsFor operation).length⟩
          width := operation.width
          immediate
          address := operation.address
          addressSpace := operation.addressSpace }]
        memoryDomains
        constants
        constantStorage := builder.constantStorage ++ suffix } ∧
      constants.Indexes (builder.constantStorage ++ suffix) ∧
      operation.ImmediateCopied ir.constantStorage (builder.constantStorage ++ suffix) immediate ∧
      MemoryGrows builder.memoryDomains memoryDomains := by
  obtain ⟨immediate, constants, suffix, immediateRun, indexes', copied⟩ :=
    emitImmediate_eq builder indexes stored le
  have operandsRun : (ir.opOperandsFor operation).mapM
      (remapValue (.fromKept ir.values.length kept)) =
        some ((ir.opOperandsFor operation).map (rank kept)) :=
    mapM_eq_some fun operand mem => remapValue_eq values_le (operands_lt operand mem)
  obtain ⟨interned, emitRun, growsEmit⟩ := ECodeBuilder.emit_eq
    { builder with constants, constantStorage := builder.constantStorage ++ suffix }
    { opcode := operation.opcode
      width := operation.width
      immediate
      address := operation.address
      addressSpace := operation.addressSpace }
    ((ir.opOperandsFor operation).map (rank kept)) operation.results.len opsFit valuesFit
    (by rw [length_map]; exact operandsFit)
  rw [length_map] at emitRun
  obtain ⟨memoryDomains, domainsRun, growsDomains⟩ := setResultDomains_eq ir
    operation.results.len _ operation.results.start builder.valueDomains
    (congrArg (fun pair => pair.2.valueDomains) emitRun)
    (by unfold IlIndexRange.len; omega) (by rw [domains]; exact valuesFit)
  rw [emitRun] at domainsRun growsDomains
  refine ⟨immediate, constants, suffix, memoryDomains, ?_, indexes', copied,
    growsEmit.trans growsDomains⟩
  have resultsLen : IlIndexRange.len
      ⟨builder.values.length, builder.values.length + operation.results.len⟩ =
        operation.results.len := Nat.add_sub_cancel_left _ _
  rw [domains] at domainsRun
  simp only [emitOp, immediateRun, some_bind, operandsRun, emitRun, Except.toOption, resultsLen]
  exact domainsRun

end ECodeCompaction

end Fugue.Il
