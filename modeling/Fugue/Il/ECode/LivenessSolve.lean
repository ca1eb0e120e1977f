import Fugue.Il.ECode.LivenessRows
import Mathlib.Data.Finset.Prod
import Mathlib.Data.Finset.Card

/-!
# The rounds of the liveness solver

A visit writes what the current rows make of a block. The rows only grow, and stay below what is
live, so the rounds end; where nothing changes any more the rows meet the equations of liveness,
and hold what is live by `Flow.LiveIn.least`.
-/

namespace Fugue.Il

open Fugue.Lib List FixedBitSet

namespace LivenessMatrix

variable {rowCount valueCount : Nat} {matrix next : LivenessMatrix}

instance (matrix : LivenessMatrix) (row value : Nat) : Decidable (matrix.Has row value) :=
  inferInstanceAs (Decidable (_ = true))

/-- The cells of a matrix of the size that are set. -/
def cells (rowCount valueCount : Nat) (matrix : LivenessMatrix) : Finset (Nat × Nat) :=
  (Finset.range rowCount ×ˢ Finset.range valueCount).filter fun cell => matrix.Has cell.1 cell.2

theorem card_cells_le (rowCount valueCount : Nat) (matrix : LivenessMatrix) :
    (matrix.cells rowCount valueCount).card ≤ rowCount * valueCount := by
  apply (Finset.card_filter_le _ _).trans
  rw [Finset.card_product, Finset.card_range, Finset.card_range]

theorem cells_subset (rowCount valueCount : Nat)
    (more : ∀ row value, matrix.Has row value → next.Has row value) :
    matrix.cells rowCount valueCount ⊆ next.cells rowCount valueCount :=
  Finset.monotone_filter_right _ fun cell _ has => more cell.1 cell.2 has

theorem Sized.update (sized : matrix.Sized rowCount valueCount) {row : Nat} (lt : row < rowCount)
    {old bits : List Bool} (rowEq : matrix.row row = some old) (length : bits.length = valueCount)
    (grows : ∀ value, matrix.Has row value → bits.getD value false = true)
    (written : next = if old ≠ bits then matrix.setRow row bits else matrix) :
    next.Sized rowCount valueCount ∧
      (∀ other value, next.Has other value ↔
        if other = row then bits.getD value false = true else matrix.Has other value) ∧
      (∀ other value, matrix.Has other value → next.Has other value) ∧
      (old = bits ∧ next = matrix ∨ old ≠ bits ∧
        (matrix.cells rowCount valueCount).card < (next.cells rowCount valueCount).card) := by
  obtain ⟨found, foundEq, oldLength, has⟩ := sized.row_eq lt
  obtain rfl : found = old := Option.some.inj (foundEq.symm.trans rowEq)
  by_cases same : found = bits
  · subst same
    rw [if_neg (fun apart => apart rfl)] at written
    subst written
    refine ⟨sized, fun other value => ?_, fun _ _ => id, .inl ⟨rfl, rfl⟩⟩
    split
    · rename_i at_
      rw [has, at_]
    · rfl
  · rw [if_pos same] at written
    subst written
    have hasNext : ∀ other value, (matrix.setRow row bits).Has other value ↔
        if other = row then bits.getD value false = true else matrix.Has other value :=
      sized.has_setRow lt
    have more : ∀ other value, matrix.Has other value →
        (matrix.setRow row bits).Has other value := by
      intro other value old
      rw [hasNext]
      split
      · rename_i at_
        subst at_
        exact grows value old
      · exact old
    refine ⟨sized.setRow length row, hasNext, more, .inr ⟨same, ?_⟩⟩
    obtain ⟨value, newly, unset⟩ : ∃ value, bits.getD value false = true ∧
        ¬ matrix.Has row value := by
      by_contra none
      refine same (ext_getD (oldLength.trans length.symm) fun value => ?_)
      rw [has]
      refine ⟨grows value, fun newly => ?_⟩
      by_contra unset
      exact none ⟨value, newly, unset⟩
    have within := cells_subset rowCount valueCount more
    refine Finset.card_lt_card ((Finset.ssubset_iff_of_subset within).mpr
      ⟨(row, value), ?_, fun mem => unset (Finset.mem_filter.mp mem).2⟩)
    rw [cells, Finset.mem_filter, Finset.mem_product, Finset.mem_range, Finset.mem_range, hasNext,
      if_pos rfl]
    exact ⟨⟨lt, length ▸ lt_of_getD newly⟩, newly⟩

end LivenessMatrix

namespace ECodeLivenessSolver

variable {ir : ECodeIr} {solver : ECodeLivenessSolver} {s t : State}

/-- What leaves a block, by the rows of the matrix. -/
def NextOut (ir : ECodeIr) (liveIn : LivenessMatrix) (block value : Nat) : Prop :=
  ir.flow.exitUses block value ∨ ∃ target, ir.flow.edge block target ∧ liveIn.Has target value

/-- What enters a block, by the rows of the matrix. -/
def NextIn (ir : ECodeIr) (liveIn : LivenessMatrix) (block value : Nat) : Prop :=
  ¬ ir.flow.entryDefines block value ∧ (ir.flow.Reads value (ir.flow.code block) ∨
    ¬ ir.flow.Writes value (ir.flow.code block) ∧ NextOut ir liveIn block value)

section

variable {liveIn more : LivenessMatrix} {block value : Nat}

theorem NextOut.mono (grows : ∀ row value, liveIn.Has row value → more.Has row value)
    (out : NextOut ir liveIn block value) : NextOut ir more block value :=
  out.imp_right (Exists.imp fun target => And.imp_right (grows target value))

theorem NextIn.mono (grows : ∀ row value, liveIn.Has row value → more.Has row value)
    (enters : NextIn ir liveIn block value) : NextIn ir more block value :=
  ⟨enters.1, enters.2.imp_right fun kept => ⟨kept.1, kept.2.mono grows⟩⟩

theorem NextOut.live (sound : ∀ row value, liveIn.Has row value → ir.flow.LiveIn row value)
    (out : NextOut ir liveIn block value) : ir.flow.LiveOut block value :=
  out.imp_right (Exists.imp fun target => And.imp_right (sound target value))

theorem NextIn.live (sound : ∀ row value, liveIn.Has row value → ir.flow.LiveIn row value)
    (enters : NextIn ir liveIn block value) : ir.flow.LiveIn block value :=
  Flow.liveIn_iff.mpr ⟨enters.1, enters.2.imp_right fun kept => ⟨kept.1, kept.2.live sound⟩⟩

end

/-- The rows lie below what is live, and below what the next visits write. -/
structure Inv (ir : ECodeIr) (s : State) : Prop where
  inSized : s.liveIn.Sized ir.graph.blocks.length ir.values.length
  outSized : s.liveOut.Sized ir.graph.blocks.length ir.values.length
  in_sound : ∀ block value, s.liveIn.Has block value → ir.flow.LiveIn block value
  out_sound : ∀ block value, s.liveOut.Has block value → ir.flow.LiveOut block value
  in_grows : ∀ block value, s.liveIn.Has block value → NextIn ir s.liveIn block value
  out_grows : ∀ block value, s.liveOut.Has block value → NextOut ir s.liveIn block value

/-- A visit of the block writes nothing new. -/
def Settled (ir : ECodeIr) (s : State) (block : IlBlockId) : Prop :=
  ∀ value, (NextOut ir s.liveIn block value → s.liveOut.Has block value) ∧
    (NextIn ir s.liveIn block value → s.liveIn.Has block value)

/-- The number of bits that are set. -/
def State.size (ir : ECodeIr) (s : State) : Nat :=
  (s.liveIn.cells ir.graph.blocks.length ir.values.length).card +
    (s.liveOut.cells ir.graph.blocks.length ir.values.length).card

theorem State.size_le : s.size ir ≤ 2 * (ir.graph.blocks.length * ir.values.length) := by
  have first := LivenessMatrix.card_cells_le ir.graph.blocks.length ir.values.length s.liveIn
  have second := LivenessMatrix.card_cells_le ir.graph.blocks.length ir.values.length s.liveOut
  unfold State.size
  omega

theorem edge_iff {record : IlBlock} {block target : IlBlockId}
    (found : ir.graph.blocks[block]? = some record) :
    ir.flow.edge block target ↔ target ∈ record.successors.slice ir.graph.successors := by
  show target ∈ successorsFor ir.graph.blocks ir.graph.successors block ↔ _
  rw [successorsFor, found]

theorem unionRows_spec {liveIn : LivenessMatrix} {rowCount valueCount : Nat}
    (sized : liveIn.Sized rowCount valueCount) : ∀ (targets : List IlBlockId) (bits : List Bool),
    bits.length = valueCount → (∀ target ∈ targets, target < rowCount) →
    ∃ out, targets.foldlM (fun liveOut successor => do
        return unionWith liveOut (← liveIn.row successor)) bits = some out ∧
      out.length = valueCount ∧ ∀ value, out.getD value false = true ↔
        bits.getD value false = true ∨ ∃ target ∈ targets, liveIn.Has target value
  | [], bits, length, _ => ⟨bits, rfl, length, by simp⟩
  | target :: targets, bits, length, valid => by
    obtain ⟨row, rowEq, rowLength, has⟩ := sized.row_eq (valid target (.head _))
    obtain ⟨out, run, outLength, iff⟩ := unionRows_spec sized targets
      (unionWith bits row) (by rw [length_unionWith, length, rowLength,
        max_self]) fun other mem => valid other (.tail _ mem)
    refine ⟨out, ?_, outLength, fun value => ?_⟩
    · rw [foldlM_cons, rowEq]
      exact run
    · rw [iff, getD_unionWith, has, exists_mem_cons_iff, or_assoc]

section

variable (fit : ir.IndicesFit) (collected : Collected ir solver)

include fit collected

variable {block : IlBlockId}

theorem nextLiveOut_spec {liveIn : LivenessMatrix}
    (sized : liveIn.Sized ir.graph.blocks.length ir.values.length) {record : IlBlock}
    (found : ir.graph.blocks[block]? = some record) :
    ∃ out, nextLiveOut ir solver liveIn record block = some out ∧ out.length = ir.values.length ∧
      ∀ value, out.getD value false = true ↔ NextOut ir liveIn block value := by
  have lt := lt_of_getElem? found
  obtain ⟨uses, usesEq, usesLength, has⟩ := collected.edgesSized.row_eq lt
  obtain ⟨out, run, outLength, iff⟩ := unionRows_spec sized
    (record.successors.slice ir.graph.successors)
    (unionWith (List.replicate ir.values.length false) uses)
    (by rw [length_unionWith, length_replicate, usesLength, max_self])
    (fit.inRange.targets record (mem_of_getElem? found))
  refine ⟨out, by rw [nextLiveOut, usesEq]; exact run, outLength, fun value => ?_⟩
  rw [iff, getD_unionWith, or_iff_right (getD_replicate _ _), has,
    collected.edges_iff, NextOut]
  simp [edge_iff found]

omit fit in
theorem nextLiveIn_spec {liveIn : LivenessMatrix}
    (lt : block < ir.graph.blocks.length) {out : List Bool} (length : out.length = ir.values.length)
    (out_iff : ∀ value, out.getD value false = true ↔ NextOut ir liveIn block value) :
    ∃ enters, nextLiveIn ir solver out block = some enters ∧ enters.length = ir.values.length ∧
      ∀ value, enters.getD value false = true ↔ NextIn ir liveIn block value := by
  obtain ⟨definitions, definitionsEq, definitionsLength, defined⟩ :=
    collected.definitionsSized.row_eq lt
  obtain ⟨uses, usesEq, usesLength, used⟩ := collected.usesSized.row_eq lt
  refine ⟨_, by rw [nextLiveIn, definitionsEq, usesEq]; rfl, ?_, fun value => ?_⟩
  · simp [length, usesLength]
  · rw [getD_unionWith, getD_differenceWith, getD_unionWith,
      or_iff_right (getD_replicate _ _), out_iff, defined, used,
      collected.definitions_iff, collected.uses_iff, NextIn]
    tauto

theorem visit_spec (inv : Inv ir s) {record : IlBlock}
    (found : ir.graph.blocks[block]? = some record) :
    ∃ t, visit ir solver s (record, block) = some t ∧ Inv ir t ∧
      (t.changed = true ∧ s.size ir < t.size ir ∨ t = s ∧ Settled ir s block) := by
  have lt := lt_of_getElem? found
  obtain ⟨out, outEq, outLength, out_iff⟩ := nextLiveOut_spec fit collected inv.inSized found
  obtain ⟨enters, entersEq, entersLength, in_iff⟩ :=
    nextLiveIn_spec collected lt outLength out_iff
  obtain ⟨oldOut, oldOutEq, -, -⟩ := inv.outSized.row_eq lt
  obtain ⟨oldIn, oldInEq, -, -⟩ := inv.inSized.row_eq lt
  obtain ⟨outSized, hasOut, moreOut, outCase⟩ := inv.outSized.update lt oldOutEq outLength
    (fun value has => (out_iff value).mpr (inv.out_grows block value has)) rfl
  obtain ⟨inSized, hasIn, moreIn, inCase⟩ := inv.inSized.update lt oldInEq entersLength
    (fun value has => (in_iff value).mpr (inv.in_grows block value has)) rfl
  refine ⟨_, by simp only [visit, outEq, entersEq, oldOutEq, oldInEq,
    some_bind]; rfl, ⟨inSized, outSized, ?_, ?_, ?_, ?_⟩, ?_⟩
  · intro other value has
    rw [hasIn] at has
    split at has
    · rename_i at_
      rw [at_]
      exact ((in_iff value).mp has).live inv.in_sound
    · exact inv.in_sound other value has
  · intro other value has
    rw [hasOut] at has
    split at has
    · rename_i at_
      rw [at_]
      exact ((out_iff value).mp has).live inv.in_sound
    · exact inv.out_sound other value has
  · intro other value has
    rw [hasIn] at has
    split at has
    · rename_i at_
      rw [at_]
      exact ((in_iff value).mp has).mono moreIn
    · exact (inv.in_grows other value has).mono moreIn
  · intro other value has
    rw [hasOut] at has
    split at has
    · rename_i at_
      rw [at_]
      exact ((out_iff value).mp has).mono moreIn
    · exact (inv.out_grows other value has).mono moreIn
  · rcases outCase with ⟨outSame, outKept⟩ | ⟨outApart, outMore⟩
    · rcases inCase with ⟨inSame, inKept⟩ | ⟨inApart, inMore⟩
      · refine .inr ⟨?_, fun value => ⟨fun next => ?_, fun next => ?_⟩⟩
        · simp [outSame, inSame]
        · rw [← outKept, hasOut, if_pos rfl]
          exact (out_iff value).mpr next
        · rw [← inKept, hasIn, if_pos rfl]
          exact (in_iff value).mpr next
      · refine .inl ⟨by simp [inApart], ?_⟩
        have kept := Finset.card_le_card (LivenessMatrix.cells_subset ir.graph.blocks.length
          ir.values.length moreOut)
        exact Nat.add_lt_add_of_lt_of_le inMore kept
    · refine .inl ⟨by simp [outApart], ?_⟩
      have kept := Finset.card_le_card (LivenessMatrix.cells_subset ir.graph.blocks.length
        ir.values.length moreIn)
      exact Nat.add_lt_add_of_le_of_lt kept outMore

theorem pass_spec : ∀ (entries : List (IlBlock × Nat)) (s : State), Inv ir s →
    (∀ entry ∈ entries, ir.graph.blocks[entry.2]? = some entry.1) →
    ∃ t, entries.foldlM (visit ir solver) s = some t ∧ Inv ir t ∧
      (t.changed = true ∧ s.size ir < t.size ir ∨ t = s ∧ ∀ entry ∈ entries, Settled ir s entry.2)
  | [], s, inv, _ => ⟨s, rfl, inv, .inr ⟨rfl, by simp⟩⟩
  | entry :: entries, s, inv, found => by
    obtain ⟨next, step, inv', first⟩ := visit_spec fit collected inv (found entry (.head _))
    obtain ⟨t, run, inv'', others⟩ := pass_spec entries next inv' fun other mem =>
      found other (.tail _ mem)
    refine ⟨t, by rw [foldlM_cons, step]; exact run, inv'', ?_⟩
    rcases first with ⟨changed, more⟩ | ⟨rfl, settled⟩
    · rcases others with ⟨changed', more'⟩ | ⟨rfl, -⟩
      · exact .inl ⟨changed', more.trans more'⟩
      · exact .inl ⟨changed, more⟩
    · exact others.imp_right fun h => ⟨h.1, forall_mem_cons.mpr ⟨settled, h.2⟩⟩

/-- The rounds end, with rows that every block is content with. -/
theorem rounds_spec (start : Inv ir s) :
    ∃ t, runLoop (round ir solver) (2 * (ir.graph.blocks.length * ir.values.length) + 1) s =
        some t ∧ Inv ir t ∧ ∀ block < ir.graph.blocks.length, Settled ir t block := by
  refine runLoop_total (Inv ir)
    (fun s => 2 * (ir.graph.blocks.length * ir.values.length) - s.size ir) _
    (fun s inv => ?_) _ s start (by omega)
  have start : Inv ir { s with changed := false } :=
    ⟨inv.inSized, inv.outSized, inv.in_sound, inv.out_sound, inv.in_grows, inv.out_grows⟩
  obtain ⟨t, run, inv', result⟩ := pass_spec fit collected ir.graph.blocks.zipIdx.reverse _ start
    fun entry mem => mem_zipIdx_iff_getElem?.mp (mem_reverse.mp mem)
  have body : round ir solver s = some (if t.changed then .inl t else .inr t) := by
    rw [round, run]
    rfl
  rcases result with ⟨changed, more⟩ | ⟨rfl, settled⟩
  · refine .inl ⟨t, by rw [body, changed]; rfl, inv', ?_⟩
    have below : t.size ir ≤ 2 * (ir.graph.blocks.length * ir.values.length) := State.size_le
    have more : s.size ir < t.size ir := more
    omega
  · refine .inr ⟨_, body, inv', fun block lt => ?_⟩
    exact settled (ir.graph.blocks[block], block) (mem_reverse.mpr
      (mem_zipIdx_iff_getElem?.mpr (getElem?_eq_getElem lt)))

end

/-- Rows that every block is content with hold what is live. -/
theorem Inv.exact (inv : Inv ir s)
    (settled : ∀ block < ir.graph.blocks.length, Settled ir s block) (block value : Nat) :
    (s.liveIn.Has block value ↔ ir.flow.LiveIn block value) ∧
      (s.liveOut.Has block value ↔ ir.flow.LiveOut block value) := by
  have complete : ∀ block, ir.flow.LiveIn block value → s.liveIn.Has block value := by
    intro block live
    refine live.least (fun node => s.liveIn.Has node value) fun node keeps next => ?_
    by_cases lt : node < ir.graph.blocks.length
    · exact (settled node lt value).2 ⟨keeps, next⟩
    · have outside : ir.graph.blocks[node]? = none := getElem?_eq_none (not_lt.mp lt)
      have code : ir.flow.code node = [] := by
        show (ir.graph.blocks[node]?).elim [] _ = _
        rw [outside]
        rfl
      rw [code] at next
      rcases next with reads | ⟨-, ⟨record, found, -⟩ | ⟨target, edge, -⟩⟩
      · cases reads
      · rw [outside] at found
        cases found
      · exact absurd (Edge.source_lt edge) lt
  refine ⟨⟨inv.in_sound block value, complete block⟩, inv.out_sound block value, fun live => ?_⟩
  have lt : block < ir.graph.blocks.length := by
    rcases live with ⟨record, found, -⟩ | ⟨target, edge, -⟩
    · exact lt_of_getElem? found
    · exact Edge.source_lt edge
  exact (settled block lt value).1 (live.imp_right fun next =>
    next.imp fun target both => ⟨both.1, complete target both.2⟩)

end ECodeLivenessSolver

end Fugue.Il
