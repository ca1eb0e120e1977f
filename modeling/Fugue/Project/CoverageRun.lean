import Fugue.Project.CoverageConfigure

/-!
# Runs of the coverage bookkeeping

A run is a sequence of calls from the empty table on, with a history of what was once covered and
what was marked. Over every run nothing is covered and pending at once, what was marked stays
covered or pending, and what a reconfiguration takes from a phase is reported as invalidated. What a
phase had covered stays an obligation of each of its analysers in the runs in which an analyser only
enters a phase that has nothing of its coverage pending (`Settled`).
-/

namespace Fugue.Project.AnalysisCoverage

open Fugue.Lib Fugue.Ir List Option CoverageConfiguration
open OrdMap (get?_eq_some mem_insert)
open AddressRangeSet (contains_insertRange contains_insertRanges_ranges contains_removeRange
  not_contains_new)

/-- A call; `reload` is `persist` followed by `from_storage`. -/
inductive Op where
  | configure (analysers : List (AnalyserName × AnalysisPhase))
  | mark (analyser : AnalyserName) (phase : AnalysisPhase) (range : AddressRange)
  | clear (range : AddressRange)
  | reload

/-- The list of a reconfiguration as a map. -/
def configuredOf (analysers : List (AnalyserName × AnalysisPhase)) :
    OrdMap AnalyserName AnalysisPhase :=
  analysers.foldl (fun configured entry => configured.insert entry.1 entry.2) .empty

def step (coverage : AnalysisCoverage) : Op → Option AnalysisCoverage
  | .configure analysers => (coverage.configure analysers).map Prod.fst
  | .mark analyser phase range => coverage.mark analyser phase range
  | .clear range => coverage.clear range
  | .reload => some (fromStorage coverage.persist)

/-- What the types of the arguments say, and that the analysers of a list are distinct. -/
def Op.Valid : Op → Prop
  | .configure analysers => (analysers.map Prod.fst).Nodup
  | .mark _ _ range | .clear range => range.stop < 2 ^ 64
  | .reload => True

/-- What has happened: the addresses that were once covered in a phase that has kept an analyser
since, and those that were marked for an analyser that has stayed configured since. -/
structure History where
  completed : AnalysisPhase → Address → Prop
  marked : AnalyserName → Address → Prop

/-- The history after a call that led to `after`. -/
def History.next (history : History) (op : Op) (after : AnalysisCoverage) : History where
  completed phase address := (after.covered phase).Contains address ∨
    (history.completed phase address ∧
      match op with
      | .configure analysers => ∃ name, (name, phase) ∈ analysers
      | _ => True)
  marked name address :=
    match op with
    | .configure analysers => history.marked name address ∧ ∃ phase, (name, phase) ∈ analysers
    | .mark analyser _ range =>
      history.marked name address ∨ (name = analyser ∧ range.Contains address)
    | _ => history.marked name address

/-- The runs in which each call meets the condition. -/
inductive Run (condition : AnalysisCoverage → Op → Prop) : AnalysisCoverage → History → Prop
  | new : Run condition .new ⟨fun _ _ => False, fun _ _ => False⟩
  | step {coverage after : AnalysisCoverage} {history : History} {op : Op}
    (run : Run condition coverage history) (valid : op.Valid) (meets : condition coverage op)
    (call : coverage.step op = some after) : Run condition after (history.next op after)

/-- The analyser has the address covered or pending. -/
def AnalyserCoverage.Holds (entry : AnalyserCoverage) (address : Address) : Prop :=
  entry.ranges.Contains address ∨ entry.pending.Contains address

/-- A call that cannot lose an obligation: an analyser enters a phase only while all that every
analyser of the phase has covered or pending is covered by all of them, and coverage is marked for
an analyser of the table in its phase. -/
def Settled (coverage : AnalysisCoverage) : Op → Prop
  | .configure analysers => ∀ name phase, (name, phase) ∈ analysers →
      (∀ entry, (name, entry) ∈ coverage.analysers.entries → entry.phase ≠ phase) →
      ∀ address, (∃ other entry, (other, entry) ∈ coverage.analysers.entries ∧
          entry.phase = phase) →
        (∀ other entry, (other, entry) ∈ coverage.analysers.entries → entry.phase = phase →
          AnalyserCoverage.Holds entry address) →
        (coverage.covered phase).Contains address
  | .mark analyser phase _ => ∃ entry, (analyser, entry) ∈ coverage.analysers.entries ∧
      entry.phase = phase
  | _ => True

/-! ## The calls -/

variable {coverage after : AnalysisCoverage}

theorem mem_configuredOf : ∀ {analysers : List (AnalyserName × AnalysisPhase)},
    (analysers.map Prod.fst).Nodup → ∀ {name : AnalyserName} {phase : AnalysisPhase},
    (name, phase) ∈ (configuredOf analysers).entries ↔ (name, phase) ∈ analysers := by
  have general : ∀ (analysers : List (AnalyserName × AnalysisPhase))
      (configured : OrdMap AnalyserName AnalysisPhase), (analysers.map Prod.fst).Nodup →
      (∀ entry ∈ analysers, ∀ phase, (entry.1, phase) ∉ configured.entries) →
      ∀ name phase, (name, phase) ∈ (analysers.foldl (fun configured entry =>
        configured.insert entry.1 entry.2) configured).entries ↔
          (name, phase) ∈ analysers ∨ (name, phase) ∈ configured.entries := by
    intro analysers
    induction analysers with
    | nil => simp
    | cons head rest ih =>
      intro configured nodup fresh name phase
      rw [map_cons, nodup_cons] at nodup
      obtain ⟨freshHead, freshRest⟩ := forall_mem_cons.mp fresh
      rw [foldl_cons, ih _ nodup.2 ?_, mem_insert, mem_cons]
      · constructor
        · intro h
          rcases h with later | eq | ⟨old, -⟩
          · exact .inl (.inr later)
          · exact .inl (.inl eq)
          · exact .inr old
        · intro h
          rcases h with (eq | later) | old
          · exact .inr (.inl eq)
          · exact .inl later
          · refine .inr (.inr ⟨old, fun same => ?_⟩)
            exact freshHead phase (same ▸ old)
      · intro entry mem other inside
        rcases mem_insert.mp inside with eq | ⟨old, -⟩
        · apply nodup.1
          rw [← (Prod.mk.inj eq).1]
          exact List.mem_map_of_mem mem
        · exact freshRest entry mem other old
  intro analysers nodup name phase
  rw [configuredOf, general analysers .empty nodup (by simp)]
  simp

/-- A call of `configure` in terms of the entries. -/
structure Configures (coverage after : AnalysisCoverage)
    (analysers : List (AnalyserName × AnalysisPhase)) : Prop where
  entries : ∀ name entry, (name, entry) ∈ after.analysers.entries →
    (name, entry.phase) ∈ analysers ∧ Becomes coverage name entry
  all : ∀ name phase, (name, phase) ∈ analysers → ∃ entry,
    (name, entry) ∈ after.analysers.entries ∧ entry.phase = phase

variable {analysers : List (AnalyserName × AnalysisPhase)}

theorem configure_eq (nodup : (analysers.map Prod.fst).Nodup) :
    ∃ after, coverage.configure analysers = some (after,
        { fromChanges (coverage.changes (configuredOf analysers)) with
          reanalysis := pendingReanalysis after.analysers }) ∧
      Configures coverage after analysers := by
  obtain ⟨table, run, entries, all⟩ := configure_spec coverage (configuredOf analysers)
  refine ⟨⟨table⟩, ?_, ?_, ?_⟩
  · show Option.bind _ _ = _
    rw [show (analysers.foldl (fun configured entry => configured.insert entry.1 entry.2) .empty :
      OrdMap AnalyserName AnalysisPhase) = configuredOf analysers from rfl, run]
    rfl
  · intro name entry mem
    obtain ⟨inConfigured, becomes⟩ := entries name entry mem
    exact ⟨(mem_configuredOf nodup).mp inConfigured, becomes⟩
  · intro name phase mem
    exact all name phase ((mem_configuredOf nodup).mpr mem)

theorem configures_of_step (nodup : (analysers.map Prod.fst).Nodup)
    (call : coverage.step (.configure analysers) = some after) :
    Configures coverage after analysers := by
  obtain ⟨result, eq, configures⟩ := @configure_eq coverage analysers nodup
  rw [step, eq, map_some, Option.some.injEq] at call
  exact call ▸ configures

variable {range : AddressRange}

theorem mark_spec {analyser : AnalyserName} {phase : AnalysisPhase}
    (lt : range.stop < 2 ^ 64) (call : coverage.mark analyser phase range = some after) :
    ∃ entry : AnalyserCoverage, after.analysers = coverage.analysers.insert analyser entry ∧
      entry.phase = phase ∧ (∀ address, entry.ranges.Contains address ↔ range.Contains address ∨
        ∃ old, (analyser, old) ∈ coverage.analysers.entries ∧ old.ranges.Contains address) ∧
      ∀ address, entry.pending.Contains address ↔
        (∃ old, (analyser, old) ∈ coverage.analysers.entries ∧ old.pending.Contains address) ∧
          ¬ range.Contains address := by
  unfold mark at call
  cases found : coverage.analysers.get? analyser with
  | none =>
    have absent := OrdMap.get?_eq_none.mp found
    rw [found] at call
    cases call
    refine ⟨_, rfl, rfl, fun address => ?_, fun address => ?_⟩
    · rw [contains_insertRange lt]
      simp [absent, not_contains_new]
    · simp [absent, not_contains_new]
  | some old =>
    have mem := get?_eq_some.mp found
    have only : ∀ (P : AnalyserCoverage → Prop),
        (∃ entry, (analyser, entry) ∈ coverage.analysers.entries ∧ P entry) ↔ P old := by
      intro P
      constructor
      · intro ⟨entry, entryMem, holds⟩
        rwa [OrdMap.unique mem entryMem]
      · exact fun holds => ⟨old, mem, holds⟩
    rw [found] at call
    obtain ⟨pending, pendingEq, rest⟩ := bind_eq_some_iff.mp call
    cases rest
    refine ⟨_, rfl, rfl, fun address => ?_, fun address => ?_⟩
    · rw [contains_insertRange lt, only]
    · rw [contains_removeRange lt pendingEq, only]

theorem clear_isSome (coverage : AnalysisCoverage)
    (le : range.start ≤ range.stop) : ∃ after, coverage.clear range = some after := by
  refine ⟨_, if_pos ?_⟩
  rw [List.all_eq_true]
  intro entry _
  obtain ⟨removed, call⟩ := AddressRangeSet.removeRange_isSome entry.2.ranges le
  simp [clearEntry, call]

/-- A call of `clear`: what it takes from the covered ranges becomes pending. -/
theorem clear_spec (lt : range.stop < 2 ^ 64) (call : coverage.clear range = some after) :
    (∀ name entry, (name, entry) ∈ after.analysers.entries → ∃ old,
      (name, old) ∈ coverage.analysers.entries ∧ entry.phase = old.phase ∧
      (∀ address, entry.ranges.Contains address ↔
        old.ranges.Contains address ∧ ¬ range.Contains address) ∧
      ∀ address, entry.pending.Contains address ↔ old.pending.Contains address ∨
        (old.ranges.Contains address ∧ range.Contains address)) ∧
    ∀ name old, (name, old) ∈ coverage.analysers.entries → ∃ entry,
      (name, entry) ∈ after.analysers.entries := by
  unfold clear at call
  split at call
  · rename_i all
    cases call
    rw [List.all_eq_true] at all
    constructor
    · intro name entry mem
      obtain ⟨old, oldMem, eq⟩ := OrdMap.mem_filterMap.mp mem
      obtain ⟨ranges, rangesEq, rest⟩ := bind_eq_some_iff.mp eq
      cases rest
      refine ⟨old, oldMem, rfl, fun address => ?_, fun address => ?_⟩
      · exact contains_removeRange lt rangesEq
      · rw [contains_insertRanges_ranges, AddressRangeSet.contains_intersection,
          contains_insertRange lt,
          or_iff_left (not_contains_new), or_comm]
    · intro name old mem
      obtain ⟨entry, eq⟩ := isSome_iff_exists.mp (all _ mem)
      exact ⟨entry, OrdMap.mem_filterMap.mpr ⟨old, mem, eq⟩⟩
  · cases call

theorem reload_spec :
    (∀ name entry, (name, entry) ∈ (fromStorage coverage.persist).analysers.entries → ∃ old,
      (name, old) ∈ coverage.analysers.entries ∧ entry.phase = old.phase ∧
      (∀ address, entry.ranges.Contains address ↔ old.ranges.Contains address) ∧
      ∀ address, entry.pending.Contains address ↔ old.pending.Contains address) ∧
    ∀ name old, (name, old) ∈ coverage.analysers.entries → ∃ entry,
      (name, entry) ∈ (fromStorage coverage.persist).analysers.entries := by
  have loaded : ∀ (entries : List (AnalyserName × AnalyserCoverage))
      (table : OrdMap AnalyserName AnalyserCoverage),
      entries.Pairwise (fun x y => x.1 < y.1) →
      (∀ entry ∈ entries, ∀ record, (entry.1, record) ∉ table.entries) →
      ∀ name record, (name, record) ∈ ((entries.map fun entry => (⟨entry.1,
          entry.2.pending.ranges, entry.2.phase, entry.2.ranges.ranges⟩ : Record)).foldl
        (fun analysers record => analysers.insert record.name
          { pending := AddressRangeSet.new.insertRanges record.pending
            phase := record.phase
            ranges := AddressRangeSet.new.insertRanges record.ranges }) table).entries ↔
        (name, record) ∈ table.entries ∨ ∃ old, (name, old) ∈ entries ∧
          record = ⟨AddressRangeSet.new.insertRanges old.pending.ranges, old.phase,
            AddressRangeSet.new.insertRanges old.ranges.ranges⟩ := by
    intro entries
    induction entries with
    | nil => simp
    | cons head rest ih =>
      intro table sorted fresh name record
      obtain ⟨above, sorted⟩ := pairwise_cons.mp sorted
      obtain ⟨freshHead, freshRest⟩ := forall_mem_cons.mp fresh
      rw [map_cons, foldl_cons, ih _ sorted ?_, mem_insert]
      · simp only [mem_cons, Prod.mk.injEq]
        constructor
        · intro h
          rcases h with (⟨same, eq⟩ | ⟨old, -⟩) | ⟨old, mem, eq⟩
          · exact .inr ⟨head.2, .inl (by rw [same]), eq⟩
          · exact .inl old
          · exact .inr ⟨old, .inr mem, eq⟩
        · intro h
          rcases h with old | ⟨old, same | mem, eq⟩
          · refine .inl (.inr ⟨old, fun same => ?_⟩)
            exact freshHead record (same ▸ old)
          · rw [← same]
            exact .inl (.inl ⟨rfl, eq⟩)
          · exact .inr ⟨old, mem, eq⟩
      · intro entry mem record inside
        rcases mem_insert.mp inside with eq | ⟨old, -⟩
        · exact absurd (Prod.mk.inj eq).1 (above entry mem).ne'
        · exact freshRest entry mem record old
  have members := loaded coverage.analysers.entries .empty coverage.analysers.sorted (by simp)
  constructor
  · intro name entry mem
    rcases (members name entry).mp mem with none | ⟨old, oldMem, rfl⟩
    · cases none
    · refine ⟨old, oldMem, rfl, fun address => ?_, fun address => ?_⟩ <;>
        exact contains_insertRanges_ranges.trans
          (or_iff_left not_contains_new)
  · intro name old mem
    exact ⟨_, (members name _).mpr (.inr ⟨old, mem, rfl⟩)⟩

/-! ## The invariants -/

/-- Nothing is covered and pending at once. -/
def Disjoint (coverage : AnalysisCoverage) : Prop :=
  ∀ name entry, (name, entry) ∈ coverage.analysers.entries → ∀ address,
    ¬ (entry.ranges.Contains address ∧ entry.pending.Contains address)

/-- What was marked is covered or pending. -/
def KeepsMarked (coverage : AnalysisCoverage) (history : History) : Prop :=
  ∀ name address, history.marked name address → ∃ entry,
    (name, entry) ∈ coverage.analysers.entries ∧ AnalyserCoverage.Holds entry address

/-- What a phase had covered is covered or pending for each of its analysers, and it has one. -/
def KeepsCompleted (coverage : AnalysisCoverage) (history : History) : Prop :=
  ∀ phase address, history.completed phase address →
    (∃ name entry, (name, entry) ∈ coverage.analysers.entries ∧ entry.phase = phase) ∧
    ∀ name entry, (name, entry) ∈ coverage.analysers.entries → entry.phase = phase →
      AnalyserCoverage.Holds entry address

variable {op : Op}

theorem disjoint_step (disjoint : coverage.Disjoint) (valid : op.Valid)
    (call : coverage.step op = some after) : after.Disjoint := by
  intro name entry mem address ⟨covered, pending⟩
  cases op with
  | configure analysers =>
    obtain ⟨-, becomes⟩ := (configures_of_step valid call).entries name entry mem
    by_cases same : ∃ old, (name, old) ∈ coverage.analysers.entries ∧ old.phase = entry.phase
    · obtain ⟨old, oldMem, samePhase⟩ := same
      obtain ⟨rangesEq, pendingIff⟩ := becomes.stays old oldMem samePhase
      exact disjoint name old oldMem address ⟨rangesEq ▸ covered, (pendingIff address).mp pending⟩
    · have enters := becomes.enters fun old oldMem samePhase => same ⟨old, oldMem, samePhase⟩
      rw [enters.1] at covered
      exact not_contains_new covered
  | mark analyser phase range =>
    obtain ⟨marked, tableEq, -, rangesIff, pendingIff⟩ := mark_spec valid call
    rw [tableEq] at mem
    rcases mem_insert.mp mem with eq | ⟨old, -⟩
    · cases eq
      obtain ⟨⟨waiting, waitingMem, inWaiting⟩, outside⟩ := (pendingIff address).mp pending
      rcases (rangesIff address).mp covered with inside | ⟨old, oldMem, inOld⟩
      · exact outside inside
      · rw [OrdMap.unique oldMem waitingMem] at inOld
        exact disjoint _ waiting waitingMem address ⟨inOld, inWaiting⟩
    · exact disjoint name entry old address ⟨covered, pending⟩
  | clear range =>
    obtain ⟨old, oldMem, -, rangesIff, pendingIff⟩ := (clear_spec valid call).1 name entry mem
    obtain ⟨inOld, outside⟩ := (rangesIff address).mp covered
    rcases (pendingIff address).mp pending with waiting | ⟨-, inside⟩
    · exact disjoint name old oldMem address ⟨inOld, waiting⟩
    · exact outside inside
  | reload =>
    cases call
    obtain ⟨old, oldMem, -, rangesIff, pendingIff⟩ := reload_spec.1 name entry mem
    exact disjoint name old oldMem address
      ⟨(rangesIff address).mp covered, (pendingIff address).mp pending⟩

variable {address : Address} {name : AnalyserName}

theorem Becomes.holds {entry old : AnalyserCoverage}
    (becomes : Becomes coverage name entry) (oldMem : (name, old) ∈ coverage.analysers.entries)
    (holds : AnalyserCoverage.Holds old address) :
    AnalyserCoverage.Holds entry address := by
  by_cases same : old.phase = entry.phase
  · obtain ⟨rangesEq, pendingIff⟩ := becomes.stays old oldMem same
    rcases holds with covered | pending
    · exact .inl (rangesEq ▸ covered)
    · exact .inr ((pendingIff address).mpr pending)
  · exact .inr (becomes.moves old oldMem same address holds)

/-- A call other than `configure` keeps what an analyser holds, and `mark` does so in the phase that
it names. -/
theorem holds_step (valid : op.Valid) (call : coverage.step op = some after)
    (other : ∀ analysers, op ≠ .configure analysers)
    {old : AnalyserCoverage} (oldMem : (name, old) ∈ coverage.analysers.entries)
    (holds : AnalyserCoverage.Holds old address) :
    ∃ entry, (name, entry) ∈ after.analysers.entries ∧ AnalyserCoverage.Holds entry address := by
  cases op with
  | configure analysers => exact absurd rfl (other analysers)
  | mark analyser phase range =>
    obtain ⟨marked, tableEq, -, rangesIff, pendingIff⟩ := mark_spec valid call
    rw [tableEq]
    by_cases same : name = analyser
    · subst same
      refine ⟨marked, mem_insert.mpr (.inl rfl), ?_⟩
      by_cases inside : range.Contains address
      · exact .inl ((rangesIff address).mpr (.inl inside))
      · rcases holds with covered | pending
        · exact .inl ((rangesIff address).mpr (.inr ⟨old, oldMem, covered⟩))
        · exact .inr ((pendingIff address).mpr ⟨⟨old, oldMem, pending⟩, inside⟩)
    · exact ⟨old, mem_insert.mpr (.inr ⟨oldMem, same⟩), holds⟩
  | clear range =>
    obtain ⟨spec, stay⟩ := clear_spec valid call
    obtain ⟨entry, mem⟩ := stay name old oldMem
    obtain ⟨old', oldMem', -, rangesIff, pendingIff⟩ := spec name entry mem
    rw [OrdMap.unique oldMem oldMem'] at holds
    refine ⟨entry, mem, ?_⟩
    by_cases inside : range.Contains address
    · rcases holds with covered | pending
      · exact .inr ((pendingIff address).mpr (.inr ⟨covered, inside⟩))
      · exact .inr ((pendingIff address).mpr (.inl pending))
    · rcases holds with covered | pending
      · exact .inl ((rangesIff address).mpr ⟨covered, inside⟩)
      · exact .inr ((pendingIff address).mpr (.inl pending))
  | reload =>
    cases call
    obtain ⟨entry, mem⟩ := reload_spec.2 name old oldMem
    obtain ⟨old', oldMem', -, rangesIff, pendingIff⟩ := reload_spec.1 name entry mem
    rw [OrdMap.unique oldMem oldMem'] at holds
    exact ⟨entry, mem, holds.imp (rangesIff address).mpr (pendingIff address).mpr⟩

variable {history : History}

theorem keepsMarked_step (keeps : coverage.KeepsMarked history)
    (valid : op.Valid) (call : coverage.step op = some after) :
    after.KeepsMarked (history.next op after) := by
  intro name address marked
  cases op with
  | configure analysers =>
    obtain ⟨before, phase, listed⟩ := marked
    have configures := configures_of_step valid call
    obtain ⟨old, oldMem, holds⟩ := keeps name address before
    obtain ⟨entry, mem, -⟩ := configures.all name phase listed
    exact ⟨entry, mem, (configures.entries name entry mem).2.holds oldMem holds⟩
  | mark analyser phase range =>
    rcases marked with before | ⟨rfl, inside⟩
    · obtain ⟨old, oldMem, holds⟩ := keeps name address before
      exact holds_step valid call nofun oldMem holds
    · obtain ⟨entry, tableEq, -, rangesIff, -⟩ := mark_spec valid call
      rw [tableEq]
      exact ⟨entry, mem_insert.mpr (.inl rfl), .inl ((rangesIff address).mpr (.inl inside))⟩
  | clear range =>
    obtain ⟨old, oldMem, holds⟩ := keeps name address marked
    exact holds_step valid call nofun oldMem holds
  | reload =>
    obtain ⟨old, oldMem, holds⟩ := keeps name address marked
    exact holds_step valid call nofun oldMem holds

/-- A settled call other than `configure` changes neither the analysers nor their phases. -/
theorem samePhases_step (valid : op.Valid) (settled : coverage.Settled op)
    (call : coverage.step op = some after) (other : ∀ analysers, op ≠ .configure analysers) :
    (∀ name entry, (name, entry) ∈ after.analysers.entries → ∃ old,
      (name, old) ∈ coverage.analysers.entries ∧ old.phase = entry.phase) ∧
    ∀ name old, (name, old) ∈ coverage.analysers.entries → ∃ entry,
      (name, entry) ∈ after.analysers.entries ∧ entry.phase = old.phase := by
  cases op with
  | configure analysers => exact absurd rfl (other analysers)
  | mark analyser phase range =>
    obtain ⟨known, knownMem, knownPhase⟩ := settled
    obtain ⟨marked, tableEq, markedPhase, -⟩ := mark_spec valid call
    rw [tableEq]
    constructor
    · intro name entry mem
      rcases mem_insert.mp mem with eq | ⟨old, -⟩
      · cases eq
        exact ⟨known, knownMem, knownPhase.trans markedPhase.symm⟩
      · exact ⟨entry, old, rfl⟩
    · intro name old oldMem
      by_cases same : name = analyser
      · subst same
        rw [OrdMap.unique oldMem knownMem]
        exact ⟨marked, mem_insert.mpr (.inl rfl), markedPhase.trans knownPhase.symm⟩
      · exact ⟨old, mem_insert.mpr (.inr ⟨oldMem, same⟩), rfl⟩
  | clear range =>
    obtain ⟨spec, stay⟩ := clear_spec valid call
    constructor
    · intro name entry mem
      obtain ⟨old, oldMem, phaseEq, -⟩ := spec name entry mem
      exact ⟨old, oldMem, phaseEq.symm⟩
    · intro name old oldMem
      obtain ⟨entry, mem⟩ := stay name old oldMem
      obtain ⟨old', oldMem', phaseEq, -⟩ := spec name entry mem
      exact ⟨entry, mem, by rw [phaseEq, OrdMap.unique oldMem' oldMem]⟩
  | reload =>
    cases call
    constructor
    · intro name entry mem
      obtain ⟨old, oldMem, phaseEq, -⟩ := reload_spec.1 name entry mem
      exact ⟨old, oldMem, phaseEq.symm⟩
    · intro name old oldMem
      obtain ⟨entry, mem⟩ := reload_spec.2 name old oldMem
      obtain ⟨old', oldMem', phaseEq, -⟩ := reload_spec.1 name entry mem
      exact ⟨entry, mem, by rw [phaseEq, OrdMap.unique oldMem' oldMem]⟩

theorem keepsCompleted_step
    (keeps : coverage.KeepsCompleted history) (valid : op.Valid) (settled : coverage.Settled op)
    (call : coverage.step op = some after) : after.KeepsCompleted (history.next op after) := by
  intro phase address completed
  rcases completed with covered | ⟨before, still⟩
  · obtain ⟨exists_, all⟩ := contains_covered.mp covered
    exact ⟨exists_, fun name entry mem inPhase => .inl (all name entry mem inPhase)⟩
  obtain ⟨⟨first, firstEntry, firstMem, firstPhase⟩, holds⟩ := keeps phase address before
  by_cases reconfigures : ∃ analysers, op = .configure analysers
  · obtain ⟨analysers, rfl⟩ := reconfigures
    obtain ⟨name, listed⟩ := still
    have configures := configures_of_step valid call
    obtain ⟨entry, mem, inPhase⟩ := configures.all name phase listed
    refine ⟨⟨name, entry, mem, inPhase⟩, fun other record recordMem recordPhase => ?_⟩
    obtain ⟨recordListed, becomes⟩ := configures.entries other record recordMem
    subst recordPhase
    by_cases same : ∃ old, (other, old) ∈ coverage.analysers.entries ∧ old.phase = record.phase
    · obtain ⟨old, oldMem, samePhase⟩ := same
      exact becomes.holds oldMem (holds other old oldMem samePhase)
    · have entered : ∀ old, (other, old) ∈ coverage.analysers.entries →
          old.phase ≠ record.phase := fun old oldMem samePhase => same ⟨old, oldMem, samePhase⟩
      exact .inr ((becomes.enters entered).2 address (settled other record.phase recordListed
        entered address ⟨first, firstEntry, firstMem, firstPhase⟩ holds))
  · have other : ∀ analysers, op ≠ .configure analysers := fun analysers eq =>
      reconfigures ⟨analysers, eq⟩
    obtain ⟨known, stay⟩ := samePhases_step valid settled call other
    obtain ⟨entry, mem, phaseEq⟩ := stay first firstEntry firstMem
    refine ⟨⟨first, entry, mem, phaseEq.trans firstPhase⟩, fun name record recordMem inPhase => ?_⟩
    obtain ⟨old, oldMem, samePhase⟩ := known name record recordMem
    obtain ⟨kept, keptMem, keptHolds⟩ := holds_step valid call other oldMem
      (holds name old oldMem (samePhase.trans inPhase))
    rwa [OrdMap.unique keptMem recordMem] at keptHolds

theorem invalidated_of_lost
    (nodup : (analysers.map Prod.fst).Nodup) (configures : Configures coverage after analysers)
    {phase : AnalysisPhase} (covered : (coverage.covered phase).Contains address)
    (lost : ¬ (after.covered phase).Contains address) :
    (fromChanges
      (coverage.changes (configuredOf analysers))).invalidated.Contains address := by
  rw [contains_invalidated]
  obtain ⟨⟨name, old, oldMem, oldPhase⟩, all⟩ := contains_covered.mp covered
  by_cases empty : ∃ other entry, (other, entry) ∈ after.analysers.entries ∧ entry.phase = phase
  · -- an analyser of the phase that has not covered the address is new in it
    have notAll : ¬ ∀ other entry, (other, entry) ∈ after.analysers.entries →
        entry.phase = phase → entry.ranges.Contains address :=
      fun h => lost (contains_covered.mpr ⟨empty, h⟩)
    push Not at notAll
    obtain ⟨other, entry, mem, rfl, outside⟩ := notAll
    obtain ⟨listed, becomes⟩ := configures.entries other entry mem
    have entered : ∀ record, (other, record) ∈ coverage.analysers.entries →
        record.phase ≠ entry.phase := by
      intro record recordMem samePhase
      rw [(becomes.stays record recordMem samePhase).1] at outside
      exact outside (all other record recordMem samePhase)
    have asked : (other, ⟨entry.phase, coverage.covered entry.phase⟩) ∈
        (coverage.changes (configuredOf analysers)).filterMap
          replacementOf :=
      mem_replacements.mpr ⟨(mem_configuredOf nodup).mpr listed, rfl, entered⟩
    obtain ⟨change, changeMem, replacement⟩ := mem_filterMap.mp asked
    refine ⟨change, changeMem, ?_⟩
    cases change with
    | added => cases replacement; exact covered
    | phaseChanged => cases replacement; exact .inr covered
    | removed => cases replacement
  · -- the phase has no analyser any more, so this one has left it
    have change : ∃ change, coverage.changeOf (configuredOf analysers) (name, old) = some change ∧
        Invalidates change address := by
      unfold changeOf
      split
      · rename_i current found
        have listed := (mem_configuredOf nodup).mp (get?_eq_some.mp found)
        rw [if_neg]
        · exact ⟨_, rfl, .inl (all name old oldMem oldPhase)⟩
        · intro samePhase
          obtain ⟨entry, mem, inPhase⟩ := configures.all name current listed
          exact empty ⟨name, entry, mem, inPhase.trans (samePhase.trans oldPhase)⟩
      · exact ⟨_, rfl, all name old oldMem oldPhase⟩
    obtain ⟨change, changeEq, invalidates⟩ := change
    exact ⟨change, mem_append_left _ (mem_filterMap.mpr ⟨_, oldMem, changeEq⟩), invalidates⟩

theorem reported_of_pending {table : OrdMap AnalyserName AnalyserCoverage}
    {entry : AnalyserCoverage} (mem : (name, entry) ∈ table.entries)
    (pending : entry.pending.Contains address) :
    ∃ reanalysis ∈ pendingReanalysis table, reanalysis.analyser = name ∧
      reanalysis.regions.Contains address := by
  refine ⟨⟨name, entry.pending⟩, mem_filterMap.mpr ⟨_, mem, ?_⟩, rfl, pending⟩
  exact if_neg fun empty => AddressRangeSet.isEmpty_iff.mp empty address pending

/-- The bookkeeping over every run: nothing is covered and pending at once, what was marked stays
covered or pending, a reconfiguration reports as invalidated what it takes from a phase and for
reanalysis all that is pending; and over the runs of settled calls, what a phase had covered is
covered or pending for each of its analysers. -/
theorem coverage_keeps_obligations (coverage : AnalysisCoverage) (history : History) :
    (Run (fun _ _ => True) coverage history →
      coverage.Disjoint ∧ coverage.KeepsMarked history ∧
      ∀ analysers : List (AnalyserName × AnalysisPhase), (analysers.map Prod.fst).Nodup →
        ∃ after reconfiguration, coverage.configure analysers = some (after, reconfiguration) ∧
          (∀ phase address, (coverage.covered phase).Contains address →
            ¬ (after.covered phase).Contains address →
            reconfiguration.invalidated.Contains address) ∧
          ∀ name entry, (name, entry) ∈ after.analysers.entries → ∀ address,
            entry.pending.Contains address → ∃ reanalysis ∈ reconfiguration.reanalysis,
              reanalysis.analyser = name ∧ reanalysis.regions.Contains address) ∧
    (Run Settled coverage history → ∀ phase address, history.completed phase address → ∀ name entry,
        (name, entry) ∈ coverage.analysers.entries → entry.phase = phase →
          entry.ranges.Contains address ∨ entry.pending.Contains address) := by
  constructor
  · intro run
    refine ⟨?_, ?_, fun analysers nodup => ?_⟩
    · induction run with
      | new => exact fun _ _ mem => nomatch mem
      | step _ valid _ call ih => exact disjoint_step ih valid call
    · induction run with
      | new => exact fun _ _ none => none.elim
      | step _ valid _ call ih => exact keepsMarked_step ih valid call
    · obtain ⟨after, eq, configures⟩ := @configure_eq coverage analysers nodup
      exact ⟨after, _, eq, fun phase address covered lost =>
        invalidated_of_lost nodup configures covered lost,
        fun name entry mem address pending => reported_of_pending mem pending⟩
  · intro run
    have keeps : coverage.KeepsCompleted history := by
      induction run with
      | new => exact fun _ _ none => none.elim
      | step _ valid settled call ih => exact keepsCompleted_step ih valid settled call
    intro phase address completed name entry mem inPhase
    exact (keeps phase address completed).2 name entry mem inPhase

theorem Run.append (run : Run (fun _ _ => True) coverage history) :
    ∀ (ops : List Op), (∀ op ∈ ops, op.Valid) →
      ops.foldlM AnalysisCoverage.step coverage = some after →
      ∃ later, Run (fun _ _ => True) after later ∧ ∀ phase address,
        history.completed phase address →
        (∀ analysers, .configure analysers ∈ ops → ∃ name, (name, phase) ∈ analysers) →
        later.completed phase address := by
  intro ops
  induction ops generalizing coverage history with
  | nil =>
    intro _ calls
    cases calls
    exact ⟨history, run, fun _ _ completed _ => completed⟩
  | cons op ops ih =>
    intro valid calls
    obtain ⟨head, rest⟩ := forall_mem_cons.mp valid
    obtain ⟨next, call, calls⟩ := bind_eq_some_iff.mp calls
    obtain ⟨later, laterRun, keeps⟩ := ih (.step run head trivial call) rest calls
    refine ⟨later, laterRun, fun phase address completed kept => keeps phase address (.inr
      ⟨completed, ?_⟩) fun analysers mem => kept analysers (.tail _ mem)⟩
    cases op with
    | configure analysers => exact kept analysers (.head _)
    | mark => trivial
    | clear => trivial
    | reload => trivial

/-- A decoder that has covered some code, a scanner that comes in and has all of it pending, and a
tracer that comes in before the scanner is done. -/
def lateTracer : List Op :=
  [.configure [("decoder", .decode), ("scanner", .decode)],
    .configure [("decoder", .decode), ("scanner", .decode), ("tracer", .decode)]]

/-- The tracer has no obligation for what the decoder had covered. -/
theorem coverage_forgets_obligation : ∃ coverage history,
    Run (fun _ _ => True) coverage history ∧ history.completed .decode ⟨0, 0⟩ ∧
      ∃ entry, ("tracer", entry) ∈ coverage.analysers.entries ∧ entry.phase = .decode ∧
        ¬ (entry.ranges.Contains ⟨0, 0⟩ ∨ entry.pending.Contains ⟨0, 0⟩) := by
  have start : ((new.step (.configure [("decoder", .decode)])).bind fun coverage =>
      (coverage.step (.mark "decoder" .decode ⟨0, 0, 15⟩)).bind fun marked =>
        (lateTracer.foldlM step marked).map fun coverage =>
          ((marked.covered .decode).contains ⟨0, 0⟩, (coverage.analysers.get? "tracer").map
            fun entry => (entry.phase, entry.ranges.contains ⟨0, 0⟩,
              entry.pending.contains ⟨0, 0⟩))) =
      some (true, some (.decode, false, false)) := by decide +kernel
  obtain ⟨configured, configureCall, start⟩ := bind_eq_some_iff.mp start
  obtain ⟨marked, markCall, start⟩ := bind_eq_some_iff.mp start
  obtain ⟨coverage, calls, start⟩ := map_eq_some_iff.mp start
  obtain ⟨covered, tracer⟩ := Prod.mk.inj start
  obtain ⟨entry, found, facts⟩ := map_eq_some_iff.mp tracer
  obtain ⟨phaseEq, facts⟩ := Prod.mk.inj facts
  obtain ⟨rangesEq, pendingEq⟩ := Prod.mk.inj facts
  have run : Run (fun _ _ => True) marked _ :=
    .step (.step .new (by simp [Op.Valid]) trivial configureCall) (by simp [Op.Valid]) trivial
      markCall
  obtain ⟨history, laterRun, keeps⟩ := run.append lateTracer (by simp [lateTracer, Op.Valid]) calls
  refine ⟨coverage, history, laterRun, keeps .decode ⟨0, 0⟩
    (.inl (AddressRangeSet.contains_iff.mp covered)) (by simp [lateTracer]), entry,
    get?_eq_some.mp found, phaseEq, ?_⟩
  rw [← AddressRangeSet.contains_iff, ← AddressRangeSet.contains_iff, rangesEq, pendingEq]
  simp

/-- A decoder that has covered some code of which a part was written to. -/
theorem coverage_keeps_obligations_decoder : ∃ coverage history, Run Settled coverage history ∧
    history.completed .decode ⟨0, 0⟩ ∧ ∀ name entry,
      (name, entry) ∈ coverage.analysers.entries → entry.phase = .decode →
        entry.ranges.Contains ⟨0, 0⟩ ∨ entry.pending.Contains ⟨0, 0⟩ := by
  have start : ((new.step (.configure [("decoder", .decode)])).bind fun configured =>
      (configured.step (.mark "decoder" .decode ⟨0, 0, 15⟩)).bind fun marked =>
        (marked.step (.clear ⟨0, 0, 7⟩)).map fun _ =>
          ((marked.covered .decode).contains ⟨0, 0⟩,
            (configured.analysers.get? "decoder").map fun entry => entry.phase)) =
      some (true, some .decode) := by decide +kernel
  obtain ⟨configured, configureCall, start⟩ := bind_eq_some_iff.mp start
  obtain ⟨marked, markCall, start⟩ := bind_eq_some_iff.mp start
  obtain ⟨coverage, clearCall, start⟩ := map_eq_some_iff.mp start
  obtain ⟨covered, decoder⟩ := Prod.mk.inj start
  obtain ⟨entry, found, phaseEq⟩ := map_eq_some_iff.mp decoder
  have settled : Settled configured (.mark "decoder" .decode ⟨0, 0, 15⟩) :=
    ⟨entry, get?_eq_some.mp found, phaseEq⟩
  have configuredRun := Run.step (.new : Run Settled _ _) (by simp [Op.Valid])
    (by simp [Settled, new]) configureCall
  have markedRun := Run.step configuredRun (by simp [Op.Valid]) settled markCall
  have clearSettled : Settled marked (.clear ⟨0, 0, 7⟩) := trivial
  have run := Run.step markedRun (by simp [Op.Valid]) clearSettled clearCall
  refine ⟨coverage, _, run, ?_, (coverage_keeps_obligations coverage _).2 run .decode ⟨0, 0⟩ ?_⟩ <;>
    exact Or.inr ⟨Or.inl (AddressRangeSet.contains_iff.mp covered), trivial⟩

end Fugue.Project.AnalysisCoverage
