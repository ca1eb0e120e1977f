import Fugue.Storage.Segments.Layout

/-!
# Revisions of the spaces

A space shows what it showed as long as its revision stays the same: every operation on a space that
changes its submappings raises its revision (`Evolves`).
-/

namespace Fugue.Storage.Segments

open Fugue.Lib Fugue.Ir IntervalMap

/-! ## Partial correctness -/

/-- If the call returns, then its result meets `post`. -/
def Leaves {α : Type} (post : α → Prop) (x : Except Panic α) : Prop :=
  ∀ a, x = .ok a → post a

section Leaves

variable {α β : Type} {post : α → Prop} {post' : β → Prop} {x : Except Panic α}
  {f : α → Except Panic β}

theorem leaves_ok {a : α} (holds : post a) : Leaves post (.ok a) := by
  intro b eq
  obtain rfl := Except.ok.inj eq
  exact holds

theorem Leaves.bind (leaves : Leaves post x) (next : ∀ a, post a → Leaves post' (f a)) :
    Leaves post' (x >>= f) := by
  intro b eq
  obtain ⟨a, returns, eq⟩ := bind_eq_ok.mp eq
  exact next a (leaves a returns) b eq

theorem leaves_bind_any (next : ∀ a, Leaves post' (f a)) : Leaves post' (x >>= f) := by
  intro b eq
  obtain ⟨a, -, eq⟩ := bind_eq_ok.mp eq
  exact next a b eq

theorem Returns.leaves (returns : Returns post x) : Leaves post x := by
  rintro a rfl
  exact returns

theorem Returns.and_leaves {also : α → Prop} (returns : Returns post x) (leaves : Leaves also x) :
    Returns (fun a => post a ∧ also a) x := by
  cases x with
  | ok a => exact ⟨returns, leaves a rfl⟩
  | error panic => exact returns

theorem Leaves.mono {weaker : α → Prop} (leaves : Leaves post x) (le : ∀ a, post a → weaker a) :
    Leaves weaker x :=
  fun a eq => le a (leaves a eq)

end Leaves

namespace AddressSpace

variable {S E : Type} [mapS : IntervalMap S SegmentSubMapping]
  [mapE : IntervalMap E SegmentMappingId] {space space' space'' : AddressSpace S E}

/-- The revision has grown, or the submappings are the same. -/
def Evolves (space space' : AddressSpace S E) : Prop :=
  space.revision < space'.revision ∨
    space'.revision = space.revision ∧ space'.submaps = space.submaps

section Rules

omit mapS mapE

theorem Evolves.refl (space : AddressSpace S E) : Evolves space space := .inr ⟨rfl, rfl⟩

theorem Evolves.le (evolves : Evolves space space') : space.revision ≤ space'.revision :=
  evolves.elim le_of_lt fun same => same.1.ge

theorem Evolves.trans (first : Evolves space space') (second : Evolves space' space'') :
    Evolves space space'' := by
  rcases first with lt | ⟨revision, submaps⟩
  · exact .inl (lt.trans_le second.le)
  · rcases second with lt | ⟨revision', submaps'⟩
    · exact .inl (revision ▸ lt)
    · exact .inr ⟨revision'.trans revision, submaps'.trans submaps⟩

theorem touch_evolves (same : space'.revision = space.revision) :
    Leaves (fun touched => space.revision < touched.revision ∧ touched.submaps = space'.submaps)
      space'.touch := by
  refine (returns_nextRevision _).leaves.bind ?_
  rintro _ rfl
  exact leaves_ok ⟨same ▸ Nat.lt_succ_self _, rfl⟩

end Rules

/-! ## The indexes -/

variable (mappingId : SegmentMappingId)

omit mapS in
theorem removePlacement_same (placement : MappingPlacement) :
    Leaves (fun removed => removed.revision = space.revision ∧ removed.submaps = space.submaps)
      (space.removePlacement mappingId placement) :=
  leaves_bind_any fun _ => leaves_bind_any fun _ => leaves_ok ⟨rfl, rfl⟩

variable (mappingRef : SegmentMappingRef)

omit mapS in
theorem updateMappingPlacement_same (priority : ℤ) (range : AddressRange) :
    Leaves (fun placed => placed.revision = space.revision ∧ placed.submaps = space.submaps)
      (space.updateMappingPlacement mappingRef priority range) := by
  have inserts : ∀ removed : AddressSpace S E,
      removed.revision = space.revision ∧ removed.submaps = space.submaps →
      Leaves (fun placed => placed.revision = space.revision ∧ placed.submaps = space.submaps)
        (removed.insertPlacement mappingRef priority range) := by
    intro removed same
    unfold insertPlacement
    split
    · exact leaves_ok same
    · exact fun _ => nofun
  unfold updateMappingPlacement
  split
  · exact (removePlacement_same _ _).bind inserts
  · exact inserts space ⟨rfl, rfl⟩

/-! ## The operations on a space -/

theorem addMappingTop_evolves (start size : ℕ) (properties : SegmentProperties) :
    Leaves (Evolves space) (space.addMappingTop mappingRef start size properties) := by
  refine leaves_bind_any fun range => leaves_bind_any fun highest => ?_
  refine (updateMappingPlacement_same mappingRef highest range).bind fun placed same => ?_
  refine (touch_evolves same.1).bind fun touched raised => ?_
  exact leaves_ok (.inl raised.1)

theorem addMappingBottom_evolves (start size : ℕ) (properties : SegmentProperties) :
    Leaves (Evolves space) (space.addMappingBottom mappingRef start size properties) := by
  refine leaves_bind_any fun range => leaves_bind_any fun lowest => ?_
  refine (updateMappingPlacement_same mappingRef lowest range).bind fun placed same => ?_
  refine (touch_evolves same.1).bind fun touched raised => ?_
  exact leaves_ok (.inl raised.1)

omit mapS mapE in
theorem deprioritise_evolves :
    Leaves (Evolves space) (space.deprioritise mappingId) := by
  unfold deprioritise
  split
  · exact leaves_ok (Evolves.refl space)
  · refine leaves_bind_any fun mappingRef => leaves_bind_any fun lowest => ?_
    dsimp only
    split
    · exact (touch_evolves rfl).mono fun _ raised => .inl raised.1
    · exact fun _ => nofun

variable (range : AddressRange)

omit mapE in
theorem rebuildMapping_revision (mapping : SegmentMappingRef × ℕ × ℕ × SegmentProperties) :
    Leaves (fun rebuilt => rebuilt.revision = space.revision)
      (rebuildMapping range space mapping) := by
  refine leaves_bind_any fun mappingRange => ?_
  split
  · exact leaves_ok rfl
  · exact leaves_ok rfl

omit mapE in
theorem foldlM_rebuildMapping_revision :
    ∀ (mappings : List (SegmentMappingRef × ℕ × ℕ × SegmentProperties)) (space : AddressSpace S E),
    Leaves (fun rebuilt => rebuilt.revision = space.revision)
      (mappings.foldlM (rebuildMapping range) space) := by
  intro mappings
  induction mappings with
  | nil => exact fun space => leaves_ok rfl
  | cons mapping mappings ih =>
    intro space
    refine (rebuildMapping_revision range mapping).bind fun rebuilt same => ?_
    exact (ih rebuilt).mono fun _ after => after.trans same

omit mapE in
theorem rebuildRange_evolves (mappings : List (SegmentMappingRef × ℕ × ℕ × SegmentProperties)) :
    Leaves (Evolves space) (space.rebuildRange range mappings) := by
  refine (foldlM_rebuildMapping_revision _ mappings _).bind fun rebuilt same => ?_
  exact (touch_evolves same).mono fun _ raised => .inl raised.1

omit mapS in
theorem removeMappingRef_evolves :
    Leaves (fun removed => ∀ space', removed = some space' → Evolves space space')
      (space.removeMappingRef mappingId) := by
  unfold removeMappingRef
  split
  · exact leaves_ok nofun
  · refine (removePlacement_same _ _).bind fun removed same => leaves_ok ?_
    intro space' eq
    cases eq
    exact .inr same

omit mapS in
theorem updateMappingRef_evolves :
    Leaves (Evolves space) (space.updateMappingRef mappingRef range) := by
  refine leaves_bind_any fun placement => ?_
  refine (updateMappingPlacement_same mappingRef placement.priority _).bind fun updated same => ?_
  exact (touch_evolves same.1).mono fun _ raised => .inl raised.1

end AddressSpace

end Fugue.Storage.Segments
