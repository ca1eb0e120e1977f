import Fugue.Ir.AddressSets
import Fugue.Ir.SymbolStaging

/-!
# References and their entries

`fugue-core/src/ir/reference/mod.rs` and the entries of its index (`reference/index/mod.rs`): a
reference is given by its key, and its entry has for each provenance the properties that were found
for it there. An entry keeps its provenances in order and is searched by bisection; here they are a
map. An entry without a provenance is not kept, so an entry here has one.
-/

namespace Fugue.Ir

open Fugue.Lib

/-- The derived order of addresses (`address.rs:1462-1479`). -/
def Address.key (address : Address) : ℕ ×ₗ ℕ := toLex (address.space, address.address)

theorem Address.key_injective : Function.Injective Address.key := by
  intro ⟨space, address⟩ ⟨space', address'⟩ same
  obtain ⟨rfl, rfl⟩ := Prod.mk.inj (toLex.injective same)
  rfl

/-- `ReferenceKind` (`reference/mod.rs:31-34`). -/
inductive ReferenceKind where
  | flow
  | data
  deriving DecidableEq, Repr

/-- The `u8` of a kind. -/
def ReferenceKind.byte : ReferenceKind → ℕ
  | .flow => 0
  | .data => 1

theorem ReferenceKind.byte_injective : Function.Injective ReferenceKind.byte := by
  intro kind kind' same
  cases kind <;> cases kind' <;> first | rfl | cases same

theorem ReferenceKind.byte_le (kind : ReferenceKind) : kind.byte ≤ ReferenceKind.data.byte := by
  cases kind with
  | flow => exact Nat.zero_le _
  | data => exact le_refl _

/-- `ReferenceOrigin` (`reference/mod.rs:77-81`). -/
inductive ReferenceOrigin where
  | derived
  | asserted
  deriving DecidableEq, Repr

/-- `ReferenceProvenance` (`reference/mod.rs:97-101`). -/
inductive ReferenceProvenance where
  | asserted
  | function (id : IrId)
  | switch (id : IrId)
  deriving Repr

/-- What the derived order of provenances compares. -/
def ReferenceProvenance.rank : ReferenceProvenance → ℕ ×ₗ (ℕ ×ₗ ℕ)
  | .asserted => toLex (0, toLex (0, 0))
  | .function id => toLex (1, id.key)
  | .switch id => toLex (2, id.key)

theorem ReferenceProvenance.rank_injective : Function.Injective ReferenceProvenance.rank := by
  intro provenance provenance' same
  have same := Prod.mk.inj (toLex.injective same)
  cases provenance with
  | asserted => cases provenance' <;> first | rfl | cases same.1
  | function id =>
    cases provenance' with
    | function id' => rw [IrId.key_injective same.2]
    | asserted => cases same.1
    | switch id' => cases same.1
  | switch id =>
    cases provenance' with
    | switch id' => rw [IrId.key_injective same.2]
    | asserted => cases same.1
    | function id' => cases same.1

instance : LinearOrder ReferenceProvenance :=
  LinearOrder.lift' ReferenceProvenance.rank ReferenceProvenance.rank_injective

/-- `ReferenceProperties` (`reference/mod.rs:113-127`), a set of 16 flags. -/
abbrev ReferenceProperties := BitVec 16

/-- `ReferenceTarget` (`reference/mod.rs:150-152`). -/
inductive ReferenceTarget where
  | address (address : Address)
  deriving DecidableEq, Repr

/-- What the derived order of targets compares. -/
def ReferenceTarget.rank : ReferenceTarget → ℕ ×ₗ ℕ
  | .address place => place.key

theorem ReferenceTarget.rank_injective : Function.Injective ReferenceTarget.rank := by
  intro target target' same
  cases target with
  | address place =>
    cases target' with
    | address place' => exact congrArg _ (Address.key_injective same)

/-- `ReferenceKey` (`reference/mod.rs:355-359`). -/
structure ReferenceKey where
  from_ : Address
  target : ReferenceTarget
  kind : ReferenceKind
  deriving Repr

/-- What the derived order of keys compares. -/
def ReferenceKey.rank (key : ReferenceKey) : (ℕ ×ₗ ℕ) ×ₗ (ℕ ×ₗ ℕ) ×ₗ ℕ :=
  toLex (key.from_.key, toLex (key.target.rank, key.kind.byte))

theorem ReferenceKey.rank_injective : Function.Injective ReferenceKey.rank := by
  intro ⟨from_, target, kind⟩ ⟨from', target', kind'⟩ same
  obtain ⟨first, rest⟩ := Prod.mk.inj (toLex.injective same)
  obtain ⟨second, third⟩ := Prod.mk.inj (toLex.injective rest)
  obtain rfl : from_ = from' := Address.key_injective first
  obtain rfl : target = target' := ReferenceTarget.rank_injective second
  obtain rfl : kind = kind' := ReferenceKind.byte_injective third
  rfl

instance : LinearOrder ReferenceKey :=
  LinearOrder.lift' ReferenceKey.rank ReferenceKey.rank_injective

/-- `Reference` (`reference/mod.rs:205-211`). -/
structure Reference where
  from_ : Address
  target : ReferenceTarget
  kind : ReferenceKind
  properties : ReferenceProperties
  origin : ReferenceOrigin
  deriving DecidableEq, Repr

namespace Reference

/-- `Reference::new` (`reference/mod.rs:214-227`). -/
def new (from_ : Address) (target : ReferenceTarget) (kind : ReferenceKind)
    (properties : ReferenceProperties) : Reference :=
  ⟨from_, target, kind, properties, .asserted⟩

variable (reference : Reference)

/-- `Reference::with_origin` (`reference/mod.rs:249-252`). -/
def withOrigin (origin : ReferenceOrigin) : Reference :=
  { reference with origin }

/-- `Reference::with_merged_properties` (`reference/mod.rs:254-257`). -/
def withMergedProperties (properties : ReferenceProperties) : Reference :=
  { reference with properties := reference.properties ||| properties }

/-- `Reference::key` (`reference/mod.rs:323-325`). -/
def key : ReferenceKey :=
  ⟨reference.from_, reference.target, reference.kind⟩

@[simp]
theorem key_withMergedProperties (properties : ReferenceProperties) :
    (reference.withMergedProperties properties).key = reference.key := rfl

end Reference

/-- `ReferenceEntry` (`reference/index/mod.rs:87-89`): the provenances with their properties. -/
structure ReferenceEntry where
  provenances : OrdMap ReferenceProvenance ReferenceProperties
  visible : provenances.entries ≠ []

instance : DecidableEq ReferenceEntry := fun left right =>
  decidable_of_iff (left.provenances.entries = right.provenances.entries) (by
    constructor
    · intro same
      obtain ⟨⟨entries, sorted⟩, visible⟩ := left
      obtain ⟨⟨entries', sorted'⟩, visible'⟩ := right
      dsimp only at same
      subst same
      rfl
    · intro same
      rw [same])

namespace ReferenceEntry

theorem insert_visible (provenances : OrdMap ReferenceProvenance ReferenceProperties)
    (provenance : ReferenceProvenance) (properties : ReferenceProperties) :
    (provenances.insert provenance properties).entries ≠ [] :=
  List.ne_nil_of_mem (OrdMap.mem_insert.mpr (.inl rfl))

/-- `ReferenceEntry::new` (`index/mod.rs:92-96`). -/
def new (provenance : ReferenceProvenance) (properties : ReferenceProperties) : ReferenceEntry :=
  ⟨OrdMap.empty.insert provenance properties, insert_visible _ _ _⟩

variable (entry : ReferenceEntry)

/-- `ReferenceEntry::set_provenance` (`index/mod.rs:98-117`), and nothing if the entry is empty then
(`index/mod.rs:304`, `362`). -/
def setProvenance (provenance : ReferenceProvenance)
    (properties : Option ReferenceProperties) : Option ReferenceEntry :=
  let provenances := entry.provenances.put provenance properties
  if visible : provenances.entries ≠ [] then some ⟨provenances, visible⟩ else none

/-- `ReferenceEntry::has_provenance` (`index/mod.rs:119-123`). -/
def hasProvenance (provenance : ReferenceProvenance) : Bool :=
  (entry.provenances.get? provenance).isSome

/-- `ReferenceEntry::merge_provenance` (`index/mod.rs:129-139`). -/
def mergeProvenance (provenance : ReferenceProvenance)
    (properties : ReferenceProperties) : ReferenceEntry :=
  let properties := match entry.provenances.get? provenance with
    | some known => known ||| properties
    | none => properties
  ⟨entry.provenances.insert provenance properties, insert_visible _ _ _⟩

/-- `ReferenceEntry::materialise` (`index/mod.rs:146-172`). -/
def materialise (key : ReferenceKey) : Reference :=
  let first := entry.provenances.entries.head entry.visible
  if first.1 = .asserted then Reference.new key.from_ key.target key.kind first.2
  else
    let properties := match entry.provenances.entries with
      | [(_, properties)] => properties
      | provenances => (provenances.map Prod.snd).foldl (· ||| ·) 0
    (Reference.new key.from_ key.target key.kind properties).withOrigin .derived

@[simp]
theorem key_materialise (key : ReferenceKey) :
    (entry.materialise key).key = key := by
  unfold materialise
  dsimp only
  split
  · rfl
  · rfl

end ReferenceEntry

end Fugue.Ir
