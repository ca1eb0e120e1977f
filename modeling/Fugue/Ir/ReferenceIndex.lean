import Fugue.Ir.CursorBounds
import Fugue.Ir.References

/-!
# The reference index

`ReferenceIndex` (`fugue-core/src/ir/reference/index/mod.rs`): the entries by their keys and again
by their inverse keys. The persistent index (`index/persistent.rs`) and the transient one
(`index/transient.rs`) read a range of keys the same way.
-/

namespace Fugue.Ir

open Fugue.Lib Fugue.Storage.Entities

/-- The parts of an address are a `u16` and a `u64`. -/
structure Address.Typed (address : Address) : Prop where
  space : address.space < 2 ^ 16
  address : address.address < 2 ^ 64

/-- `Address::MINIMUM` (`address.rs:1765`). -/
def Address.minimum : Address := ⟨0, 0⟩

/-- `Address::MAXIMUM` (`address.rs:1766-1769`). -/
def Address.maximum : Address := ⟨2 ^ 16 - 1, 2 ^ 64 - 1⟩

theorem Address.minimum_le (address : Address) : Address.minimum.key ≤ address.key :=
  Prod.Lex.toLex_mono (Prod.mk_le_mk.mpr ⟨Nat.zero_le _, Nat.zero_le _⟩)

theorem Address.Typed.le_maximum {address : Address} (typed : address.Typed) :
    address.key ≤ Address.maximum.key :=
  Prod.Lex.toLex_mono (Prod.mk_le_mk.mpr
    ⟨Nat.le_sub_one_of_lt typed.space, Nat.le_sub_one_of_lt typed.address⟩)

/-- `AddressRange::end_address` (`address.rs:900-902`). -/
def AddressRange.endAddress (range : AddressRange) : Address := ⟨range.space, range.stop⟩

/-- `ReferenceTarget::minimum` (`reference/mod.rs:161-163`). -/
def ReferenceTarget.minimum : ReferenceTarget := .address .minimum

/-- `ReferenceTarget::maximum` (`reference/mod.rs:165-167`). -/
def ReferenceTarget.maximum : ReferenceTarget := .address .maximum

def ReferenceTarget.Typed : ReferenceTarget → Prop
  | .address place => place.Typed

theorem ReferenceTarget.minimum_le (target : ReferenceTarget) :
    ReferenceTarget.minimum.rank ≤ target.rank := by
  cases target with
  | address place => exact place.minimum_le

theorem ReferenceTarget.Typed.le_maximum {target : ReferenceTarget} (typed : target.Typed) :
    target.rank ≤ ReferenceTarget.maximum.rank := by
  cases target with
  | address place => exact Address.Typed.le_maximum typed

structure ReferenceKey.Typed (key : ReferenceKey) : Prop where
  from_ : key.from_.Typed
  target : key.target.Typed

/-- `InverseReferenceKey` (`index/mod.rs:37-41`). -/
structure InverseReferenceKey where
  target : ReferenceTarget
  from_ : Address
  kind : ReferenceKind
  deriving Repr

/-- `From<ReferenceKey> for InverseReferenceKey` (`index/mod.rs:61-65`). -/
def ReferenceKey.inverse (key : ReferenceKey) : InverseReferenceKey :=
  ⟨key.target, key.from_, key.kind⟩

/-- What the derived order of inverse keys compares. -/
def InverseReferenceKey.rank (key : InverseReferenceKey) : (ℕ ×ₗ ℕ) ×ₗ (ℕ ×ₗ ℕ) ×ₗ ℕ :=
  toLex (key.target.rank, toLex (key.from_.key, key.kind.byte))

theorem InverseReferenceKey.rank_injective : Function.Injective InverseReferenceKey.rank := by
  intro ⟨target, from_, kind⟩ ⟨target', from', kind'⟩ same
  obtain ⟨first, rest⟩ := Prod.mk.inj (toLex.injective same)
  obtain ⟨second, third⟩ := Prod.mk.inj (toLex.injective rest)
  obtain rfl : target = target' := ReferenceTarget.rank_injective first
  obtain rfl : from_ = from' := Address.key_injective second
  obtain rfl : kind = kind' := ReferenceKind.byte_injective third
  rfl

instance : LinearOrder InverseReferenceKey :=
  LinearOrder.lift' InverseReferenceKey.rank InverseReferenceKey.rank_injective

/-- `ReferenceIndex` (`index/mod.rs:177-180`): each entry is under its key and its inverse key. -/
structure ReferenceIndex where
  forward : OrdMap ReferenceKey ReferenceEntry
  inverse : OrdMap InverseReferenceKey ReferenceEntry
  typed : ∀ x ∈ forward.entries, x.1.Typed
  paired : ∀ key entry, (key, entry) ∈ forward.entries ↔ (key.inverse, entry) ∈ inverse.entries

namespace ReferenceIndex

/-- `ReferenceIndex::new` (`index/transient.rs:22-27`). -/
def new : ReferenceIndex where
  forward := .empty
  inverse := .empty
  typed := nofun
  paired _ _ := iff_of_false nofun nofun

/-- The entry of a key, as `try_get` (`index/persistent.rs:42-50`) and `get`
(`index/transient.rs:29-31`) find it. -/
def get (index : ReferenceIndex) (key : ReferenceKey) : Option ReferenceEntry :=
  index.forward.get? key

/-- `forward_bounds` (`index/mod.rs:518-528`). -/
def forwardBounds (from_ : Bound Address × Bound Address) (after : Option ReferenceKey) :
    Bound ReferenceKey × Bound ReferenceKey :=
  cursorBounds from_ after (fun from_ => ⟨from_, .minimum, .flow⟩)
    fun from_ => ⟨from_, .maximum, .data⟩

/-- `ReferenceIndex::references_from` (`index/mod.rs:563-573`). -/
def referencesFrom (index : ReferenceIndex) (from_ : Bound Address × Bound Address)
    (after : Option ReferenceKey) : List Reference :=
  (scan index.forward (forwardBounds from_ after)).map fun entry => entry.2.materialise entry.1

/-- `ReferenceIndex::references_in` (`index/mod.rs:587-594`). -/
def referencesIn (index : ReferenceIndex) (coverage : AddressRangeSet) : List Reference :=
  coverage.ranges.flatMap fun range =>
    index.referencesFrom (.included range.startAddress, .included range.endAddress) none

/-! ## What the ranges hold -/

theorem forward_low (component : Address) (key : ReferenceKey) :
    (⟨component, .minimum, .flow⟩ : ReferenceKey) ≤ key ↔ component.key ≤ key.from_.key :=
  toLex_le_iff_of_le
    (Prod.Lex.toLex_mono (Prod.mk_le_mk.mpr ⟨key.target.minimum_le, Nat.zero_le _⟩))

theorem forward_high (component : Address) {key : ReferenceKey} (typed : key.Typed) :
    key ≤ ⟨component, .maximum, .data⟩ ↔ key.from_.key ≤ component.key :=
  toLex_le_iff_of_le
    (Prod.Lex.toLex_mono (Prod.mk_le_mk.mpr ⟨typed.target.le_maximum, key.kind.byte_le⟩))

variable {index : ReferenceIndex}

theorem mem_scan_forward {from_ : Bound Address × Bound Address} {after : Option ReferenceKey}
    {x : ReferenceKey × ReferenceEntry} :
    x ∈ scan index.forward (forwardBounds from_ after) ↔ x ∈ index.forward.entries ∧
      (from_.1.map Address.key).includes x.1.from_.key = true ∧
      (from_.2.map Address.key).admits x.1.from_.key = true ∧ Beyond after x.1 := by
  rw [scan_eq_filter, List.mem_filter]
  refine and_congr_right fun mem => ?_
  exact @inRange_cursorBounds _ _ _ _ _ _ _ Address.key (fun key => key.from_.key) x.1 from_ after
    (fun component => forward_low component x.1)
    fun component => forward_high component (index.typed x mem)

theorem contains_iff_key {range : AddressRange} {address : Address} :
    range.Contains address ↔
      range.startAddress.key ≤ address.key ∧ address.key ≤ range.endAddress.key := by
  unfold Address.key AddressRange.startAddress AddressRange.endAddress AddressRange.Contains
  rw [Prod.Lex.toLex_le_toLex, Prod.Lex.toLex_le_toLex]
  constructor
  · intro ⟨same, low, high⟩
    exact ⟨.inr ⟨same, low⟩, .inr ⟨same.symm, high⟩⟩
  · intro ⟨low, high⟩
    rcases low with lt | ⟨same, low⟩
    · rcases high with gt | ⟨same, high⟩
      · exact absurd lt (Nat.lt_asymm gt)
      · exact absurd same.symm (ne_of_lt lt)
    · rcases high with gt | ⟨-, high⟩
      · exact absurd same (ne_of_gt gt)
      · exact ⟨same, low, high⟩

theorem mem_referencesIn {coverage : AddressRangeSet} {key : ReferenceKey} :
    (∃ reference ∈ index.referencesIn coverage, reference.key = key) ↔
      (∃ entry, index.get key = some entry) ∧ coverage.Contains key.from_ := by
  constructor
  · intro ⟨reference, mem, eq⟩
    obtain ⟨range, isRange, read⟩ := List.mem_flatMap.mp mem
    obtain ⟨entry, scanned, materialised⟩ := List.mem_map.mp read
    subst materialised
    rw [ReferenceEntry.key_materialise] at eq
    subst eq
    obtain ⟨inside, low, high, -⟩ := mem_scan_forward.mp scanned
    refine ⟨⟨entry.2, OrdMap.get?_eq_some.mpr inside⟩, ?_⟩
    refine AddressRangeSet.contains_iff_ranges.mpr ⟨range, isRange, ?_⟩
    exact contains_iff_key.mpr ⟨of_decide_eq_true low, of_decide_eq_true high⟩
  · intro ⟨⟨entry, found⟩, covered⟩
    obtain ⟨range, isRange, contains⟩ := AddressRangeSet.contains_iff_ranges.mp covered
    obtain ⟨low, high⟩ := contains_iff_key.mp contains
    refine ⟨entry.materialise key, ?_, ReferenceEntry.key_materialise entry key⟩
    refine List.mem_flatMap.mpr ⟨range, isRange, List.mem_map.mpr ⟨(key, entry), ?_, rfl⟩⟩
    exact mem_scan_forward.mpr ⟨OrdMap.get?_eq_some.mp found, decide_eq_true low,
      decide_eq_true high, nofun⟩

end ReferenceIndex

end Fugue.Ir
