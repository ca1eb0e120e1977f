import Fugue.Bv.Spec

/-!
# Interned constants

`IlConstantInterner` (`fugue-core/src/il/common/constants.rs`): the bytes of a constant wider than
64 bits go to a byte storage once, and the constant is named by their offset. `intern_spec` says
that the bytes at the offset are those of the value, and stay so while the storage grows.
-/

namespace Fugue.Il

open Fugue.Bv List

/-- `IlConstantInterner` (`constants.rs:6-9`); the map is a list of entries. -/
structure IlConstantInterner where
  offsets : List (List UInt8 × Nat)
  deriving DecidableEq, Repr

def storedBytes (storage : List UInt8) (offset length : Nat) : Option (List UInt8) :=
  if offset + length ≤ storage.length then some ((storage.drop offset).take length) else none

namespace IlConstantInterner

/-- `new` (`constants.rs:12-17`). -/
def new : IlConstantInterner := ⟨[]⟩

/-- `intern` (`constants.rs:25-43`): the immediate of the constant, with the interner and the
storage after it. -/
def intern (interner : IlConstantInterner) (storage : List UInt8) (value : BitVec) :
    Option (Nat × IlConstantInterner × List UInt8) := do
  let widthBytes := (value.bits + 7) / 8
  let bytes ← value.toLeBytes widthBytes
  if value.bits ≤ 64 then return (BitVec.ofLeBytes bytes, interner, storage)
  else
    match interner.offsets.lookup bytes with
    | some offset => return (offset, interner, storage)
    | none =>
      return (storage.length, ⟨(bytes, storage.length) :: interner.offsets⟩, storage ++ bytes)

/-- The storage has the bytes of every entry at its offset. -/
def Indexes (interner : IlConstantInterner) (storage : List UInt8) : Prop :=
  ∀ bytes offset, interner.offsets.lookup bytes = some offset →
    storedBytes storage offset bytes.length = some bytes

end IlConstantInterner

section

variable {storage bytes : List UInt8} {offset length : Nat}

theorem storedBytes_append (suffix : List UInt8)
    (stored : storedBytes storage offset length = some bytes) :
    storedBytes (storage ++ suffix) offset length = some bytes := by
  unfold storedBytes at *
  split at stored
  · rw [if_pos (by rw [length_append]; omega), ← stored,
      drop_append_of_le_length (by omega),
      take_append_of_le_length (by rw [length_drop]; omega)]
  · cases stored

theorem storedBytes_length (stored : storedBytes storage offset length = some bytes) :
    bytes.length = length := by
  unfold storedBytes at stored
  split at stored
  · cases stored
    rw [length_take, length_drop]
    omega
  · cases stored

theorem storedBytes_at_end (storage bytes : List UInt8) :
    storedBytes (storage ++ bytes) storage.length bytes.length = some bytes := by
  rw [storedBytes, if_pos (by rw [length_append]), drop_left, take_length]

end

namespace IlConstantInterner

theorem new_indexes (storage : List UInt8) : new.Indexes storage := by
  intro bytes offset found
  cases found

/-- Interning a wide value names its bytes, and keeps what was stored. -/
theorem intern_spec {interner : IlConstantInterner} {storage : List UInt8}
    (indexes : interner.Indexes storage) {value : BitVec} (valid : value.Valid)
    (wide : 64 < value.bits) :
    ∃ offset interner' suffix,
      interner.intern storage value = some (offset, interner', storage ++ suffix) ∧
      interner'.Indexes (storage ++ suffix) ∧
      storedBytes (storage ++ suffix) offset ((value.bits + 7) / 8) =
        some (BitVec.leBytes ((value.bits + 7) / 8) value.toNat) := by
  have notNarrow : ¬ value.bits ≤ 64 := by omega
  have length := BitVec.length_leBytes ((value.bits + 7) / 8) value.toNat
  unfold intern
  simp only [BitVec.toLeBytes_spec valid rfl, Lib.some_bind, if_neg notNarrow]
  cases found : interner.offsets.lookup
      (BitVec.leBytes ((value.bits + 7) / 8) value.toNat) with
  | some offset =>
    refine ⟨offset, interner, [], by rw [append_nil]; rfl, ?_, ?_⟩
    · rw [append_nil]
      exact indexes
    · rw [append_nil, ← length, indexes _ _ found]
      rw [length]
  | none =>
    refine ⟨storage.length, _, _, rfl, ?_, ?_⟩
    · intro bytes offset entry
      rw [lookup_cons] at entry
      split at entry
      · rename_i same
        cases entry
        rw [eq_of_beq same]
        exact storedBytes_at_end _ _
      · exact storedBytes_append _ (indexes _ _ entry)
    · have stored := storedBytes_at_end storage
        (BitVec.leBytes ((value.bits + 7) / 8) value.toNat)
      rwa [length] at stored

end IlConstantInterner

end Fugue.Il
