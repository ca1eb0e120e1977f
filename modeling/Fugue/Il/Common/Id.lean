import Mathlib

/-!
# Identifiers and errors of the intermediate languages

`fugue-core/src/il/common/id.rs` and `error.rs`. An identifier is a non-zero `u32` that stands for
the index one below it; the model keeps the index itself, and `tryFromIndex` keeps the limit of the
identifier space. `IlError` has the variants that the modelled functions return.
-/

namespace Fugue.Il

/-- `u32::MAX`. -/
def u32Max : Nat := 2 ^ 32 - 1

abbrev IlBlockId := Nat
abbrev IlBlockArgId := Nat
abbrev IlOpId := Nat
abbrev IlExprId := Nat
abbrev IlValueId := Nat

/-- `IlFormId`: the language an error is about. -/
inductive IlFormId where
  | pcode
  | ecode
  deriving DecidableEq, Repr

/-- `IlError` (`error.rs:7-71`), the variants of the modelled functions. -/
inductive IlError where
  | graphBlockCountMismatch (expected found : Nat)
  | idExhausted (kind : String)
  | inconsistentBlockSources
  | integerOverflow (what : String)
  | invalidArtefact (form : IlFormId)
  | missingComponent (form : IlFormId) (component : String)
  | missingIndexBoundary
  | overlappingRanges (start previousEnd : Nat)
  | rangeOutOfBounds (stop len : Nat)
  | reversedRange (start stop : Nat)
  | unsupportedOpcode (form : IlFormId)
  | widthMismatch (form : IlFormId)
  deriving DecidableEq, Repr

/-- `$name::try_from_index` (`id.rs:23-31`): the index plus one has to fit a `u32`. -/
def tryFromIndex (kind : String) (index : Nat) : Except IlError Nat :=
  if index + 1 ≤ u32Max then .ok index else .error (.idExhausted kind)

theorem tryFromIndex_ok {kind : String} {index : Nat} (fits : index + 1 ≤ u32Max) :
    tryFromIndex kind index = .ok index := if_pos fits

theorem tryFromIndex_eq_ok {kind : String} {index id : Nat}
    (h : tryFromIndex kind index = .ok id) : id = index ∧ index + 1 ≤ u32Max := by
  unfold tryFromIndex at h
  split at h
  · exact ⟨(Except.ok.inj h).symm, ‹_›⟩
  · exact absurd h (by simp)

end Fugue.Il
