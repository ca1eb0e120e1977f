import Fugue.Ir.Address

/-!
# The contexts of blocks

`BlockContexts` of `fugue-core/src/analysis/function/recovery/builder.rs`: the addresses of the
blocks of a function, with the context that each was found in. As long as the contexts are empty,
only the addresses are stored. The order of an `IndexMap` is not kept.
-/

namespace Fugue.Analysis

open Fugue.Ir List

/-- `ContextUpdate` (`fugue-core/src/lifter/mod.rs:160-164`). -/
structure ContextUpdate where
  start : ℕ
  stop : ℕ
  value : ℕ
  deriving DecidableEq

/-- `ContextSet`: the updates in its slots, of which the first ones are taken. -/
abbrev ContextSet := List ContextUpdate

abbrev ContextMap := AList fun _ : Address => ContextSet

/-- `BlockContexts` (`builder.rs:122-125`). -/
inductive BlockContexts where
  | addresses (addresses : AList fun _ : Address => Unit)
  | contexts (contexts : ContextMap)

namespace BlockContexts

/-- `BlockContexts::default` (`builder.rs:127-131`). -/
def default : BlockContexts := .addresses ∅

/-- `BlockContexts::contains` (`builder.rs:134-139`). -/
def contains : BlockContexts → Address → Bool
  | .addresses known, address => decide (address ∈ known)
  | .contexts known, address => decide (address ∈ known)

/-- `BlockContexts::get` (`builder.rs:148-153`). -/
def get (empty : ContextSet) : BlockContexts → Address → Option ContextSet
  | .addresses known, address => if address ∈ known then some empty else none
  | .contexts known, address => known.lookup address

/-- What `BlockContexts::addresses` yields (`builder.rs:155-160`). -/
def addressesOf : BlockContexts → List Address
  | .addresses known => known.keys
  | .contexts known => known.keys

/-- What `BlockContexts::iter` yields (`builder.rs:162-176`). -/
def iter (empty : ContextSet) : BlockContexts → List (Address × ContextSet)
  | .addresses known => known.keys.map fun address => (address, empty)
  | .contexts known => known.entries.map fun entry => (entry.1, entry.2)

/-- `IndexMap::extend` with empty contexts (`builder.rs:187-191`). -/
def extend (map : ContextMap) (addresses : List Address) : ContextMap :=
  addresses.foldl (fun map address => map.insert address []) map

/-- `BlockContexts::insert` (`builder.rs:178-200`). -/
def insert (address : Address) (context : ContextSet) : BlockContexts → BlockContexts
  | .addresses known =>
    if context.isEmpty then .addresses (known.insert address ())
    else .contexts ((extend ∅ known.keys).insert address context)
  | .contexts known =>
    .contexts (if address ∈ known then known else known.insert address context)

/-- `BlockContexts::remove` (`builder.rs:202-211`). -/
def remove (address : Address) : BlockContexts → BlockContexts
  | .addresses known => .addresses (known.erase address)
  | .contexts known => .contexts (known.erase address)

/-- `BlockContexts::clear` (`builder.rs:213-218`). -/
def clear : BlockContexts → BlockContexts
  | .addresses _ => .addresses ∅
  | .contexts _ => .contexts ∅

inductive Op where
  | insert (address : Address) (context : ContextSet)
  | remove (address : Address)
  | clear

def apply (blocks : BlockContexts) : Op → BlockContexts
  | .insert address context => blocks.insert address context
  | .remove address => blocks.remove address
  | .clear => blocks.clear

def run (ops : List Op) : BlockContexts := ops.foldl apply default

/-- What an operation does to the context of an address: the first insert counts. -/
def record (address : Address) : Option ContextSet → Op → Option ContextSet
  | old, .insert other context => if other = address then old <|> some context else old
  | old, .remove other => if other = address then none else old
  | _, .clear => none

/-- The context of the first insert after the last removal. -/
def recorded (ops : List Op) (address : Address) : Option ContextSet :=
  ops.foldl (record address) none

/-- The blocks answer as the map: `context_at` and `contexts` are `get` and `iter` with the empty
context (`builder.rs:505-511`). -/
structure Agrees (blocks : BlockContexts) (map : Address → Option ContextSet) : Prop where
  contains : ∀ address, blocks.contains address = (map address).isSome
  contextAt : ∀ address, blocks.get [] address = map address
  nodup : blocks.addressesOf.Nodup
  addresses : ∀ address, address ∈ blocks.addressesOf ↔ (map address).isSome
  contexts : ∀ address context, (address, context) ∈ blocks.iter [] ↔ map address = some context

variable {blocks : BlockContexts} {address other : Address} {context : ContextSet} {op : Op}
  {ops : List Op}

theorem agrees_get (blocks : BlockContexts) : blocks.Agrees (blocks.get []) := by
  cases blocks with
  | addresses known =>
    refine ⟨fun address => ?_, fun _ => rfl, known.keys_nodup, fun address => ?_,
      fun address context => ?_⟩
    · by_cases has : address ∈ known <;> simp [contains, get, has]
    · by_cases has : address ∈ known.keys <;> simp [addressesOf, get, AList.mem_keys, has]
    · by_cases has : address ∈ known.keys <;> simp [iter, get, AList.mem_keys, has]
  | contexts known =>
    refine ⟨fun address => ?_, fun _ => rfl, known.keys_nodup, fun address => ?_,
      fun address context => ?_⟩
    · simp [contains, get, ← AList.lookup_isSome]
    · exact AList.lookup_isSome.symm
    · rw [get, ← Option.mem_def, AList.mem_lookup_iff]
      simp [iter]

theorem agrees_iff {map : Address → Option ContextSet} :
    blocks.Agrees map ↔ ∀ address, blocks.get [] address = map address := by
  constructor
  · exact Agrees.contextAt
  · intro same
    rw [← funext same]
    exact agrees_get blocks

theorem lookup_extend (keys : List Address) : ∀ map : ContextMap,
    (extend map keys).lookup other = if other ∈ keys then some [] else map.lookup other := by
  induction keys with
  | nil => simp [extend]
  | cons address keys ih =>
    intro map
    rw [extend, foldl_cons, ← extend, ih]
    rcases eq_or_ne other address with rfl | ne
    · simp
    · simp [ne]

def isAddresses : BlockContexts → Bool
  | .addresses _ => true
  | .contexts _ => false

def Op.addsContext : Op → Bool
  | .insert _ context => !context.isEmpty
  | _ => false

theorem get_insert : (blocks.insert address context).get [] other =
    if other = address then
      if blocks.isAddresses ∧ context ≠ [] then some context
      else blocks.get [] address <|> some context
    else blocks.get [] other := by
  cases blocks with
  | addresses known =>
    by_cases plain : context = []
    · by_cases same : other = address <;> by_cases has : other ∈ known <;>
        simp_all [insert, get]
    · by_cases same : other = address <;>
        simp [insert, plain, get, isAddresses, same, lookup_extend, AList.mem_keys]
  | contexts known =>
    by_cases has : address ∈ known
    · obtain ⟨kept, found⟩ := Option.isSome_iff_exists.mp (AList.lookup_isSome.mpr has)
      by_cases same : other = address <;> simp [insert, get, isAddresses, has, found, same]
    · have absent := AList.lookup_eq_none.mpr has
      by_cases same : other = address <;>
        simp [insert, get, isAddresses, has, absent, same]

theorem get_remove : (blocks.remove address).get [] other =
    if other = address then none else blocks.get [] other := by
  cases blocks with
  | addresses known => by_cases same : other = address <;> simp [remove, get, same]
  | contexts known =>
    by_cases same : other = address
    · subst same
      simp [remove, get]
    · simp [remove, get, same]

theorem isAddresses_apply :
    (blocks.apply op).isAddresses = (blocks.isAddresses && !op.addsContext) := by
  cases blocks with
  | addresses known =>
    cases op with
    | insert address context =>
      cases context <;> simp [apply, insert, isAddresses, Op.addsContext]
    | remove address => simp [apply, remove, isAddresses, Op.addsContext]
    | clear => simp [apply, clear, isAddresses, Op.addsContext]
  | contexts known => cases op <;> simp [apply, insert, remove, clear, isAddresses]

/-- Only addresses are stored until an operation brings a context. -/
theorem isAddresses_run : (run ops).isAddresses ↔ ∀ op ∈ ops, ¬ op.addsContext := by
  induction ops using reverseRecOn with
  | nil => simp [run, default, isAddresses]
  | append_singleton ops op ih =>
    rw [run, foldl_concat, ← run, isAddresses_apply, Bool.and_eq_true, ih]
    simp [or_imp, forall_and]

/-- An operation does what it should, unless it brings the first context to a known address. -/
theorem get_apply
    (first : ∀ address context, op = .insert address context → context ≠ [] →
      blocks.isAddresses → blocks.get [] address = none) :
    (blocks.apply op).get [] other = record other (blocks.get [] other) op := by
  cases op with
  | insert address context =>
    rw [apply, get_insert, record]
    by_cases same : other = address
    · subst same
      by_cases upgrade : blocks.isAddresses ∧ context ≠ []
      · simp [upgrade, first other context rfl upgrade.2 upgrade.1]
      · simp [upgrade]
    · simp [same, Ne.symm same]
  | remove address =>
    rw [apply, get_remove, record]
    simp [eq_comm]
  | clear => cases blocks <;> rfl

/-- The blocks are the map at every point exactly when the first context that is not empty is
inserted for an address that is not recorded then: on the addresses alone that insert overwrites
what was recorded (`builder.rs:192`), while every other one keeps it. -/
theorem run_agrees_iff :
    (∀ done, done <+: ops → (run done).Agrees (recorded done)) ↔
      ∀ done address context, done ++ [.insert address context] <+: ops → context ≠ [] →
        (∀ op ∈ done, ¬ op.addsContext) → recorded done address = none := by
  constructor
  · intro agrees done address context before some_ plain
    have only := isAddresses_run.mpr plain
    have old := (agrees done ((prefix_append ..).trans before)).contextAt address
    have now := (agrees _ before).contextAt address
    rw [run, foldl_concat, ← run, apply, get_insert, if_pos rfl, if_pos ⟨only, some_⟩, recorded,
      foldl_concat, ← recorded, record, if_pos rfl] at now
    cases known : recorded done address with
    | none => rfl
    | some kept =>
      -- what is recorded beside addresses is the empty context, and the insert replaces it
      rw [known] at old now
      cases state : run done with
      | addresses known =>
        rw [state, get] at old
        have empty : kept = [] := by
          split at old <;> simp_all
        simp [empty] at now
        exact absurd now some_
      | contexts known =>
        rw [state] at only
        cases only
  · intro first done
    induction done using reverseRecOn with
    | nil => exact fun _ => agrees_iff.mpr fun _ => rfl
    | append_singleton done op ih =>
      intro before
      have known := ih ((prefix_append ..).trans before)
      rw [agrees_iff]
      intro address
      rw [run, foldl_concat, ← run, recorded, foldl_concat, ← recorded, ← known.contextAt]
      apply get_apply
      rintro other context rfl some_ only
      rw [known.contextAt]
      exact first done other context before some_ (isAddresses_run.mp only)

/-- An address that was inserted without a context takes the context of a later insert. -/
theorem insert_overwrites : ¬ ∀ ops : List Op, (run ops).Agrees (recorded ops) := by
  intro agrees
  have overwritten := (agrees [.insert ⟨0, 0⟩ [], .insert ⟨0, 0⟩ [⟨0, 1, 1⟩]]).contextAt ⟨0, 0⟩
  exact absurd overwritten (by decide)

end BlockContexts

end Fugue.Analysis
