import Fugue.Engine.WorkIndex

/-!
# The invariant of the work queue

An engine has a fixed list of analysers, each with its own phase and order, and makes items with
proper ranges only. These items are a class that the operations of the queue stay within, and `Inv`
says that the two indexes agree on a queue of them. What an operation does to the work that is
queued is said with `Covers`: an address, or work without a range, that an item of an analyser
covers.
-/

namespace Fugue.Engine

open Fugue.Lib Fugue.Ir

/-- The analysers of an engine: each has its own phase and its own order. -/
structure Analysers where
  count : Nat
  order : AnalyserId → Nat
  phase : AnalyserId → AnalysisPhase
  order_injective : ∀ a b, a < count → b < count → order a = order b → a = b

/-- An item that the engine can make for one of its analysers. -/
structure Belongs (analysers : Analysers) (item : WorkItem) : Prop where
  registered : item.analyser < analysers.count
  order : item.analyserOrder = analysers.order item.analyser
  phase : item.phase = analysers.phase item.analyser
  proper : ∀ range, item.range = some range → range.Proper

section Items

variable {analysers : Analysers} {item other : WorkItem}

theorem SameWork.belongs (same : SameWork item other) (belongs : Belongs analysers other) :
    Belongs analysers item := by
  refine ⟨?_, ?_, ?_, ?_⟩
  · rw [same.analyser]; exact belongs.registered
  · rw [same.order, same.analyser]; exact belongs.order
  · rw [same.phase, same.analyser]; exact belongs.phase
  · rw [same.range]; exact belongs.proper

theorem Belongs.withRange (belongs : Belongs analysers item) {range : AddressRange}
    (proper : range.Proper) : Belongs analysers (item.withRange range) := by
  refine ⟨belongs.registered, belongs.order, belongs.phase, ?_⟩
  intro found eq
  cases eq
  exact proper

theorem hullRange_proper {left right : AddressRange} (proper : left.Proper)
    (proper' : right.Proper) : (hullRange left right).Proper := by
  have low := proper.start_le
  have high := proper.stop_lt
  have high' := proper'.stop_lt
  exact ⟨by simp only [hullRange]; omega, by simp only [hullRange]; omega⟩

theorem belongs_class (analysers : Analysers) : ItemClass analysers.count (Belongs analysers) where
  registered := Belongs.registered
  order := by
    intro item other belongs belongs' eq
    rw [belongs.order, belongs'.order] at eq
    exact analysers.order_injective _ _ belongs.registered belongs'.registered eq
  same := SameWork.belongs
  hull := fun belongs belongs' left right _ =>
    belongs.withRange (hullRange_proper (belongs.proper _ left) (belongs'.proper _ right))
  narrow := fun belongs => belongs.withRange
  continued := fun belongs => ⟨belongs.registered, belongs.order, belongs.phase, belongs.proper⟩
  bounded := by
    intro item range belongs eq
    have proper := belongs.proper range eq
    exact ⟨proper.start_le.trans_lt proper.stop_lt, proper.stop_lt⟩

end Items

namespace AnalysisWorkQueue

structure Inv (analysers : Analysers) (queue : AnalysisWorkQueue) : Prop where
  length : queue.keysByAnalyserAndRange.length = analysers.count
  keyed : ∀ key item, (key, item) ∈ queue.items.entries →
    key = item.key ∧ Belongs analysers item
  indexed : ∀ key item, (key, item) ∈ queue.items.entries →
    ∀ keys, queue.keysByAnalyserAndRange[item.analyser]? = some keys →
      (item.location, key) ∈ keys.entries
  located : ∀ analyser keys, queue.keysByAnalyserAndRange[analyser]? = some keys →
    ∀ location key, (location, key) ∈ keys.entries →
      ∃ item, (key, item) ∈ queue.items.entries ∧ item.analyser = analyser ∧
        item.location = location

variable {analysers : Analysers} {queue : AnalysisWorkQueue} {item : WorkItem}

theorem inv_iff_indexed :
    Inv analysers queue ↔ Indexed analysers.count (Belongs analysers) queue :=
  ⟨fun inv => ⟨inv.length, inv.keyed, inv.indexed, inv.located⟩,
    fun inv => ⟨inv.length, inv.keyed, inv.indexed, inv.located⟩⟩

/-- Taking an item out keeps the invariant and every other item. -/
theorem Inv.removeItem (inv : Inv analysers queue) {key : WorkKey}
    (mem : (key, item) ∈ queue.items.entries) :
    ∃ queue', queue.removeItem key item = some queue' ∧ Inv analysers queue' ∧
      ∀ x, x ∈ queue'.items.entries ↔ x ∈ queue.items.entries ∧ x.1 ≠ key := by
  obtain ⟨queue', step, inv', members⟩ :=
    removeItem_spec (belongs_class analysers) (inv_iff_indexed.mp inv) mem
  exact ⟨queue', step, inv_iff_indexed.mpr inv', members⟩

end AnalysisWorkQueue

end Fugue.Engine
