import Fugue.Lib.Window
import Fugue.Storage.Entities.WriteBack

/-!
# Ranges read from a cursor

`cursor_bounds` (`fugue-core/src/ir/persistent.rs:28-57`): a range of keys is asked for by a component
that the keys are ordered by first, and read from the key where an earlier read has ended.
-/

namespace Fugue.Storage.Entities

variable {K : Type*} [LinearOrder K]

/-- The end of a range admits the key. -/
def Bound.admits (stop : Bound K) (key : K) : Bool :=
  match stop with
  | .included last => decide (key ≤ last)
  | .excluded last => decide (key < last)
  | .unbounded => true

def Bound.map {C T : Type*} (rank : C → T) : Bound C → Bound T
  | .included component => .included (rank component)
  | .excluded component => .excluded (rank component)
  | .unbounded => .unbounded

end Fugue.Storage.Entities

namespace Fugue.Ir

open Fugue.Lib Fugue.Storage.Entities

variable {C K V : Type} [LinearOrder K]

/-- The cursor is at the start of the range or behind it (`persistent.rs:49-53`). -/
def reaches (start : Bound K) (after : K) : Bool :=
  match start with
  | .included start => decide (start ≤ after)
  | .excluded start => decide (start ≤ after)
  | .unbounded => true

/-- The start of a range of components (`persistent.rs:38-42`). -/
def startBound (minimum maximum : C → K) : Bound C → Bound K
  | .included component => .included (minimum component)
  | .excluded component => .excluded (maximum component)
  | .unbounded => .unbounded

/-- The end of a range of components (`persistent.rs:43-47`). -/
def stopBound (minimum maximum : C → K) : Bound C → Bound K
  | .included component => .included (maximum component)
  | .excluded component => .excluded (minimum component)
  | .unbounded => .unbounded

/-- `cursor_bounds` (`persistent.rs:28-57`). -/
def cursorBounds (range : Bound C × Bound C) (after : Option K) (minimum maximum : C → K) :
    Bound K × Bound K :=
  let start := startBound minimum maximum range.1
  let stop := stopBound minimum maximum range.2
  match after with
  | none => (start, stop)
  | some after => (if reaches start after then .excluded after else start, stop)

/-- The entries from the start on, up to the first that the end does not admit. -/
def scan (m : OrdMap K V) (bounds : Bound K × Bound K) : List (K × V) :=
  (m.entries.filter fun entry => bounds.1.includes entry.1).takeWhile fun entry =>
    bounds.2.admits entry.1

theorem Bound.admits_of_lt {stop : Bound K} {key later : K} (lt : key < later)
    (admits : stop.admits later = true) : stop.admits key = true := by
  cases stop with
  | included last => exact decide_eq_true (lt.le.trans (of_decide_eq_true admits))
  | excluded last => exact decide_eq_true (lt.trans (of_decide_eq_true admits))
  | unbounded => rfl

/-- A scan stops behind the last entry that its end admits. -/
theorem scan_eq_filter (m : OrdMap K V) (bounds : Bound K × Bound K) :
    scan m bounds = m.entries.filter fun entry =>
      bounds.1.includes entry.1 && bounds.2.admits entry.1 := by
  unfold scan
  rw [takeWhile_eq_filter, List.filter_filter]
  · exact List.filter_congr fun entry _ => Bool.and_comm _ _
  · exact (m.sorted.filter _).imp fun lt admits => Bound.admits_of_lt lt admits

/-- The key is behind the cursor. -/
def Beyond (after : Option K) (key : K) : Prop := ∀ cursor, after = some cursor → cursor < key

/-- A cursor that the start reaches takes its place, and one that it does not reach is before every
key from the start on. -/
theorem includes_resume (start : Bound K) (after key : K) :
    (if reaches start after then Bound.excluded after else start).includes key = true ↔
      start.includes key = true ∧ after < key := by
  cases start with
  | included first =>
    unfold reaches Bound.includes
    by_cases reached : first ≤ after
    · rw [if_pos (decide_eq_true reached), decide_eq_true_eq, decide_eq_true_eq]
      exact ⟨fun lt => ⟨reached.trans lt.le, lt⟩, fun both => both.2⟩
    · rw [if_neg (by rwa [decide_eq_true_eq]), decide_eq_true_eq]
      exact ⟨fun le => ⟨le, (not_le.mp reached).trans_le le⟩, fun both => both.1⟩
  | excluded first =>
    unfold reaches Bound.includes
    by_cases reached : first ≤ after
    · rw [if_pos (decide_eq_true reached), decide_eq_true_eq, decide_eq_true_eq]
      exact ⟨fun lt => ⟨reached.trans_lt lt, lt⟩, fun both => both.2⟩
    · rw [if_neg (by rwa [decide_eq_true_eq]), decide_eq_true_eq]
      exact ⟨fun lt => ⟨lt, (not_le.mp reached).trans lt⟩, fun both => both.1⟩
  | unbounded => simp [reaches, Bound.includes]

section Range

variable {T : Type} [LinearOrder T] {minimum maximum : C → K} {rank : C → T} {part : K → T}
  {key : K}

theorem includes_startBound (low : ∀ component, minimum component ≤ key ↔ rank component ≤ part key)
    (high : ∀ component, key ≤ maximum component ↔ part key ≤ rank component) (start : Bound C) :
    (startBound minimum maximum start).includes key = (start.map rank).includes (part key) := by
  cases start with
  | included component => exact decide_eq_decide.mpr (low component)
  | excluded component =>
    apply decide_eq_decide.mpr
    rw [← not_le, high, not_le]
  | unbounded => rfl

theorem admits_stopBound (low : ∀ component, minimum component ≤ key ↔ rank component ≤ part key)
    (high : ∀ component, key ≤ maximum component ↔ part key ≤ rank component) (stop : Bound C) :
    (stopBound minimum maximum stop).admits key = (stop.map rank).admits (part key) := by
  cases stop with
  | included component => exact decide_eq_decide.mpr (high component)
  | excluded component =>
    apply decide_eq_decide.mpr
    rw [← not_le, low, not_le]
  | unbounded => rfl

/-- Pairs whose second parts are in order are compared by the first ones. -/
theorem toLex_le_iff_of_le {A B : Type} [LinearOrder A] [LinearOrder B] {a a' : A} {b b' : B}
    (le : b ≤ b') : toLex (a, b) ≤ toLex (a', b') ↔ a ≤ a' := by
  rw [Prod.Lex.toLex_le_toLex, le_iff_lt_or_eq (a := a)]
  exact or_congr_right (and_iff_left le)

/-- What is read: the keys with a component of the range that are behind the cursor. The least and
the greatest key of a component are compared with a key as the components are. -/
theorem inRange_cursorBounds {range : Bound C × Bound C} {after : Option K}
    (low : ∀ component, minimum component ≤ key ↔ rank component ≤ part key)
    (high : ∀ component, key ≤ maximum component ↔ part key ≤ rank component) :
    ((cursorBounds range after minimum maximum).1.includes key &&
        (cursorBounds range after minimum maximum).2.admits key) = true ↔
      (range.1.map rank).includes (part key) = true ∧ (range.2.map rank).admits (part key) = true ∧
        Beyond after key := by
  have begins := includes_startBound low high range.1
  have ends := admits_stopBound low high range.2
  rw [Bool.and_eq_true]
  unfold cursorBounds Beyond
  cases after with
  | none =>
    rw [begins, ends]
    simp
  | some cursor =>
    rw [includes_resume, begins, ends]
    simp only [Option.some.injEq, forall_eq']
    tauto

end Range

end Fugue.Ir
