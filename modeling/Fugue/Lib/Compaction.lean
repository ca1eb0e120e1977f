import Fugue.Lib.Window
import Mathlib

/-!
# Moving pieces of a buffer together

Pieces of a buffer are copied one after the other to a place of the buffer itself. No piece is
overwritten before it is copied when each of them lies before that place or not before the end of
what is copied (`Clear`).
-/

namespace Fugue.Lib

open List Option

universe u

variable {α : Type u}

/-- A piece of a buffer is copied to another place of it, where they may overlap; `none` if one of
them is not within the buffer. -/
def copyWithin (list : List α) (source size target : ℕ) : Option (List α) := do
  copyAt list target (← slice list source (source + size))

/-- A piece is copied unless it is in its place. -/
def movePiece (list : List α) (source size target : ℕ) : Option (List α) :=
  if source = target then some list else copyWithin list source size target

abbrev Piece := ℕ × ℕ

def gathered (list : List α) (pieces : List Piece) : List α :=
  (pieces.map fun piece => (list.drop piece.1).take piece.2).flatten

/-- Each piece is before the place that the pieces are copied to, or not before the end of what is
copied there when it is its turn. -/
def Clear (base : ℕ) : ℕ → List Piece → Prop
  | _, [] => True
  | done, piece :: pieces =>
    (piece.1 + piece.2 ≤ base ∨ base + done ≤ piece.1) ∧ Clear base (done + piece.2) pieces

/-- The pieces are moved to a place, one after the other. -/
def copyTogether (base : ℕ) : ℕ → List Piece → List α → Option (List α)
  | _, [], list => some list
  | done, piece :: pieces, list => do
    copyTogether base (done + piece.2) pieces (← movePiece list piece.1 piece.2 (base + done))

theorem movePiece_eq {list : List α} {source size target : ℕ}
    (within : source + size ≤ list.length) (room : target + size ≤ list.length) :
    movePiece list source size target =
      some (list.take target ++ (list.drop source).take size ++ list.drop (target + size)) := by
  have length : ((list.drop source).take size).length = size := by
    rw [length_take, length_drop]
    omega
  unfold movePiece
  split
  · rename_i same
    rw [same, ← take_add, take_append_drop]
  unfold copyWithin slice copyAt
  rw [if_pos ⟨Nat.le_add_right _ _, within⟩, Nat.add_sub_cancel_left]
  dsimp only [bind_eq_bind, bind_some]
  rw [length, if_pos room]

theorem movePiece_front (before piece after : List α) :
    movePiece (before ++ piece ++ after) before.length piece.length 0 =
      some (piece ++ (before ++ piece ++ after).drop piece.length) := by
  rw [movePiece_eq (by rw [length_append, length_append]; omega)
    (by rw [length_append, length_append]; omega), take_zero, nil_append,
    zero_add, append_assoc, drop_left, take_left]

theorem take_drop_of_clear {list moved : List α} {base source size : ℕ}
    (fits : base + moved.length ≤ list.length)
    (clear : source + size ≤ base ∨ base + moved.length ≤ source) :
    ((list.take base ++ moved ++ list.drop (base + moved.length)).drop source).take size =
      (list.drop source).take size := by
  have length : (list.take base).length = base := by
    rw [length_take]
    omega
  refine ext_getElem? fun i => ?_
  rw [getElem?_take, getElem?_take, getElem?_drop, getElem?_drop]
  by_cases lt : i < size
  · rw [if_pos lt, if_pos lt]
    rcases clear with before | after
    · rw [append_assoc, getElem?_append_left (by omega), getElem?_take,
        if_pos (by omega)]
    · rw [getElem?_append_right (by rw [length_append]; omega), getElem?_drop,
        length_append, length]
      congr 1
      omega
  · rw [if_neg lt, if_neg lt]

/-- The pieces end up together, and the rest of the buffer stays. -/
theorem copyTogether_eq (list : List α) (base : ℕ) : ∀ (pieces : List Piece) (moved : List α),
    Clear base moved.length pieces →
    (∀ piece ∈ pieces, piece.1 + piece.2 ≤ list.length) →
    base + moved.length + (pieces.map Prod.snd).sum ≤ list.length →
    copyTogether base moved.length pieces
        (list.take base ++ moved ++ list.drop (base + moved.length)) =
      some (list.take base ++ (moved ++ gathered list pieces) ++
        list.drop (base + (moved ++ gathered list pieces).length)) := by
  intro pieces
  induction pieces with
  | nil =>
    intro moved _ _ _
    unfold gathered
    rw [map_nil, flatten_nil, append_nil]
    rfl
  | cons piece pieces ih =>
    intro moved clear within room
    obtain ⟨first, others⟩ := clear
    obtain ⟨inside, rest⟩ := forall_mem_cons.mp within
    rw [map_cons, sum_cons] at room
    have fits : base + moved.length ≤ list.length := by omega
    have length : (list.take base ++ moved ++ list.drop (base + moved.length)).length =
        list.length := by
      rw [length_append, length_append, length_take, length_drop]
      omega
    have taken : ((list.drop piece.1).take piece.2).length = piece.2 := by
      rw [length_take, length_drop]
      omega
    have front : (list.take base).length = base := by
      rw [length_take]
      omega
    have placed : (list.take base ++ moved).length = base + moved.length := by
      rw [length_append, front]
    -- what was moved before the piece stays, and so does the rest after it
    have before : (list.take base ++ moved ++ list.drop (base + moved.length)).take
        (base + moved.length) = list.take base ++ moved := take_left' placed
    have after : (list.take base ++ moved ++ list.drop (base + moved.length)).drop
        (base + moved.length + piece.2) = list.drop (base + (moved.length + piece.2)) := by
      rw [← drop_drop, drop_left' placed, drop_drop, add_assoc]
    have step := movePiece_eq (show piece.1 + piece.2 ≤
      (list.take base ++ moved ++ list.drop (base + moved.length)).length by omega)
      (show base + moved.length + piece.2 ≤ _ by omega)
    rw [before, take_drop_of_clear fits first, after,
      append_assoc (list.take base) moved ((list.drop piece.1).take piece.2)] at step
    have grown : (moved ++ (list.drop piece.1).take piece.2).length = moved.length + piece.2 := by
      rw [length_append, taken]
    have later := ih (moved ++ (list.drop piece.1).take piece.2) (grown ▸ others) rest
      (by rw [grown]; omega)
    unfold copyTogether
    rw [step, bind_eq_bind, bind_some]
    rw [grown] at later
    rw [later]
    unfold gathered
    rw [map_cons, flatten_cons, append_assoc moved]

end Fugue.Lib
