import Mathlib.Data.List.Basic

/-! # Allocated arrays

The cells of an array that was allocated may not be set yet. Reading such a cell, or one outside of the
array, fails.
-/

namespace PostgreSieve.Cells

variable {α : Type*} {l : List α} {rest cells : List (Option α)} {i : ℕ} {x : α}

def readCell (cells : List (Option α)) (i : ℕ) : Option α := cells[i]?.join

def writeCell (cells : List (Option α)) (i : ℕ) (x : α) : Option (List (Option α)) :=
  if i < cells.length then some (cells.set i (some x)) else none

/-- An array whose first cells are set. -/
def filled (l : List α) (rest : List (Option α)) : List (Option α) := l.map some ++ rest

theorem filled_length : (filled l rest).length = l.length + rest.length := by
  simp [filled]

theorem readCell_filled (hi : i < l.length) : readCell (filled l rest) i = some l[i] := by
  unfold readCell filled
  rw [List.getElem?_append_left (by simpa using hi)]
  simp [hi]

theorem readCell_of_le (hi : cells.length ≤ i) : readCell cells i = none := by
  unfold readCell
  rw [List.getElem?_eq_none hi]
  rfl

theorem writeCell_filled (hi : i < l.length) (x : α) :
    writeCell (filled l rest) i x = some (filled (l.set i x) rest) := by
  unfold writeCell filled
  rw [if_pos (by simp; omega), List.set_append_left _ _ (by simpa using hi), List.map_set]

theorem writeCell_next (c : Option α) (x : α) :
    writeCell (filled l (c :: rest)) l.length x = some (filled (l ++ [x]) rest) := by
  unfold writeCell filled
  simp

end PostgreSieve.Cells
