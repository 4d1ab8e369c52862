import Mathlib.Data.List.Basic
import Mathlib.Data.Nat.ModEq
import Mathlib.Logic.Function.Basic

/-! # Circular buffers

A circular buffer of `size` entries keeps the newest part of a growing sequence, entry `k` at index
`k % size`.
-/

namespace PostgreSieve.Ring

variable {α : Type*} {size lo lo' k : ℕ} {buf : ℕ → α} {log more : List α} {x : α}

/-- The buffer keeps the entries of the sequence from `lo` on. -/
def Holds (size : ℕ) (buf : ℕ → α) (log : List α) (lo : ℕ) : Prop :=
  ∀ k, lo ≤ k → k < log.length → log[k]? = some (buf (k % size))

namespace Holds

theorem mono (h : Holds size buf log lo) (hlo : lo ≤ lo') : Holds size buf log lo' :=
  fun k hk hlt => h k (hlo.trans hk) hlt

theorem of_append (h : Holds size buf (log ++ more) lo) : Holds size buf log lo := by
  intro k hk hlt
  rw [← List.getElem?_append_left hlt]
  exact h k hk (by simpa using hlt.trans_le (Nat.le_add_right _ _))

/-- Entries less than `size` apart have different places. -/
theorem store (h : Holds size buf log lo) (hfree : log.length < lo + size) :
    Holds size (Function.update buf (log.length % size) x) (log ++ [x]) lo := by
  intro k hk hlt
  rcases Nat.lt_or_ge k log.length with hold | hnew
  · have hne : k % size ≠ log.length % size := by
      intro he
      have hdvd : size ∣ log.length - k := (Nat.modEq_iff_dvd' hold.le).mp he
      have := Nat.le_of_dvd (Nat.sub_pos_of_lt hold) hdvd
      omega
    rw [List.getElem?_append_left hold, Function.update_of_ne hne]
    exact h k hk hold
  · obtain rfl : k = log.length := by
      simp only [List.length_append, List.length_singleton] at hlt
      omega
    simp

end Holds

end PostgreSieve.Ring
