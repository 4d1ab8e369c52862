import PostgreSieve.Lists.Linked

/-! # Going round a cycle

Step `t` of a scan that goes round a list of `n` items is visit number `t / n` to one of them.
-/

namespace PostgreSieve.Cycle

open List

variable {β : Type} {l : List β}

/-- The item of a step. -/
def item (hl : 0 < l.length) (t : ℕ) : β := l.get ⟨t % l.length, Nat.mod_lt t hl⟩

variable (hl : 0 < l.length)

theorem item_mem (t : ℕ) : item hl t ∈ l := get_mem l _

theorem item_mul_add {d : ℕ} (hd : d < l.length) (k : ℕ) :
    item hl (k * l.length + d) = l[d] := by
  simp only [item, Nat.mul_add_mod_self_right, Nat.mod_eq_of_lt hd, get_eq_getElem]

/-- The links of a list lead from the item of a step to the next one. -/
theorem next_item [DecidableEq β] {k : Links β} {s : β} (h : k.Holds s l) (t : ℕ) :
    (if k.next (item hl t) = s then k.prev s else k.next (item hl t)) = item hl (t + 1) := by
  have hlt := Nat.mod_lt t hl
  have hsplit : l = l.take (t % l.length) ++ item hl t :: l.drop (t % l.length + 1) := by
    simp [item]
  have hnext : k.next (item hl t) = (l.drop (t % l.length + 1)).head?.getD s := by
    rw [hsplit] at h
    exact h.next_eq
  have hmod : (t + 1) % l.length = (t % l.length + 1) % l.length := (Nat.mod_add_mod ..).symm
  rcases Nat.lt_or_eq_of_le (Nat.succ_le_of_lt hlt) with hlt' | hlast
  · have hitem : item hl (t + 1) = l[t % l.length + 1] := by
      simp only [item, hmod, Nat.mod_eq_of_lt hlt', get_eq_getElem]
    have hne : l[t % l.length + 1] ≠ s := h.ne_anchor (getElem_mem _)
    simp [hnext, hitem, hne, List.head?_drop, hlt']
  · have hitem : item hl (t + 1) = l[0] := by
      simp only [item, hmod, ← Nat.succ_eq_add_one, hlast, Nat.mod_self, get_eq_getElem]
    have hend : k.next (item hl t) = s := by
      rw [hnext, drop_eq_nil_of_le hlast.ge]
      rfl
    obtain ⟨x, r, rfl⟩ := exists_cons_of_length_pos hl
    rw [if_pos hend, hitem, h.prev_oldest]
    rfl

end PostgreSieve.Cycle
