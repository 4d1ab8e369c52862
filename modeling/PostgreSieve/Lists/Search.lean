import Mathlib.Data.List.Basic
import Mathlib.Tactic.Common

/-! # Binary search

The boundary of a predicate that holds of an initial part of a range.
-/

namespace PostgreSieve

/-- Halve the range until it is empty. -/
def binsrch (p : ℕ → Bool) (low high : ℕ) : ℕ :=
  if low < high then
    let mid := low + (high - low) / 2
    if p mid then binsrch p (mid + 1) high else binsrch p low mid
  else low
termination_by high - low

variable {low high : ℕ}

theorem binsrch_spec (p : ℕ → Bool) (h : low ≤ high) :
    low ≤ binsrch p low high ∧ binsrch p low high ≤ high ∧
      (low < binsrch p low high → p (binsrch p low high - 1) = true) ∧
      (binsrch p low high < high → p (binsrch p low high) = false) := by
  fun_induction binsrch p low high with
  | case1 low high hlt mid hmid ih =>
    obtain ⟨hlow, hhigh, hpasses, hfails⟩ := ih (by omega)
    refine ⟨by omega, hhigh, fun _ => ?_, hfails⟩
    rcases Nat.eq_or_lt_of_le hlow with heq | hlt'
    · rw [← heq]
      exact hmid
    · exact hpasses hlt'
  | case2 low high hlt mid hmid ih =>
    obtain ⟨hlow, hhigh, hpasses, hfails⟩ := ih (by omega)
    refine ⟨hlow, by omega, hpasses, fun _ => ?_⟩
    rcases Nat.eq_or_lt_of_le hhigh with heq | hlt'
    · rw [heq]
      exact eq_false_of_ne_true hmid
    · exact hfails hlt'
  | case3 low high hlt => exact ⟨Nat.le_refl _, h, fun _ => by omega, fun _ => by omega⟩

section

variable {α : Type*} {q : α → Bool} {l : List α}
  (hq : l.Pairwise fun a b => q b = true → q a = true) (d : α)
include hq

/-- Searching a list for the end of the part that satisfies `q`. -/
theorem binsrch_list :
    let i := binsrch (fun mid => q (l.getD mid d)) 0 l.length
    i ≤ l.length ∧ (∀ a ∈ l.take i, q a = true) ∧ ∀ a ∈ l.drop i, q a = false := by
  intro i
  have hget : ∀ j (hj : j < l.length), l.getD j d = l[j] := fun j hj => by simp [hj]
  have hp : ∀ j k, j ≤ k → k < l.length → q (l.getD k d) = true → q (l.getD j d) = true := by
    intro j k hjk hk ht
    rcases Nat.lt_or_eq_of_le hjk with hlt | rfl
    · rw [hget k hk] at ht
      rw [hget j (by omega)]
      exact List.pairwise_iff_getElem.mp hq j k (by omega) hk hlt ht
    · exact ht
  obtain ⟨-, hle, hbefore, hat⟩ := binsrch_spec (fun mid => q (l.getD mid d)) (Nat.zero_le l.length)
  refine ⟨hle, fun a ha => ?_, fun a ha => ?_⟩
  · obtain ⟨j, hj, rfl⟩ := List.mem_take_iff_getElem.mp ha
    rw [← hget j (by omega)]
    exact hp j (i - 1) (by omega) (by omega) (hbefore (by omega))
  · obtain ⟨j, hj, rfl⟩ := List.mem_drop_iff_getElem.mp ha
    rw [← hget (i + j) (by omega)]
    have hi := Bool.eq_false_iff.mp (hat (by omega))
    exact Bool.eq_false_iff.mpr (mt (hp i (i + j) (by omega) (by omega)) hi)

theorem binsrch_cases :
    let i := binsrch (fun mid => q (l.getD mid d)) 0 l.length
    (i = 0 ∧ ∀ a ∈ l, q a = false) ∨ (i ≠ 0 ∧ ∃ l₁ a l₂, l = l₁ ++ a :: l₂ ∧
      l.getD (i - 1) d = a ∧ q a = true ∧ ∀ c ∈ l₂, q c = false) := by
  intro i
  obtain ⟨hle, htake, hdrop⟩ := binsrch_list hq d
  change ∀ a ∈ l.drop i, _ at hdrop
  rcases Nat.eq_zero_or_pos i with h0 | hpos
  · rw [h0] at hdrop
    exact .inl ⟨h0, hdrop⟩
  · refine .inr ⟨by omega, l.take (i - 1), l[i - 1], l.drop i, ?_, ?_, ?_, hdrop⟩
    · conv_lhs => rw [← List.take_append_drop (i - 1) l, List.drop_eq_getElem_cons (by omega)]
      rw [Nat.sub_add_cancel hpos]
    · rw [List.getD_eq_getElem?_getD, List.getElem?_eq_getElem (by omega), Option.getD_some]
    · exact htake _ (List.mem_take_iff_getElem.mpr ⟨i - 1, by omega, rfl⟩)

end

end PostgreSieve
