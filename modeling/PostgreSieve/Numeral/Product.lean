import Mathlib.Algebra.BigOperators.Intervals
import Mathlib.Algebra.BigOperators.Ring.Finset
import Mathlib.Algebra.Order.BigOperators.Group.Finset
import PostgreSieve.Numeral.Basic

/-! # Products of numerals

The product of two numerals is that of two polynomials at the base.
-/

namespace PostgreSieve.Numeral

open Finset

variable {b : ℤ} {v1 v2 : List ℤ}

theorem value_reverse_map_range (f : ℕ → ℤ) (n : ℕ) :
    value b ((List.range n).map f).reverse = ∑ t ∈ range n, f t * b ^ t := by
  induction n with
  | zero => rfl
  | succ n ih =>
    rw [List.range_succ, List.map_append, List.reverse_append, List.map_singleton,
      List.reverse_singleton, List.singleton_append, value_cons, ih, sum_range_succ, add_comm]
    simp

theorem value_eq_sum (v : List ℤ) :
    value b v = ∑ t ∈ range v.length, v.getD (v.length - 1 - t) 0 * b ^ t := by
  rw [← value_reverse_map_range]
  congr 1
  apply List.ext_getElem
  · simp
  · intro i h1 h2
    rw [List.getElem_reverse, List.getElem_map, List.getElem_range, List.getD_eq_getElem?_getD,
      List.length_map, List.length_range, Nat.sub_sub_self (by omega), List.getElem?_eq_getElem h1,
      Option.getD_some]

/-- The coefficient that belongs to the power `t` of the base. -/
def coefficient (v1 v2 : List ℤ) (t : ℕ) : ℤ :=
  ∑ a ∈ range v1.length, if a ≤ t ∧ t - a < v2.length then
    v1.getD (v1.length - 1 - a) 0 * v2.getD (v2.length - 1 - (t - a)) 0 else 0

theorem sum_shift (f : ℕ → ℤ) {a n m : ℕ} (h : a + n ≤ m) :
    ∑ c ∈ range n, f c * b ^ (a + c) =
      ∑ t ∈ range m, if a ≤ t ∧ t - a < n then f (t - a) * b ^ t else 0 := by
  rw [← sum_filter]
  refine sum_nbij' (fun c => a + c) (fun t => t - a) ?_ ?_ ?_ ?_ ?_
  · intro c hc
    rw [mem_range] at hc
    rw [mem_filter, mem_range]
    omega
  · intro t ht
    rw [mem_filter] at ht
    rw [mem_range]
    exact ht.2.2
  · intro c _
    omega
  · intro t ht
    rw [mem_filter] at ht
    omega
  · intro c _
    rw [Nat.add_sub_cancel_left]

/-- The product by its coefficients. -/
theorem value_mul_value (b : ℤ) (v1 v2 : List ℤ) :
    value b v1 * value b v2 =
      ∑ t ∈ range (v1.length + v2.length - 1), coefficient v1 v2 t * b ^ t := by
  rw [value_eq_sum v1, value_eq_sum v2, sum_mul_sum]
  simp only [coefficient, sum_mul]
  rw [sum_comm (s := range (v1.length + v2.length - 1))]
  refine sum_congr rfl fun a ha => ?_
  rw [mem_range] at ha
  have hshift := sum_shift (b := b)
    (fun c => v1.getD (v1.length - 1 - a) 0 * v2.getD (v2.length - 1 - c) 0) (a := a) (n := v2.length)
    (m := v1.length + v2.length - 1) (by omega)
  calc ∑ c ∈ range v2.length, v1.getD (v1.length - 1 - a) 0 * b ^ a *
        (v2.getD (v2.length - 1 - c) 0 * b ^ c)
      = ∑ c ∈ range v2.length, v1.getD (v1.length - 1 - a) 0 * v2.getD (v2.length - 1 - c) 0 *
          b ^ (a + c) := sum_congr rfl fun c _ => by rw [pow_add]; ring
    _ = _ := by
      rw [hshift]
      refine sum_congr rfl fun t _ => ?_
      split <;> simp

end PostgreSieve.Numeral
