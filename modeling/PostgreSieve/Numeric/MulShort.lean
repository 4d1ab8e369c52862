import PostgreSieve.Numeral.Product
import PostgreSieve.Numeric.Arith
import PostgreSieve.Numeric.Mul

/-! # Short multiplication is exact

The unrolled sums of `mul_var_short` are the coefficients of the product of two polynomials, and each
is small enough for 32 bits.
-/

namespace PostgreSieve.Numeric.NumericVar

open Numeral Finset

variable {v1 v2 : List ℤ} {i1 i2 m t : ℕ}

theorem prodsum_eq_sum (m : ℕ) : prodsum v1 i1 v2 i2 m =
    ∑ j ∈ range m, v1.getD (i1 + j) 0 * v2.getD (i2 - j) 0 := by
  induction m with
  | zero => rfl
  | succ m ih => rw [prodsum, ih, sum_range_succ]

/-- A sum over all the digits that belong to a power of the base is the coefficient. The conditions
say that there are no others. -/
theorem prodsum_eq_coefficient (hidx : i1 + i2 + t + 2 = v1.length + v2.length)
    (hm : i1 + m ≤ v1.length) (hlow : v1.length ≤ i1 + t + 1)
    (hlow' : i1 = 0 ∨ i1 + t + 1 = v1.length) (hhigh : t + i1 + m < v1.length + v2.length)
    (hhigh' : i1 + m = v1.length ∨ t + i1 + m + 1 = v1.length + v2.length) :
    prodsum v1 i1 v2 i2 m = coefficient v1 v2 t := by
  have hcoef := sum_range_reflect (fun a => if a ≤ t ∧ t - a < v2.length then
    v1.getD (v1.length - 1 - a) 0 * v2.getD (v2.length - 1 - (t - a)) 0 else 0) v1.length
  rw [prodsum_eq_sum, coefficient, ← hcoef, ← sum_filter]
  refine sum_nbij' (fun j => i1 + j) (fun j => j - i1) ?_ ?_ ?_ ?_ ?_
  · intro j hj
    rw [mem_range] at hj
    rw [mem_filter, mem_range]
    omega
  · intro j hj
    rw [mem_filter, mem_range] at hj
    rw [mem_range]
    omega
  · intro j _
    omega
  · intro j hj
    rw [mem_filter, mem_range] at hj
    omega
  · intro j hj
    rw [mem_range] at hj
    congr 2
    · omega
    · omega

theorem terms_eq (h1 : 1 ≤ v1.length) (h6 : v1.length ≤ 6) (hle : v1.length ≤ v2.length) :
    lastTerms v1 v2 ++ firstTerms v1 v2 =
      (List.range (v1.length + v2.length - 1)).map (coefficient v1 v2) := by
  have hlast : lastTerms v1 v2 = ((List.range (v1.length - 1)).map fun t =>
      prodsum v1 (v1.length - 1 - t) v2 (v2.length - 1) (t + 1)) ++
        prodsumLoop v1 v2 (v1.length - 1) v1.length := by
    unfold lastTerms
    generalize v1.length = k at *
    obtain rfl | rfl | rfl | rfl | rfl | rfl : k = 1 ∨ k = 2 ∨ k = 3 ∨ k = 4 ∨ k = 5 ∨ k = 6 := by
      omega
    all_goals rfl
  have hfirst : firstTerms v1 v2 = (List.range (v1.length - 1)).map fun t =>
      prodsum v1 0 v2 (v1.length - 2 - t) (v1.length - 1 - t) := by
    unfold firstTerms
    generalize v1.length = k at *
    obtain rfl | rfl | rfl | rfl | rfl | rfl : k = 1 ∨ k = 2 ∨ k = 3 ∨ k = 4 ∨ k = 5 ∨ k = 6 := by
      omega
    all_goals rfl
  have hlen : v1.length + v2.length - 1 =
      v1.length - 1 + (v2.length - (v1.length - 1)) + (v1.length - 1) := by omega
  rw [hlast, hfirst, prodsumLoop, hlen, List.range_add, List.range_add, List.map_append,
    List.map_append, List.map_map, List.map_map]
  congr 1
  · congr 1
    · refine List.map_congr_left fun t ht => ?_
      rw [List.mem_range] at ht
      apply prodsum_eq_coefficient <;> omega
    · refine List.map_congr_left fun t ht => ?_
      rw [List.mem_range] at ht
      rw [Function.comp_apply]
      apply prodsum_eq_coefficient <;> omega
  · refine List.map_congr_left fun t ht => ?_
    rw [List.mem_range] at ht
    rw [Function.comp_apply]
    apply prodsum_eq_coefficient <;> omega

theorem coefficient_range (h1 : InRange nbase v1) (h2 : InRange nbase v2) (t : ℕ) :
    0 ≤ coefficient v1 v2 t ∧
      coefficient v1 v2 t ≤ v1.length * ((nbase - 1) * (nbase - 1)) := by
  have hterm (i j : ℕ) : 0 ≤ v1.getD i 0 * v2.getD j 0 ∧
      v1.getD i 0 * v2.getD j 0 ≤ (nbase - 1) * (nbase - 1) := by
    obtain ⟨ha, ha'⟩ := h1.getD nbase_pos i
    obtain ⟨hb, hb'⟩ := h2.getD nbase_pos j
    exact ⟨mul_nonneg ha hb,
      mul_le_mul (Int.le_sub_one_of_lt ha') (Int.le_sub_one_of_lt hb') hb (by decide)⟩
  constructor
  · refine sum_nonneg fun a _ => ?_
    split
    · exact (hterm _ _).1
    · exact le_refl 0
  · have hle := sum_le_card_nsmul (range v1.length) (fun a => if a ≤ t ∧ t - a < v2.length then
      v1.getD (v1.length - 1 - a) 0 * v2.getD (v2.length - 1 - (t - a)) 0 else 0)
      ((nbase - 1) * (nbase - 1)) fun a _ => by
        split
        · exact (hterm _ _).2
        · decide
    rwa [card_range, nsmul_eq_mul] at hle

variable {var1 var2 : NumericVar}

theorem productSign_toRat :
    (productSign var1 var2).toRat = var1.sign.toRat * var2.sign.toRat := by
  unfold productSign
  cases var1.sign <;> cases var2.sign <;> simp [NumericSign.toRat]

theorem abs_mul_abs (var1 var2 : NumericVar) {w : ℤ} (ds : List ℤ)
    (hlen : (ds.length : ℤ) = var1.ndigits + var2.ndigits)
    (hvalue : Numeral.value nbase ds =
      Numeral.value nbase var1.digits * Numeral.value nbase var2.digits)
    (hw : w = var1.weight + var2.weight + 1) : mag ds w = var1.abs * var2.abs := by
  unfold abs
  rw [mag_eq, mag_eq, mag_eq, hvalue, hlen, hw]
  unfold ndigits
  have hpow : (nbase : ℚ) ^ (var1.weight + var2.weight + 1 + 1 -
      ((var1.digits.length : ℤ) + var2.digits.length)) =
      (nbase : ℚ) ^ (var1.weight + 1 - var1.digits.length) *
        (nbase : ℚ) ^ (var2.weight + 1 - var2.digits.length) := by
    rw [← zpow_add₀ nbase_pos'.ne']
    congr 1
    ring
  rw [hpow]
  push_cast
  ring

/-- `mul_var_short` is exact, and its sums fit into 32 bits. -/
theorem exact_mulVarShort (h1 : var1.Valid) (h2 : var2.Valid) (hpos : 1 ≤ var1.digits.length)
    (h6 : var1.digits.length ≤ 6) (hle : var1.digits.length ≤ var2.digits.length) :
    ∃ result, mulVarShort var1 var2 = some result ∧
      Exact result (var1.value * var2.value) (var1.dscale + var2.dscale) ∧ result.Stripped := by
  unfold mulVarShort
  rw [terms_eq hpos h6 hle]
  dsimp only
  generalize hcols : ((List.range (var1.digits.length + var2.digits.length - 1)).map
    (coefficient var1.digits var2.digits)).reverse = cols
  have hvalue : Numeral.value nbase cols =
      Numeral.value nbase var1.digits * Numeral.value nbase var2.digits := by
    rw [← hcols, value_reverse_map_range, value_mul_value]
  have hlen : cols.length = var1.digits.length + var2.digits.length - 1 := by
    rw [← hcols, List.length_reverse, List.length_map, List.length_range]
  have hbound : ∀ d ∈ cols, 0 ≤ d ∧ d ≤ 6 * ((nbase - 1) * (nbase - 1)) := by
    intro d hd
    rw [← hcols, List.mem_reverse, List.mem_map] at hd
    obtain ⟨t, -, rfl⟩ := hd
    obtain ⟨hlo, hhi⟩ := coefficient_range h1 h2 t
    refine ⟨hlo, hhi.trans ?_⟩
    exact mul_le_mul_of_nonneg_right (by exact_mod_cast h6) (by decide)
  have hpass : carryPass fitsUInt32 (fun term => (term / nbase, term % nbase)) cols =
      some (propagate nbase cols) ∧
        0 ≤ (propagate nbase cols).1 ∧ (propagate nbase cols).1 ≤ 60000 := by
    apply carryPass_eq 0 60000 le_rfl (by decide)
    intro d hd c hc hc'
    have := hbound d hd
    refine ⟨?_, rfl, ?_⟩
    · unfold fitsUInt32 nbase at *
      simp only [Bool.and_eq_true, decide_eq_true_eq]
      omega
    · unfold nbase at *
      omega
  have hcarry : 0 ≤ (propagate nbase cols).1 ∧ (propagate nbase cols).1 < nbase := by
    refine ⟨hpass.2.1, ?_⟩
    rw [propagate_fst nbase_pos, Int.ediv_lt_iff_lt_mul (pow_pos nbase_pos _), hvalue, hlen,
      ← pow_succ', show var1.digits.length + var2.digits.length - 1 + 1 =
        var1.digits.length + var2.digits.length by omega, pow_add]
    exact mul_lt_mul'' (h1.value_lt nbase_pos) (h2.value_lt nbase_pos) h1.value_nonneg
      h2.value_nonneg
  rw [hpass.1]
  refine ⟨_, rfl, Exact.stripVar ⟨.cons hcarry (inRange_propagate nbase_pos _), ?_, rfl⟩,
    stripped_stripVar⟩
  have habs := abs_mul_abs var1 var2
    ((propagate nbase cols).1 :: (propagate nbase cols).2) (by
      unfold ndigits
      rw [List.length_cons, propagate_length, hlen]
      omega) (by rw [value_cons, propagate_length, propagate_value, hvalue]) rfl
  unfold NumericVar.value
  rw [productSign_toRat]
  change _ * mag _ _ = _
  rw [habs]
  ring

end PostgreSieve.Numeric.NumericVar
