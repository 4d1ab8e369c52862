import PostgreSieve.Numeric.MulShort
import PostgreSieve.Numeric.Round

/-! # Multiplication is exact

The accumulators of `mul_var` hold a multiple of the product of the digits that were seen. Leaving out
digit pairs of the result is harmless: their terms are zero if no number has digits behind its scale.
-/

namespace PostgreSieve.Numeric.NumericVar

open Numeral List

/-! ## Digit pairs -/

theorem nbaseSqr_pos : 0 < nbaseSqr := by decide

theorem nbaseSqr_eq : nbaseSqr = nbase ^ 2 := by decide

variable {ds : List ℤ}

theorem digitPairs_length (ds : List ℤ) : (digitPairs ds).length = (ds.length + 1) / 2 := by
  fun_induction digitPairs ds with
  | case1 a b ds ih =>
    simp only [length_cons, ih]
    omega
  | case2 a => simp
  | case3 => rfl

theorem inRange_digitPairs (h : InRange nbase ds) : InRange nbaseSqr (digitPairs ds) := by
  fun_induction digitPairs ds with
  | case1 a b ds ih =>
    have ha := h a (.head _)
    have hb := h b (.tail _ (.head _))
    refine .cons ?_ (ih h.of_cons.of_cons)
    unfold nbaseSqr nbase at *
    omega
  | case2 a =>
    have ha := h a (.head _)
    refine .cons ?_ nofun
    unfold nbaseSqr nbase at *
    omega
  | case3 => exact nofun

theorem value_digitPairs (ds : List ℤ) : Numeral.value nbaseSqr (digitPairs ds) =
    Numeral.value nbase ds * nbase ^ (ds.length % 2) := by
  fun_induction digitPairs ds with
  | case1 a b ds ih =>
    have hlen : (a :: b :: ds).length % 2 = ds.length % 2 := by
      simp only [length_cons]
      omega
    have hpow : nbaseSqr ^ (digitPairs ds).length = nbase ^ ds.length * nbase ^ (ds.length % 2) := by
      rw [nbaseSqr_eq, ← pow_mul, ← pow_add, digitPairs_length]
      congr 1
      omega
    rw [value_cons, ih, hlen, hpow, value_cons, value_cons, length_cons, pow_succ]
    ring
  | case2 a => simp
  | case3 => rfl

theorem digitPairs_getD (ds : List ℤ) (i : ℕ) : (digitPairs ds).getD i 0 =
    ds.getD (2 * i) 0 * nbase + ds.getD (2 * i + 1) 0 := by
  fun_induction digitPairs ds generalizing i with
  | case1 a b ds ih =>
    cases i with
    | zero => rfl
    | succ i => exact ih i
  | case2 a =>
    cases i with
    | zero => simp
    | succ i => simp [Nat.mul_succ]
  | case3 => simp

abbrev splitPairs (dig : List ℤ) : List ℤ :=
  dig.flatMap fun newdig => [newdig / nbase, newdig % nbase]

theorem splitPairs_length (dig : List ℤ) : (splitPairs dig).length = 2 * dig.length := by
  simp [length_flatMap, mul_comm]

theorem value_splitPairs (dig : List ℤ) :
    Numeral.value nbase (splitPairs dig) = Numeral.value nbaseSqr dig := by
  induction dig with
  | nil => rfl
  | cons d dig ih =>
    have hdiv := Int.mul_ediv_add_emod d nbase
    have hpow : nbaseSqr ^ dig.length = nbase ^ (2 * dig.length) := by
      rw [nbaseSqr_eq, pow_mul]
    rw [splitPairs, flatMap_cons, value_append, ih, splitPairs_length]
    simp only [value_cons, hpow, value_nil, length_cons, length_nil, zero_add, pow_one,
      pow_zero]
    linear_combination nbase ^ (2 * dig.length) * hdiv

variable {dig : List ℤ} {m d : ℤ} {i : ℕ}

theorem inRange_splitPairs (h : InRange nbaseSqr dig) : InRange nbase (splitPairs dig) := by
  intro e he
  obtain ⟨d, hd, hmem⟩ := mem_flatMap.mp he
  have := h d hd
  rcases mem_pair.mp hmem with rfl | rfl
  · unfold nbaseSqr nbase at *
    omega
  · unfold nbase
    omega

/-! ## Accumulators -/

/-- The entries are at most `maxdig` times the greatest digit pair. -/
def Within (maxdig : ℤ) (dig : List ℤ) : Prop := ∀ d ∈ dig, 0 ≤ d ∧ d ≤ maxdig * (nbaseSqr - 1)

variable {dig vs : List ℤ} {maxdig p : ℤ}

theorem Within.mono (h : Within maxdig dig) (hm : maxdig ≤ m) : Within m dig := by
  intro d hd
  obtain ⟨hlo, hhi⟩ := h d hd
  exact ⟨hlo, hhi.trans (mul_le_mul_of_nonneg_right hm (by decide))⟩

theorem Within.of_cons (h : Within maxdig (d :: dig)) : Within maxdig dig :=
  fun e he => h e (.tail _ he)

theorem within_of_inRange (h : InRange nbaseSqr dig) : Within 1 dig := by
  intro d hd
  have := h d hd
  omega

theorem within_map (hp : 0 ≤ p) (hv : InRange nbaseSqr vs) : Within p (vs.map (p * ·)) := by
  intro d hd
  obtain ⟨v, hv', rfl⟩ := mem_map.mp hd
  obtain ⟨hlo, hhi⟩ := hv v hv'
  exact ⟨mul_nonneg hp hlo, mul_le_mul_of_nonneg_left (by omega) hp⟩

theorem maxdigLimit_mul (hm : m ≤ maxdigLimit) (hd : d ≤ m * (nbaseSqr - 1)) :
    d ≤ pgUint64Max - pgUint64Max / nbaseSqr := by
  have hle : maxdigLimit * (nbaseSqr - 1) ≤ pgUint64Max - pgUint64Max / nbaseSqr := by decide
  exact hd.trans ((mul_le_mul_of_nonneg_right hm (by decide)).trans hle)

theorem checkUInt64_eq {x : ℤ} (h : 0 ≤ x) (h' : x ≤ pgUint64Max) : checkUInt64 x = some x := by
  unfold checkUInt64 fitsUInt64
  simp [h, h']

theorem addRow_spec (hp : 0 ≤ p) (hv : InRange nbaseSqr vs) (i : ℕ) (hd : Within maxdig dig)
    (hlimit : maxdig + p ≤ maxdigLimit) :
    ∃ out, addRow p i vs dig = some out ∧ out.length = dig.length ∧ Within (maxdig + p) out ∧
      Numeral.value nbaseSqr out = Numeral.value nbaseSqr dig +
        p * Numeral.value nbaseSqr (vs.take (dig.length - i)) *
          nbaseSqr ^ (dig.length - i - vs.length) := by
  have hgrow : maxdig ≤ maxdig + p := by omega
  fun_induction addRow p i vs dig with
  | case1 i vs d dig ih =>
    obtain ⟨out, hout, hlen, hwithin, hvalue⟩ := ih hv hd.of_cons
    refine ⟨d :: out, by rw [hout]; rfl, by simp [hlen], ?_, ?_⟩
    · exact forall_mem_cons.mpr ⟨hd.mono hgrow d (.head _), hwithin⟩
    · rw [value_cons, value_cons, hvalue, hlen, length_cons, Nat.add_sub_add_right]
      ring
  | case2 v vs d dig ih =>
    obtain ⟨out, hout, hlen, hwithin, hvalue⟩ := ih hv.of_cons hd.of_cons
    obtain ⟨hlo, hhi⟩ := hd d (.head _)
    obtain ⟨hv0, hv1⟩ := hv v (.head _)
    have hnew : 0 ≤ d + p * v ∧ d + p * v ≤ (maxdig + p) * (nbaseSqr - 1) := by
      have hmul : p * v ≤ p * (nbaseSqr - 1) := mul_le_mul_of_nonneg_left (by omega) hp
      exact ⟨add_nonneg hlo (mul_nonneg hp hv0), by rw [add_mul]; omega⟩
    have hfit := maxdigLimit_mul hlimit hnew.2
    have hmax : 0 ≤ pgUint64Max / nbaseSqr := by decide
    rw [checkUInt64_eq hnew.1 (by omega), hout]
    refine ⟨_, rfl, by simp [hlen], forall_mem_cons.mpr ⟨hnew, hwithin⟩, ?_⟩
    rw [Nat.sub_zero] at hvalue
    rw [value_cons, value_cons, hvalue, hlen, length_cons, Nat.sub_zero, take_succ_cons,
      value_cons, length_cons, Nat.add_sub_add_right, length_take]
    have hpow : nbaseSqr ^ min dig.length vs.length * nbaseSqr ^ (dig.length - vs.length) =
        nbaseSqr ^ dig.length := by
      rw [← pow_add]
      congr 1
      omega
    linear_combination -p * v * hpow
  | case3 i vs dig hcons hnil =>
    refine ⟨dig, rfl, rfl, hd.mono hgrow, ?_⟩
    cases dig with
    | nil => simp
    | cons d dig =>
      cases i with
      | succ i => exact absurd rfl (hcons i d dig rfl)
      | zero =>
        cases vs with
        | nil => simp
        | cons v vs => exact absurd rfl (hnil v vs d dig rfl rfl)

/-- A pass over the accumulator leaves no carry if the number fits. -/
theorem mulCarry_spec (hd : Within maxdig dig) (hlimit : maxdig ≤ maxdigLimit)
    (hlt : Numeral.value nbaseSqr dig < nbaseSqr ^ dig.length) :
    ∃ out, mulCarry dig = some out ∧ out.length = dig.length ∧ InRange nbaseSqr out ∧
      Numeral.value nbaseSqr out = Numeral.value nbaseSqr dig := by
  have hpass : carryPass fitsUInt64 mulCarryStep dig = some (propagate nbaseSqr dig) ∧
      0 ≤ (propagate nbaseSqr dig).1 ∧
      (propagate nbaseSqr dig).1 ≤ pgUint64Max / nbaseSqr := by
    apply carryPass_eq 0 _ le_rfl (by decide)
    intro d hmem c hc hc'
    obtain ⟨hlo, hhi⟩ := hd d hmem
    have hroom := maxdigLimit_mul hlimit hhi
    refine ⟨?_, ?_, ?_⟩
    · unfold fitsUInt64
      simp only [Bool.and_eq_true, decide_eq_true_eq]
      omega
    · unfold mulCarryStep nbaseSqr
      split
      · exact Prod.ext rfl (by dsimp only; omega)
      · exact Prod.ext (by dsimp only; omega) (by dsimp only; omega)
    · exact ⟨Int.ediv_nonneg (by omega) nbaseSqr_pos.le,
        Int.ediv_le_ediv nbaseSqr_pos (by omega)⟩
  have hzero : (propagate nbaseSqr dig).1 = 0 := by
    have hneg : (propagate nbaseSqr dig).1 < 1 := by
      rw [propagate_fst nbaseSqr_pos, Int.ediv_lt_iff_lt_mul (pow_pos nbaseSqr_pos _), one_mul]
      exact hlt
    omega
  refine ⟨_, ?_, propagate_length, inRange_propagate nbaseSqr_pos dig, ?_⟩
  · unfold mulCarry
    rw [hpass.1]
    exact if_pos hzero
  · have hvalue := propagate_value nbaseSqr dig
    rwa [hzero, zero_mul, zero_add] at hvalue

/-! ## The loop -/

/-- Digit pairs `u` and `w` whose product has all its terms in the first `len` entries. -/
structure Covered (u w : List ℤ) (pairOffset len : ℕ) : Prop where
  left : InRange nbaseSqr u
  right : InRange nbaseSqr w
  pos : 1 ≤ u.length
  pos' : 1 ≤ w.length
  offset : 1 ≤ pairOffset
  start : pairOffset < len
  total : len + 1 ≤ pairOffset + u.length + w.length
  vanish : ∀ i j, len ≤ i + j + pairOffset → u.getD i 0 * w.getD j 0 = 0

section Loop

variable {u w : List ℤ} {pairOffset len i : ℕ}

/-- The number of entries that the first ones leave out. -/
def missing (u w : List ℤ) (pairOffset len : ℕ) : ℕ := pairOffset + u.length + w.length - 1 - len

theorem mul_value_eq_zero (a : ℤ) (h : ∀ j, a * w.getD j 0 = 0) :
    a * Numeral.value nbaseSqr w = 0 := by
  induction w with
  | nil => simp
  | cons d w ih =>
    have hd : a * d = 0 := h 0
    rw [value_cons, mul_add, ← mul_assoc, hd, ih fun j => h (j + 1), zero_mul, zero_add]

theorem getD_drop (n j : ℕ) : (w.drop n).getD j 0 = w.getD (n + j) 0 := by
  rw [getD_eq_getElem?_getD, List.getElem?_drop, ← getD_eq_getElem?_getD]

theorem getD_take {n j : ℕ} (hj : j < n) : (w.take n).getD j 0 = w.getD j 0 := by
  rw [getD_eq_getElem?_getD, List.getElem?_take_of_lt hj, ← getD_eq_getElem?_getD]

theorem Covered.row (h : Covered u w pairOffset len) (hi : i < u.length)
    (hi' : i < len - pairOffset) :
    u.getD i 0 * Numeral.value nbaseSqr ((w.take (len - pairOffset)).take (len - (i + pairOffset))) *
        nbaseSqr ^ (len - (i + pairOffset) - (w.take (len - pairOffset)).length) *
        nbaseSqr ^ missing u w pairOffset len =
      u.getD i 0 * nbaseSqr ^ (u.length - (i + 1)) * Numeral.value nbaseSqr w := by
  have htotal := h.total
  have hdrop : u.getD i 0 * Numeral.value nbaseSqr (w.drop (len - (i + pairOffset))) = 0 := by
    apply mul_value_eq_zero
    intro j
    rw [getD_drop]
    exact h.vanish _ _ (by omega)
  have hsplit := value_take_drop nbaseSqr w (len - (i + pairOffset))
  have hpow : nbaseSqr ^ (len - (i + pairOffset) - (w.take (len - pairOffset)).length) *
      nbaseSqr ^ missing u w pairOffset len =
      nbaseSqr ^ (w.length - (len - (i + pairOffset))) * nbaseSqr ^ (u.length - (i + 1)) := by
    rw [← pow_add, ← pow_add, length_take, missing]
    congr 1
    omega
  rw [take_take, min_eq_left (by omega), mul_assoc, hpow, hsplit]
  linear_combination -nbaseSqr ^ (u.length - (i + 1)) * hdrop

theorem Covered.rest (h : Covered u w pairOffset len) {n : ℕ} (hn : len - pairOffset ≤ n) :
    Numeral.value nbaseSqr (u.drop n) * Numeral.value nbaseSqr w = 0 := by
  rw [mul_comm]
  apply mul_value_eq_zero
  intro i
  rw [mul_comm, getD_drop]
  apply mul_value_eq_zero
  intro j
  exact h.vanish _ _ (by omega)

/-- The accumulator when the digit pairs of the first number from index `i` on were seen. -/
structure PartialProduct (u w : List ℤ) (pairOffset len i : ℕ) (maxdig : ℤ) (dig : List ℤ) : Prop where
  length : dig.length = len
  within : Within maxdig dig
  limit : maxdig ≤ maxdigLimit
  value : Numeral.value nbaseSqr dig * nbaseSqr ^ missing u w pairOffset len =
    Numeral.value nbaseSqr (u.drop i) * Numeral.value nbaseSqr w

variable (h : Covered u w pairOffset len)
include h

theorem PartialProduct.value_lt (ha : PartialProduct u w pairOffset len i maxdig dig) :
    Numeral.value nbaseSqr dig < nbaseSqr ^ dig.length := by
  have hoffset := h.offset
  have hmissing : 0 < nbaseSqr ^ missing u w pairOffset len := pow_pos nbaseSqr_pos _
  have hdrop := h.left.drop i
  have hlt : Numeral.value nbaseSqr (u.drop i) * Numeral.value nbaseSqr w <
      nbaseSqr ^ (u.drop i).length * nbaseSqr ^ w.length :=
    mul_lt_mul'' (hdrop.value_lt nbaseSqr_pos) (h.right.value_lt nbaseSqr_pos) hdrop.value_nonneg
      h.right.value_nonneg
  have hle : nbaseSqr ^ (u.drop i).length * nbaseSqr ^ w.length ≤
      nbaseSqr ^ dig.length * nbaseSqr ^ missing u w pairOffset len := by
    rw [← pow_add, ← pow_add]
    apply pow_le_pow_right₀ nbaseSqr_pos
    rw [length_drop, ha.length, missing]
    omega
  rw [← ha.value] at hlt
  exact lt_of_mul_lt_mul_right (hlt.trans_le hle) hmissing.le

theorem mulNormalize_spec (ha : PartialProduct u w pairOffset len i maxdig dig) (hmax : 0 ≤ maxdig)
    (hp : 0 ≤ p ∧ p < nbaseSqr) :
    ∃ m out, mulNormalize maxdig p dig = some (m + p, out) ∧ 0 ≤ m ∧ m + p ≤ maxdigLimit ∧
      PartialProduct u w pairOffset len i m out := by
  have hlimit := ha.limit
  have hroom : maxdigLimit + nbaseSqr ≤ pgUint64Max := by decide
  unfold mulNormalize
  rw [checkUInt64_eq (by omega) (by omega)]
  simp only [Option.bind_eq_bind, Option.bind_some]
  split
  · obtain ⟨out, hout, hlen, hrange, hvalue⟩ :=
      mulCarry_spec ha.within hlimit (ha.value_lt h)
    have hone : 1 + nbaseSqr ≤ maxdigLimit := by decide
    refine ⟨1, out, by rw [hout]; rfl, by decide, by omega, ?_⟩
    exact ⟨hlen.trans ha.length, within_of_inRange hrange, by omega, by rw [hvalue]; exact ha.value⟩
  · exact ⟨maxdig, dig, rfl, hmax, by omega, ha⟩

/-- The loop sees the digit pairs that are left, except for those that contribute nothing. -/
theorem mulLoop_spec (hi : i ≤ u.length) (hi' : i ≤ len - pairOffset) (hmax : 0 ≤ maxdig)
    (ha : PartialProduct u w pairOffset len i maxdig dig) :
    ∃ m out, mulLoop (u.take (len - pairOffset)) (w.take (len - pairOffset)) pairOffset i maxdig dig =
      some out ∧ PartialProduct u w pairOffset len 0 m out := by
  induction i generalizing maxdig dig with
  | zero => exact ⟨maxdig, dig, rfl, ha⟩
  | succ i ih =>
    have hget : (u.take (len - pairOffset)).getD i 0 = u.getD i 0 := getD_take (by omega)
    have hcons := value_drop_cons (b := nbaseSqr) (show i < u.length by omega)
    have hvalue := ha.value
    rw [mulLoop, hget]
    split_ifs with hzero
    · rw [hzero, zero_mul, zero_add] at hcons
      exact ih (by omega) (by omega) hmax ⟨ha.length, ha.within, ha.limit, by rw [hcons]; exact hvalue⟩
    · have hp := h.left.getD nbaseSqr_pos i
      obtain ⟨m, dig', hnorm, hm, hlimit, ha'⟩ := mulNormalize_spec h ha hmax hp
      obtain ⟨out, hout, hlen, hwithin, hsum⟩ :=
        addRow_spec hp.1 (h.right.take (len - pairOffset)) (i + pairOffset) ha'.within hlimit
      rw [hnorm]
      simp only [Option.bind_eq_bind, Option.bind_some, hout]
      refine ih (by omega) (by omega) (by omega) ⟨hlen.trans ha'.length, hwithin, hlimit, ?_⟩
      have hrow := h.row (show i < u.length by omega) (by omega)
      rw [ha'.length] at hsum
      rw [hsum, hcons, add_mul, add_mul, ha'.value, hrow]
      ring

theorem mulAccumulate_spec :
    ∃ m out, mulAccumulate (u.take (len - pairOffset)) (w.take (len - pairOffset)) pairOffset len =
      some out ∧ PartialProduct u w pairOffset len 0 m out := by
  have htotal := h.total
  have hstart := h.start
  have hpos := h.pos
  have hpos' := h.pos'
  unfold mulAccumulate
  obtain ⟨i, hi⟩ : ∃ i, (u.take (len - pairOffset)).length = i + 1 :=
    ⟨(u.take (len - pairOffset)).length - 1, by rw [length_take]; omega⟩
  have hi' := hi
  rw [length_take] at hi'
  rw [hi]
  dsimp only
  rw [Nat.add_sub_cancel, getD_take (show i < len - pairOffset by omega)]
  obtain ⟨hp, hp'⟩ := h.left.getD nbaseSqr_pos i
  have htake : (w.take (len - pairOffset)).take
      (min (w.take (len - pairOffset)).length (len - i - pairOffset)) =
      (w.take (len - pairOffset)).take (len - (i + pairOffset)) :=
    take_eq_take_iff.mpr (by omega)
  rw [htake]
  generalize hdig : List.replicate (i + pairOffset) 0 ++ ((w.take (len - pairOffset)).take
    (len - (i + pairOffset))).map (u.getD i 0 * ·) = dig
  have hlen : ((w.take (len - pairOffset)).take (len - (i + pairOffset))).length =
      len - (i + pairOffset) := by
    rw [length_take, length_take]
    omega
  have hwithin : Within (u.getD i 0) dig := by
    rw [← hdig]
    refine forall_mem_append.mpr ⟨?_, within_map hp ((h.right.take _).take _)⟩
    intro d hd
    rw [eq_of_mem_replicate hd]
    exact ⟨le_rfl, mul_nonneg hp (by decide)⟩
  have hlimit : u.getD i 0 ≤ maxdigLimit := hp'.le.trans (by decide)
  have ha : PartialProduct u w pairOffset len i (u.getD i 0) dig := by
    have hrow := h.row (show i < u.length by omega) (by omega)
    have hrest : Numeral.value nbaseSqr (u.drop (i + 1)) * Numeral.value nbaseSqr w = 0 := by
      by_cases hle : len - pairOffset ≤ i + 1
      · exact h.rest hle
      · rw [drop_eq_nil_of_le (by omega), value_nil, zero_mul]
    have hzero : len - (i + pairOffset) - (w.take (len - pairOffset)).length = 0 := by
      rw [length_take] at hlen ⊢
      omega
    rw [hzero, pow_zero, mul_one] at hrow
    refine ⟨?_, hwithin, hlimit, ?_⟩
    · rw [← hdig, length_append, length_replicate, length_map, hlen]
      omega
    · rw [← hdig, value_zeros_append, value_map_mul, hrow,
        value_drop_cons (show i < u.length by omega), add_mul, hrest, add_zero]
  have hfits : dig.any (!fitsUInt64 ·) = false := by
    have hmax : 0 ≤ pgUint64Max / nbaseSqr := by decide
    rw [any_eq_false]
    intro d hd
    obtain ⟨hlo, hhi⟩ := hwithin d hd
    have hroom := maxdigLimit_mul hlimit hhi
    simp only [fitsUInt64, Bool.not_eq_true, Bool.not_eq_false', Bool.and_eq_true,
      decide_eq_true_eq]
    omega
  rw [if_neg (by rw [hfits]; simp [ha.length])]
  exact mulLoop_spec h (by omega) (by omega) hp ha

end Loop

/-! ## The product -/

variable {var var1 var2 : NumericVar} {rscale : ℤ}

/-- The number has no decimal digits behind its scale. -/
def FitsScale (var : NumericVar) : Prop := ∃ k : ℤ, var.abs * (10 : ℚ) ^ var.dscale = k

theorem FitsScale.getD_eq_zero (hs : var.FitsScale) (h : var.Valid)
    (hi : 4 * (var.weight + 1) + var.dscale ≤ 4 * i) : var.digits.getD i 0 = 0 := by
  by_cases hlen : i < var.digits.length
  swap
  · rw [getD_eq_getElem?_getD, List.getElem?_eq_none (by omega)]
    rfl
  obtain ⟨k, hk⟩ := hs
  obtain ⟨e, he⟩ := Int.eq_ofNat_of_zero_le
    (show 0 ≤ 4 * (i : ℤ) - (4 * (var.weight + 1) + var.dscale) by omega)
  have hsplit : var.abs = mag (var.digits.take i) var.weight +
      mag (var.digits.drop i) (var.weight - i) := by
    unfold NumericVar.abs
    conv_lhs => rw [← take_append_drop i var.digits]
    rw [mag_append, length_take, min_eq_left hlen.le]
  have hunit : (0 : ℚ) < (nbase : ℚ) ^ (i - (var.weight + 1)) := zpow_pos nbase_pos' _
  -- the digits from this one on, in units of the digit before
  have hint : mag (var.digits.drop i) (var.weight - i) * (nbase : ℚ) ^ (i - (var.weight + 1)) =
      ((k * 10 ^ e - Numeral.value nbase (var.digits.take i) : ℤ) : ℚ) := by
    have habs : var.abs * (nbase : ℚ) ^ (i - (var.weight + 1)) = ((k * 10 ^ e : ℤ) : ℚ) := by
      rw [nbase_zpow, show 4 * ((i : ℤ) - (var.weight + 1)) = var.dscale + e by omega,
        zpow_add₀ (by norm_num), ← mul_assoc, hk, zpow_natCast]
      push_cast
      rfl
    have htake : mag (var.digits.take i) var.weight * (nbase : ℚ) ^ (i - (var.weight + 1)) =
        Numeral.value nbase (var.digits.take i) := by
      rw [mag_eq, length_take, min_eq_left hlen.le, mul_assoc, ← zpow_add₀ nbase_pos'.ne',
        show var.weight + 1 - (i : ℤ) + (i - (var.weight + 1)) = 0 by ring, zpow_zero, mul_one]
    rw [hsplit, add_mul, htake] at habs
    push_cast at habs ⊢
    linarith
  have hlt : mag (var.digits.drop i) (var.weight - i) * (nbase : ℚ) ^ (i - (var.weight + 1)) < 1 := by
    have hmag := mag_lt (w := var.weight - i) (Numeral.InRange.drop h i)
    calc _ < (nbase : ℚ) ^ (var.weight - i + 1) * (nbase : ℚ) ^ (i - (var.weight + 1)) :=
          mul_lt_mul_of_pos_right hmag hunit
      _ = 1 := by
          rw [← zpow_add₀ nbase_pos'.ne', show var.weight - (i : ℤ) + 1 + (i - (var.weight + 1)) = 0 by
            ring, zpow_zero]
  by_contra hne
  have hpos : 0 < mag (var.digits.drop i) (var.weight - i) :=
    mag_pos (Numeral.InRange.drop h i) ⟨_, by
      rw [drop_eq_getElem_cons hlen, ← getD_eq_getElem var.digits 0 hlen]
      exact .head _, hne⟩
  have hpos' := mul_pos hpos hunit
  rw [hint] at hpos' hlt
  norm_cast at hpos' hlt
  omega

theorem FitsScale.digitPairs_eq_zero (hs : var.FitsScale) (h : var.Valid)
    (hi : 4 * (var.weight + 1) + var.dscale ≤ 8 * i) : (digitPairs var.digits).getD i 0 = 0 := by
  rw [digitPairs_getD, hs.getD_eq_zero h (by omega), hs.getD_eq_zero h (by omega), zero_mul,
    add_zero]

theorem le_tdiv_mul (x : ℤ) {b : ℤ} (hb : 0 < b) : x - (b - 1) ≤ x.tdiv b * b := by
  have hmod := Int.mul_tdiv_add_tmod x b
  have hlt := Int.tmod_lt_of_pos x hb
  linarith

theorem digitPairs_mul_eq_zero (h1 : var1.Valid) (h2 : var2.Valid) (hs1 : var1.FitsScale)
    (hs2 : var2.FitsScale) (hr : var1.dscale + var2.dscale ≤ rscale) {pairs maxdigits po : ℤ}
    (hpo : po = pairs - (var1.ndigits + 1) / 2 - (var2.ndigits + 1) / 2 + 1)
    (hmax : maxdigits = var1.weight + var2.weight - 1 + 2 * po + 1 +
      (rscale + decDigits - 1).tdiv decDigits + mulGuardDigits)
    {j : ℕ} (hij : min pairs (maxdigits.tdiv 2 + 1) ≤ i + j + po) :
    (digitPairs var1.digits).getD i 0 * (digitPairs var2.digits).getD j 0 = 0 := by
  unfold ndigits at hpo
  have hdiv := le_tdiv_mul (rscale + decDigits - 1) (show (0 : ℤ) < decDigits by decide)
  have hdiv2 := le_tdiv_mul maxdigits (show (0 : ℤ) < 2 by decide)
  unfold mulGuardDigits at hmax
  have hout {ds : List ℤ} {n : ℕ} (hn : (ds.length + 1) / 2 ≤ n) : (digitPairs ds).getD n 0 = 0 := by
    rw [getD_eq_getElem?_getD, List.getElem?_eq_none (by rw [digitPairs_length]; exact hn)]
    rfl
  rcases min_le_iff.mp hij with hle | hle
  · obtain hi | hj : (var1.digits.length + 1) / 2 ≤ i ∨ (var2.digits.length + 1) / 2 ≤ j := by omega
    · rw [hout hi, zero_mul]
    · rw [hout hj, mul_zero]
  · obtain hi | hj : 4 * (var1.weight + 1) + var1.dscale ≤ 8 * i ∨
        4 * (var2.weight + 1) + var2.dscale ≤ 8 * j := by
      unfold decDigits at *
      omega
    · rw [hs1.digitPairs_eq_zero h1 hi, zero_mul]
    · rw [hs2.digitPairs_eq_zero h2 hj, mul_zero]

theorem abs_mul_abs_eq_zero
    (h : ∀ i j, (digitPairs var1.digits).getD i 0 * (digitPairs var2.digits).getD j 0 = 0) :
    var1.abs * var2.abs = 0 := by
  have hzero : Numeral.value nbaseSqr (digitPairs var1.digits) *
      Numeral.value nbaseSqr (digitPairs var2.digits) = 0 := by
    rw [mul_comm]
    apply mul_value_eq_zero
    intro i
    rw [mul_comm]
    exact mul_value_eq_zero _ (h i)
  rw [value_digitPairs, value_digitPairs] at hzero
  have hpow (n : ℕ) : nbase ^ n ≠ 0 := (pow_pos nbase_pos n).ne'
  unfold NumericVar.abs
  rw [mag_eq, mag_eq]
  simp only [mul_eq_zero, hpow, or_false] at hzero
  rcases hzero with hz | hz
  · rw [hz, Int.cast_zero, zero_mul, zero_mul]
  · rw [hz, Int.cast_zero, zero_mul, mul_zero]

theorem PartialProduct.mag_eq {pairOffset len : ℕ} {maxdig : ℤ}
    (h : Covered (digitPairs var1.digits) (digitPairs var2.digits) pairOffset len)
    (ha : PartialProduct (digitPairs var1.digits) (digitPairs var2.digits) pairOffset len 0 maxdig dig) :
    mag (splitPairs dig) (var1.weight + var2.weight - 1 + 2 * pairOffset) = var1.abs * var2.abs := by
  have htotal := h.total
  have hvalue := ha.value
  rw [drop_zero, value_digitPairs, value_digitPairs, nbaseSqr_eq, ← pow_mul] at hvalue
  have hcast : (Numeral.value nbaseSqr dig : ℚ) * (nbase : ℚ) ^
        ((2 * missing (digitPairs var1.digits) (digitPairs var2.digits) pairOffset len : ℕ) : ℤ) =
      Numeral.value nbase var1.digits * (nbase : ℚ) ^ ((var1.digits.length % 2 : ℕ) : ℤ) *
        (Numeral.value nbase var2.digits * (nbase : ℚ) ^ ((var2.digits.length % 2 : ℕ) : ℤ)) := by
    exact_mod_cast hvalue
  have hpow : (nbase : ℚ) ^ (var1.weight + var2.weight - 1 + 2 * pairOffset + 1 - (2 * len : ℕ)) *
        ((nbase : ℚ) ^ ((var1.digits.length % 2 : ℕ) : ℤ) *
          (nbase : ℚ) ^ ((var2.digits.length % 2 : ℕ) : ℤ)) =
      (nbase : ℚ) ^
        ((2 * missing (digitPairs var1.digits) (digitPairs var2.digits) pairOffset len : ℕ) : ℤ) *
        ((nbase : ℚ) ^ (var1.weight + 1 - var1.digits.length) *
          (nbase : ℚ) ^ (var2.weight + 1 - var2.digits.length)) := by
    simp only [← zpow_add₀ nbase_pos'.ne']
    congr 1
    simp only [missing, digitPairs_length] at htotal ⊢
    omega
  unfold NumericVar.abs
  rw [Numeric.mag_eq, Numeric.mag_eq, Numeric.mag_eq, value_splitPairs,
    splitPairs_length, ha.length]
  have hne : (nbase : ℚ) ^ ((var1.digits.length % 2 : ℕ) : ℤ) *
      (nbase : ℚ) ^ ((var2.digits.length % 2 : ℕ) : ℤ) ≠ 0 :=
    mul_ne_zero (zpow_pos nbase_pos' _).ne' (zpow_pos nbase_pos' _).ne'
  apply mul_right_cancel₀ hne
  linear_combination (Numeral.value nbaseSqr dig : ℚ) * hpow +
    ((nbase : ℚ) ^ (var1.weight + 1 - var1.digits.length) *
      (nbase : ℚ) ^ (var2.weight + 1 - var2.digits.length)) * hcast

theorem roundAt_mul (hs1 : var1.FitsScale) (hs2 : var2.FitsScale)
    (hr : var1.dscale + var2.dscale ≤ rscale) :
    roundAt rscale (var1.abs * var2.abs) = var1.abs * var2.abs := by
  obtain ⟨k1, hk1⟩ := hs1
  obtain ⟨k2, hk2⟩ := hs2
  obtain ⟨e, he⟩ := Int.eq_ofNat_of_zero_le (sub_nonneg.mpr hr)
  have hscale : rscale = var1.dscale + var2.dscale + e := by omega
  apply roundAt_of_int (k := k1 * k2 * 10 ^ e)
  rw [hscale, zpow_add₀ (by norm_num), zpow_add₀ (by norm_num), zpow_natCast]
  push_cast
  rw [← hk1, ← hk2]
  ring

variable (h1 : var1.Valid) (h2 : var2.Valid) (hs1 : var1.FitsScale) (hs2 : var2.FitsScale)
  (hr : var1.dscale + var2.dscale ≤ rscale)
include h1 h2 hs1 hs2 hr

theorem exact_mulVarLong (hpos1 : 1 ≤ var1.digits.length) (hpos2 : 1 ≤ var2.digits.length) :
    ∃ result, mulVarLong var1 var2 rscale = some result ∧
      Exact result (var1.value * var2.value) rscale ∧ result.Stripped := by
  unfold mulVarLong
  dsimp only
  generalize hpairs : (var1.ndigits + var2.ndigits) / 2 + 1 = pairs
  generalize hpo : pairs - (var1.ndigits + 1) / 2 - (var2.ndigits + 1) / 2 + 1 = po
  have hweight : var1.weight + var2.weight + 1 + 2 * pairs - (var1.ndigits + var2.ndigits) -
      var1.ndigits % 2 - var2.ndigits % 2 = var1.weight + var2.weight - 1 + 2 * po := by omega
  rw [hweight]
  generalize hmax : var1.weight + var2.weight - 1 + 2 * po + 1 +
    (rscale + decDigits - 1).tdiv decDigits + mulGuardDigits = maxdigits
  generalize hlen : min pairs (maxdigits.tdiv 2 + 1) = len
  have hvanish (i j : ℕ) (hij : len ≤ i + j + po) :=
    digitPairs_mul_eq_zero h1 h2 hs1 hs2 hr hpo.symm hmax.symm (hlen ▸ hij)
  split_ifs with hstart
  · refine ⟨_, rfl, ?_, ?_⟩
    · have hzero := abs_mul_abs_eq_zero fun i j => hvanish i j (by omega)
      have hvalue : var1.value * var2.value = 0 := by
        unfold NumericVar.value
        linear_combination var1.sign.toRat * var2.sign.toRat * hzero
      rw [hvalue]
      exact exact_zeroVar rscale
    · exact stripped_zeroVar rscale
  · unfold ndigits at *
    obtain ⟨len, rfl⟩ := Int.eq_ofNat_of_zero_le (show 0 ≤ len by omega)
    obtain ⟨po, rfl⟩ := Int.eq_ofNat_of_zero_le (show 0 ≤ po by omega)
    have hcovered : Covered (digitPairs var1.digits) (digitPairs var2.digits) po len := by
      refine ⟨inRange_digitPairs h1, inRange_digitPairs h2, ?_, ?_, ?_, ?_, ?_, ?_⟩
      all_goals try simp only [digitPairs_length]
      · omega
      · omega
      · omega
      · omega
      · omega
      · intro i j hij
        exact hvanish i j (by omega)
    have htake (ds : List ℤ) : (digitPairs ds).take
        (min (((ds.length : ℤ) + 1) / 2) ((len : ℤ) - po)).toNat = (digitPairs ds).take (len - po) := by
      apply take_eq_take_iff.mpr
      rw [digitPairs_length]
      omega
    obtain ⟨m, dig, hdig, ha⟩ := mulAccumulate_spec hcovered
    obtain ⟨out, hout, hlen', hrange, hvalue⟩ :=
      mulCarry_spec ha.within ha.limit (ha.value_lt hcovered)
    have ha' : PartialProduct (digitPairs var1.digits) (digitPairs var2.digits) po len 0 1 out :=
      ⟨hlen'.trans ha.length, within_of_inRange hrange, by decide, by rw [hvalue]; exact ha.value⟩
    rw [htake, htake]
    simp only [Int.toNat_natCast, hdig, hout, Option.bind_eq_bind, Option.bind_some]
    refine ⟨_, rfl, ?_, stripped_stripVar⟩
    have hexact : (productSign var1 var2).toRat * roundAt rscale (mag (splitPairs out)
        (var1.weight + var2.weight - 1 + 2 * (po : ℤ))) = var1.value * var2.value := by
      rw [ha'.mag_eq hcovered, roundAt_mul hs1 hs2 hr, productSign_toRat]
      unfold NumericVar.value
      ring
    rw [← hexact]
    have hvalid : Valid ⟨splitPairs out, var1.weight + var2.weight - 1 + 2 * (po : ℤ),
        productSign var1 var2, 0⟩ := inRange_splitPairs hrange
    exact (exact_roundVar hvalid rscale).stripVar

theorem exact_mulVar_of_le (hle : var1.ndigits ≤ var2.ndigits) : ∃ result,
    (if var1.ndigits = 0 then some (zeroVar rscale)
      else if var1.ndigits ≤ 6 ∧ rscale = var1.dscale + var2.dscale then mulVarShort var1 var2
      else mulVarLong var1 var2 rscale) = some result ∧
    Exact result (var1.value * var2.value) rscale ∧ result.Stripped := by
  unfold ndigits at *
  split_ifs with hzero hshort
  · have hnil : var1.digits = [] := length_eq_zero_iff.mp (by exact_mod_cast hzero)
    have hvalue : var1.value = 0 := by
      unfold NumericVar.value NumericVar.abs
      rw [hnil, mag_nil, mul_zero]
    rw [hvalue, zero_mul]
    exact ⟨_, rfl, exact_zeroVar rscale, stripped_zeroVar rscale⟩
  · obtain ⟨h6, rfl⟩ := hshort
    exact exact_mulVarShort h1 h2 (by omega) (by omega) (by omega)
  · exact exact_mulVarLong h1 h2 hs1 hs2 hr (by omega) (by omega)

theorem exact_mulVar :
    ∃ result, mulVar var1 var2 rscale = some result ∧
      Exact result (var1.value * var2.value) rscale ∧ result.Stripped := by
  unfold mulVar
  split_ifs with hswap
  · rw [mul_comm]
    exact exact_mulVar_of_le h2 h1 hs2 hs1 (by omega) hswap.le
  · exact exact_mulVar_of_le h1 h2 hs1 hs2 hr (by omega)

end PostgreSieve.Numeric.NumericVar

namespace PostgreSieve.Numeric

open NumericVar

/-- `mul_var` returns the exact product, stripped of leading and trailing zeros, at every scale that
holds it. No word overflows. -/
theorem mul_var_exact (var1 var2 : NumericVar) (rscale : ℤ) (h1 : var1.Valid) (h2 : var2.Valid)
    (hs1 : var1.FitsScale) (hs2 : var2.FitsScale) (hr : var1.dscale + var2.dscale ≤ rscale) :
    ∃ result, mulVar var1 var2 rscale = some result ∧ result.value = var1.value * var2.value ∧
      result.dscale = rscale ∧ result.Valid ∧ result.Stripped := by
  obtain ⟨result, hresult, hexact, hstripped⟩ := exact_mulVar h1 h2 hs1 hs2 hr
  exact ⟨result, hresult, hexact.value, hexact.dscale, hexact.valid, hstripped⟩

/-- Seven digits by two, with a leading zero and digits behind the point. -/
theorem mul_var_exact_seven :
    ∃ result, mulVar ⟨[0, 1, 2, 3, 4, 5, 6000], 5, .neg, 1⟩ ⟨[7, 8900], 0, .pos, 2⟩ 3 = some result ∧
      result.value = NumericVar.value ⟨[0, 1, 2, 3, 4, 5, 6000], 5, .neg, 1⟩ *
        NumericVar.value ⟨[7, 8900], 0, .pos, 2⟩ ∧
      result.dscale = 3 ∧ result.Valid ∧ result.Stripped :=
  mul_var_exact _ _ _ (by unfold Valid Numeral.InRange; decide)
    (by unfold Valid Numeral.InRange; decide)
    ⟨100020003000400056, by norm_num [NumericVar.abs, mag, nbase]⟩
    ⟨789, by norm_num [NumericVar.abs, mag, nbase]⟩ (by decide)

end PostgreSieve.Numeric
