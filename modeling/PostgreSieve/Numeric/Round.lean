import Mathlib.Algebra.Order.Floor.Ring
import Mathlib.Data.Rat.Floor
import PostgreSieve.Numeric.Arith

/-! # Rounding and truncation

`round_var` rounds half away from zero and `trunc_var` truncates towards zero, at any decimal place
before or behind the point.
-/

namespace PostgreSieve.Numeric

open Numeral List

variable {ds : List ℤ} {d w : ℤ}

/-- A nonnegative number rounded at a decimal place, halves upwards. -/
def roundAt (rscale : ℤ) (x : ℚ) : ℚ := ⌊x * (10 : ℚ) ^ rscale + 1 / 2⌋ * (10 : ℚ) ^ (-rscale)

namespace NumericVar

variable {var : NumericVar} {rscale : ℤ}
variable {di : ℤ} {n : ℕ}

/-! ## Digits -/

theorem propagateCarry_spec {c : ℤ} (hc : c = 0 ∨ c = 1) (h : InRange nbase ds) :
    ((propagateCarry c ds).1 = 0 ∨ (propagateCarry c ds).1 = 1) ∧
      InRange nbase (propagateCarry c ds).2 ∧ (propagateCarry c ds).2.length = ds.length ∧
      (propagateCarry c ds).1 * nbase ^ ds.length + Numeral.value nbase (propagateCarry c ds).2 =
        Numeral.value nbase ds + c := by
  induction ds with
  | nil => exact ⟨hc, nofun, rfl, by simp [propagateCarry]⟩
  | cons d ds ih =>
    obtain ⟨hc', hr, hl, hv⟩ := ih h.of_cons
    have hd := h d (.head _)
    rw [propagateCarry]
    generalize propagateCarry c ds = p at hc' hr hl hv
    obtain ⟨c', out⟩ := p
    dsimp only at hc' hr hl hv ⊢
    have hpow : nbase ^ (ds.length + 1) = nbase ^ ds.length * nbase := pow_succ _ _
    rcases hc' with rfl | rfl
    · rw [if_pos rfl]
      refine ⟨.inl rfl, .cons hd hr, by simp [hl], ?_⟩
      simp only [value_cons, hl, length_cons]
      linarith
    · rw [if_neg one_ne_zero]
      split
      · refine ⟨.inr rfl, .cons (by omega) hr, by simp [hl], ?_⟩
        simp only [value_cons, hl, length_cons, hpow]
        linear_combination hv
      · refine ⟨.inl rfl, .cons (by omega) hr, by simp [hl], ?_⟩
        simp only [value_cons, hl, length_cons]
        linear_combination hv

/-- The quotient rounded to an integer, halves upwards. -/
def quotient (x u : ℤ) : ℤ := (2 * x + u) / (2 * u)

variable {u k : ℤ}

theorem quotient_add_mul (x k : ℤ) (hu : 0 < u) :
    quotient (k * u + x) u = k + quotient x u := by
  unfold quotient
  rw [show 2 * (k * u + x) + u = 2 * x + u + k * (2 * u) by ring,
    Int.add_mul_ediv_right _ _ (by omega), add_comm]

theorem quotient_mul {x r j : ℤ} (hu : u % 2 = 0) (hr : 0 ≤ r) (hj : r < j) :
    quotient (x * j + r) (u * j) = quotient x u := by
  obtain ⟨k, rfl⟩ : ∃ k, u = 2 * k := ⟨u / 2, by omega⟩
  unfold quotient
  rw [show 2 * (x * j + r) + 2 * k * j = 2 * ((x + k) * j + r) by ring,
    show 2 * (2 * k * j) = 2 * (j * (2 * k)) by ring, Int.mul_ediv_mul_of_pos _ _ (by omega),
    ← Int.ediv_ediv_of_nonneg (by omega), add_comm, Int.add_mul_ediv_right _ _ (by omega),
    Int.ediv_eq_zero_of_lt hr hj, zero_add, show 2 * x + 2 * k = 2 * (x + k) by ring,
    Int.mul_ediv_mul_of_pos _ _ (by omega)]

/-- The unit at which the last kept digit is rounded. -/
def unit (di : ℤ) : ℤ := if di = 0 then 1 else roundPowers di

theorem roundPowers_cases (h : 0 < di) (h' : di < 4) :
    (di = 1 ∧ roundPowers di = 1000) ∨ (di = 2 ∧ roundPowers di = 100) ∨
      (di = 3 ∧ roundPowers di = 10) := by
  obtain rfl | rfl | rfl : di = 1 ∨ di = 2 ∨ di = 3 := by omega
  · exact .inl ⟨rfl, rfl⟩
  · exact .inr (.inl ⟨rfl, rfl⟩)
  · exact .inr (.inr ⟨rfl, rfl⟩)

theorem roundLast_spec (h : 0 < di) (h' : di < 4) (hd : 0 ≤ d ∧ d < nbase) :
    ((roundLast di d).2 = 0 ∨ (roundLast di d).2 = 1) ∧
      (0 ≤ (roundLast di d).1 ∧ (roundLast di d).1 < nbase) ∧
      (roundLast di d).2 * nbase + (roundLast di d).1 =
        roundPowers di * quotient d (roundPowers di) := by
  unfold roundLast quotient nbase at *
  rcases roundPowers_cases h h' with ⟨-, hp⟩ | ⟨-, hp⟩ | ⟨-, hp⟩ <;>
  · rw [hp]
    dsimp only
    split
    · split
      · exact ⟨.inr rfl, by dsimp only; omega, by dsimp only; omega⟩
      · exact ⟨.inl rfl, by dsimp only; omega, by dsimp only; omega⟩
    · exact ⟨.inl rfl, by dsimp only; omega, by dsimp only; omega⟩

theorem dropLast_append_getLastD (h : ds ≠ []) : ds.dropLast ++ [ds.getLastD 0] = ds := by
  have hlast : ds.getLastD 0 = ds.getLast h := by
    rw [getLastD_eq_getLast?, List.getLast?_eq_getLast_of_ne_nil h, Option.getD_some]
  rw [hlast]
  exact dropLast_append_getLast h

theorem roundKept_spec (h : InRange nbase ds) (hdi : 0 ≤ di ∧ di < 4)
    (hn : n < ds.length ∨ n = ds.length ∧ 0 < di) (hpos : 0 < di → 0 < n) :
    let p := roundKept ds n di
    (p.2.2 = 0 ∨ p.2.2 = 1) ∧ InRange nbase p.1 ∧ InRange nbase p.2.1 ∧
      p.1.length + p.2.1.length = n ∧
      (Numeral.value nbase p.1 + p.2.2) * nbase ^ p.2.1.length + Numeral.value nbase p.2.1 =
        unit di * quotient (Numeral.value nbase ds) (unit di * nbase ^ (ds.length - n)) := by
  intro p
  have hle : n ≤ ds.length := by omega
  have htake := h.take n
  by_cases hzero : di = 0
  · have hlt : n < ds.length := by omega
    have hp : p = (ds.take n, [], if halfNbase ≤ ds.getD n 0 then 1 else 0) := by
      unfold p roundKept
      rw [if_pos hzero]
    rw [hp, unit, if_pos hzero]
    refine ⟨by dsimp only; split <;> simp, htake, nofun, by simp [hle], ?_⟩
    have hdrop := h.drop (n + 1)
    have hr := hdrop.value_nonneg
    have hr' := hdrop.value_lt nbase_pos
    rw [length_drop] at hr'
    have hj : nbase ^ (ds.length - n) = nbase * nbase ^ (ds.length - (n + 1)) := by
      rw [← pow_succ']
      congr 1
      omega
    rw [value_take_drop nbase ds n, value_drop_cons hlt, hj]
    generalize nbase ^ (ds.length - (n + 1)) = j at hr'
    rw [one_mul, one_mul, show Numeral.value nbase (ds.take n) * (nbase * j) +
      (ds.getD n 0 * j + Numeral.value nbase (ds.drop (n + 1))) =
      (Numeral.value nbase (ds.take n) * nbase + ds.getD n 0) * j +
        Numeral.value nbase (ds.drop (n + 1)) by ring,
      quotient_mul (by decide) hr hr', quotient_add_mul _ _ nbase_pos]
    have hd := h.getD nbase_pos n
    unfold quotient halfNbase nbase at *
    dsimp only [length_nil, value_nil]
    split <;> omega
  · have hdi' : 0 < di := by omega
    have hne : ds.take n ≠ [] := by
      rw [← length_pos_iff, length_take]
      omega
    have hsplit := dropLast_append_getLastD hne
    have hlast : 0 ≤ (ds.take n).getLastD 0 ∧ (ds.take n).getLastD 0 < nbase := by
      apply htake
      rw [← hsplit]
      simp
    obtain ⟨hc, hrange, hvalue⟩ := roundLast_spec hdi' hdi.2 hlast
    have hp : p = ((ds.take n).dropLast, [(roundLast di ((ds.take n).getLastD 0)).1],
        (roundLast di ((ds.take n).getLastD 0)).2) := by
      unfold p roundKept
      rw [if_neg hzero]
    rw [hp, unit, if_neg hzero]
    refine ⟨hc, htake.sublist (dropLast_sublist _), .cons hrange nofun, ?_, ?_⟩
    · simp only [length_dropLast, length_take, length_singleton]
      omega
    · have hdrop := h.drop n
      have hr := hdrop.value_nonneg
      have hr' := hdrop.value_lt nbase_pos
      rw [length_drop] at hr'
      have heven : roundPowers di % 2 = 0 ∧ 0 < roundPowers di ∧
          nbase = nbase / roundPowers di * roundPowers di := by
        rcases roundPowers_cases hdi' hdi.2 with ⟨-, hp⟩ | ⟨-, hp⟩ | ⟨-, hp⟩ <;> rw [hp] <;> decide
      rw [value_take_drop nbase ds n, quotient_mul heven.1 hr hr']
      conv_rhs => rw [← hsplit, value_concat]
      generalize Numeral.value nbase (ds.take n).dropLast = i
      have hmul : i * nbase = i * (nbase / roundPowers di) * roundPowers di := by
        rw [mul_assoc, ← heven.2.2]
      rw [hmul, quotient_add_mul _ _ heven.2.1, mul_add, ← hvalue, mul_comm (roundPowers di), ← hmul]
      simp only [length_singleton, pow_one, value_cons, length_nil, pow_zero, value_nil]
      ring

/-! ## Decimal places -/

theorem nbase_zpow (e : ℤ) : (nbase : ℚ) ^ e = (10 : ℚ) ^ (4 * e) := by
  rw [zpow_mul]
  norm_num [nbase]

theorem unit_eq {di n : ℤ} (hn : n = (di + decDigits - 1) / decDigits) :
    (unit (di % decDigits) : ℚ) = (10 : ℚ) ^ (4 * n - di) := by
  unfold decDigits at *
  have hcases : (di % 4 = 0 ∧ 4 * n - di = 0) ∨ (di % 4 = 1 ∧ 4 * n - di = 3) ∨
      (di % 4 = 2 ∧ 4 * n - di = 2) ∨ (di % 4 = 3 ∧ 4 * n - di = 1) := by omega
  have hunit : unit 0 = 1 ∧ unit 1 = 1000 ∧ unit 2 = 100 ∧ unit 3 = 10 := by decide
  rcases hcases with ⟨hk, he⟩ | ⟨hk, he⟩ | ⟨hk, he⟩ | ⟨hk, he⟩ <;> rw [hk, he] <;>
    norm_num [hunit]

theorem unit_pos (h : 0 ≤ di ∧ di < 4) : 0 < unit di := by
  obtain rfl | rfl | rfl | rfl : di = 0 ∨ di = 1 ∨ di = 2 ∨ di = 3 := by omega
  all_goals decide

theorem ten_zpow_neg {n w : ℤ}
    (hn : n = ((w + 1) * decDigits + rscale + decDigits - 1) / decDigits) :
    (10 : ℚ) ^ (-rscale) =
      (nbase : ℚ) ^ (w + 1 - n) * unit (((w + 1) * decDigits + rscale) % decDigits) := by
  rw [unit_eq hn, nbase_zpow, ← zpow_add₀ (by norm_num)]
  congr 1
  unfold decDigits
  ring

theorem mag_mul_zpow (ds : List ℤ)
    (hn : (n : ℤ) = ((w + 1) * decDigits + rscale + decDigits - 1) / decDigits)
    (hle : n ≤ ds.length) :
    mag ds w * (10 : ℚ) ^ rscale = (Numeral.value nbase ds : ℚ) /
      (unit (((w + 1) * decDigits + rscale) % decDigits) * nbase ^ (ds.length - n) : ℤ) := by
  have hunit : ((unit (((w + 1) * decDigits + rscale) % decDigits) * nbase ^ (ds.length - n) : ℤ) : ℚ) =
      (10 : ℚ) ^ (4 * (ds.length : ℤ) - ((w + 1) * decDigits + rscale)) := by
    push_cast
    rw [unit_eq hn, ← zpow_natCast, nbase_zpow, ← zpow_add₀ (by norm_num), Nat.cast_sub hle]
    congr 1
    ring
  rw [hunit, div_eq_mul_inv, ← zpow_neg, mag_eq, nbase_zpow, mul_assoc, ← zpow_add₀ (by norm_num)]
  congr 2
  unfold decDigits
  ring

theorem mag_mul_zpow_of_le (ds : List ℤ) (w rscale : ℤ)
    (hle : ds.length * decDigits ≤ (w + 1) * decDigits + rscale) :
    ∃ k : ℤ, mag ds w * (10 : ℚ) ^ rscale = k := by
  obtain ⟨e, he⟩ := Int.eq_ofNat_of_zero_le (sub_nonneg.mpr hle)
  refine ⟨Numeral.value nbase ds * 10 ^ e, ?_⟩
  rw [mag_eq, nbase_zpow, mul_assoc, ← zpow_add₀ (by norm_num)]
  push_cast
  rw [← zpow_natCast (10 : ℚ) e, ← he]
  congr 2
  unfold decDigits
  ring

theorem floor_quotient (x : ℤ) (hu : 0 < u) : ⌊(x : ℚ) / u + 1 / 2⌋ = quotient x u := by
  obtain ⟨m, hm⟩ := Int.eq_ofNat_of_zero_le (show 0 ≤ 2 * u by omega)
  have heq : (x : ℚ) / u + 1 / 2 = ((2 * x + u : ℤ) : ℚ) / (m : ℕ) := by
    have hm' : ((m : ℕ) : ℚ) = 2 * u := by exact_mod_cast hm.symm
    rw [hm']
    push_cast
    field_simp
  rw [heq, Rat.floor_intCast_div_natCast, ← hm]
  rfl

theorem zpow_neg_mul (x : ℚ) (rscale : ℤ) : x * (10 : ℚ) ^ rscale * (10 : ℚ) ^ (-rscale) = x := by
  rw [mul_assoc, ← zpow_add₀ (by norm_num), add_neg_cancel, zpow_zero, mul_one]

theorem roundAt_of_int {x : ℚ} (h : x * (10 : ℚ) ^ rscale = k) : roundAt rscale x = x := by
  have hfloor : ⌊(k : ℚ) + 1 / 2⌋ = k := by
    rw [Int.floor_intCast_add, show ⌊(1 / 2 : ℚ)⌋ = 0 by norm_num, add_zero]
  rw [roundAt, h, hfloor, ← h, zpow_neg_mul]

theorem mul_zpow_lt (h : var.Valid) (rscale : ℤ) :
    var.abs * (10 : ℚ) ^ rscale < (10 : ℚ) ^ ((var.weight + 1) * decDigits + rscale) := by
  have hlt := mul_lt_mul_of_pos_right h.abs_lt (zpow_pos (show (0 : ℚ) < 10 by norm_num) rscale)
  rw [nbase_zpow, ← zpow_add₀ (by norm_num)] at hlt
  rwa [decDigits, mul_comm (var.weight + 1)]

theorem mul_zpow_nonneg (h : var.Valid) (rscale : ℤ) : 0 ≤ var.abs * (10 : ℚ) ^ rscale :=
  mul_nonneg h.abs_nonneg (zpow_nonneg (by norm_num) _)

/-! ## The variables -/

theorem abs_round_kept {carry carry' : ℤ} {high high' low : List ℤ} (h : var.Valid)
    (hn : (n : ℤ) = ((var.weight + 1) * decDigits + rscale + decDigits - 1) / decDigits)
    (hlt : n < var.digits.length ∨ n = var.digits.length ∧
      0 < ((var.weight + 1) * decDigits + rscale) % decDigits)
    (hpos : 0 < ((var.weight + 1) * decDigits + rscale) % decDigits → 0 < n)
    (hkept : roundKept var.digits n (((var.weight + 1) * decDigits + rscale) % decDigits) =
      (high, low, carry))
    (hcarry : propagateCarry carry high = (carry', high')) :
    (carry' = 0 ∨ carry' = 1) ∧ InRange nbase (high' ++ low) ∧
      carry' * (nbase : ℚ) ^ (var.weight + 1) + mag (high' ++ low) var.weight =
        roundAt rscale var.abs := by
  have hmag := mag_mul_zpow var.digits hn (by omega)
  have hten := ten_zpow_neg hn
  have hdi : 0 ≤ ((var.weight + 1) * decDigits + rscale) % decDigits ∧
      ((var.weight + 1) * decDigits + rscale) % decDigits < 4 := by
    unfold decDigits
    omega
  generalize ((var.weight + 1) * decDigits + rscale) % decDigits = di at *
  have hspec := roundKept_spec h hdi hlt hpos
  rw [hkept] at hspec
  obtain ⟨hc, hhigh, hlow, hlen, hvalue⟩ := hspec
  have hspec' := propagateCarry_spec hc hhigh
  rw [hcarry] at hspec'
  obtain ⟨hc', hrange, hlen', hvalue'⟩ := hspec'
  refine ⟨hc', hrange.append hlow, ?_⟩
  have hu : 0 < unit di * nbase ^ (var.digits.length - n) :=
    mul_pos (unit_pos hdi) (pow_pos nbase_pos _)
  have hround : roundAt rscale var.abs = (unit di * quotient (Numeral.value nbase var.digits)
      (unit di * nbase ^ (var.digits.length - n)) : ℤ) * (nbase : ℚ) ^ (var.weight + 1 - n) := by
    rw [roundAt, abs, hmag, floor_quotient _ hu, hten]
    push_cast
    ring
  have hlenq : high'.length + low.length = n := by rw [hlen', hlen]
  have hpow : (nbase : ℚ) ^ (var.weight + 1) =
      (nbase : ℚ) ^ (high'.length + low.length) * (nbase : ℚ) ^ (var.weight + 1 - n) := by
    rw [hlenq, ← zpow_natCast, ← zpow_add₀ nbase_pos'.ne']
    congr 1
    ring
  have hcast : (carry' : ℚ) * (nbase : ℚ) ^ (high'.length + low.length) +
      (Numeral.value nbase (high' ++ low) : ℤ) =
      (unit di * quotient (Numeral.value nbase var.digits)
        (unit di * nbase ^ (var.digits.length - n)) : ℤ) := by
    rw [← hvalue, ← hvalue', value_append, hlen']
    push_cast
    ring
  rw [hround, mag_eq, length_append, hlenq, hpow, ← hcast]
  ring

theorem exact_mk {x : ℚ} {dscale : ℤ} {sign : NumericSign} (h : InRange nbase ds)
    (habs : mag ds w = x) : Exact ⟨ds, w, sign, dscale⟩ (sign.toRat * x) dscale :=
  ⟨h, by rw [← habs]; rfl, rfl⟩

theorem ten_zpow_le (hk : k ≤ -1) : (10 : ℚ) ^ k ≤ 1 / 10 := by
  calc (10 : ℚ) ^ k ≤ (10 : ℚ) ^ (-1 : ℤ) := zpow_le_zpow_right₀ (by norm_num) hk
    _ = 1 / 10 := by norm_num

/-- `round_var` rounds half away from zero. -/
theorem exact_roundVar (h : var.Valid) (rscale : ℤ) :
    Exact (var.roundVar rscale) (var.sign.toRat * roundAt rscale var.abs) rscale := by
  unfold roundVar
  dsimp only
  split
  · have hlt := mul_zpow_lt h rscale
    have hnonneg := mul_zpow_nonneg h rscale
    have hpow := ten_zpow_le (k := (var.weight + 1) * decDigits + rscale) (by omega)
    have hfloor : ⌊var.abs * (10 : ℚ) ^ rscale + 1 / 2⌋ = 0 := by
      rw [Int.floor_eq_zero_iff]
      exact ⟨by linarith, by linarith⟩
    rw [roundAt, hfloor, Int.cast_zero, zero_mul, mul_zero]
    exact exact_zeroVar rscale
  obtain ⟨n, hn⟩ := Int.eq_ofNat_of_zero_le (show
    0 ≤ ((var.weight + 1) * decDigits + rscale + decDigits - 1) / decDigits by
      unfold decDigits at *
      omega)
  rw [hn, Int.toNat_natCast]
  split
  · rename_i hlt
    cases hkept : roundKept var.digits n (((var.weight + 1) * decDigits + rscale) % decDigits) with
    | mk high p =>
      obtain ⟨low, carry⟩ := p
      cases hcarry : propagateCarry carry high with
      | mk carry' high' =>
        obtain ⟨hc, hr, habs⟩ := abs_round_kept h hn.symm
          (by unfold ndigits at hlt; omega) (by unfold decDigits at *; omega) hkept hcarry
        dsimp only
        split
        · rename_i hzero
          rw [hzero, Int.cast_zero, zero_mul, zero_add] at habs
          exact exact_mk hr habs
        · have hone : carry' = 1 := by omega
          refine exact_mk (.cons (by rw [hone]; decide) hr) ?_
          rw [mag_cons, add_sub_cancel_right, habs]
  · obtain ⟨k, hk⟩ := mag_mul_zpow_of_le var.digits var.weight rscale
      (by unfold ndigits decDigits at *; omega)
    exact exact_mk h (roundAt_of_int hk).symm

end NumericVar

end PostgreSieve.Numeric
