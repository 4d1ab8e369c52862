import Mathlib.Algebra.Order.Ring.Int
import Mathlib.Data.List.Basic
import Mathlib.Data.List.GetD
import Mathlib.Tactic.LinearCombination
import Mathlib.Tactic.Linarith
import Mathlib.Tactic.Positivity
import Mathlib.Tactic.Ring

/-! # Numerals

Lists of digits in a base, most significant first. A digit may be out of range: a carry pass from
right to left brings the digits in range and leaves a carry.
-/

namespace PostgreSieve.Numeral

open List

def value (b : ℤ) : List ℤ → ℤ
  | [] => 0
  | d :: ds => d * b ^ ds.length + value b ds

/-- The digits are in range. -/
def InRange (b : ℤ) (ds : List ℤ) : Prop := ∀ d ∈ ds, 0 ≤ d ∧ d < b

variable {b : ℤ} {ds es : List ℤ} {d : ℤ}

@[simp] theorem value_nil : value b [] = 0 := rfl

@[simp] theorem value_cons : value b (d :: ds) = d * b ^ ds.length + value b ds := rfl

theorem value_append : value b (ds ++ es) = value b ds * b ^ es.length + value b es := by
  induction ds with
  | nil => simp
  | cons d ds ih =>
    simp only [cons_append, value_cons, length_append, ih, pow_add]
    ring

@[simp] theorem value_replicate_zero (n : ℕ) : value b (List.replicate n 0) = 0 := by
  induction n with
  | zero => rfl
  | succ n ih => simp [replicate_succ, ih]

theorem value_zeros_append (n : ℕ) : value b (List.replicate n 0 ++ ds) = value b ds := by
  rw [value_append, value_replicate_zero, zero_mul, zero_add]

theorem value_append_zeros (n : ℕ) :
    value b (ds ++ List.replicate n 0) = value b ds * b ^ n := by
  rw [value_append, value_replicate_zero, add_zero, length_replicate]

theorem value_concat : value b (ds ++ [d]) = value b ds * b + d := by
  simp [value_append]

theorem value_map_add {α : Type*} (l : List α) (f g : α → ℤ) :
    value b (l.map fun i => f i + g i) = value b (l.map f) + value b (l.map g) := by
  induction l with
  | nil => rfl
  | cons i l ih =>
    simp only [map_cons, value_cons, length_map, ih]
    ring

theorem value_map_sub {α : Type*} (l : List α) (f g : α → ℤ) :
    value b (l.map fun i => f i - g i) = value b (l.map f) - value b (l.map g) := by
  induction l with
  | nil => rfl
  | cons i l ih =>
    simp only [map_cons, value_cons, length_map, ih]
    ring

theorem value_map_mul (p : ℤ) (ds : List ℤ) : value b (ds.map (p * ·)) = p * value b ds := by
  induction ds with
  | nil => simp
  | cons d ds ih =>
    simp only [map_cons, value_cons, length_map, ih]
    ring

theorem value_take_drop (b : ℤ) (ds : List ℤ) (n : ℕ) :
    value b ds = value b (ds.take n) * b ^ (ds.length - n) + value b (ds.drop n) := by
  conv_lhs => rw [← take_append_drop n ds]
  rw [value_append, length_drop]

theorem value_drop_cons {n : ℕ} (hn : n < ds.length) :
    value b (ds.drop n) =
      ds.getD n 0 * b ^ (ds.length - (n + 1)) + value b (ds.drop (n + 1)) := by
  have hget : ds.getD n 0 = ds[n] := getD_eq_getElem ds 0 hn
  rw [drop_eq_getElem_cons hn, value_cons, length_drop, hget]

/-! ## Digits in range -/

theorem InRange.of_cons (h : InRange b (d :: ds)) : InRange b ds :=
  fun e he => h e (.tail _ he)

theorem InRange.cons (hd : 0 ≤ d ∧ d < b) (h : InRange b ds) : InRange b (d :: ds) :=
  forall_mem_cons.mpr ⟨hd, h⟩

section

variable (h : InRange b ds)
include h

theorem InRange.append (h' : InRange b es) : InRange b (ds ++ es) :=
  forall_mem_append.mpr ⟨h, h'⟩

theorem InRange.sublist (hs : es.Sublist ds) : InRange b es :=
  fun e he => h e (hs.subset he)

theorem InRange.take (n : ℕ) : InRange b (ds.take n) :=
  h.sublist (take_sublist _ _)

theorem InRange.drop (n : ℕ) : InRange b (ds.drop n) :=
  h.sublist (drop_sublist _ _)

end

theorem InRange.getD (hb : 0 < b) (h : InRange b ds) (n : ℕ) :
    0 ≤ ds.getD n 0 ∧ ds.getD n 0 < b := by
  rw [getD_eq_getElem?_getD]
  cases hget : ds[n]? with
  | none => exact ⟨le_refl 0, hb⟩
  | some e => exact h e (mem_of_getElem? hget)

theorem InRange.value_nonneg (h : InRange b ds) : 0 ≤ value b ds := by
  induction ds with
  | nil => exact le_refl 0
  | cons d ds ih =>
    obtain ⟨hd, hdb⟩ := h d (.head _)
    have hpow : 0 ≤ b ^ ds.length := pow_nonneg (by omega) _
    exact add_nonneg (mul_nonneg hd hpow) (ih h.of_cons)

theorem InRange.value_lt (hb : 0 < b) (h : InRange b ds) : value b ds < b ^ ds.length := by
  induction ds with
  | nil => simp
  | cons d ds ih =>
    obtain ⟨-, hd⟩ := h d (.head _)
    have hpow : 0 < b ^ ds.length := pow_pos hb _
    have hmul : d * b ^ ds.length ≤ (b - 1) * b ^ ds.length :=
      mul_le_mul_of_nonneg_right (by omega) hpow.le
    have hlt := ih h.of_cons
    rw [value_cons, length_cons, pow_succ]
    linarith

/-! ## Windows -/

/-- The digit at an index that may lie outside of the list. -/
def digitAt (ds : List ℤ) (i : ℤ) : ℤ := if 0 ≤ i then ds.getD i.toNat 0 else 0

/-- The `n` digits from index `off` on. -/
def window (ds : List ℤ) (off : ℤ) (n : ℕ) : List ℤ :=
  (List.range n).map fun i : ℕ => digitAt ds (off + i)

theorem window_succ (off : ℤ) (n : ℕ) :
    window ds off (n + 1) = digitAt ds off :: window ds (off + 1) n := by
  simp only [window, range_succ_eq_map, map_cons, map_map]
  congr 1
  · simp
  · apply map_congr_left
    intro i _
    simp only [Function.comp_apply, Nat.succ_eq_add_one, Nat.cast_add, Nat.cast_one]
    congr 1
    ring

theorem digitAt_cons_succ (i : ℤ) (hi : 0 ≤ i) : digitAt (d :: ds) (i + 1) = digitAt ds i := by
  obtain ⟨n, rfl⟩ := Int.eq_ofNat_of_zero_le hi
  rfl

theorem window_cons (off : ℤ) (hoff : 0 ≤ off) (n : ℕ) :
    window (d :: ds) (off + 1) n = window ds off n := by
  apply map_congr_left
  intro i _
  rw [add_right_comm, digitAt_cons_succ _ (by omega)]

theorem window_nil (off : ℤ) (n : ℕ) : window [] off n = List.replicate n 0 := by
  simp [window, digitAt, map_const']

theorem window_zero (t : ℕ) : window ds 0 (ds.length + t) = ds ++ List.replicate t 0 := by
  induction ds with
  | nil => rw [window_nil, length_nil, Nat.zero_add, nil_append]
  | cons d ds ih =>
    rw [length_cons, Nat.add_right_comm, window_succ, window_cons 0 le_rfl, ih]
    rfl

theorem window_neg (z t : ℕ) :
    window ds (-z) (z + (ds.length + t)) = List.replicate z 0 ++ (ds ++ List.replicate t 0) := by
  induction z with
  | zero => simp [window_zero]
  | succ z ih =>
    have hneg : ¬ 0 ≤ (-((z + 1 : ℕ) : ℤ)) := by omega
    rw [Nat.add_right_comm, window_succ, digitAt, if_neg hneg]
    have hoff : -((z + 1 : ℕ) : ℤ) + 1 = -z := by push_cast; ring
    rw [hoff, ih, replicate_succ, cons_append]

section

variable (hb : 0 < b) (h : InRange b ds)
include hb h

theorem value_window_of_nonneg (off n t : ℕ) (hn : off + n = ds.length + t) :
    value b (window ds off n) = value b ds * b ^ t % b ^ n := by
  induction off generalizing ds n with
  | zero =>
    rw [Nat.zero_add] at hn
    rw [hn, Nat.cast_zero, window_zero, value_append_zeros]
    refine (Int.emod_eq_of_lt (mul_nonneg h.value_nonneg (by positivity)) ?_).symm
    rw [pow_add]
    exact mul_lt_mul_of_pos_right (h.value_lt hb) (by positivity)
  | succ off ih =>
    cases ds with
    | nil => simp [window_nil]
    | cons d ds =>
      rw [length_cons] at hn
      have hn' : off + n = ds.length + t := by omega
      rw [Nat.cast_succ, window_cons _ (by omega), ih h.of_cons n hn', value_cons, add_mul,
        mul_assoc, ← pow_add, ← hn', pow_add, ← mul_assoc, Int.mul_add_emod_self_right]

/-- A window holds the lowest digits of the number, with `t` zeros put behind it. -/
theorem value_window (off : ℤ) (n t : ℕ) (hn : off + n = ds.length + t) :
    value b (window ds off n) = value b ds * b ^ t % b ^ n := by
  rcases Int.eq_nat_or_neg off with ⟨z, rfl | rfl⟩
  · exact value_window_of_nonneg hb h z n t (by exact_mod_cast hn)
  · obtain rfl : n = z + (ds.length + t) := by omega
    have hvalue := h.value_nonneg
    have hlt : value b ds * b ^ t < b ^ (ds.length + t) := by
      rw [pow_add]
      exact mul_lt_mul_of_pos_right (h.value_lt hb) (pow_pos hb t)
    have hle : b ^ (ds.length + t) ≤ b ^ (z + (ds.length + t)) :=
      pow_le_pow_right₀ hb (Nat.le_add_left _ _)
    rw [window_neg, value_zeros_append, value_append_zeros,
      Int.emod_eq_of_lt (mul_nonneg hvalue (pow_pos hb t).le) (hlt.trans_le hle)]

theorem inRange_window (off : ℤ) (n : ℕ) :
    InRange b (window ds off n) := by
  intro e he
  obtain ⟨i, -, rfl⟩ := mem_map.mp he
  unfold digitAt
  split
  · exact h.getD hb _
  · exact ⟨le_refl 0, hb⟩

end

/-! ## Carry passes -/

/-- The pass from right to left, with the carry that is left over. -/
def propagate (b : ℤ) : List ℤ → ℤ × List ℤ
  | [] => (0, [])
  | d :: ds =>
    let (carry, out) := propagate b ds
    ((d + carry) / b, (d + carry) % b :: out)

theorem propagate_cons : propagate b (d :: ds) =
    ((d + (propagate b ds).1) / b, (d + (propagate b ds).1) % b :: (propagate b ds).2) := rfl

@[simp] theorem propagate_length : (propagate b ds).2.length = ds.length := by
  induction ds with
  | nil => rfl
  | cons d ds ih => simp [propagate_cons, ih]

theorem inRange_propagate (hb : 0 < b) (ds : List ℤ) : InRange b (propagate b ds).2 := by
  induction ds with
  | nil => exact nofun
  | cons d ds ih =>
    exact .cons ⟨Int.emod_nonneg _ (by omega), Int.emod_lt_of_pos _ hb⟩ ih

theorem propagate_value (b : ℤ) (ds : List ℤ) :
    (propagate b ds).1 * b ^ ds.length + value b (propagate b ds).2 = value b ds := by
  induction ds with
  | nil => simp [propagate]
  | cons d ds ih =>
    rw [propagate_cons, value_cons, value_cons, propagate_length, ← ih, length_cons, pow_succ]
    have hdiv := Int.mul_ediv_add_emod (d + (propagate b ds).1) b
    linear_combination b ^ ds.length * hdiv

theorem propagate_fst (hb : 0 < b) : (propagate b ds).1 = value b ds / b ^ ds.length := by
  have hvalue := propagate_value b ds
  have hlt := (inRange_propagate hb ds).value_lt hb
  have hnonneg := (inRange_propagate hb ds).value_nonneg
  rw [propagate_length] at hlt
  rw [← hvalue, add_comm, Int.add_mul_ediv_right _ _ (pow_pos hb _).ne',
    Int.ediv_eq_zero_of_lt hnonneg hlt, zero_add]

theorem propagate_snd (hb : 0 < b) :
    value b (propagate b ds).2 = value b ds % b ^ ds.length := by
  have hvalue := propagate_value b ds
  rw [propagate_fst hb] at hvalue
  have hdiv := Int.mul_ediv_add_emod (value b ds) (b ^ ds.length)
  linarith

/-- A pass over machine words. A sum that does not fit ends it. -/
def carryPass (fits : ℤ → Bool) (step : ℤ → ℤ × ℤ) : List ℤ → Option (ℤ × List ℤ)
  | [] => some (0, [])
  | d :: ds => do
    let (carry, out) ← carryPass fits step ds
    if fits (d + carry) then
      let (carry, newdig) := step (d + carry)
      some (carry, newdig :: out)
    else none

/-- The words suffice if the sum of a digit and a carry between `lo` and `hi` fits and has a carry
between `lo` and `hi` itself. -/
theorem carryPass_eq {fits : ℤ → Bool} {step : ℤ → ℤ × ℤ} (lo hi : ℤ) (hlo : lo ≤ 0) (hhi : 0 ≤ hi)
    (hstep : ∀ d ∈ ds, ∀ c, lo ≤ c → c ≤ hi → fits (d + c) = true ∧
      step (d + c) = ((d + c) / b, (d + c) % b) ∧ lo ≤ (d + c) / b ∧ (d + c) / b ≤ hi) :
    carryPass fits step ds = some (propagate b ds) ∧
      lo ≤ (propagate b ds).1 ∧ (propagate b ds).1 ≤ hi := by
  induction ds with
  | nil => exact ⟨rfl, hlo, hhi⟩
  | cons d ds ih =>
    obtain ⟨heq, hl, hh⟩ := ih fun e he => hstep e (.tail _ he)
    obtain ⟨hfit, hs, hbound⟩ := hstep d (.head _) _ hl hh
    refine ⟨?_, hbound⟩
    rw [carryPass, heq]
    simp only [Option.bind_eq_bind, Option.bind_some, hfit, if_true, hs]
    rfl

end PostgreSieve.Numeral
