import Mathlib.Data.Nat.Bitwise

/-! # Fields of a machine word

A field is a run of consecutive bits read as a number. Adding or subtracting one
unit of a field changes no other field as long as the field itself neither
overflows nor borrows, and the bitwise operations act on every bit alone.
-/

namespace PostgreSieve

open Nat

variable {n : ℕ}

/-- The number in the `len` bits of `w` from bit `lo` on. -/
def field (lo len : ℕ) (w : BitVec n) : ℕ := w.toNat / 2 ^ lo % 2 ^ len

theorem field_lt (lo len : ℕ) (w : BitVec n) : field lo len w < 2 ^ len :=
  Nat.mod_lt _ (Nat.two_pow_pos _)

theorem field_one_eq_one_iff (i : ℕ) (w : BitVec n) : field i 1 w = 1 ↔ w.getLsbD i = true := by
  rw [field, BitVec.getLsbD, testBit_eq_decide_div_mod_eq]
  simp

namespace FieldUnit

variable {lo len lo' len' x : ℕ}

theorem low (h : lo' + len' ≤ lo) (c : ℕ) :
    (x + 2 ^ lo * c) / 2 ^ lo' % 2 ^ len' = x / 2 ^ lo' % 2 ^ len' := by
  have he : 2 ^ lo * c = 2 ^ lo' * (2 ^ len' * (2 ^ (lo - (lo' + len')) * c)) := by
    rw [← Nat.mul_assoc, ← Nat.mul_assoc, ← pow_add, ← pow_add, Nat.add_sub_cancel' h]
  rw [he, Nat.add_mul_div_left _ _ (Nat.two_pow_pos _), Nat.add_mul_mod_self_left]

section

variable (h : x / 2 ^ lo % 2 ^ len + 1 < 2 ^ len)
include h

theorem div_add :
    (x + 2 ^ lo) / 2 ^ lo % 2 ^ len = x / 2 ^ lo % 2 ^ len + 1 := by
  rw [Nat.add_div_right _ (Nat.two_pow_pos _), Nat.add_mod,
    mod_eq_of_lt (a := 1) (by omega), mod_eq_of_lt h]

theorem high_add (hl : lo + len ≤ lo') :
    (x + 2 ^ lo) / 2 ^ lo' = x / 2 ^ lo' := by
  obtain ⟨d, rfl⟩ := Nat.exists_eq_add_of_le hl
  have hd : (x / 2 ^ lo + 1) / 2 ^ len = x / 2 ^ lo / 2 ^ len := by
    rw [succ_div_of_not_dvd]
    intro hdvd
    have := Nat.add_mod (x / 2 ^ lo) 1 (2 ^ len)
    rw [mod_eq_of_lt (a := 1) (by omega), mod_eq_of_lt h,
      mod_eq_zero_of_dvd hdvd] at this
    omega
  rw [pow_add, pow_add, ← Nat.div_div_eq_div_mul, ← Nat.div_div_eq_div_mul,
    ← Nat.div_div_eq_div_mul, ← Nat.div_div_eq_div_mul, Nat.add_div_right _ (Nat.two_pow_pos _),
    hd]

theorem add_lt (hl : lo + len ≤ n) (hx : x < 2 ^ n) :
    x + 2 ^ lo < 2 ^ n := by
  have hz := high_add h hl
  rw [div_eq_of_lt hx] at hz
  exact (Nat.div_eq_zero_iff_lt (Nat.two_pow_pos _)).mp hz

end

theorem le_of_pos (h : 0 < x / 2 ^ lo % 2 ^ len) : 2 ^ lo ≤ x := by
  by_contra hlt
  rw [div_eq_of_lt (by omega)] at h
  simp at h

theorem sub_field (h : 0 < x / 2 ^ lo % 2 ^ len) :
    (x - 2 ^ lo) / 2 ^ lo % 2 ^ len + 1 = x / 2 ^ lo % 2 ^ len := by
  have hle := le_of_pos h
  have hd : x / 2 ^ lo = (x - 2 ^ lo) / 2 ^ lo + 1 := by
    rw [← Nat.add_div_right _ (Nat.two_pow_pos _), Nat.sub_add_cancel hle]
  rw [hd] at h ⊢
  rw [Nat.add_mod] at h ⊢
  rcases Nat.eq_zero_or_pos len with rfl | hlen
  · simp [mod_one] at h
  · have h1 : 1 < 2 ^ len := Nat.one_lt_two_pow (by omega)
    rw [mod_eq_of_lt h1] at h ⊢
    rcases lt_or_ge ((x - 2 ^ lo) / 2 ^ lo % 2 ^ len + 1) (2 ^ len) with hlt | hge
    · rw [mod_eq_of_lt hlt]
    · have he : (x - 2 ^ lo) / 2 ^ lo % 2 ^ len + 1 = 2 ^ len := by omega
      rw [he, mod_self] at h
      omega

end FieldUnit

open FieldUnit

variable {lo len lo' len' : ℕ} {w : BitVec n}

theorem toNat_add_unit (hl : lo + len ≤ n) (h : field lo len w + 1 < 2 ^ len) :
    (w + BitVec.ofNat n (2 ^ lo)).toNat = w.toNat + 2 ^ lo := by
  have hlt := add_lt h hl w.isLt
  rw [BitVec.toNat_add, BitVec.toNat_ofNat, add_mod_mod, mod_eq_of_lt hlt]

theorem toNat_sub_unit (h : 0 < field lo len w) :
    (w - BitVec.ofNat n (2 ^ lo)).toNat = w.toNat - 2 ^ lo := by
  have hle := le_of_pos h
  rw [BitVec.toNat_sub_of_le, BitVec.toNat_ofNat, mod_eq_of_lt (by omega)]
  rw [BitVec.le_def, BitVec.toNat_ofNat, mod_eq_of_lt (by omega)]
  exact hle

section

variable (hl : lo + len ≤ n) (h : field lo len w + 1 < 2 ^ len)
include hl h

theorem field_add_unit :
    field lo len (w + BitVec.ofNat n (2 ^ lo)) = field lo len w + 1 := by
  rw [field, toNat_add_unit hl h]
  exact div_add h

/-- One unit more in a field with room for it changes no other field. -/
theorem field_add_unit_of_disjoint (hd : lo' + len' ≤ lo ∨ lo + len ≤ lo') :
    field lo' len' (w + BitVec.ofNat n (2 ^ lo)) = field lo' len' w := by
  rw [field, toNat_add_unit hl h, field]
  rcases hd with hd | hd
  · simpa using low (x := w.toNat) hd 1
  · rw [high_add h hd]

end

theorem field_sub_unit (h : 0 < field lo len w) :
    field lo len (w - BitVec.ofNat n (2 ^ lo)) + 1 = field lo len w := by
  rw [field, toNat_sub_unit h]
  exact sub_field h

theorem field_sub_unit_of_disjoint (hl : lo + len ≤ n) (h : 0 < field lo len w)
    (hd : lo' + len' ≤ lo ∨ lo + len ≤ lo') :
    field lo' len' (w - BitVec.ofNat n (2 ^ lo)) = field lo' len' w := by
  have hr := field_sub_unit h
  have hlt := field_lt lo len w
  have he : field lo' len' (w - BitVec.ofNat n (2 ^ lo) + BitVec.ofNat n (2 ^ lo)) =
      field lo' len' (w - BitVec.ofNat n (2 ^ lo)) :=
    field_add_unit_of_disjoint hl (by omega) hd
  rw [← he, BitVec.sub_add_cancel]

theorem field_congr {v : BitVec n} (h : ∀ i < len, v.getLsbD (lo + i) = w.getLsbD (lo + i)) :
    field lo len v = field lo len w := by
  refine eq_of_testBit_eq fun i => ?_
  simp only [field, testBit_mod_two_pow, testBit_div_two_pow]
  by_cases hi : i < len
  · have := h i hi
    simpa [hi, BitVec.getLsbD, add_comm] using this
  · simp [hi]

theorem field_or (v w : BitVec n) :
    field lo len (v ||| w) = field lo len v ||| field lo len w := by
  refine eq_of_testBit_eq fun i => ?_
  simp only [field, testBit_mod_two_pow, testBit_div_two_pow, testBit_or,
    BitVec.toNat_or]
  cases decide (i < len) <;> simp

theorem getLsbD_add_unit {i : ℕ} (hl : lo + len ≤ n) (h : field lo len w + 1 < 2 ^ len)
    (hi : lo + len ≤ i) : (w + BitVec.ofNat n (2 ^ lo)).getLsbD i = w.getLsbD i := by
  rw [Bool.eq_iff_iff, ← field_one_eq_one_iff, ← field_one_eq_one_iff,
    field_add_unit_of_disjoint hl h (Or.inr hi)]

theorem getLsbD_sub_unit {i : ℕ} (hl : lo + len ≤ n) (h : 0 < field lo len w)
    (hi : lo + len ≤ i) : (w - BitVec.ofNat n (2 ^ lo)).getLsbD i = w.getLsbD i := by
  rw [Bool.eq_iff_iff, ← field_one_eq_one_iff, ← field_one_eq_one_iff,
    field_sub_unit_of_disjoint hl h (Or.inr hi)]

theorem field_eq_zero (h : ∀ i < len, w.getLsbD (lo + i) = false) : field lo len w = 0 := by
  have he : field lo len w = field lo len 0#n := field_congr (by simpa using h)
  simpa [field] using he

end PostgreSieve
