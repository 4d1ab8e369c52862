import Mathlib.Algebra.BigOperators.Group.List.Basic
import Mathlib.Data.Nat.Digits.Defs
import Mathlib.Tactic.Ring
import PostgreSieve.Lists.Search

/-! # Simple-8b codewords

A codeword packs the differences of consecutive integers, with a selector for their number and
width in its upper four bits.
-/

namespace PostgreSieve.Simple8b

open List Nat

def maxValuesPerCodeword : ℕ := 240

/-- The pairs of `bits_per_int` and `num_ints`, with the sentinel. -/
def modes : List (ℕ × ℕ) :=
  [(0, 240), (0, 120), (1, 60), (2, 30), (3, 20), (4, 15), (5, 12), (6, 10), (7, 8), (8, 7),
    (10, 6), (12, 5), (15, 4), (20, 3), (30, 2), (60, 1), (0, 0)]

def bitsPerInt (selector : ℕ) : ℕ := (modes.getD selector (0, 0)).1

def numInts (selector : ℕ) : ℕ := (modes.getD selector (0, 0)).2

def emptyCodeword : ℕ := 0x0FFFFFFFFFFFFFFF

theorem mode_cases (selector : ℕ) : selector < 16 ∨ numInts selector = 0 := by
  rcases lt_or_ge selector 16 with h | h
  · exact .inl h
  · refine .inr ?_
    rcases lt_or_ge selector 17 with h' | h'
    · obtain rfl : selector = 16 := by omega
      rfl
    · have hnone : modes[selector]? = none := List.getElem?_eq_none h'
      simp [numInts, getD_eq_getElem?_getD, hnone]

theorem forall_mode {P : ℕ → Prop} (h : ∀ selector : Fin 16, P selector) {selector : ℕ}
    (hs : numInts selector ≠ 0) : P selector :=
  h ⟨selector, (mode_cases selector).resolve_right hs⟩

theorem numInts_le (selector : ℕ) : numInts selector ≤ maxValuesPerCodeword := by
  by_cases h : numInts selector = 0
  · simp [h]
  · exact forall_mode (P := fun s => numInts s ≤ maxValuesPerCodeword) (by decide) h

/-- The loop of `simple8b_encode` that selects the mode, with the variables of the loop. -/
def selectMode (ints : List ℕ) (selector i diff lastVal : ℕ) : ℕ :=
  if 2 ^ bitsPerInt selector ≤ diff then
    -- too large, step up to next mode
    if numInts (selector + 1) ≤ i then selector + 1
    else selectMode ints (selector + 1) i diff lastVal
  else
    -- accept this delta; then done if codeword is full
    if numInts selector ≤ i + 1 then selector
    else selectMode ints selector (i + 1) (ints.getD (i + 1) 0 - lastVal - 1) (ints.getD (i + 1) 0)
termination_by (16 - selector) + (maxValuesPerCodeword - i)
decreasing_by
  · have := (mode_cases (selector + 1)).resolve_right (by omega)
    omega
  · have := numInts_le selector
    omega

/-- Shift the differences into the codeword in reverse order. -/
def packDiffs (ints : List ℕ) (base nints bits : ℕ) : ℕ :=
  let codeword := (List.range' 1 (nints - 1)).reverse.foldl (fun codeword i =>
    ((codeword ||| (ints.getD i 0 - ints.getD (i - 1) 0 - 1)) <<< bits) % 2 ^ 64) 0
  codeword ||| (ints.getD 0 0 - base - 1)

/-- The codeword and the number of integers in it. -/
def simple8bEncode (ints : List ℕ) (base : ℕ) : ℕ × ℕ :=
  let selector := selectMode ints 0 0 (ints.getD 0 0 - base - 1) (ints.getD 0 0)
  let nints := numInts selector
  let bits := bitsPerInt selector
  if nints = 0 then (emptyCodeword, 0)
  else
    let codeword := if 0 < bits then packDiffs ints base nints bits else 0
    (codeword ||| (selector <<< 60) % 2 ^ 64, nints)

/-- The loop of `simple8b_decode`. -/
def decodeDiffs (bits : ℕ) : ℕ → ℕ → ℕ → List ℕ
  | 0, _, _ => []
  | nints + 1, codeword, currValue =>
    let diff := codeword &&& (2 ^ bits - 1)
    let currValue := (currValue + (1 + diff)) % 2 ^ 64
    currValue :: decodeDiffs bits nints (codeword >>> bits) currValue

def simple8bDecode (codeword base : ℕ) : List ℕ :=
  let selector := codeword >>> 60
  if codeword = emptyCodeword then []
  else decodeDiffs (bitsPerInt selector) (numInts selector) codeword base

/-- The loop of `simple8b_contains`. -/
def containsDiffs (bits key : ℕ) : ℕ → ℕ → ℕ → Bool
  | 0, _, _ => false
  | nints + 1, codeword, currValue =>
    let diff := codeword &&& (2 ^ bits - 1)
    let currValue := (currValue + (1 + diff)) % 2 ^ 64
    if key ≤ currValue then currValue = key
    else containsDiffs bits key nints (codeword >>> bits) currValue

def simple8bContains (codeword key base : ℕ) : Bool :=
  let selector := codeword >>> 60
  let nints := numInts selector
  let bits := bitsPerInt selector
  if codeword = emptyCodeword then false
  -- special handling for 0-bit cases
  else if bits = 0 then (key + 2 ^ 64 - base) % 2 ^ 64 ≤ nints
  else containsDiffs bits key nints codeword base

/-! ## Differences and digits -/

section Digits

variable {bits base key n top : ℕ} {ints : List ℕ}

/-- The differences of consecutive integers, less one. -/
def diffs : ℕ → List ℕ → List ℕ
  | _, [] => []
  | base, x :: ints => (x - base - 1) :: diffs x ints

/-- Integers above `base` in increasing order, as 64-bit values. -/
structure Ascending (base : ℕ) (ints : List ℕ) : Prop where
  sorted : (base :: ints).Pairwise (· < ·)
  lt : ∀ x ∈ ints, x < 2 ^ 64

theorem Ascending.tail {x : ℕ} (h : Ascending base (x :: ints)) : Ascending x ints :=
  ⟨h.sorted.of_cons, fun y hy => h.lt y (mem_cons_of_mem x hy)⟩

theorem Ascending.base_lt {x : ℕ} (h : Ascending base ints) (hx : x ∈ ints) : base < x :=
  rel_of_pairwise_cons h.sorted hx

theorem Ascending.take (h : Ascending base ints) (n : ℕ) : Ascending base (ints.take n) :=
  ⟨h.sorted.sublist ((take_sublist n ints).cons_cons base),
    fun x hx => h.lt x (mem_of_mem_take hx)⟩

theorem length_diffs (base : ℕ) (ints : List ℕ) : (diffs base ints).length = ints.length := by
  induction ints generalizing base with
  | nil => rfl
  | cons x ints ih => simp [diffs, ih]

theorem diffs_take (base : ℕ) (ints : List ℕ) (n : ℕ) :
    diffs base (ints.take n) = (diffs base ints).take n := by
  induction ints generalizing base n with
  | nil => simp [diffs]
  | cons x ints ih =>
    cases n with
    | zero => rfl
    | succ n => simp [diffs, ih]

theorem diffs_getD (base : ℕ) (ints : List ℕ) {j : ℕ} (hj : j < ints.length) :
    (diffs base ints).getD j 0 = ints.getD j 0 - (base :: ints).getD j 0 - 1 := by
  induction ints generalizing base j with
  | nil => simp at hj
  | cons x ints ih =>
    cases j with
    | zero => rfl
    | succ j => simpa [diffs] using ih x (by simpa using hj)

theorem decodeDiffs_eq (h : Ascending base ints) (hd : ∀ d ∈ diffs base ints, d < 2 ^ bits) :
    decodeDiffs bits ints.length (ofDigits (2 ^ bits) (diffs base ints) +
      (2 ^ bits) ^ ints.length * top) base = ints := by
  induction ints generalizing base with
  | nil => rfl
  | cons x ints ih =>
    have hlt := h.base_lt mem_cons_self
    have hx := h.lt x mem_cons_self
    have hdx : x - base - 1 < 2 ^ bits := hd _ mem_cons_self
    have hsplit : ofDigits (2 ^ bits) (diffs base (x :: ints)) +
        (2 ^ bits) ^ (x :: ints).length * top = (x - base - 1) + 2 ^ bits *
          (ofDigits (2 ^ bits) (diffs x ints) + (2 ^ bits) ^ ints.length * top) := by
      simp only [diffs, Nat.ofDigits_cons, length_cons]
      ring
    have hmod : (ofDigits (2 ^ bits) (diffs base (x :: ints)) +
        (2 ^ bits) ^ (x :: ints).length * top) &&& (2 ^ bits - 1) = x - base - 1 := by
      rw [and_two_pow_sub_one_eq_mod, hsplit, add_mul_mod_self_left, Nat.mod_eq_of_lt hdx]
    have hdiv : (ofDigits (2 ^ bits) (diffs base (x :: ints)) +
        (2 ^ bits) ^ (x :: ints).length * top) >>> bits =
          ofDigits (2 ^ bits) (diffs x ints) + (2 ^ bits) ^ ints.length * top := by
      rw [Nat.shiftRight_eq_div_pow, hsplit, Nat.add_mul_div_left _ _ (Nat.two_pow_pos bits),
        div_eq_of_lt hdx, zero_add]
    have hcurr : (base + (1 + (x - base - 1))) % 2 ^ 64 = x := by
      rw [show base + (1 + (x - base - 1)) = x by omega, Nat.mod_eq_of_lt hx]
    simp only [length_cons, decodeDiffs] at hmod hdiv ⊢
    rw [hmod, hdiv, hcurr, ih h.tail fun d hdm => hd d (mem_cons_of_mem _ hdm)]

/-- Looking for a key in the decoded values stops at the first one that is not below it. -/
theorem containsDiffs_iff {codeword curr : ℕ} :
    (curr :: decodeDiffs bits n codeword curr).Pairwise (· < ·) →
      (containsDiffs bits key n codeword curr = true ↔ key ∈ decodeDiffs bits n codeword curr) := by
  induction n generalizing codeword curr with
  | zero => simp [containsDiffs, decodeDiffs]
  | succ n ih =>
    intro h
    simp only [containsDiffs, decodeDiffs, mem_cons] at h ⊢
    split
    · rw [decide_eq_true_iff, eq_comm (a := key)]
      refine ⟨.inl, fun hk => hk.resolve_right fun hmem => ?_⟩
      have := rel_of_pairwise_cons h.of_cons hmem
      omega
    · rw [ih h.of_cons]
      refine ⟨.inr, fun hk => hk.resolve_left ?_⟩
      omega

theorem foldr_shift {ds : List ℕ} (hb : 0 < bits) (hd : ∀ d ∈ ds, d < 2 ^ bits)
    (hlen : bits * (ds.length + 1) ≤ 64) :
    ds.foldr (fun d codeword => ((codeword ||| d) <<< bits) % 2 ^ 64) 0 =
      2 ^ bits * ofDigits (2 ^ bits) ds := by
  induction ds with
  | nil => rfl
  | cons d ds ih =>
    have hdx : d < 2 ^ bits := hd d mem_cons_self
    rw [foldr_cons, ih (fun d hdm => hd d (mem_cons_of_mem _ hdm))
      ((mul_le_mul_left bits (le_succ _)).trans hlen),
      ← Nat.two_pow_add_eq_or_of_lt hdx, Nat.shiftLeft_eq, Nat.mul_comm, Nat.add_comm,
      show d + 2 ^ bits * ofDigits (2 ^ bits) ds = ofDigits (2 ^ bits) (d :: ds) from rfl]
    apply Nat.mod_eq_of_lt
    have hlt := Nat.ofDigits_lt_base_pow_length (Nat.one_lt_two_pow hb.ne') hd
    calc 2 ^ bits * ofDigits (2 ^ bits) (d :: ds)
        < 2 ^ bits * (2 ^ bits) ^ (d :: ds).length := mul_lt_mul_of_pos_left hlt (by positivity)
      _ = 2 ^ (bits * (ds.length + 1 + 1)) := by rw [length_cons]; ring
      _ ≤ 2 ^ 64 := Nat.pow_le_pow_right (by decide) hlen

theorem map_range_diffs (x : ℕ) (hn : n ≤ ints.length) :
    (List.range' 1 n).map (fun i => (x :: ints).getD i 0 - (x :: ints).getD (i - 1) 0 - 1) =
      diffs x (ints.take n) := by
  apply ext_getElem
  · simp [length_diffs, hn]
  · intro j hj hj'
    have hjn : j < n := by simpa using hj
    have h := diffs_getD x (ints.take n) (j := j) (by simp; omega)
    rw [getD_eq_getElem?_getD, List.getElem?_eq_getElem hj', Option.getD_some] at h
    rw [h]
    simp only [getElem_map, getElem_range', one_mul]
    rw [Nat.add_comm 1 j, getD_cons_succ, Nat.add_sub_cancel]
    cases j with
    | zero => simp [getD_eq_getElem?_getD, hjn]
    | succ j => simp [getD_eq_getElem?_getD, hjn, lt_of_succ_lt hjn]

theorem packDiffs_eq (hb : 0 < bits) (hn : 0 < n) (hlen : n ≤ ints.length) (hbits : bits * n ≤ 64)
    (hd : ∀ d ∈ diffs base (ints.take n), d < 2 ^ bits) :
    packDiffs ints base n bits = ofDigits (2 ^ bits) (diffs base (ints.take n)) := by
  cases ints with
  | nil => simp at hlen; omega
  | cons x ints =>
    obtain ⟨n, rfl⟩ : ∃ m, n = m + 1 := ⟨n - 1, by omega⟩
    rw [take_succ_cons, diffs] at hd ⊢
    have hdx := hd _ mem_cons_self
    have hds := fun d hdm => hd d (mem_cons_of_mem _ hdm)
    have hm := map_range_diffs x (show n ≤ ints.length by simpa using hlen)
    simp only [packDiffs, Nat.add_sub_cancel, getD_cons_zero]
    have hfold := foldr_shift hb hds (by
      rw [length_diffs, length_take_of_le (by simpa using hlen)]
      exact hbits)
    rw [← hm, foldr_map] at hfold
    rw [foldl_reverse, hfold, hm, ← Nat.two_pow_add_eq_or_of_lt hdx, Nat.ofDigits_cons,
      Nat.add_comm]

end Digits

/-! ## Encoding and decoding -/

section Encode

variable {base key : ℕ} {ints : List ℕ}

variable {selector i diff lastVal : ℕ}

theorem bitsPerInt_mono (h : numInts (selector + 1) ≠ 0) :
    bitsPerInt selector ≤ bitsPerInt (selector + 1) :=
  forall_mode (P := fun s => bitsPerInt (s - 1) ≤ bitsPerInt s) (by decide) h

/-- The differences that the selected mode has room for fit into its width. -/
theorem selectMode_fits (base : ℕ) (hlen : maxValuesPerCodeword ≤ ints.length)
    (hi : i < numInts selector) (hdiff : diff = (diffs base ints).getD i 0)
    (hlast : lastVal = ints.getD i 0)
    (hfits : ∀ j < i, (diffs base ints).getD j 0 < 2 ^ bitsPerInt selector) :
    ∀ j < numInts (selectMode ints selector i diff lastVal),
      (diffs base ints).getD j 0 < 2 ^ bitsPerInt (selectMode ints selector i diff lastVal) := by
  fun_induction selectMode ints selector i diff lastVal with
  | case1 selector i diff lastVal hlarge hfull =>
    intro j hj
    exact (hfits j (hj.trans_le hfull)).trans_le
      (Nat.pow_le_pow_right (by decide) (bitsPerInt_mono (Nat.ne_zero_of_lt hj)))
  | case2 selector i diff lastVal hlarge hroom ih =>
    refine ih (by omega) hdiff hlast fun j hj => ?_
    exact (hfits j hj).trans_le (Nat.pow_le_pow_right (by decide) (bitsPerInt_mono (by omega)))
  | case3 selector i diff lastVal hsmall hfull =>
    intro j hj
    rcases lt_or_ge j i with hji | hji
    · exact hfits j hji
    · obtain rfl : j = i := by omega
      omega
  | case4 selector i diff lastVal hsmall hroom ih =>
    have hle := numInts_le selector
    refine ih (by omega) ?_ rfl fun j hj => ?_
    · rw [diffs_getD base ints (by omega), getD_cons_succ, ← hlast]
    · rcases lt_or_ge j i with hji | hji
      · exact hfits j hji
      · obtain rfl : j = i := by omega
        omega

theorem bits_mul_numInts_le (selector : ℕ) : bitsPerInt selector * numInts selector ≤ 60 := by
  by_cases h : numInts selector = 0
  · simp [h]
  · exact forall_mode (P := fun s => bitsPerInt s * numInts s ≤ 60) (by decide) h

theorem ofDigits_lt {bits n : ℕ} {ds : List ℕ} (hd : ∀ d ∈ ds, d < 2 ^ bits)
    (hlen : bits * ds.length ≤ n) : ofDigits (2 ^ bits) ds < 2 ^ n := by
  rcases Nat.eq_zero_or_pos bits with rfl | hb
  · have hz : ofDigits (2 ^ 0) ds = 0 := by
      rw [pow_zero, ofDigits_one]
      exact sum_eq_zero fun d hdm => by simpa using hd d hdm
    rw [hz]
    exact Nat.two_pow_pos n
  · have hlt := Nat.ofDigits_lt_base_pow_length (Nat.one_lt_two_pow hb.ne') hd
    rw [← Nat.pow_mul] at hlt
    exact hlt.trans_le (Nat.pow_le_pow_right (by decide) hlen)

/-- The parts of a codeword. -/
structure Encodes (base : ℕ) (ints : List ℕ) (selector codeword : ℕ) : Prop where
  lt : selector < 16
  length_eq : ints.length = numInts selector
  fits : ∀ d ∈ diffs base ints, d < 2 ^ bitsPerInt selector
  codeword_eq : codeword =
    ofDigits (2 ^ bitsPerInt selector) (diffs base ints) + 2 ^ 60 * selector

theorem simple8bEncode_cases (base : ℕ) (hlen : maxValuesPerCodeword ≤ ints.length) :
    simple8bEncode ints base = (emptyCodeword, 0) ∨ ∃ selector, Encodes base
      (ints.take (simple8bEncode ints base).2) selector (simple8bEncode ints base).1 := by
  have hpos : 0 < ints.length := (by decide : 0 < maxValuesPerCodeword).trans_le hlen
  have hfits := selectMode_fits base hlen (show 0 < numInts 0 by decide)
    (diffs_getD base ints hpos).symm rfl nofun
  unfold simple8bEncode
  extract_lets selector nints bits codeword
  change ∀ j < nints, (diffs base ints).getD j 0 < 2 ^ bits at hfits
  split
  · exact .inl rfl
  · rename_i hn
    refine .inr ⟨selector, ?_⟩
    have hs : selector < 16 := (mode_cases selector).resolve_right hn
    have hle : nints ≤ ints.length := (numInts_le selector).trans hlen
    have hbits : bits * nints ≤ 60 := bits_mul_numInts_le selector
    have hd : ∀ d ∈ diffs base (ints.take nints), d < 2 ^ bits := by
      intro d hdm
      rw [diffs_take] at hdm
      obtain ⟨j, hj, rfl⟩ := mem_take_iff_getElem.mp hdm
      have hj' := hfits j (by omega)
      rwa [getD_eq_getElem?_getD, List.getElem?_eq_getElem (by omega)] at hj'
    have hcode : codeword = ofDigits (2 ^ bits) (diffs base (ints.take nints)) := by
      simp only [codeword]
      split
      · rename_i hb
        exact packDiffs_eq hb (by omega) hle (by omega) hd
      · obtain hb : bits = 0 := by omega
        have := ofDigits_lt (n := 0) hd (by simp [hb])
        omega
    refine ⟨hs, length_take_of_le hle, hd, ?_⟩
    have hlt : codeword < 2 ^ 60 := by
      rw [hcode]
      exact ofDigits_lt hd (by rwa [length_diffs, length_take_of_le hle])
    rw [← hcode, Nat.shiftLeft_eq, Nat.mod_eq_of_lt (by omega), Nat.or_comm, Nat.mul_comm,
      ← Nat.two_pow_add_eq_or_of_lt hlt, Nat.add_comm]

section Decode

variable {selector codeword : ℕ}

section

variable (he : Encodes base ints selector codeword)
include he

theorem Encodes.ofDigits_lt :
    ofDigits (2 ^ bitsPerInt selector) (diffs base ints) < 2 ^ 60 :=
  Simple8b.ofDigits_lt he.fits (by
    rw [length_diffs, he.length_eq]
    exact bits_mul_numInts_le selector)

theorem Encodes.selector_eq :
    codeword >>> 60 = selector := by
  rw [Nat.shiftRight_eq_div_pow, he.codeword_eq, Nat.add_mul_div_left _ _ (Nat.two_pow_pos 60),
    div_eq_of_lt he.ofDigits_lt, zero_add]

/-- The codeword for 240 consecutive integers has zeroes in the unused bits. -/
theorem Encodes.ne_empty : codeword ≠ emptyCodeword := by
  intro h
  have hc := he.codeword_eq
  rcases Nat.eq_zero_or_pos selector with rfl | hpos
  · have hz : ofDigits (2 ^ bitsPerInt 0) (diffs base ints) < 2 ^ 0 :=
      Simple8b.ofDigits_lt he.fits (by simp [bitsPerInt, modes])
    simp only [emptyCodeword] at h
    omega
  · simp only [emptyCodeword] at h
    omega

theorem Encodes.decode (h : Ascending base ints) :
    simple8bDecode codeword base = ints := by
  have hbits := bits_mul_numInts_le selector
  have hsplit : 2 ^ 60 = (2 ^ bitsPerInt selector) ^ numInts selector *
      2 ^ (60 - bitsPerInt selector * numInts selector) := by
    rw [← Nat.pow_mul, ← Nat.pow_add, Nat.add_sub_cancel' hbits]
  simp only [simple8bDecode, he.selector_eq, if_neg he.ne_empty]
  rw [he.codeword_eq, hsplit, mul_assoc, ← he.length_eq]
  exact decodeDiffs_eq h he.fits

end

theorem eq_range_of_diffs (h : Ascending base ints) (hd : ∀ d ∈ diffs base ints, d = 0) :
    ints = List.range' (base + 1) ints.length := by
  induction ints generalizing base with
  | nil => rfl
  | cons x ints ih =>
    have hlt := h.base_lt mem_cons_self
    have hx : x - base - 1 = 0 := hd _ mem_cons_self
    obtain rfl : x = base + 1 := by omega
    rw [length_cons, List.range'_succ, ← ih h.tail fun d hdm => hd d (mem_cons_of_mem _ hdm)]

theorem Encodes.contains_iff (he : Encodes base ints selector codeword) (h : Ascending base ints)
    (hkey : base < key) (hlt : key < 2 ^ 64) :
    simple8bContains codeword key base = true ↔ key ∈ ints := by
  simp only [simple8bContains, he.selector_eq, if_neg he.ne_empty]
  split
  · rename_i hb
    have hr := eq_range_of_diffs h fun d hd => by simpa [hb] using he.fits d hd
    rw [hr, mem_range'_1, decide_eq_true_iff, ← he.length_eq]
    omega
  · have hdec := he.decode h
    simp only [simple8bDecode, he.selector_eq, if_neg he.ne_empty] at hdec
    have hsorted := h.sorted
    rw [← hdec] at hsorted ⊢
    exact containsDiffs_iff hsorted

end Decode

theorem selectMode_large (hi : i < numInts selector)
    (hfull : numInts (selectMode ints selector i diff lastVal) = 0)
    (hdiff : i = 0 → diff = ints.getD 0 0 - base - 1) : 2 ^ 60 ≤ ints.getD 0 0 - base - 1 := by
  fun_induction selectMode ints selector i diff lastVal with
  | case1 selector i diff lastVal hlarge _ =>
    -- only behind the last mode there is none with room
    have hlast : selector = 15 ∧ numInts selector = 1 :=
      forall_mode (P := fun s => numInts (s + 1) = 0 → s = 15 ∧ numInts s = 1) (by decide)
        (by omega) hfull
    obtain rfl : i = 0 := by omega
    rwa [hdiff rfl, hlast.1] at hlarge
  | case2 selector i diff lastVal _ hroom ih => exact ih (by omega) hfull hdiff
  | case3 => omega
  | case4 selector i diff lastVal _ hroom ih => exact ih (by omega) hfull (by omega)

theorem simple8bEncode_snd (base : ℕ) (ints : List ℕ) : (simple8bEncode ints base).2 =
    numInts (selectMode ints 0 0 (ints.getD 0 0 - base - 1) (ints.getD 0 0)) := by
  unfold simple8bEncode
  extract_lets selector nints
  split
  · exact Eq.symm ‹_›
  · rfl

theorem simple8bEncode_eq_zero_iff (base : ℕ) (hlen : maxValuesPerCodeword ≤ ints.length) :
    (simple8bEncode ints base).2 = 0 ↔ 2 ^ 60 ≤ ints.getD 0 0 - base - 1 := by
  have hpos : 0 < ints.length := (by decide : 0 < maxValuesPerCodeword).trans_le hlen
  have hfirst := (diffs_getD base ints hpos).symm
  rw [getD_cons_zero] at hfirst
  rw [simple8bEncode_snd]
  refine ⟨fun hfull => selectMode_large (by decide) hfull fun _ => rfl, fun hlarge => ?_⟩
  by_contra hne
  have hfits := selectMode_fits base hlen (by decide) hfirst rfl (by simp) 0
    (Nat.pos_of_ne_zero hne)
  have hbits := (Nat.le_mul_of_pos_right _ (Nat.pos_of_ne_zero hne)).trans
    (bits_mul_numInts_le (selectMode ints 0 0 (ints.getD 0 0 - base - 1) (ints.getD 0 0)))
  have := Nat.pow_le_pow_right two_pos hbits
  omega

end Encode

/-- A codeword is decoded to the integers that were encoded, as many as a mode has room for, and
only a first difference that takes more than 60 bits is not encoded at all. -/
theorem simple8b_round_trip (base : ℕ) (ints : List ℕ) (h : Ascending base ints)
    (hlen : maxValuesPerCodeword ≤ ints.length) :
    let (codeword, n) := simple8bEncode ints base
    n ≤ maxValuesPerCodeword ∧ simple8bDecode codeword base = ints.take n ∧
      (n = 0 ↔ 2 ^ 60 ≤ ints.getD 0 0 - base - 1) ∧
      ∀ key, base < key → key < 2 ^ 64 →
        (simple8bContains codeword key base = true ↔ key ∈ ints.take n) := by
  have hzero := simple8bEncode_eq_zero_iff base hlen
  have hcases := simple8bEncode_cases base hlen
  have hle : (simple8bEncode ints base).2 ≤ maxValuesPerCodeword := by
    rw [simple8bEncode_snd]
    exact numInts_le _
  rcases he : simple8bEncode ints base with ⟨codeword, n⟩
  rw [he] at hzero hcases hle
  rcases hcases with hempty | ⟨selector, henc⟩
  · cases hempty
    exact ⟨hle, rfl, hzero, fun key _ _ => by simp [simple8bContains]⟩
  · have hasc := h.take n
    exact ⟨hle, henc.decode hasc, hzero,
      fun key hkey hlt => henc.contains_iff hasc hkey hlt⟩

/-- The integers from 1 to 240. -/
theorem simple8b_round_trip_range :
    simple8bDecode (simple8bEncode (List.range' 1 240) 0).1 0 =
      (List.range' 1 240).take (simple8bEncode (List.range' 1 240) 0).2 :=
  (simple8b_round_trip 0 (List.range' 1 240) ⟨pairwise_lt_range' (n := 241), by simp; omega⟩
    (by simp [maxValuesPerCodeword])).2.1

end PostgreSieve.Simple8b
