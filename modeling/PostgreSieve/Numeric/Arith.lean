import Mathlib.Algebra.Order.Field.Power
import Mathlib.Data.Rat.Cast.Order
import Mathlib.Tactic.FieldSimp
import Mathlib.Tactic.NormNum
import PostgreSieve.Numeric.Var

/-! # Exact addition and subtraction

The number that a variable stands for. Comparison, addition and subtraction agree with those of the
rational numbers, also for variables with leading or trailing zeros.
-/

namespace PostgreSieve.Numeric

open Numeral List

variable {ds es : List ℤ} {d w : ℤ}

theorem nbase_pos : (0 : ℤ) < nbase := by decide

theorem nbase_pos' : (0 : ℚ) < nbase := by exact_mod_cast nbase_pos

theorem one_lt_nbase : (1 : ℚ) < nbase := by
  have : (1 : ℤ) < nbase := by decide
  exact_mod_cast this

/-! ## Digits with a weight -/

/-- The number of digits the first of which has the given weight. -/
def mag : List ℤ → ℤ → ℚ
  | [], _ => 0
  | d :: ds, w => d * (nbase : ℚ) ^ w + mag ds (w - 1)

@[simp] theorem mag_nil : mag [] w = 0 := rfl

@[simp] theorem mag_cons : mag (d :: ds) w = d * (nbase : ℚ) ^ w + mag ds (w - 1) := rfl

theorem mag_eq : mag ds w = (value nbase ds : ℚ) * (nbase : ℚ) ^ (w + 1 - ds.length) := by
  induction ds generalizing w with
  | nil => simp
  | cons d ds ih =>
    rw [mag_cons, ih, value_cons, length_cons]
    push_cast
    have hw : w + 1 - (ds.length + 1) = w - ds.length := by ring
    have hw' : w - 1 + 1 - (ds.length : ℤ) = w - ds.length := by ring
    have hpow : (nbase : ℚ) ^ w = (nbase : ℚ) ^ ds.length * (nbase : ℚ) ^ (w - ds.length) := by
      rw [← zpow_natCast, ← zpow_add₀ nbase_pos'.ne']
      congr 1
      ring
    rw [hw, hw', hpow]
    ring

theorem mag_append : mag (ds ++ es) w = mag ds w + mag es (w - ds.length) := by
  induction ds generalizing w with
  | nil => simp
  | cons d ds ih =>
    have hw : w - 1 - (ds.length : ℤ) = w - (ds.length + 1 : ℕ) := by push_cast; ring
    rw [cons_append, mag_cons, ih, mag_cons, length_cons, hw]
    ring

theorem mag_nonneg (h : InRange nbase ds) : 0 ≤ mag ds w := by
  rw [mag_eq]
  exact mul_nonneg (by exact_mod_cast h.value_nonneg) (zpow_nonneg nbase_pos'.le _)

theorem mag_lt (h : InRange nbase ds) : mag ds w < (nbase : ℚ) ^ (w + 1) := by
  have hlt : (value nbase ds : ℚ) < (nbase : ℚ) ^ ds.length := by
    exact_mod_cast h.value_lt nbase_pos
  have hpos : 0 < (nbase : ℚ) ^ (w + 1 - ds.length) := zpow_pos nbase_pos' _
  calc mag ds w = (value nbase ds : ℚ) * (nbase : ℚ) ^ (w + 1 - ds.length) := mag_eq
    _ < (nbase : ℚ) ^ ds.length * (nbase : ℚ) ^ (w + 1 - ds.length) :=
      mul_lt_mul_of_pos_right hlt hpos
    _ = (nbase : ℚ) ^ (w + 1) := by
      rw [← zpow_natCast, ← zpow_add₀ nbase_pos'.ne']
      congr 1
      ring

theorem mag_of_all_zero (h : ∀ d ∈ ds, d = 0) : mag ds w = 0 := by
  induction ds generalizing w with
  | nil => rfl
  | cons d ds ih =>
    rw [mag_cons, h d (.head _), ih fun e he => h e (.tail _ he)]
    simp

theorem mag_pos (h : InRange nbase ds) (hne : ∃ d ∈ ds, d ≠ 0) : 0 < mag ds w := by
  induction ds generalizing w with
  | nil => obtain ⟨d, hd, -⟩ := hne; cases hd
  | cons d ds ih =>
    have hd := h d (.head _)
    have hrest : 0 ≤ mag ds (w - 1) := mag_nonneg h.of_cons
    have hpow : 0 < (nbase : ℚ) ^ w := zpow_pos nbase_pos' _
    rw [mag_cons]
    by_cases hzero : d = 0
    · have hne' : ∃ e ∈ ds, e ≠ 0 := by
        obtain ⟨e, he, hne⟩ := hne
        rcases mem_cons.mp he with rfl | he
        · exact absurd hzero hne
        · exact ⟨e, he, hne⟩
      have := ih h.of_cons hne' (w := w - 1)
      simpa [hzero] using this
    · have : (0 : ℚ) < d := by exact_mod_cast lt_of_le_of_ne hd.1 (Ne.symm hzero)
      have := mul_pos this hpow
      linarith

def NumericSign.toRat : NumericSign → ℚ
  | .pos => 1
  | .neg => -1

namespace NumericVar

variable {var var1 var2 : NumericVar}

def abs (var : NumericVar) : ℚ := mag var.digits var.weight

/-- The number that a variable stands for. -/
def value (var : NumericVar) : ℚ := var.sign.toRat * var.abs

/-- The digits are those of `NumericDigit`. -/
def Valid (var : NumericVar) : Prop := InRange nbase var.digits

/-- There are no leading or trailing zeros. -/
structure Stripped (var : NumericVar) : Prop where
  head : var.digits.head? ≠ some 0
  last : var.digits.getLast? ≠ some 0
  zero : var.digits = [] → var.weight = 0 ∧ var.sign = .pos

theorem Valid.abs_nonneg (h : var.Valid) : 0 ≤ var.abs := mag_nonneg h

theorem Valid.abs_lt (h : var.Valid) : var.abs < (nbase : ℚ) ^ (var.weight + 1) := mag_lt h

/-! ## Stripping -/

theorem mag_stripLeading :
    mag (stripLeading ds w).1 (stripLeading ds w).2 = mag ds w := by
  induction ds generalizing w with
  | nil => rfl
  | cons d ds ih =>
    unfold stripLeading
    split
    · rename_i hd
      rw [ih, mag_cons, hd]
      simp
    · rfl

theorem stripLeading_suffix : (stripLeading ds w).1 <:+ ds := by
  induction ds generalizing w with
  | nil => exact suffix_rfl
  | cons d ds ih =>
    unfold stripLeading
    split
    · exact ih.trans (suffix_cons d ds)
    · exact suffix_rfl

theorem head_stripLeading (ds : List ℤ) (w : ℤ) : (stripLeading ds w).1.head? ≠ some 0 := by
  induction ds generalizing w with
  | nil => exact nofun
  | cons d ds ih =>
    unfold stripLeading
    split
    · exact ih _
    · rename_i hd
      simpa using hd

theorem mag_rdropWhile (ds : List ℤ) (w : ℤ) : mag (ds.rdropWhile (· = 0)) w = mag ds w := by
  have hsplit : ds.rdropWhile (· = 0) ++ ds.rtakeWhile (· = 0) = ds :=
    rdropWhile_append_rtakeWhile
  have hzeros : ∀ d ∈ ds.rtakeWhile (· = 0), d = 0 := fun d hd => by
    simpa using mem_rtakeWhile_imp hd
  conv_rhs => rw [← hsplit, mag_append, mag_of_all_zero hzeros, add_zero]

theorem abs_stripVar : var.stripVar.abs = var.abs := by
  have hmag := mag_rdropWhile (stripLeading var.digits var.weight).1
    (stripLeading var.digits var.weight).2
  rw [mag_stripLeading] at hmag
  unfold stripVar abs
  dsimp only
  split
  · rename_i hnil
    rw [← hmag, hnil]
    rfl
  · exact hmag

theorem value_stripVar : var.stripVar.value = var.value := by
  unfold value
  rw [abs_stripVar]
  by_cases h : var.abs = 0
  · rw [h, mul_zero, mul_zero]
  · congr 2
    have habs : var.stripVar.abs ≠ 0 := by rwa [abs_stripVar]
    unfold stripVar abs at habs
    unfold stripVar
    dsimp only at habs ⊢
    split
    · rename_i hnil
      rw [if_pos hnil] at habs
      exact absurd rfl habs
    · rfl

theorem Valid.stripVar (h : var.Valid) : var.stripVar.Valid := by
  unfold NumericVar.stripVar Valid
  dsimp only
  split
  · exact nofun
  · have hpre := rdropWhile_prefix (fun d : ℤ => decide (d = 0))
      (l := (stripLeading var.digits var.weight).1)
    exact h.sublist (hpre.sublist.trans stripLeading_suffix.sublist)

theorem stripped_stripVar : var.stripVar.Stripped := by
  unfold stripVar
  dsimp only
  split
  · exact ⟨nofun, nofun, fun _ => ⟨rfl, rfl⟩⟩
  · rename_i hne
    refine ⟨?_, ?_, fun h => absurd h hne⟩
    · obtain ⟨rest, hrest⟩ := rdropWhile_prefix (fun d : ℤ => decide (d = 0))
        (l := (stripLeading var.digits var.weight).1)
      have hhead := head_stripLeading var.digits var.weight
      rw [← hrest, List.head?_append_of_ne_nil _ hne] at hhead
      exact hhead
    · have hlast := rdropWhile_last_not _ _ hne
      rw [List.getLast?_eq_getLast_of_ne_nil hne]
      simpa using hlast

@[simp] theorem dscale_stripVar : var.stripVar.dscale = var.dscale := by
  unfold stripVar
  dsimp only
  split <;> rfl

/-! ## Comparison -/

theorem checkLeading_none {other : ℤ} (h : InRange nbase ds)
    (hc : checkLeading other ds w = none) : (nbase : ℚ) ^ (other + 1) ≤ mag ds w := by
  induction ds generalizing w with
  | nil => cases hc
  | cons d ds ih =>
    have hd := h d (.head _)
    have hrest : 0 ≤ mag ds (w - 1) := mag_nonneg h.of_cons
    rw [checkLeading] at hc
    rw [mag_cons]
    split at hc
    · rename_i hw
      split at hc
      · have hone : (1 : ℚ) ≤ d := by exact_mod_cast show 1 ≤ d by omega
        have hpow : (nbase : ℚ) ^ (other + 1) ≤ (nbase : ℚ) ^ w :=
          zpow_le_zpow_right₀ one_lt_nbase.le hw
        have hmul := mul_le_mul_of_nonneg_right hone (zpow_pos nbase_pos' w).le
        linarith
      · rename_i hzero
        rw [not_not] at hzero
        have := ih h.of_cons hc
        simpa [hzero] using this
    · cases hc

theorem checkLeading_some {other w' : ℤ} (hc : checkLeading other ds w = some (es, w')) :
    mag es w' = mag ds w ∧ es <:+ ds ∧ (es = [] ∨ w' = min w other) := by
  induction ds generalizing w with
  | nil =>
    obtain ⟨rfl, rfl⟩ := Prod.mk.inj (Option.some.inj hc)
    exact ⟨rfl, suffix_rfl, .inl rfl⟩
  | cons d ds ih =>
    rw [checkLeading] at hc
    split at hc
    · split at hc
      · cases hc
      · rename_i hzero
        rw [not_not] at hzero
        obtain ⟨hmag, hsuf, hw'⟩ := ih hc
        refine ⟨by simpa [hzero] using hmag, hsuf.trans (suffix_cons d ds), hw'.imp_right ?_⟩
        intro h
        rw [h, min_eq_right (by omega), min_eq_right (by omega)]
    · obtain ⟨rfl, rfl⟩ := Prod.mk.inj (Option.some.inj hc)
      exact ⟨rfl, suffix_rfl, .inr (min_eq_left (by omega)).symm⟩

section

variable (hd : InRange nbase ds) (he : InRange nbase es)
include hd he

theorem compareRest_eq {w' : ℤ}
    (h : ds = [] ∨ es = []) : compareRest ds es = cmp (mag ds w) (mag es w') := by
  have hany (l : List ℤ) (hl : InRange nbase l) (k : ℤ) :
      ((∃ d ∈ l, ¬ d = 0) ∧ 0 < mag l k) ∨ ((∀ d ∈ l, d = 0) ∧ mag l k = 0) := by
    by_cases hn : ∃ d ∈ l, ¬ d = 0
    · exact .inl ⟨hn, mag_pos hl hn⟩
    · have hzero : ∀ d ∈ l, d = 0 := by simpa using hn
      exact .inr ⟨hzero, mag_of_all_zero hzero⟩
  unfold compareRest
  rcases h with rfl | rfl
  · rw [mag_nil]
    rcases hany es he w' with ⟨hn, hm⟩ | ⟨hn, hm⟩
    · rw [(cmp_eq_lt_iff _ _).mpr hm]
      simpa using hn
    · rw [hm, cmp_self_eq_eq]
      simpa using hn
  · rw [mag_nil]
    rcases hany ds hd w with ⟨hn, hm⟩ | ⟨hn, hm⟩
    · rw [(cmp_eq_gt_iff _ _).mpr hm]
      simpa using hn
    · rw [hm, cmp_self_eq_eq]
      simpa using hn

theorem mag_cons_lt {d' : ℤ} (h : d < d') :
    mag (d :: ds) w < mag (d' :: es) w := by
  have hds : mag ds (w - 1) < (nbase : ℚ) ^ w := by
    have := mag_lt (w := w - 1) hd
    rwa [sub_add_cancel] at this
  have hes : 0 ≤ mag es (w - 1) := mag_nonneg he
  have hle : (d : ℚ) + 1 ≤ d' := by exact_mod_cast h
  have hmul := mul_le_mul_of_nonneg_right hle (zpow_pos nbase_pos' w).le
  rw [mag_cons, mag_cons]
  linarith

theorem compareCommon_eq :
    (match compareCommon ds es with
      | .inl result => result
      | .inr (ds, es) => compareRest ds es) = cmp (mag ds w) (mag es w) := by
  induction ds generalizing es w with
  | nil => exact compareRest_eq hd he (.inl rfl)
  | cons d ds ih =>
    cases es with
    | nil => exact compareRest_eq hd he (.inr rfl)
    | cons e es =>
      rw [compareCommon]
      rcases lt_trichotomy d e with hlt | rfl | hlt
      · rw [if_pos (by omega), if_neg (by omega)]
        exact ((cmp_eq_lt_iff _ _).mpr (mag_cons_lt hd.of_cons he.of_cons hlt)).symm
      · rw [if_neg (by omega), ih hd.of_cons he.of_cons (w := w - 1), mag_cons, mag_cons]
        exact (cmp_add_left _ _ _).symm
      · rw [if_pos (by omega), if_pos (by omega)]
        exact ((cmp_eq_gt_iff _ _).mpr (mag_cons_lt he.of_cons hd.of_cons hlt)).symm

theorem cmpAbsCommon_eq {w' : ℤ} :
    cmpAbsCommon ds w es w' = cmp (mag ds w) (mag es w') := by
  unfold cmpAbsCommon
  cases hc : checkLeading w' ds w with
  | none =>
    have hlt := (mag_lt he).trans_le (checkLeading_none hd hc)
    exact ((cmp_eq_gt_iff _ _).mpr hlt).symm
  | some p =>
    obtain ⟨ds', w₁⟩ := p
    obtain ⟨hmag, hsuf, hw₁⟩ := checkLeading_some hc
    have hd' := hd.sublist hsuf.sublist
    dsimp only
    rw [← hmag]
    cases hc' : checkLeading w₁ es w' with
    | none =>
      have hlt := (mag_lt hd').trans_le (checkLeading_none he hc')
      exact ((cmp_eq_lt_iff _ _).mpr hlt).symm
    | some q =>
      obtain ⟨es', w₂⟩ := q
      obtain ⟨hmag', hsuf', hw₂⟩ := checkLeading_some hc'
      have he' := he.sublist hsuf'.sublist
      dsimp only
      rw [← hmag']
      by_cases heq : w₁ = w₂
      · subst heq
        rw [if_pos rfl]
        exact compareCommon_eq hd' he'
      · rw [if_neg heq]
        apply compareRest_eq hd' he'
        by_contra hboth
        rw [not_or] at hboth
        have h1 := hw₁.resolve_left hboth.1
        have h2 := hw₂.resolve_left hboth.2
        omega

end

theorem cmpAbs_eq (h1 : var1.Valid) (h2 : var2.Valid) :
    cmpAbs var1 var2 = cmp var1.abs var2.abs :=
  cmpAbsCommon_eq h1 h2

/-! ## Addition and subtraction -/

theorem columnPass_eq {step : ℤ → ℤ × ℤ} (lo hi : ℤ) (hlo : lo ≤ 0) (hhi : 0 ≤ hi)
    (hstep : ∀ d ∈ ds, ∀ c, lo ≤ c → c ≤ hi →
      step (c + d) = ((d + c) / nbase, (d + c) % nbase) ∧ lo ≤ (d + c) / nbase ∧
        (d + c) / nbase ≤ hi) :
    columnPass step ds = propagate nbase ds ∧
      lo ≤ (propagate nbase ds).1 ∧ (propagate nbase ds).1 ≤ hi := by
  induction ds with
  | nil => exact ⟨rfl, hlo, hhi⟩
  | cons d ds ih =>
    obtain ⟨heq, hl, hh⟩ := ih fun e he => hstep e (.tail _ he)
    obtain ⟨hs, hbound⟩ := hstep d (.head _) _ hl hh
    refine ⟨?_, hbound⟩
    rw [columnPass, heq]
    dsimp only
    rw [hs]
    rfl

/-- Running the steps over the columns of two numbers carries. -/
def Carries (column : ℤ → ℤ → ℤ) (step : ℤ → ℤ × ℤ) : Prop :=
  ∀ ds : List ℤ, (∀ d ∈ ds, ∃ a b, (0 ≤ a ∧ a < nbase) ∧ (0 ≤ b ∧ b < nbase) ∧ d = column a b) →
    columnPass step ds = propagate nbase ds

theorem carries_add : Carries (· + ·) addStep := by
  intro ds h
  refine (columnPass_eq 0 1 le_rfl zero_le_one fun d hd c hl hh => ?_).1
  obtain ⟨a, b, ha, hb, hab⟩ := h d hd
  unfold addStep nbase at *
  dsimp only at hab
  refine ⟨?_, by omega, by omega⟩
  split
  · exact Prod.ext (by dsimp only; omega) (by dsimp only; omega)
  · exact Prod.ext (by dsimp only; omega) (by dsimp only; omega)

theorem carries_sub : Carries (· - ·) subStep := by
  intro ds h
  refine (columnPass_eq (-1) 0 (by omega) le_rfl fun d hd c hl hh => ?_).1
  obtain ⟨a, b, ha, hb, hab⟩ := h d hd
  unfold subStep nbase at *
  dsimp only at hab
  refine ⟨?_, by omega, by omega⟩
  split
  · exact Prod.ext (by dsimp only; omega) (by dsimp only; omega)
  · exact Prod.ext (by dsimp only; omega) (by dsimp only; omega)

/-- The number in units of the digit `s` places behind the point. -/
def scaled (var : NumericVar) (s : ℤ) : ℤ :=
  Numeral.value nbase var.digits * nbase ^ (s - var.rscaleDigits).toNat

variable {s k : ℤ} {n : ℕ} {x : ℚ} {dscale : ℤ}

theorem abs_eq_scaled (h : var.rscaleDigits ≤ s) :
    var.abs = var.scaled s * (nbase : ℚ) ^ (-s) := by
  unfold abs scaled
  rw [mag_eq]
  push_cast
  rw [mul_assoc, ← zpow_natCast, ← zpow_add₀ nbase_pos'.ne', Int.toNat_of_nonneg (by omega)]
  congr 2
  unfold rscaleDigits ndigits
  ring

theorem scaled_nonneg (h : var.Valid) : 0 ≤ var.scaled s :=
  mul_nonneg h.value_nonneg (pow_nonneg nbase_pos.le _)

theorem scaled_lt (hs : var.rscaleDigits ≤ s) (hlt : var.abs < (nbase : ℚ) ^ k) (hn : s + k ≤ n) :
    var.scaled s < nbase ^ n := by
  rw [abs_eq_scaled hs] at hlt
  have hpos : 0 < (nbase : ℚ) ^ s := zpow_pos nbase_pos' s
  have hmul := mul_lt_mul_of_pos_right hlt hpos
  rw [mul_assoc, ← zpow_add₀ nbase_pos'.ne', ← zpow_add₀ nbase_pos'.ne', neg_add_cancel, zpow_zero,
    mul_one] at hmul
  have hle : (nbase : ℚ) ^ (k + s) ≤ (nbase : ℚ) ^ (n : ℤ) :=
    zpow_le_zpow_right₀ one_lt_nbase.le (by omega)
  exact_mod_cast hmul.trans_le hle

theorem value_window_scaled {off : ℤ} (h : var.Valid) (hs : var.rscaleDigits ≤ s)
    (hlt : var.abs < (nbase : ℚ) ^ k) (hn : s + k ≤ n) (hoff : off + n = s + var.weight + 1) :
    Numeral.value nbase (window var.digits off n) = var.scaled s := by
  have hlen : off + n = var.digits.length + (s - var.rscaleDigits).toNat := by
    rw [Int.toNat_of_nonneg (by omega), hoff]
    unfold rscaleDigits ndigits
    ring
  rw [value_window nbase_pos h off n _ hlen]
  exact Int.emod_eq_of_lt (scaled_nonneg h) (scaled_lt hs hlt hn)

section

variable {column : ℤ → ℤ → ℤ} {step : ℤ → ℤ × ℤ} (hpass : Carries column step) (resWeight : ℤ)
include hpass

/-- The columns may be summed up first, provided that the result is in range. -/
theorem abs_combineAbs (h1 : var1.Valid) (h2 : var2.Valid)
    (hlt1 : var1.abs < (nbase : ℚ) ^ (resWeight + 1))
    (hlt2 : var2.abs < (nbase : ℚ) ^ (resWeight + 1)) (hzero : column 0 0 = 0)
    (hlin : ∀ (l : List ℕ) (f g : ℕ → ℤ), Numeral.value nbase (l.map fun i => column (f i) (g i)) =
      column (Numeral.value nbase (l.map f)) (Numeral.value nbase (l.map g)))
    (hres : let s := max var1.rscaleDigits var2.rscaleDigits
      0 ≤ column (var1.scaled s) (var2.scaled s) ∧
        column (var1.scaled s) (var2.scaled s) < nbase ^ (s + resWeight + 1).toNat) :
    let s := max var1.rscaleDigits var2.rscaleDigits
    (combineAbs column step resWeight var1 var2).abs =
      column (var1.scaled s) (var2.scaled s) * (nbase : ℚ) ^ (-s) := by
  intro s
  have hs1 : var1.rscaleDigits ≤ s := le_max_left _ _
  have hs2 : var2.rscaleDigits ≤ s := le_max_right _ _
  unfold combineAbs
  rw [abs_stripVar]
  generalize hn : (if s + resWeight + 1 ≤ 0 then 1 else s + resWeight + 1).toNat = n
  have hn' : (if s + resWeight + 1 ≤ 0 then 1 else s + resWeight + 1) = (n : ℤ) := by
    split <;> omega
  have hns : s + (resWeight + 1) ≤ n := by
    rw [← hn']
    split <;> omega
  have hlen : (s + resWeight + 1).toNat ≤ n := by omega
  rw [hn']
  have hw1 := value_window_scaled h1 hs1 hlt1 hns (sub_add_cancel _ _)
  have hw2 := value_window_scaled h2 hs2 hlt2 hns (sub_add_cancel _ _)
  have hr1 := inRange_window nbase_pos h1 (s + var1.weight + 1 - n) n
  have hr2 := inRange_window nbase_pos h2 (s + var2.weight + 1 - n) n
  have hcols := hlin (List.range n) (fun i => digitAt var1.digits (s + var1.weight + 1 - n + i))
    (fun i => digitAt var2.digits (s + var2.weight + 1 - n + i))
  rw [← window, ← window, hw1, hw2] at hcols
  have hpass' := hpass ((List.range n).map fun i : ℕ =>
    column (digitAt var1.digits (s + var1.weight + 1 - n + i))
      (digitAt var2.digits (s + var2.weight + 1 - n + i))) (by
    intro d hd
    obtain ⟨i, hi, rfl⟩ := mem_map.mp hd
    exact ⟨_, _, hr1 _ (mem_map_of_mem hi), hr2 _ (mem_map_of_mem hi), rfl⟩)
  have hlt : column (var1.scaled s) (var2.scaled s) < nbase ^ n :=
    hres.2.trans_le (pow_le_pow_right₀ (by decide) hlen)
  unfold abs
  rw [hpass', mag_eq, propagate_snd nbase_pos, propagate_length, hcols, length_map,
    length_range, Int.emod_eq_of_lt hres.1 hlt]
  by_cases hneg : s + resWeight + 1 ≤ 0
  · -- both numbers are zero
    have hx1 := scaled_lt (n := 0) hs1 hlt1 (by omega)
    have hx2 := scaled_lt (n := 0) hs2 hlt2 (by omega)
    rw [pow_zero] at hx1 hx2
    have hx1' : var1.scaled s = 0 := by have := scaled_nonneg (s := s) h1; omega
    have hx2' : var2.scaled s = 0 := by have := scaled_nonneg (s := s) h2; omega
    rw [hx1', hx2', hzero]
    simp
  · rw [if_neg hneg] at hn'
    congr 2
    dsimp only
    omega

theorem valid_combineAbs (h1 : var1.Valid) (h2 : var2.Valid) :
    (combineAbs column step resWeight var1 var2).Valid := by
  apply Valid.stripVar
  rw [hpass]
  · exact inRange_propagate nbase_pos _
  · intro d hd
    obtain ⟨i, hi, rfl⟩ := mem_map.mp hd
    exact ⟨_, _, inRange_window nbase_pos h1 _ _ _ (mem_map_of_mem hi),
      inRange_window nbase_pos h2 _ _ _ (mem_map_of_mem hi), rfl⟩

end

theorem Valid.addAbs (h1 : var1.Valid) (h2 : var2.Valid) : (addAbs var1 var2).Valid :=
  valid_combineAbs carries_add _ h1 h2

theorem Valid.subAbs (h1 : var1.Valid) (h2 : var2.Valid) : (subAbs var1 var2).Valid :=
  valid_combineAbs carries_sub _ h1 h2

theorem Valid.abs_lt_of_le (h : var.Valid) (hk : var.weight ≤ k) :
    var.abs < (nbase : ℚ) ^ (k + 1) :=
  h.abs_lt.trans_le (zpow_le_zpow_right₀ one_lt_nbase.le (by omega))

theorem abs_addAbs (h1 : var1.Valid) (h2 : var2.Valid) :
    (addAbs var1 var2).abs = var1.abs + var2.abs := by
  have hs1 : var1.rscaleDigits ≤ max var1.rscaleDigits var2.rscaleDigits := le_max_left _ _
  have hs2 : var2.rscaleDigits ≤ max var1.rscaleDigits var2.rscaleDigits := le_max_right _ _
  generalize hs : max var1.rscaleDigits var2.rscaleDigits = s at hs1 hs2
  generalize hw : max var1.weight var2.weight = w
  have hle1 : var1.weight ≤ w := hw ▸ le_max_left _ _
  have hle2 : var2.weight ≤ w := hw ▸ le_max_right _ _
  have hpos : 0 ≤ s + w + 1 := by
    unfold rscaleDigits ndigits at hs1
    omega
  obtain ⟨n, hn⟩ := Int.eq_ofNat_of_zero_le hpos
  have hx1 := scaled_lt hs1 (h1.abs_lt_of_le hle1) (n := n) (by omega)
  have hx2 := scaled_lt hs2 (h2.abs_lt_of_le hle2) (n := n) (by omega)
  have hlen : (s + (w + 1) + 1).toNat = n + 1 := by omega
  have hsum : var1.scaled s + var2.scaled s < nbase ^ (n + 1) := by
    have hp : nbase ^ (n + 1) = nbase ^ n * 10000 := pow_succ _ _
    have := pow_pos nbase_pos n
    omega
  have h := abs_combineAbs carries_add (w + 1) h1 h2
    (h1.abs_lt_of_le (hle1.trans (by omega))) (h2.abs_lt_of_le (hle2.trans (by omega))) rfl
    value_map_add
    (by
      rw [hs]
      dsimp only
      rw [hlen]
      exact ⟨add_nonneg (scaled_nonneg h1) (scaled_nonneg h2), hsum⟩)
  unfold addAbs
  rw [hw, h, hs, abs_eq_scaled hs1, abs_eq_scaled hs2]
  push_cast
  ring

theorem abs_subAbs (h1 : var1.Valid) (h2 : var2.Valid) (hle : var2.abs ≤ var1.abs) :
    (subAbs var1 var2).abs = var1.abs - var2.abs := by
  have hs1 : var1.rscaleDigits ≤ max var1.rscaleDigits var2.rscaleDigits := le_max_left _ _
  have hs2 : var2.rscaleDigits ≤ max var1.rscaleDigits var2.rscaleDigits := le_max_right _ _
  generalize hs : max var1.rscaleDigits var2.rscaleDigits = s at hs1 hs2
  have hx1 := scaled_lt hs1 h1.abs_lt (n := (s + var1.weight + 1).toNat) (by omega)
  have hscaled : var2.scaled s ≤ var1.scaled s := by
    rw [abs_eq_scaled hs1, abs_eq_scaled hs2] at hle
    exact_mod_cast le_of_mul_le_mul_right hle (zpow_pos nbase_pos' _)
  have h := abs_combineAbs carries_sub var1.weight h1 h2
    h1.abs_lt (hle.trans_lt h1.abs_lt) rfl value_map_sub
    (by
      rw [hs]
      have hnonneg := scaled_nonneg (s := s) h2
      exact ⟨sub_nonneg.mpr hscaled, (sub_le_self _ hnonneg).trans_lt hx1⟩)
  unfold subAbs
  rw [h, hs, abs_eq_scaled hs1, abs_eq_scaled hs2]
  push_cast
  ring

theorem dscale_addAbs : (addAbs var1 var2).dscale = max var1.dscale var2.dscale := dscale_stripVar

theorem dscale_subAbs : (subAbs var1 var2).dscale = max var1.dscale var2.dscale := dscale_stripVar

/-- The result is exact, with digits in range and the larger of the display scales. -/
structure Exact (var : NumericVar) (x : ℚ) (dscale : ℤ) : Prop where
  valid : var.Valid
  value : var.value = x
  dscale : var.dscale = dscale

theorem exact_withSign {sign : NumericSign} (h : var.Valid) (habs : var.abs = x)
    (hd : var.dscale = dscale) :
    Exact { var with sign := sign } (sign.toRat * x) dscale :=
  ⟨h, by rw [← habs]; rfl, hd⟩

section

variable (sign : NumericSign) (h1 : var1.Valid) (h2 : var2.Valid)
include sign h1 h2

theorem exact_addAbs :
    Exact { addAbs var1 var2 with sign := sign } (sign.toRat * (var1.abs + var2.abs))
      (max var1.dscale var2.dscale) :=
  exact_withSign (h1.addAbs h2) (abs_addAbs h1 h2) dscale_addAbs

theorem exact_subAbs (hle : var2.abs ≤ var1.abs) :
    Exact { subAbs var1 var2 with sign := sign } (sign.toRat * (var1.abs - var2.abs))
      (max var1.dscale var2.dscale) :=
  exact_withSign (h1.subAbs h2) (abs_subAbs h1 h2 hle) dscale_subAbs

end

theorem exact_zeroVar (dscale : ℤ) : Exact (zeroVar dscale) 0 dscale :=
  ⟨nofun, mul_zero _, rfl⟩

theorem stripped_zeroVar (dscale : ℤ) : (zeroVar dscale).Stripped :=
  ⟨nofun, nofun, fun _ => ⟨rfl, rfl⟩⟩

theorem Exact.stripVar (h : Exact var x dscale) :
    Exact var.stripVar x dscale :=
  ⟨h.valid.stripVar, value_stripVar.trans h.value, dscale_stripVar.trans h.dscale⟩

theorem exact_diffAbs (sign sign' : NumericSign) (hsign : sign'.toRat = -sign.toRat)
    (h1 : var1.Valid) (h2 : var2.Valid) :
    Exact (diffAbs sign sign' var1 var2) (sign.toRat * (var1.abs - var2.abs))
      (max var1.dscale var2.dscale) := by
  unfold diffAbs
  rw [cmpAbs_eq h1 h2]
  rcases lt_trichotomy var1.abs var2.abs with hlt | heq | hlt
  · rw [(cmp_eq_lt_iff _ _).mpr hlt]
    have h := exact_subAbs sign' h2 h1 hlt.le
    rw [max_comm, hsign, neg_mul, ← mul_neg, neg_sub] at h
    exact h
  · rw [(cmp_eq_eq_iff _ _).mpr heq, heq, sub_self, mul_zero]
    exact exact_zeroVar _
  · rw [(cmp_eq_gt_iff _ _).mpr hlt]
    exact exact_subAbs sign h1 h2 hlt.le

theorem exact_addVar (h1 : var1.Valid) (h2 : var2.Valid) :
    Exact (addVar var1 var2) (var1.value + var2.value) (max var1.dscale var2.dscale) := by
  unfold addVar value
  cases var1.sign <;> cases var2.sign
  · have h := exact_addAbs .pos h1 h2
    rwa [mul_add] at h
  · have h := exact_diffAbs .pos .neg rfl h1 h2
    rwa [mul_sub, sub_eq_add_neg, ← neg_mul] at h
  · have h := exact_diffAbs .neg .pos (neg_neg 1).symm h1 h2
    rwa [mul_sub, sub_eq_add_neg, ← neg_mul, show -NumericSign.neg.toRat = NumericSign.pos.toRat from
      neg_neg 1] at h
  · have h := exact_addAbs .neg h1 h2
    rwa [mul_add] at h

end NumericVar

end PostgreSieve.Numeric
