import PostgreSieve.Numeric.Sum

/-! # The accumulated sums are exact

Between two carry passes at most `NBASE - 1` values are added, each to counters below a bound that
grows with their number, and the first digit stays zero. So a pass needs no more than that digit.
-/

namespace PostgreSieve.Numeric

open Numeral List

variable {dig vals : List ℤ} {w x : ℤ}

theorem mag_zeros (n : ℕ) : mag (List.replicate n 0) w = 0 :=
  mag_of_all_zero fun _ => eq_of_mem_replicate

namespace NumericSumAccum

open NumericVar

/-! ## Carry passes -/

theorem carryStep_eq (h : 0 ≤ x) : carryStep x = (x / nbase, x % nbase) := by
  unfold carryStep nbase
  split
  · exact Prod.ext rfl (by dsimp only; omega)
  · exact Prod.ext (by dsimp only; omega) (by dsimp only; omega)

theorem fitsInt32_iff : fitsInt32 x = true ↔ -2 ^ 31 ≤ x ∧ x < 2 ^ 31 := by
  simp [fitsInt32]

theorem carryPass_counters (hbound : ∀ d ∈ dig, 0 ≤ d ∧ d ≤ (nbase - 1) * nbase) :
    carryPass fitsInt32 carryStep dig = some (propagate nbase dig) ∧
      0 ≤ (propagate nbase dig).1 ∧ (propagate nbase dig).1 ≤ nbase - 1 := by
  apply carryPass_eq 0 (nbase - 1) le_rfl (by decide)
  intro d hd c hc hc'
  have := hbound d hd
  rw [fitsInt32_iff, carryStep_eq (by omega)]
  unfold nbase at *
  exact ⟨by omega, rfl, by omega, by omega⟩

/-- One spare digit is enough for the carries of `NBASE - 1` values. -/
theorem carryDigits_spec (hhead : dig.head? = some 0)
    (hbound : ∀ d ∈ dig, 0 ≤ d ∧ d ≤ (nbase - 1) * nbase) :
    ∃ dig', carryDigits dig = some dig' ∧ InRange nbase dig' ∧ dig'.length = dig.length ∧
      ∀ w, mag dig' w = mag dig w := by
  have hcarry : (propagate nbase dig).1 = 0 := by
    cases dig with
    | nil => cases hhead
    | cons d ds =>
      obtain rfl : d = 0 := by simpa using hhead
      obtain ⟨-, hlo, hhi⟩ := carryPass_counters fun e he => hbound e (.tail _ he)
      rw [propagate_cons, zero_add]
      exact Int.ediv_eq_zero_of_lt hlo (by omega)
  have hvalue := propagate_value nbase dig
  rw [hcarry, zero_mul, zero_add] at hvalue
  refine ⟨(propagate nbase dig).2, ?_, inRange_propagate nbase_pos _, propagate_length, fun w => ?_⟩
  · rw [carryDigits, (carryPass_counters hbound).1]
    simp [hcarry]
  · rw [mag_eq, mag_eq, hvalue, propagate_length]

/-! ## What an accumulator holds -/

/-- Counters that `n` values have been added to since the last pass. -/
def Counters (n : ℤ) (dig : List ℤ) : Prop := ∀ d ∈ dig, 0 ≤ d ∧ d ≤ (nbase - 1) * (n + 1)

/-- The accumulator has a sum. Its first digits are zero whenever they may be needed. -/
structure Holds (accum : NumericSumAccum) (sum : ℚ) (dscale : ℤ) : Prop where
  length : accum.negDigits.length = accum.posDigits.length
  sum_eq : mag accum.posDigits accum.weight - mag accum.negDigits accum.weight = sum
  dscale_eq : accum.dscale = dscale
  count : 0 ≤ accum.numUncarried ∧ accum.numUncarried ≤ nbase - 1
  pos : Counters accum.numUncarried accum.posDigits
  neg : Counters accum.numUncarried accum.negDigits
  space : accum.haveCarrySpace = true ∨ accum.numUncarried ≠ 0 →
    accum.posDigits.head? = some 0 ∧ accum.negDigits.head? = some 0
  empty : accum.posDigits = [] → dscale = 0

variable {accum : NumericSumAccum} {sum : ℚ} {dscale : ℤ} {val : NumericVar}
variable {w' n : ℤ} {k n : ℤ}

theorem holds_fresh : Holds fresh 0 0 where
  length := rfl
  sum_eq := sub_self 0
  dscale_eq := rfl
  count := by decide
  pos := nofun
  neg := nofun
  space := by simp [fresh]
  empty _ := rfl

theorem Holds.copy (h : Holds accum sum dscale) : Holds (fresh.accumSumCopy accum) sum dscale where
  length := h.length
  sum_eq := h.sum_eq
  dscale_eq := h.dscale_eq
  count := h.count
  pos := h.pos
  neg := h.neg
  space hs := h.space (.inr (hs.resolve_left Bool.false_ne_true))
  empty := h.empty

theorem Counters.of_inRange (h : InRange nbase dig) : Counters 0 dig := fun d hd => by
  have := h d hd
  omega

theorem Counters.mono {n m : ℤ} (h : Counters n dig) (hnm : n ≤ m) : Counters m dig := by
  intro d hd
  have := h d hd
  unfold nbase at *
  omega

theorem Counters.inRange (h : Counters 0 dig) : InRange nbase dig := fun d hd => by
  have := h d hd
  omega

theorem head_eq_zero (h : 0 ≤ dig.headD 0) (h' : ¬ 0 < dig.headD 0) (hne : dig ≠ []) :
    dig.head? = some 0 := by
  cases dig with
  | nil => exact absurd rfl hne
  | cons d ds =>
    simp only [headD_cons] at h h'
    simp only [List.head?_cons]
    congr 1
    omega

theorem headD_nonneg (h : InRange nbase dig) : 0 ≤ dig.headD 0 := by
  cases dig with
  | nil => exact le_refl 0
  | cons d ds => exact (h d (.head _)).1

theorem Holds.carry (h : Holds accum sum dscale) :
    ∃ accum', accum.accumSumCarry = some accum' ∧ Holds accum' sum dscale ∧
      accum'.numUncarried = 0 ∧ accum'.posDigits.length = accum.posDigits.length := by
  unfold accumSumCarry
  split
  · rename_i hn
    exact ⟨accum, rfl, h, hn, rfl⟩
  rename_i hn
  obtain ⟨hpos, hneg⟩ := h.space (.inr hn)
  have hcount : accum.numUncarried ≤ nbase - 1 := h.count.2
  obtain ⟨pos, hpos', hrpos, hlpos, hmpos⟩ := carryDigits_spec hpos
    fun d hd => by simpa using h.pos.mono hcount d hd
  obtain ⟨neg, hneg', hrneg, hlneg, hmneg⟩ := carryDigits_spec hneg
    fun d hd => by simpa using h.neg.mono hcount d hd
  have hnonempty : accum.posDigits ≠ [] := by
    intro hnil
    rw [hnil] at hpos
    cases hpos
  rw [hpos', hneg']
  refine ⟨_, rfl, ?_, rfl, hlpos⟩
  constructor
  · exact hlneg.trans (h.length.trans hlpos.symm)
  · rw [hmpos, hmneg, h.sum_eq]
  · exact h.dscale_eq
  · exact ⟨le_refl 0, show (0 : ℤ) ≤ nbase - 1 by decide⟩
  · exact .of_inRange hrpos
  · exact .of_inRange hrneg
  · rintro (hs | hs)
    · simp only [Bool.and_eq_true, Bool.not_eq_true', Bool.or_eq_false_iff, decide_eq_false_iff_not]
        at hs
      have hpos_ne : pos ≠ [] := by
        rw [← length_pos_iff, hlpos, length_pos_iff]
        exact hnonempty
      have hneg_ne : neg ≠ [] := by
        rw [← length_pos_iff, hlneg, h.length, length_pos_iff]
        exact hnonempty
      exact ⟨head_eq_zero (headD_nonneg hrpos) hs.2.1 hpos_ne,
        head_eq_zero (headD_nonneg hrneg) hs.2.2 hneg_ne⟩
    · exact absurd rfl hs
  · intro hnil
    rw [← length_eq_zero_iff, hlpos, length_eq_zero_iff] at hnil
    exact absurd hnil hnonempty

/-! ## Making room -/

theorem mag_relocate (hw : w ≤ w') : mag (relocate (w' - w) n dig) w' = mag dig w := by
  unfold relocate
  rw [mag_append, mag_append, mag_zeros, mag_zeros, zero_add, add_zero, length_replicate,
    Int.toNat_of_nonneg (by omega)]
  congr 1
  ring

theorem length_relocate (dig : List ℤ) (hk : 0 ≤ k) (hn : k + dig.length ≤ n) :
    ((relocate k n dig).length : ℤ) = n := by
  unfold relocate
  simp only [length_append, length_replicate]
  omega

theorem Counters.relocate {k n m : ℤ} (h : Counters m dig) (hm : 0 ≤ m) :
    Counters m (relocate k n dig) := by
  intro d hd
  have hzero : 0 ≤ (nbase - 1) * (m + 1) := mul_nonneg (by decide) (by omega)
  simp only [NumericSumAccum.relocate, mem_append, mem_replicate] at hd
  rcases hd with (⟨-, rfl⟩ | hd) | ⟨-, rfl⟩
  · exact ⟨le_refl 0, hzero⟩
  · exact h d hd
  · exact ⟨le_refl 0, hzero⟩

theorem head_relocate (h : 0 < k ∨ 0 ≤ k ∧ dig.head? = some 0) :
    (relocate k n dig).head? = some 0 := by
  unfold relocate
  rcases Int.eq_ofNat_of_zero_le (show 0 ≤ k by omega) with ⟨_ | j, rfl⟩
  · have hhead : dig.head? = some 0 := (h.resolve_left (by omega)).2
    cases dig with
    | nil => cases hhead
    | cons d ds => simpa using hhead
  · simp [replicate_succ]

theorem rescaleWeight_spec {accumWeight accumNdigits : ℤ}
    (h : accum.rescaleWeight val = (accumWeight, accumNdigits)) :
    accum.weight ≤ accumWeight ∧ val.weight < accumWeight ∧
      accumNdigits = accum.ndigits + (accumWeight - accum.weight) ∧
      (accum.weight < accumWeight ∨ accum.haveCarrySpace = true) := by
  unfold rescaleWeight at h
  split at h
  · obtain ⟨rfl, rfl⟩ := Prod.mk.inj h
    refine ⟨by omega, by omega, by omega, .inl (by omega)⟩
  split at h
  · obtain ⟨rfl, rfl⟩ := Prod.mk.inj h
    refine ⟨by omega, by omega, by omega, .inl (by omega)⟩
  · rename_i hspace
    obtain ⟨rfl, rfl⟩ := Prod.mk.inj h
    exact ⟨by omega, by omega, by omega, .inr (by simpa using hspace)⟩

theorem Holds.enlarge (h : Holds accum sum dscale) (hw : accum.weight ≤ w')
    (hn : accum.ndigits + (w' - accum.weight) ≤ n)
    (hspace : accum.weight < w' ∨ accum.haveCarrySpace = true) :
    Holds { accum with
      weight := w'
      haveCarrySpace := true
      posDigits := relocate (w' - accum.weight) n accum.posDigits
      negDigits := relocate (w' - accum.weight) n accum.negDigits } sum dscale := by
  unfold ndigits at hn
  have hlen := h.length
  have hpos : (relocate (w' - accum.weight) n accum.posDigits).head? = some 0 :=
    head_relocate (hspace.imp (by omega) fun hs => ⟨by omega, (h.space (.inl hs)).1⟩)
  have hneg : (relocate (w' - accum.weight) n accum.negDigits).head? = some 0 :=
    head_relocate (hspace.imp (by omega) fun hs => ⟨by omega, (h.space (.inl hs)).2⟩)
  constructor
  · have h1 := length_relocate accum.posDigits (k := w' - accum.weight) (n := n) (by omega)
      (by omega)
    have h2 := length_relocate accum.negDigits (k := w' - accum.weight) (n := n) (by omega)
      (by omega)
    dsimp only
    omega
  · rw [mag_relocate hw, mag_relocate hw, h.sum_eq]
  · exact h.dscale_eq
  · exact h.count
  · exact h.pos.relocate h.count.1
  · exact h.neg.relocate h.count.1
  · exact fun _ => ⟨hpos, hneg⟩
  · intro hnil
    dsimp only at hnil
    rw [hnil] at hpos
    cases hpos

theorem Holds.setDscale {dscale' : ℤ} (h : Holds accum sum dscale) (hne : accum.posDigits ≠ []) :
    Holds { accum with dscale := dscale' } sum dscale' where
  length := h.length
  sum_eq := h.sum_eq
  dscale_eq := rfl
  count := h.count
  pos := h.pos
  neg := h.neg
  space := h.space
  empty hnil := absurd hnil hne

/-- There is room for the value's digits and for a carry. -/
structure RoomFor (accum : NumericSumAccum) (val : NumericVar) : Prop where
  space : accum.haveCarrySpace = true
  left : val.weight < accum.weight
  right : val.ndigits - val.weight ≤ accum.ndigits - accum.weight

theorem Holds.rescale (h : Holds accum sum dscale) (val : NumericVar) :
    Holds (accum.accumSumRescale val) sum (max dscale val.dscale) ∧
      RoomFor (accum.accumSumRescale val) val ∧
      (accum.accumSumRescale val).numUncarried = accum.numUncarried := by
  unfold accumSumRescale
  cases hwn : accum.rescaleWeight val with
  | mk accumWeight accumNdigits =>
    obtain ⟨hw, hlt, hn, hspace⟩ := rescaleWeight_spec hwn
    dsimp only
    generalize hnew : (if accumNdigits - accumWeight - 1 < val.ndigits - val.weight - 1 then
      accumNdigits + (val.ndigits - val.weight - 1 - (accumNdigits - accumWeight - 1))
      else accumNdigits) = n
    generalize hacc : (if n ≠ accum.ndigits ∨ accumWeight ≠ accum.weight then
      { accum with
        weight := accumWeight
        haveCarrySpace := true
        posDigits := relocate (accumWeight - accum.weight) n accum.posDigits
        negDigits := relocate (accumWeight - accum.weight) n accum.negDigits }
      else accum) = accum'
    have hacc' : Holds accum' sum dscale ∧ RoomFor accum' val ∧
        accum'.numUncarried = accum.numUncarried := by
      split at hacc
      · subst hacc
        have hlen := length_relocate accum.posDigits (k := accumWeight - accum.weight) (n := n)
          (by omega) (by unfold ndigits at hn; omega)
        refine ⟨h.enlarge hw (by omega) hspace, ⟨rfl, hlt, ?_⟩, rfl⟩
        unfold ndigits
        dsimp only
        omega
      · subst hacc
        exact ⟨h, ⟨hspace.resolve_left (by omega), by omega, by omega⟩, rfl⟩
    obtain ⟨hh, hroom, hcount⟩ := hacc'
    have hne : accum'.posDigits ≠ [] := by
      intro hnil
      have := (hh.space (.inl hroom.space)).1
      rw [hnil] at this
      cases this
    have hds := hh.dscale_eq
    split
    · rw [max_eq_right (by omega)]
      exact ⟨hh.setDscale hne, ⟨hroom.space, hroom.left, hroom.right⟩, hcount⟩
    · rw [max_eq_left (by omega)]
      exact ⟨hh, hroom, hcount⟩

/-! ## Adding a value -/

theorem addDigits_spec {i : ℕ} {n : ℤ} (hv : InRange nbase vals) (hd : Counters n dig)
    (hn : 0 ≤ n) (hn' : n < nbase - 1) (hlen : i + vals.length ≤ dig.length) :
    ∃ dig', addDigits i vals dig = some dig' ∧ dig'.length = dig.length ∧ Counters (n + 1) dig' ∧
      (∀ w, mag dig' w = mag dig w + mag vals (w - i)) ∧
      (0 < i → dig.head? = some 0 → dig'.head? = some 0) := by
  induction dig generalizing i vals with
  | nil =>
    obtain ⟨rfl, rfl⟩ : i = 0 ∧ vals = [] := by
      rw [length_nil, Nat.le_zero, Nat.add_eq_zero_iff, length_eq_zero_iff] at hlen
      exact hlen
    exact ⟨[], by rw [addDigits], rfl, nofun, fun w => (add_zero _).symm, nofun⟩
  | cons d dig ih =>
    have hbound := hd d (.head _)
    have hd' : Counters n dig := fun e he => hd e (.tail _ he)
    cases vals with
    | nil =>
      refine ⟨d :: dig, by rw [addDigits], rfl, hd.mono (by omega), fun w => ?_, fun _ h => h⟩
      rw [mag_nil, add_zero]
    | cons v vals =>
      rw [length_cons, length_cons] at hlen
      cases i with
      | zero =>
        obtain ⟨dig', heq, hl, hc, hm, -⟩ := ih (i := 0) hv.of_cons hd' (by omega)
        have hvr := hv v (.head _)
        have hsum : 0 ≤ d + v ∧ d + v ≤ (nbase - 1) * (n + 1 + 1) := by
          unfold nbase at *
          omega
        have hfits : fitsInt32 (d + v) = true := by
          rw [fitsInt32_iff]
          unfold nbase at *
          omega
        refine ⟨(d + v) :: dig', ?_, by simp [hl], forall_mem_cons.mpr ⟨hsum, hc⟩, fun w => ?_,
          nofun⟩
        · rw [addDigits, if_pos hfits, heq]
          rfl
        · rw [mag_cons, mag_cons, mag_cons, hm]
          push_cast
          ring
      | succ i =>
        obtain ⟨dig', heq, hl, hc, hm, -⟩ := ih (i := i) hv hd' (by rw [length_cons]; omega)
        have hsum : 0 ≤ d ∧ d ≤ (nbase - 1) * (n + 1 + 1) := by
          unfold nbase at *
          omega
        refine ⟨d :: dig', ?_, by simp [hl], forall_mem_cons.mpr ⟨hsum, hc⟩, fun w => ?_,
          fun _ h => h⟩
        · rw [addDigits, heq]
          · rfl
          · exact nofun
        · rw [mag_cons, mag_cons, hm, add_assoc]
          congr 3
          push_cast
          ring

section

variable (h : Holds accum sum dscale)
include h

theorem Holds.addTo (hroom : RoomFor accum val) (hv : val.Valid)
    (hn : accum.numUncarried < nbase - 1) {dig : List ℤ} (hdig : Counters accum.numUncarried dig)
    (hlen : dig.length = accum.posDigits.length) (hhead : dig.head? = some 0) :
    ∃ dig', addDigits (accum.weight - val.weight).toNat val.digits dig = some dig' ∧
      dig'.length = dig.length ∧ Counters (accum.numUncarried + 1) dig' ∧
      mag dig' accum.weight = mag dig accum.weight + val.abs ∧ dig'.head? = some 0 := by
  have hleft := hroom.left
  have hright := hroom.right
  unfold NumericVar.ndigits ndigits at hright
  obtain ⟨dig', heq, hl, hc, hm, hh⟩ := addDigits_spec (i := (accum.weight - val.weight).toNat) hv hdig
    h.count.1 hn (by omega)
  refine ⟨dig', heq, hl, hc, ?_, hh (by omega) hhead⟩
  rw [hm, Int.toNat_of_nonneg (by omega), sub_sub_cancel]
  rfl

theorem Holds.add (hv : val.Valid) :
    ∃ accum', accum.accumSumAdd val = some accum' ∧
      Holds accum' (sum + val.value) (max dscale val.dscale) := by
  unfold accumSumAdd
  have hfirst : ∃ accum₁, accum.carryIfFull = some accum₁ ∧ Holds accum₁ sum dscale ∧
      accum₁.numUncarried < nbase - 1 := by
    unfold carryIfFull
    split
    · obtain ⟨accum₁, heq, hh, hn, -⟩ := h.carry
      exact ⟨accum₁, heq, hh, by rw [hn]; decide⟩
    · exact ⟨accum, rfl, h, lt_of_le_of_ne h.count.2 ‹_›⟩
  obtain ⟨accum₁, heq, h₁, hn₁⟩ := hfirst
  obtain ⟨h₂, hroom, hn₂⟩ := h₁.rescale val
  rw [heq, Option.bind_eq_bind, Option.bind_some]
  generalize accum₁.accumSumRescale val = accum₂ at h₂ hroom hn₂
  have hn : accum₂.numUncarried < nbase - 1 := by rwa [hn₂]
  have hleft := hroom.left
  obtain ⟨hpos, hneg⟩ := h₂.space (.inl hroom.space)
  have hcount := h₂.count
  have hne : accum₂.posDigits ≠ [] := by
    intro hnil
    rw [hnil] at hpos
    cases hpos
  rw [if_neg (by omega)]
  unfold NumericVar.value
  cases hsign : val.sign with
  | pos =>
    obtain ⟨dig', hadd, hl, hc, hm, hh⟩ := h₂.addTo hroom hv hn h₂.pos rfl hpos
    rw [hadd]
    refine ⟨_, rfl, ?_⟩
    constructor
    · exact h₂.length.trans hl.symm
    · rw [hm, ← h₂.sum_eq, NumericSign.toRat]
      ring
    · exact h₂.dscale_eq
    · exact ⟨by dsimp only; omega, by dsimp only; omega⟩
    · exact hc
    · exact h₂.neg.mono (by dsimp only; omega)
    · exact fun _ => ⟨hh, hneg⟩
    · intro hnil
      rw [show dig' = [] from hnil] at hh
      cases hh
  | neg =>
    obtain ⟨dig', hadd, hl, hc, hm, hh⟩ := h₂.addTo hroom hv hn h₂.neg h₂.length hneg
    rw [hadd]
    refine ⟨_, rfl, ?_⟩
    constructor
    · exact hl.trans h₂.length
    · rw [hm, ← h₂.sum_eq, NumericSign.toRat]
      ring
    · exact h₂.dscale_eq
    · exact ⟨by dsimp only; omega, by dsimp only; omega⟩
    · exact h₂.pos.mono (by dsimp only; omega)
    · exact hc
    · exact fun _ => ⟨hpos, hh⟩
    · exact fun hnil => absurd hnil hne

/-! ## The value -/

theorem Holds.final :
    ∃ accum' result, accum.accumSumFinal = some (accum', result) ∧ Holds accum' sum dscale ∧
      Exact result sum dscale ∧ result.Stripped := by
  unfold accumSumFinal
  split
  · rename_i hn
    have hpos : accum.posDigits = [] := by simpa [ndigits] using hn
    have hneg : accum.negDigits = [] := by
      rw [← length_eq_zero_iff, h.length, hpos, length_nil]
    have hsum := h.sum_eq
    rw [hpos, hneg, mag_nil, sub_zero] at hsum
    obtain rfl := h.empty hpos
    subst hsum
    exact ⟨accum, zeroVar 0, rfl, h, exact_zeroVar 0, nofun, nofun, fun _ => ⟨rfl, rfl⟩⟩
  · obtain ⟨accum', heq, h', hn, -⟩ := h.carry
    have hpos := h'.pos
    have hneg := h'.neg
    rw [hn] at hpos hneg
    rw [heq]
    refine ⟨accum', _, rfl, h', ?_, stripped_stripVar⟩
    have hadd := exact_addVar
      (show NumericVar.Valid ⟨accum'.posDigits, accum'.weight, .pos, accum'.dscale⟩ from hpos.inRange)
      (show NumericVar.Valid ⟨accum'.negDigits, accum'.weight, .neg, accum'.dscale⟩ from hneg.inRange)
    refine ⟨hadd.valid.stripVar, ?_, ?_⟩
    · rw [value_stripVar, hadd.value, ← h'.sum_eq]
      unfold NumericVar.value NumericSign.toRat NumericVar.abs
      ring
    · rw [dscale_stripVar, hadd.dscale, max_self, h'.dscale_eq]

end

end NumericSumAccum

/-! ## Calls -/

section

open NumericSumAccum

variable {ι : Type} [DecidableEq ι] {s s' : ι → NumericSumAccum} {c : ι → Multiset NumericVar}
  {call : SumCall ι} {calls : List (SumCall ι)}
variable {accum : NumericSumAccum}

def sumOf (m : Multiset NumericVar) : ℚ := (m.map NumericVar.value).sum

/-- The largest display scale, which is zero if there are no values. -/
def dscaleOf (m : Multiset NumericVar) : ℤ := (m.map NumericVar.dscale).fold max 0

/-- Each accumulator has the sum of what it was given. -/
def Accumulated (s : ι → NumericSumAccum) (c : ι → Multiset NumericVar) : Prop :=
  ∀ k, Holds (s k) (sumOf (c k)) (dscaleOf (c k))

theorem Accumulated.update (k : ι) {m : Multiset NumericVar}
    (h : Accumulated s c) (hk : Holds accum (sumOf m) (dscaleOf m)) :
    Accumulated (Function.update s k accum) (Function.update c k m) := by
  intro j
  by_cases hj : j = k
  · subst hj
    simpa using hk
  · simpa [hj] using h j

theorem Accumulated.update_same {k : ι} (h : Accumulated s c)
    (hk : Holds accum (sumOf (c k)) (dscaleOf (c k))) :
    Accumulated (Function.update s k accum) c := by
  have := h.update k hk
  rwa [Function.update_eq_self] at this

/-- The values of a call have digits in range. -/
def SumCall.Valid : SumCall ι → Prop
  | .add _ val => val.Valid
  | _ => True

theorem Accumulated.step (h : Accumulated s c) (hv : call.Valid) :
    ∃ s', call.step s = some s' ∧ Accumulated s' (call.contents c) := by
  cases call with
  | add k val =>
    obtain ⟨accum, heq, hh⟩ := (h k).add hv
    refine ⟨_, by rw [SumCall.step, heq]; rfl, h.update k ?_⟩
    rw [sumOf, dscaleOf, Multiset.map_cons, Multiset.map_cons, Multiset.sum_cons,
      Multiset.fold_cons_left, add_comm, max_comm]
    exact hh
  | carry k =>
    obtain ⟨accum, heq, hh, -⟩ := (h k).carry
    exact ⟨_, by rw [SumCall.step, heq]; rfl, h.update_same hh⟩
  | final k =>
    obtain ⟨accum, result, heq, hh, -⟩ := (h k).final
    exact ⟨_, by rw [SumCall.step, heq]; rfl, h.update_same hh⟩
  | copy dst src => exact ⟨_, rfl, h.update dst (h src).copy⟩
  | combine k k2 =>
    obtain ⟨accum2, tmpVar, heq, hh, hexact, -⟩ := (h k2).final
    have h' := h.update_same hh
    obtain ⟨accum, hadd, hacc⟩ := (h' k).add hexact.valid
    refine ⟨Function.update (Function.update s k2 accum2) k accum, ?_, h'.update k ?_⟩
    · rw [SumCall.step, accumSumCombine, heq]
      dsimp only [Option.bind_eq_bind, Option.bind_some]
      rw [hadd]
      rfl
    · have hfold := Multiset.fold_add max (0 : ℤ) 0 ((c k2).map NumericVar.dscale)
        ((c k).map NumericVar.dscale)
      rw [max_self] at hfold
      rw [sumOf, dscaleOf, Multiset.map_add, Multiset.map_add, Multiset.sum_add, hfold, add_comm,
        max_comm]
      rw [hexact.value, hexact.dscale] at hacc
      exact hacc

theorem Accumulated.run (h : Accumulated s c) (hv : ∀ call ∈ calls, call.Valid) :
    ∃ s', runSumCalls s calls = some s' ∧ Accumulated s' (calls.foldl SumCall.contents c) := by
  induction calls generalizing s c with
  | nil => exact ⟨s, rfl, h⟩
  | cons call calls ih =>
    obtain ⟨s₁, heq, h₁⟩ := h.step (hv call (.head _))
    obtain ⟨s₂, heq₂, h₂⟩ := ih h₁ fun c hc => hv c (.tail _ hc)
    exact ⟨s₂, by rw [runSumCalls, heq]; exact heq₂, h₂⟩

/-- Whatever is called in which order, nothing overflows and the sums are exact. -/
theorem sum_accum_exact (calls : List (SumCall ι)) (hv : ∀ call ∈ calls, call.Valid) :
    ∃ s, runSumCalls (fun _ => fresh) calls = some s ∧
      ∀ k, ∃ accum result, (s k).accumSumFinal = some (accum, result) ∧
        result.value = ((contentsAfter calls k).map NumericVar.value).sum ∧
        result.dscale = ((contentsAfter calls k).map NumericVar.dscale).fold max 0 ∧
        result.Stripped := by
  have hstart : Accumulated (fun _ : ι => fresh) fun _ => 0 := fun _ => holds_fresh
  obtain ⟨s, heq, h⟩ := hstart.run hv
  refine ⟨s, heq, fun k => ?_⟩
  obtain ⟨accum, result, hfinal, -, hexact, hstrip⟩ := (h k).final
  exact ⟨accum, result, hfinal, hexact.value, hexact.dscale, hstrip⟩

theorem sum_accum_exact_mixed :
    let calls : List (SumCall ℕ) := [.add 0 ⟨[9999, 9999], 0, .pos, 4⟩, .final 0,
      .add 0 ⟨[1], 5, .neg, 0⟩, .copy 1 0, .combine 0 1]
    ∃ s, runSumCalls (fun _ => fresh) calls = some s ∧
      ∀ k, ∃ accum result, (s k).accumSumFinal = some (accum, result) ∧
        result.value = ((contentsAfter calls k).map NumericVar.value).sum ∧
        result.dscale = ((contentsAfter calls k).map NumericVar.dscale).fold max 0 ∧
        result.Stripped := by
  intro calls
  apply sum_accum_exact
  intro call hcall
  simp only [calls, mem_cons, not_mem_nil, or_false] at hcall
  rcases hcall with rfl | rfl | rfl | rfl | rfl
  · change ∀ d ∈ [9999, 9999], 0 ≤ d ∧ d < nbase
    decide
  · trivial
  · change ∀ d ∈ [1], 0 ≤ d ∧ d < nbase
    decide
  · trivial
  · trivial

end

end PostgreSieve.Numeric
