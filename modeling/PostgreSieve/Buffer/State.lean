import PostgreSieve.Words.Field

/-! # The packed buffer state

`BufferDesc.state` packs the reference count, the usage count, the flags and the
content lock into one 64-bit word. The routines of the buffer manager update it
by plain additions, subtractions and bitwise operations; each lemma says what
one of them does to the fields, and under which bound no field runs over.
-/

namespace PostgreSieve

open Function

/-- The value of `BufferDesc.state`. -/
abbrev BufState := BitVec 64

def bufRefcountBits : ℕ := 18
def bufUsagecountBits : ℕ := 4
def bufFlagBits : ℕ := 12

def bufRefcountOne : BufState := 1
def bufRefcountMask : BufState := (1 <<< bufRefcountBits) - 1
def bufUsagecountMask : BufState := ((1 <<< bufUsagecountBits) - 1) <<< bufRefcountBits
def bufUsagecountOne : BufState := 1 <<< bufRefcountBits
def bufFlagShift : ℕ := bufRefcountBits + bufUsagecountBits
def bufFlagMask : BufState := ((1 <<< bufFlagBits) - 1) <<< bufFlagShift

def bufDefineFlag (flagno : ℕ) : BufState := BitVec.twoPow 64 (bufFlagShift + flagno)

def bmLocked : BufState := bufDefineFlag 0
def bmDirty : BufState := bufDefineFlag 1
def bmValid : BufState := bufDefineFlag 2
def bmTagValid : BufState := bufDefineFlag 3
def bmIoInProgress : BufState := bufDefineFlag 4
def bmIoError : BufState := bufDefineFlag 5
def bmJustDirtied : BufState := bufDefineFlag 6
def bmPinCountWaiter : BufState := bufDefineFlag 7
def bmCheckpointNeeded : BufState := bufDefineFlag 8
def bmPermanent : BufState := bufDefineFlag 9

def bmMaxUsageCount : ℕ := 5

/-- The largest number of backends, `MAX_BACKENDS`. -/
def maxBackends : ℕ := 2 ^ 18 - 1

namespace BufState

def getRefcount (w : BufState) : ℕ := (w &&& bufRefcountMask).toNat

def getUsagecount (w : BufState) : ℕ := ((w &&& bufUsagecountMask) >>> bufRefcountBits).toNat

/-- Some bit of the mask is set. -/
def has (w mask : BufState) : Bool := w &&& mask != 0

/-- The word that `PinBuffer` writes, for a ring strategy or for none. -/
def pin (w : BufState) (strategy : Bool) : BufState :=
  let w := w + bufRefcountOne
  if strategy then
    if w.getUsagecount = 0 then w + bufUsagecountOne else w
  else
    if w.getUsagecount < bmMaxUsageCount then w + bufUsagecountOne else w

/-- The word that `UnlockBufHdrExt` writes. -/
def unlockExt (w set unset : BufState) (refcountChange : BufState) : BufState :=
  ((w ||| set) &&& ~~~unset &&& ~~~bmLocked) + bufRefcountOne * refcountChange

end BufState

open BufState

theorem getRefcount_eq_field (w : BufState) : w.getRefcount = field 0 18 w := by
  have : bufRefcountMask.toNat = 2 ^ 18 - 1 := by decide
  rw [getRefcount, BitVec.toNat_and, this, Nat.and_two_pow_sub_one_eq_mod, field]
  simp

theorem getUsagecount_eq_field (w : BufState) : w.getUsagecount = field 18 4 w := by
  have : (bufUsagecountMask >>> bufRefcountBits).toNat = 2 ^ 4 - 1 := by decide
  rw [getUsagecount, BitVec.ushiftRight_and_distrib, BitVec.toNat_and, this,
    Nat.and_two_pow_sub_one_eq_mod, BitVec.toNat_ushiftRight, Nat.shiftRight_eq_div_pow]
  rfl

theorem has_twoPow {i : ℕ} (hi : i < 64) (w : BufState) :
    w.has (BitVec.twoPow 64 i) = w.getLsbD i := by
  rw [has, BitVec.and_twoPow]
  cases h : BitVec.getLsbD w i
  · simp
  · have hne : BitVec.twoPow 64 i ≠ 0#64 := by
      intro he
      have := congrArg (fun v => BitVec.getLsbD v i) he
      simp [hi] at this
    simpa using hne

/-- The four fields of the state word, each on its own. -/
structure Fields where
  refcount : ℕ
  usagecount : ℕ
  flags : Fin 12 → Bool
  lock : ℕ

def BufState.fields (w : BufState) : Fields where
  refcount := w.getRefcount
  usagecount := w.getUsagecount
  flags i := w.getLsbD (22 + i)
  lock := field 34 30 w

section

variable (w : BufState)
include w

theorem has_flag (i : Fin 12) : w.has (bufDefineFlag i) = w.fields.flags i :=
  has_twoPow (i := 22 + i) (by omega) w

theorem has_bmLocked : w.has bmLocked = w.fields.flags 0 := has_flag w 0

theorem has_bmDirty : w.has bmDirty = w.fields.flags 1 := has_flag w 1

theorem has_bmValid : w.has bmValid = w.fields.flags 2 := has_flag w 2

theorem has_bmTagValid : w.has bmTagValid = w.fields.flags 3 := has_flag w 3

theorem has_bmPinCountWaiter : w.has bmPinCountWaiter = w.fields.flags 7 :=
  has_flag w 7

end

section Units

variable {w : BufState}

theorem bufRefcountOne_eq : bufRefcountOne = BitVec.ofNat 64 (2 ^ 0) := rfl

theorem bufUsagecountOne_eq : bufUsagecountOne = BitVec.ofNat 64 (2 ^ 18) := by decide

theorem bmLocked_eq : bmLocked = BitVec.ofNat 64 (2 ^ 22) := by decide

theorem fields_add_refcountOne (h : w.getRefcount < maxBackends) :
    (w + bufRefcountOne).fields = { w.fields with refcount := w.getRefcount + 1 } := by
  rw [getRefcount_eq_field, maxBackends] at h
  have hr : field 0 18 w + 1 < 2 ^ 18 := by omega
  rw [bufRefcountOne_eq]
  simp only [fields, getRefcount_eq_field, getUsagecount_eq_field, Fields.mk.injEq]
  exact ⟨field_add_unit (by omega) hr,
    field_add_unit_of_disjoint (by omega) hr (Or.inr le_rfl),
    funext fun i => getLsbD_add_unit (by omega) hr (by omega),
    field_add_unit_of_disjoint (by omega) hr (Or.inr (by omega))⟩

theorem fields_sub_refcountOne (h : 0 < w.getRefcount) :
    (w - bufRefcountOne).fields = { w.fields with refcount := w.getRefcount - 1 } := by
  rw [getRefcount_eq_field] at h
  rw [bufRefcountOne_eq]
  have hs := field_sub_unit h
  simp only [fields, getRefcount_eq_field, getUsagecount_eq_field, Fields.mk.injEq]
  exact ⟨by omega, field_sub_unit_of_disjoint (by omega) h (Or.inr le_rfl),
    funext fun i => getLsbD_sub_unit (by omega) h (by omega),
    field_sub_unit_of_disjoint (by omega) h (Or.inr (by omega))⟩

theorem fields_add_usagecountOne (h : w.getUsagecount < bmMaxUsageCount) :
    (w + bufUsagecountOne).fields = { w.fields with usagecount := w.getUsagecount + 1 } := by
  rw [getUsagecount_eq_field, bmMaxUsageCount] at h
  have hu : field 18 4 w + 1 < 2 ^ 4 := by omega
  rw [bufUsagecountOne_eq]
  simp only [fields, getRefcount_eq_field, getUsagecount_eq_field, Fields.mk.injEq]
  exact ⟨field_add_unit_of_disjoint (by omega) hu (Or.inl le_rfl), field_add_unit (by omega) hu,
    funext fun i => getLsbD_add_unit (by omega) hu (by omega),
    field_add_unit_of_disjoint (by omega) hu (Or.inr (by omega))⟩

theorem fields_sub_usagecountOne (h : 0 < w.getUsagecount) :
    (w - bufUsagecountOne).fields = { w.fields with usagecount := w.getUsagecount - 1 } := by
  rw [getUsagecount_eq_field] at h
  rw [bufUsagecountOne_eq]
  have hs := field_sub_unit h
  simp only [fields, getRefcount_eq_field, getUsagecount_eq_field, Fields.mk.injEq]
  exact ⟨field_sub_unit_of_disjoint (by omega) h (Or.inl le_rfl), by omega,
    funext fun i => getLsbD_sub_unit (by omega) h (by omega),
    field_sub_unit_of_disjoint (by omega) h (Or.inr (by omega))⟩

end Units

section Masks

variable {w m : BufState}

/-- The bits of the mask are flags. -/
def FlagsOnly (m : BufState) : Prop := ∀ i < 64, m.getLsbD i = true → 22 ≤ i ∧ i < 34

instance (m : BufState) : Decidable (FlagsOnly m) := Nat.decidableBallLT _ _

theorem FlagsOnly.getLsbD_eq_false (hm : FlagsOnly m) {i : ℕ} (hi : i < 22 ∨ 34 ≤ i) :
    m.getLsbD i = false := by
  by_contra hb
  rw [Bool.not_eq_false] at hb
  have := hm i (BitVec.lt_of_getLsbD hb) hb
  omega

theorem fields_eq_of_flags {v : BufState} (h : ∀ i, i < 22 ∨ 34 ≤ i → v.getLsbD i = w.getLsbD i) :
    v.fields = { w.fields with flags := v.fields.flags } := by
  simp only [fields, getRefcount_eq_field, getUsagecount_eq_field, Fields.mk.injEq, true_and]
  exact ⟨field_congr fun i _ => h _ (by omega), field_congr fun i _ => h _ (by omega),
    field_congr fun i _ => h _ (by omega)⟩

theorem fields_or (hm : FlagsOnly m) :
    (w ||| m).fields = { w.fields with flags := fun i => w.fields.flags i || m.fields.flags i } := by
  rw [fields_eq_of_flags (w := w) fun i hi => by simp [hm.getLsbD_eq_false hi]]
  simp [fields]

theorem fields_andNot (hm : FlagsOnly m) :
    (w &&& ~~~m).fields =
      { w.fields with flags := fun i => w.fields.flags i && !m.fields.flags i } := by
  rw [fields_eq_of_flags (w := w) fun i hi => by
    simp only [BitVec.getLsbD_and, BitVec.getLsbD_not, hm.getLsbD_eq_false hi]
    by_cases h64 : i < 64
    · simp [h64]
    · simp [BitVec.getLsbD_of_ge w i (by omega)]]
  simp only [fields, Fields.mk.injEq, true_and, and_true]
  funext i
  have : 22 + (i : ℕ) < 64 := by omega
  simp [this]

theorem fields_sub_bmLocked (h : w.fields.flags 0 = true) :
    (w - bmLocked).fields = { w.fields with flags := update w.fields.flags 0 false } := by
  have h1 : field 22 1 w = 1 := (field_one_eq_one_iff 22 w).mpr h
  have h0 : 0 < field 22 1 w := by omega
  have hs := field_sub_unit h0
  rw [bmLocked_eq, fields_eq_of_flags (w := w)]
  · simp only [fields, Fields.mk.injEq, true_and, and_true]
    funext i
    by_cases hi : i = 0
    · subst hi
      rw [update_self, ← Bool.not_eq_true]
      exact fun hb => by
        have := (field_one_eq_one_iff 22 _).mpr hb
        omega
    · rw [update_of_ne hi]
      exact getLsbD_sub_unit (by omega) h0 (by omega)
  · rintro i (hi | hi)
    · rw [Bool.eq_iff_iff, ← field_one_eq_one_iff, ← field_one_eq_one_iff,
        field_sub_unit_of_disjoint (by omega) h0 (Or.inl (by omega))]
    · exact getLsbD_sub_unit (by omega) h0 (by omega)

theorem fields_andNot_bmLocked :
    (w &&& ~~~bmLocked).fields =
      { w.fields with flags := update w.fields.flags 0 false } := by
  have hl : ∀ i, bmLocked.fields.flags i = decide (i = 0) := by decide
  rw [fields_andNot (by decide)]
  simp only [Fields.mk.injEq, true_and, and_true]
  funext i
  by_cases hi : i = 0 <;> simp [hl, hi]

theorem fields_or_bmLocked :
    (w ||| bmLocked).fields =
      { w.fields with flags := update w.fields.flags 0 true } := by
  have hl : ∀ i, bmLocked.fields.flags i = decide (i = 0) := by decide
  rw [fields_or (by decide)]
  simp only [Fields.mk.injEq, true_and, and_true]
  funext i
  by_cases hi : i = 0 <;> simp [hl, hi]

theorem getLsbD_bufUsagecountMask (i : ℕ) :
    bufUsagecountMask.getLsbD i = (decide (18 ≤ i) && decide (i < 22)) := by
  by_cases hi : i < 64
  · have : ∀ i < 64, bufUsagecountMask.getLsbD i = (decide (18 ≤ i) && decide (i < 22)) := by
      decide
    exact this i hi
  · rw [BitVec.getLsbD_of_ge _ _ (by omega)]
    simp
    omega

theorem fields_andNot_usagecountMask :
    (w &&& ~~~bufUsagecountMask).fields = { w.fields with usagecount := 0 } := by
  have hb : ∀ i, (i < 18 ∨ 22 ≤ i) → (w &&& ~~~bufUsagecountMask).getLsbD i = w.getLsbD i := by
    intro i hi
    by_cases h64 : i < 64
    · have : bufUsagecountMask.getLsbD i = false := by
        rw [getLsbD_bufUsagecountMask]
        simp
        omega
      rw [BitVec.getLsbD_and, BitVec.getLsbD_not, this]
      simp [h64]
    · simp [BitVec.getLsbD_of_ge w i (by omega)]
  simp only [fields, getRefcount_eq_field, getUsagecount_eq_field, Fields.mk.injEq]
  refine ⟨field_congr fun i _ => hb _ (by omega), field_eq_zero fun i hi => ?_,
    funext fun i => hb _ (by omega), field_congr fun i _ => hb _ (by omega)⟩
  have : bufUsagecountMask.getLsbD (18 + i) = true := by
    rw [getLsbD_bufUsagecountMask]
    simp
    omega
  simp [this]

theorem fields_or_usagecountOne :
    (w ||| bufUsagecountOne).fields = { w.fields with usagecount := w.getUsagecount ||| 1 } := by
  have h0 : field 0 18 bufUsagecountOne = 0 := by decide
  have h1 : field 18 4 bufUsagecountOne = 1 := by decide
  have h2 : field 34 30 bufUsagecountOne = 0 := by decide
  have hf : ∀ i : Fin 12, bufUsagecountOne.getLsbD (22 + i) = false := by decide
  simp [fields, getRefcount_eq_field, getUsagecount_eq_field, field_or, h0, h1, h2, hf]

end Masks

/-! ## The words written by the buffer manager -/

section Updates

variable {w s u : BufState}

/-- What `PinBuffer` does to the fields. -/
def Fields.pin (f : Fields) (strategy : Bool) : Fields :=
  { f with
    refcount := f.refcount + 1
    usagecount :=
      if strategy then
        if f.usagecount = 0 then f.usagecount + 1 else f.usagecount
      else
        if f.usagecount < bmMaxUsageCount then f.usagecount + 1 else f.usagecount }

theorem fields_pin (h : w.getRefcount < maxBackends) (strategy : Bool) :
    (w.pin strategy).fields = w.fields.pin strategy := by
  have hr := fields_add_refcountOne h
  have hu : (w + bufRefcountOne).getUsagecount = w.getUsagecount :=
    congrArg Fields.usagecount hr
  have hs : w.getUsagecount < bmMaxUsageCount →
      (w + bufRefcountOne + bufUsagecountOne).fields =
        { w.fields with refcount := w.getRefcount + 1, usagecount := w.getUsagecount + 1 } := by
    intro hlt
    rw [fields_add_usagecountOne (by rwa [hu]), hr, hu]
  simp only [BufState.pin, Fields.pin, hu]
  cases strategy
  · by_cases hlt : w.getUsagecount < bmMaxUsageCount
    · simpa [hlt, fields] using hs hlt
    · simpa [hlt, fields] using hr
  · by_cases h0 : w.getUsagecount = 0
    · simpa [h0, fields] using hs (by simp [h0, bmMaxUsageCount])
    · simpa [h0, fields] using hr

theorem and_not_zero : w &&& ~~~0 = w := by
  rw [show (0 : BufState) = 0#64 from rfl, BitVec.not_zero, BitVec.and_allOnes]

theorem or_zero : w ||| 0 = w := BitVec.or_zero

theorem unlockExt_zero : w.unlockExt s u 0 = (w ||| s) &&& ~~~u &&& ~~~bmLocked := by
  simp [unlockExt]

theorem fields_unlockExt_flags (hs : FlagsOnly s) (hu : FlagsOnly u) :
    (w.unlockExt s u 0).fields =
      { w.fields with
        flags := update
          (fun i => (w.fields.flags i || s.fields.flags i) && !u.fields.flags i) 0 false } := by
  rw [unlockExt_zero, fields_andNot_bmLocked, fields_andNot hu, fields_or hs]

theorem fields_unlockExt_install (hs : FlagsOnly s) :
    (w.unlockExt (s ||| bufUsagecountOne) 0 0).fields =
      { w.fields with
        usagecount := w.getUsagecount ||| 1
        flags := update (fun i => w.fields.flags i || s.fields.flags i) 0 false } := by
  have he : w.unlockExt (s ||| bufUsagecountOne) 0 0 =
      (w ||| bufUsagecountOne ||| s) &&& ~~~bmLocked := by
    rw [unlockExt_zero, and_not_zero, BitVec.or_assoc, BitVec.or_comm s]
  rw [he, fields_andNot_bmLocked, fields_or hs, fields_or_usagecountOne]

theorem fields_unlockExt_clear :
    (w.unlockExt 0 (bufFlagMask ||| bufUsagecountMask) 0).fields =
      { w.fields with usagecount := 0, flags := fun _ => false } := by
  have he : w.unlockExt 0 (bufFlagMask ||| bufUsagecountMask) 0 =
      w &&& ~~~bufUsagecountMask &&& ~~~bufFlagMask &&& ~~~bmLocked := by
    rw [unlockExt_zero, or_zero, BitVec.not_or, BitVec.and_comm (~~~bufFlagMask),
      ← BitVec.and_assoc w]
  have hf : ∀ i, bufFlagMask.fields.flags i = true := by decide
  rw [he, fields_andNot_bmLocked, fields_andNot (by decide), fields_andNot_usagecountMask]
  simp [hf]

theorem fields_unlockExt_pin (h : w.getRefcount < maxBackends) :
    (w.unlockExt 0 0 1).fields =
      { w.fields with
        refcount := w.getRefcount + 1
        flags := update w.fields.flags 0 false } := by
  have he : w.unlockExt 0 0 1 = (w &&& ~~~bmLocked) + bufRefcountOne := by
    rw [unlockExt, and_not_zero, or_zero]
    rfl
  have hl := fields_andNot_bmLocked (w := w)
  have hr : (w &&& ~~~bmLocked).getRefcount = w.getRefcount := congrArg Fields.refcount hl
  rw [he, fields_add_refcountOne (by rwa [hr]), hl, hr]

end Updates

end PostgreSieve
