import Mathlib
import PostgreSieve.Ranges.Basic

/-! # The order of bounds

A bound is a place between the elements of the subtype: just before, at or just after a value, or
beyond all of them. `range_cmp_bounds` is the order of the places, a range is an interval of places,
and two ranges are adjacent when no place lies between them.
-/

namespace PostgreSieve.Ranges

/-- Just before, at and just after a value are numbered 0, 1 and 2. -/
abbrev Key (α : Type) := WithBot (WithTop (α ×ₗ Fin 3))

variable {α : Type}

def Key.place (v : α) (i : Fin 3) : Key α := ((toLex (v, i) : α ×ₗ Fin 3) : WithTop (α ×ₗ Fin 3))

/-- The place of an element. -/
def Key.point (x : α) : Key α := Key.place x 1

def RangeBound.key (b : RangeBound α) : Key α :=
  match b.val with
  | none => if b.lower then ⊥ else ⊤
  | some v => Key.place v (if b.inclusive then 1 else if b.lower then 2 else 0)

variable [LinearOrder α]
variable {i j : Fin 3}

theorem Key.place_lt_place {v w : α} :
    Key.place v i < Key.place w j ↔ v < w ∨ v = w ∧ i < j := by
  simp [Key.place, Prod.Lex.toLex_lt_toLex]

theorem Key.place_le_place {v w : α} :
    Key.place v i ≤ Key.place w j ↔ v < w ∨ v = w ∧ i ≤ j := by
  simp [Key.place, Prod.Lex.toLex_le_toLex]

theorem Key.bot_lt_place (v : α) (i : Fin 3) : ⊥ < Key.place v i := WithBot.bot_lt_coe _

theorem Key.place_lt_top (v : α) (i : Fin 3) : Key.place v i < ⊤ := by
  apply WithBot.coe_lt_coe.mpr
  exact WithTop.coe_lt_top _

theorem Key.bot_lt_top : (⊥ : Key α) < ⊤ := WithBot.bot_lt_coe _

theorem rangeCmpBounds_eq (b1 b2 : RangeBound α) : rangeCmpBounds b1 b2 = cmp b1.key b2.key := by
  symm
  obtain ⟨_ | v, i, l⟩ := b1 <;> obtain ⟨_ | w, j, m⟩ := b2
  · cases l <;> cases m <;>
      simp [rangeCmpBounds, RangeBound.key, cmp_eq_lt_iff, cmp_eq_gt_iff]
  · cases l <;>
      simp [rangeCmpBounds, RangeBound.key, cmp_eq_lt_iff, cmp_eq_gt_iff, Key.bot_lt_place,
        Key.place_lt_top]
  · cases m <;>
      simp [rangeCmpBounds, RangeBound.key, cmp_eq_lt_iff, cmp_eq_gt_iff, Key.bot_lt_place,
        Key.place_lt_top]
  · rcases lt_trichotomy v w with h | rfl | h
    · simp [rangeCmpBounds, RangeBound.key, cmp_eq_lt_iff, Key.place_lt_place, h,
        (cmp_eq_lt_iff v w).mpr h]
    · cases i <;> cases j <;> cases l <;> cases m <;>
        simp [rangeCmpBounds, RangeBound.key, cmp_eq_lt_iff, cmp_eq_gt_iff, Key.place_lt_place]
    · simp [rangeCmpBounds, RangeBound.key, cmp_eq_gt_iff, Key.place_lt_place, h,
        (cmp_eq_gt_iff v w).mpr h]

omit [LinearOrder α] in
theorem Key.cases (k : Key α) : k = ⊥ ∨ k = ⊤ ∨ ∃ v i, k = Key.place v i := by
  induction k using WithBot.recBotCoe with
  | bot => exact Or.inl rfl
  | coe k =>
    induction k using WithTop.recTopCoe with
    | top => exact Or.inr (Or.inl rfl)
    | coe k => exact Or.inr (Or.inr ⟨(ofLex k).1, (ofLex k).2, rfl⟩)

theorem Key.place_covBy {v : α} (h : i.val + 1 = j.val) :
    Key.place v i ⋖ Key.place v j := by
  constructor
  · exact Key.place_lt_place.mpr (Or.inr ⟨rfl, by omega⟩)
  · intro k hi hj
    obtain rfl | rfl | ⟨w, m, rfl⟩ := k.cases
    · exact not_lt_bot hi
    · exact not_top_lt hj
    · rw [Key.place_lt_place] at hi hj
      obtain hi | ⟨rfl, hi⟩ := hi <;> obtain hj | ⟨h', hj⟩ := hj
      · exact lt_asymm hi hj
      · exact hi.ne' h'
      · exact lt_irrefl _ hj
      · omega

/-! ## Bounds as the ranges have them -/

/-- A bound of one side, with the flags of an infinite bound as they are stored. -/
structure BoundOk (Form : RangeBound α → Prop) (side : Bool) (b : RangeBound α) : Prop where
  lower : b.lower = side
  inclusive : b.inclusive = true → b.val.isSome = true
  form : Form b

/-- A range type whose canonicalization function leaves bounds of a certain form alone, and where
there is an element between any two bounds of the form that have room between them. -/
structure Regular (T : TypeCache α) (Form : RangeBound α → Prop) : Prop where
  flip : ∀ b, Form b → Form b.flip
  canonical : ∀ c l u, T.canonical = some c → BoundOk Form true l → BoundOk Form false u →
    l.key ≤ u.key → c (.bounds l u) = .ok (.bounds l u)
  full : ∀ l u, BoundOk Form true l → BoundOk Form false u → l.val.isSome = true →
    u.val.isSome = true → l.key ≤ u.key → ∃ x, l.key ≤ Key.point x ∧ Key.point x ≤ u.key
  gap : ∀ u l, BoundOk Form false u → BoundOk Form true l → u.key < l.key → ¬ u.key ⋖ l.key →
    ∃ x, u.key < Key.point x ∧ Key.point x < l.key

section

variable {T : TypeCache α} {Form : RangeBound α → Prop} {l u l1 l2 u1 u2 : RangeBound α}
variable {b : RangeBound α} {side : Bool}

omit [LinearOrder α] in
theorem BoundOk.flags (h : BoundOk Form side b) : b.flags = b := by
  obtain ⟨val, inclusive, lower⟩ := b
  cases inclusive
  · simp [RangeBound.flags]
  · simp [RangeBound.flags, h.inclusive rfl]

theorem Regular.boundOk_flip (hT : Regular T Form)
    (h : BoundOk Form side b) (hval : b.val.isSome = true) : BoundOk Form (!side) b.flip where
  lower := by simp [RangeBound.flip, h.lower]
  inclusive _ := hval
  form := hT.flip b h.form

/-- The upper bound just before a lower bound. -/
theorem Regular.flip_lower (hT : Regular T Form) (hl : BoundOk Form true l) (h : ⊥ < l.key) :
    BoundOk Form false l.flip ∧ l.flip.key ⋖ l.key := by
  obtain ⟨_ | v, i, lower⟩ := l <;> obtain rfl : lower = true := hl.lower
  · exact absurd h (lt_irrefl _)
  · exact ⟨hT.boundOk_flip hl rfl, by cases i <;> exact Key.place_covBy rfl⟩

theorem Regular.flip_upper (hT : Regular T Form) (hu : BoundOk Form false u) (h : u.key < ⊤) :
    BoundOk Form true u.flip ∧ u.key ⋖ u.flip.key := by
  obtain ⟨_ | v, i, lower⟩ := u <;> obtain rfl : lower = false := hu.lower
  · exact absurd h (lt_irrefl _)
  · exact ⟨hT.boundOk_flip hu rfl, by cases i <;> exact Key.place_covBy rfl⟩

theorem rangeSerialize_ok (hl : BoundOk Form true l) (hu : BoundOk Form false u)
    (h : l.key ≤ u.key) : rangeSerialize l u false = .ok (.bounds l u) := by
  have hfl := hl.flags
  have hfu := hu.flags
  obtain ⟨a, i, low⟩ := l
  obtain ⟨b, j, low'⟩ := u
  obtain rfl : low = true := hl.lower
  obtain rfl : low' = false := hu.lower
  simp only [rangeSerialize, hfl, hfu]
  cases a with
  | none => cases b <;> simp [rangeCmpBoundValues]
  | some v =>
    cases b with
    | none => simp [rangeCmpBoundValues]
    | some w =>
      simp only [RangeBound.key, Key.place_le_place] at h
      obtain h | ⟨rfl, h⟩ := h
      · simp [rangeCmpBoundValues, (cmp_eq_lt_iff v w).mpr h]
      · cases i <;> cases j <;> simp_all [rangeCmpBoundValues]

theorem Regular.makeRange_ok (hT : Regular T Form) (hl : BoundOk Form true l)
    (hu : BoundOk Form false u) (h : l.key ≤ u.key) : makeRange T l u = .ok (.bounds l u) := by
  simp only [makeRange, rangeSerialize_ok hl hu h]
  cases hc : T.canonical with
  | none => rfl
  | some c => exact hT.canonical c l u hc hl hu h

theorem Key.not_covBy_of_lt {v w : α} {i j : Fin 3} (h : v < w) (hi : i ≠ 2) :
    ¬ Key.place v i ⋖ Key.place w j := by
  rintro ⟨-, hbetween⟩
  apply @hbetween (Key.place v 2)
  · exact Key.place_lt_place.mpr (Or.inr ⟨rfl, by omega⟩)
  · exact Key.place_lt_place.mpr (Or.inl h)

variable (hT : Regular T Form) (hu : BoundOk Form false u) (hl : BoundOk Form true l)
include hT hu hl

/-- For two values in order, there is room between the bounds turned outside in. -/
theorem Regular.boundsAdjacent_of_lt {v w : α} (hv : u.val = some v) (hw : l.val = some w) (h : v < w) :
    boundsAdjacent T u l = .ok false := by
  have hcmp : rangeCmpBoundValues u l = .lt := by
    simp [rangeCmpBoundValues, hv, hw, (cmp_eq_lt_iff v w).mpr h]
  have hmake : makeRange T { u with inclusive := !u.inclusive, lower := true }
      { l with inclusive := !l.inclusive, lower := false } = .ok (.bounds u.flip l.flip) := by
    have hok := hT.makeRange_ok (hT.boundOk_flip hu (by simp [hv]))
      (hT.boundOk_flip hl (by simp [hw]))
      (by simp [RangeBound.key, RangeBound.flip, hv, hw, Key.place_le_place, h])
    simpa [RangeBound.flip, hu.lower, hl.lower] using hok
  simp only [boundsAdjacent, hcmp, hmake]
  cases T.canonical <;> rfl

theorem Regular.boundsAdjacent_ok :
    ∃ b, boundsAdjacent T u l = .ok b ∧ (b = true ↔ u.key ⋖ l.key) := by
  obtain ⟨a, i, low⟩ := u
  obtain ⟨b, j, low'⟩ := l
  obtain rfl : low = false := hu.lower
  obtain rfl : low' = true := hl.lower
  cases a with
  | none =>
    refine ⟨false, ?_, by simp [RangeBound.key]⟩
    cases b <;> rfl
  | some v =>
    cases b with
    | none => exact ⟨false, rfl, by simp [RangeBound.key]⟩
    | some w =>
      rcases lt_trichotomy v w with h | rfl | h
      · refine ⟨false, hT.boundsAdjacent_of_lt hu hl rfl rfl h, ?_⟩
        simp only [RangeBound.key, Bool.false_eq_true, false_iff]
        apply Key.not_covBy_of_lt h
        split <;> decide
      · refine ⟨i != j, by simp [boundsAdjacent, rangeCmpBoundValues], ?_⟩
        have h01 : Key.place v 0 ⋖ Key.place v 1 := Key.place_covBy rfl
        have h12 : Key.place v 1 ⋖ Key.place v 2 := Key.place_covBy rfl
        cases i <;> cases j
        · simpa [RangeBound.key] using fun h : Key.place v 0 ⋖ Key.place v 2 => h.2 h01.1 h12.1
        · simpa [RangeBound.key] using h01
        · simpa [RangeBound.key] using h12
        · simp [RangeBound.key]
      · refine ⟨false, by simp [boundsAdjacent, rangeCmpBoundValues, (cmp_eq_gt_iff v w).mpr h], ?_⟩
        simp only [Bool.false_eq_true, false_iff]
        intro hcov
        obtain h' | ⟨rfl, -⟩ := Key.place_lt_place.mp hcov.1
        · exact lt_asymm h h'
        · exact lt_irrefl _ h

end

/-! ## Ranges as intervals of places -/

def RangeType.lo : RangeType α → Key α
  | .empty => ⊤
  | .bounds l _ => l.key

def RangeType.hi : RangeType α → Key α
  | .empty => ⊥
  | .bounds _ u => u.key

/-- The places in a range. -/
def RangeType.span (r : RangeType α) : Set (Key α) := Set.Icc r.lo r.hi

/-- A range that is not empty, with its bounds as they are stored. -/
inductive Proper (Form : RangeBound α → Prop) : RangeType α → Prop
  | bounds {l u : RangeBound α} (hl : BoundOk Form true l) (hu : BoundOk Form false u)
      (h : l.key ≤ u.key) : Proper Form (.bounds l u)

section

variable {T : TypeCache α} {Form : RangeBound α → Prop} {r r1 r2 : RangeType α}

theorem RangeType.span_empty : (RangeType.empty : RangeType α).span = ∅ :=
  Set.Icc_eq_empty (not_le.mpr Key.bot_lt_top)

theorem Proper.lo_le_hi (h : Proper Form r) : r.lo ≤ r.hi := by
  cases h with | bounds _ _ h => exact h

theorem Proper.isEmpty (h : Proper Form r) : r.isEmpty = false := by
  cases h with | bounds => rfl

section

variable (h1 : Proper Form r1) (h2 : Proper Form r2)
include h1 h2

theorem Proper.before_iff :
    rangeBeforeInternal r1 r2 = true ↔ r1.hi < r2.lo := by
  cases h1 with | bounds
  cases h2 with | bounds
  simp [rangeBeforeInternal, rangeCmpBounds_eq, RangeType.lo, RangeType.hi]

theorem Proper.overlaps_iff :
    rangeOverlapsInternal r1 r2 = true ↔
      (r2.lo ≤ r1.lo ∧ r1.lo ≤ r2.hi) ∨ (r1.lo ≤ r2.lo ∧ r2.lo ≤ r1.hi) := by
  cases h1 with | bounds
  cases h2 with | bounds
  simp [rangeOverlapsInternal, rangeCmpBounds_eq, RangeType.lo, RangeType.hi]

theorem Proper.overleft_iff :
    rangeOverleftInternal r1 r2 = true ↔ r1.hi ≤ r2.hi := by
  cases h1 with | bounds
  cases h2 with | bounds
  simp [rangeOverleftInternal, rangeCmpBounds_eq, RangeType.hi]

end

theorem Regular.adjacent_ok (hT : Regular T Form) (h1 : Proper Form r1) (h2 : Proper Form r2) :
    ∃ b, rangeAdjacentInternal T r1 r2 = .ok b ∧
      (b = true ↔ r1.hi ⋖ r2.lo ∨ r2.hi ⋖ r1.lo) := by
  cases h1 with | bounds hl1 hu1
  cases h2 with | bounds hl2 hu2
  obtain ⟨b, hb, hiff⟩ := hT.boundsAdjacent_ok hu1 hl2
  obtain ⟨c, hc, hiff'⟩ := hT.boundsAdjacent_ok hu2 hl1
  refine ⟨b || c, ?_, by simp [RangeType.lo, RangeType.hi, hiff, hiff']⟩
  cases b <;> simp [rangeAdjacentInternal, hb, hc, bind, Except.bind, pure, Except.pure]

/-! ## What the operations build -/

section

variable (hT : Regular T Form) (h1 : Proper Form r1) (h2 : Proper Form r2)
include hT h1 h2

theorem Regular.split_some (hlo : r1.lo < r2.lo) (hhi : r2.hi < r1.hi) :
    ∃ a b, rangeSplitInternal T r1 r2 = .ok (some (a, b)) ∧ Proper Form a ∧ Proper Form b ∧
      a.lo = r1.lo ∧ a.hi ⋖ r2.lo ∧ r2.hi ⋖ b.lo ∧ b.hi = r1.hi := by
  cases h1 with | bounds hl1 hu1
  cases h2 with | bounds hl2 hu2
  simp only [RangeType.lo, RangeType.hi] at hlo hhi
  obtain ⟨hfl, hcl⟩ := hT.flip_lower hl2 (bot_le.trans_lt hlo)
  obtain ⟨hfu, hcu⟩ := hT.flip_upper hu2 (hhi.trans_le le_top)
  have ha := hcl.le_of_lt hlo
  have hb := hcu.ge_of_gt hhi
  refine ⟨_, _, ?_, .bounds hl1 hfl ha, .bounds hfu hu1 hb, rfl, hcl, hcu, rfl⟩
  simp only [rangeSplitInternal, rangeCmpBounds_eq, (cmp_eq_lt_iff _ _).mpr hlo,
    (cmp_eq_gt_iff _ _).mpr hhi, hT.makeRange_ok hl1 hfl ha, hT.makeRange_ok hfu hu1 hb]
  rfl

theorem Regular.minus_left (hlo : r1.lo < r2.lo) (hin : r2.lo ≤ r1.hi) (hhi : r1.hi ≤ r2.hi) :
    ∃ a, rangeMinusInternal T r1 r2 = .ok a ∧ Proper Form a ∧ a.lo = r1.lo ∧ a.hi ⋖ r2.lo := by
  cases h1 with | bounds hl1 hu1
  cases h2 with | bounds hl2 hu2
  simp only [RangeType.lo, RangeType.hi] at hlo hin hhi
  obtain ⟨hfl, hcl⟩ := hT.flip_lower hl2 (bot_le.trans_lt hlo)
  have ha := hcl.le_of_lt hlo
  refine ⟨_, ?_, .bounds hl1 hfl ha, rfl, hcl⟩
  simp [rangeMinusInternal, rangeCmpBounds_eq, hlo, hlo.le, hhi.not_gt, hin.not_gt,
    (hlo.le.trans (hin.trans hhi)).not_gt, hT.makeRange_ok hl1 hfl ha]

theorem Regular.minus_right (hlo : r2.lo ≤ r1.lo) (hin : r1.lo ≤ r2.hi) (hhi : r2.hi < r1.hi) :
    ∃ b, rangeMinusInternal T r1 r2 = .ok b ∧ Proper Form b ∧ r2.hi ⋖ b.lo ∧ b.hi = r1.hi := by
  cases h1 with | bounds hl1 hu1
  cases h2 with | bounds hl2 hu2
  simp only [RangeType.lo, RangeType.hi] at hlo hin hhi
  obtain ⟨hfu, hcu⟩ := hT.flip_upper hu2 (hhi.trans_le le_top)
  have hb := hcu.ge_of_gt hhi
  refine ⟨_, ?_, .bounds hfu hu1 hb, hcu, rfl⟩
  simp [rangeMinusInternal, rangeCmpBounds_eq, hhi, hhi.le, hlo.not_gt, hin.not_gt,
    (hlo.trans (hin.trans hhi.le)).not_gt, hT.makeRange_ok hfu hu1 hb]

end

theorem Proper.split_none (h1 : Proper Form r1) (h2 : Proper Form r2)
    (h : r1.lo < r2.lo → r1.hi ≤ r2.hi) : rangeSplitInternal T r1 r2 = .ok none := by
  cases h1 with | bounds
  cases h2 with | bounds
  simp only [rangeSplitInternal, rangeCmpBounds_eq, cmp_eq_lt_iff, cmp_eq_gt_iff]
  rw [if_neg]
  rintro ⟨hlo, hhi⟩
  exact not_lt.mpr (h hlo) hhi

theorem Proper.minus_within (h1 : Proper Form r1) (h2 : Proper Form r2) (hlo : r2.lo ≤ r1.lo)
    (hhi : r1.hi ≤ r2.hi) : rangeMinusInternal T r1 r2 = .ok .empty := by
  have hle := h1.lo_le_hi
  cases h1 with | bounds
  cases h2 with | bounds
  simp only [RangeType.lo, RangeType.hi] at hlo hhi hle
  simp [rangeMinusInternal, rangeCmpBounds_eq, hhi, hlo.not_gt, (hlo.trans hle).not_gt,
    (hle.trans hhi).not_gt]

section

variable {side : Bool} {b1 b2 : RangeBound α}

omit [LinearOrder α] in
theorem chosen_ok {c : Prop} [Decidable c] {k : Key α} (h1 : BoundOk Form side b1) (h2 : BoundOk Form side b2)
    (hc : c → b1.key = k) (hn : ¬c → b2.key = k) :
    BoundOk Form side (if c then b1 else b2) ∧ (if c then b1 else b2).key = k := by
  split_ifs with h
  · exact ⟨h1, hc h⟩
  · exact ⟨h2, hn h⟩

theorem rangeCmpBounds_lt : rangeCmpBounds b1 b2 = .lt ↔ b1.key < b2.key := by
  rw [rangeCmpBounds_eq, cmp_eq_lt_iff]

theorem rangeCmpBounds_gt : rangeCmpBounds b1 b2 = .gt ↔ b2.key < b1.key := by
  rw [rangeCmpBounds_eq, cmp_eq_gt_iff]

end

section

variable (hT : Regular T Form) (h1 : Proper Form r1) (h2 : Proper Form r2)
include hT h1 h2

theorem Regular.union_ok (strict : Bool) (hlo : r1.lo ≤ r2.lo)
    (hstrict : strict = true → r2.lo ≤ r1.hi) :
    ∃ r, rangeUnionInternal T r1 r2 strict = .ok r ∧ Proper Form r ∧ r.lo = r1.lo ∧
      r.hi = max r1.hi r2.hi := by
  have hoverlaps : (strict && !rangeOverlapsInternal r1 r2) = false := by
    cases strict
    · rfl
    · simpa using (h1.overlaps_iff h2).mpr (Or.inr ⟨hlo, hstrict rfl⟩)
  cases h1 with | @bounds l1 u1 hl1 hu1 hle1
  cases h2 with | @bounds l2 u2 hl2 hu2 hle2
  simp only [RangeType.lo] at hlo
  obtain ⟨hlok, hlkey⟩ := chosen_ok (c := rangeCmpBounds l1 l2 = .lt) (k := l1.key) hl1 hl2
    (by simp) (by grind [rangeCmpBounds_lt])
  obtain ⟨huok, hukey⟩ := chosen_ok (c := rangeCmpBounds u1 u2 = .gt) (k := max u1.key u2.key)
    hu1 hu2 (by grind [rangeCmpBounds_gt]) (by grind [rangeCmpBounds_gt])
  have hle := (hlkey.trans_le (hle1.trans (le_max_left _ _))).trans_eq hukey.symm
  refine ⟨_, ?_, .bounds hlok huok hle, hlkey, hukey⟩
  simp only [rangeUnionInternal, hoverlaps, hT.makeRange_ok hlok huok hle]
  rfl

theorem Regular.intersect_ok (hoverlaps : rangeOverlapsInternal r1 r2 = true) :
    ∃ r, rangeIntersectInternal T r1 r2 = .ok r ∧ Proper Form r ∧ r.lo = max r1.lo r2.lo ∧
      r.hi = min r1.hi r2.hi := by
  have hcases := (h1.overlaps_iff h2).mp hoverlaps
  cases h1 with | @bounds l1 u1 hl1 hu1 hle1
  cases h2 with | @bounds l2 u2 hl2 hu2 hle2
  simp only [RangeType.lo, RangeType.hi] at hcases ⊢
  obtain ⟨hlok, hlkey⟩ := chosen_ok (c := rangeCmpBounds l1 l2 ≠ .lt) (k := max l1.key l2.key)
    hl1 hl2 (by grind [rangeCmpBounds_lt]) (by grind [rangeCmpBounds_lt])
  obtain ⟨huok, hukey⟩ := chosen_ok (c := rangeCmpBounds u1 u2 ≠ .gt) (k := min u1.key u2.key)
    hu1 hu2 (by grind [rangeCmpBounds_gt]) (by grind [rangeCmpBounds_gt])
  have hle : max l1.key l2.key ≤ min u1.key u2.key := by grind
  rw [← hlkey, ← hukey] at hle
  refine ⟨_, ?_, .bounds hlok huok hle, hlkey, hukey⟩
  simp only [rangeIntersectInternal, hoverlaps, hT.makeRange_ok hlok huok hle]
  rfl

end

end

end PostgreSieve.Ranges
