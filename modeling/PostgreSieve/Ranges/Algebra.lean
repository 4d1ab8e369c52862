import PostgreSieve.Ranges.Merge
import PostgreSieve.Runs.Checked

/-! # The algebra of multiranges

The sets of elements that the multirange operations denote, for a dense subtype without a
canonicalization function and for the integers with `int4range_canonical`.
-/

namespace PostgreSieve.Ranges

section

variable {α : Type} [LinearOrder α]

/-- An element is on the inner side of a bound. -/
def RangeBound.Admits (b : RangeBound α) (x : α) : Prop :=
  match b.val, b.lower, b.inclusive with
  | none, _, _ => True
  | some v, true, true => v ≤ x
  | some v, true, false => v < x
  | some v, false, true => x ≤ v
  | some v, false, false => x < v

def RangeType.Contains : RangeType α → α → Prop
  | .empty, _ => False
  | .bounds lower upper, x => lower.Admits x ∧ upper.Admits x

/-- The elements that a list of ranges denotes. -/
def elements (ranges : List (RangeType α)) : Set α := {x | ∃ r ∈ ranges, r.Contains x}

/-- A range value of the type. -/
def Built (T : TypeCache α) (r : RangeType α) : Prop :=
  r = .empty ∨ ∃ lower upper, lower.lower = true ∧ upper.lower = false ∧
    makeRange T lower upper = .ok r

/-- The first range starts before the second. -/
def lowerBefore : RangeType α → RangeType α → Prop
  | .bounds lower1 _, .bounds lower2 _ => rangeCmpBounds lower1 lower2 = .lt
  | _, _ => False

def RangeType.finite : RangeType α → Bool
  | .empty => true
  | .bounds lower upper => lower.val.isSome && upper.val.isSome

/-- Ranges sorted by lower bound, none empty, without a common element and not adjacent. -/
structure Canonical (T : TypeCache α) (mr : List (RangeType α)) : Prop where
  nonempty : ∀ r ∈ mr, r.isEmpty = false
  inhabited : ∀ r ∈ mr, r.finite = true → ∃ x, r.Contains x
  sorted : mr.Pairwise lowerBefore
  disjoint : mr.Pairwise fun r1 r2 => rangeOverlapsInternal r1 r2 = false ∧
    ∀ x, ¬ (r1.Contains x ∧ r2.Contains x)
  nonadjacent : mr.Pairwise fun r1 r2 => rangeAdjacentInternal T r1 r2 = .ok false ∧
    ∃ x, (∀ y, r1.Contains y → y < x) ∧ ∀ y, r2.Contains y → x < y

variable {T : TypeCache α} {Form : RangeBound α → Prop} {r r1 r2 : RangeType α} {x : α}
  {mr ranges : List (RangeType α)}

variable {b l u : RangeBound α}

theorem BoundOk.admits_iff {side : Bool} (h : BoundOk Form side b) :
    b.Admits x ↔ if side then b.key ≤ Key.point x else Key.point x ≤ b.key := by
  obtain ⟨_ | v, i, lower⟩ := b
  · obtain rfl : lower = side := h.lower
    cases lower <;> simp [RangeBound.Admits, RangeBound.key]
  · obtain rfl : lower = side := h.lower
    cases lower <;> cases i <;>
      simp [RangeBound.Admits, RangeBound.key, Key.point, Key.place_le_place, ← le_iff_lt_or_eq]

theorem Proper.contains_iff (h : Proper Form r) : r.Contains x ↔ Key.point x ∈ r.span := by
  cases h with | bounds hl hu
  simp [RangeType.Contains, hl.admits_iff, hu.admits_iff, mem_span, RangeType.lo, RangeType.hi]

theorem mem_elements_iff (h : ∀ r ∈ ranges, r = .empty ∨ Proper Form r) :
    x ∈ elements ranges ↔ Key.point x ∈ places ranges := by
  refine exists_congr fun r => and_congr_right fun hr => ?_
  rcases h r hr with rfl | hp
  · simp [RangeType.Contains, RangeType.span_empty]
  · exact hp.contains_iff

theorem BoundOk.finite_of_lt (hu : BoundOk Form false u) (hl : BoundOk Form true l)
    (h : u.key < l.key) :
    ∃ v w i j, u = ⟨some v, i, false⟩ ∧ l = ⟨some w, j, true⟩ := by
  obtain ⟨_ | v, i, low⟩ := u <;> obtain rfl : low = false := hu.lower
  · exact absurd h not_top_lt
  obtain ⟨_ | w, j, low'⟩ := l <;> obtain rfl : low' = true := hl.lower
  · exact absurd h not_lt_bot
  exact ⟨v, w, i, j, rfl, rfl⟩

theorem Key.point_lt_point {x y : α} : Key.point x < Key.point y ↔ x < y := by
  simp [Key.point, Key.place_lt_place]

theorem Regular.inhabited (hT : Regular T Form) (h : Proper Form r) (hfinite : r.finite = true) :
    ∃ x, r.Contains x := by
  have hiff : ∀ x, r.Contains x ↔ Key.point x ∈ r.span := fun x => h.contains_iff
  cases h with | @bounds l u hl hu hle
  obtain ⟨hl', hu'⟩ := Bool.and_eq_true_iff.mp hfinite
  obtain ⟨x, hx⟩ := hT.full l u hl hu hl' hu' hle
  exact ⟨x, (hiff x).mpr hx⟩

theorem Regular.exists_between (hT : Regular T Form) (h1 : Proper Form r1) (h2 : Proper Form r2)
    (h : Apart r1 r2) : ∃ x, r1.hi < Key.point x ∧ Key.point x < r2.lo := by
  cases h1 with | bounds hl1 hu1
  cases h2 with | bounds hl2 hu2
  exact hT.gap _ _ hu1 hl2 h.1 h.2

theorem Proper.lowerBefore (h1 : Proper Form r1) (h2 : Proper Form r2) (h : r1.lo < r2.lo) :
    lowerBefore r1 r2 := by
  cases h1 with | bounds
  cases h2 with | bounds
  simpa [Ranges.lowerBefore, rangeCmpBounds_eq, RangeType.lo] using h

theorem Regular.canonical_of_separated (hT : Regular T Form) (h : Separated Form mr) :
    Canonical T mr := by
  have hpair : ∀ {R : RangeType α → RangeType α → Prop},
      (∀ r1 r2, Proper Form r1 → Proper Form r2 → Apart r1 r2 → R r1 r2) → mr.Pairwise R :=
    fun hR => h.apart.imp_of_mem fun hr1 hr2 => hR _ _ (h.proper _ hr1) (h.proper _ hr2)
  refine ⟨fun r hr => (h.proper r hr).isEmpty, fun r hr => hT.inhabited (h.proper r hr), ?_, ?_, ?_⟩
  · exact hpair fun r1 r2 h1 h2 hapart => h1.lowerBefore h2 (h1.lo_le_hi.trans_lt hapart.1)
  · refine hpair fun r1 r2 h1 h2 hapart => ⟨?_, fun x => ?_⟩
    · have hle1 := h1.lo_le_hi
      have hlt := hapart.1
      rw [Bool.eq_false_iff, Ne, h1.overlaps_iff h2]
      grind
    · rw [h1.contains_iff, h2.contains_iff]
      exact fun hx => (hx.1.2.trans_lt hapart.1).not_ge hx.2.1
  · refine hpair fun r1 r2 h1 h2 hapart => ⟨?_, ?_⟩
    · obtain ⟨b, hb, hiff⟩ := hT.adjacent_ok h1 h2
      have hback : ¬ r2.hi ⋖ r1.lo := fun hc =>
        (hc.lt.trans_le (h1.lo_le_hi.trans hapart.1.le)).not_ge h2.lo_le_hi
      cases b with
      | false => exact hb
      | true => exact absurd (hiff.mp rfl) (not_or.mpr ⟨hapart.2, hback⟩)
    · obtain ⟨x, hx1, hx2⟩ := hT.exists_between h1 h2 hapart
      refine ⟨x, fun y hy => ?_, fun y hy => ?_⟩
      · exact Key.point_lt_point.mp ((h1.contains_iff.mp hy).2.trans_lt hx1)
      · exact Key.point_lt_point.mp (hx2.trans_le (h2.contains_iff.mp hy).1)

/-- A multirange in canonical form with the given elements. -/
def Denotes (T : TypeCache α) (mr : List (RangeType α)) (s : Set α) : Prop :=
  Canonical T mr ∧ elements mr = s

/-- The operations on two multiranges. The arrays that the loops fill have room for
`range_count1 + range_count2` ranges. -/
structure Operations (T : TypeCache α) (mr1 mr2 : List (RangeType α)) : Prop where
  union : ∃ mr, multirangeUnion T mr1 mr2 = .ok mr ∧ Denotes T mr (elements mr1 ∪ elements mr2)
  minusInternal : mr2 ≠ [] → ∃ ranges3 mr, minusRanges T [] mr2 mr1 = .ok ranges3 ∧
    ranges3.length ≤ mr1.length + mr2.length ∧ multirangeMinusInternal T mr1 mr2 = .ok mr ∧
    Denotes T mr (elements mr1 \ elements mr2)
  minus : ∃ mr, multirangeMinus T mr1 mr2 = .ok mr ∧ Denotes T mr (elements mr1 \ elements mr2)
  intersectInternal : ∃ ranges3 mr, intersectRanges T [] mr2 mr1 = .ok ranges3 ∧
    ranges3.length ≤ mr1.length + mr2.length ∧ multirangeIntersectInternal T mr1 mr2 = .ok mr ∧
    Denotes T mr (elements mr1 ∩ elements mr2)
  intersect : ∃ mr, multirangeIntersect T mr1 mr2 = .ok mr ∧
    Denotes T mr (elements mr1 ∩ elements mr2)

theorem elements_nil : elements ([] : List (RangeType α)) = ∅ := by
  simp [elements]

theorem Separated.mem_elements (h : Separated Form mr) :
    x ∈ elements mr ↔ Key.point x ∈ places mr :=
  mem_elements_iff fun r hr => Or.inr (h.proper r hr)

theorem Regular.denotes (hT : Regular T Form) (h : Separated Form mr) : Denotes T mr (elements mr) :=
  ⟨hT.canonical_of_separated h, rfl⟩

theorem Regular.makeMultirange_denotes (hT : Regular T Form) {s : Set α}
    (h : ∀ r ∈ ranges, r = .empty ∨ Proper Form r) (hs : ∀ x, x ∈ s ↔ Key.point x ∈ places ranges) :
    ∃ mr, makeMultirange T ranges = .ok mr ∧ Separated Form mr ∧ Denotes T mr s := by
  obtain ⟨mr, heq, hsep, hplaces⟩ := hT.makeMultirange_ok h
  refine ⟨mr, heq, hsep, hT.canonical_of_separated hsep, ?_⟩
  ext x
  rw [hsep.mem_elements, hplaces, hs]

variable {mr1 mr2 : List (RangeType α)}

section

variable (hT : Regular T Form)
include hT

theorem Regular.intersect_empty (h : (mr1.isEmpty || mr2.isEmpty) = true) :
    ∃ mr, makeMultirange T [] = .ok mr ∧ Denotes T mr (elements mr1 ∩ elements mr2) := by
  have hempty : elements mr1 ∩ elements mr2 = ∅ := by
    rcases Bool.or_eq_true_iff.mp h with h | h
    · rw [List.isEmpty_iff.mp h, elements_nil, Set.empty_inter]
    · rw [List.isEmpty_iff.mp h, elements_nil, Set.inter_empty]
  have hnone : ∀ r ∈ ([] : List (RangeType α)), r = .empty ∨ Proper Form r := by simp
  obtain ⟨mr, heq, -, hmr⟩ := hT.makeMultirange_denotes hnone (s := ∅) (by simp [places_nil])
  exact ⟨mr, heq, hempty ▸ hmr⟩

variable (h1 : Separated Form mr1) (h2 : Separated Form mr2)
include h1 h2

theorem Regular.multirangeUnion_ok :
    ∃ mr, multirangeUnion T mr1 mr2 = .ok mr ∧ Denotes T mr (elements mr1 ∪ elements mr2) := by
  cases mr1 with
  | nil =>
    refine ⟨mr2, rfl, ?_⟩
    rw [elements_nil, Set.empty_union]
    exact hT.denotes h2
  | cons r1 mr1 =>
    cases mr2 with
    | nil =>
      refine ⟨r1 :: mr1, rfl, ?_⟩
      rw [elements_nil, Set.union_empty]
      exact hT.denotes h1
    | cons r2 mr2 =>
      have hproper : ∀ r ∈ (r1 :: mr1) ++ (r2 :: mr2), r = .empty ∨ Proper Form r :=
        fun r hr => Or.inr ((List.mem_append.mp hr).elim (h1.proper r) (h2.proper r))
      obtain ⟨mr, heq, -, hmr⟩ := hT.makeMultirange_denotes hproper
        (s := elements (r1 :: mr1) ∪ elements (r2 :: mr2))
        fun x => by rw [mem_places_append, Set.mem_union, h1.mem_elements, h2.mem_elements]
      exact ⟨mr, heq, hmr⟩

theorem Regular.multirangeMinusInternal_ok (hne : mr2 ≠ []) :
    ∃ ranges3 mr, minusRanges T [] mr2 mr1 = .ok ranges3 ∧
      ranges3.length ≤ mr1.length + mr2.length ∧ multirangeMinusInternal T mr1 mr2 = .ok mr ∧
      Denotes T mr (elements mr1 \ elements mr2) := by
  obtain ⟨ranges3, heq, hok, hplaces, hlen⟩ := hT.minusRanges_ok [] h1.ordered h2.ordered
  obtain ⟨mr, heq', -, hmr⟩ := hT.makeMultirange_denotes (s := elements mr1 \ elements mr2) hok
    fun x => by rw [hplaces, Set.mem_sdiff, Set.mem_sdiff, h1.mem_elements, h2.mem_elements]
  refine ⟨ranges3, mr, heq, hlen, ?_, hmr⟩
  have hnonempty : mr2.isEmpty = false := List.isEmpty_eq_false_iff.mpr hne
  simp only [multirangeMinusInternal, hnonempty, heq]
  exact heq'

theorem Regular.multirangeMinus_ok :
    ∃ mr, multirangeMinus T mr1 mr2 = .ok mr ∧ Denotes T mr (elements mr1 \ elements mr2) := by
  cases mr1 with
  | nil =>
    refine ⟨[], rfl, ?_⟩
    rw [elements_nil, Set.empty_sdiff, ← elements_nil]
    exact hT.denotes h1
  | cons r1 mr1 =>
    cases mr2 with
    | nil =>
      refine ⟨r1 :: mr1, rfl, ?_⟩
      rw [elements_nil, Set.sdiff_empty]
      exact hT.denotes h1
    | cons r2 mr2 =>
      obtain ⟨-, mr, -, -, heq, hmr⟩ := hT.multirangeMinusInternal_ok h1 h2 (List.cons_ne_nil r2 mr2)
      exact ⟨mr, heq, hmr⟩

theorem Regular.multirangeIntersectInternal_ok :
    ∃ ranges3 mr, intersectRanges T [] mr2 mr1 = .ok ranges3 ∧
      ranges3.length ≤ mr1.length + mr2.length ∧ multirangeIntersectInternal T mr1 mr2 = .ok mr ∧
      Denotes T mr (elements mr1 ∩ elements mr2) := by
  obtain ⟨ranges3, heq, hok, hplaces, hlen⟩ := hT.intersectRanges_ok [] h1.ordered h2.ordered
  cases hempty : mr1.isEmpty || mr2.isEmpty with
  | true =>
    obtain ⟨mr, heq', hmr⟩ := hT.intersect_empty hempty
    refine ⟨ranges3, mr, heq, hlen, ?_, hmr⟩
    simp only [multirangeIntersectInternal, hempty]
    exact heq'
  | false =>
    have hs : ∀ x, x ∈ elements mr1 ∩ elements mr2 ↔ Key.point x ∈ places ranges3 := fun x => by
      rw [hplaces, Set.mem_inter_iff, Set.mem_inter_iff, h1.mem_elements, h2.mem_elements]
    obtain ⟨mr, heq', -, hmr⟩ := hT.makeMultirange_denotes (fun r hr => Or.inr (hok r hr)) hs
    refine ⟨ranges3, mr, heq, hlen, ?_, hmr⟩
    simp only [multirangeIntersectInternal, hempty, heq]
    exact heq'

theorem Regular.multirangeIntersect_ok :
    ∃ mr, multirangeIntersect T mr1 mr2 = .ok mr ∧
      Denotes T mr (elements mr1 ∩ elements mr2) := by
  cases hempty : mr1.isEmpty || mr2.isEmpty with
  | true =>
    obtain ⟨mr, heq, hmr⟩ := hT.intersect_empty hempty
    refine ⟨mr, ?_, hmr⟩
    simp only [multirangeIntersect, hempty]
    exact heq
  | false =>
    obtain ⟨-, mr, -, -, heq, hmr⟩ := hT.multirangeIntersectInternal_ok h1 h2
    refine ⟨mr, ?_, hmr⟩
    simp only [multirangeIntersect, hempty]
    exact heq

end

/-- Multiranges made of any ranges of the type, and the operations on them. -/
def MultirangeAlgebra (T : TypeCache α) : Prop :=
  ∀ ranges1 ranges2, (∀ r ∈ ranges1, Built T r) → (∀ r ∈ ranges2, Built T r) →
    ∃ mr1 mr2, makeMultirange T ranges1 = .ok mr1 ∧ Denotes T mr1 (elements ranges1) ∧
      makeMultirange T ranges2 = .ok mr2 ∧ Denotes T mr2 (elements ranges2) ∧ Operations T mr1 mr2

theorem Regular.multirangeAlgebra (hT : Regular T Form)
    (hbuilt : ∀ r, Built T r → r = .empty ∨ Proper Form r) : MultirangeAlgebra T := by
  intro ranges1 ranges2 h1 h2
  have hmake : ∀ ranges, (∀ r ∈ ranges, Built T r) →
      ∃ mr, makeMultirange T ranges = .ok mr ∧ Separated Form mr ∧ Denotes T mr (elements ranges) :=
    fun ranges h => hT.makeMultirange_denotes (fun r hr => hbuilt r (h r hr))
      fun x => mem_elements_iff fun r hr => hbuilt r (h r hr)
  obtain ⟨mr1, heq1, hsep1, hmr1⟩ := hmake ranges1 h1
  obtain ⟨mr2, heq2, hsep2, hmr2⟩ := hmake ranges2 h2
  exact ⟨mr1, mr2, heq1, hmr1, heq2, hmr2,
    { union := hT.multirangeUnion_ok hsep1 hsep2
      minusInternal := hT.multirangeMinusInternal_ok hsep1 hsep2
      minus := hT.multirangeMinus_ok hsep1 hsep2
      intersectInternal := hT.multirangeIntersectInternal_ok hsep1 hsep2
      intersect := hT.multirangeIntersect_ok hsep1 hsep2 }⟩

/-! ## Range values -/

omit [LinearOrder α] in
theorem flags_inclusive (h : b.flags.inclusive = true) :
    b.flags.val.isSome = true :=
  (Bool.and_eq_true_iff.mp h).1

theorem rangeSerialize_built (hl : l.lower = true) (hu : u.lower = false)
    (hform : Form l.flags ∧ Form u.flags) (h : rangeSerialize l u false = .ok r) :
    r = .empty ∨ Proper Form r := by
  have hproper : l.flags.key ≤ u.flags.key → Proper Form (.bounds l.flags u.flags) :=
    .bounds ⟨hl, flags_inclusive, hform.1⟩ ⟨hu, flags_inclusive, hform.2⟩
  obtain ⟨a, i, low⟩ := l
  obtain ⟨b, j, low'⟩ := u
  obtain rfl : low = true := hl
  obtain rfl : low' = false := hu
  cases a with
  | none =>
    refine Or.inr (Except.ok.inj (Eq.trans ?_ h) ▸ hproper bot_le)
    cases b <;> rfl
  | some v =>
    cases b with
    | none => exact Or.inr (Except.ok.inj h ▸ hproper le_top)
    | some w =>
      rcases lt_trichotomy v w with hvw | rfl | hvw
      · simp only [rangeSerialize, rangeCmpBoundValues, (cmp_eq_lt_iff v w).mpr hvw] at h
        refine Or.inr (Except.ok.inj h ▸ hproper ?_)
        exact Key.place_le_place.mpr (Or.inl hvw)
      · cases i <;> cases j <;>
          simp only [rangeSerialize, rangeCmpBoundValues, cmp_self_eq_eq] at h
        · exact Or.inl (Except.ok.inj h).symm
        · exact Or.inl (Except.ok.inj h).symm
        · exact Or.inl (Except.ok.inj h).symm
        · exact Or.inr (Except.ok.inj h ▸ hproper le_rfl)
      · simp [rangeSerialize, rangeCmpBoundValues, (cmp_eq_gt_iff v w).mpr hvw] at h

/-! ## Dense subtypes -/

/-- A range type without a canonicalization function. -/
def continuous : TypeCache α where
  canonical := none

theorem continuous_built (h : Built continuous r) : r = .empty ∨ Proper (fun _ => True) r := by
  rcases h with rfl | ⟨l, u, hl, hu, h⟩
  · exact Or.inl rfl
  · apply rangeSerialize_built hl hu ⟨trivial, trivial⟩
    rw [← h, makeRange]
    rcases rangeSerialize l u false with _ | _ | _ <;> rfl

theorem continuous_regular [DenselyOrdered α] :
    Regular (continuous : TypeCache α) fun _ => True where
  flip _ _ := trivial
  canonical _ _ _ h := by cases h
  full l u hl hu hvl hvu h := by
    obtain ⟨_ | v, i, low⟩ := l
    · cases hvl
    obtain ⟨_ | w, j, low'⟩ := u
    · cases hvu
    obtain rfl : low = true := hl.lower
    obtain rfl : low' = false := hu.lower
    rcases Key.place_le_place.mp h with hvw | ⟨rfl, hij⟩
    · obtain ⟨x, hvx, hxw⟩ := exists_between hvw
      exact ⟨x, Key.place_le_place.mpr (Or.inl hvx), Key.place_le_place.mpr (Or.inl hxw)⟩
    · refine ⟨v, Key.place_le_place.mpr (Or.inr ⟨rfl, ?_⟩),
        Key.place_le_place.mpr (Or.inr ⟨rfl, ?_⟩)⟩
      · cases i <;> cases j <;> simp_all
      · cases i <;> cases j <;> simp_all
  gap u l hu hl h hroom := by
    obtain ⟨v, w, i, j, rfl, rfl⟩ := hu.finite_of_lt hl h
    rcases Key.place_lt_place.mp h with hvw | ⟨rfl, hij⟩
    · obtain ⟨x, hvx, hxw⟩ := exists_between hvw
      exact ⟨x, Key.place_lt_place.mpr (Or.inl hvx), Key.place_lt_place.mpr (Or.inl hxw)⟩
    · cases i <;> cases j
      · exact ⟨v, Key.place_lt_place.mpr (Or.inr ⟨rfl, by simp⟩),
          Key.place_lt_place.mpr (Or.inr ⟨rfl, by simp⟩)⟩
      · exact absurd (Key.place_covBy rfl) hroom
      · exact absurd (Key.place_covBy rfl) hroom
      · exact absurd hij (lt_irrefl _)

end

/-! ## Integers -/

def int4range : TypeCache ℤ where
  canonical := some int4rangeCanonical

/-- Finite bounds are in the form `[)`. -/
def HalfOpen (b : RangeBound ℤ) : Prop := b.val.isSome = true → b.inclusive = b.lower

theorem HalfOpen.of_moved {b b' : RangeBound ℤ} {c : Bool} (hc : c = true ↔ b.inclusive ≠ b.lower)
    (h : (match b.val with
      | some bnd => if c then nextInteger b bnd else pure b
      | none => pure b) = .ok b') : b'.lower = b.lower ∧ HalfOpen b'.flags := by
  obtain ⟨_ | v, i, low⟩ := b
  · obtain rfl := Except.ok.inj h
    exact ⟨rfl, nofun⟩
  · dsimp only [nextInteger] at h
    split_ifs at h with hmove hmax <;> obtain rfl := Except.ok.inj h
    · exact ⟨rfl, fun _ => Bool.not_eq.mpr (hc.mp hmove)⟩
    · exact ⟨rfl, fun _ => not_not.mp (mt hc.mpr hmove)⟩

theorem int4range_built {r : RangeType ℤ} (h : Built int4range r) :
    r = .empty ∨ Proper HalfOpen r := by
  rcases h with rfl | ⟨l, u, hl, hu, h⟩
  · exact Or.inl rfl
  · obtain ⟨r', hr', h⟩ := bind_eq_ok h
    have hbuilt : r' = .empty ∨ Proper (fun _ => True) r' :=
      rangeSerialize_built hl hu ⟨trivial, trivial⟩ hr'
    rcases hbuilt with rfl | hp
    · exact Or.inl (Except.ok.inj h).symm
    · cases hp with | @bounds l1 u1 hl' hu'
      obtain ⟨l', heql, h⟩ := bind_eq_ok h
      obtain ⟨u', hequ, h⟩ := bind_eq_ok h
      obtain ⟨hl'', hfl⟩ := HalfOpen.of_moved (by simp [hl'.lower]) heql
      obtain ⟨hu'', hfu⟩ := HalfOpen.of_moved (by simp [hu'.lower]) hequ
      exact rangeSerialize_built (hl''.trans hl'.lower) (hu''.trans hu'.lower) ⟨hfl, hfu⟩ h

theorem int4range_regular : Regular int4range HalfOpen where
  flip b hb hval := by
    simp [RangeBound.flip, hb hval]
  canonical c l u hc hl hu h := by
    obtain rfl : int4rangeCanonical = c := Option.some.inj hc
    have hok := rangeSerialize_ok hl hu h
    obtain ⟨a, i, low⟩ := l
    obtain ⟨b, j, low'⟩ := u
    obtain rfl : low = true := hl.lower
    obtain rfl : low' = false := hu.lower
    have hi : a.isSome = true → i = true := hl.form
    have hj : b.isSome = true → j = false := hu.form
    cases a with
    | none =>
      cases b with
      | none => exact hok
      | some w =>
        obtain rfl := hj rfl
        exact hok
    | some v =>
      obtain rfl := hi rfl
      cases b with
      | none => exact hok
      | some w =>
        obtain rfl := hj rfl
        exact hok
  full l u hl hu hvl hvu h := by
    obtain ⟨_ | v, i, low⟩ := l
    · cases hvl
    obtain ⟨_ | w, j, low'⟩ := u
    · cases hvu
    obtain rfl : low = true := hl.lower
    obtain rfl : i = true := hl.form rfl
    exact ⟨v, le_rfl, h⟩
  gap u l hu hl h hroom := by
    obtain ⟨v, w, i, j, rfl, rfl⟩ := hu.finite_of_lt hl h
    obtain rfl : i = false := hu.form rfl
    obtain rfl : j = true := hl.form rfl
    rcases Key.place_lt_place.mp h with hvw | ⟨rfl, -⟩
    · exact ⟨v, Key.place_lt_place.mpr (Or.inr ⟨rfl, by simp⟩),
        Key.place_lt_place.mpr (Or.inl hvw)⟩
    · exact absurd (Key.place_covBy rfl) hroom

/-- Multiranges over a dense order and over the integers: `make_multirange` returns the canonical
form of the union of its ranges, and union, difference and intersection return the canonical forms of
the sets they denote. `multirange_minus_internal` needs a range in its second argument. -/
theorem multirange_algebra (α : Type) [LinearOrder α] [DenselyOrdered α] :
    MultirangeAlgebra (continuous : TypeCache α) ∧ MultirangeAlgebra int4range :=
  ⟨continuous_regular.multirangeAlgebra fun _ => continuous_built,
    int4range_regular.multirangeAlgebra fun _ => int4range_built⟩

theorem multirange_algebra_rat :
    MultirangeAlgebra (continuous : TypeCache ℚ) ∧ MultirangeAlgebra int4range :=
  multirange_algebra ℚ

/-- The multirange made of no ranges has no array to read the first range from. -/
theorem multirangeMinusInternal_empty :
    makeMultirange int4range [.bounds ⟨some 1, true, true⟩ ⟨some 5, false, false⟩] =
        .ok [.bounds ⟨some 1, true, true⟩ ⟨some 5, false, false⟩] ∧
      makeMultirange int4range [] = .ok [] ∧
      multirangeMinusInternal int4range [.bounds ⟨some 1, true, true⟩ ⟨some 5, false, false⟩] [] =
        .error "no range" := by
  refine ⟨?_, ?_, rfl⟩
  · simp only [makeMultirange, multirangeCanonicalize, List.mergeSort_singleton]
    rfl
  · simp only [makeMultirange, multirangeCanonicalize, List.mergeSort_nil]
    rfl

end PostgreSieve.Ranges
