import PostgreSieve.Ranges.Keys

/-! # Two lists of ranges walked in tandem

The loops of `multirange_minus_internal` and `multirange_intersect_internal` keep, for the current
range of the first list, the ranges of the second one that are not yet behind it.
-/

namespace PostgreSieve.Ranges

open List

variable {α : Type} [LinearOrder α]
variable {k : Key α} {r : RangeType α} {a b k : Key α} {ranges1 : List (RangeType α)}

/-- The places in some range of a list. -/
def places (ranges : List (RangeType α)) : Set (Key α) := {k | ∃ r ∈ ranges, k ∈ r.span}

theorem mem_span : k ∈ r.span ↔ r.lo ≤ k ∧ k ≤ r.hi := Iff.rfl

theorem places_nil : places ([] : List (RangeType α)) = ∅ := by
  simp [places]

theorem mem_places_cons {ranges : List (RangeType α)} :
    k ∈ places (r :: ranges) ↔ k ∈ r.span ∨ k ∈ places ranges := by
  simp [places]

theorem mem_places_append {ranges ranges' : List (RangeType α)} :
    k ∈ places (ranges ++ ranges') ↔ k ∈ places ranges ∨ k ∈ places ranges' := by
  simp only [places, Set.mem_ofPred_eq, mem_append, or_and_right, exists_or]

/-- Ranges that are not empty, each before the next. -/
structure Ordered (Form : RangeBound α → Prop) (ranges : List (RangeType α)) : Prop where
  proper : ∀ r ∈ ranges, Proper Form r
  before : ranges.Pairwise fun r r' => r.hi < r'.lo

variable {T : TypeCache α} {Form : RangeBound α → Prop} {r r1 : RangeType α}
  {ranges ranges2 rest : List (RangeType α)}

theorem Ordered.head (h : Ordered Form (r :: ranges)) : Proper Form r :=
  h.proper r mem_cons_self

theorem Ordered.tail (h : Ordered Form (r :: ranges)) : Ordered Form ranges where
  proper r' hr' := h.proper r' (mem_cons_of_mem r hr')
  before := h.before.of_cons

theorem Ordered.of_suffix (h : Ordered Form ranges) (hsuf : rest <:+ ranges) :
    Ordered Form rest where
  proper r hr := h.proper r (hsuf.subset hr)
  before := h.before.sublist hsuf.sublist

theorem Ordered.lt_of_mem_places (h : Ordered Form (r :: ranges))
    (hk : k ∈ places ranges) : r.hi < k := by
  obtain ⟨r', hr', hle, -⟩ := hk
  exact (rel_of_pairwise_cons h.before hr').trans_le hle

/-- Discarding the ranges before `r1` loses nothing from `r1` on. -/
theorem Ordered.discard (h : Ordered Form ranges) (h1 : Proper Form r1) :
    ∃ rest, (ranges.dropWhile fun r2 => rangeBeforeInternal r2 r1) = rest ∧ rest <:+ ranges ∧
      (∀ r2 ∈ rest, r1.lo ≤ r2.hi) ∧ ∀ k, r1.lo ≤ k → (k ∈ places rest ↔ k ∈ places ranges) := by
  induction ranges with
  | nil => exact ⟨[], rfl, suffix_rfl, by simp, fun _ _ => Iff.rfl⟩
  | cons r ranges ih =>
    obtain ⟨rest, heq, hsuf, hhi, hplaces⟩ := ih h.tail
    by_cases hb : rangeBeforeInternal r r1 = true
    · refine ⟨rest, ?_, hsuf.trans (suffix_cons r ranges), hhi, fun k hk => ?_⟩
      · rw [dropWhile_cons_of_pos (p := fun r2 => rangeBeforeInternal r2 r1) hb, heq]
      · have hlt := (h.head.before_iff h1).mp hb
        rw [hplaces k hk, mem_places_cons, mem_span]
        exact ⟨Or.inr, fun h' => h'.resolve_left fun h'' => (hlt.trans_le hk).not_ge h''.2⟩
    · refine ⟨r :: ranges, dropWhile_cons_of_neg hb, suffix_rfl, ?_, fun _ _ => Iff.rfl⟩
      have hle := not_lt.mp (hb ∘ (h.head.before_iff h1).mpr)
      rintro r2 (_ | ⟨_, hr2⟩)
      · exact hle
      · have hlt := rel_of_pairwise_cons h.before hr2
        exact hle.trans (hlt.le.trans (h.tail.proper r2 hr2).lo_le_hi)

/-! ## Difference -/

/-- What is left of `r1` after the parts split off on the way, and the ranges kept for what
follows `r1`. -/
structure Subtracted (Form : RangeBound α → Prop) (r1 : RangeType α)
    (ranges2 : List (RangeType α)) (r : RangeType α) (parts rest : List (RangeType α)) : Prop where
  ok : ∀ p ∈ parts ++ [r], p = .empty ∨ Proper Form p
  covers : places (parts ++ [r]) = r1.span \ places ranges2
  length : parts.length + rest.length ≤ ranges2.length
  suffix : rest <:+ ranges2
  beyond : ∀ k, r1.hi < k → (k ∈ places rest ↔ k ∈ places ranges2)

theorem Subtracted.stop (hr : r = .empty ∨ Proper Form r)
    (hplaces : r.span = r1.span \ places ranges2) :
    Subtracted Form r1 ranges2 r [] ranges2 where
  ok := by simpa using hr
  covers := by
    ext k
    simp [mem_places_cons, places_nil, hplaces]
  length := by simp
  suffix := suffix_rfl
  beyond _ _ := Iff.rfl

/-- The loop goes on with the part `b` of `r1` after `r2`, having put out the part before. -/
theorem Subtracted.advance {b r2 : RangeType α} {out parts : List (RangeType α)}
    (h : Subtracted Form b ranges2 r parts rest) (hout : ∀ p ∈ out, Proper Form p)
    (hlen : out.length ≤ 1) (hhi : b.hi = r1.hi)
    (hplaces : ∀ k, k ∈ places out ∨
      (k ∈ b.span ∧ k ∉ places ranges2) ↔
        k ∈ r1.span ∧ k ∉ places (r2 :: ranges2))
    (hr2 : r2.hi ≤ r1.hi) : Subtracted Form r1 (r2 :: ranges2) r (out ++ parts) rest where
  ok p hp := by
    rw [append_assoc, mem_append] at hp
    exact hp.elim (fun hp => Or.inr (hout p hp)) (h.ok p)
  covers := by
    ext k
    rw [append_assoc, mem_places_append, h.covers]
    exact hplaces k
  length := by
    have := h.length
    simp only [length_append, length_cons]
    omega
  suffix := h.suffix.trans (suffix_cons r2 ranges2)
  beyond k hk := by
    rw [h.beyond k (hhi ▸ hk), mem_places_cons]
    exact ⟨Or.inr, fun h' => h'.resolve_left fun h'' => (hr2.trans_lt hk).not_ge h''.2⟩

theorem Regular.subtract_ok (hT : Regular T Form) (ranges3 : List (RangeType α))
    (h : Ordered Form ranges2) (h1 : Proper Form r1) (hhi : ∀ r2 ∈ ranges2, r1.lo ≤ r2.hi) :
    ∃ r parts rest, subtractRanges T r1 ranges3 ranges2 = .ok (r, ranges3 ++ parts, rest) ∧
      Subtracted Form r1 ranges2 r parts rest := by
  induction ranges2 generalizing r1 ranges3 with
  | nil =>
    refine ⟨r1, [], [], by simp [subtractRanges], .stop (Or.inr h1) ?_⟩
    simp [places_nil]
  | cons r2 ranges2 ih =>
    have h2 := h.head
    have hle2 := h2.lo_le_hi
    have hin := hhi r2 mem_cons_self
    have hbeyond : ∀ k ∈ places ranges2, r2.hi < k := fun k => h.lt_of_mem_places
    have hnext : ∀ b : RangeType α, r2.hi ⋖ b.lo → ∀ r' ∈ ranges2, b.lo ≤ r'.hi := by
      intro b hb r' hr'
      have hlt := rel_of_pairwise_cons h.before hr'
      exact hb.ge_of_gt (hlt.trans_le (h.tail.proper r' hr').lo_le_hi)
    by_cases hsplit : r1.lo < r2.lo ∧ r2.hi < r1.hi
    · obtain ⟨a, b, heq, ha, hb, halo, hahi, hblo, hbhi⟩ := hT.split_some h1 h2 hsplit.1 hsplit.2
      obtain ⟨r, parts, rest, hrec, hsub⟩ :=
        ih (ranges3 ++ [a]) h.tail hb (hnext b hblo)
      refine ⟨r, [a] ++ parts, rest, ?_,
        hsub.advance (by simpa using ha) le_rfl hbhi ?_ hsplit.2.le⟩
      · simpa [subtractRanges, heq, bind, Except.bind] using hrec
      · intro k
        have ha' := hahi.lt_iff_le_left (z := k)
        have hb' := hblo.lt_iff_le_right (z := k)
        simp only [mem_places_cons, places_nil, mem_span, Set.mem_empty_iff_false, halo, hbhi]
        grind
    · have hnone : rangeSplitInternal T r1 r2 = .ok none :=
        h1.split_none h2 fun hlo => not_lt.mp fun hhi => hsplit ⟨hlo, hhi⟩
      by_cases hover : rangeOverlapsInternal r1 r2 = true
      · have hcases := (h1.overlaps_iff h2).mp hover
        rcases le_or_gt r2.lo r1.lo with hlo | hlo
        · rcases le_or_gt r1.hi r2.hi with hhi | hhi
          · have hempty := h1.minus_within h2 hlo hhi (T := T)
            refine ⟨.empty, [], r2 :: ranges2, ?_, .stop (Or.inl rfl) ?_⟩
            · simp [subtractRanges, hnone, hover, hempty, bind, Except.bind, pure, Except.pure,
                RangeType.isEmpty]
            · ext k
              simp only [RangeType.span_empty, Set.mem_empty_iff_false, Set.mem_sdiff,
                mem_places_cons, mem_span]
              grind
          · obtain ⟨b, heq, hb, hblo, hbhi⟩ := hT.minus_right h1 h2 hlo hin hhi
            obtain ⟨r, parts, rest, hrec, hsub⟩ := ih ranges3 h.tail hb (hnext b hblo)
            have hstay : rangeBeforeInternal b r2 = false := by
              rw [Bool.eq_false_iff, Ne, hb.before_iff h2]
              grind
            refine ⟨r, [] ++ parts, rest, ?_, hsub.advance (by simp) (by simp) hbhi ?_ hhi.le⟩
            · simpa [subtractRanges, hnone, hover, heq, hb.isEmpty, hstay, bind, Except.bind,
                pure, Except.pure] using hrec
            · intro k
              have hb' := hblo.lt_iff_le_right (z := k)
              simp only [mem_places_cons, places_nil, mem_span, Set.mem_empty_iff_false, hbhi]
              grind
        · have hmeet : r2.lo ≤ r1.hi := by grind
          have hhi : r1.hi ≤ r2.hi := not_lt.mp fun hhi => hsplit ⟨hlo, hhi⟩
          obtain ⟨a, heq, ha, halo, hahi⟩ := hT.minus_left h1 h2 hlo hmeet hhi
          have hstop : rangeBeforeInternal a r2 = true := (ha.before_iff h2).mpr hahi.lt
          refine ⟨a, [], r2 :: ranges2, ?_, .stop (Or.inr ha) ?_⟩
          · simp [subtractRanges, hnone, hover, heq, hstop, bind, Except.bind, pure, Except.pure]
          · ext k
            have ha' := hahi.lt_iff_le_left (z := k)
            simp only [mem_span, halo, Set.mem_sdiff, mem_places_cons]
            grind
      · have hpast : r1.hi < r2.lo := by
          rw [h1.overlaps_iff h2] at hover
          grind
        refine ⟨r1, [], r2 :: ranges2, ?_, .stop (Or.inr h1) ?_⟩
        · simp [subtractRanges, hnone, hover, bind, Except.bind, pure, Except.pure]
        · ext k
          simp only [mem_span, Set.mem_sdiff, mem_places_cons]
          grind

theorem Regular.minusRanges_ok (hT : Regular T Form)
    (ranges3 : List (RangeType α)) (h1 : Ordered Form ranges1) (h2 : Ordered Form ranges2) :
    ∃ parts, minusRanges T ranges3 ranges2 ranges1 = .ok (ranges3 ++ parts) ∧
      (∀ p ∈ parts, p = .empty ∨ Proper Form p) ∧ places parts = places ranges1 \ places ranges2 ∧
      parts.length ≤ ranges1.length + ranges2.length := by
  induction ranges1 generalizing ranges2 ranges3 with
  | nil => exact ⟨[], by simp [minusRanges], by simp, by simp [places_nil], by simp⟩
  | cons r1 ranges1 ih =>
    obtain ⟨kept, hkept, hsuf, hhi, hfrom⟩ := h2.discard h1.head
    obtain ⟨r, out, rest, heq, hsub⟩ :=
      hT.subtract_ok ranges3 (h2.of_suffix hsuf) h1.head hhi
    obtain ⟨parts, hrec, hok, hplaces, hlen⟩ := ih (ranges3 ++ out ++ [r]) h1.tail
      ((h2.of_suffix hsuf).of_suffix hsub.suffix)
    refine ⟨out ++ [r] ++ parts, ?_, ?_, ?_, ?_⟩
    · simpa [minusRanges, hkept, heq, bind, Except.bind] using hrec
    · intro p hp
      exact (mem_append.mp hp).elim (hsub.ok p) (hok p)
    · ext k
      have hk : k ∈ places ranges1 → r1.hi < k := h1.lt_of_mem_places
      have hle := h1.head.lo_le_hi
      have hk'' := hsub.beyond k
      rw [mem_places_append, hsub.covers, hplaces]
      simp only [Set.mem_sdiff, mem_places_cons, mem_span]
      grind
    · have := hsub.length
      have := hsuf.length_le
      simp only [length_append, length_cons, length_nil]
      omega

/-! ## Intersection -/

/-- The common parts of `r1` and the second list, and the ranges kept for what follows `r1`. -/
structure Overlapped (Form : RangeBound α → Prop) (r1 : RangeType α)
    (ranges2 parts rest : List (RangeType α)) : Prop where
  ok : ∀ p ∈ parts, Proper Form p
  covers : places parts = r1.span ∩ places ranges2
  length : parts.length + rest.length ≤ ranges2.length + 1
  suffix : rest <:+ ranges2
  beyond : ∀ k, r1.hi < k → (k ∈ places rest ↔ k ∈ places ranges2)

theorem Regular.overlap_ok (hT : Regular T Form) (ranges3 : List (RangeType α))
    (h : Ordered Form ranges2) (h1 : Proper Form r1) (hhi : ∀ r2 ∈ ranges2, r1.lo ≤ r2.hi) :
    ∃ parts rest, overlapRanges T r1 ranges3 ranges2 = .ok (ranges3 ++ parts, rest) ∧
      Overlapped Form r1 ranges2 parts rest := by
  induction ranges2 generalizing ranges3 with
  | nil =>
    refine ⟨[], [], by simp [overlapRanges], by simp, ?_, by simp, suffix_rfl,
      fun _ _ => Iff.rfl⟩
    simp [places_nil]
  | cons r2 ranges2 ih =>
    have h2 := h.head
    have hle2 := h2.lo_le_hi
    have hbeyond : ∀ k ∈ places ranges2, r2.hi < k := fun k => h.lt_of_mem_places
    by_cases hover : rangeOverlapsInternal r1 r2 = true
    · obtain ⟨r, heq, hr, hrlo, hrhi⟩ := hT.intersect_ok h1 h2 hover
      by_cases hleft : rangeOverleftInternal r2 r1 = true
      · obtain ⟨parts, rest, hrec, hlap⟩ := ih (ranges3 ++ [r]) h.tail
          fun r' hr' => hhi r' (mem_cons_of_mem r2 hr')
        have hle := (h2.overleft_iff h1).mp hleft
        refine ⟨r :: parts, rest, ?_, ?_, ?_, ?_, ?_, ?_⟩
        · simpa [overlapRanges, hover, heq, hleft, bind, Except.bind] using hrec
        · simpa [hr] using hlap.ok
        · ext k
          simp only [mem_places_cons, hlap.covers, mem_span, hrlo, hrhi, Set.mem_inter_iff]
          grind
        · have := hlap.length
          simp only [length_cons]
          omega
        · exact hlap.suffix.trans (suffix_cons r2 ranges2)
        · intro k hk
          rw [hlap.beyond k hk, mem_places_cons, mem_span]
          grind
      · have hlt := not_le.mp (hleft ∘ (h2.overleft_iff h1).mpr)
        refine ⟨[r], r2 :: ranges2, ?_, by simpa using hr, ?_, ?_, suffix_rfl,
          fun _ _ => Iff.rfl⟩
        · simp [overlapRanges, hover, heq, hleft, bind, Except.bind, pure, Except.pure]
        · ext k
          simp only [mem_places_cons, places_nil, Set.mem_empty_iff_false, mem_span, hrlo, hrhi,
            Set.mem_inter_iff]
          grind
        · simp [Nat.add_comm]
    · have hpast : r1.hi < r2.lo := by
        rw [h1.overlaps_iff h2] at hover
        grind
      refine ⟨[], r2 :: ranges2, by simp [overlapRanges, hover], by simp, ?_, by simp,
        suffix_rfl, fun _ _ => Iff.rfl⟩
      ext k
      simp only [places_nil, Set.mem_empty_iff_false, mem_places_cons, mem_span, Set.mem_inter_iff]
      grind

theorem Regular.intersectRanges_ok (hT : Regular T Form)
    (ranges3 : List (RangeType α)) (h1 : Ordered Form ranges1) (h2 : Ordered Form ranges2) :
    ∃ parts, intersectRanges T ranges3 ranges2 ranges1 = .ok (ranges3 ++ parts) ∧
      (∀ p ∈ parts, Proper Form p) ∧ places parts = places ranges1 ∩ places ranges2 ∧
      parts.length ≤ ranges1.length + ranges2.length := by
  induction ranges1 generalizing ranges2 ranges3 with
  | nil => exact ⟨[], by simp [intersectRanges], by simp, by simp [places_nil], by simp⟩
  | cons r1 ranges1 ih =>
    obtain ⟨kept, hkept, hsuf, hhi, hfrom⟩ := h2.discard h1.head
    obtain ⟨out, rest, heq, hlap⟩ :=
      hT.overlap_ok ranges3 (h2.of_suffix hsuf) h1.head hhi
    have hk : ∀ k ∈ places ranges1, r1.hi < k := fun k => h1.lt_of_mem_places
    have hle := h1.head.lo_le_hi
    have hlen := hlap.length
    have hlen' := hsuf.length_le
    cases rest with
    | nil =>
      refine ⟨out, ?_, hlap.ok, ?_, ?_⟩
      · simp [intersectRanges, hkept, heq, bind, Except.bind, pure, Except.pure]
      · ext k
        have hk'' := hlap.beyond k
        simp only [hlap.covers, Set.mem_inter_iff, mem_places_cons, places_nil,
          Set.mem_empty_iff_false, mem_span] at hk'' ⊢
        grind
      · simp only [length_cons, length_nil] at hlen ⊢
        omega
    | cons r2 rest =>
      obtain ⟨parts, hrec, hok, hplaces, hlen''⟩ := ih (ranges3 ++ out) h1.tail
        ((h2.of_suffix hsuf).of_suffix hlap.suffix)
      refine ⟨out ++ parts, ?_, ?_, ?_, ?_⟩
      · simpa [intersectRanges, hkept, heq, bind, Except.bind] using hrec
      · intro p hp
        exact (mem_append.mp hp).elim (hlap.ok p) (hok p)
      · ext k
        have hk'' := hlap.beyond k
        rw [mem_places_append, hlap.covers, hplaces, Set.mem_inter_iff, Set.mem_inter_iff,
          Set.mem_inter_iff, mem_places_cons (r := r1), mem_span]
        grind
      · simp only [length_append, length_cons] at hlen hlen'' ⊢
        omega

end PostgreSieve.Ranges
