import PostgreSieve.Ranges.Walk

/-! # Sorting and merging

`multirange_canonicalize` sorts its ranges by lower bound and merges each into the last one put out
unless there is room between them.
-/

namespace PostgreSieve.Ranges

open List

variable {α : Type} [LinearOrder α]

/-! ## The sorting order -/

/-- Empty ranges come first. -/
def RangeType.rank : RangeType α → WithBot (Key α ×ₗ Key α)
  | .empty => ⊥
  | .bounds l u => ((toLex (l.key, u.key) : Key α ×ₗ Key α) : WithBot _)

theorem rangeCompare_ne_gt (r1 r2 : RangeType α) :
    rangeCompare r1 r2 ≠ .gt ↔ r1.rank ≤ r2.rank := by
  cases r1 with
  | empty => cases r2 <;> simp [rangeCompare, RangeType.rank]
  | bounds l1 u1 =>
    cases r2 with
    | empty => simp [rangeCompare, RangeType.rank]
    | bounds l2 u2 =>
      simp only [rangeCompare, RangeType.rank, rangeCmpBounds_eq, WithBot.coe_le_coe,
        Prod.Lex.toLex_le_toLex]
      rcases lt_trichotomy l1.key l2.key with h | h | h
      · simp [(cmp_eq_lt_iff _ _).mpr h, h]
      · simp [h]
      · simp [(cmp_eq_gt_iff _ _).mpr h, h.not_gt, h.ne']

variable {T : TypeCache α} {Form : RangeBound α → Prop} {r1 r2 : RangeType α}
  {output ranges : List (RangeType α)}

theorem Proper.lo_le_of_rank (h1 : Proper Form r1) (h2 : Proper Form r2)
    (h : r1.rank ≤ r2.rank) : r1.lo ≤ r2.lo := by
  cases h1 with | bounds
  cases h2 with | bounds
  simp only [RangeType.rank, WithBot.coe_le_coe, Prod.Lex.toLex_le_toLex] at h
  rcases h with h | ⟨h, -⟩
  · exact h.le
  · exact h.le

theorem sorted_mergeSort (ranges : List (RangeType α)) :
    (ranges.mergeSort fun r1 r2 => rangeCompare r1 r2 ≠ .gt).Pairwise
      fun r1 r2 => r1.rank ≤ r2.rank := by
  have hle : ∀ a b : RangeType α, decide (rangeCompare a b ≠ .gt) = true ↔ a.rank ≤ b.rank :=
    fun a b => decide_eq_true_iff.trans (rangeCompare_ne_gt a b)
  refine (pairwise_mergeSort ?_ ?_ ranges).imp fun h => (hle _ _).mp h
  · intro a b c hab hbc
    rw [hle] at *
    exact hab.trans hbc
  · intro a b
    rw [Bool.or_eq_true, hle, hle]
    exact le_total _ _

/-! ## Merging -/

/-- There is room between two ranges. -/
def Apart (r1 r2 : RangeType α) : Prop := r1.hi < r2.lo ∧ ¬ r1.hi ⋖ r2.lo

/-- The output so far, in reverse, when the ranges of a list are still to come. -/
structure Merged (Form : RangeBound α → Prop) (output ranges : List (RangeType α)) : Prop where
  proper : ∀ r ∈ output, Proper Form r
  apart : output.Pairwise fun r r' => Apart r' r
  come : ∀ r ∈ ranges, r = .empty ∨ Proper Form r
  sorted : ranges.Pairwise fun r1 r2 => r1.rank ≤ r2.rank
  le : ∀ last ∈ output.head?, ∀ r ∈ ranges, Proper Form r → last.lo ≤ r.lo

theorem Merged.next {output' : List (RangeType α)} (h : Merged Form output (r1 :: ranges))
    (hproper : ∀ r ∈ output', Proper Form r) (hapart : output'.Pairwise fun r r' => Apart r' r)
    (hle : ∀ last ∈ output'.head?, last ∈ output.head? ∨ Proper Form r1 ∧ last.lo ≤ r1.lo) :
    Merged Form output' ranges where
  proper := hproper
  apart := hapart
  come r hr := h.come r (mem_cons_of_mem r1 hr)
  sorted := h.sorted.of_cons
  le last hlast r hr hp := by
    rcases hle last hlast with hold | ⟨hp1, hle⟩
    · exact h.le last hold r (mem_cons_of_mem r1 hr) hp
    · exact hle.trans (hp1.lo_le_of_rank hp (rel_of_pairwise_cons h.sorted hr))

/-- A round extends the places put out by those of the current range. -/
theorem Regular.mergeRange_ok (hT : Regular T Form) (h : Merged Form output (r1 :: ranges)) :
    ∃ output', mergeRange T output r1 = .ok output' ∧ Merged Form output' ranges ∧
      ∀ k, k ∈ places output' ↔ k ∈ places output ∨ k ∈ r1.span := by
  rcases h.come r1 mem_cons_self with rfl | h1
  · refine ⟨output, rfl, h.next h.proper h.apart fun last hlast => Or.inl hlast, ?_⟩
    simp [RangeType.span_empty]
  have hne := h1.isEmpty
  cases output with
  | nil =>
    refine ⟨[r1], by simp [mergeRange, hne], h.next (by simpa using h1) (by simp) ?_, ?_⟩
    · simp [h1]
    · simp [mem_places_cons, places_nil]
  | cons last rest =>
    have hlast := h.proper last mem_cons_self
    have hle := h.le last rfl r1 mem_cons_self h1
    have hle1 := h1.lo_le_hi
    have hlelast := hlast.lo_le_hi
    -- a merged range starts where the last one does, so it keeps its distance to the others
    have hmerge : ∀ r, Proper Form r → r.lo = last.lo → r.hi = max last.hi r1.hi →
        (last.hi ⋖ r1.lo ∨ r1.lo ≤ last.hi) → Merged Form (r :: rest) ranges ∧
          ∀ k, k ∈ places (r :: rest) ↔ k ∈ places (last :: rest) ∨ k ∈ r1.span := by
      intro r hr hlo hhi htouch
      refine ⟨h.next ?_ ?_ ?_, ?_⟩
      · rintro r' (_ | ⟨_, hr'⟩)
        · exact hr
        · exact h.proper r' (mem_cons_of_mem last hr')
      · obtain ⟨hfirst, hrest⟩ := pairwise_cons.mp h.apart
        refine pairwise_cons.mpr ⟨fun r' hr' => ?_, hrest⟩
        simpa only [Apart, hlo] using hfirst r' hr'
      · rintro _ ⟨⟩
        exact Or.inr ⟨h1, hlo.trans_le hle⟩
      · intro k
        have htouch' : last.hi < k → r1.lo ≤ k :=
          htouch.elim (fun hc => hc.lt_iff_le_right.mp) fun hl hk => hl.trans hk.le
        simp only [mem_places_cons, mem_span, hlo, hhi, le_max_iff]
        grind
    obtain ⟨adj, hadj, hiff⟩ := hT.adjacent_ok hlast h1
    have hadjacent : adj = true ↔ last.hi ⋖ r1.lo := by
      rw [hiff]
      exact or_iff_left fun hc => (hc.lt.trans_le hle).not_ge hle1
    cases adj with
    | true =>
      have htouch := hadjacent.mp rfl
      obtain ⟨r, heq, hr, hlo, hhi⟩ := hT.union_ok hlast h1 false hle (by simp)
      refine ⟨r :: rest, ?_, hmerge r hr hlo hhi (Or.inl htouch)⟩
      simp [mergeRange, hne, hadj, heq, bind, Except.bind, pure, Except.pure]
    | false =>
      by_cases hbefore : rangeBeforeInternal last r1 = true
      · have hlt := (hlast.before_iff h1).mp hbefore
        have hroom : ¬ last.hi ⋖ r1.lo := fun hc => Bool.false_ne_true (hadjacent.mpr hc)
        refine ⟨r1 :: last :: rest, ?_, h.next ?_ ?_ ?_, ?_⟩
        · simp [mergeRange, hne, hadj, hbefore, bind, Except.bind, pure, Except.pure]
        · rintro r' (_ | ⟨_, hr'⟩)
          · exact h1
          · exact h.proper r' hr'
        · refine pairwise_cons.mpr ⟨?_, h.apart⟩
          rintro r' (_ | ⟨_, hr'⟩)
          · exact ⟨hlt, hroom⟩
          · obtain ⟨hlt', -⟩ := rel_of_pairwise_cons h.apart hr'
            have hbetween := hlelast.trans_lt hlt
            exact ⟨hlt'.trans hbetween, fun hc => hc.2 hlt' hbetween⟩
        · rintro _ ⟨⟩
          exact Or.inr ⟨h1, le_rfl⟩
        · intro k
          simp only [mem_places_cons]
          tauto
      · have hmeet := not_lt.mp (hbefore ∘ (hlast.before_iff h1).mpr)
        obtain ⟨r, heq, hr, hlo, hhi⟩ := hT.union_ok hlast h1 true hle fun _ => hmeet
        refine ⟨r :: rest, ?_, hmerge r hr hlo hhi (Or.inr hmeet)⟩
        simp [mergeRange, hne, hadj, hbefore, heq, bind, Except.bind, pure, Except.pure]

theorem Regular.mergeRanges_ok (hT : Regular T Form) (h : Merged Form output ranges) :
    ∃ output', ranges.foldlM (mergeRange T) output = .ok output' ∧ Merged Form output' [] ∧
      ∀ k, k ∈ places output' ↔ k ∈ places output ∨ k ∈ places ranges := by
  induction ranges generalizing output with
  | nil => exact ⟨output, rfl, h, by simp [places_nil]⟩
  | cons r ranges ih =>
    obtain ⟨output1, heq, hm, hplaces⟩ := hT.mergeRange_ok h
    obtain ⟨output2, heq', hm', hplaces'⟩ := ih hm
    refine ⟨output2, by simpa [heq, bind, Except.bind] using heq', hm', fun k => ?_⟩
    rw [hplaces', hplaces, mem_places_cons, or_assoc]

/-- Ranges that are not empty and have room between them, in order. -/
structure Separated (Form : RangeBound α → Prop) (ranges : List (RangeType α)) : Prop where
  proper : ∀ r ∈ ranges, Proper Form r
  apart : ranges.Pairwise Apart

theorem Separated.ordered (h : Separated Form ranges) : Ordered Form ranges where
  proper := h.proper
  before := h.apart.imp And.left

theorem Regular.makeMultirange_ok (hT : Regular T Form)
    (h : ∀ r ∈ ranges, r = .empty ∨ Proper Form r) :
    ∃ mr, makeMultirange T ranges = .ok mr ∧ Separated Form mr ∧ places mr = places ranges := by
  have hmerged : Merged Form [] (ranges.mergeSort fun r1 r2 => rangeCompare r1 r2 ≠ .gt) :=
    ⟨by simp, List.Pairwise.nil, fun r hr => h r (mem_mergeSort.mp hr),
      sorted_mergeSort ranges, by simp⟩
  obtain ⟨output, heq, hm, hplaces⟩ := hT.mergeRanges_ok hmerged
  refine ⟨output.reverse, ?_, ⟨?_, ?_⟩, ?_⟩
  · simp only [makeMultirange, multirangeCanonicalize, heq]
    rfl
  · exact fun r hr => hm.proper r (mem_reverse.mp hr)
  · exact pairwise_reverse.mpr hm.apart
  · ext k
    simpa [places] using hplaces k

end PostgreSieve.Ranges
