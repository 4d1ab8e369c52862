import PostgreSieve.Eviction.Lfu

/-! # The victim of LFU

`LFUGetBuffer` scans the buckets upwards from `min_freq` and moves `min_freq` as it
goes. Over whole sequences of calls the buffer it picks is the least frequently
used one, and the least recently used of that frequency, as long as no scan moves
`min_freq` past a bucket that still holds buffers.
-/

namespace PostgreSieve.Lfu

open Function List

/-- The buffer can be taken: neither locked nor pinned. -/
def Available (h : ℕ → BufState) (b : ℕ) : Prop :=
  ((h b).has bmLocked || (h b).getRefcount ≠ 0) = false

instance (h : ℕ → BufState) (b : ℕ) : Decidable (Available h b) :=
  inferInstanceAs (Decidable (_ = false))

section Scan

variable {N f c : ℕ} {s : State} {B : ℕ → List ℕ} {h : ℕ → BufState} {l₁ l₂ l₃ : List ℕ}

theorem soloStep_bucket (hf : f ≤ maxFreq) : vtable.soloStep N (⟨s, h⟩, .bucket f) =
    .inl (⟨s, h⟩, .candidate f (s.links.prev (sentinel N f))) := by
  simp [EvictionVtable.soloStep, code, hf, GetInstr.solo]

theorem soloStep_bucket_end (hf : maxFreq < f) : vtable.soloStep N (⟨s, h⟩, .bucket f) =
    .inr ⟨⟨s, h⟩, .error "no unpinned buffers available"⟩ := by
  simp [EvictionVtable.soloStep, code, Nat.not_le.mpr hf, GetInstr.solo]

theorem soloStep_candidate (hc : c ≠ sentinel N f) : vtable.soloStep N (⟨s, h⟩, .candidate f c) =
    .inl (⟨s, h⟩, .examine f c (h c)) := by
  simp [EvictionVtable.soloStep, code, hc, GetInstr.solo]

theorem soloStep_candidate_end : vtable.soloStep N (⟨s, h⟩, .candidate f (sentinel N f)) =
    .inl (⟨if bucketEmpty N s f then { s with minFreq := f + 1 } else s, h⟩, .bucket (f + 1)) := by
  simp [EvictionVtable.soloStep, code, GetInstr.solo]

theorem soloStep_examine_skip (ha : ¬ Available h c) :
    vtable.soloStep N (⟨s, h⟩, .examine f c (h c)) =
      .inl (⟨s, h⟩, .candidate f (s.links.next c)) := by
  rw [Available, Bool.not_eq_false] at ha
  simp only [EvictionVtable.soloStep, code, ha, if_true, GetInstr.solo]

theorem soloStep_examine_claim (ha : Available h c) :
    vtable.soloStep N (⟨s, h⟩, .examine f c (h c)) =
      .inr ⟨⟨evict N s f c, update h c (h c + bufRefcountOne)⟩, .ok c⟩ := by
  rw [Available] at ha
  simp only [EvictionVtable.soloStep, code, ha, Bool.false_eq_true, if_false, GetInstr.solo, if_true]

section

variable (hB : Buckets N s B) (hf : 1 ≤ f) (hf' : f ≤ maxFreq)
include hB hf hf'

theorem leads_candidates (hl : B f = l₁ ++ (l₂ ++ l₃)) (hu : ∀ c ∈ l₂, ¬ Available h c) :
    Leads (vtable.soloStep N) (2 * l₂.length)
      (⟨s, h⟩, .candidate f ((l₂ ++ l₃).head?.getD (sentinel N f)))
      (⟨s, h⟩, .candidate f (l₃.head?.getD (sentinel N f))) := by
  induction l₂ generalizing l₁ with
  | nil => exact Leads.refl
  | cons c l₂ ih =>
    have hh := hB.holds.holds f hf hf'
    rw [hl, cons_append] at hh
    have hc : c ≠ sentinel N f := hh.ne_anchor (by simp)
    have h1 := Leads.one (soloStep_candidate (s := s) (h := h) hc)
    have h2 := Leads.one (soloStep_examine_skip (N := N) (s := s) (f := f) (hu c (by simp)))
    rw [hh.next_eq] at h2
    have hl' : B f = (l₁ ++ [c]) ++ (l₂ ++ l₃) := by rw [hl]; simp
    have h3 := ih hl' fun d hd => hu d (by simp [hd])
    have he : 2 * (c :: l₂).length = 1 + 1 + 2 * l₂.length := by simp; omega
    rw [he]
    exact (h1.trans h2).trans h3

/-- A bucket without available buffers is passed; an empty one moves `min_freq` on. -/
theorem leads_bucket (hu : ∀ c ∈ B f, ¬ Available h c) :
    Leads (vtable.soloStep N) (2 * (B f).length + 2) (⟨s, h⟩, .bucket f)
      (⟨{ s with minFreq := if B f = [] then f + 1 else s.minFreq }, h⟩, .bucket (f + 1)) := by
  have h1 := Leads.one (soloStep_bucket (N := N) (s := s) (h := h) hf')
  rw [hB.prev_sentinel hf hf'] at h1
  have hl : B f = [] ++ (B f ++ []) := by simp
  have h2 := leads_candidates hB hf hf' hl hu
  rw [append_nil] at h2
  have h3 := Leads.one (soloStep_candidate_end (N := N) (s := s) (h := h) (f := f))
  have he : (if bucketEmpty N s f = true then { s with minFreq := f + 1 } else s) =
      { s with minFreq := if B f = [] then f + 1 else s.minFreq } := by
    simp only [Buckets.bucketEmpty_iff hB.holds hf hf']
    split <;> rfl
  rw [he] at h3
  have hk : 2 * (B f).length + 2 = 1 + 2 * (B f).length + 1 := by omega
  rw [hk]
  exact (h1.trans h2).trans h3

theorem iterate_bucket
    (hl : B f = l₁ ++ c :: l₂) (hu : ∀ c ∈ l₁, ¬ Available h c) (hc : Available h c) :
    iterate (vtable.soloStep N) (2 * (B f).length + 2) (⟨s, h⟩, .bucket f) =
      some ⟨⟨evict N s f c, update h c (h c + bufRefcountOne)⟩, .ok c⟩ := by
  have h1 := Leads.one (soloStep_bucket (N := N) (s := s) (h := h) hf')
  rw [hB.prev_sentinel hf hf'] at h1
  have hl' : B f = [] ++ (l₁ ++ c :: l₂) := hl
  have h2 := leads_candidates hB hf hf' hl' hu
  rw [← hl] at h2
  have hcs : c ≠ sentinel N f := Holds.ne_sentinel hf (hB.holds.lt f hf hf' c (by simp [hl]))
  have h3 := Leads.one (soloStep_candidate (s := s) (h := h) hcs)
  have h4 := (h1.trans h2).trans h3
  have hk : 2 * (B f).length + 2 = 1 + 2 * l₁.length + 1 + (2 * l₂.length + 2) := by
    rw [hl]; simp; omega
  rw [hk, h4, iterate, soloStep_examine_claim hc]

end

/-- What a scan that starts at bucket `f` does: `r` is its outcome. -/
def Scanned (N : ℕ) (s : State) (B : ℕ → List ℕ) (h : ℕ → BufState) (f : ℕ)
    (r : GetResult State) : Prop :=
  ∃ m, (m = s.minFreq ∨ ∃ e, f ≤ e ∧ e ≤ maxFreq ∧ B e = [] ∧ m = e + 1 ∧
      ∀ g, f ≤ g → g ≤ e → ∀ c ∈ B g, ¬ Available h c) ∧
    (((∀ g, f ≤ g → g ≤ maxFreq → ∀ c ∈ B g, ¬ Available h c) ∧
        r = ⟨⟨{ s with minFreq := m }, h⟩, .error "no unpinned buffers available"⟩) ∨
      ∃ g c l₁ l₂, f ≤ g ∧ g ≤ maxFreq ∧ (∀ e, f ≤ e → e < g → ∀ c ∈ B e, ¬ Available h c) ∧
        B g = l₁ ++ c :: l₂ ∧ (∀ c ∈ l₁, ¬ Available h c) ∧ Available h c ∧
        r = ⟨⟨evict N { s with minFreq := m } g c,
          update h c (h c + bufRefcountOne)⟩, .ok c⟩)

/-- Enough rounds for a scan of the buckets from `f` on. -/
def scanRounds (B : ℕ → List ℕ) (f : ℕ) : ℕ → ℕ
  | 0 => 1
  | d + 1 => 2 * (B f).length + 2 + scanRounds B (f + 1) d

theorem Scanned.of_succ {m : ℕ} {r : GetResult State} (hu : ∀ c ∈ B f, ¬ Available h c)
    (hf' : f ≤ maxFreq) (hm : m = s.minFreq ∨ B f = [] ∧ m = f + 1)
    (hr : Scanned N { s with minFreq := m } B h (f + 1) r) : Scanned N s B h f r := by
  obtain ⟨m', hm', hr⟩ := hr
  have hall : ∀ {P : ℕ → Prop}, (∀ g, f + 1 ≤ g → P g → ∀ c ∈ B g, ¬ Available h c) →
      ∀ g, f ≤ g → P g → ∀ c ∈ B g, ¬ Available h c := by
    intro P hP g hg hPg
    rcases Nat.eq_or_lt_of_le hg with rfl | hlt
    · exact hu
    · exact hP g hlt hPg
  refine ⟨m', ?_, ?_⟩
  · rcases hm' with rfl | ⟨e, hfe, he, hBe, rfl, hue⟩
    · rcases hm with hm | ⟨hB, hm⟩
      · exact Or.inl hm
      · refine Or.inr ⟨f, le_rfl, hf', hB, hm, fun g hg hg' => ?_⟩
        obtain rfl : f = g := by omega
        exact hu
    · exact Or.inr ⟨e, by omega, he, hBe, rfl, hall hue⟩
  · rcases hr with ⟨hnone, rfl⟩ | ⟨g, c, l₁, l₂, hg, hg', hlow, hB, hl₁, hc, rfl⟩
    · exact Or.inl ⟨hall hnone, rfl⟩
    · exact Or.inr ⟨g, c, l₁, l₂, by omega, hg', hall hlow, hB, hl₁, hc, rfl⟩

section

variable (hB : Buckets N s B) (hf : 1 ≤ f) {d : ℕ} (hd : f + d = maxFreq + 1)
include hB hf hd

theorem scan :
    ∃ r, iterate (vtable.soloStep N) (scanRounds B f d) (⟨s, h⟩, .bucket f) = some r ∧
      Scanned N s B h f r := by
  induction d generalizing f s with
  | zero =>
    refine ⟨_, ?_, s.minFreq, Or.inl rfl, Or.inl ⟨fun g hg hg' => by omega, rfl⟩⟩
    rw [scanRounds, iterate, soloStep_bucket_end (by omega)]
  | succ d ih =>
    have hf' : f ≤ maxFreq := by omega
    by_cases hu : ∀ c ∈ B f, ¬ Available h c
    · obtain ⟨r, hr, hs⟩ := ih (s := { s with minFreq := if B f = [] then f + 1 else s.minFreq })
        (f := f + 1) (hB.setMinFreq (by have := hB.minFreq_pos; split <;> omega)) (by omega)
        (by omega)
      refine ⟨r, ?_, hs.of_succ hu hf' ?_⟩
      · rw [scanRounds, leads_bucket hB hf hf' hu]
        exact hr
      · split
        · exact Or.inr ⟨‹_›, rfl⟩
        · exact Or.inl rfl
    · obtain ⟨c, hc, l₁, l₂, hl, hu⟩ : ∃ c, Available h c ∧ ∃ l₁ l₂, B f = l₁ ++ c :: l₂ ∧
          ∀ c ∈ l₁, ¬ Available h c := by
        have hsome : ((B f).find? fun c => decide (Available h c)).isSome := by simpa using hu
        obtain ⟨c, hc⟩ := Option.isSome_iff_exists.mp hsome
        obtain ⟨hca, l₁, l₂, hl, hl₁⟩ := List.find?_eq_some_iff_append.mp hc
        exact ⟨c, by simpa using hca, l₁, l₂, hl, by simpa using hl₁⟩
      refine ⟨_, iterate_mono (iterate_bucket hB hf hf' hl hu hc) (by rw [scanRounds]; omega),
        s.minFreq, Or.inl rfl, Or.inr ⟨f, c, l₁, l₂, le_rfl, hf', ?_, hl, hu, hc, rfl⟩⟩
      omega

theorem scanRounds_le :
    scanRounds B f d ≤ d * (2 * N + 2) + 1 := by
  induction d generalizing f with
  | zero => simp [scanRounds]
  | succ d ih =>
    have hl := hB.holds.length_le hf (by omega)
    have := ih (f := f + 1) (by omega) (by omega)
    rw [scanRounds, Nat.succ_mul d]
    omega

end

/-- Rounds that suffice for every call of `LFUGetBuffer`. -/
def getRounds (N : ℕ) : ℕ := maxFreq * (2 * N + 2) + 2

/-- `LFUGetBuffer` always comes to an end, and scans the buckets from `min_freq` on. -/
theorem getBuffer_scanned (hB : Buckets N s B) :
    ∃ r, iterate (vtable.soloStep N) (getRounds N) (⟨s, h⟩, .start) = some r ∧
      Scanned N s B h s.minFreq r := by
  have h1 : Leads (vtable.soloStep N) 1 (⟨s, h⟩, Pc.start) (⟨s, h⟩, .bucket s.minFreq) :=
    Leads.one rfl
  rcases Nat.lt_or_ge maxFreq s.minFreq with hlt | hle
  · refine ⟨_, iterate_mono (n := 1 + 1) ?_ (by rw [getRounds]; omega), s.minFreq, Or.inl rfl,
      Or.inl ⟨fun g hg hg' => by omega, rfl⟩⟩
    rw [h1, iterate, soloStep_bucket_end hlt]
  · obtain ⟨d, hd⟩ : ∃ d, s.minFreq + d = maxFreq + 1 := ⟨maxFreq + 1 - s.minFreq, by omega⟩
    obtain ⟨r, hr, hs⟩ := scan (h := h) hB hB.minFreq_pos hd
    refine ⟨r, iterate_mono (n := 1 + scanRounds B s.minFreq d) ?_ ?_, hs⟩
    · rw [h1]
      exact hr
    · have hle := scanRounds_le hB hB.minFreq_pos hd
      have hdm : d ≤ maxFreq := by have := hB.minFreq_pos; omega
      have := Nat.mul_le_mul_right (2 * N + 2) hdm
      rw [getRounds]
      omega

end Scan

/-! ## Sequences of calls -/

/-- LFU's data and the buffer headers, and for each buffer the time of its last insertion or
hit. -/
structure Calls extends Solo State where
  stamp : ℕ → ℕ
  now : ℕ

inductive Call where
  | insert (b : ℕ)
  | hit (b : ℕ)
  | invalidate (b : ℕ)
  /-- Anything may happen to the buffer headers between two calls. -/
  | headers (h : ℕ → BufState)
  | get

/-- At the start the buffers count as inserted in the order of their numbers. -/
def firstCall (N : ℕ) (h : ℕ → BufState) : Calls := ⟨⟨init N, h⟩, id, N⟩

def touch (m : Calls) (b : ℕ) : Calls :=
  { m with stamp := update m.stamp b m.now, now := m.now + 1 }

def call (N : ℕ) (m : Calls) : Call → Option Calls
  | .insert b => if b < N then some { touch m b with policy := notifyInsert N m.policy b } else none
  | .hit b => if b < N then some { touch m b with policy := notifyHit N m.policy b } else none
  | .invalidate b =>
    if b < N then some { m with policy := notifyInvalidate N m.policy b } else none
  | .headers h => some { m with headers := h }
  | .get => (iterate (vtable.soloStep N) (getRounds N) (m.toSolo, .start)).map fun r =>
      { m with toSolo := r.toSolo }

/-- The scan of bucket `f` is reached: no buffer of a lower frequency is available. -/
def Reaches (N : ℕ) (m : Solo State) (f : ℕ) : Prop :=
  ∀ g, 1 ≤ g → g < f → ∀ c ∈ bucket N m.policy g, ¬ Available m.headers c

/-- A bucket that the scan reaches above a bucket with (pinned) buffers is not empty, and does
not become empty by giving up its victim. -/
def ScansNoGap (N : ℕ) (m : Solo State) : Prop :=
  ∀ e f, 1 ≤ e → e < f → f ≤ maxFreq → bucket N m.policy e ≠ [] → Reaches N m f →
    bucket N m.policy f ≠ [] ∧
      ((∃ c ∈ bucket N m.policy f, Available m.headers c) → 2 ≤ (bucket N m.policy f).length)

/-- Every call of `LFUGetBuffer` scans without a gap. -/
def GetsWithoutGap (N : ℕ) (m : Calls) : Call → Prop
  | .get => ScansNoGap N m.toSolo
  | _ => True

/-- `min_freq` bounds the lowest non-empty bucket, and each bucket is sorted by time. -/
structure Sorted (N : ℕ) (m : Calls) (B : ℕ → List ℕ) : Prop where
  buckets : Buckets N m.policy B
  minFreq_le : ∀ f, 1 ≤ f → f ≤ maxFreq → B f ≠ [] → m.policy.minFreq ≤ f
  sorted : ∀ f, 1 ≤ f → f ≤ maxFreq → (B f).Pairwise fun b c => m.stamp b < m.stamp c
  stamp_lt : ∀ b < N, m.stamp b < m.now

namespace Sorted

variable {N b : ℕ} {m m' : Calls} {B : ℕ → List ℕ} {s : State}

theorem of_firstCall (hN : 0 < N) (h : ℕ → BufState) :
    Sorted N (firstCall N h) fun f => if f = 1 then List.range N else [] where
  buckets := Buckets.of_init hN
  minFreq_le _ hf _ _ := hf
  sorted _ _ _ := by
    split
    · exact pairwise_lt_range
    · exact List.Pairwise.nil
  stamp_lt b hb := hb

variable (h : Sorted N m B)
include h

section

variable {f : ℕ} (hf : 1 ≤ f) (hf' : f ≤ maxFreq)
include hf hf'

theorem pairwise_without :
    (without B b f).Pairwise fun c d => m.stamp c < m.stamp d :=
  (h.sorted f hf hf').sublist erase_sublist

theorem pairwise_touch :
    (without B b f).Pairwise fun c d => (touch m b).stamp c < (touch m b).stamp d := by
  refine (h.pairwise_without hf hf').imp_of_mem fun {c d} hc hd hlt => ?_
  have hn := h.buckets.nodup hf hf'
  simp only [touch, update_of_ne ((mem_without hn).mp hc).1,
    update_of_ne ((mem_without hn).mp hd).1]
  exact hlt

theorem pairwise_withNewest {g : ℕ} :
    (withNewest (without B b) b g f).Pairwise fun c d =>
      (touch m b).stamp c < (touch m b).stamp d := by
  have hp := h.pairwise_touch (b := b) hf hf'
  rw [withNewest, update_apply]
  split
  · rename_i hfg
    subst hfg
    refine pairwise_append.mpr ⟨hp, pairwise_singleton _ _, fun c hc d hd => ?_⟩
    obtain ⟨hcb, hcB⟩ := (mem_without (h.buckets.nodup hf hf')).mp hc
    rw [mem_singleton.mp hd]
    simp only [touch, update_of_ne hcb, update_self]
    exact h.stamp_lt c (h.buckets.holds.lt f hf hf' c hcB)
  · exact hp

end

theorem stamp_touch_lt : ∀ c < N, (touch m b).stamp c < (touch m b).now := by
  intro c hc
  have := h.stamp_lt c hc
  simp only [touch, update_apply]
  split <;> omega

theorem insert (hb : b < N) :
    Sorted N { touch m b with policy := notifyInsert N m.policy b }
      (withNewest (without B b) b 1) where
  buckets := h.buckets.notifyInsert hb
  minFreq_le _ hf _ _ := hf
  sorted _ hf hf' := h.pairwise_withNewest hf hf'
  stamp_lt := h.stamp_touch_lt

theorem hitMin_le (hb : b < N) (hf : m.policy.freq b ≠ 0) {e : ℕ} (he : 1 ≤ e) (he' : e ≤ maxFreq)
    (hne : withNewest (without B b) b (Buckets.hitFreq (m.policy.freq b)) e ≠ []) :
    Buckets.hitMin m.policy B b ≤ e := by
  set f := m.policy.freq b with hfdef
  have hfm := h.buckets.freq_le hb
  have hbB : b ∈ B f := (h.buckets.mem_iff (by omega) hfm).mpr ⟨hb, rfl⟩
  have hmf := h.minFreq_le f (by omega) hfm (ne_nil_of_mem hbB)
  have hff : f ≤ Buckets.hitFreq f := by rw [Buckets.hitFreq]; split <;> omega
  have hcase : e = Buckets.hitFreq f ∨ without B b e ≠ [] := by
    rw [withNewest, update_apply] at hne
    split at hne
    · exact Or.inl ‹_›
    · exact Or.inr hne
  have hBe : without B b e ≠ [] → m.policy.minFreq ≤ e := fun hw =>
    h.minFreq_le e he he' fun hB => hw (by simp [without, hB])
  rw [Buckets.hitMin]
  split
  · rename_i hc
    rcases hcase with rfl | hw
    · exact le_rfl
    · have hle := hBe hw
      have hne : e ≠ f := fun hef => hw (hef ▸ hc.2)
      rw [Buckets.hitFreq]
      split <;> omega
  · rcases hcase with rfl | hw
    · omega
    · exact hBe hw

theorem hit (hb : b < N) (hf : m.policy.freq b ≠ 0) :
    Sorted N { touch m b with policy := notifyHit N m.policy b }
      (withNewest (without B b) b (Buckets.hitFreq (m.policy.freq b))) where
  buckets := h.buckets.notifyHit hb hf
  minFreq_le e he he' hne := by
    simp only [h.buckets.notifyHit_eq hb hf]
    exact h.hitMin_le hb hf he he' hne
  sorted f hf hf' := h.pairwise_withNewest hf hf'
  stamp_lt := h.stamp_touch_lt

theorem minFreq_without {f : ℕ} (hf : 1 ≤ f) (hf' : f ≤ maxFreq)
    (hne : without B b f ≠ []) : m.policy.minFreq ≤ f :=
  h.minFreq_le f hf hf' fun hB => hne (by simp [without, hB])

theorem invalidate (hb : b < N) :
    Sorted N { m with policy := notifyInvalidate N m.policy b } (without B b) where
  buckets := h.buckets.notifyInvalidate hb
  minFreq_le f hf hf' hne := by
    have : (notifyInvalidate N m.policy b).minFreq = m.policy.minFreq := by
      simp only [notifyInvalidate]
      split <;> rfl
    rw [this]
    exact h.minFreq_without hf hf' hne
  sorted f hf hf' := h.pairwise_without hf hf'
  stamp_lt := h.stamp_lt

theorem hit_of_freq_eq_zero (hf : m.policy.freq b = 0) :
    Sorted N (touch m b) B where
  buckets := h.buckets
  minFreq_le := h.minFreq_le
  sorted f hf1 hf' := by
    have := h.pairwise_touch (b := b) hf1 hf'
    rwa [h.buckets.without_eq hf hf1 hf'] at this
  stamp_lt := h.stamp_touch_lt

theorem not_available_of_lt {e : ℕ} (he' : e ≤ maxFreq)
    (hu : ∀ g, m.policy.minFreq ≤ g → g < e → ∀ c ∈ B g, ¬ Available m.headers c) :
    Reaches N m.toSolo e := by
  intro g hg hge c hc
  rw [h.buckets.bucket_eq hg (by omega)] at hc
  exact hu g (h.minFreq_le g hg (by omega) (ne_nil_of_mem hc)) hge c hc

/-- Without a gap the scan moves `min_freq` past empty buckets only. -/
theorem hint_le (hgap : ScansNoGap N m.toSolo) {k f : ℕ}
    (hk : k = m.policy.minFreq ∨ ∃ e, m.policy.minFreq ≤ e ∧ e ≤ maxFreq ∧ B e = [] ∧ k = e + 1 ∧
      ∀ g, m.policy.minFreq ≤ g → g ≤ e → ∀ c ∈ B g, ¬ Available m.headers c)
    (hf : 1 ≤ f) (hf' : f ≤ maxFreq) (hne : B f ≠ []) : k ≤ f := by
  rcases hk with rfl | ⟨e, hme, he', hBe, rfl, hu⟩
  · exact h.minFreq_le f hf hf' hne
  · by_contra hlt
    have hfe : f ≠ e := fun hfe => hne (hfe ▸ hBe)
    have hb : bucket N m.policy f = B f := h.buckets.bucket_eq hf hf'
    have he : bucket N m.policy e = B e := h.buckets.bucket_eq (by omega) he'
    have hr := h.not_available_of_lt he' fun g hg hge => hu g hg hge.le
    exact (hgap f e hf (by omega) he' (hb ▸ hne) hr).1 (he.trans hBe)

/-- A call of `LFUGetBuffer` that scans without a gap keeps `min_freq` below every bucket in
use. -/
theorem get (hgap : ScansNoGap N m.toSolo) {r : GetResult State}
    (hr : Scanned N m.policy B m.headers m.policy.minFreq r) :
    ∃ B', Sorted N { m with toSolo := r.toSolo } B' := by
  obtain ⟨k, hk, ⟨-, rfl⟩ | ⟨g, c, l₁, l₂, hmg, hg', hlow, hBg, hl₁, hc, rfl⟩⟩ := hr
  · exact ⟨B, h.buckets.setMinFreq (by have := h.buckets.minFreq_pos; omega),
      fun f hf hf' hne => h.hint_le hgap hk hf hf' hne, h.sorted, h.stamp_lt⟩
  · have hg : 1 ≤ g := h.buckets.minFreq_pos.trans hmg
    have hB := h.buckets.setMinFreq (m := k) (by have := h.buckets.minFreq_pos; omega)
    have hcB : c ∈ B g := by rw [hBg]; simp
    refine ⟨without B c, hB.evict hg hg' hcB, fun f hf hf' hne => ?_,
      fun f hf hf' => h.pairwise_without hf hf', h.stamp_lt⟩
    have hBf : B f ≠ [] := fun hB => hne (by simp [without, hB])
    simp only [hB.evict_eq hg hg' hcB]
    split
    · rename_i hempty
      by_contra hlt
      have hb : bucket N m.policy g = B g := h.buckets.bucket_eq hg hg'
      have hbf : bucket N m.policy f = B f := h.buckets.bucket_eq hf hf'
      have hr := h.not_available_of_lt hg' hlow
      have h2 := (hgap f g hf (by omega) hg' (hbf ▸ hBf) hr).2 ⟨c, hb ▸ hcB, hc⟩
      have h1 := length_erase_of_mem hcB
      rw [show (B g).erase c = [] from hempty, length_nil, ← hb] at h1
      omega
    · exact h.hint_le hgap hk hf hf' hBf

theorem step {a : Call} (hC : GetsWithoutGap N m a)
    (hs : call N m a = some m') : ∃ B', Sorted N m' B' := by
  cases a with
  | insert b =>
    simp only [call] at hs
    split at hs
    · cases hs
      exact ⟨_, h.insert ‹_›⟩
    · cases hs
  | hit b =>
    simp only [call] at hs
    split at hs
    · cases hs
      by_cases hf : m.policy.freq b = 0
      · rw [Buckets.notifyHit_of_freq_eq_zero hf]
        exact ⟨B, h.hit_of_freq_eq_zero hf⟩
      · exact ⟨_, h.hit ‹_› hf⟩
    · cases hs
  | invalidate b =>
    simp only [call] at hs
    split at hs
    · cases hs
      exact ⟨_, h.invalidate ‹_›⟩
    · cases hs
  | headers w =>
    cases hs
    exact ⟨B, h.buckets, h.minFreq_le, h.sorted, h.stamp_lt⟩
  | get =>
    obtain ⟨r, hr, hsc⟩ := getBuffer_scanned (h := m.headers) h.buckets
    rw [call, hr] at hs
    cases hs
    exact h.get hC hsc

end Sorted

/-- The pinned buffers are those with a positive reference count. -/
def Pinned (h : ℕ → BufState) (b : ℕ) : Prop := (h b).getRefcount ≠ 0

theorem available_iff {h : ℕ → BufState} {b : ℕ} (hl : (h b).has bmLocked = false) :
    Available h b ↔ ¬ Pinned h b := by
  simp [Available, Pinned, hl]

/-- As long as every earlier call scanned without a gap, `min_freq` bounds the lowest bucket in
use, and `LFUGetBuffer` fails exactly when all linked buffers are pinned; otherwise it returns
the unpinned buffer of the least frequency that was inserted or hit the longest ago. -/
theorem getBuffer_least_frequent {N : ℕ} (hN : 0 < N) {h : ℕ → BufState} {as : List Call} {m : Calls}
    (hm : run (call N) (firstCall N h) as = some m)
    (hC : Along (call N) (GetsWithoutGap N) (firstCall N h) as)
    (hl : ∀ b < N, (m.headers b).has bmLocked = false) :
    (∀ f, 1 ≤ f → f ≤ maxFreq → bucket N m.policy f ≠ [] → m.policy.minFreq ≤ f) ∧
    ∃ r, vtable.GetsBuffer N m.toSolo r ∧
      (r.victim = .error "no unpinned buffers available" ↔
        ∀ b < N, m.policy.freq b ≠ 0 → Pinned m.headers b) ∧
      (∀ e, r.victim = .error e → e = "no unpinned buffers available") ∧
      ∀ b, r.victim = .ok b → b < N ∧ m.policy.freq b ≠ 0 ∧ ¬ Pinned m.headers b ∧
        ∀ c < N, m.policy.freq c ≠ 0 → ¬ Pinned m.headers c → c ≠ b →
          m.policy.freq b < m.policy.freq c ∨
            m.policy.freq b = m.policy.freq c ∧ m.stamp b < m.stamp c := by
  obtain ⟨B, hB⟩ : ∃ B, Sorted N m B :=
    run_invariant (I := fun m => ∃ B, Sorted N m B) hm hC ⟨_, Sorted.of_firstCall hN h⟩
      fun _ _ _ ⟨_, hu⟩ hC hv => hu.step hC hv
  have hmem := fun {b f : ℕ} (hf : 1 ≤ f) (hf' : f ≤ maxFreq) => hB.buckets.mem_iff (b := b) hf hf'
  have hbk : ∀ b, b < N → m.policy.freq b ≠ 0 → b ∈ B (m.policy.freq b) ∧
      m.policy.minFreq ≤ m.policy.freq b ∧ m.policy.freq b ≤ maxFreq := by
    intro b hb hf
    have hf' := hB.buckets.freq_le hb
    have hm := (hmem (Nat.one_le_iff_ne_zero.mpr hf) hf').mpr ⟨hb, rfl⟩
    exact ⟨hm, hB.minFreq_le _ (Nat.one_le_iff_ne_zero.mpr hf) hf' (ne_nil_of_mem hm), hf'⟩
  refine ⟨fun f hf hf' hne => hB.minFreq_le f hf hf' (hB.buckets.bucket_eq hf hf' ▸ hne), ?_⟩
  obtain ⟨r, hr, k, -, ⟨hnone, rfl⟩ | ⟨g, b, l₁, l₂, hmg, hg', hlow, hBg, hl₁, hb, rfl⟩⟩ :=
    getBuffer_scanned (h := m.headers) hB.buckets
  · have hret : vtable.GetsBuffer N m.toSolo _ := ⟨_, hr⟩
    refine ⟨_, hret, ⟨fun _ b hb hf => ?_, fun _ => rfl⟩, fun e he => ?_, fun b hb => nomatch hb⟩
    · obtain ⟨hbB, hlo, hhi⟩ := hbk b hb hf
      by_contra hp
      exact hnone _ hlo hhi b hbB ((available_iff (hl b hb)).mpr hp)
    · exact (Except.error.inj he).symm
  · have hret : vtable.GetsBuffer N m.toSolo _ := ⟨_, hr⟩
    have hg : 1 ≤ g := hB.buckets.minFreq_pos.trans hmg
    have hbB : b ∈ B g := by rw [hBg]; simp
    obtain ⟨hbN, hfb⟩ := (hmem hg hg').mp hbB
    have hbp := (available_iff (hl b hbN)).mp hb
    refine ⟨_, hret, ⟨fun he => (nomatch he), fun hall => ?_⟩, fun e he => (nomatch he), ?_⟩
    · exact absurd (hall b hbN (by omega)) hbp
    · rintro _ ⟨⟩
      refine ⟨hbN, by omega, hbp, fun c hcN hfc hcp hcb => ?_⟩
      obtain ⟨hcB, hlo, hhi⟩ := hbk c hcN hfc
      have hca := (available_iff (hl c hcN)).mpr hcp
      rcases Nat.lt_trichotomy (m.policy.freq c) g with hlt | heq | hgt
      · exact absurd hca (hlow _ hlo hlt c hcB)
      · refine Or.inr ⟨hfb.trans heq.symm, ?_⟩
        have hs := hB.sorted g hg hg'
        rw [heq, hBg] at hcB
        rw [hBg] at hs
        rcases mem_append.mp hcB with hc | hc
        · exact absurd hca (hl₁ c hc)
        · have hc2 := (mem_cons.mp hc).resolve_left hcb
          exact (pairwise_cons.mp (pairwise_append.mp hs).2.1).1 c hc2
      · exact Or.inl (hfb ▸ hgt)

theorem scansNoGap_of_available {N b : ℕ} {m : Solo State} (hb : b ∈ bucket N m.policy 1)
    (ha : Available m.headers b) : ScansNoGap N m :=
  fun _ _ he hef _ _ hr => absurd ha (hr 1 le_rfl (by omega) b hb)

/-- After one eviction and one hit the remaining buffer of a pool of two is found. -/
theorem getBuffer_least_frequent_two :
    ∃ m r, run (call 2) (firstCall 2 fun _ => 0) [.get, .hit 1] = some m ∧
      vtable.GetsBuffer 2 m.toSolo r ∧ r.victim ≠ .error "no unpinned buffers available" := by
  have h : ((run (call 2) (firstCall 2 fun _ => 0) [.get, .hit 1]).map fun m : Calls =>
      decide ((∀ b < (2 : ℕ), (m.headers b).has bmLocked = false) ∧ m.policy.freq 1 = 2 ∧
        (m.headers 1).getRefcount = 0)) = some true := by
    decide +kernel
  simp only [Option.map_eq_some_iff, decide_eq_true_iff] at h
  obtain ⟨m, hm, hl, hf, hp⟩ := h
  have hgap : ScansNoGap 2 (firstCall 2 fun _ => 0).toSolo :=
    scansNoGap_of_available (b := 0) (by decide) (by decide)
  obtain ⟨-, r, hr, hiff, -⟩ := getBuffer_least_frequent (by decide) hm
    ⟨hgap, fun _ _ => ⟨trivial, fun _ _ => trivial⟩⟩ hl
  exact ⟨m, r, hm, hr, fun he => hiff.mp he 1 (by decide) (by omega) hp⟩

/-- Headers in which only buffer `b` is pinned, once. -/
def onlyPinned (b : ℕ) : ℕ → BufState := fun c => if c = b then bufRefcountOne else 0

/-- Buffers 1 and 2 are hit twice, so buckets 1 and 3 are in use. With buffer 0 pinned the scan
passes the empty bucket 2 and moves `min_freq` to 3; later it takes buffer 2 of frequency 3
although buffer 0 of frequency 1 is free. -/
theorem getBuffer_skips_least_frequent :
    ∃ m r, run (call 3) (firstCall 3 fun _ => 0)
        [.hit 1, .hit 1, .hit 2, .hit 2, .headers (onlyPinned 0), .get,
          .headers (onlyPinned 1)] = some m ∧
      vtable.GetsBuffer 3 m.toSolo r ∧ (∀ b < 3, (m.headers b).has bmLocked = false) ∧
      r.victim.toOption = some 2 ∧ m.policy.freq 2 = 3 ∧ m.policy.freq 0 = 1 ∧
      (m.headers 0).getRefcount = 0 ∧ bucket 3 m.policy 1 = [0] ∧ m.policy.minFreq = 3 := by
  have h : ((run (call 3) (firstCall 3 fun _ => 0)
      [.hit 1, .hit 1, .hit 2, .hit 2, .headers (onlyPinned 0), .get,
        .headers (onlyPinned 1)]).bind fun m =>
      (iterate (vtable.soloStep 3) (getRounds 3) (m.toSolo, .start)).map fun r =>
        decide ((∀ b < 3, (m.headers b).has bmLocked = false) ∧
          r.victim.toOption = some 2 ∧ m.policy.freq 2 = 3 ∧ m.policy.freq 0 = 1 ∧
          (m.headers 0).getRefcount = 0 ∧ bucket 3 m.policy 1 = [0] ∧ m.policy.minFreq = 3)) =
      some true := by
    decide +kernel
  simp only [Option.bind_eq_some_iff, Option.map_eq_some_iff, decide_eq_true_iff] at h
  obtain ⟨m, hm, r, hr, h⟩ := h
  exact ⟨m, r, hm, ⟨_, hr⟩, h⟩

end PostgreSieve.Lfu
