import PostgreSieve.ProcArray.Machine

/-! # What a snapshot knows

A snapshot stands for the transactions that run when it is taken. The proc array agrees with the
ledger, and the loop of `GetSnapshotData` reads off it.
-/

namespace PostgreSieve.Xact

open XactSys Nat

/-- The ids in shared memory are those of the ledger. -/
structure Sound (a : ProcArray) (l : Ledger) : Prop where
  latestNormal : FullCompleted a.latestCompletedXid
  nextNormal : FullNormal a.nextXid
  latest_lt : a.latestCompletedXid < a.nextXid
  latest_window : a.nextXid < a.latestCompletedXid + 2 ^ 31
  window : ∀ t, l.Running t → a.nextXid < t + 2 ^ 31
  idle : ∀ p, l.current p = none → (a.procs p).xid = invalidTransactionId ∧ (a.procs p).subxids = [] ∧
    (a.procs p).overflowed = false
  busy : ∀ p t, l.current p = some t → p < a.numProcs ∧ t < a.nextXid ∧ FullNormal t ∧
    (a.procs p).xid = xidFromFull t ∧ l.top t = t
  owner : ∀ y < a.nextXid, FullNormal y → ∀ p, l.current p = some (l.top y) → l.owner y = p
  top_le : ∀ y < a.nextXid, FullNormal y → l.top y ≤ y ∧ y < l.top y + 2 ^ 31
  completed : ∀ y < a.nextXid, FullNormal y →
    l.Running (l.top y) ∧ l.rolledBack y = false ∨ y ≤ a.latestCompletedXid
  fresh : ∀ y, a.nextXid ≤ y → l.rolledBack y = false
  cached : ∀ y < a.nextXid, FullNormal y → ∀ p, l.current p = some (l.top y) → y ≠ l.top y →
    l.rolledBack y = false → (a.procs p).overflowed = true ∨ xidFromFull y ∈ (a.procs p).subxids
  cache : ∀ p, ∀ w ∈ (a.procs p).subxids, ∃ y < a.nextXid, FullNormal y ∧
    w = xidFromFull y ∧ l.current p = some (l.top y)
  flags : ∀ p t, l.current p = some t → l.exempt t = false →
    (a.procs p).inVacuum = false ∧ (a.procs p).inLogicalDecoding = false

/-- The snapshot tells what runs beside the backend `p`, for the latest completed XID and the next
one. -/
structure Tells (latest next : ℕ) (l : Ledger) (p : ℕ) (s : Snapshot) (m : ℕ) : Prop where
  xmax : s.xmax = xidFromFull (fullTransactionIdAdvance latest)
  xmin : s.xmin = xidFromFull m
  normal : FullNormal m
  le : m ≤ fullTransactionIdAdvance latest
  lowest : m = fullTransactionIdAdvance latest ∨ l.Running m
  recovery : s.takenDuringRecovery = false
  xip : ∀ w ∈ s.xip, ∃ t, l.Running t ∧ w = xidFromFull t
  running : ∀ q t, q ≠ p → l.current q = some t → l.exempt t = false →
    m ≤ t ∧ (t < fullTransactionIdAdvance latest → xidFromFull t ∈ s.xip)
  subxip : s.suboverflowed = false → ∀ w ∈ s.subxip, ∃ y < next, FullNormal y ∧
    l.Running (l.top y) ∧ w = xidFromFull y
  runningSub : s.suboverflowed = false → ∀ y < fullTransactionIdAdvance latest, FullNormal y →
    ∀ q, q ≠ p →
    l.current q = some (l.top y) → l.exempt (l.top y) = false → y ≠ l.top y →
    l.rolledBack y = false → xidFromFull y ∈ s.subxip

variable {a : ProcArray} {l : Ledger} {p m x : ℕ} {s : Snapshot} {sub : ℕ → ℕ}

theorem Sound.advance_le (h : Sound a l) :
    fullTransactionIdAdvance a.latestCompletedXid ≤ a.nextXid :=
  Xact.advance_le h.latestNormal h.nextNormal h.latest_lt

/-! ## Looking up an XID -/

section

variable (hs : Sound a l) (h : Tells a.latestCompletedXid a.nextXid l p s m) (hx : FullNormal x)

include h hx in
theorem Tells.precedes_xmin_iff (hm : Near x m) :
    transactionIdPrecedes (xidFromFull x) s.xmin = true ↔ x < m := by
  rw [h.xmin, precedes_iff hx h.normal hm]

variable (hm : Near x m) (hM : Near x (fullTransactionIdAdvance a.latestCompletedXid))
include hs h hx hM

theorem Tells.follows_xmax_iff : transactionIdFollowsOrEquals (xidFromFull x) s.xmax = true ↔
    fullTransactionIdAdvance a.latestCompletedXid ≤ x := by
  rw [h.xmax, followsOrEquals_iff hx (fullNormal_advance hs.latestNormal) hM]

include hm

theorem Tells.of_later (hge : a.nextXid ≤ x) :
    xidInMVCCSnapshot sub (xidFromFull x) s = true := by
  have hle := hs.advance_le
  have hml := h.le
  have hprec : ¬transactionIdPrecedes (xidFromFull x) s.xmin = true := by
    rw [h.precedes_xmin_iff hx hm]
    omega
  rw [xidInMVCCSnapshot, if_neg hprec, if_pos ((h.follows_xmax_iff hs hx hM).mpr (by omega))]

variable (hsub : transactionIdPrecedes (xidFromFull x) s.xmin = false →
  sub (xidFromFull x) = xidFromFull (l.top x)) (hlt : x < a.nextXid)
include hsub hlt

theorem Tells.of_running {q : ℕ} (hq : q ≠ p)
    (hcur : l.current q = some (l.top x)) (hroll : l.rolledBack x = false)
    (hex : l.exempt (l.top x) = false) : xidInMVCCSnapshot sub (xidFromFull x) s = true := by
  obtain ⟨htop, htop'⟩ := hs.top_le x hlt hx
  obtain ⟨hmt, hxip⟩ := h.running q _ hq hcur hex
  obtain ⟨-, -, hnormal, -⟩ := hs.busy q _ hcur
  have hprec : transactionIdPrecedes (xidFromFull x) s.xmin = false := by
    rw [← Bool.not_eq_true, h.precedes_xmin_iff hx hm]
    omega
  rw [xidInMVCCSnapshot, if_neg (by simp [hprec])]
  split
  · rfl
  · rename_i hfollows
    rw [h.follows_xmax_iff hs hx hM] at hfollows
    have hlt' := Nat.lt_of_not_le hfollows
    rw [if_pos h.recovery]
    split
    · rename_i hfull
      rw [Bool.or_eq_true, decide_eq_true_eq, decide_eq_true_eq]
      rcases eq_or_ne x (l.top x) with he | hne
      · exact .inr (he ▸ hxip (he ▸ hlt'))
      · exact .inl (h.runningSub hfull x hlt' hx q hq hcur hex hne hroll)
    · have hnear : Near (l.top x) m := by
        obtain ⟨h1, h2⟩ := hm
        exact ⟨by omega, by omega⟩
      have hprec' : transactionIdPrecedes (xidFromFull (l.top x)) s.xmin = false := by
        rw [← Bool.not_eq_true, h.precedes_xmin_iff hnormal hnear]
        omega
      simp only [hsub hprec, hprec', Bool.false_eq_true, if_false, decide_eq_true_eq]
      exact hxip (by omega)

theorem Tells.of_ended (hend : ¬ l.Running (l.top x)) :
    xidInMVCCSnapshot sub (xidFromFull x) s = false := by
  obtain ⟨htop, htop'⟩ := hs.top_le x hlt hx
  have hxM : x < fullTransactionIdAdvance a.latestCompletedXid := by
    rcases hs.completed x hlt hx with ⟨hrun, -⟩ | hle
    · exact absurd hrun hend
    · exact hle.trans_lt (lt_advance _)
  rw [xidInMVCCSnapshot]
  split
  · rfl
  rename_i hprec
  rw [Bool.not_eq_true] at hprec
  have hmx : m ≤ x := by
    rw [← Bool.not_eq_true, h.precedes_xmin_iff hx hm] at hprec
    omega
  have hfollows : ¬transactionIdFollowsOrEquals (xidFromFull x) s.xmax = true := by
    rw [h.follows_xmax_iff hs hx hM]
    omega
  -- the lowest XID is running, which bounds the next one
  have hnext : a.nextXid < m + 2 ^ 31 := by
    rcases h.lowest with hl | hl
    · omega
    · exact hs.window m hl
  have hrun : ∀ t, l.Running t → t < a.nextXid ∧ a.nextXid < t + 2 ^ 31 := fun t ht => by
    obtain ⟨q, hq⟩ := id ht
    exact ⟨(hs.busy q t hq).2.1, hs.window t ht⟩
  have hxip : ∀ y, (y = x ∨ y = l.top x) → xidFromFull y ∉ s.xip := by
    intro y hy hmem
    obtain ⟨t, ht, hw⟩ := h.xip _ hmem
    obtain ⟨h1, h2⟩ := hrun t ht
    have hyt : y = t := xidFromFull_inj (by omega) (by omega) hw
    obtain ⟨q, hq⟩ := id ht
    have htt := (hs.busy q t hq).2.2.2.2
    rcases hy with rfl | rfl
    · rw [hyt, htt] at hend
      exact hend ht
    · exact hend (hyt ▸ ht)
  rw [if_neg hfollows, if_pos h.recovery]
  split
  · rename_i hfull
    rw [Bool.or_eq_false_iff, decide_eq_false_iff_not, decide_eq_false_iff_not]
    refine ⟨fun hmem => ?_, hxip x (.inl rfl)⟩
    obtain ⟨y, hy, hyn, hyrun, hw⟩ := h.subxip hfull _ hmem
    obtain ⟨h1, h2⟩ := hrun _ hyrun
    have := (hs.top_le y hy hyn).1
    have hxy : x = y := xidFromFull_inj (by omega) (by omega) hw
    exact hend (hxy ▸ hyrun)
  · simp only [hsub hprec]
    split
    · rfl
    · exact decide_eq_false (hxip _ (.inr rfl))

end

/-! ## Taking a snapshot -/

/-- What the loop of `GetSnapshotData` knows after the first `k` entries. -/
structure Scanned (a : ProcArray) (l : Ledger) (p k : ℕ) (s : ProcArray.Scan) (m : ℕ) : Prop where
  xmin : s.xmin = xidFromFull m
  normal : FullNormal m
  le : m ≤ fullTransactionIdAdvance a.latestCompletedXid
  lowest : m = fullTransactionIdAdvance a.latestCompletedXid ∨ l.Running m
  xip : ∀ w ∈ s.xip, ∃ t, l.Running t ∧ w = xidFromFull t
  running : ∀ q < k, ∀ t, q ≠ p → l.current q = some t → l.exempt t = false →
    m ≤ t ∧ (t < fullTransactionIdAdvance a.latestCompletedXid → xidFromFull t ∈ s.xip)
  subxip : s.suboverflowed = false → ∀ w ∈ s.subxip, ∃ y < a.nextXid, FullNormal y ∧
    l.Running (l.top y) ∧ w = xidFromFull y
  runningSub : s.suboverflowed = false → ∀ y < fullTransactionIdAdvance a.latestCompletedXid,
    FullNormal y → ∀ q < k, q ≠ p → l.current q = some (l.top y) → l.exempt (l.top y) = false →
    y ≠ l.top y → l.rolledBack y = false → xidFromFull y ∈ s.subxip

variable {k : ℕ} {sc : ProcArray.Scan}

section

variable (h : Scanned a l p k sc m) (hs : Sound a l)
include h hs

theorem Scanned.skip
    (hk : ∀ t, k ≠ p → l.current k = some t → l.exempt t = false →
      fullTransactionIdAdvance a.latestCompletedXid ≤ t) : Scanned a l p (k + 1) sc m := by
  have hle := h.le
  refine { h with running := fun q hq t hqp hcur hex => ?_, runningSub := ?_ }
  · rcases Nat.lt_succ_iff_lt_or_eq.mp hq with hq | rfl
    · exact h.running q hq t hqp hcur hex
    · have := hk t hqp hcur hex
      exact ⟨by omega, fun hlt => by omega⟩
  · intro hfull y hy hyn q hq hqp hcur hex hne hroll
    rcases Nat.lt_succ_iff_lt_or_eq.mp hq with hq | rfl
    · exact h.runningSub hfull y hy hyn q hq hqp hcur hex hne hroll
    · have := hk _ hqp hcur hex
      have := (hs.top_le y (hy.trans_le hs.advance_le) hyn).1
      omega

theorem Scanned.add {t : ℕ}
    (hcur : l.current k = some t) (hlt : t < fullTransactionIdAdvance a.latestCompletedXid)
    {sc' : ProcArray.Scan} (hxmin : sc'.xmin = xidFromFull (min t m))
    (hxip : sc'.xip = sc.xip ++ [xidFromFull t])
    (hover : sc'.suboverflowed = false →
      sc.suboverflowed = false ∧ (a.procs k).overflowed = false ∧
        sc'.subxip = sc.subxip ++ (a.procs k).subxids) :
    Scanned a l p (k + 1) sc' (min t m) := by
  have hrun : l.Running t := ⟨k, hcur⟩
  obtain ⟨-, -, hnormal, -⟩ := hs.busy k t hcur
  refine ⟨hxmin, ?_, by omega, ?_, ?_, ?_, ?_, ?_⟩
  · rcases le_total t m with hc | hc
    · rwa [min_eq_left hc]
    · rw [min_eq_right hc]
      exact h.normal
  · rcases le_total t m with hc | hc
    · rw [min_eq_left hc]
      exact .inr hrun
    · rw [min_eq_right hc]
      exact h.lowest
  · intro w hw
    rw [hxip, List.mem_append, List.mem_singleton] at hw
    rcases hw with hw | rfl
    · exact h.xip w hw
    · exact ⟨t, hrun, rfl⟩
  · intro q hq t' hqp hcur' hex
    rw [hxip, List.mem_append, List.mem_singleton]
    rcases Nat.lt_succ_iff_lt_or_eq.mp hq with hq | rfl
    · obtain ⟨h1, h2⟩ := h.running q hq t' hqp hcur' hex
      exact ⟨by omega, fun hc => .inl (h2 hc)⟩
    · obtain rfl := Option.some.inj (hcur.symm.trans hcur')
      exact ⟨min_le_left _ _, fun _ => .inr rfl⟩
  · intro hfull w hw
    obtain ⟨hfull', -, hsub⟩ := hover hfull
    rw [hsub, List.mem_append] at hw
    rcases hw with hw | hw
    · exact h.subxip hfull' w hw
    · obtain ⟨y, hy, hyn, he, hy'⟩ := hs.cache k w hw
      exact ⟨y, hy, hyn, ⟨k, hy'⟩, he⟩
  · intro hfull y hy hyn q hq hqp hcur' hex hne hroll
    obtain ⟨hfull', hno, hsub⟩ := hover hfull
    rw [hsub, List.mem_append]
    rcases Nat.lt_succ_iff_lt_or_eq.mp hq with hq | rfl
    · exact .inl (h.runningSub hfull' y hy hyn q hq hqp hcur' hex hne hroll)
    · rcases hs.cached y (hy.trans_le hs.advance_le) hyn q hcur' hne hroll with hc | hc
      · rw [hno] at hc
        cases hc
      · exact .inr hc

/-- A round of the loop. -/
theorem Scanned.visit :
    ∃ m', Scanned a l p (k + 1) (sc.visit a p
      (xidFromFull (fullTransactionIdAdvance a.latestCompletedXid)) k) m' := by
  have hle := h.le
  have hadv := hs.advance_le
  have hmw : a.nextXid < m + 2 ^ 31 := by
    rcases h.lowest with hl | hl
    · have := hs.latest_window
      have := lt_advance a.latestCompletedXid
      omega
    · exact hs.window m hl
  unfold ProcArray.Scan.visit
  cases hcur : l.current k with
  | none =>
    rw [if_pos (hs.idle k hcur).1]
    exact ⟨m, h.skip hs fun t _ ht => by rw [hcur] at ht; cases ht⟩
  | some t =>
    obtain ⟨-, htlt, htn, hxid, -⟩ := hs.busy k t hcur
    have hw := hs.window t ⟨k, hcur⟩
    have hM : Near t (fullTransactionIdAdvance a.latestCompletedXid) := by
      exact ⟨by omega, by omega⟩
    have hmt : Near t m := ⟨by omega, by omega⟩
    have hsome : ∀ t', l.current k = some t' → t' = t :=
      fun t' ht' => Option.some.inj (ht'.symm.trans hcur)
    have hne : xidFromFull t ≠ invalidTransactionId := by
      have : 3 ≤ xidFromFull t := htn
      rw [invalidTransactionId]
      omega
    simp only [hxid, if_neg hne]
    split
    · rename_i hkp
      exact ⟨m, h.skip hs fun t' hkp' => absurd hkp hkp'⟩
    split
    · rename_i hprec
      rw [Bool.not_eq_eq_eq_not, Bool.not_true, ← Bool.not_eq_true, normalPrecedes_iff hM] at hprec
      exact ⟨m, h.skip hs fun t' _ ht' _ => by rw [hsome t' ht']; omega⟩
    rename_i hprec
    rw [Bool.not_eq_eq_eq_not, Bool.not_true, Bool.not_eq_false, normalPrecedes_iff hM] at hprec
    split
    · rename_i hflags
      refine ⟨m, h.skip hs fun t' _ ht' hex => ?_⟩
      obtain ⟨h1, h2⟩ := hs.flags k t' ht' hex
      simp [h1, h2] at hflags
    refine ⟨min t m, h.add hs hcur hprec ?_ ?_ ?_⟩
    · have hmin : (if normalTransactionIdPrecedes (xidFromFull t) sc.xmin then xidFromFull t
          else sc.xmin) = xidFromFull (min t m) := by
        rw [h.xmin]
        by_cases hc : t < m
        · rw [if_pos ((normalPrecedes_iff hmt).mpr hc), min_eq_left hc.le]
        · rw [if_neg fun hn => hc ((normalPrecedes_iff hmt).mp hn), min_eq_right (by omega)]
      split
      · exact hmin
      · split <;> exact hmin
    · split
      · rfl
      · split <;> rfl
    · split
      · rename_i hover
        intro hc
        rw [hover] at hc
        cases hc
      · rename_i hover
        split
        · nofun
        · rename_i hover'
          intro _
          exact ⟨by simpa using hover, by simpa using hover', rfl⟩

end

theorem scanned_range (hs : Sound a l) (h : Scanned a l p 0 sc m) (n : ℕ) :
    ∃ m', Scanned a l p n ((List.range n).foldl (ProcArray.Scan.visit a p
      (xidFromFull (fullTransactionIdAdvance a.latestCompletedXid))) sc) m' := by
  induction n with
  | zero => exact ⟨m, h⟩
  | succ n ih =>
    obtain ⟨m', h'⟩ := ih
    rw [List.range_succ, List.foldl_append]
    exact h'.visit hs

theorem tells_getSnapshotData (hs : Sound a l)
    (hreuse : s.snapXactCompletionCount = a.xactCompletionCount →
      ∃ m, Tells a.latestCompletedXid a.nextXid l p s m) :
    ∃ m, Tells a.latestCompletedXid a.nextXid l p (a.getSnapshotData p s).2 m := by
  unfold ProcArray.getSnapshotData
  split
  · rename_i hc
    exact hreuse hc.2.symm
  · have hM := fullNormal_advance hs.latestNormal
    have hadv := hs.advance_le
    have hstart : ∃ m, Scanned a l p 0 ⟨if transactionIdIsNormal (a.procs p).xid &&
        normalTransactionIdPrecedes (a.procs p).xid
          (xidFromFull (fullTransactionIdAdvance a.latestCompletedXid)) then (a.procs p).xid
        else xidFromFull (fullTransactionIdAdvance a.latestCompletedXid), [], [], false⟩ m := by
      cases hcur : l.current p with
      | none =>
        have hx := (hs.idle p hcur).1
        refine ⟨_, ?_, hM, le_rfl, .inl rfl, nofun, fun q hq => absurd hq (not_lt_zero q), nofun,
          fun _ y _ _ q hq => absurd hq (not_lt_zero q)⟩
        rw [hx]
        rfl
      | some t =>
        obtain ⟨-, htlt, htn, hxid, -⟩ := hs.busy p t hcur
        have hw := hs.window t ⟨p, hcur⟩
        have hnear : Near t (fullTransactionIdAdvance a.latestCompletedXid) := by
          have := hs.latest_window
          have := lt_advance a.latestCompletedXid
          exact ⟨by omega, by omega⟩
        have hprec := normalPrecedes_iff hnear
        rw [hxid, isNormal_xid htn, Bool.true_and]
        split
        · rename_i hc
          exact ⟨t, rfl, htn, (hprec.mp hc).le, .inr ⟨p, hcur⟩, nofun,
            fun q hq => absurd hq (not_lt_zero q), nofun,
            fun _ y _ _ q hq => absurd hq (not_lt_zero q)⟩
        · exact ⟨_, rfl, hM, le_rfl, .inl rfl, nofun,
            fun q hq => absurd hq (not_lt_zero q), nofun,
            fun _ y _ _ q hq => absurd hq (not_lt_zero q)⟩
    obtain ⟨m, h0⟩ := hstart
    have hscan := scanned_range hs h0 a.numProcs
    rw [← advance_xid hs.latestNormal] at hscan
    obtain ⟨m', h⟩ := hscan
    refine ⟨m', (advance_xid hs.latestNormal), h.xmin, h.normal, h.le, h.lowest, rfl, h.xip, ?_,
      h.subxip, ?_⟩
    · exact fun q t hqp hcur => h.running q (hs.busy q t hcur).1 t hqp hcur
    · exact fun hfull y hy hyn q hqp hcur =>
        h.runningSub hfull y hy hyn q (hs.busy q _ hcur).1 hqp hcur

end PostgreSieve.Xact
