import Mathlib.Data.List.GetD
import PostgreSieve.ProcArray.Snapshot

/-! # Snapshots tell running from finished

Every operation keeps the proc array in agreement with the ledger, and a snapshot that may be reused
still tells what runs.
-/

namespace PostgreSieve.Xact

open Function List Option Nat

variable {a : ProcArray} {l : Ledger} {p q t y latest : ℕ}

/-! ## Assigning XIDs -/

theorem lt_or_eq_of_lt_advance (hn : FullNormal a.nextXid)
    (hlt : y < fullTransactionIdAdvance a.nextXid) (hy : FullNormal y) :
    y < a.nextXid ∨ y = a.nextXid := by
  rcases lt_trichotomy y a.nextXid with h | h | h
  · exact .inl h
  · exact .inr h
  · have := advance_le (.inl hn) hy h
    omega

namespace Sound

theorem eq_of_lt_advance (h : Sound a l) (hle : a.nextXid ≤ y)
    (hlt : y < fullTransactionIdAdvance a.nextXid) (hy : FullNormal y) : y = a.nextXid :=
  (lt_or_eq_of_lt_advance h.nextNormal hlt hy).resolve_left (Nat.not_lt.mpr hle)

theorem unique (h : Sound a l) (hp : l.current p = some t) (hq : l.current q = some t) : p = q := by
  obtain ⟨-, hlt, hn, -, htop⟩ := h.busy p t hp
  rw [← h.owner t hlt hn p (by rw [htop]; exact hp), h.owner t hlt hn q (by rw [htop]; exact hq)]

theorem top_lt (h : Sound a l) (hy : y < a.nextXid) (hn : FullNormal y) : l.top y < a.nextXid :=
  (h.top_le y hy hn).1.trans_lt hy

variable {a' : ProcArray} {l' : Ledger}

/-- A backend gets the next XID for its transaction `t`, which is a new one or has begun before. -/
theorem assign (h : Sound a l) (hp : p < a.numProcs) (hnum : a'.numProcs = a.numProcs)
    (hnext : a'.nextXid = fullTransactionIdAdvance a.nextXid)
    (hlatest : a'.latestCompletedXid = a.latestCompletedXid)
    (hprocs : ∀ q ≠ p, a'.procs q = a.procs q) (hxid : (a'.procs p).xid = xidFromFull t)
    (hcur : ∀ q, l'.current q = if q = p then some t else l.current q)
    (ht : l.current p = none ∧ t = a.nextXid ∨ l.current p = some t)
    (htop : ∀ y, l'.top y = if y = a.nextXid then t else l.top y)
    (howner : ∀ y, l'.owner y = if y = a.nextXid then p else l.owner y)
    (hroll : l'.rolledBack = l.rolledBack)
    (hkeep : (a'.procs p).overflowed = true ∨ (a'.procs p).overflowed = (a.procs p).overflowed ∧
      ∀ w ∈ (a.procs p).subxids, w ∈ (a'.procs p).subxids)
    (hnew : t ≠ a.nextXid → (a'.procs p).overflowed = true ∨
      xidFromFull a.nextXid ∈ (a'.procs p).subxids)
    (hcache : ∀ w ∈ (a'.procs p).subxids, w ∈ (a.procs p).subxids ∨ w = xidFromFull a.nextXid)
    (hflags : ∀ q u, l'.current q = some u → l'.exempt u = false →
      (a'.procs q).inVacuum = false ∧ (a'.procs q).inLogicalDecoding = false)
    (hw : a'.nextXid < a'.latestCompletedXid + 2 ^ 31)
    (hr : ∀ t, l'.Running t → a'.nextXid < t + 2 ^ 31) : Sound a' l' := by
  have hadv := lt_advance a.nextXid
  have hcases : ∀ y < a'.nextXid, FullNormal y → y < a.nextXid ∨ y = a.nextXid :=
    fun y hy hn => lt_or_eq_of_lt_advance h.nextNormal (hnext ▸ hy) hn
  have hlt : ∀ y < a.nextXid, FullNormal y → l.top y < a.nextXid := fun y hy hn => h.top_lt hy hn
  have hp' : l'.current p = some t := by rw [hcur, if_pos rfl]
  have hle : t ≤ a.nextXid := by
    rcases ht with ⟨-, rfl⟩ | ht
    · exact le_rfl
    · exact (h.busy p t ht).2.1.le
  have hold : ∀ q u, l'.current q = some u → u < a.nextXid → l.current q = some u := by
    intro q u hq hu
    grind
  have hrun : ∀ u, l.Running u → l'.Running u := by
    rintro u ⟨q, hq⟩
    refine ⟨q, ?_⟩
    grind
  have htw := hr t ⟨p, hp'⟩
  refine ⟨hlatest ▸ h.latestNormal, hnext ▸ fullNormal_advance (.inl h.nextNormal), ?_, hw, hr, ?_,
    ?_, ?_, ?_, ?_, ?_, ?_, ?_, hflags⟩
  · have := h.latest_lt
    omega
  · intro q hq
    have := h.idle q
    grind
  · intro q u hq
    have := h.busy q u
    have := h.nextNormal
    grind
  · intro y hy hn q hq
    have := h.owner y
    have := h.busy q
    grind [h.unique]
  · intro y hy hn
    have := h.top_le y
    grind
  · intro y hy hn
    rw [hroll, hlatest]
    rcases hcases y hy hn with hlt | rfl
    · rw [htop, if_neg hlt.ne]
      exact (h.completed y hlt hn).imp_left fun hc => ⟨hrun _ hc.1, hc.2⟩
    · refine .inl ⟨⟨p, ?_⟩, h.fresh _ le_rfl⟩
      rw [hp', htop, if_pos rfl]
  · intro y hy
    rw [hroll]
    exact h.fresh y (by omega)
  · intro y hy hn q hq hne hr
    rw [htop] at hq hne
    rcases hcases y hy hn with hylt | rfl
    · rw [if_neg hylt.ne] at hq hne
      have hc := h.cached y hylt hn q (hold q _ hq (hlt y hylt hn)) hne (hroll ▸ hr)
      rcases eq_or_ne q p with rfl | hqp
      · rcases hkeep with hk | ⟨hk, hsub⟩
        · exact .inl hk
        · exact hc.imp (fun ho => hk.trans ho) (hsub _)
      · rwa [hprocs q hqp]
    · rw [if_pos rfl] at hq hne
      rcases eq_or_ne q p with rfl | hqp
      · exact hnew hne.symm
      · rw [hcur, if_neg hqp] at hq
        rcases ht with ⟨-, rfl⟩ | ht
        · exact absurd rfl hne
        · exact absurd (h.unique hq ht) hqp
  · intro q w hw
    have := h.cache q w
    have := h.nextNormal
    grind

/-! ## Ending transactions -/

theorem maintainLatest (h : Sound a l) (hl : FullNormal latest) (hlt : latest < a.nextXid)
    (ht : l.Running t) (hle : t ≤ latest) (proc : PgProc) :
    (a.setProc p proc).maintainLatestCompletedXid (xidFromFull latest) =
      { a.setProc p proc with latestCompletedXid := max a.latestCompletedXid latest } := by
  have hnear : Near a.latestCompletedXid latest := by
    have := h.window t ht
    have := h.latest_lt
    have := h.latest_window
    exact ⟨by omega, by omega⟩
  have hlatest : (a.setProc p proc).latestCompletedXid = a.latestCompletedXid := rfl
  rw [ProcArray.maintainLatestCompletedXid, hlatest, fullXidRelativeTo_eq hnear]
  by_cases hc : a.latestCompletedXid < latest
  · rw [if_pos ((precedes_iff_of_completed h.latestNormal hl hnear).mpr hc), max_eq_right hc.le]
  · rw [if_neg fun hp => hc ((precedes_iff_of_completed h.latestNormal hl hnear).mp hp),
      max_eq_left (by omega)]
    rfl

section

variable (h : Sound a l) (hcur : l.current p = some t) (hlt : latest < a.nextXid)
  (hn : FullNormal latest) (hnum : a'.numProcs = a.numProcs) (hnext : a'.nextXid = a.nextXid)
  (hlatest : a'.latestCompletedXid = max a.latestCompletedXid latest)
include h hcur hlt hn hnum hnext hlatest

theorem endTransaction (hle : t ≤ latest)
    (hall : ∀ y < a.nextXid, l.top y = t → l.rolledBack y = false → y ≤ latest)
    (hprocs : a'.procs = update a.procs p { a.procs p with
      xid := invalidTransactionId
      xmin := invalidTransactionId
      inVacuum := false
      subxids := []
      overflowed := false })
    (hl : l' = l.finish p) : Sound a' l' := by
  have hcur' : ∀ q, l'.current q = if q = p then none else l.current q := by
    simp [hl, Ledger.finish, update_apply]
  have htop : l'.top = l.top := by rw [hl]; rfl
  have howner : l'.owner = l.owner := by rw [hl]; rfl
  have hroll : l'.rolledBack = l.rolledBack := by rw [hl]; rfl
  have hexempt : l'.exempt = l.exempt := by rw [hl]; rfl
  have hprocs' : ∀ q, a'.procs q = if q = p then { a.procs p with
      xid := invalidTransactionId
      xmin := invalidTransactionId
      inVacuum := false
      subxids := []
      overflowed := false } else a.procs q := by
    simp [hprocs, update_apply]
  have hlw := h.latest_window
  have hll := h.latest_lt
  refine ⟨hlatest ▸ h.latestNormal.max hn, hnext ▸ h.nextNormal, by omega, by omega, ?_, ?_, ?_, ?_,
    ?_, ?_, ?_, ?_, ?_, ?_⟩
  · rintro u ⟨q, hq⟩
    rw [hcur'] at hq
    split at hq
    · cases hq
    · exact hnext ▸ h.window u ⟨q, hq⟩
  · intro q hq
    have := h.idle q
    grind
  · intro q u hq
    have := h.busy q u
    grind
  · intro y hy hn q hq
    have := h.owner y
    grind
  · intro y hy hn
    have := h.top_le y
    grind
  · intro y hy hn
    rw [hroll, hlatest, htop]
    rcases h.completed y (hnext ▸ hy) hn with ⟨⟨q, hq⟩, hr⟩ | hc
    · rcases eq_or_ne q p with rfl | hne
      · obtain rfl := some.inj (hcur.symm.trans hq)
        have := hall y (hnext ▸ hy) rfl hr
        exact .inr (by omega)
      · exact .inl ⟨⟨q, by rw [hcur', if_neg hne, hq]⟩, hr⟩
    · exact .inr (by omega)
  · intro y hy
    rw [hroll]
    exact h.fresh y (hnext ▸ hy)
  · intro y hy hn q hq hne
    have := h.cached y
    grind
  · intro q w hw
    have := h.cache q w
    grind
  · intro q u hq hex
    have := h.flags q u
    grind

theorem abortSub {xids : List ℕ}
    (hxids : ∀ y ∈ xids, y < a.nextXid ∧ FullNormal y ∧ l.top y = t ∧ y ≠ t ∧ y ≤ latest)
    (hprocs : ∃ subxids, a'.procs = update a.procs p { a.procs p with subxids := subxids } ∧
      (∀ w ∈ subxids, w ∈ (a.procs p).subxids) ∧
      ∀ w ∈ (a.procs p).subxids, w ∉ xids.map xidFromFull → w ∈ subxids)
    (hl : l' = l.rollBack xids) : Sound a' l' := by
  have hcur' : l'.current = l.current := by rw [hl]; rfl
  have htop : l'.top = l.top := by rw [hl]; rfl
  have howner : l'.owner = l.owner := by rw [hl]; rfl
  have hexempt : l'.exempt = l.exempt := by rw [hl]; rfl
  have hroll : ∀ y, l'.rolledBack y = (decide (y ∈ xids) || l.rolledBack y) := by
    rw [hl]
    exact fun y => rfl
  have hrun : ∀ t, l'.Running t ↔ l.Running t := by
    intro t
    rw [Ledger.Running, Ledger.Running, hcur']
  obtain ⟨subxids, hprocs, hsub, hkeep⟩ := hprocs
  have hprocs' : ∀ q, a'.procs q = if q = p then { a.procs p with subxids := subxids }
      else a.procs q := by
    simp [hprocs, update_apply]
  have hlw := h.latest_window
  have hll := h.latest_lt
  refine ⟨hlatest ▸ h.latestNormal.max hn, hnext ▸ h.nextNormal, by omega, by omega, ?_, ?_, ?_, ?_,
    ?_, ?_, ?_, ?_, ?_, ?_⟩
  · intro u hu
    exact hnext ▸ h.window u ((hrun u).mp hu)
  · intro q hq
    have := h.idle q
    grind
  · intro q u hq
    have := h.busy q u
    grind
  · intro y hy hn q hq
    rw [hcur', htop] at hq
    rw [howner]
    exact h.owner y (hnext ▸ hy) hn q hq
  · rw [hnext, htop]
    exact h.top_le
  · intro y hy hn
    rw [hroll, hlatest, htop, hrun]
    by_cases hmem : y ∈ xids
    · have := (hxids y hmem).2.2.2.2
      exact .inr (by omega)
    · rw [decide_eq_false hmem, Bool.false_or]
      exact (h.completed y (hnext ▸ hy) hn).imp_right fun hc => by omega
  · intro y hy
    rw [hroll, h.fresh y (hnext ▸ hy), Bool.or_false]
    exact decide_eq_false fun hmem => absurd (hxids y hmem).1 (by omega)
  · intro y hy hn q hq hne hr
    rw [hcur', htop] at hq
    rw [htop] at hne
    rw [hnext] at hy
    rw [hroll, Bool.or_eq_false_iff, decide_eq_false_iff_not] at hr
    have hc := h.cached y hy hn q hq hne hr.2
    rw [hprocs']
    split
    · rename_i hqp
      subst hqp
      obtain rfl := some.inj (hcur.symm.trans hq)
      refine hc.imp_right fun hm => hkeep _ hm fun hmap => ?_
      -- the XIDs of one transaction have different words
      obtain ⟨z, hz, hzy⟩ := mem_map.mp hmap
      obtain ⟨hzlt, hzn, hzt, -⟩ := hxids z hz
      have hw := h.window _ ⟨q, hq⟩
      have hyt := (h.top_le y hy hn).1
      have hzt' := (h.top_le z hzlt hzn).1
      exact hr.1 (xidFromFull_inj (by omega) (by omega) hzy ▸ hz)
    · exact hc
  · intro q w hw
    have := h.cache q w
    grind
  · intro q u hq hex
    have := h.flags q u
    grind

end

theorem setProc (h : Sound a l) {proc : PgProc} (hxid : proc.xid = (a.procs p).xid)
    (hsub : proc.subxids = (a.procs p).subxids) (hover : proc.overflowed = (a.procs p).overflowed)
    (hcur : l'.current = l.current) (htop : l'.top = l.top)
    (howner : l'.owner = l.owner) (hroll : l'.rolledBack = l.rolledBack)
    (hflags : ∀ q t, l'.current q = some t → l'.exempt t = false →
      ((a.setProc p proc).procs q).inVacuum = false ∧
        ((a.setProc p proc).procs q).inLogicalDecoding = false) :
    Sound (a.setProc p proc) l' := by
  have hprocs : ∀ q, ((a.setProc p proc).procs q).xid = (a.procs q).xid ∧
      ((a.setProc p proc).procs q).subxids = (a.procs q).subxids ∧
      ((a.setProc p proc).procs q).overflowed = (a.procs q).overflowed := by
    intro q
    rcases eq_or_ne q p with rfl | hne
    · simp only [ProcArray.setProc, update_self]
      exact ⟨hxid, hsub, hover⟩
    · simp only [ProcArray.setProc, update_of_ne hne, and_self]
  have hrun : ∀ t, l'.Running t ↔ l.Running t := by
    intro t
    rw [Ledger.Running, Ledger.Running, hcur]
  refine ⟨h.latestNormal, h.nextNormal, h.latest_lt, h.latest_window, ?_, ?_, ?_, ?_, ?_, ?_, ?_, ?_,
    ?_, hflags⟩
  · intro t ht
    exact h.window t ((hrun t).mp ht)
  · intro q hq
    rw [(hprocs q).1, (hprocs q).2.1, (hprocs q).2.2]
    exact h.idle q (hcur ▸ hq)
  · intro q t hq
    rw [(hprocs q).1, htop]
    exact h.busy q t (hcur ▸ hq)
  · rw [hcur, htop, howner]
    exact h.owner
  · rw [htop]
    exact h.top_le
  · intro y hy hn
    rw [hrun, htop, hroll]
    exact h.completed y hy hn
  · rw [hroll]
    exact h.fresh
  · intro y hy hn q hq
    rw [htop, hroll, (hprocs q).2.1, (hprocs q).2.2]
    rw [hcur, htop] at hq
    exact h.cached y hy hn q hq
  · intro q w hw
    rw [(hprocs q).2.1] at hw
    rw [hcur, htop]
    exact h.cache q w hw

end Sound

/-! ## The cache of subtransaction XIDs -/

theorem lastIndex_spec (l : List ℕ) (x n : ℕ) :
    match ProcArray.lastIndex l x n with
    | some j => j < n ∧ l.getD j 0 = x
    | none => ∀ i < n, l.getD i 0 ≠ x := by
  fun_induction ProcArray.lastIndex l x n with
  | case1 => exact fun i hi => absurd hi (not_lt_zero i)
  | case2 n h => exact ⟨lt_succ_self n, h⟩
  | case3 n h ih =>
    split at ih
    · exact ⟨ih.1.trans (lt_succ_self n), ih.2⟩
    · intro i hi
      rcases Nat.lt_succ_iff_lt_or_eq.mp hi with hi | rfl
      · exact ih i hi
      · exact h

theorem mem_removeSubxid {l : List ℕ} {x w : ℕ} :
    (w ∈ ProcArray.removeSubxid l x → w ∈ l) ∧
      (w ∈ l → w ≠ x → w ∈ ProcArray.removeSubxid l x) := by
  have hspec := lastIndex_spec l x l.length
  unfold ProcArray.removeSubxid
  cases hj : ProcArray.lastIndex l x l.length with
  | none => exact ⟨id, fun h _ => h⟩
  | some j =>
    rw [hj] at hspec
    obtain ⟨hlt, hget⟩ := hspec
    rw [getD_eq_getElem _ _ hlt] at hget
    have hlast : l.getD (l.length - 1) 0 = l[l.length - 1] := getD_eq_getElem ..
    simp only [hlast]
    constructor
    · intro hw
      rcases mem_or_eq_of_mem_set (dropLast_subset _ hw) with hw | rfl
      · exact hw
      · exact getElem_mem _
    · intro hw hne
      obtain ⟨i, hi, rfl⟩ := getElem_of_mem hw
      rw [dropLast_eq_take, length_set]
      rcases lt_or_ge i (l.length - 1) with hil | hil
      · refine mem_take_iff_getElem.mpr ⟨i, by simp; omega, ?_⟩
        rw [getElem_set_ne]
        rintro rfl
        exact hne hget
      · -- the last entry has moved to the place of the removed one
        obtain rfl : i = l.length - 1 := by omega
        have hjl : j < l.length - 1 := by
          rcases eq_or_ne j (l.length - 1) with he | hne'
          · subst he
            exact absurd hget hne
          · omega
        refine mem_take_iff_getElem.mpr ⟨j, by simp; omega, ?_⟩
        rw [getElem_set_self]

theorem mem_removeSubxids {l : List ℕ} {w : ℕ} (xids : List ℕ) :
    (w ∈ xids.foldr (fun x l => ProcArray.removeSubxid l x) l → w ∈ l) ∧
      (w ∈ l → w ∉ xids → w ∈ xids.foldr (fun x l => ProcArray.removeSubxid l x) l) := by
  induction xids with
  | nil => exact ⟨id, fun h _ => h⟩
  | cons x xids ih =>
    refine ⟨fun h => ih.1 (mem_removeSubxid.1 h), fun h hn => ?_⟩
    rw [mem_cons, not_or] at hn
    exact mem_removeSubxid.2 (ih.2 h hn.2) hn.1

/-! ## Runs -/

/-- As long as no transaction with an XID ends, a snapshot keeps telling what runs. -/
theorem Tells.mono {s : Snapshot} {m next : ℕ} {l' : Ledger} (hs : Sound a l)
    (h : Tells a.latestCompletedXid a.nextXid l p s m) (hnext : a.nextXid ≤ next)
    (hcur : ∀ q t, l.current q = some t → l'.current q = some t)
    (hnew : ∀ q t, l'.current q = some t → l.current q = some t ∨ a.nextXid ≤ t)
    (htop : ∀ y < a.nextXid, l'.top y = l.top y)
    (hroll : ∀ y < a.nextXid, l'.rolledBack y = l.rolledBack y)
    (hex : ∀ t < a.nextXid, l'.exempt t = false → l.exempt t = false) :
    Tells a.latestCompletedXid next l' p s m := by
  have hadv := hs.advance_le
  have hle := h.le
  have hrun : ∀ t, l.Running t → l'.Running t := fun t ⟨q, hq⟩ => ⟨q, hcur q t hq⟩
  refine ⟨h.xmax, h.xmin, h.normal, h.le, h.lowest.imp_right (hrun m), h.recovery, ?_, ?_, ?_, ?_⟩
  · intro w hw
    obtain ⟨t, ht, he⟩ := h.xip w hw
    exact ⟨t, hrun t ht, he⟩
  · intro q t hq hqt hext
    rcases lt_or_ge t a.nextXid with hlt | hge
    · rcases hnew q t hqt with hold | hge
      · exact h.running q t hq hold (hex t hlt hext)
      · omega
    · exact ⟨by omega, fun hc => by omega⟩
  · intro hfull w hw
    obtain ⟨y, hy, hn, hyrun, he⟩ := h.subxip hfull w hw
    exact ⟨y, hy.trans_le hnext, hn, htop y hy ▸ hrun _ hyrun, he⟩
  · intro hfull y hy hn q hq hqy hexy hne hr
    have hylt : y < a.nextXid := hy.trans_le hadv
    rw [htop y hylt] at hqy hexy hne
    rw [hroll y hylt] at hr
    have htlt := hs.top_lt hylt hn
    rcases hnew q _ hqy with hold | hge
    · exact h.runningSub hfull y hy hn q hq hold (hex _ htlt hexy) hne hr
    · omega

/-- The proc array agrees with the ledger, and snapshots are reused only as long as they tell what
runs. -/
structure Consistent (s : XactSys) : Prop where
  sound : Sound s.arr s.ledger
  count : ∀ p slot, (s.snapshots p slot).snapXactCompletionCount ≤ s.arr.xactCompletionCount
  tells : ∀ p slot, (s.snapshots p slot).snapXactCompletionCount = s.arr.xactCompletionCount →
    ∃ m, Tells s.arr.latestCompletedXid s.arr.nextXid s.ledger p (s.snapshots p slot) m

variable {s t : XactSys}
variable {a : XactAction}

/-- What the ledger says of the XIDs assigned so far stands. -/
structure Later (s t : XactSys) : Prop where
  next : s.arr.nextXid ≤ t.arr.nextXid
  top : ∀ y < s.arr.nextXid, t.ledger.top y = s.ledger.top y
  owner : ∀ y < s.arr.nextXid, t.ledger.owner y = s.ledger.owner y
  running : ∀ u, t.ledger.Running u → s.ledger.Running u ∨ s.arr.nextXid ≤ u
  fresh : ∀ y, s.arr.nextXid ≤ y → y < t.arr.nextXid → FullNormal y →
    s.ledger.Running (t.ledger.top y) ∨ s.arr.nextXid ≤ t.ledger.top y

theorem Later.of_ledger (hnext : t.arr.nextXid = s.arr.nextXid) (htop : t.ledger.top = s.ledger.top)
    (howner : t.ledger.owner = s.ledger.owner)
    (hrun : ∀ q u, t.ledger.current q = some u → s.ledger.current q = some u) : Later s t :=
  ⟨hnext.ge, fun _ _ => congrFun htop _, fun _ _ => congrFun howner _,
    fun u ⟨q, hq⟩ => .inl ⟨q, hrun q u hq⟩, fun y hle hlt => by omega⟩

theorem Later.trans {u : XactSys} (h : Later s t) (h' : Later t u) : Later s u := by
  refine ⟨h.next.trans h'.next, ?_, ?_, ?_, ?_⟩
  · exact fun y hy => (h'.top y (hy.trans_le h.next)).trans (h.top y hy)
  · exact fun y hy => (h'.owner y (hy.trans_le h.next)).trans (h.owner y hy)
  · intro v hv
    rcases h'.running v hv with hv | hv
    · exact h.running v hv
    · exact .inr (h.next.trans hv)
  · intro y hle hlt hn
    rcases lt_or_ge y t.arr.nextXid with hy | hy
    · rw [h'.top y hy]
      exact h.fresh y hle hy hn
    · rcases h'.fresh y hy hlt hn with hv | hv
      · exact h.running _ hv
      · exact .inr (h.next.trans hv)

section

variable (h : Consistent s)
include h

section

variable (hsound : Sound t.arr t.ledger) (hsnap : t.snapshots = s.snapshots)
include hsound hsnap

/-- After a transaction with an XID has ended, no snapshot is reused. -/
theorem Consistent.of_completed (hcount : t.arr.xactCompletionCount = s.arr.xactCompletionCount + 1)
    (hlater : Later s t) :
    Consistent t ∧ Later s t := by
  refine ⟨⟨hsound, fun p slot => ?_, fun p slot he => ?_⟩, hlater⟩
  · have := h.count p slot
    rw [hsnap]
    omega
  · have := h.count p slot
    rw [hsnap] at he
    omega

theorem Consistent.of_mono (hcount : t.arr.xactCompletionCount = s.arr.xactCompletionCount)
    (hlatest : t.arr.latestCompletedXid = s.arr.latestCompletedXid)
    (hnext : s.arr.nextXid ≤ t.arr.nextXid)
    (hcur : ∀ q u, s.ledger.current q = some u → t.ledger.current q = some u)
    (hnew : ∀ q u, t.ledger.current q = some u → s.ledger.current q = some u ∨ s.arr.nextXid ≤ u)
    (htop : ∀ y < s.arr.nextXid, t.ledger.top y = s.ledger.top y)
    (howner : ∀ y < s.arr.nextXid, t.ledger.owner y = s.ledger.owner y)
    (hroll : ∀ y < s.arr.nextXid, t.ledger.rolledBack y = s.ledger.rolledBack y)
    (hex : ∀ u < s.arr.nextXid, t.ledger.exempt u = false → s.ledger.exempt u = false)
    (hfresh : ∀ y, s.arr.nextXid ≤ y → y < t.arr.nextXid → FullNormal y →
      s.ledger.Running (t.ledger.top y) ∨ s.arr.nextXid ≤ t.ledger.top y) :
    Consistent t ∧ Later s t := by
  refine ⟨⟨hsound, fun p slot => ?_, fun p slot he => ?_⟩, hnext, htop, howner, fun u ⟨q, hq⟩ =>
    (hnew q u hq).imp_left fun hq => ⟨q, hq⟩, hfresh⟩
  · rw [hsnap, hcount]
    exact h.count p slot
  · rw [hsnap, hcount] at he
    obtain ⟨m, hm⟩ := h.tells p slot he
    rw [hsnap, hlatest]
    exact ⟨m, hm.mono h.sound hnext hcur hnew htop hroll hex⟩

end

theorem Consistent.assignXid (hstep : s.step (.assignXid p) = some t) (hw : t.InWindow) :
    Consistent t ∧ Later s t := by
  simp only [XactSys.step] at hstep
  split at hstep
  · rename_i hc
    obtain rfl := some.inj hstep
    have hcur : ∀ q, (s.ledger.begin p s.arr.nextXid
        ((s.arr.procs p).inVacuum || (s.arr.procs p).inLogicalDecoding)).current q =
        if q = p then some s.arr.nextXid else s.ledger.current q := by
      simp [Ledger.begin, update_apply]
    have hproc : (s.arr.getNewTransactionId p false).procs p = _ := update_self ..
    have hother : ∀ q ≠ p, (s.arr.getNewTransactionId p false).procs q = s.arr.procs q :=
      fun q hq => update_of_ne hq ..
    refine h.of_mono (h.sound.assign hc.1 rfl rfl rfl hother (congrArg _ hproc) hcur (.inl ⟨hc.2, rfl⟩)
      (by simp [Ledger.begin, update_apply]) (by simp [Ledger.begin, update_apply]) rfl
      (.inr (by simp [hproc])) (absurd rfl) (fun w hw => .inl (by rwa [hproc] at hw)) ?_ hw.1 hw.2)
      rfl rfl rfl (lt_advance _).le ?_ ?_ (fun y hy => update_of_ne hy.ne ..)
      (fun y hy => update_of_ne hy.ne ..) (fun _ _ => rfl) ?_ ?_
    · intro q u hq hex
      have := h.sound.flags q u
      have := h.sound.busy q u
      simp only [Ledger.begin, update_apply] at hex
      grind
    · intro q u hq
      grind
    · intro q u hq
      grind
    · intro u hu hex
      simp only [Ledger.begin, update_of_ne hu.ne] at hex
      exact hex
    · intro y hle hlt hy
      obtain rfl := h.sound.eq_of_lt_advance hle hlt hy
      exact .inr (by simp only [Ledger.begin, update_self, le_refl])
  · cases hstep

theorem Consistent.assignSubXid (hstep : s.step (.assignSubXid p) = some t) (hw : t.InWindow) :
    Consistent t ∧ Later s t := by
  simp only [XactSys.step] at hstep
  cases hcur : s.ledger.current p with
  | none => simp [hcur] at hstep
  | some u =>
    simp only [hcur, some.injEq] at hstep
    subst hstep
    have hfields : (s.arr.getNewTransactionId p true).numProcs = s.arr.numProcs ∧
        (s.arr.getNewTransactionId p true).nextXid = fullTransactionIdAdvance s.arr.nextXid ∧
        (s.arr.getNewTransactionId p true).latestCompletedXid = s.arr.latestCompletedXid ∧
        (s.arr.getNewTransactionId p true).xactCompletionCount = s.arr.xactCompletionCount ∧
        ∃ subxids overflowed, (s.arr.getNewTransactionId p true).procs = update s.arr.procs p
          { s.arr.procs p with subxids := subxids, overflowed := overflowed } ∧
          ((subxids = (s.arr.procs p).subxids ++ [xidFromFull s.arr.nextXid] ∧
              overflowed = (s.arr.procs p).overflowed) ∨
            (subxids = (s.arr.procs p).subxids ∧ overflowed = true)) := by
      unfold ProcArray.getNewTransactionId
      simp only [Bool.true_eq_false, if_false]
      split
      · exact ⟨rfl, rfl, rfl, rfl, _, _, rfl, .inl ⟨rfl, rfl⟩⟩
      · exact ⟨rfl, rfl, rfl, rfl, _, _, rfl, .inr ⟨rfl, rfl⟩⟩
    obtain ⟨h1, h2, h3, h4, subxids, overflowed, h5, hsub⟩ := hfields
    obtain ⟨hlt, -, -, hxid, -⟩ := h.sound.busy p u hcur
    refine h.of_mono (h.sound.assign hlt h1 h2 h3 (fun q hq => by rw [h5, update_of_ne hq])
      (by rw [h5, update_self, hxid]) (fun q => ?_) (.inr hcur)
      (by simp [Ledger.beginSub, update_apply]) (by simp [Ledger.beginSub, update_apply]) rfl ?_ ?_ ?_
      ?_ hw.1 hw.2) rfl h4 h3 (h2 ▸ (lt_advance _).le) (fun _ _ hq => hq) (fun _ _ hq => .inl hq)
      (fun y hy => update_of_ne hy.ne ..) (fun y hy => update_of_ne hy.ne ..) (fun _ _ => rfl)
      (fun _ _ hex => hex) ?_
    · split
      · rename_i hq
        exact hq ▸ hcur
      · rfl
    · rw [h5, update_self]
      grind
    · rw [h5, update_self]
      grind
    · rw [h5, update_self]
      grind
    · intro q v hq hex
      have := h.sound.flags q v hq hex
      rw [h5, update_apply]
      grind
    · intro y hle hlt hy
      obtain rfl := h.sound.eq_of_lt_advance hle (h2 ▸ hlt) hy
      exact .inl ⟨p, by simp only [Ledger.beginSub, update_self, hcur]⟩

theorem Consistent.abortSub {xid : ℕ} {xids : List ℕ}
    (hstep : s.step (.abortSub p xid xids latest) = some t) : Consistent t ∧ Later s t := by
  simp only [XactSys.step] at hstep
  cases hcur : s.ledger.current p with
  | none => simp [hcur] at hstep
  | some u =>
    simp only [hcur] at hstep
    split at hstep
    · rename_i hg
      obtain rfl := some.inj hstep
      obtain ⟨hlt, hn, htop, -⟩ := hg.2 latest hg.1
      have hle := (h.sound.top_le latest hlt hn).1
      rw [htop] at hle
      have hmax := h.sound.maintainLatest (p := p) hn hlt ⟨p, hcur⟩ hle
      refine h.of_completed (h.sound.abortSub hcur hlt hn ?_ ?_ ?_ hg.2 ?_ rfl) rfl ?_
        (.of_ledger ?_ rfl rfl fun _ _ hq => hq)
      all_goals simp only [ProcArray.xidCacheRemoveRunningXids, hmax]
      · rfl
      · rfl
      · exact ⟨_, rfl, fun w => (mem_removeSubxids ((xid :: xids).map xidFromFull)).1,
          fun w => (mem_removeSubxids ((xid :: xids).map xidFromFull)).2⟩
      · rfl
      · rfl
    · cases hstep

theorem Consistent.endTransaction
    (hstep : s.step (.endTransaction p latest) = some t) : Consistent t ∧ Later s t := by
  simp only [XactSys.step] at hstep
  cases hcur : s.ledger.current p with
  | none => simp [hcur] at hstep
  | some u =>
    simp only [hcur] at hstep
    split at hstep
    · rename_i hg
      obtain rfl := some.inj hstep
      obtain ⟨hlt, hn, htop, hall⟩ := hg
      have hle := (h.sound.top_le latest hlt hn).1
      rw [htop] at hle
      have hmax := h.sound.maintainLatest (p := p) hn hlt ⟨p, hcur⟩ hle
      refine h.of_completed (h.sound.endTransaction hcur hlt hn ?_ ?_ ?_ hle ?hall ?_ rfl) rfl ?_
        (.of_ledger ?_ rfl rfl fun q u hq => ?_)
      case hall =>
        intro y hy hty hr
        rcases lt_or_ge y u with hc | hc
        · omega
        · have := hall (y - u) (by omega)
          rw [Nat.add_sub_cancel' hc] at this
          exact this hty hr
      rotate_right
      · simp only [Ledger.finish, update_apply] at hq
        split at hq
        · cases hq
        · exact hq
      all_goals simp only [ProcArray.procArrayEndTransactionInternal, hmax]
      all_goals rfl
    · cases hstep

theorem Consistent.setProc {proc : PgProc}
    (hxid : proc.xid = (s.arr.procs p).xid) (hsub : proc.subxids = (s.arr.procs p).subxids)
    (hover : proc.overflowed = (s.arr.procs p).overflowed)
    (hvacuum : proc.inVacuum = true → (s.arr.procs p).inVacuum = true)
    (hdecoding : proc.inLogicalDecoding = (s.arr.procs p).inLogicalDecoding) :
    Consistent { s with arr := s.arr.setProc p proc } ∧
      Later s { s with arr := s.arr.setProc p proc } := by
  refine h.of_mono (h.sound.setProc hxid hsub hover rfl rfl rfl rfl ?_) rfl rfl rfl le_rfl
    (fun _ _ hq => hq) (fun _ _ hq => .inl hq) (fun _ _ => rfl) (fun _ _ => rfl) (fun _ _ => rfl)
    (fun _ _ hex => hex) fun y hle hlt => absurd hlt (Nat.not_lt.mpr hle)
  intro q u hq hex
  obtain ⟨hv, hd⟩ := h.sound.flags q u hq hex
  rcases eq_or_ne q p with rfl | hne
  · rw [hv] at hvacuum
    simp only [ProcArray.setProc, update_self, hdecoding, hd, and_true]
    exact Bool.eq_false_iff.mpr fun hc => Bool.false_ne_true (hvacuum hc)
  · simp only [ProcArray.setProc, update_of_ne hne]
    exact ⟨hv, hd⟩

theorem Consistent.endReadOnly (hstep : s.step (.endReadOnly p) = some t) :
    Consistent t ∧ Later s t := by
  simp only [XactSys.step] at hstep
  split at hstep
  · obtain rfl := some.inj hstep
    exact h.setProc rfl rfl rfl (fun hc => absurd hc Bool.false_ne_true) rfl
  · cases hstep

end

theorem Ledger.setExempt_fields (l : Ledger) (p : ℕ) (b : Bool) :
    (l.setExempt p b).current = l.current ∧ (l.setExempt p b).top = l.top ∧
      (l.setExempt p b).owner = l.owner ∧ (l.setExempt p b).rolledBack = l.rolledBack ∧
      ∀ u, (l.setExempt p b).exempt u = false →
        l.exempt u = false ∧ (l.current p = some u → b = false) := by
  unfold Ledger.setExempt
  split
  · rename_i hc
    exact ⟨rfl, rfl, rfl, rfl, fun u hu => ⟨hu, fun hc' => by simp [hc] at hc'⟩⟩
  · rename_i v hc
    refine ⟨rfl, rfl, rfl, rfl, fun u hu => ?_⟩
    simp only [update_apply] at hu
    split at hu
    · rename_i he
      rw [Bool.or_eq_false_iff] at hu
      exact ⟨he ▸ hu.1, fun _ => hu.2⟩
    · rename_i hne
      exact ⟨hu, fun hc' => absurd (some.inj (hc'.symm.trans hc)) hne⟩

theorem Consistent.setFlags (h : Consistent s) {inVacuum inLogicalDecoding : Bool}
    (hstep : s.step (.setFlags p inVacuum inLogicalDecoding) = some t) :
    Consistent t ∧ Later s t := by
  obtain rfl := some.inj hstep
  obtain ⟨hcur, htop, howner, hroll, hex⟩ :=
    s.ledger.setExempt_fields p (inVacuum || inLogicalDecoding)
  refine h.of_mono ?_ rfl rfl rfl le_rfl (fun q u hq => by rw [hcur]; exact hq)
    (fun q u hq => .inl (by rw [← hcur]; exact hq)) (fun y _ => by rw [htop])
    (fun y _ => by rw [howner]) (fun y _ => by rw [hroll]) (fun u _ hu => (hex u hu).1)
    fun y hle hlt => absurd hlt (Nat.not_lt.mpr hle)
  apply Sound.setProc h.sound (by rfl) (by rfl) (by rfl) hcur htop howner hroll
  intro q u hq hu
  rw [hcur] at hq
  obtain ⟨hold, hnew⟩ := hex u hu
  rcases eq_or_ne q p with rfl | hne
  · simp only [ProcArray.setProc, update_self]
    exact Bool.or_eq_false_iff.mp (hnew hq)
  · simp only [ProcArray.setProc, update_of_ne hne]
    exact h.sound.flags q u hq hold

theorem Consistent.takeSnapshot (h : Consistent s) {slot : ℕ}
    (hstep : s.step (.takeSnapshot p slot) = some t) : (Consistent t ∧ Later s t) ∧
      ∃ m, Tells s.arr.latestCompletedXid s.arr.nextXid s.ledger p (t.snapshots p slot) m := by
  simp only [XactSys.step] at hstep
  split at hstep
  · obtain rfl := some.inj hstep
    obtain ⟨m, htells⟩ := tells_getSnapshotData h.sound (h.tells p slot)
    have harr : ∃ xmin, (s.arr.getSnapshotData p (s.snapshots p slot)).1 =
        s.arr.setProc p { s.arr.procs p with xmin := xmin } := by
      unfold ProcArray.getSnapshotData
      split <;> exact ⟨_, rfl⟩
    have hcnt : (s.arr.getSnapshotData p (s.snapshots p slot)).2.snapXactCompletionCount =
        s.arr.xactCompletionCount := by
      unfold ProcArray.getSnapshotData
      split
      · rename_i hc
        exact hc.2.symm
      · rfl
    obtain ⟨xmin, harr⟩ := harr
    generalize s.arr.getSnapshotData p (s.snapshots p slot) = r at htells harr hcnt
    have hset : Consistent { s with arr := r.1 } := by
      rw [harr]
      exact And.left (h.setProc rfl rfl rfl id rfl)
    have hsnap : ∀ q i, (q = p ∧ i = slot ∧ update s.snapshots p
          (update (s.snapshots p) slot r.2) q i = r.2) ∨
        update s.snapshots p (update (s.snapshots p) slot r.2) q i =
          s.snapshots q i := by
      intro q i
      rcases eq_or_ne q p with rfl | hq
      · rcases eq_or_ne i slot with rfl | hi
        · exact .inl ⟨rfl, rfl, by simp⟩
        · exact .inr (by simp [hi])
      · exact .inr (by simp [hq])
    have hfields : r.1.nextXid = s.arr.nextXid ∧ r.1.latestCompletedXid = s.arr.latestCompletedXid ∧
        r.1.xactCompletionCount = s.arr.xactCompletionCount := by
      rw [harr]
      exact ⟨rfl, rfl, rfl⟩
    refine ⟨⟨⟨hset.sound, fun q i => ?_, fun q i he => ?_⟩,
      .of_ledger hfields.1 rfl rfl fun _ _ hq => hq⟩, m, ?_⟩
    · rcases hsnap q i with ⟨-, -, hr⟩ | hr
      · simp only [hr, hcnt, hfields.2.2, le_refl]
      · simp only [hr]
        exact hset.count q i
    · rcases hsnap q i with ⟨rfl, -, hr⟩ | hr
      · simp only [hr, hfields.1, hfields.2.1]
        exact ⟨m, htells⟩
      · simp only [hr] at he ⊢
        exact hset.tells q i he
    · simp only [update_self]
      exact htells
  · cases hstep

theorem Consistent.step (h : Consistent s) (hstep : s.step a = some t) (hw : t.InWindow) :
    Consistent t ∧ Later s t := by
  cases a with
  | assignXid p => exact h.assignXid hstep hw
  | assignSubXid p => exact h.assignSubXid hstep hw
  | abortSub p xid xids latest => exact h.abortSub hstep
  | endTransaction p latest => exact h.endTransaction hstep
  | endReadOnly p => exact h.endReadOnly hstep
  | setFlags p v d => exact h.setFlags hstep
  | takeSnapshot p slot => exact (h.takeSnapshot hstep).1

theorem consistent_start (n : ℕ) (h : FullCompleted latest) :
    Consistent (XactSys.start n latest) := by
  have hlt : latest < fullTransactionIdAdvance latest := lt_advance latest
  have hidle : ∀ t, ¬ (XactSys.start n latest).ledger.Running t := by
    rintro t ⟨q, hq⟩
    cases hq
  refine ⟨⟨h, fullNormal_advance h, hlt, ?_, fun t ht => absurd ht (hidle t), ?_, ?_, ?_, ?_, ?_, ?_, ?_,
    ?_, ?_⟩, fun p slot => zero_le 1, fun p slot he => ?_⟩
  · change fullTransactionIdAdvance latest < latest + 2 ^ 31
    rw [advance_eq h]
    omega
  · exact fun p _ => ⟨rfl, rfl, rfl⟩
  · exact fun p t hp => absurd ⟨p, hp⟩ (hidle t)
  · exact fun y _ _ p hp => absurd ⟨p, hp⟩ (hidle _)
  · exact fun y _ _ => ⟨le_rfl, Nat.lt_add_of_pos_right (by decide)⟩
  · intro y hy hn
    refine .inr (Nat.le_of_not_lt fun hc => ?_)
    exact absurd hy (Nat.not_lt.mpr (advance_le h hn hc))
  · exact fun _ _ => rfl
  · exact fun y _ _ p hp => absurd ⟨p, hp⟩ (hidle _)
  · exact fun p w hw => absurd hw not_mem_nil
  · exact fun p t hp => absurd ⟨p, hp⟩ (hidle t)
  · cases he

theorem Consistent.run (h : Consistent s) {as : List XactAction}
    (hrun : PostgreSieve.run XactSys.step s as = some t)
    (hw : Along XactSys.step XactSys.KeepsWindow s as) : Consistent t ∧ Later s t := by
  refine run_invariant (I := fun u => Consistent u ∧ Later s u) hrun hw ⟨h, ?_⟩ ?_
  · exact .of_ledger rfl rfl rfl fun _ _ hq => hq
  · rintro u a v ⟨hu, hl⟩ hk hstep
    exact (hu.step hstep (hk v hstep)).imp_right hl.trans

theorem along_keepsWindow {as : List XactAction} (hstep : s.step a = some t) (hw : t.InWindow)
    (h : Along XactSys.step XactSys.KeepsWindow t as) :
    Along XactSys.step XactSys.KeepsWindow s (a :: as) := by
  simp only [Along, XactSys.KeepsWindow, hstep, some.injEq, forall_eq']
  exact ⟨hw, h⟩

theorem Ledger.forall_running {P : ℕ → Prop} (n : ℕ) (hidle : ∀ q, l.current (q + n) = none)
    (h : ∀ q < n, ∀ u ∈ l.current q, P u) (u : ℕ) (hu : l.Running u) : P u := by
  obtain ⟨q, hq⟩ := hu
  rcases lt_or_ge q n with hlt | hge
  · exact h q hlt u hq
  · have hnone := hidle (q - n)
    rw [Nat.sub_add_cancel hge, hq] at hnone
    cases hnone

/-- For an XID of another backend that is not of a lazy VACUUM or of logical decoding, a snapshot
tells whether its transaction was running. The XID is within `2 ^ 31` of those that the snapshot
was taken from. -/
theorem snapshot_tells_running {numProcs latest p slot x : ℕ} {as bs : List XactAction}
    {st st₁ st₂ : XactSys} {sub : ℕ → ℕ} (hlatest : FullCompleted latest)
    (hrun : run XactSys.step (XactSys.start numProcs latest) as = some st)
    (hwindow : Along XactSys.step XactSys.KeepsWindow (XactSys.start numProcs latest) as)
    (htake : st.step (.takeSnapshot p slot) = some st₁)
    (hrun' : run XactSys.step st₁ bs = some st₂)
    (hwindow' : Along XactSys.step XactSys.KeepsWindow st₁ bs)
    (hx : FullNormal x) (hassigned : x < st₂.arr.nextXid)
    (howner : st₂.ledger.owner x ≠ p) (hexempt : st.ledger.exempt (st₂.ledger.top x) = false)
    (hxmax : Near x (fullTransactionIdAdvance st.arr.latestCompletedXid))
    (hlive : ∀ t, st.ledger.Running t → Near x t)
    (hsub : transactionIdPrecedes (xidFromFull x) (st₁.snapshots p slot).xmin = false →
      sub (xidFromFull x) = xidFromFull (st₂.ledger.top x)) :
    (st.ledger.Running (st₂.ledger.top x) → st.ledger.rolledBack x = false →
      xidInMVCCSnapshot sub (xidFromFull x) (st₁.snapshots p slot) = true) ∧
    (st.arr.nextXid ≤ x →
      xidInMVCCSnapshot sub (xidFromFull x) (st₁.snapshots p slot) = true) ∧
    (st.Ended (st₂.ledger.top x) →
      xidInMVCCSnapshot sub (xidFromFull x) (st₁.snapshots p slot) = false) := by
  have hst := ((consistent_start numProcs hlatest).run hrun hwindow).1
  obtain ⟨⟨hst₁, hlater₁⟩, m, hm⟩ := hst.takeSnapshot htake
  have hlater : Later st st₂ := hlater₁.trans (hst₁.run hrun' hwindow').2
  have hnear : Near x m := by
    rcases hm.lowest with rfl | hl
    · exact hxmax
    · exact hlive m hl
  have hafter : st.arr.nextXid ≤ x →
      xidInMVCCSnapshot sub (xidFromFull x) (st₁.snapshots p slot) = true := fun hge =>
    hm.of_later hst.sound hx hnear hxmax hge
  refine ⟨fun htop hroll => ?_, hafter, fun hend => ?_⟩
  · rcases lt_or_ge x st.arr.nextXid with hlt | hge
    · rw [hlater.top x hlt] at htop hexempt hsub
      rw [hlater.owner x hlt] at howner
      obtain ⟨q, hq⟩ := htop
      refine hm.of_running hst.sound hx hnear hxmax hsub hlt (fun hqp => howner ?_) hq hroll hexempt
      exact (hst.sound.owner x hlt hx q hq).trans hqp
    · exact hafter hge
  · rcases lt_or_ge x st.arr.nextXid with hlt | hge
    · rw [hlater.top x hlt] at hend hsub
      exact hm.of_ended hst.sound hx hnear hxmax hsub hlt hend.2
    · -- a transaction that has ended gets no more subtransactions
      rcases hlater.fresh x hge hassigned hx with hc | hc
      · exact absurd hc hend.2
      · exact absurd hend.1 (Nat.not_lt.mpr hc)

theorem snapshot_tells_running_wraparound :
    ∃ st st₁, run XactSys.step (XactSys.start 3 (2 ^ 32 - 3))
        [.assignXid 0, .assignXid 1, .endTransaction 1 (2 ^ 32 - 1)] = some st ∧
      st.step (.takeSnapshot 2 0) = some st₁ ∧ st.arr.nextXid = 2 ^ 32 + 3 ∧
      xidInMVCCSnapshot id (2 ^ 32 - 2) (st₁.snapshots 2 0) = true ∧
      xidInMVCCSnapshot id (2 ^ 32 - 1) (st₁.snapshots 2 0) = false := by
  have hwindow : Along XactSys.step XactSys.KeepsWindow (XactSys.start 3 (2 ^ 32 - 3))
      [.assignXid 0, .assignXid 1, .endTransaction 1 (2 ^ 32 - 1)] := by
    refine along_keepsWindow rfl ?_ (along_keepsWindow rfl ?_ (along_keepsWindow rfl ?_ trivial))
    all_goals exact ⟨by decide +kernel, Ledger.forall_running 2 (fun _ => rfl) (by decide +kernel)⟩
  refine ⟨_, _, rfl, rfl, by decide +kernel, ?_, ?_⟩
  · exact (@snapshot_tells_running 3 (2 ^ 32 - 3) 2 0 (2 ^ 32 - 2) _ [] _ _ _ id (by decide) rfl
      hwindow rfl rfl trivial (by decide) (by decide +kernel) (by decide +kernel)
      (by decide +kernel) (by decide +kernel)
      (Ledger.forall_running 2 (fun _ => rfl) (by decide +kernel))
      fun _ => by decide +kernel).1 ⟨0, by decide +kernel⟩ rfl
  · refine (@snapshot_tells_running 3 (2 ^ 32 - 3) 2 0 (2 ^ 32 - 1) _ [] _ _ _ id (by decide) rfl
      hwindow rfl rfl trivial (by decide) (by decide +kernel) (by decide +kernel)
      (by decide +kernel) (by decide +kernel)
      (Ledger.forall_running 2 (fun _ => rfl) (by decide +kernel))
      fun _ => by decide +kernel).2.2 ⟨by decide +kernel, fun h => ?_⟩
    exact Ledger.forall_running (P := (· ≠ 2 ^ 32 - 1)) 2 (fun _ => rfl) (by decide +kernel) _ h rfl

/-! ## Reuse of snapshots -/

/-- Whatever snapshot tells what runs, it gives the same answer. -/
theorem Tells.lookup_iff {a : ProcArray} {l : Ledger} {s : Snapshot} {p m x : ℕ} {sub : ℕ → ℕ}
    (h : Tells a.latestCompletedXid a.nextXid l p s m) (hs : Sound a l) (hx : FullNormal x)
    (hown : x < a.nextXid → l.owner x ≠ p ∧ l.rolledBack x = false ∧ l.exempt (l.top x) = false)
    (hM : Near x (fullTransactionIdAdvance a.latestCompletedXid)) (hlive : ∀ t, l.Running t → Near x t)
    (hsub : transactionIdPrecedes (xidFromFull x) s.xmin = false →
      sub (xidFromFull x) = xidFromFull (l.top x)) :
    xidInMVCCSnapshot sub (xidFromFull x) s = true ↔ a.nextXid ≤ x ∨ l.Running (l.top x) := by
  have hm : Near x m := by
    rcases h.lowest with rfl | hl
    · exact hM
    · exact hlive m hl
  rcases lt_or_ge x a.nextXid with hlt | hge
  · obtain ⟨howner, hroll, hex⟩ := hown hlt
    by_cases hrun : l.Running (l.top x)
    · obtain ⟨q, hq⟩ := id hrun
      have hqp : q ≠ p := fun hqp => howner ((hs.owner x hlt hx q hq).trans hqp)
      exact iff_of_true (h.of_running hs hx hm hM hsub hlt hqp hq hroll hex) (.inr hrun)
    · rw [h.of_ended hs hx hm hM hsub hlt hrun]
      simp [hrun, hlt]
  · exact iff_of_true (h.of_later hs hx hm hM hge) (.inl hge)

theorem XactSys.inWindow_of_lt (h : s.arr.nextXid < 2 ^ 31) : s.InWindow :=
  ⟨h.trans_le (Nat.le_add_left ..), fun _ _ => h.trans_le (Nat.le_add_left ..)⟩

end PostgreSieve.Xact
