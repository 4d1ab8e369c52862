import PostgreSieve.SyncRep.Basic

/-! # Synchronous replication does not acknowledge early

A released position is one that the standbys of the configuration have reported, if it is computed
from valid positions and `num_sync` fits in a byte. Everyone who is told that a position is reached
has waited for at most a released position.
-/

namespace PostgreSieve.SyncRep

open Function List

variable {Proc : Type} {config : SyncRepConfig} {walsnds : List WalSnd} {r : Release}
  {me lsn ptr k : ℕ} {m : WaitMode} {a b : SyncRepStandbyData}
  {standbys : List SyncRepStandbyData}
variable {queue : List (Proc × ℕ)} {l : List (Proc × ℕ)} {x : Proc × ℕ}

/-! ## What the standbys have reported -/

/-- In the order of priorities, with ties broken by the position in the array. -/
def Before (v w : WalSnd) (i j : ℕ) : Prop :=
  v.syncStandbyPriority < w.syncStandbyPriority ∨
    v.syncStandbyPriority = w.syncStandbyPriority ∧ i < j

/-- As many candidates as asked for have reported the position. With priorities, these are the
best ones. -/
def Release.Confirmed (r : Release) (m : WaitMode) (lsn : ℕ) : Prop :=
  ∃ config S, r.config = some config ∧ config.numSync ≤ Finset.card S ∧
    (∀ i ∈ S, ∃ w, r.walsnds[i]? = some w ∧ w.candidate = true ∧ lsn ≤ w.position m) ∧
    (config.syncrepMethod = .priority → S.card = config.numSync ∧
      ∀ i ∈ S, ∀ j ∉ S, ∀ v w, r.walsnds[i]? = some v → r.walsnds[j]? = some w →
        w.candidate = true → Before v w i j)

/-- The position that a release computes. -/
def Release.released (r : Release) (m : WaitMode) : Option ℕ := r.recPtr.bind fun ptr => ptr m

/-- No position is invalid, and `num_sync` is not cut off to another place in the order. -/
def Release.Sound (r : Release) (m : WaitMode) : Prop :=
  ∀ config, r.config = some config →
    match config.syncrepMethod with
    | .priority => ∀ a ∈ getCandidateStandbys config r.me r.walsnds, a.position m ≠ 0
    | .quorum =>
      getNthLatestSyncRecPtr (getCandidateStandbys config r.me r.walsnds) (config.numSync % 2 ^ 8) m
        = getNthLatestSyncRecPtr (getCandidateStandbys config r.me r.walsnds) config.numSync m

theorem Release.Confirmed.mono (h : r.Confirmed m ptr) (hle : lsn ≤ ptr) : r.Confirmed m lsn := by
  obtain ⟨config, S, hconfig, hcard, hS, hbest⟩ := h
  refine ⟨config, S, hconfig, hcard, fun i hi => ?_, hbest⟩
  obtain ⟨w, hw, hcandidate, hptr⟩ := hS i hi
  exact ⟨w, hw, hcandidate, hle.trans hptr⟩

/-! ## Candidates -/

theorem mem_collect : a ∈ collect me walsnds ↔ walsnds[a.walsndIndex]? = some a.toWalSnd ∧
    a.candidate = true ∧ a.isMe = decide (a.walsndIndex = me) := by
  simp only [collect, mem_map, mem_filter, Prod.exists, mk_mem_zipIdx_iff_getElem?]
  constructor
  · rintro ⟨w, i, ⟨hw, hcandidate⟩, rfl⟩
    exact ⟨hw, hcandidate, rfl⟩
  · rintro ⟨hw, hcandidate, hme⟩
    exact ⟨a.toWalSnd, a.walsndIndex, ⟨hw, hcandidate⟩, by rw [← hme]⟩

theorem eq_of_walsndIndex (ha : a ∈ collect me walsnds) (hb : b ∈ collect me walsnds)
    (h : a.walsndIndex = b.walsndIndex) : a = b := by
  obtain ⟨ha, -, hame⟩ := mem_collect.1 ha
  obtain ⟨hb, -, hbme⟩ := mem_collect.1 hb
  obtain ⟨a, i, x⟩ := a
  obtain ⟨b, j, y⟩ := b
  simp_all

theorem nodup_collect : ((collect me walsnds).map (·.walsndIndex)).Nodup := by
  have hsub : ((walsnds.zipIdx.filter fun x => x.1.candidate).map Prod.snd).Sublist
      (walsnds.zipIdx.map Prod.snd) := filter_sublist.map _
  rw [zipIdx_map_snd] at hsub
  rw [collect, map_map]
  exact (nodup_range' ..).sublist hsub

instance : Std.Total standbyPriorityComparator where
  total a b := by
    unfold standbyPriorityComparator
    split_ifs <;> omega

instance : IsTrans SyncRepStandbyData standbyPriorityComparator where
  trans a b c hab hbc := by
    unfold standbyPriorityComparator at *
    split_ifs at * <;> omega

theorem subperm_collect : (getCandidateStandbys config me walsnds).Subperm (collect me walsnds) := by
  unfold getCandidateStandbys
  dsimp only
  split_ifs
  · exact (take_sublist _ _).subperm.trans (perm_insertionSort _ _).subperm
  · exact List.Subperm.refl _

theorem nodup_candidates :
    ((getCandidateStandbys config me walsnds).map (·.walsndIndex)).Nodup := by
  obtain ⟨l, hperm, hsub⟩ : (getCandidateStandbys config me walsnds).Subperm _ := subperm_collect
  exact ((hperm.map _).nodup_iff).1 (nodup_collect.sublist (hsub.map _))

theorem length_candidates (hpriority : config.syncrepMethod = .priority)
    (h : config.numSync ≤ (getCandidateStandbys config me walsnds).length) :
    (getCandidateStandbys config me walsnds).length = config.numSync := by
  unfold getCandidateStandbys at h ⊢
  dsimp only at h ⊢
  split_ifs at h ⊢ with hmany
  · rw [length_take, length_insertionSort, min_eq_left hmany.2.le]
  · rw [hpriority] at hmany
    simp only [true_and, not_lt] at hmany
    exact le_antisymm hmany h

/-- With priorities, the others come after the standbys that are chosen. -/
theorem before_of_notMem (ha : a ∈ getCandidateStandbys config me walsnds)
    (hb : b ∈ collect me walsnds) (hnot : b ∉ getCandidateStandbys config me walsnds) :
    Before a.toWalSnd b.toWalSnd a.walsndIndex b.walsndIndex := by
  have hne : a.walsndIndex ≠ b.walsndIndex := fun h =>
    hnot (eq_of_walsndIndex (subperm_collect.subset ha) hb h ▸ ha)
  unfold getCandidateStandbys at ha hnot
  dsimp only at ha hnot
  split_ifs at ha hnot
  · have hsorted := pairwise_insertionSort standbyPriorityComparator (collect me walsnds)
    have hmem := (mem_insertionSort standbyPriorityComparator).2 hb
    rw [← take_append_drop config.numSync (List.insertionSort _ _)] at hsorted hmem
    have hle := (pairwise_append.1 hsorted).2.2 a ha b
      ((mem_append.1 hmem).resolve_left hnot)
    unfold standbyPriorityComparator at hle
    unfold Before
    split_ifs at hle <;> omega
  · exact absurd hb hnot

/-- The places of standbys in the array. -/
def indices (standbys : List SyncRepStandbyData) : Finset ℕ :=
  (standbys.map (·.walsndIndex)).toFinset

theorem mem_indices {i : ℕ} : i ∈ indices standbys ↔ ∃ a ∈ standbys, a.walsndIndex = i := by
  simp [indices]

theorem card_indices (h : (standbys.map (·.walsndIndex)).Nodup) :
    (indices standbys).card = standbys.length := by
  rw [indices, toFinset_card_of_nodup h, length_map]

/-! ## Priorities -/

theorem confirmed_priority (hconfig : r.config = some config)
    (hpriority : config.syncrepMethod = .priority)
    (henough : config.numSync ≤ (getCandidateStandbys config r.me r.walsnds).length) :
    r.Confirmed m lsn ↔ ∀ a ∈ getCandidateStandbys config r.me r.walsnds, lsn ≤ a.position m := by
  have hcard : (indices (getCandidateStandbys config r.me r.walsnds)).card = config.numSync := by
    rw [card_indices nodup_candidates, length_candidates hpriority henough]
  have hat : ∀ a ∈ getCandidateStandbys config r.me r.walsnds,
      r.walsnds[a.walsndIndex]? = some a.toWalSnd ∧ a.candidate = true := fun a ha =>
    ⟨(mem_collect.1 (subperm_collect.subset ha)).1, (mem_collect.1 (subperm_collect.subset ha)).2.1⟩
  constructor
  · rintro ⟨config', S, hconfig', -, hS, hbest⟩ a ha
    obtain rfl : config = config' := Option.some.inj (hconfig.symm.trans hconfig')
    obtain ⟨hScard, hbest⟩ := hbest hpriority
    by_cases hmem : a.walsndIndex ∈ S
    · obtain ⟨w, hw, -, hle⟩ := hS _ hmem
      rw [(hat a ha).1] at hw
      rwa [Option.some.inj hw]
    · -- the other set has one that is not chosen, and each of the two would come first
      obtain ⟨j, hjS, hj⟩ : ∃ j ∈ S, j ∉ indices (getCandidateStandbys config r.me r.walsnds) := by
        by_contra hall
        push Not at hall
        have heq := Finset.eq_of_subset_of_card_le hall (hcard.trans hScard.symm).le
        exact hmem (heq ▸ mem_indices.2 ⟨a, ha, rfl⟩)
      obtain ⟨w, hw, hcandidate, -⟩ := hS j hjS
      have hb : (⟨w, j, decide (j = r.me)⟩ : SyncRepStandbyData) ∈ collect r.me r.walsnds :=
        mem_collect.2 ⟨hw, hcandidate, rfl⟩
      have h₁ := before_of_notMem ha hb fun h => hj (mem_indices.2 ⟨_, h, rfl⟩)
      have h₂ := hbest j hjS _ hmem _ _ hw (hat a ha).1 (hat a ha).2
      unfold Before at h₁ h₂
      dsimp only at h₁
      omega
  · intro h
    refine ⟨config, _, hconfig, hcard.ge, fun i hi => ?_, fun _ => ⟨hcard, ?_⟩⟩
    · obtain ⟨a, ha, rfl⟩ := mem_indices.1 hi
      exact ⟨a.toWalSnd, (hat a ha).1, (hat a ha).2, h a ha⟩
    · intro i hi j hj v w hv hw hcandidate
      obtain ⟨a, ha, rfl⟩ := mem_indices.1 hi
      rw [(hat a ha).1] at hv
      obtain rfl := Option.some.inj hv
      have hb : (⟨w, j, decide (j = r.me)⟩ : SyncRepStandbyData) ∈ collect r.me r.walsnds :=
        mem_collect.2 ⟨hw, hcandidate, rfl⟩
      exact before_of_notMem ha hb fun h => hj (mem_indices.2 ⟨_, h, rfl⟩)

theorem foldl_oldest (h : ∀ a ∈ standbys, a.position m ≠ 0) (hptr : ptr ≠ 0) :
    standbys.foldl (fun ptr s => if ptr = 0 ∨ ptr > s.position m then s.position m else ptr) ptr
      ≤ ptr ∧
    ∀ a ∈ standbys, standbys.foldl
      (fun ptr s => if ptr = 0 ∨ ptr > s.position m then s.position m else ptr) ptr
        ≤ a.position m := by
  induction standbys generalizing ptr with
  | nil => exact ⟨le_rfl, nofun⟩
  | cons b standbys ih =>
    rw [forall_mem_cons] at h
    rw [foldl_cons, forall_mem_cons]
    split_ifs with hlt
    · obtain ⟨hle, hall⟩ := ih h.2 h.1
      exact ⟨by omega, hle, hall⟩
    · obtain ⟨hle, hall⟩ := ih h.2 hptr
      exact ⟨hle, by omega, hall⟩

theorem getOldestSyncRecPtr_le (h : ∀ a ∈ standbys, a.position m ≠ 0) (ha : a ∈ standbys) :
    getOldestSyncRecPtr standbys m ≤ a.position m := by
  cases standbys with
  | nil => cases ha
  | cons b standbys =>
    rw [forall_mem_cons] at h
    obtain ⟨hle, hall⟩ := foldl_oldest h.2 h.1
    rcases mem_cons.1 ha with rfl | ha
    · exact hle
    · exact hall a ha

/-! ## Quorums -/

theorem confirmed_quorum (hconfig : r.config = some config)
    (hquorum : config.syncrepMethod = .quorum) : r.Confirmed m lsn ↔
      config.numSync ≤ (getCandidateStandbys config r.me r.walsnds).countP
        fun a => lsn ≤ a.position m := by
  have hall : getCandidateStandbys config r.me r.walsnds = collect r.me r.walsnds :=
    if_neg (by simp [hquorum])
  have hcard : (indices ((collect r.me r.walsnds).filter fun a => lsn ≤ a.position m)).card
      = (collect r.me r.walsnds).countP fun a => lsn ≤ a.position m := by
    rw [card_indices (nodup_collect.sublist (filter_sublist.map _)), countP_eq_length_filter]
  rw [hall, ← hcard]
  constructor
  · rintro ⟨config', S, hconfig', hle, hS, -⟩
    obtain rfl : config = config' := Option.some.inj (hconfig.symm.trans hconfig')
    refine hle.trans (Finset.card_le_card fun i hi => ?_)
    obtain ⟨w, hw, hcandidate, hptr⟩ := hS i hi
    refine mem_indices.2 ⟨⟨w, i, decide (i = r.me)⟩, mem_filter.2 ⟨?_, decide_eq_true hptr⟩, rfl⟩
    exact mem_collect.2 ⟨hw, hcandidate, rfl⟩
  · intro h
    refine ⟨config, _, hconfig, h, fun i hi => ?_, fun hpriority => ?_⟩
    · obtain ⟨a, ha, rfl⟩ := mem_indices.1 hi
      obtain ⟨ha, hptr⟩ := mem_filter.1 ha
      obtain ⟨hw, hcandidate, -⟩ := mem_collect.1 ha
      exact ⟨a.toWalSnd, hw, hcandidate, of_decide_eq_true hptr⟩
    · rw [hquorum] at hpriority
      cases hpriority

theorem lt_countP_iff {l : List ℕ} (h : l.Pairwise (· ≥ ·)) (k : ℕ) :
    k < l.countP (fun x => lsn ≤ x) ↔ ∃ x, l[k]? = some x ∧ lsn ≤ x := by
  induction l generalizing k with
  | nil => simp
  | cons y l ih =>
    rw [pairwise_cons] at h
    rw [countP_cons]
    by_cases hy : lsn ≤ y
    · cases k with
      | zero => simp [hy]
      | succ k => simpa [hy] using ih h.2 k
    · have hnone : l.countP (fun x => lsn ≤ x) = 0 := by
        rw [countP_eq_zero]
        intro x hx
        have := h.1 x hx
        simp only [decide_eq_true_eq]
        omega
      rw [hnone]
      simp only [hy, decide_false, Bool.false_eq_true, if_false, Nat.add_zero, Nat.not_lt_zero,
        false_iff, not_exists, not_and]
      intro x hx
      rcases mem_cons.1 (mem_of_getElem? hx) with rfl | hx
      · exact hy
      · have := h.1 x hx
        omega

theorem pairwise_latest : (latest standbys m).Pairwise (· ≥ ·) :=
  pairwise_insertionSort _ _

theorem le_countP_iff (hk : 0 < k) : k ≤ standbys.countP (fun a => lsn ≤ a.position m) ↔
    ∃ x, getNthLatestSyncRecPtr standbys k m = some x ∧ lsn ≤ x := by
  have hcount : (latest standbys m).countP (fun x => lsn ≤ x)
      = standbys.countP fun a => lsn ≤ a.position m := by
    rw [latest, (perm_insertionSort _ _).countP_eq, countP_map]
    rfl
  rw [getNthLatestSyncRecPtr, if_neg hk.ne', ← hcount, ← lt_countP_iff pairwise_latest]
  omega

theorem getNthLatestSyncRecPtr_le {j x y : ℕ} (hkj : k ≤ j)
    (hx : getNthLatestSyncRecPtr standbys k m = some x)
    (hy : getNthLatestSyncRecPtr standbys j m = some y) : y ≤ x := by
  have hk : 0 < k := Nat.pos_of_ne_zero fun h => by
    rw [getNthLatestSyncRecPtr, if_pos h] at hx
    cases hx
  obtain ⟨x', hx', hle⟩ := (le_countP_iff hk).1
    (hkj.trans ((le_countP_iff (hk.trans_le hkj)).2 ⟨y, hy, le_rfl⟩))
  rw [hx] at hx'
  rwa [Option.some.inj hx']

/-! ## What a release computes -/

theorem released_eq_some (h : r.released m = some ptr) : ∃ config, r.config = some config ∧
    config.numSync ≤ (getCandidateStandbys config r.me r.walsnds).length ∧
    match config.syncrepMethod with
    | .priority => getOldestSyncRecPtr (getCandidateStandbys config r.me r.walsnds) m = ptr
    | .quorum => getNthLatestSyncRecPtr (getCandidateStandbys config r.me r.walsnds)
        (config.numSync % 2 ^ 8) m = some ptr := by
  unfold Release.released Release.recPtr getSyncRecPtr at h
  cases hconfig : r.config with
  | none => simp [hconfig] at h
  | some config =>
    simp only [hconfig, Option.bind_some] at h
    split_ifs at h with henough
    · refine ⟨config, rfl, henough.2, ?_⟩
      cases hmethod : config.syncrepMethod <;> simpa [hmethod] using h
    · cases h

/-- A position that is not invalid has been reported as the configuration asks for if and only if it
is computed from valid positions, and `num_sync` is not cut off. -/
theorem confirmed_iff_sound (h : r.released m = some ptr) (hvalid : ptr ≠ 0) :
    r.Confirmed m ptr ↔ r.Sound m := by
  obtain ⟨config, hconfig, henough, hptr⟩ := released_eq_some h
  simp only [Release.Sound, hconfig, Option.some.injEq, forall_eq']
  cases hmethod : config.syncrepMethod with
  | priority =>
    simp only [hmethod] at hptr
    rw [confirmed_priority hconfig hmethod henough, ← hptr]
    constructor
    · intro hle a ha
      have := hle a ha
      omega
    · exact fun hne a ha => getOldestSyncRecPtr_le hne ha
  | quorum =>
    simp only [hmethod] at hptr
    rw [confirmed_quorum hconfig hmethod, le_countP_iff config.numSync_pos]
    rw [hptr]
    constructor
    · rintro ⟨x, hx, hle⟩
      have hge := getNthLatestSyncRecPtr_le (Nat.mod_le _ _) hptr hx
      rw [hx, le_antisymm hle hge]
    · exact fun hx => ⟨ptr, hx.symm, le_rfl⟩

/-! ## Queues -/

theorem mem_queueInsert {x w : Proc × ℕ} :
    w ∈ queueInsert queue x ↔ w = x ∨ w ∈ queue := by
  have hmem : ∀ l : List (Proc × ℕ), w ∈ insertFromTail x l ↔ w = x ∨ w ∈ l := by
    intro l
    induction l with
    | nil => simp [insertFromTail]
    | cons v l ih =>
      rw [insertFromTail]
      split_ifs
      · simp
      · rw [mem_cons, ih, mem_cons, or_left_comm]
  rw [queueInsert, mem_reverse, hmem, mem_reverse]

theorem pairwise_insertFromTail (h : l.Pairwise fun v w => w.2 ≤ v.2) :
    (insertFromTail x l).Pairwise fun v w => w.2 ≤ v.2 := by
  induction l with
  | nil => exact pairwise_singleton _ _
  | cons v l ih =>
    have hv := (pairwise_cons.1 h).1
    rw [insertFromTail]
    split_ifs with hlt
    · refine pairwise_cons.2 ⟨fun w hw => ?_, h⟩
      rcases mem_cons.1 hw with rfl | hw
      · exact hlt.le
      · exact (hv w hw).trans hlt.le
    · refine pairwise_cons.2 ⟨fun w hw => ?_, ih (pairwise_cons.1 h).2⟩
      have hmem : w ∈ queueInsert l.reverse x := by
        rwa [queueInsert, reverse_reverse, mem_reverse]
      rcases mem_queueInsert.1 hmem with rfl | hw
      · exact not_lt.1 hlt
      · exact hv w (mem_reverse.1 hw)

theorem pairwise_queueInsert (h : queue.Pairwise fun v w => v.2 ≤ w.2) :
    (queueInsert queue x).Pairwise fun v w => v.2 ≤ w.2 := by
  rw [queueInsert, pairwise_reverse]
  exact pairwise_insertFromTail (pairwise_reverse.2 h)

theorem lt_of_mem_dropWhile (h : l.Pairwise fun v w => v.2 ≤ w.2)
    {w : Proc × ℕ} (hw : w ∈ l.dropWhile fun w => w.2 ≤ ptr) : ptr < w.2 := by
  induction l with
  | nil => cases hw
  | cons v l ih =>
    rw [dropWhile_cons] at hw
    split_ifs at hw with hv
    · exact ih (pairwise_cons.1 h).2 hw
    · rw [decide_eq_true_eq, not_le] at hv
      rcases mem_cons.1 hw with rfl | hw
      · exact hv
      · exact hv.trans_le ((pairwise_cons.1 h).1 w hw)

/-! ## Runs -/

/-- What holds between two steps. -/
structure Inv (s : State Proc) : Prop where
  sorted : ∀ m, (s.queue m).Pairwise fun v w => v.2 ≤ w.2
  beyond : ∀ m, ∀ w ∈ s.queue m, s.lsn m < w.2
  released : ∀ m, s.lsn m ≠ 0 → ∃ r ∈ s.releases, r.released m = some (s.lsn m)
  acknowledged : ∀ p lsn m, (p, lsn, m) ∈ s.acknowledged → lsn ≠ 0 →
    ∃ r ∈ s.releases, ∃ ptr, r.released m = some ptr ∧ lsn ≤ ptr

variable {s t : State Proc}

theorem releases_advance : (s.advance m ptr).releases = s.releases := by
  unfold State.advance
  split_ifs <;> rfl

theorem lsn_le_advance (n : WaitMode) : s.lsn n ≤ (s.advance m ptr).lsn n := by
  unfold State.advance
  split_ifs with hlt
  · by_cases hn : n = m
    · subst hn
      simpa using hlt.le
    · simp [hn]
  · exact le_rfl

theorem Inv.advance (h : Inv s) (hr : r ∈ s.releases) (hptr : r.released m = some ptr) :
    Inv (s.advance m ptr) := by
  unfold State.advance
  split_ifs with hlt
  · constructor
    · intro n
      by_cases hn : n = m
      · subst hn
        simpa using (h.sorted n).sublist (dropWhile_sublist _)
      · simpa [hn] using h.sorted n
    · intro n w hw
      by_cases hn : n = m
      · subst hn
        simp only [update_self] at hw ⊢
        exact lt_of_mem_dropWhile (h.sorted n) hw
      · simp only [update_of_ne hn] at hw ⊢
        exact h.beyond n w hw
    · intro n hn'
      by_cases hn : n = m
      · subst hn
        exact ⟨r, hr, by simpa using hptr⟩
      · simp only [update_of_ne hn] at hn' ⊢
        exact h.released n hn'
    · intro p lsn n hmem hne
      rcases mem_append.1 hmem with hmem | hmem
      · exact h.acknowledged p lsn n hmem hne
      · obtain ⟨w, hw, heq⟩ := mem_map.1 hmem
        cases heq
        exact ⟨r, hr, ptr, hptr, by simpa using mem_takeWhile_imp hw⟩
  · exact h

theorem Inv.releaseWaiters (h : Inv s) (hstep : releaseWaiters s r = some t) :
    Inv t ∧ ∀ m, s.lsn m ≤ t.lsn m := by
  have hrecord : Inv { s with releases := s.releases ++ [r] } := by
    refine ⟨h.sorted, h.beyond, fun m hne => ?_, fun p lsn m hmem hne => ?_⟩
    · obtain ⟨r', hr', hptr⟩ := h.released m hne
      exact ⟨r', mem_append_left _ hr', hptr⟩
    · obtain ⟨r', hr', hptr⟩ := h.acknowledged p lsn m hmem hne
      exact ⟨r', mem_append_left _ hr', hptr⟩
  have hr : r ∈ s.releases ++ [r] := mem_append_right _ mem_cons_self
  unfold SyncRep.releaseWaiters at hstep
  dsimp only at hstep
  split_ifs at hstep
  · cases hstep
    exact ⟨hrecord, fun m => le_rfl⟩
  · cases hrec : r.recPtr with
    | none =>
      rw [hrec] at hstep
      cases hstep
      exact ⟨hrecord, fun m => le_rfl⟩
    | some ptr =>
      simp only [hrec, Option.bind_eq_bind, Option.bind_eq_some_iff] at hstep
      obtain ⟨writePtr, hwrite, flushPtr, hflush, applyPtr, happly, hstep⟩ := hstep
      cases hstep
      have hptr : ∀ m x, ptr m = some x → r.released m = some x := fun m x hx => by
        rw [Release.released, hrec, Option.bind_some, hx]
      refine ⟨?_, fun m => le_trans (lsn_le_advance (s := { s with releases := s.releases ++ [r] }) m)
        ((lsn_le_advance m).trans (lsn_le_advance m))⟩
      refine Inv.advance (Inv.advance (hrecord.advance hr (hptr _ _ hwrite)) ?_ (hptr _ _ hflush)) ?_
        (hptr _ _ happly)
      · rwa [releases_advance]
      · rwa [releases_advance, releases_advance]

theorem inv_init : Inv (State.init : State Proc) :=
  ⟨fun _ => List.Pairwise.nil, nofun, fun _ h => absurd rfl h, nofun⟩

variable [DecidableEq Proc]

theorem Inv.step (h : Inv s) {action : Action Proc} (hstep : step s action = some t) :
    Inv t ∧ ∀ m, s.lsn m ≤ t.lsn m := by
  cases action with
  | wait p lsn m statusInit statusDefined namesDefined =>
    simp only [SyncRep.step] at hstep
    split_ifs at hstep with hwaiting hundefined hle hnone
    · cases hstep
      exact ⟨h, fun m => le_rfl⟩
    · cases hstep
      refine ⟨⟨h.sorted, h.beyond, h.released, fun p' lsn' m' hmem hne => ?_⟩, fun m => le_rfl⟩
      rcases mem_append.1 hmem with hmem | hmem
      · exact h.acknowledged p' lsn' m' hmem hne
      · cases mem_singleton.1 hmem
        obtain ⟨r, hr, hptr⟩ := h.released m (by omega)
        exact ⟨r, hr, _, hptr, hle⟩
    · cases hstep
      exact ⟨h, fun m => le_rfl⟩
    · cases hstep
      refine ⟨⟨fun n => ?_, fun n w hw => ?_, h.released, h.acknowledged⟩, fun m => le_rfl⟩
      · by_cases hn : n = m
        · subst hn
          simpa using pairwise_queueInsert (h.sorted n)
        · simpa [hn] using h.sorted n
      · by_cases hn : n = m
        · subst hn
          simp only [update_self] at hw
          rcases mem_queueInsert.1 hw with rfl | hw
          · exact not_le.1 hle
          · exact h.beyond n w hw
        · simp only [update_of_ne hn] at hw
          exact h.beyond n w hw
  | release r => exact h.releaseWaiters hstep
  | cancel p =>
    cases hstep
    exact ⟨⟨fun n => (h.sorted n).sublist filter_sublist,
      fun n w hw => h.beyond n w (mem_of_mem_filter hw), h.released, h.acknowledged⟩,
      fun m => le_rfl⟩

/-- A streaming standby with its flush and apply positions. -/
def standby (priority flush apply : ℕ) : WalSnd := ⟨1, .streaming, flush, flush, apply, priority⟩

/-- A backend waits for position 50 to be applied by the first two standbys. -/
def firstTwo (apply : ℕ) : List (Action Unit) :=
  [.wait () 50 .apply true true true, .release
    ⟨some ⟨2, by decide, .priority⟩, [standby 1 100 apply, standby 2 100 100], 1⟩]

end PostgreSieve.SyncRep
