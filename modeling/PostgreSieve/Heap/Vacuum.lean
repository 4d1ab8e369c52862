import PostgreSieve.Heap.Transparent

/-! # Vacuum keeps what snapshots see

A tuple that `HeapTupleSatisfiesVacuum` or `HeapTupleIsSurelyDead` calls dead is invisible to every
snapshot whose `xmin` the horizon does not exceed, from then on and whatever hints it gets.
-/

namespace PostgreSieve.Heap

open Xact

variable {members : ℕ → List MultiXactMember} {v : Visit members} {snapshot : Visit.MvccSnapshot}
  {o o' : Oracle} {t t' : HeapTupleHeader} {oldestXmin oldest xmin x : ℕ}

/-- The transaction that deletes or updates the tuple, if there is one. -/
def deleter (members : ℕ → List MultiXactMember) (t : HeapTupleHeader) : ℕ :=
  if t.xmaxIsMulti then heapTupleGetUpdateXid members t else t.xmax

/-- The deleter has committed and is older than the horizon. -/
structure Deleted (members : ℕ → List MultiXactMember) (o : Oracle) (oldestXmin : ℕ)
    (t : HeapTupleHeader) : Prop where
  valid : t.xmaxInvalid = false
  notLocker : t.xmaxIsLockedOnly = false
  committed : o (deleter members t) = .committed
  old : transactionIdPrecedes (deleter members t) oldestXmin = true

/-- There is no inserter any more, or a committed one and an old deleter. -/
def Dead (members : ℕ → List MultiXactMember) (o : Oracle) (oldestXmin : ℕ) (t : HeapTupleHeader) :
    Prop :=
  t.xminCommitted = false ∧ (o t.xmin = .aborted ∨ MovedAway o t) ∨
    Deleted members o oldestXmin t ∧ (t.xminCommitted = true ∨
      t.xminInvalid = false ∧ o t.xmin = .committed ∧ InPlace o t)

theorem Deleted.mono (h : Deleted members o oldestXmin t) (hl : Later o o') :
    Deleted members o' oldestXmin t :=
  ⟨h.valid, h.notLocker, hl.committed h.committed, h.old⟩

theorem Dead.mono (h : Dead members o oldestXmin t) (hl : Later o o') :
    Dead members o' oldestXmin t := by
  rcases h with ⟨hc, hx⟩ | ⟨hd, hc⟩
  · exact .inl ⟨hc, hx.imp hl.aborted fun h => h.mono hl⟩
  · exact .inr ⟨hd.mono hl, hc.imp_right fun ⟨hi, hx, hp⟩ => ⟨hi, hl.committed hx, hp.mono hl⟩⟩

/-! ## What the routines call dead -/

theorem Visit.vacuumXmax_recentlyDead (h : (v.vacuumXmax t).2 = (.recentlyDead, x))
    (ht : Truthful members v.final t) :
    t.xmaxInvalid = false ∧ t.xmaxIsLockedOnly = false ∧ x = deleter members t ∧
      v.final x = .committed := by
  unfold vacuumXmax at h
  split at h
  · cases h
  rename_i hi
  split at h
  · split at h
    · split at h
      · split at h <;> cases h
      · split at h <;> cases h
    · cases h
  rename_i hl
  refine ⟨by simpa using hi, by simpa using hl, ?_⟩
  unfold deleter
  split at h
  · rename_i hm
    dsimp only at h
    split at h
    · cases h
    rename_i hprog
    split at h
    · rename_i hcommit
      obtain rfl := (Prod.mk.inj h).2
      rw [if_pos hm]
      exact ⟨rfl, (v.later_final 5).committed (committed_of_didCommit (deleter_ended hprog) hcommit)⟩
    · split at h <;> cases h
  rename_i hm
  rw [if_neg hm]
  split at h
  · split at h
    · cases h
    rename_i hprog
    split at h
    · rename_i hcommit
      obtain rfl := (Prod.mk.inj h).2
      exact ⟨rfl, (v.later_final 5).committed (committed_of_didCommit (deleter_ended hprog) hcommit)⟩
    · cases h
  · rename_i hc
    obtain rfl := (Prod.mk.inj h).2
    exact ⟨rfl, ht.xmaxCommitted (by simpa using hc) (by simpa using hm) (by simpa using hl)⟩

theorem Visit.vacuumXmax_ne_dead : (v.vacuumXmax t).2.1 ≠ .dead := by
  unfold vacuumXmax
  simp only [apply_ite Prod.snd, apply_ite Prod.fst]
  split_ifs <;> nofun

theorem Visit.vacuumOwn_cases :
    v.vacuumOwn t = .insertInProgress ∨ v.vacuumOwn t = .deleteInProgress := by
  unfold vacuumOwn
  split_ifs <;> simp

theorem Visit.dead_of_vacuumXmax {r : HTSVResult} (h : (v.vacuumXmax t).2 = (r, x))
    (ht : Truthful members v.final t)
    (hr : r = .dead ∨ r = .recentlyDead ∧ transactionIdPrecedes x oldestXmin = true) :
    Deleted members v.final oldestXmin t := by
  rcases hr with rfl | ⟨rfl, hprec⟩
  · exact absurd (congrArg Prod.fst h) vacuumXmax_ne_dead
  · obtain ⟨hi, hl, rfl, hcommit⟩ := vacuumXmax_recentlyDead h ht
    exact ⟨hi, hl, hcommit, hprec⟩

theorem XminHinted.deleted (h : XminHinted o t t') (hd : Deleted members o' oldestXmin t') :
    Deleted members o' oldestXmin t := by
  rcases h with rfl | ⟨rfl, -⟩
  · exact hd
  · exact ⟨hd.valid, hd.notLocker, hd.committed, hd.old⟩

theorem Visit.xminInvalid_of_inserter {isRunning : ℕ → Bool}
    (h : v.inserter isRunning t = .ok (t', .committed)) : t.xminInvalid = false := by
  cases hi : t.xminInvalid with
  | false => rfl
  | true =>
    unfold inserter at h
    rw [if_pos hi] at h
    cases h

theorem Visit.dead_of_horizon {r : HTSVResult}
    (h : v.heapTupleSatisfiesVacuumHorizon t = .ok (t', r, x))
    (ht : Truthful members (v.oracle 0) t) (hm : MovedCommitted (v.oracle 0) t)
    (hr : r = .dead ∨ r = .recentlyDead ∧ transactionIdPrecedes x oldestXmin = true) :
    Dead members v.final oldestXmin t := by
  have ht' := ht.mono (v.later_final 0)
  unfold heapTupleSatisfiesVacuumHorizon at h
  split at h
  · rename_i hc
    have hc' : t.xminCommitted = false := by simpa using hc
    obtain ⟨⟨t₁, r₁⟩, hins, h⟩ := bind_eq_ok h
    have hfound := inserter_found hins hm fun _ _ => ended_of_stage_two
    have ht₁ := ht'.hints (hfound.hints hc')
    cases hfound with
    | invalid hi => exact .inl ⟨hc', ht'.xminInvalid hc' hi⟩
    | gone hi hx => exact .inl ⟨hc', hx⟩
    | current =>
      have hown : v.vacuumOwn t = r := congrArg (fun p => p.2.1) (Except.ok.inj h)
      rcases vacuumOwn_cases (v := v) (t := t) with hcase | hcase
      · rw [← hown, hcase] at hr
        simp at hr
      · rw [← hown, hcase] at hr
        simp at hr
    | running =>
      have hrun : .insertInProgress = r := congrArg (fun p => p.2.1) (Except.ok.inj h)
      rw [← hrun] at hr
      simp at hr
    | committed hhint hx hp =>
      have hxmax := congrArg Prod.snd (Except.ok.inj h)
      have hdel := hhint.deleted (dead_of_vacuumXmax hxmax ht₁ hr)
      exact .inr ⟨hdel, .inr ⟨xminInvalid_of_inserter hins, hx, hp⟩⟩
  · rename_i hc
    have hxmax := congrArg Prod.snd (Except.ok.inj h)
    exact .inr ⟨dead_of_vacuumXmax hxmax ht' hr, .inl (by simpa using hc)⟩

theorem Visit.dead_of_vacuum (h : v.heapTupleSatisfiesVacuum oldestXmin t = .ok (t', .dead))
    (ht : Truthful members (v.oracle 0) t) (hm : MovedCommitted (v.oracle 0) t) :
    Dead members v.final oldestXmin t := by
  obtain ⟨⟨t₁, r, deadAfter⟩, hhorizon, h⟩ := bind_eq_ok h
  dsimp only at h
  split at h
  · rename_i hr
    exact dead_of_horizon hhorizon ht hm (.inr hr)
  · obtain ⟨-, rfl⟩ := Prod.mk.inj (Except.ok.inj h)
    exact dead_of_horizon hhorizon ht hm (.inl rfl)

theorem dead_of_surelyDead
    (h : heapTupleIsSurelyDead (fun x => transactionIdPrecedes x oldestXmin) t = true)
    (ht : Truthful members o t) : Dead members o oldestXmin t := by
  unfold heapTupleIsSurelyDead at h
  split at h
  · rename_i hc
    have hc' : t.xminCommitted = false := by simpa using hc
    exact .inl ⟨hc', ht.xminInvalid hc' h⟩
  rename_i hc
  split at h
  · cases h
  rename_i hi
  split at h
  · cases h
  rename_i hl
  split at h
  · cases h
  rename_i hm
  split at h
  · cases h
  rename_i hxc
  have hdel : deleter members t = t.xmax := if_neg hm
  have hcommit := ht.xmaxCommitted (by simpa using hxc) (by simpa using hm) (by simpa using hl)
  exact .inr ⟨⟨by simpa using hi, by simpa using hl, hdel ▸ hcommit, hdel ▸ h⟩,
    .inl (by simpa using hc)⟩

/-! ## Dead tuples are invisible -/

theorem Visit.mvccXmax_of_deleted (h : Deleted members (v.oracle 0) oldestXmin t)
    (hs : v.inSnapshot snapshot (deleter members t) = false) :
    (v.mvccXmax snapshot t).2 = false := by
  have hcur := not_current (v := v) (.inl h.committed)
  have hcommit := didCommit_of_committed ((v.later 0 5 (by decide)).committed h.committed)
  unfold deleter at hs hcur hcommit
  unfold mvccXmax
  simp only [h.valid, h.notLocker, Bool.false_eq_true, if_false]
  split
  · rename_i hm
    simp only [hm, if_true] at hs hcur hcommit
    simp [hs, hcur, hcommit]
  · rename_i hm
    simp only [hm, if_false, Bool.false_eq_true] at hs hcur hcommit
    cases t.xmaxCommitted <;> simp [hs, hcur, hcommit]

theorem Dead.mvccVisible_eq (h : Dead members (v.oracle 0) oldestXmin t)
    (hm : MovedCommitted (v.oracle 0) t)
    (hs : Deleted members (v.oracle 0) oldestXmin t →
      v.inSnapshot snapshot (deleter members t) = false) :
    v.mvccVisible snapshot t = .ok false := by
  rcases h with ⟨hc, hx⟩ | ⟨hd, hc | ⟨hi, hx, hp⟩⟩
  · exact Visit.mvccVisible_of_gone hc hx hm
  · rw [Visit.mvccVisible_of_hinted hc, Visit.mvccXmax_of_deleted hd (hs hd), ite_self]
  · rw [Visit.mvccVisible_of_committed hi hx hp, Visit.mvccXmax_of_deleted hd (hs hd), ite_self]

/-- The id is a special one, or that of a full id within `2 ^ 31` of both. -/
def WithinReach (x a b : ℕ) : Prop :=
  transactionIdIsNormal x = true →
    ∃ full, FullNormal full ∧ xidFromFull full = x ∧ Near full a ∧ Near full b

theorem precedes_of_le (ho : FullNormal oldest) (hx : FullNormal xmin) (hle : oldest ≤ xmin)
    (hr : WithinReach x oldest xmin) (h : transactionIdPrecedes x (xidFromFull oldest) = true) :
    transactionIdPrecedes x (xidFromFull xmin) = true := by
  cases hn : transactionIdIsNormal x with
  | true =>
    obtain ⟨full, hfull, rfl, hnear, hnear'⟩ := hr hn
    rw [precedes_iff hfull ho hnear] at h
    exact (precedes_iff hfull hx hnear').mpr (h.trans_le hle)
  | false =>
    have hlt : x < 3 := by
      simpa using (of_decide_eq_false hn : ¬ 3 ≤ x)
    have hlt' : x < xidFromFull xmin := hlt.trans_le hx
    simp [transactionIdPrecedes, hn, hlt']

/-- A tuple that is found to be dead is invisible from then on, also with the hints it gets. -/
theorem vacuum_dead_invisible (o : Oracle) (t t' : HeapTupleHeader) (w : Visit members)
    (snapshot : Visit.MvccSnapshot) (oldest xmin : ℕ) (ht : Truthful members o t)
    (hm : MovedCommitted o t) (ho : FullNormal oldest) (hx : FullNormal xmin)
    (hsnap : snapshot.xmin = xidFromFull xmin) (hle : oldest ≤ xmin)
    (hreach : t.xmaxInvalid = false → t.xmaxIsLockedOnly = false →
      WithinReach (deleter members t) oldest xmin)
    (hdead :
      (∃ (v : Visit members) (t₁ : HeapTupleHeader), v.oracle 0 = o ∧ Later v.final (w.oracle 0) ∧
        v.heapTupleSatisfiesVacuum (xidFromFull oldest) t = .ok (t₁, .dead)) ∨
      (Later o (w.oracle 0) ∧
        heapTupleIsSurelyDead (fun x => transactionIdPrecedes x (xidFromFull oldest)) t = true))
    (hhints : Hints members (w.oracle 0) t t') :
    ∃ t₂, w.heapTupleSatisfiesMVCC snapshot t' = .ok (t₂, false) := by
  have hdead' : Later o (w.oracle 0) ∧ Dead members (w.oracle 0) (xidFromFull oldest) t := by
    rcases hdead with ⟨v, t₁, rfl, hlater, hvac⟩ | ⟨hlater, hsure⟩
    · exact ⟨(v.later_final 0).trans hlater, (Visit.dead_of_vacuum hvac ht hm).mono hlater⟩
    · exact ⟨hlater, (dead_of_surelyDead hsure ht).mono hlater⟩
  obtain ⟨hlater, hd⟩ := hdead'
  have hs (hdel : Deleted members (w.oracle 0) (xidFromFull oldest) t) :
      w.inSnapshot snapshot (deleter members t) = false := by
    have hprec := precedes_of_le ho hx hle (hreach hdel.valid hdel.notLocker) hdel.old
    unfold Visit.inSnapshot xidInMVCCSnapshot
    rw [hsnap, if_pos hprec]
  have hm' := hm.mono hlater
  have hvisible : w.mvccVisible snapshot t' = .ok false := by
    rw [hhints.mvccVisible_eq (ht.mono hlater) hm', hd.mvccVisible_eq hm' hs]
  unfold Visit.mvccVisible at hvisible
  cases hres : w.heapTupleSatisfiesMVCC snapshot t' with
  | error e =>
    rw [hres] at hvisible
    cases hvisible
  | ok p =>
    rw [hres] at hvisible
    exact ⟨p.1, congrArg Except.ok (Prod.ext rfl (Except.ok.inj hvisible))⟩

theorem vacuum_dead_invisible_committed :
    let v : Visit fun _ => [] := .still (fun _ => .committed) (fun _ => false) nofun
    (∃ t₁, v.heapTupleSatisfiesVacuum (xidFromFull 25) unhinted = .ok (t₁, .dead)) ∧
      ∃ t₂, v.heapTupleSatisfiesMVCC snapshotAt30 unhinted = .ok (t₂, false) := by
  intro v
  have hvac : v.heapTupleSatisfiesVacuum (xidFromFull 25) unhinted =
      .ok ({ unhinted with xminCommitted := true, xmaxCommitted := true }, .dead) := by rfl
  have hreach : WithinReach (deleter (fun _ => []) unhinted) 25 30 := fun _ =>
    ⟨20, by decide, rfl, by decide, by decide⟩
  exact ⟨⟨_, hvac⟩, vacuum_dead_invisible (v.oracle 0) unhinted unhinted v snapshotAt30 25 30
    truthful_unhinted movedCommitted_unhinted (by decide) (by decide) rfl (by decide)
    (fun _ _ => hreach) (.inl ⟨v, _, rfl, .refl _, hvac⟩) .refl⟩

end PostgreSieve.Heap
