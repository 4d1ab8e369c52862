import PostgreSieve.Heap.Hints
import PostgreSieve.Runs.Checked

/-! # The routines set right hints

Each routine first looks at the inserting transaction and then at the deleting one. The conditions
under which its hints are right are those that make a header one that can arise: only tuples of
committed transactions were moved, and the deleter of a tuple of the current transaction is the
current transaction too, or has aborted.
-/

namespace PostgreSieve.Heap

variable {members : ℕ → List MultiXactMember} {v : Visit members} {t t' : HeapTupleHeader} {x : ℕ}
variable {o : Oracle} {r : Visit.Inserter} {snapshot : MvccSnapshot}

/-- The tuple, possibly with a right hint that its inserter committed. -/
def XminHinted (o : Oracle) (t t' : HeapTupleHeader) : Prop :=
  t' = t ∨ t' = { t with xminCommitted := true } ∧ t.xminInvalid = false ∧ o t.xmin = .committed ∧
    InPlace o t

theorem XminHinted.hints (h : XminHinted o t t') : Hints members o t t' := by
  rcases h with rfl | ⟨rfl, hi, hx, hp⟩
  · exact .refl
  · exact .single (.xminCommitted hx hp hi)

theorem Visit.cleanMoved_cases {visible : Bool} (h : v.heapTupleCleanMoved t = .ok (t', visible))
    (hi : t.xminInvalid = false) (hm : MovedCommitted (v.oracle 0) t) :
    (visible = false ∧ t' = { t with xminInvalid := true } ∧ MovedAway (v.oracle 1) t) ∨
      (visible = true ∧ XminHinted (v.oracle 1) t t' ∧ InPlace (v.oracle 1) t ∧
        (t.movedOff = true ∨ t.movedIn = true ∨ t' = t)) := by
  unfold heapTupleCleanMoved at h
  split at h
  · rename_i hno
    obtain ⟨rfl, rfl⟩ := Prod.mk.inj (Except.ok.inj h)
    simp only [Bool.not_eq_true', Bool.or_eq_false_iff] at hno
    exact .inr ⟨rfl, .inl rfl, ⟨by simp [hno.1], by simp [hno.2]⟩, .inr (.inr rfl)⟩
  · rename_i hmoved
    simp only [Bool.not_eq_true', Bool.or_eq_false_iff, not_and_or, Bool.not_eq_false] at hmoved
    have hx := (v.later 0 1 (by decide)).committed (hm hmoved)
    have hmoved' : t.movedOff = true ∨ t.movedIn = true ∨ t' = t := by tauto
    split at h
    · cases h
    split at h
    · cases h
    rename_i hprog
    have hend : Ended (v.oracle 1) t.xvac := (v.later 0 1 (by decide)).ended
      (ended_of_not_inProgress (by simpa using hprog))
    split at h
    · rename_i hoff
      split at h
      · rename_i hcommit
        obtain ⟨rfl, rfl⟩ := Prod.mk.inj (Except.ok.inj h)
        exact .inl ⟨rfl, rfl, .inl ⟨hoff, committed_of_didCommit hend hcommit⟩⟩
      · rename_i hcommit
        obtain ⟨rfl, rfl⟩ := Prod.mk.inj (Except.ok.inj h)
        have hp : InPlace (v.oracle 1) t :=
          ⟨fun _ => aborted_of_not_didCommit hend (by simpa using hcommit), by simp [hoff]⟩
        exact .inr ⟨rfl, .inr ⟨rfl, hi, hx, hp⟩, hp, hmoved'⟩
    · rename_i hoff
      have hoff' : t.movedOff = false := by simpa using hoff
      split at h
      · rename_i hcommit
        obtain ⟨rfl, rfl⟩ := Prod.mk.inj (Except.ok.inj h)
        have hp : InPlace (v.oracle 1) t :=
          ⟨by simp [hoff'], fun _ _ => committed_of_didCommit hend hcommit⟩
        exact .inr ⟨rfl, .inr ⟨rfl, hi, hx, hp⟩, hp, hmoved'⟩
      · rename_i hcommit
        obtain ⟨rfl, rfl⟩ := Prod.mk.inj (Except.ok.inj h)
        exact .inl ⟨rfl, rfl, .inr ⟨hoff', hmoved.resolve_left hoff,
          aborted_of_not_didCommit hend (by simpa using hcommit)⟩⟩

/-- What is found out about the inserting transaction, with the hints it is put down in. -/
inductive Found (v : Visit members) (t : HeapTupleHeader) : HeapTupleHeader → Visit.Inserter → Prop
  | invalid (hi : t.xminInvalid = true) : Found v t t .gone
  | gone (hi : t.xminInvalid = false) (hx : v.final t.xmin = .aborted ∨ MovedAway v.final t) :
      Found v t { t with xminInvalid := true } .gone
  | current (hx : v.current t.xmin = true) : Found v t t .current
  | running {t' : HeapTupleHeader} (h : XminHinted v.final t t') : Found v t t' .running
  | committed {t' : HeapTupleHeader} (h : XminHinted v.final t t')
      (hx : v.final t.xmin = .committed) (hp : InPlace v.final t) : Found v t t' .committed

theorem XminHinted.mono {o o' : Oracle} (h : XminHinted o t t') (hl : Later o o') :
    XminHinted o' t t' :=
  h.imp_right fun ⟨heq, hi, hx, hp⟩ => ⟨heq, hi, hl.committed hx, hp.mono hl⟩

theorem Visit.inserter_found {isRunning : ℕ → Bool}
    (h : v.inserter isRunning t = .ok (t', r)) (hm : MovedCommitted (v.oracle 0) t)
    (hrun : ∀ x, v.current x = false → isRunning x = false → Ended (v.oracle 3) x) :
    Found v t t' r := by
  unfold inserter at h
  split at h
  · obtain ⟨rfl, rfl⟩ := Prod.mk.inj (Except.ok.inj h)
    exact .invalid ‹_›
  · rename_i hi
    have hi' : t.xminInvalid = false := by simpa using hi
    obtain ⟨⟨t₁, visible⟩, hclean, h⟩ := bind_eq_ok h
    rcases cleanMoved_cases hclean hi' hm with ⟨rfl, rfl, haway⟩ | ⟨rfl, hhint, hplace, hmoved⟩
    · obtain ⟨rfl, rfl⟩ := Prod.mk.inj (Except.ok.inj h)
      exact .gone hi' (.inr (haway.mono (v.later_final 1)))
    · have hhint' := hhint.mono (v.later_final 1)
      have hxmin : t₁.xmin = t.xmin := by
        rcases hhint with rfl | ⟨rfl, -⟩ <;> rfl
      -- a moved tuple is that of a committed transaction
      have hstay : t₁ = t ∨ v.oracle 3 t.xmin = .committed := by
        rcases hmoved with hmv | hmv | heq
        · exact .inr ((v.later 0 3 (by decide)).committed (hm (.inl hmv)))
        · exact .inr ((v.later 0 3 (by decide)).committed (hm (.inr hmv)))
        · exact .inl heq
      simp only [Bool.not_true, Bool.false_eq_true, if_false, hxmin] at h
      split at h
      · rename_i hcur
        obtain ⟨rfl, rfl⟩ := Prod.mk.inj (Except.ok.inj h)
        rcases hstay with rfl | hcommit
        · exact .current hcur
        · rw [v.current_inProgress _ hcur 3] at hcommit
          cases hcommit
      split at h
      · obtain ⟨rfl, rfl⟩ := Prod.mk.inj (Except.ok.inj h)
        exact .running hhint'
      rename_i hcur hran
      have hend := hrun t.xmin (by simpa using hcur) (by simpa using hran)
      split at h
      · rename_i hcommit
        obtain ⟨rfl, rfl⟩ := Prod.mk.inj (Except.ok.inj h)
        have hx := (v.later_final 3).committed (committed_of_didCommit hend hcommit)
        have hp := hplace.mono (v.later_final 1)
        refine .committed ?_ hx hp
        unfold hintXminCommitted
        split
        · exact hhint'
        · refine .inr ⟨?_, hi', hx, hp⟩
          rcases hhint with rfl | ⟨rfl, -⟩ <;> rfl
      · rename_i hcommit
        have habort := aborted_of_not_didCommit hend (by simpa using hcommit)
        obtain ⟨rfl, rfl⟩ := Prod.mk.inj (Except.ok.inj h)
        rcases hstay with rfl | hcommit'
        · exact .gone hi' (.inl ((v.later_final 3).aborted habort))
        · rw [habort] at hcommit'
          cases hcommit'

theorem Found.hints (h : Found v t t' r) (hc : t.xminCommitted = false) :
    Hints members v.final t t' := by
  cases h with
  | invalid | current => exact .refl
  | gone hi hx => exact .single (.xminInvalid hx hc)
  | running h | committed h => exact h.hints

/-! ## The deleting transaction -/

theorem Visit.ended_of_not_running {multi : ℕ} (h : v.multiXactIdIsRunning multi = false) :
    ∀ m ∈ members multi, Ended v.final m.xid := by
  intro m hm
  rw [multiXactIdIsRunning, Bool.or_eq_false_iff] at h
  obtain ⟨i, hi, rfl⟩ := List.getElem_of_mem hm
  have hmem : ((members multi)[i], i) ∈ (members multi).zipIdx :=
    List.mk_mem_zipIdx_iff_getElem?.mpr (List.getElem?_eq_getElem hi)
  have hnot := List.any_eq_false.mp h.2 _ hmem
  exact (v.later_final _).ended (ended_of_not_inProgress (by simpa using hnot))

/-- The deleter of a tuple of the current transaction is current as well, or has aborted. -/
def OwnDeleter (v : Visit members) (t : HeapTupleHeader) : Prop :=
  v.current t.xmin = true → t.xmaxInvalid = false → t.xmaxIsLockedOnly = false →
    t.xmaxIsMulti = false → v.current t.xmax = true ∨ v.oracle 0 t.xmax = .aborted

/-- A snapshot has every transaction that is still running, its own apart. -/
def SnapshotConsistent (v : Visit members) (snapshot : Visit.MvccSnapshot) : Prop :=
  ∀ x, v.current x = false → v.inSnapshot snapshot x = false → Ended (v.oracle 0) x

theorem hints_xmaxInvalid (h : XmaxGone members o t) :
    Hints members o t (Visit.hintXmaxInvalid t) :=
  .single (.xmaxInvalid h)

theorem XmaxGone.of_aborted (hm : t.xmaxIsMulti = false) (hx : o t.xmax = .aborted) :
    XmaxGone members o t :=
  ⟨fun _ hm' => absurd (hm.symm.trans hm') Bool.false_ne_true, fun _ _ => .inr hx,
    fun _ hm' => absurd (hm.symm.trans hm') Bool.false_ne_true, fun _ _ => hx⟩

theorem XmaxGone.of_locker (hl : t.xmaxIsLockedOnly = true)
    (hm : t.xmaxIsMulti = false) (hx : Ended o t.xmax) : XmaxGone members o t :=
  ⟨fun _ hm' => absurd (hm.symm.trans hm') Bool.false_ne_true, fun _ _ => hx,
    fun _ hm' => absurd (hm.symm.trans hm') Bool.false_ne_true,
    fun hl' => absurd (hl'.symm.trans hl) Bool.false_ne_true⟩

theorem Visit.hints_xmaxCommitted (hm : t.xmaxIsMulti = false) (hl : t.xmaxIsLockedOnly = false)
    (hx : v.final t.xmax = .committed) : Hints members v.final t (v.hintXmaxCommitted t) := by
  unfold hintXmaxCommitted
  split
  · exact .refl
  · exact .single (.xmaxCommitted hx hm hl)

section

variable (hown : OwnDeleter v t) (hx : v.current t.xmin = true)
include hown hx

theorem Visit.own_hints (hi : ¬ t.xmaxInvalid = true) (hl : ¬ t.xmaxIsLockedOnly = true)
    (hm : ¬ t.xmaxIsMulti = true) (hcur : (!v.current t.xmax) = true) :
    Hints members v.final t (hintXmaxInvalid t) := by
  simp only [Bool.not_eq_true, Bool.not_eq_true'] at hi hl hm hcur
  rcases hown hx hi hl hm with hcur' | habort
  · rw [hcur] at hcur'
    cases hcur'
  · exact hints_xmaxInvalid (.of_aborted hm ((v.later_final 0).aborted habort))

theorem Visit.selfOwn_hints :
    Hints members v.final t (v.selfOwn t).1 := by
  unfold selfOwn
  split
  · exact .refl
  split
  · exact .refl
  split
  · exact .refl
  split
  · rename_i hi hl hm hcur
    exact own_hints hown hx hi hl hm hcur
  · exact .refl

theorem Visit.mvccOwn_hints : Hints members v.final t (v.mvccOwn snapshot t).1 := by
  unfold mvccOwn
  split
  · exact .refl
  split
  · exact .refl
  split
  · exact .refl
  split
  · split <;> exact .refl
  split
  · rename_i hi hl hm hcur
    exact own_hints hown hx hi hl hm hcur
  · exact .refl

end

/-- What the tests of stages 4 and 5 find out about a deleter that is not running. -/
theorem Visit.deleter_ended (h : ¬ transactionIdIsInProgress (v.oracle 4) x = true) :
    Ended (v.oracle 5) x :=
  (v.later 4 5 (by decide)).ended (ended_of_not_inProgress (by simpa using h))

section

variable (hm : ¬ t.xmaxIsMulti = true) (hend : Ended (v.oracle 5) t.xmax)
include hm hend

theorem Visit.aborted_hints (hc : transactionIdDidCommit (v.oracle 5) t.xmax = false) :
    Hints members v.final t (hintXmaxInvalid t) :=
  hints_xmaxInvalid (.of_aborted (by simpa using hm)
    ((v.later_final 5).aborted (aborted_of_not_didCommit hend hc)))

theorem Visit.committed_hints (hl : ¬ t.xmaxIsLockedOnly = true)
    (hc : transactionIdDidCommit (v.oracle 5) t.xmax = true) :
    Hints members v.final t (v.hintXmaxCommitted t) :=
  hints_xmaxCommitted (by simpa using hm) (by simpa using hl)
    ((v.later_final 5).committed (committed_of_didCommit hend hc))

end

theorem Visit.selfXmax_hints : Hints members v.final t (v.selfXmax t).1 := by
  unfold selfXmax
  split
  · exact .refl
  split
  · exact .refl
  split
  · split
    · exact .refl
    · dsimp only
      split
      · exact .refl
      split
      · exact .refl
      split <;> exact .refl
  split
  · exact .refl
  split
  · exact .refl
  rename_i hi hc hm hcur hprog
  have hend := deleter_ended hprog
  split
  · rename_i hcommit
    exact aborted_hints hm hend (by simpa using hcommit)
  · rename_i hcommit
    split
    · rename_i hl
      exact hints_xmaxInvalid (.of_locker hl (by simpa using hm) ((v.later_final 5).ended hend))
    · rename_i hl
      exact committed_hints hm hend hl (by simpa using hcommit)

theorem Visit.mvccXmax_hints (hs : SnapshotConsistent v snapshot) :
    Hints members v.final t (v.mvccXmax snapshot t).1 := by
  unfold mvccXmax
  split
  · exact .refl
  split
  · exact .refl
  split
  · dsimp only
    split
    · exact .refl
    split
    · exact .refl
    split <;> exact .refl
  split
  · split
    · exact .refl
    split
    · exact .refl
    rename_i hl hm _ hcur hsnap
    have hend := (v.later 0 5 (by decide)).ended
      (hs t.xmax (by simpa using hcur) (by simpa using hsnap))
    split
    · rename_i hcommit
      exact aborted_hints hm hend (by simpa using hcommit)
    · rename_i hcommit
      exact committed_hints hm hend hl (by simpa using hcommit)
  · exact .refl

theorem Visit.vacuumXmax_hints : Hints members v.final t (v.vacuumXmax t).1 := by
  unfold vacuumXmax
  split
  · exact .refl
  split
  · rename_i hl
    split
    · split
      · rename_i hm
        split
        · exact .refl
        · rename_i hrun
          simp only [Bool.and_eq_true, Bool.not_eq_true', not_and, Bool.not_eq_true] at hrun
          refine hints_xmaxInvalid ⟨fun _ _ hu => ended_of_not_running (hrun hu), ?_, ?_, ?_⟩
          · simp [hm]
          · simp [hl]
          · simp [hl]
      · rename_i hm
        split
        · exact .refl
        · rename_i hprog
          have hend := (v.later_final 5).ended (deleter_ended hprog)
          exact hints_xmaxInvalid (.of_locker hl (by simpa using hm) hend)
    · exact .refl
  split
  · rename_i hl hm
    dsimp only
    split
    · exact .refl
    rename_i hprog
    have hend := deleter_ended hprog
    split
    · exact .refl
    rename_i hcommit
    split
    · rename_i hrun
      have habort := (v.later_final 5).aborted (aborted_of_not_didCommit hend (by simpa using hcommit))
      have hended : ∀ m ∈ members t.xmax, Ended v.final m.xid :=
        ended_of_not_running (by simpa using hrun)
      exact hints_xmaxInvalid ⟨fun hl' => absurd hl' hl, fun hl' => absurd hl' hl,
        fun _ _ => ⟨habort, hended⟩, fun _ hm' => absurd (hm.symm.trans hm') (by decide)⟩
    · exact .refl
  split
  · rename_i hl hm _
    split
    · exact .refl
    rename_i hprog
    have hend := deleter_ended hprog
    split
    · rename_i hcommit
      exact committed_hints hm hend hl hcommit
    · rename_i hcommit
      exact aborted_hints hm hend (by simpa using hcommit)
  · exact .refl

/-! ## The routines -/

theorem fst_eq_of_ok {β : Type} {p : HeapTupleHeader × β} {b : β}
    (h : (Except.ok p : Except String (HeapTupleHeader × β)) = .ok (t', b)) : p.1 = t' :=
  congrArg Prod.fst (Except.ok.inj h)

theorem Visit.ended_of_stage_two (h : transactionIdIsInProgress (v.oracle 2) x = false) :
    Ended (v.oracle 3) x :=
  (v.later 2 3 (by decide)).ended (ended_of_not_inProgress h)

theorem Visit.satisfiesSelf_hints {b : Bool} (h : v.heapTupleSatisfiesSelf t = .ok (t', b))
    (hm : MovedCommitted (v.oracle 0) t) (hown : OwnDeleter v t) : Hints members v.final t t' := by
  unfold heapTupleSatisfiesSelf at h
  split at h
  · rename_i hc
    obtain ⟨⟨t₁, r⟩, hins, h⟩ := bind_eq_ok h
    have hfound := inserter_found hins hm fun _ _ => ended_of_stage_two
    have hhints := hfound.hints (by simpa using hc)
    cases hfound with
    | invalid | gone | running => cases h; exact hhints
    | current hx => exact fst_eq_of_ok h ▸ selfOwn_hints hown hx
    | committed => exact fst_eq_of_ok h ▸ hhints.trans selfXmax_hints
  · exact fst_eq_of_ok h ▸ selfXmax_hints

theorem Visit.satisfiesMVCC_hints {b : Bool}
    (h : v.heapTupleSatisfiesMVCC snapshot t = .ok (t', b)) (hm : MovedCommitted (v.oracle 0) t)
    (hown : OwnDeleter v t) (hs : SnapshotConsistent v snapshot) : Hints members v.final t t' := by
  unfold heapTupleSatisfiesMVCC at h
  split at h
  · rename_i hc
    obtain ⟨⟨t₁, r⟩, hins, h⟩ := bind_eq_ok h
    have hfound := inserter_found hins hm fun x hcur hx =>
      (v.later 0 3 (by decide)).ended (hs x hcur hx)
    have hhints := hfound.hints (by simpa using hc)
    cases hfound with
    | invalid | gone | running => cases h; exact hhints
    | current hx => exact fst_eq_of_ok h ▸ mvccOwn_hints hown hx
    | committed => exact fst_eq_of_ok h ▸ hhints.trans (mvccXmax_hints hs)
  split at h
  · cases h
    exact .refl
  · exact fst_eq_of_ok h ▸ mvccXmax_hints hs

theorem Visit.satisfiesVacuumHorizon_hints {r : HTSVResult × ℕ}
    (h : v.heapTupleSatisfiesVacuumHorizon t = .ok (t', r)) (hm : MovedCommitted (v.oracle 0) t) :
    Hints members v.final t t' := by
  unfold heapTupleSatisfiesVacuumHorizon at h
  split at h
  · rename_i hc
    obtain ⟨⟨t₁, r⟩, hins, h⟩ := bind_eq_ok h
    have hfound := inserter_found hins hm fun _ _ => ended_of_stage_two
    have hhints := hfound.hints (by simpa using hc)
    cases hfound with
    | invalid | gone | running | current => cases h; exact hhints
    | committed => exact fst_eq_of_ok h ▸ hhints.trans vacuumXmax_hints
  · exact fst_eq_of_ok h ▸ vacuumXmax_hints

theorem Visit.satisfiesVacuum_hints {oldestXmin : ℕ} {r : HTSVResult}
    (h : v.heapTupleSatisfiesVacuum oldestXmin t = .ok (t', r))
    (hm : MovedCommitted (v.oracle 0) t) : Hints members v.final t t' := by
  obtain ⟨⟨t₁, r₁, deadAfter⟩, hhorizon, h⟩ := bind_eq_ok h
  have hhints := satisfiesVacuumHorizon_hints hhorizon hm
  dsimp only at h
  split at h <;> cases h <;> exact hhints

end PostgreSieve.Heap
