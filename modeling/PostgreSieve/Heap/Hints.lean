import Mathlib.Logic.Relation
import PostgreSieve.Heap.Basic

/-! # Hint bits

A hint is right when the transaction it is about has ended the way it says. The visibility routines
set only right hints, and right hints stay right.
-/

namespace PostgreSieve.Heap

/-! ## Statuses over time -/

theorem XidStatus.Moves.refl (s : XidStatus) : s.Moves s := by
  cases s <;> simp [XidStatus.Moves]

theorem XidStatus.Moves.trans {s s' s'' : XidStatus} (h : s.Moves s') (h' : s'.Moves s'') :
    s.Moves s'' := by
  cases s <;> cases s' <;> cases s'' <;> simp_all [XidStatus.Moves]

theorem Later.refl (o : Oracle) : Later o o := fun xid => .refl (o xid)

variable {o o' o'' : Oracle} {x : ℕ}

theorem Later.trans (h : Later o o') (h' : Later o' o'') : Later o o'' := fun xid =>
  (h xid).trans (h' xid)

theorem Later.committed (h : Later o o') (hx : o x = .committed) : o' x = .committed := by
  have := h x
  rwa [hx] at this

theorem Later.aborted (h : Later o o') (hx : o x = .aborted) : o' x = .aborted := by
  have := h x
  rwa [hx] at this

/-- The transaction has left the proc array. -/
def Ended (o : Oracle) (x : ℕ) : Prop := o x = .committed ∨ o x = .aborted

theorem Later.ended (h : Later o o') (hx : Ended o x) : Ended o' x :=
  hx.imp h.committed h.aborted

theorem ended_of_not_inProgress (h : transactionIdIsInProgress o x = false) : Ended o x := by
  unfold transactionIdIsInProgress at h
  unfold Ended
  cases hx : o x <;> simp_all

theorem not_inProgress_of_ended (h : Ended o x) : transactionIdIsInProgress o x = false := by
  unfold transactionIdIsInProgress
  rcases h with h | h <;> simp [h]

theorem committed_of_didCommit (h : Ended o x) (hc : transactionIdDidCommit o x = true) :
    o x = .committed := by
  rcases h with h | h
  · exact h
  · simp [transactionIdDidCommit, h] at hc

theorem aborted_of_not_didCommit (h : Ended o x) (hc : transactionIdDidCommit o x = false) :
    o x = .aborted := by
  rcases h with h | h
  · simp [transactionIdDidCommit, h] at hc
  · exact h

theorem didCommit_of_committed (h : o x = .committed) : transactionIdDidCommit o x = true := by
  simp [transactionIdDidCommit, h]

theorem not_didCommit_of_aborted (h : o x = .aborted) : transactionIdDidCommit o x = false := by
  simp [transactionIdDidCommit, h]

section

variable {members : ℕ → List MultiXactMember} {v : Visit members}

theorem Visit.not_current (hx : Ended (v.oracle 0) x) : v.current x = false := by
  cases hc : v.current x with
  | false => rfl
  | true =>
    have := v.current_inProgress x hc 0
    rcases hx with hx | hx <;> simp [hx] at this

end

/-! ## Right hints -/

/-- The tuple was moved off by a committed `VACUUM FULL`, or moved in by a failed one. -/
def MovedAway (o : Oracle) (t : HeapTupleHeader) : Prop :=
  t.movedOff = true ∧ o t.xvac = .committed ∨
    t.movedOff = false ∧ t.movedIn = true ∧ o t.xvac = .aborted

/-- The tuple was not moved, or is where it belongs. -/
def InPlace (o : Oracle) (t : HeapTupleHeader) : Prop :=
  (t.movedOff = true → o t.xvac = .aborted) ∧
    (t.movedOff = false → t.movedIn = true → o t.xvac = .committed)

variable (members : ℕ → List MultiXactMember)

/-- Nobody is about to delete or lock the tuple any more: the lockers have ended, the updater or
deleter has aborted. -/
def XmaxGone (o : Oracle) (t : HeapTupleHeader) : Prop :=
  (t.xmaxIsLockedOnly = true → t.xmaxIsMulti = true → t.lockedUpgraded = false →
    ∀ m ∈ members t.xmax, Ended o m.xid) ∧
  (t.xmaxIsLockedOnly = true → t.xmaxIsMulti = false → Ended o t.xmax) ∧
  (t.xmaxIsLockedOnly = false → t.xmaxIsMulti = true →
    o (heapTupleGetUpdateXid members t) = .aborted ∧ ∀ m ∈ members t.xmax, Ended o m.xid) ∧
  (t.xmaxIsLockedOnly = false → t.xmaxIsMulti = false → o t.xmax = .aborted)

/-- The setting of one right hint. -/
inductive Hint (o : Oracle) : HeapTupleHeader → HeapTupleHeader → Prop
  | xminCommitted {t : HeapTupleHeader} (hx : o t.xmin = .committed) (hp : InPlace o t)
      (hi : t.xminInvalid = false) : Hint o t { t with xminCommitted := true }
  | xminInvalid {t : HeapTupleHeader} (hx : o t.xmin = .aborted ∨ MovedAway o t)
      (hc : t.xminCommitted = false) : Hint o t { t with xminInvalid := true }
  | xmaxCommitted {t : HeapTupleHeader} (hx : o t.xmax = .committed) (hm : t.xmaxIsMulti = false)
      (hl : t.xmaxIsLockedOnly = false) : Hint o t { t with xmaxCommitted := true }
  | xmaxInvalid {t : HeapTupleHeader} (hx : XmaxGone members o t) :
      Hint o t { t with xmaxInvalid := true }

/-- The setting of right hints, one after the other. -/
abbrev Hints (o : Oracle) : HeapTupleHeader → HeapTupleHeader → Prop :=
  Relation.ReflTransGen (Hint members o)

/-- The hints agree with the statuses. -/
structure Truthful (o : Oracle) (t : HeapTupleHeader) : Prop where
  xminCommitted : t.xminCommitted = true → o t.xmin = .committed ∧ InPlace o t
  xminInvalid : t.xminCommitted = false → t.xminInvalid = true →
    o t.xmin = .aborted ∨ MovedAway o t
  xmaxCommitted : t.xmaxCommitted = true → t.xmaxIsMulti = false → t.xmaxIsLockedOnly = false →
    o t.xmax = .committed
  xmaxInvalid : t.xmaxInvalid = true → t.xmax = Xact.invalidTransactionId ∨ XmaxGone members o t

/-- Only tuples of committed transactions were ever moved. -/
def MovedCommitted (o : Oracle) (t : HeapTupleHeader) : Prop :=
  t.movedOff = true ∨ t.movedIn = true → o t.xmin = .committed

variable {members} {t t' : HeapTupleHeader}

theorem MovedAway.mono (h : MovedAway o t) (hl : Later o o') : MovedAway o' t :=
  h.imp (fun h => ⟨h.1, hl.committed h.2⟩) fun h => ⟨h.1, h.2.1, hl.aborted h.2.2⟩

theorem InPlace.mono (h : InPlace o t) (hl : Later o o') : InPlace o' t :=
  ⟨fun hm => hl.aborted (h.1 hm), fun hm hi => hl.committed (h.2 hm hi)⟩

theorem XmaxGone.mono (h : XmaxGone members o t) (hl : Later o o') : XmaxGone members o' t := by
  obtain ⟨h1, h2, h3, h4⟩ := h
  refine ⟨fun hlo hm hu m hm' => hl.ended (h1 hlo hm hu m hm'), fun hlo hm => hl.ended (h2 hlo hm),
    fun hlo hm => ?_, fun hlo hm => hl.aborted (h4 hlo hm)⟩
  exact ⟨hl.aborted (h3 hlo hm).1, fun m hm' => hl.ended ((h3 hlo hm).2 m hm')⟩

theorem Hint.mono (h : Hint members o t t') (hl : Later o o') : Hint members o' t t' := by
  cases h with
  | xminCommitted hx hp hi => exact .xminCommitted (hl.committed hx) (hp.mono hl) hi
  | xminInvalid hx hc => exact .xminInvalid (hx.imp hl.aborted fun h => h.mono hl) hc
  | xmaxCommitted hx hm hlo => exact .xmaxCommitted (hl.committed hx) hm hlo
  | xmaxInvalid hx => exact .xmaxInvalid (hx.mono hl)

theorem Hints.mono (h : Hints members o t t') (hl : Later o o') : Hints members o' t t' :=
  Relation.ReflTransGen.mono (fun _ _ h => Hint.mono h hl) _ _ h

theorem Truthful.mono (h : Truthful members o t) (hl : Later o o') : Truthful members o' t where
  xminCommitted hc := ⟨hl.committed (h.xminCommitted hc).1, (h.xminCommitted hc).2.mono hl⟩
  xminInvalid hc hi := (h.xminInvalid hc hi).imp hl.aborted fun h => h.mono hl
  xmaxCommitted hc hm hlo := hl.committed (h.xmaxCommitted hc hm hlo)
  xmaxInvalid hi := (h.xmaxInvalid hi).imp_right fun h => h.mono hl

theorem MovedCommitted.mono (h : MovedCommitted o t) (hl : Later o o') : MovedCommitted o' t :=
  fun hm => hl.committed (h hm)

theorem Truthful.hint (h : Truthful members o t) (hh : Hint members o t t') :
    Truthful members o t' := by
  cases hh with
  | xminCommitted hx hp hi =>
    exact ⟨fun _ => ⟨hx, hp⟩, nofun, h.xmaxCommitted, h.xmaxInvalid⟩
  | xminInvalid hx hc =>
    exact ⟨fun hc' => absurd (hc.symm.trans hc') Bool.false_ne_true, fun _ _ => hx, h.xmaxCommitted,
      h.xmaxInvalid⟩
  | xmaxCommitted hx hm hl =>
    exact ⟨h.xminCommitted, h.xminInvalid, fun _ _ _ => hx, h.xmaxInvalid⟩
  | xmaxInvalid hx =>
    exact ⟨h.xminCommitted, h.xminInvalid, h.xmaxCommitted, fun _ => .inr hx⟩

theorem MovedCommitted.hint (h : MovedCommitted o t) (hh : Hint members o t t') :
    MovedCommitted o t' := by
  cases hh <;> exact h

theorem Truthful.hints (h : Truthful members o t) (hh : Hints members o t t') :
    Truthful members o t' := by
  induction hh with
  | refl => exact h
  | tail _ hh ih => exact ih.hint hh

theorem MovedCommitted.hints (h : MovedCommitted o t) (hh : Hints members o t t') :
    MovedCommitted o t' := by
  induction hh with
  | refl => exact h
  | tail _ hh ih => exact ih.hint hh

end PostgreSieve.Heap
