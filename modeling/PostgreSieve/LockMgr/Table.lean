import PostgreSieve.LockMgr.Sections

/-! # The lock table

Each section keeps the invariant of the lock table, in which every lock is in order and the waiters
are blocked. The section of one process may give locks to others that wait, and changes nothing else
of theirs.
-/

namespace PostgreSieve.LockMgr

open Function List Option

variable {Proc Mode Tag : Type} {cfg : Config Proc Mode Tag} {s s' : State Proc Mode Tag}
  {p q : Proc} {tag t : Tag} {mode n : Mode} {lock : Option (Lock Proc Mode)} {woken : List Proc}

/-! ## What a section does to the processes -/

def State.Waits (s : State Proc Mode Tag) (tag : Tag) (p : Proc) (m : Mode) : Prop :=
  AwaitedIn (s.locks tag) p m

/-- What the section of another process does to a process: it may give it the lock it waits for. -/
inductive Bystander (s s' : State Proc Mode Tag) (q : Proc) : Prop
  | same (hwait : s'.waitLock q = s.waitLock q)
      (hholds : ∀ t n, s'.Holds t q n ↔ s.Holds t q n)
      (hwaits : ∀ t n, s'.Waits t q n ↔ s.Waits t q n)
  | woken (t : Tag) (n : Mode) (hwaits : s.Waits t q n) (hwait : s'.waitLock q = none)
      (hholds : ∀ t' n', s'.Holds t' q n' ↔ s.Holds t' q n' ∨ t' = t ∧ n' = n)

theorem Bystander.refl (s : State Proc Mode Tag) (q : Proc) : Bystander s s q :=
  .same rfl (fun _ _ => Iff.rfl) fun _ _ => Iff.rfl

/-- What its own request does to a process. -/
def Requested (s s' : State Proc Mode Tag) (p : Proc) (tag : Tag) (mode : Mode) :
    ProcWaitStatus → Prop
  | .ok => s'.waitLock p = none ∧ ∀ t n, s'.Holds t p n ↔ s.Holds t p n ∨ t = tag ∧ n = mode
  | .waiting => s'.waitLock p = some tag ∧ s'.Waits tag p mode ∧
      ∀ t n, s'.Holds t p n ↔ s.Holds t p n
  | .error => s'.waitLock p = none ∧ ∀ t n, s'.Holds t p n ↔ s.Holds t p n

theorem exists_awaitedIn (h : q ∈ queued lock) : ∃ n, AwaitedIn lock q n := by
  cases lock with
  | none => cases h
  | some lock =>
    obtain ⟨w, hw, hproc⟩ := mem_map.1 h
    exact ⟨w.waitLockMode, lock, rfl, w, hw, hproc, rfl⟩

theorem heldIn_iff_getD :
    HeldIn lock q n ↔ HoldsIn (lock.getD Lock.new).procLocks q n := by
  cases lock with
  | none => simp [HeldIn, HoldsIn, Lock.new]
  | some lock => exact heldIn_some

theorem awaitedIn_iff_getD :
    AwaitedIn lock q n ↔
      ∃ w ∈ (lock.getD Lock.new).waitProcs, w.proc = q ∧ w.waitLockMode = n := by
  cases lock with
  | none => simp [AwaitedIn, Lock.new]
  | some lock => exact awaitedIn_some

section

variable [DecidableEq Proc]

theorem filter_proc_ne {pre post : List (Waiter Proc Mode)} {w : Waiter Proc Mode}
    (hne : ∀ w' ∈ pre ++ post, w'.proc ≠ w.proc) :
    (pre ++ w :: post).filter (fun w' => w'.proc ≠ w.proc) = pre ++ post := by
  have hself : (pre ++ post).filter (fun w' => w'.proc ≠ w.proc) = pre ++ post :=
    filter_eq_self.2 fun w' hw' => decide_eq_true (hne w' hw')
  rw [filter_append, filter_cons_of_neg (by simp), ← filter_append, hself]

variable [DecidableEq Tag]

theorem State.holds_update :
    (s.update tag lock woken).Holds t q n ↔
      if t = tag then HeldIn lock q n else s.Holds t q n := by
  simp only [State.Holds, State.update, update_apply]
  split_ifs <;> rfl

theorem State.waits_update :
    (s.update tag lock woken).Waits t q n ↔
      if t = tag then AwaitedIn lock q n else s.Waits t q n := by
  simp only [State.Waits, State.update, update_apply]
  split_ifs <;> rfl

theorem State.join_effect {lock' : Lock Proc Mode}
    (hheld : ∀ q n, HeldIn (some lock') q n ↔ HeldIn (s.locks tag) q n)
    (hawaited : ∀ q n, AwaitedIn (some lock') q n ↔ AwaitedIn (s.locks tag) q n ∨ q = p ∧ n = mode)
    (hs' : s' = ⟨Function.update s.locks tag (some lock'),
      Function.update s.waitLock p (some tag)⟩) :
    (∀ q, q ≠ p → Bystander s s' q) ∧ Requested s s' p tag mode .waiting := by
  subst hs'
  have hholds : ∀ t q n, (s.update tag (some lock') []).Holds t q n ↔ s.Holds t q n := by
    intro t q n
    rw [State.holds_update]
    split_ifs with ht
    · subst ht
      exact hheld q n
    · rfl
  have hwaits : ∀ t q n, (s.update tag (some lock') []).Waits t q n ↔
      if t = tag then s.Waits tag q n ∨ q = p ∧ n = mode else s.Waits t q n := by
    intro t q n
    rw [State.waits_update, hawaited]
    rfl
  refine ⟨fun q hq => .same (update_of_ne hq ..) (fun t n => hholds t q n) fun t n => ?_,
    update_self .., (hwaits ..).2 ?_, fun t n => hholds t p n⟩
  · refine (hwaits ..).trans ?_
    split_ifs with ht
    · subst ht
      exact or_iff_left fun heq => hq heq.1
    · rfl
  · rw [if_pos rfl]
    exact Or.inr ⟨rfl, rfl⟩

end

/-! ## The invariant of the lock table -/

variable [DecidableEq Mode] [Fintype Mode]

structure Inv (cfg : Config Proc Mode Tag) (s : State Proc Mode Tag) : Prop where
  settled : ∀ tag, Settled cfg tag (s.locks tag)
  waits : ∀ p tag, s.waitLock p = some tag ↔ p ∈ queued (s.locks tag)

theorem inv_init : Inv cfg (State.init : State Proc Mode Tag) :=
  ⟨fun _ _ => nofun, fun _ _ => ⟨nofun, nofun⟩⟩

theorem Settled.nodup (h : Settled cfg tag lock) :
    (queued lock).Nodup := by
  cases lock with
  | none => exact nodup_nil
  | some lock => exact (h lock rfl).1.queueOk.nodup

theorem Inv.getD (h : Inv cfg s) (tag : Tag) :
    ((s.locks tag).getD Lock.new).Ok cfg tag ∧
      Blocked cfg tag ((s.locks tag).getD Lock.new).procLocks ∅
        ((s.locks tag).getD Lock.new).waitProcs ∧
      queued (s.locks tag) = ((s.locks tag).getD Lock.new).waitProcs.map Waiter.proc := by
  cases hlock : s.locks tag with
  | none => exact ⟨Lock.ok_new cfg tag, trivial, rfl⟩
  | some lock =>
    obtain ⟨hok, hblocked⟩ := h.settled tag lock hlock
    exact ⟨hok, hblocked, rfl⟩

theorem Inv.not_mem_queued (h : Inv cfg s) (hp : s.waitLock p = none) (tag : Tag) :
    p ∉ queued (s.locks tag) := by
  rw [← h.waits, hp]
  nofun

theorem Inv.not_queued (h : Inv cfg s) (hp : s.waitLock p = none) (tag : Tag) :
    ∀ w ∈ ((s.locks tag).getD Lock.new).waitProcs, w.proc ≠ p := by
  rintro w hw rfl
  apply h.not_mem_queued hp tag
  rw [(h.getD tag).2.2]
  exact mem_map_of_mem hw

theorem Inv.waitLock_of_waits (h : Inv cfg s) (hq : s.Waits t q n) : s.waitLock q = some t := by
  obtain ⟨lock, hlock, w, hw, hproc, -⟩ := hq
  refine (h.waits q t).2 ?_
  rw [hlock, ← hproc]
  exact mem_map_of_mem hw

theorem Inv.waits_unique (h : Inv cfg s) {t' : Tag} {n' : Mode} (hq : s.Waits t q n)
    (hq' : s.Waits t' q n') : t' = t ∧ n' = n := by
  have ht : t' = t :=
    some.inj ((h.waitLock_of_waits hq').symm.trans (h.waitLock_of_waits hq))
  subst ht
  obtain ⟨lock, hlock, w, hw, hproc, hmode⟩ := hq
  obtain ⟨lock', hlock', w', hw', hproc', hmode'⟩ := hq'
  rw [hlock] at hlock'
  cases hlock'
  have hnodup := (h.settled t' lock hlock).1.queueOk.nodup
  have heq := inj_on_of_nodup_map hnodup hw' hw (hproc'.trans hproc.symm)
  exact ⟨rfl, by rw [← hmode, ← hmode', heq]⟩

variable [DecidableEq Proc]

section

variable {lock : Lock Proc Mode} (h : lock.Pending cfg tag lock.waitProcs p mode)
include h

theorem Lock.Pending.settled_grantLock
    (hqueue : ∀ w ∈ lock.waitProcs, w.proc = p → w.waitLockMode ≠ mode)
    (hblocked : Blocked cfg tag lock.procLocks ∅ lock.waitProcs)
    (hno : ¬ Conflicting cfg tag lock.procLocks p mode) :
    Settled cfg tag (some (LockMgr.grantLock lock p mode)) ∧
      ∀ q n, HeldIn (some (LockMgr.grantLock lock p mode)) q n ↔
        HoldsIn lock.procLocks q n ∨ q = p ∧ n = mode := by
  obtain ⟨proclock, hmem, hproc, -⟩ := h.procLock
  have hholds : ∀ q n, HoldsIn (LockMgr.grantLock lock p mode).procLocks q n ↔
      HoldsIn lock.procLocks q n ∨ q = p ∧ n = mode :=
    fun q n => holdsIn_insert ⟨proclock, hmem, hproc⟩
  refine ⟨?_, fun q n => heldIn_some.trans (hholds q n)⟩
  rintro _ ⟨⟩
  refine ⟨h.grantLock hqueue hno, hblocked.mono (fun q n _ hq => ?_) subset_rfl⟩
  exact (hholds q n).2 (Or.inl hq)

theorem Lock.Pending.settled_undoRequest (hqueue : ∀ w ∈ lock.waitProcs, w.proc ≠ p)
    (hmask : ∀ m, m ∈ lock.waitMask ↔ 0 < waiting lock.waitProcs m)
    (hblocked : Blocked cfg tag lock.procLocks ∅ lock.waitProcs) :
    Settled cfg tag (some (undoRequest lock p mode)) ∧
      ∀ q n, HeldIn (some (undoRequest lock p mode)) q n ↔ HoldsIn lock.procLocks q n := by
  refine ⟨?_, fun q n => heldIn_some.trans holdsIn_deleteIfIdle⟩
  rintro _ ⟨⟩
  refine ⟨h.withdraw hqueue hmask, hblocked.mono (fun q n _ hq => ?_) subset_rfl⟩
  exact holdsIn_deleteIfIdle.2 hq

end

/-- The waiters stay blocked if `UnGrantLock` does not ask for a wakeup. -/
theorem Lock.Ok.blocked_unGrantLock {lock : Lock Proc Mode} (h : lock.Ok cfg tag)
    (hblocked : Blocked cfg tag lock.procLocks ∅ lock.waitProcs)
    (hwake : (LockMgr.unGrantLock cfg lock mode p).2 = false) :
    Blocked cfg tag (LockMgr.unGrantLock cfg lock mode p).1.procLocks ∅ lock.waitProcs := by
  refine hblocked.mono ?_ subset_rfl
  rintro q n ⟨w, hw, hn⟩ hq
  refine holdsIn_erase.2 ⟨hq, ?_⟩
  rintro ⟨-, rfl⟩
  -- the conflict table is symmetric, so the wait mask shows the conflict with the waiter
  have hwaits := (h.waitMask _).2 (waiting_pos.2 ⟨w, hw, rfl⟩)
  have hinter := Finset.mem_inter.2 ⟨cfg.conflict_symm _ _ hn, hwaits⟩
  exact of_decide_eq_false hwake (Finset.ne_empty_of_mem hinter)

variable [DecidableEq Tag]

section

variable (h : Inv cfg s)
include h

/-- One lock changes, and some of its waiters are woken up. -/
theorem Inv.update (hlock : Settled cfg tag lock)
    (hperm : (queued (s.locks tag)).Perm (queued lock ++ woken)) :
    Inv cfg (s.update tag lock woken) := by
  have hmem : ∀ q, q ∈ queued (s.locks tag) ↔ q ∈ queued lock ∨ q ∈ woken := by
    intro q
    rw [hperm.mem_iff, mem_append]
  have hdisjoint : ∀ q ∈ queued lock, q ∉ woken := by
    have hnodup := (hperm.nodup_iff.1 (h.settled tag).nodup)
    exact fun q hq hq' => (nodup_append.1 hnodup).2.2 q hq q hq' rfl
  constructor
  · exact (forall_update_iff _ (Settled cfg)).2 ⟨hlock, fun t _ => h.settled t⟩
  · intro q t
    by_cases ht : t = tag
    · subst ht
      simp only [State.update, update_self]
      split_ifs with hq
      · exact iff_of_false nofun fun hin => hdisjoint q hin hq
      · rw [h.waits, hmem]
        exact or_iff_left hq
    · simp only [State.update, update_of_ne ht]
      split_ifs with hq
      · refine iff_of_false nofun fun hin => ht ?_
        have hwait := (h.waits q t).2 hin
        rw [(h.waits q tag).2 ((hmem q).2 (Or.inr hq))] at hwait
        exact (some.inj hwait).symm
      · exact h.waits q t

theorem Inv.join (hp : s.waitLock p = none) {lock : Lock Proc Mode}
    (hlock : Settled cfg tag (some lock))
    (hperm : (queued (some lock)).Perm (p :: queued (s.locks tag))) :
    Inv cfg ⟨Function.update s.locks tag (some lock),
      Function.update s.waitLock p (some tag)⟩ := by
  constructor
  · exact (forall_update_iff _ (Settled cfg)).2 ⟨hlock, fun t _ => h.settled t⟩
  · intro q t
    show Function.update s.waitLock p (some tag) q = some t ↔
      q ∈ queued (Function.update s.locks tag (some lock) t)
    by_cases hq : q = p
    · subst hq
      rw [update_self]
      by_cases ht : t = tag
      · subst ht
        rw [update_self, hperm.mem_iff]
        exact iff_of_true rfl mem_cons_self
      · rw [update_of_ne ht]
        exact iff_of_false (fun heq => ht (some.inj heq).symm) (h.not_mem_queued hp t)
    · rw [update_of_ne hq]
      by_cases ht : t = tag
      · subst ht
        rw [update_self, hperm.mem_iff, mem_cons, h.waits]
        exact (or_iff_right hq).symm
      · rw [update_of_ne ht]
        exact h.waits q t

theorem Inv.bystander (hwoken : ∀ q ∈ woken, q ∈ queued (s.locks tag))
    (hheld : ∀ n, HeldIn lock q n ↔ HeldIn (s.locks tag) q n ∨
      AwaitedIn (s.locks tag) q n ∧ q ∈ woken)
    (hawaited : ∀ n, AwaitedIn lock q n ↔ AwaitedIn (s.locks tag) q n ∧ q ∉ woken) :
    Bystander s (s.update tag lock woken) q := by
  by_cases hq : q ∈ woken
  · obtain ⟨n, hn⟩ := exists_awaitedIn (hwoken q hq)
    refine .woken tag n hn (if_pos hq) fun t' n' => ?_
    rw [State.holds_update]
    split_ifs with ht
    · subst ht
      rw [hheld]
      refine or_congr_right ⟨fun hn' => h.waits_unique hn hn'.1, ?_⟩
      rintro ⟨-, rfl⟩
      exact ⟨hn, hq⟩
    · exact (or_iff_left fun heq => ht heq.1).symm
  · refine .same (if_neg hq) (fun t n => ?_) (fun t n => ?_)
    · rw [State.holds_update]
      split_ifs with ht
      · subst ht
        rw [hheld]
        exact or_iff_left fun hn => hq hn.2
      · rfl
    · rw [State.waits_update]
      split_ifs with ht
      · subst ht
        rw [hawaited]
        exact and_iff_left hq
      · rfl

/-! ## Each section keeps the invariant -/

theorem Inv.update_queue {lock' : Lock Proc Mode} (hsettled : Settled cfg tag (some lock'))
    (hqueue : lock'.waitProcs = ((s.locks tag).getD Lock.new).waitProcs)
    (hheld : ∀ q n, q ≠ p → (HeldIn (some lock') q n ↔ HeldIn (s.locks tag) q n)) :
    Inv cfg (s.update tag (some lock') []) ∧
      ∀ q, q ≠ p → Bystander s (s.update tag (some lock') []) q := by
  constructor
  · refine h.update hsettled ?_
    rw [(h.getD tag).2.2, append_nil, queued, hqueue]
  · intro q hq
    refine h.bystander (by simp) (fun n => ?_) (fun n => ?_)
    · simp [hheld q n hq]
    · simp [awaitedIn_iff_getD, hqueue]

theorem lockAcquire_spec (hp : s.waitLock p = none) (hnot : ¬ s.Holds tag p mode)
    (dontWait : Bool) :
    ∃ s' status, lockAcquire cfg s p tag mode dontWait = some (s', status) ∧ Inv cfg s' ∧
      (∀ q, q ≠ p → Bystander s s' q) ∧ Requested s s' p tag mode status := by
  obtain ⟨hok, hblocked, -⟩ := h.getD tag
  have hnotIn : ¬ HoldsIn ((s.locks tag).getD Lock.new).procLocks p mode :=
    fun hin => hnot (heldIn_iff_getD.2 hin)
  obtain ⟨hpending, hsame⟩ := hok.setupLockInTable hnotIn
  have hmask := hok.waitMask
  have hnotQueued := h.not_queued hp tag
  unfold lockAcquire
  dsimp only
  generalize hlock : setupLockInTable cfg (s.locks tag) p mode = lock at hpending hsame ⊢
  have hqueue : lock.waitProcs = ((s.locks tag).getD Lock.new).waitProcs := by rw [← hlock]; rfl
  have hwaitMask : lock.waitMask = ((s.locks tag).getD Lock.new).waitMask := by rw [← hlock]; rfl
  rw [← hqueue] at hpending hblocked hnotQueued
  rw [← hqueue, ← hwaitMask] at hmask
  replace hblocked := hblocked.mono (fun q n _ hq => (hsame q n).2 hq) subset_rfl
  obtain ⟨own, hmem, hproc, -⟩ := hpending.procLock
  obtain ⟨proclock, hfind⟩ := Lock.exists_procLock ⟨own, hmem, hproc⟩
  obtain ⟨conflict, hcheck, hiff⟩ :=
    hpending.toCore.requestConflicts_eq ⟨own, hmem, hproc⟩ p lock.waitMask mode
  -- the request is granted, from whichever place
  have hgranted : ¬ Conflicting cfg tag lock.procLocks p mode →
      Inv cfg (s.update tag (some (grantLock lock p mode)) []) ∧
      (∀ q, q ≠ p → Bystander s (s.update tag (some (grantLock lock p mode)) []) q) ∧
      Requested s (s.update tag (some (grantLock lock p mode)) []) p tag mode .ok := by
    intro hfree
    obtain ⟨hsettled, hheld⟩ := hpending.settled_grantLock
      (fun w hw heq => absurd heq (hnotQueued w hw)) hblocked hfree
    have hheld' : ∀ q n, HeldIn (some (grantLock lock p mode)) q n ↔
        HeldIn (s.locks tag) q n ∨ q = p ∧ n = mode := by
      intro q n
      rw [hheld, hsame, heldIn_iff_getD]
    obtain ⟨hinv, hother⟩ := h.update_queue hsettled hqueue (p := p) fun q n hq => by
      rw [hheld']
      exact or_iff_left fun heq => hq heq.1
    refine ⟨hinv, hother, ?_, fun t n => ?_⟩
    · simpa [State.update] using hp
    · rw [State.holds_update]
      split_ifs with ht
      · subst ht
        rw [hheld']
        exact or_congr_right ⟨fun heq => ⟨rfl, heq.2⟩, fun heq => ⟨rfl, heq.2⟩⟩
      · exact (or_iff_left fun heq => ht heq.1).symm
  rw [hfind]
  simp only [bind_eq_bind, bind_some, hcheck]
  cases conflict with
  | false =>
    have hfree : ¬ Conflicting cfg tag lock.procLocks p mode :=
      fun hcon => Bool.false_ne_true (hiff.2 (Or.inr hcon))
    exact ⟨_, .ok, rfl, hgranted hfree⟩
  | true =>
    have hahead : BlockedBy cfg tag lock.procLocks (modes lock.waitProcs) p mode := by
      refine (hiff.1 rfl).mono (fun _ _ _ hq => hq) fun m hm => ?_
      exact mem_modes.2 (waiting_pos.1 ((hmask m).1 hm))
    obtain ⟨lock', status, hjoin, hgrant, hwait, hrefuse⟩ :=
      joinWaitQueue_spec proclock dontWait hpending hnotQueued hblocked hahead
    rw [if_pos rfl, hjoin]
    cases status with
    | ok =>
      obtain ⟨rfl, hfree⟩ := hgrant rfl
      exact ⟨_, .ok, rfl, hgranted hfree⟩
    | waiting =>
      obtain ⟨hsettled, hperm, hheld, hawaited⟩ := hwait rfl
      have hqueued : queued (some lock) = queued (s.locks tag) := by
        rw [(h.getD tag).2.2, queued, hqueue]
      refine ⟨_, .waiting, rfl, ?_, ?_⟩
      · exact h.join hp hsettled (hqueued ▸ hperm)
      · refine State.join_effect (fun q n => ?_) (fun q n => ?_) rfl
        · rw [hheld, heldIn_some, hsame, heldIn_iff_getD]
        · rw [hawaited, awaitedIn_some, hqueue, awaitedIn_iff_getD]
    | error =>
      obtain rfl := hrefuse rfl
      obtain ⟨hsettled, hheld⟩ := hpending.settled_undoRequest hnotQueued hmask hblocked
      have hheld' : ∀ q n, HeldIn (some (undoRequest lock' p mode)) q n ↔
          HeldIn (s.locks tag) q n := by
        intro q n
        rw [hheld, hsame, heldIn_iff_getD]
      obtain ⟨hinv, hother⟩ := h.update_queue hsettled hqueue (p := p) fun q n _ => hheld' q n
      refine ⟨_, .error, rfl, hinv, hother, by simpa [State.update] using hp, fun t n => ?_⟩
      rw [State.holds_update]
      split_ifs with ht
      · subst ht
        exact hheld' p n
      · rfl

theorem lockRelease_spec (hp : s.waitLock p = none) (hholds : s.Holds tag p mode) :
    ∃ s', lockRelease cfg s p tag mode = some s' ∧ Inv cfg s' ∧
      (∀ q, q ≠ p → Bystander s s' q) ∧ s'.waitLock p = none ∧
      ∀ t n, s'.Holds t p n ↔ s.Holds t p n ∧ ¬ (t = tag ∧ n = mode) := by
  obtain ⟨lock, hlock, own, hmem, hproc, hheld⟩ := hholds
  obtain ⟨hok, hblocked⟩ := h.settled tag lock hlock
  obtain ⟨proclock, hfind⟩ := Lock.exists_procLock ⟨own, hmem, hproc⟩
  have heq : proclock = own := by
    obtain ⟨hmem', hproc'⟩ := Lock.procLock_mem hfind
    exact inj_on_of_nodup_map hok.table.nodup hmem' hmem (hproc'.trans hproc.symm)
  subst heq
  have hqueue : ∀ w ∈ lock.waitProcs, w.proc ≠ p := by
    have := h.not_queued hp tag
    rwa [hlock] at this
  have hungrant := hok.unGrantLock ⟨proclock, hmem, hproc, hheld⟩ hqueue
  have hclean := hungrant.deleteIfIdle hqueue
  obtain ⟨lock', woken, hcleanup, hsettled, hwoke⟩ :=
    cleanUpLock_spec p _ _ hclean (hok.blocked_unGrantLock hblocked)
  have hreleased : ∀ q n, HeldIn (some (unGrantLock cfg lock mode p).1) q n ↔
      HeldIn (s.locks tag) q n ∧ ¬ (q = p ∧ n = mode) := by
    intro q n
    rw [hlock, heldIn_some, heldIn_some]
    exact holdsIn_erase
  have hawaited : ∀ q n, AwaitedIn (some (unGrantLock cfg lock mode p).1) q n ↔
      AwaitedIn (s.locks tag) q n := by
    intro q n
    rw [hlock, awaitedIn_some, awaitedIn_some]
    rfl
  have hperm : (queued (s.locks tag)).Perm (queued lock' ++ woken) := by
    rw [hlock]
    exact hwoke.perm
  have hwoken : ∀ q ∈ woken, q ∈ queued (s.locks tag) :=
    fun q hq => hperm.mem_iff.2 (mem_append_right _ hq)
  have hpwoken : p ∉ woken := fun hin => h.not_mem_queued hp tag (hwoken p hin)
  refine ⟨s.update tag lock' woken, ?_, h.update hsettled hperm, fun q hq => ?_, ?_, fun t n => ?_⟩
  · unfold lockRelease
    simp only [hlock, bind_eq_bind, bind_some, hfind, if_pos hheld]
    rw [hcleanup]
    rfl
  · refine h.bystander hwoken (fun n => ?_) (fun n => ?_)
    · rw [hwoke.held, hreleased, hawaited]
      exact or_congr_left (and_iff_left fun heq => hq heq.1)
    · rw [hwoke.awaited, hawaited]
  · exact (if_neg hpwoken).trans hp
  · rw [State.holds_update]
    split_ifs with ht
    · subst ht
      rw [hwoke.held, hreleased]
      refine (or_iff_left fun hin => hpwoken hin.2).trans (and_congr_right fun _ => ?_)
      exact not_congr ⟨fun heq => ⟨rfl, heq.2⟩, fun heq => ⟨rfl, heq.2⟩⟩
    · exact (and_iff_left fun heq => ht heq.1).symm

theorem removeFromWaitQueue_spec (hp : s.waitLock p ≠ none) :
    ∃ s', removeFromWaitQueue cfg s p = some s' ∧ Inv cfg s' ∧
      (∀ q, q ≠ p → Bystander s s' q) ∧ s'.waitLock p = none ∧
      ∀ t n, s'.Holds t p n ↔ s.Holds t p n := by
  obtain ⟨tag, htag⟩ := ne_none_iff_exists'.1 hp
  have hin := (h.waits p tag).1 htag
  cases hlock : s.locks tag with
  | none =>
    rw [hlock] at hin
    cases hin
  | some lock =>
    obtain ⟨hok, -⟩ := h.settled tag lock hlock
    rw [hlock] at hin
    obtain ⟨w₀, hw₀, hproc₀⟩ := mem_map.1 hin
    obtain ⟨w, hfind⟩ := isSome_iff_exists.1
      (List.find?_isSome.2 ⟨w₀, hw₀, by simpa using hproc₀⟩ :
        (lock.waitProcs.find? fun w => w.proc = p).isSome)
    have hproc : w.proc = p := by simpa using List.find?_some hfind
    subst hproc
    obtain ⟨pre, post, hqueue⟩ := append_of_mem (mem_of_find?_eq_some hfind)
    obtain ⟨hpending, hne⟩ := hok.pending hqueue
    have hfilter : lock.waitProcs.filter (fun w' => w'.proc ≠ w.proc) = pre ++ post := by
      rw [hqueue]
      exact filter_proc_ne hne
    have hmask := hpending.mem_clearMask (lock.granted w.waitLockMode
      = bump lock.requested w.waitLockMode (-1) w.waitLockMode) (by
        rw [bump, if_pos rfl, hpending.granted, hpending.requested, if_pos rfl]
        omega)
    obtain ⟨lock', woken, hcleanup, hsettled, hwoke⟩ := cleanUpLock_spec w.proc { lock with
        waitProcs := pre ++ post
        nRequested := lock.nRequested - 1
        requested := bump lock.requested w.waitLockMode (-1)
        waitMask := if lock.granted w.waitLockMode
            = bump lock.requested w.waitLockMode (-1) w.waitLockMode then
          lock.waitMask.erase w.waitLockMode else lock.waitMask } true
      (hpending.withdraw hne hmask) (by simp)
    have hperm : (queued (s.locks tag)).Perm (queued lock' ++ w.proc :: woken) := by
      rw [hlock, queued, hqueue, map_append, map_cons]
      refine perm_middle.trans ((List.Perm.cons _ ?_).trans perm_middle.symm)
      rw [← map_append]
      exact hwoke.perm
    have hpwoken : w.proc ∉ woken := by
      intro hin
      obtain ⟨w', hw', heq⟩ := mem_map.1 (hwoke.perm.mem_iff.2 (mem_append_right _ hin))
      exact hne w' hw' heq
    have hheld : ∀ q n, HeldIn lock' q n ↔ HoldsIn lock.procLocks q n ∨
        (∃ w' ∈ pre ++ post, w'.proc = q ∧ w'.waitLockMode = n) ∧ q ∈ woken := by
      intro q n
      rw [hwoke.held, heldIn_some, awaitedIn_some]
    have hother : ∀ q n, q ≠ w.proc → ((∃ w' ∈ pre ++ post, w'.proc = q ∧ w'.waitLockMode = n) ↔
        AwaitedIn (s.locks tag) q n) := by
      intro q n hq
      rw [hlock, awaitedIn_some, hqueue]
      simp only [perm_middle.mem_iff, exists_mem_cons_iff]
      exact (or_iff_right fun heq => hq heq.1.symm).symm
    refine ⟨s.update tag lock' (w.proc :: woken), ?_, h.update hsettled hperm, fun q hq => ?_,
      if_pos mem_cons_self, fun t n => ?_⟩
    · unfold removeFromWaitQueue
      simp only [htag, hlock, bind_eq_bind, bind_some, hfind, hfilter]
      rw [hcleanup]
      rfl
    · refine h.bystander (fun q' hq' => hperm.mem_iff.2 (mem_append_right _ hq'))
        (fun n => ?_) (fun n => ?_)
      · rw [hheld, hother q n hq, hlock, heldIn_some, mem_cons, or_iff_right hq]
      · rw [hwoke.awaited, awaitedIn_some, hother q n hq, mem_cons, not_or]
        exact and_congr_right fun _ => (and_iff_right hq).symm
    · rw [State.holds_update]
      split_ifs with ht
      · subst ht
        rw [hheld]
        refine (or_iff_left fun hin => hpwoken hin.2).trans ?_
        show _ ↔ HeldIn (s.locks t) w.proc n
        rw [hlock, heldIn_some]
      · rfl

theorem wakeup_spec {lock : Lock Proc Mode} (hlock : s.locks tag = some lock) (p : Proc) :
    ∃ s', exec cfg s (.wakeup p tag) = some s' ∧ Inv cfg s' ∧ ∀ q, Bystander s s' q := by
  obtain ⟨hok, -⟩ := h.settled tag lock hlock
  obtain ⟨lock', woken, hwake, hsettled, hwoke⟩ := procLockWakeup_spec p hok
  rw [← hlock] at hwoke
  refine ⟨s.update tag (some lock') woken, ?_, h.update hsettled hwoke.perm, fun q => ?_⟩
  · simp only [exec, hlock, bind_eq_bind, bind_some, hwake]
  · exact h.bystander (fun q' hq' => hwoke.perm.mem_iff.2 (mem_append_right _ hq'))
      (fun n => hwoke.held q n) (fun n => hwoke.awaited q n)

theorem exec_spec {call : Call Proc Mode Tag} (henabled : Enabled s call) :
    ∃ s', exec cfg s call = some s' ∧ Inv cfg s' := by
  cases call with
  | acquire p tag m dontWait =>
    obtain ⟨s', status, hacquire, hinv, -⟩ := lockAcquire_spec h henabled.1 henabled.2 dontWait
    exact ⟨s', by rw [exec, hacquire]; rfl, hinv⟩
  | release p tag m =>
    obtain ⟨s', hrelease, hinv, -⟩ := lockRelease_spec h henabled.1 henabled.2
    exact ⟨s', hrelease, hinv⟩
  | removeFromWaitQueue p =>
    obtain ⟨s', hremove, hinv, -⟩ := removeFromWaitQueue_spec h henabled
    exact ⟨s', hremove, hinv⟩
  | wakeup p tag =>
    obtain ⟨lock, hlock⟩ := ne_none_iff_exists'.1 henabled
    obtain ⟨s', hwake, hinv, -⟩ := wakeup_spec h hlock p
    exact ⟨s', hwake, hinv⟩

end

theorem Reachable.inv (h : Reachable cfg s) : Inv cfg s := by
  induction h with
  | refl => exact inv_init
  | tail _ hstep ih =>
    obtain ⟨call, henabled, hexec⟩ := hstep
    obtain ⟨s', hexec', hinv⟩ := exec_spec ih henabled
    rw [hexec] at hexec'
    cases hexec'
    exact hinv

end PostgreSieve.LockMgr
