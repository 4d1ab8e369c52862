import PostgreSieve.LockMgr.Table

/-! # Safety of the lock manager

In every state that the sections can reach, in any interleaving, locks of different lock groups do
not conflict, and whoever waits for a lock has to.
-/

namespace PostgreSieve.LockMgr

variable {Proc Mode Tag : Type} [DecidableEq Proc] [DecidableEq Mode] [Fintype Mode]
  [DecidableEq Tag] {cfg : Config Proc Mode Tag} {s : State Proc Mode Tag} {tag : Tag}

/-! ## Locks do not conflict -/

omit [DecidableEq Proc] in
theorem sum_holders (l : List (ProcLock Proc Mode)) :
    ∑ m, holders l m = (l.map fun proclock => proclock.holdMask.card).sum := by
  induction l with
  | nil => simp
  | cons proclock l ih =>
    simp only [holders_cons, Finset.sum_add_distrib, ih, List.map_cons, List.sum_cons]
    simp [add_comm]

omit [DecidableEq Proc] in
theorem sum_waiting (queue : List (Waiter Proc Mode)) : ∑ m, waiting queue m = queue.length := by
  induction queue with
  | nil => simp [waiting]
  | cons w queue ih => simp [waiting_cons, Finset.sum_add_distrib, ih]

/-- Locks of different lock groups never conflict, the counters and masks of a lock are those of
its proclocks and its wait queue, and no section crashes. -/
theorem locks_never_conflict (h : Reachable cfg s) :
    (∀ tag p q m n, s.Holds tag p m → s.Holds tag q n → n ∈ cfg.conflictTab m → p ≠ q →
      cfg.group p = cfg.group q ∧ cfg.relationExtend tag = false) ∧
    (∀ tag lock, s.locks tag = some lock →
      (lock.procLocks.map ProcLock.proc).Nodup ∧ (lock.waitProcs.map Waiter.proc).Nodup ∧
      (∀ m, lock.granted m = lock.procLocks.countP (fun proclock => m ∈ proclock.holdMask)) ∧
      (∀ m, lock.requested m = lock.procLocks.countP (fun proclock => m ∈ proclock.holdMask) +
        lock.waitProcs.countP (fun w => w.waitLockMode = m)) ∧
      lock.nGranted = (lock.procLocks.map fun proclock => proclock.holdMask.card).sum ∧
      lock.nRequested = (lock.procLocks.map fun proclock => proclock.holdMask.card).sum +
        lock.waitProcs.length ∧
      (∀ m, m ∈ lock.grantMask ↔ ∃ p, s.Holds tag p m) ∧
      (∀ m, m ∈ lock.waitMask ↔ ∃ w ∈ lock.waitProcs, w.waitLockMode = m) ∧
      ∀ proclock ∈ lock.procLocks, ∀ myProc m,
        lockCheckConflicts cfg myProc tag m lock proclock ≠ none) ∧
    ∀ call, Enabled s call → exec cfg s call ≠ none := by
  have hinv := h.inv
  refine ⟨?_, ?_, ?_⟩
  · rintro tag p q m n ⟨lock, hlock, hp⟩ ⟨lock', hlock', hq⟩ hconflict hne
    rw [hlock] at hlock'
    cases hlock'
    exact (hinv.settled tag lock hlock).1.exclusive p q m n hp hq hconflict hne
  · intro tag lock hlock
    obtain ⟨hok, -⟩ := hinv.settled tag lock hlock
    have hnGranted : ∑ m, lock.granted m = ((∑ m, holders lock.procLocks m : ℕ) : ℤ) := by
      push_cast
      exact Finset.sum_congr rfl fun m _ => hok.granted m
    have hnRequested : ∑ m, lock.requested m
        = ((∑ m, holders lock.procLocks m + ∑ m, waiting lock.waitProcs m : ℕ) : ℤ) := by
      push_cast
      rw [← Finset.sum_add_distrib]
      exact Finset.sum_congr rfl fun m _ => hok.requested m
    refine ⟨hok.table.nodup, hok.queueOk.nodup, hok.granted, hok.requested, ?_, ?_, ?_, ?_, ?_⟩
    · rw [hok.nGranted, hnGranted, sum_holders]
    · rw [hok.nRequested, hnRequested, sum_holders, sum_waiting]
      rfl
    · intro m
      rw [hok.grantMask, holders_pos]
      constructor
      · rintro ⟨p, hp⟩
        exact ⟨p, lock, hlock, hp⟩
      · rintro ⟨p, lock', hlock', hp⟩
        rw [hlock] at hlock'
        cases hlock'
        exact ⟨p, hp⟩
    · intro m
      rw [hok.waitMask, waiting_pos]
    · intro proclock hmem myProc m
      obtain ⟨conflict, hcheck, -⟩ :=
        lockCheckConflicts_eq hok.table hok.granted hok.grantMask hmem myProc tag m
      rw [hcheck]
      exact Option.some_ne_none conflict
  · intro call henabled
    obtain ⟨s', hexec, -⟩ := exec_spec hinv henabled
    rw [hexec]
    exact Option.some_ne_none s'

/-- Two processes that ask for one mode, which conflicts with itself. -/
def mutex : Config Bool Unit Unit where
  conflictTab := fun _ => {()}
  conflict_symm := fun _ _ h => h
  lockGroupLeader := fun _ => none
  leader_leads := fun _ _ h => h
  relationExtend := fun _ => false

theorem mutex_reachable : ∃ s lock, Reachable mutex s ∧ s.locks () = some lock ∧
    s.Holds () false () ∧ lock.waitProcs.map Waiter.proc = [true] := by
  let lock₁ : Lock Bool Unit := ⟨{()}, ∅, [⟨false, false, {()}⟩], [], fun _ => 1, 1, fun _ => 1, 1⟩
  let lock₂ : Lock Bool Unit := ⟨{()}, {()}, [⟨false, false, {()}⟩, ⟨true, true, ∅⟩],
    [⟨true, (), ∅⟩], fun _ => 2, 2, fun _ => 1, 1⟩
  have h₁ : Step mutex State.init ⟨fun _ => some lock₁, fun _ => none⟩ := by
    refine ⟨.acquire false () () false, ⟨rfl, ?_⟩, ?_⟩
    · rintro ⟨lock, hlock, -⟩
      cases hlock
    · rfl
  have h₂ : Step mutex ⟨fun _ => some lock₁, fun _ => none⟩
      ⟨fun _ => some lock₂, Function.update (fun _ => none) true (some ())⟩ := by
    refine ⟨.acquire true () () false, ⟨rfl, ?_⟩, ?_⟩
    · rintro ⟨lock, hlock, proclock, hmem, hproc, -⟩
      cases hlock
      simp only [lock₁, List.mem_singleton] at hmem
      subst hmem
      cases hproc
    · rfl
  refine ⟨_, lock₂, (Relation.ReflTransGen.single h₁).tail h₂, rfl, ?_, rfl⟩
  exact ⟨lock₂, rfl, ⟨false, false, {()}⟩, List.mem_cons_self, rfl, Finset.mem_singleton_self _⟩

theorem locks_never_conflict_mutex : ∃ s : State Bool Unit Unit, Reachable mutex s ∧
    s.Holds () false () ∧ ¬ s.Holds () true () := by
  obtain ⟨s, -, hreach, -, hholds, -⟩ := mutex_reachable
  refine ⟨s, hreach, hholds, fun hother => ?_⟩
  have hgroup := (locks_never_conflict hreach).1 () false true () () hholds hother
    (Finset.mem_singleton_self _) Bool.false_ne_true
  exact Bool.false_ne_true hgroup.1

/-! ## No lost wakeups -/

omit [DecidableEq Proc] [Fintype Mode] [DecidableEq Tag] in
theorem Blocked.blockedBy {l : List (ProcLock Proc Mode)} {pre post : List (Waiter Proc Mode)}
    {w : Waiter Proc Mode} (h : Blocked cfg tag l ∅ (pre ++ w :: post)) :
    (∃ a ∈ pre, a.waitLockMode ∈ cfg.conflictTab w.waitLockMode) ∨
      Conflicting cfg tag l w.proc w.waitLockMode := by
  rcases (blocked_append.1 h).2.1 with ⟨n, hn, hconflict⟩ | hconflict
  · rw [Finset.empty_union] at hn
    obtain ⟨a, ha, rfl⟩ := mem_modes.1 hn
    exact Or.inl ⟨a, ha, hconflict⟩
  · exact Or.inr hconflict

/-- Whoever is in a wait queue is blocked by a request ahead of it or by a lock that is held, so
that `ProcLockWakeup` would wake up nobody. This is so as well after a release for which
`UnGrantLock` tells that no wakeup is needed. -/
theorem no_lost_wakeups (h : Reachable cfg s) {lock : Lock Proc Mode}
    (hlock : s.locks tag = some lock) :
    (∀ pre w post, lock.waitProcs = pre ++ w :: post →
      (∃ a ∈ pre, a.waitLockMode ∈ cfg.conflictTab w.waitLockMode) ∨
      ∃ proclock, lock.procLock w.proc = some proclock ∧ ∀ myProc,
        lockCheckConflicts cfg myProc tag w.waitLockMode lock proclock = some true) ∧
    (∀ myProc, procLockWakeup cfg myProc tag lock = some (lock, [])) ∧
    ∀ p m lock', Enabled s (.release p tag m) → unGrantLock cfg lock m p = (lock', false) →
      ∀ myProc, procLockWakeup cfg myProc tag lock' = some (lock', []) := by
  have hinv := h.inv
  obtain ⟨hok, hblocked⟩ := hinv.settled tag lock hlock
  refine ⟨fun pre w post hqueue => ?_, fun myProc => procLockWakeup_blocked myProc hok hblocked, ?_⟩
  · rw [hqueue] at hblocked
    refine hblocked.blockedBy.imp_right fun hconflict => ?_
    obtain ⟨own, hmem, hproc, -⟩ := hok.queueOk.procLock w (by simp [hqueue])
    obtain ⟨proclock, hfind⟩ := Lock.exists_procLock ⟨own, hmem, hproc⟩
    refine ⟨proclock, hfind, fun myProc => ?_⟩
    obtain ⟨conflict, hcheck, hiff⟩ :=
      hok.toCore.lockCheckConflicts_eq hfind myProc w.waitLockMode
    rw [hcheck, hiff.2 hconflict]
  · rintro p m lock' ⟨hp, lock, hlock', hholds⟩ hungrant myProc
    rw [hlock] at hlock'
    cases hlock'
    have hqueue := hinv.not_queued hp tag
    rw [hlock] at hqueue
    have hok' := hok.unGrantLock hholds hqueue
    have hblocked' := hok.blocked_unGrantLock hblocked (congrArg Prod.snd hungrant)
    rw [hungrant] at hok' hblocked'
    refine procLockWakeup_blocked myProc hok' ?_
    have hlock' : (unGrantLock cfg lock m p).1 = lock' := by rw [hungrant]
    have hsame : lock'.waitProcs = lock.waitProcs := by
      rw [← hlock']
      rfl
    rw [hsame]
    exact hblocked'

theorem no_lost_wakeups_mutex : ∃ (s : State Bool Unit Unit) (lock : Lock Bool Unit),
    Reachable mutex s ∧ s.locks () = some lock ∧ lock.waitProcs.map Waiter.proc = [true] ∧
      procLockWakeup mutex true () lock = some (lock, []) := by
  obtain ⟨s, lock, hreach, hlock, -, hqueue⟩ := mutex_reachable
  exact ⟨s, lock, hreach, hlock, hqueue, (no_lost_wakeups hreach hlock).2.1 true⟩

/-! ## Sections of other processes -/

def Call.myProc : Call Proc Mode Tag → Proc
  | .acquire p .. | .release p .. | .removeFromWaitQueue p | .wakeup p _ => p

/-- A step of a process other than `q`. -/
def StepOther (cfg : Config Proc Mode Tag) (q : Proc) (s s' : State Proc Mode Tag) : Prop :=
  ∃ call : Call Proc Mode Tag, q ≠ call.myProc ∧ Enabled s call ∧ exec cfg s call = some s'

variable {s' : State Proc Mode Tag} {q : Proc}

theorem Inv.stepOther (h : Inv cfg s) (hstep : StepOther cfg q s s') :
    Inv cfg s' ∧ Bystander s s' q := by
  obtain ⟨call, hq, henabled, hexec⟩ := hstep
  cases call with
  | acquire p tag m dontWait =>
    obtain ⟨t, _, hacquire, hinv, hby, -⟩ := lockAcquire_spec h henabled.1 henabled.2 dontWait
    rw [exec, hacquire] at hexec
    cases hexec
    exact ⟨hinv, hby q hq⟩
  | release p tag m =>
    obtain ⟨t, hrelease, hinv, hby, -⟩ := lockRelease_spec h henabled.1 henabled.2
    cases hrelease.symm.trans hexec
    exact ⟨hinv, hby q hq⟩
  | removeFromWaitQueue p =>
    obtain ⟨t, hremove, hinv, hby, -⟩ := removeFromWaitQueue_spec h henabled
    cases hremove.symm.trans hexec
    exact ⟨hinv, hby q hq⟩
  | wakeup p tag =>
    obtain ⟨lock, hlock⟩ := Option.ne_none_iff_exists'.1 henabled
    obtain ⟨t, hwake, hinv, hby⟩ := wakeup_spec h hlock p
    cases hwake.symm.trans hexec
    exact ⟨hinv, hby q⟩

/-- Whatever the others do, a process keeps its locks, and gets no other than the one it waits
for. -/
theorem others_keep_locks (h : Reachable cfg s)
    (hrun : Relation.ReflTransGen (StepOther cfg q) s s') (t : Tag) (n : Mode) :
    (s.Holds t q n → s'.Holds t q n) ∧ (s'.Holds t q n → s.Holds t q n ∨ s.Waits t q n) ∧
      (s'.Waits t q n → s.Waits t q n) := by
  induction hrun with
  | refl => exact ⟨id, Or.inl, id⟩
  | tail hrun hstep ih =>
    obtain ⟨hkeep, hget, hwait⟩ := ih
    have hreach : Reachable cfg _ :=
      h.trans (hrun.lift id fun _ _ ⟨call, _, hcall⟩ => ⟨call, hcall⟩)
    obtain ⟨hinv', hby⟩ := hreach.inv.stepOther hstep
    cases hby with
    | same _ hholds hwaits =>
      rw [hholds, hwaits]
      exact ⟨hkeep, hget, hwait⟩
    | woken t' n' hw hnone hholds =>
      rw [hholds]
      refine ⟨fun hs => .inl (hkeep hs), ?_, fun hw' => ?_⟩
      · rintro (hs | ⟨rfl, rfl⟩)
        · exact hget hs
        · exact .inr (hwait hw)
      · cases hnone.symm.trans (hinv'.waitLock_of_waits hw')

theorem others_keep_locks_mutex : ∃ s : State Bool Unit Unit, Reachable mutex s ∧
    s.Holds () false () ∧ ∀ s', StepOther mutex false s s' → s'.Holds () false () := by
  obtain ⟨s, -, hreach, -, hholds, -⟩ := mutex_reachable
  exact ⟨s, hreach, hholds, fun s' hstep => (others_keep_locks hreach (.single hstep) () ()).1 hholds⟩

end PostgreSieve.LockMgr
