import PostgreSieve.LockMgr.Invariant

/-! # The sections under the partition lock

Each section keeps the invariant of its lock, does not crash, and leaves only waiters in the queue
that are blocked: by a request ahead of them or by a lock that is held.
-/

namespace PostgreSieve.LockMgr

open List

variable {Proc Mode Tag : Type} {cfg : Config Proc Mode Tag} {tag : Tag} {lock : Lock Proc Mode}
  {l l' : List (ProcLock Proc Mode)} {ahead ahead' : Finset Mode} {p myProc : Proc} {mode : Mode}
  {queue queue' : List (Waiter Proc Mode)} {w : Waiter Proc Mode}

/-! ## Holders and waiters -/

/-- The processes that wait for a lock. -/
def queued (lock : Option (Lock Proc Mode)) : List Proc :=
  match lock with
  | none => []
  | some lock => lock.waitProcs.map Waiter.proc

def HeldIn (lock : Option (Lock Proc Mode)) (q : Proc) (n : Mode) : Prop :=
  ∃ lock', lock = some lock' ∧ HoldsIn lock'.procLocks q n

def AwaitedIn (lock : Option (Lock Proc Mode)) (q : Proc) (n : Mode) : Prop :=
  ∃ lock', lock = some lock' ∧ ∃ w ∈ lock'.waitProcs, w.proc = q ∧ w.waitLockMode = n

/-- Some waiters were woken up, and hold what they waited for. -/
structure WokeUp (old new : Option (Lock Proc Mode)) (woken : List Proc) : Prop where
  perm : (queued old).Perm (queued new ++ woken)
  held : ∀ q n, HeldIn new q n ↔ HeldIn old q n ∨ AwaitedIn old q n ∧ q ∈ woken
  awaited : ∀ q n, AwaitedIn new q n ↔ AwaitedIn old q n ∧ q ∉ woken

@[simp] theorem heldIn_some {q : Proc} {n : Mode} :
    HeldIn (some lock) q n ↔ HoldsIn lock.procLocks q n := by
  simp [HeldIn]

@[simp] theorem awaitedIn_some {q : Proc} {n : Mode} :
    AwaitedIn (some lock) q n ↔ ∃ w ∈ lock.waitProcs, w.proc = q ∧ w.waitLockMode = n := by
  simp [AwaitedIn]

theorem mem_stay_iff {stay todo : List (Waiter Proc Mode)} {woken : List Proc}
    (hnodup : (todo.map Waiter.proc).Nodup) (hsub : stay.Sublist todo)
    (hperm : (todo.map Waiter.proc).Perm (stay.map Waiter.proc ++ woken)) (w : Waiter Proc Mode) :
    w ∈ stay ↔ w ∈ todo ∧ w.proc ∉ woken := by
  have hdisjoint := (nodup_append.1 (hperm.nodup_iff.1 hnodup)).2.2
  constructor
  · intro hw
    exact ⟨hsub.subset hw, fun hin => hdisjoint _ (mem_map_of_mem hw) _ hin rfl⟩
  · rintro ⟨hw, hnot⟩
    have hin := hperm.mem_iff.1 (mem_map_of_mem hw)
    obtain ⟨w', hw', heq⟩ := mem_map.1 ((mem_append.1 hin).resolve_right hnot)
    exact inj_on_of_nodup_map hnodup (hsub.subset hw') hw heq ▸ hw'

/-! ## Blocked waiters -/

/-- The request conflicts with one that is ahead, or with a lock that is held. -/
def BlockedBy (cfg : Config Proc Mode Tag) (tag : Tag) (procLocks : List (ProcLock Proc Mode))
    (ahead : Finset Mode) (p : Proc) (mode : Mode) : Prop :=
  (∃ n ∈ ahead, n ∈ cfg.conflictTab mode) ∨ Conflicting cfg tag procLocks p mode

section

variable (hl : ∀ q n, n ∈ cfg.conflictTab mode → HoldsIn l q n → HoldsIn l' q n)
include hl

theorem Conflicting.mono (h : Conflicting cfg tag l p mode) : Conflicting cfg tag l' p mode := by
  obtain ⟨q, n, hne, hgroup, hq, hn⟩ := h
  exact ⟨q, n, hne, hgroup, hl q n hn hq, hn⟩

theorem BlockedBy.mono (hahead : ahead ⊆ ahead') (h : BlockedBy cfg tag l ahead p mode) :
    BlockedBy cfg tag l' ahead' p mode := by
  rcases h with ⟨n, hn, hconflict⟩ | h
  · exact Or.inl ⟨n, hahead hn, hconflict⟩
  · exact Or.inr (h.mono hl)

end

variable [DecidableEq Mode]

/-- Every waiter of a queue is blocked, with the requests `ahead` in front of the queue. -/
def Blocked (cfg : Config Proc Mode Tag) (tag : Tag) (procLocks : List (ProcLock Proc Mode)) :
    Finset Mode → List (Waiter Proc Mode) → Prop
  | _, [] => True
  | ahead, w :: rest => BlockedBy cfg tag procLocks ahead w.proc w.waitLockMode ∧
      Blocked cfg tag procLocks (insert w.waitLockMode ahead) rest

/-- The modes that a queue waits for. -/
def modes (queue : List (Waiter Proc Mode)) : Finset Mode :=
  (queue.map Waiter.waitLockMode).toFinset

theorem mem_modes {m : Mode} : m ∈ modes queue ↔ ∃ w ∈ queue, w.waitLockMode = m := by
  simp [modes]

/-- Waiters stay blocked as long as no lock that conflicts with a request is released. -/
theorem Blocked.mono (hl : ∀ q n, (∃ w ∈ queue, n ∈ cfg.conflictTab w.waitLockMode) →
      HoldsIn l q n → HoldsIn l' q n) (hahead : ahead ⊆ ahead')
    (h : Blocked cfg tag l ahead queue) : Blocked cfg tag l' ahead' queue := by
  induction queue generalizing ahead ahead' with
  | nil => trivial
  | cons w rest ih =>
    constructor
    · exact h.1.mono (fun q n hn => hl q n ⟨w, mem_cons_self, hn⟩) hahead
    · refine ih ?_ (Finset.insert_subset_insert _ hahead) h.2
      rintro q n ⟨w', hw', hn⟩
      exact hl q n ⟨w', mem_cons_of_mem _ hw', hn⟩

theorem blocked_append :
    Blocked cfg tag l ahead (queue ++ queue') ↔
      Blocked cfg tag l ahead queue ∧ Blocked cfg tag l (ahead ∪ modes queue) queue' := by
  induction queue generalizing ahead with
  | nil => simp [Blocked, modes]
  | cons w rest ih =>
    have hmodes : insert w.waitLockMode ahead ∪ modes rest = ahead ∪ modes (w :: rest) := by
      ext m
      simp only [modes, map_cons, toFinset_cons, Finset.mem_union, Finset.mem_insert]
      tauto
    rw [cons_append, Blocked, Blocked, ih, hmodes, and_assoc]

theorem Blocked.insert (h : Blocked cfg tag l ahead (queue ++ queue'))
    (hw : BlockedBy cfg tag l (ahead ∪ modes queue) w.proc w.waitLockMode) :
    Blocked cfg tag l ahead (queue ++ w :: queue') := by
  rw [blocked_append] at h ⊢
  exact ⟨h.1, hw, h.2.mono (fun _ _ _ h => h) (Finset.subset_insert _ _)⟩

/-! ## Waking up -/

variable [Fintype Mode]

theorem Lock.Ok.eq_zero (h : lock.Ok cfg tag) (hzero : lock.nRequested = 0) (m : Mode) :
    holders lock.procLocks m = 0 ∧ waiting lock.waitProcs m = 0 := by
  have hsum : ∑ m, (holders lock.procLocks m + waiting lock.waitProcs m) = 0 := by
    have hcast : ((∑ m, (holders lock.procLocks m + waiting lock.waitProcs m) : ℕ) : ℤ) = 0 := by
      rw [← hzero, h.nRequested]
      push_cast
      exact Finset.sum_congr rfl fun m _ => (h.requested m).symm
    exact_mod_cast hcast
  have := Finset.sum_eq_zero_iff.1 hsum m (Finset.mem_univ m)
  omega

theorem Lock.Ok.wokeUp_none (h : lock.Ok cfg tag) (hzero : lock.nRequested = 0) :
    WokeUp (some lock) none [] := by
  have hnil : lock.waitProcs = [] := by
    refine eq_nil_iff_forall_not_mem.2 fun w hw => ?_
    have hpos : 0 < waiting lock.waitProcs w.waitLockMode := waiting_pos.2 ⟨w, hw, rfl⟩
    have := (h.eq_zero hzero w.waitLockMode).2
    omega
  refine ⟨by simp [queued, hnil], fun q n => ?_, fun q n => ?_⟩
  · refine iff_of_false (by simp [HeldIn]) ?_
    rintro (hq | ⟨-, hin⟩)
    · have hpos := holders_pos.2 ⟨q, heldIn_some.1 hq⟩
      have := (h.eq_zero hzero n).1
      omega
    · cases hin
  · simp [AwaitedIn, hnil]

theorem Lock.Core.of_queue (h : Lock.Core cfg tag { lock with waitProcs := queue }) :
    lock.Core cfg tag :=
  h.congr h.table (fun _ => rfl) (fun _ _ => Iff.rfl) rfl rfl rfl h.nRequested

variable [DecidableEq Proc]

theorem Lock.Core.requestConflicts_eq (h : lock.Core cfg tag)
    (hproc : ∃ proclock ∈ lock.procLocks, proclock.proc = p) (myProc : Proc) (ahead : Finset Mode)
    (mode : Mode) :
    ∃ conflict, requestConflicts cfg myProc tag lock ahead p mode = some conflict ∧
      (conflict = true ↔ BlockedBy cfg tag lock.procLocks ahead p mode) := by
  obtain ⟨proclock, hfind⟩ := Lock.exists_procLock hproc
  unfold requestConflicts
  split_ifs with hahead
  · obtain ⟨n, hn⟩ := Finset.nonempty_iff_ne_empty.2 hahead
    obtain ⟨hn, hn'⟩ := Finset.mem_inter.1 hn
    exact ⟨true, rfl, iff_of_true rfl (Or.inl ⟨n, hn', hn⟩)⟩
  · obtain ⟨conflict, hcheck, hiff⟩ := h.lockCheckConflicts_eq hfind myProc mode
    refine ⟨conflict, by rw [hfind]; exact hcheck, hiff.trans ⟨Or.inr, fun hb => ?_⟩⟩
    refine hb.resolve_left ?_
    rintro ⟨n, hn, hn'⟩
    exact hahead (Finset.ne_empty_of_mem (Finset.mem_inter.2 ⟨hn', hn⟩))

theorem wakeupLoop_cons {rest : List (Waiter Proc Mode)} {conflict : Bool}
    (hcheck : requestConflicts cfg myProc tag lock ahead w.proc w.waitLockMode = some conflict) :
    wakeupLoop cfg myProc tag (w :: rest) ahead lock =
      if conflict then
        (wakeupLoop cfg myProc tag rest (insert w.waitLockMode ahead) lock).map
          fun r => (r.1, w :: r.2.1, r.2.2)
      else
        (wakeupLoop cfg myProc tag rest ahead (grantLock lock w.proc w.waitLockMode)).map
          fun r => (r.1, r.2.1, w.proc :: r.2.2) := by
  rw [wakeupLoop, hcheck]
  cases conflict
  · cases wakeupLoop cfg myProc tag rest ahead (grantLock lock w.proc w.waitLockMode) <;> rfl
  · cases wakeupLoop cfg myProc tag rest (insert w.waitLockMode ahead) lock <;> rfl

/-- The pass over the queue. `kept` are the waiters that were passed. -/
theorem wakeupLoop_spec (myProc : Proc) (todo kept : List (Waiter Proc Mode))
    (lock : Lock Proc Mode) (ahead : Finset Mode)
    (h : Lock.Ok cfg tag { lock with waitProcs := kept ++ todo }) (hahead : ahead = modes kept) :
    ∃ lock' stay woken, wakeupLoop cfg myProc tag todo ahead lock = some (lock', stay, woken) ∧
      Lock.Ok cfg tag { lock' with waitProcs := kept ++ stay } ∧
      Blocked cfg tag lock'.procLocks ahead stay ∧
      (∀ q n, HoldsIn lock'.procLocks q n ↔ HoldsIn lock.procLocks q n ∨
        (∃ w ∈ todo, w.proc = q ∧ w.waitLockMode = n) ∧ q ∈ woken) ∧
      stay.Sublist todo ∧ (todo.map Waiter.proc).Perm (stay.map Waiter.proc ++ woken) := by
  induction todo generalizing kept ahead lock with
  | nil => exact ⟨lock, [], [], rfl, h, trivial, by simp, .slnil, .refl _⟩
  | cons w rest ih =>
    obtain ⟨hpending, hqueue⟩ := h.pending rfl
    obtain ⟨proclock, hmem, hproc, -⟩ := hpending.procLock
    obtain ⟨conflict, hcheck, hiff⟩ := h.toCore.of_queue.requestConflicts_eq
      ⟨proclock, hmem, hproc⟩ myProc ahead w.waitLockMode
    have hrest : ∀ w' ∈ rest, w'.proc ≠ w.proc :=
      fun w' hw' => hqueue w' (mem_append_right _ hw')
    rw [wakeupLoop_cons hcheck]
    cases conflict with
    | true =>
      have hblocked := hiff.1 rfl
      have hahead' : insert w.waitLockMode ahead = modes (kept ++ [w]) := by
        rw [hahead]
        simp [modes]
      obtain ⟨lock', stay, woken, hloop, hok, hstay, hholds, hsub, hperm⟩ :=
        ih (kept ++ [w]) lock _ (by simpa using h) hahead'
      have hwoken : w.proc ∉ woken := by
        intro hin
        obtain ⟨w', hw', heq⟩ := mem_map.1 (hperm.mem_iff.2 (mem_append_right _ hin))
        exact hrest w' hw' heq
      rw [if_pos rfl, hloop]
      refine ⟨lock', w :: stay, woken, rfl, by simpa using hok, ⟨?_, hstay⟩, ?_,
        hsub.cons_cons w, hperm.cons _⟩
      · exact hblocked.mono (fun q n _ hq => (hholds q n).2 (Or.inl hq)) subset_rfl
      · intro q n
        rw [hholds, exists_mem_cons_iff]
        refine or_congr_right (and_congr_left fun hin => (or_iff_right ?_).symm)
        exact fun heq => hwoken (heq.1 ▸ hin)
    | false =>
      have hfree : ¬ Conflicting cfg tag lock.procLocks w.proc w.waitLockMode :=
        fun hcon => Bool.false_ne_true (hiff.2 (Or.inr hcon))
      obtain ⟨lock', stay, woken, hloop, hok, hstay, hholds, hsub, hperm⟩ :=
        ih kept (grantLock lock w.proc w.waitLockMode) _
          (hpending.grantLock (fun w' hw' heq => absurd heq (hqueue w' hw')) hfree) hahead
      rw [if_neg Bool.false_ne_true, hloop]
      refine ⟨lock', stay, w.proc :: woken, rfl, hok, hstay, fun q n => ?_, hsub.cons w, ?_⟩
      · have hgrant : HoldsIn (grantLock lock w.proc w.waitLockMode).procLocks q n ↔
            HoldsIn lock.procLocks q n ∨ q = w.proc ∧ n = w.waitLockMode :=
          holdsIn_insert ⟨proclock, hmem, hproc⟩
        rw [hholds, hgrant, or_assoc]
        refine or_congr_right ⟨?_, ?_⟩
        · rintro (⟨rfl, rfl⟩ | ⟨⟨w', hw', hw⟩, hin⟩)
          · exact ⟨⟨w, mem_cons_self, rfl, rfl⟩, mem_cons_self⟩
          · exact ⟨⟨w', mem_cons_of_mem _ hw', hw⟩, mem_cons_of_mem _ hin⟩
        · rintro ⟨⟨w', hw', rfl, rfl⟩, hin⟩
          rcases mem_cons.1 hw' with rfl | hw'
          · exact Or.inl ⟨rfl, rfl⟩
          · exact Or.inr ⟨⟨w', hw', rfl, rfl⟩, (mem_cons.1 hin).resolve_left (hrest w' hw')⟩
      · exact (hperm.cons _).trans perm_middle.symm

theorem wakeupLoop_blocked (myProc : Proc) (todo : List (Waiter Proc Mode)) (h : lock.Core cfg tag)
    (hproc : ∀ w ∈ todo, ∃ proclock ∈ lock.procLocks, proclock.proc = w.proc)
    (hblocked : Blocked cfg tag lock.procLocks ahead todo) :
    wakeupLoop cfg myProc tag todo ahead lock = some (lock, todo, []) := by
  induction todo generalizing ahead with
  | nil => rfl
  | cons w rest ih =>
    obtain ⟨conflict, hcheck, hiff⟩ := h.requestConflicts_eq (hproc w mem_cons_self) myProc ahead
      w.waitLockMode
    have hconflict := hiff.2 hblocked.1
    subst hconflict
    rw [wakeupLoop_cons hcheck, if_pos rfl,
      ih (fun w' hw' => hproc w' (mem_cons_of_mem _ hw')) hblocked.2]
    rfl

theorem procLockWakeup_blocked (myProc : Proc) (h : lock.Ok cfg tag)
    (hblocked : Blocked cfg tag lock.procLocks ∅ lock.waitProcs) :
    procLockWakeup cfg myProc tag lock = some (lock, []) := by
  have hproc : ∀ w ∈ lock.waitProcs, ∃ proclock ∈ lock.procLocks, proclock.proc = w.proc := by
    intro w hw
    obtain ⟨proclock, hmem, hproc, -⟩ := h.queueOk.procLock w hw
    exact ⟨proclock, hmem, hproc⟩
  rw [procLockWakeup, wakeupLoop_blocked myProc lock.waitProcs h.toCore hproc hblocked]
  rfl

/-! ## Cleaning up -/

/-- What holds of a lock in the table at the end of a section. -/
def Settled (cfg : Config Proc Mode Tag) (tag : Tag) (lock : Option (Lock Proc Mode)) : Prop :=
  ∀ lock', lock = some lock' →
    lock'.Ok cfg tag ∧ Blocked cfg tag lock'.procLocks ∅ lock'.waitProcs

theorem procLockWakeup_spec (myProc : Proc) (h : lock.Ok cfg tag) :
    ∃ lock' woken, procLockWakeup cfg myProc tag lock = some (lock', woken) ∧
      Settled cfg tag (some lock') ∧ WokeUp (some lock) (some lock') woken := by
  obtain ⟨lock', stay, woken, hloop, hok, hstay, hholds, hsub, hperm⟩ :=
    wakeupLoop_spec myProc lock.waitProcs [] lock ∅ h rfl
  refine ⟨{ lock' with waitProcs := stay }, woken, ?_, ?_, hperm, fun q n => ?_, fun q n => ?_⟩
  · rw [procLockWakeup, hloop]
    rfl
  · rintro _ ⟨⟩
    exact ⟨hok, hstay⟩
  · rw [heldIn_some, heldIn_some, awaitedIn_some, hholds]
  · rw [awaitedIn_some, awaitedIn_some]
    simp only [mem_stay_iff h.queueOk.nodup hsub hperm]
    constructor
    · rintro ⟨w, ⟨hw, hnot⟩, rfl, hmode⟩
      exact ⟨⟨w, hw, rfl, hmode⟩, hnot⟩
    · rintro ⟨⟨w, hw, rfl, hmode⟩, hnot⟩
      exact ⟨w, ⟨hw, hnot⟩, rfl, hmode⟩

theorem cleanUpLock_spec (myProc : Proc) (lock : Lock Proc Mode) (wakeupNeeded : Bool)
    (h : Lock.Ok cfg tag { lock with procLocks := deleteIfIdle p lock.procLocks })
    (hblocked : wakeupNeeded = false → Blocked cfg tag lock.procLocks ∅ lock.waitProcs) :
    ∃ lock' woken, cleanUpLock cfg myProc tag lock p wakeupNeeded = some (lock', woken) ∧
      Settled cfg tag lock' ∧ WokeUp (some lock) lock' woken := by
  -- the proclock that goes away holds nothing
  have hclean : ∀ {lock' woken}, WokeUp (some { lock with
      procLocks := deleteIfIdle p lock.procLocks }) lock' woken → WokeUp (some lock) lock' woken := by
    intro lock' woken hwoke
    refine ⟨hwoke.perm, fun q n => ?_, fun q n => ?_⟩
    · rw [hwoke.held, heldIn_some, heldIn_some, awaitedIn_some, awaitedIn_some,
        holdsIn_deleteIfIdle]
    · rw [hwoke.awaited, awaitedIn_some, awaitedIn_some]
  unfold cleanUpLock
  by_cases hzero : lock.nRequested = 0
  · exact ⟨none, [], if_pos hzero, nofun, hclean (h.wokeUp_none hzero)⟩
  rw [if_neg hzero]
  cases wakeupNeeded with
  | true =>
    obtain ⟨lock', woken, hwake, hsettled, hwoke⟩ := procLockWakeup_spec myProc h
    refine ⟨some lock', woken, ?_, hsettled, hclean hwoke⟩
    rw [if_pos rfl, hwake]
    rfl
  | false =>
    refine ⟨some _, [], if_neg Bool.false_ne_true, ?_, hclean ⟨by simp, by simp, by simp⟩⟩
    rintro _ ⟨⟩
    exact ⟨h, (hblocked rfl).mono (fun _ _ _ hq => holdsIn_deleteIfIdle.2 hq) subset_rfl⟩

/-! ## Joining the queue -/

section

variable (h : lock.Core cfg tag) (hproc : ∃ proclock ∈ lock.procLocks, proclock.proc = myProc)
  (held : Finset Mode)
include h hproc held

/-- The search for a place. `pre` are the waiters that were passed. -/
theorem joinScan_spec (mode : Mode) (rest pre : List (Waiter Proc Mode)) (ahead : Finset Mode)
    (hahead : ahead ⊆ modes pre) :
    ∃ place, joinScan cfg myProc tag mode lock held rest ahead pre.length = some place ∧
      (place = .grant → ¬ Conflicting cfg tag lock.procLocks myProc mode) ∧
      ∀ n, place = .insertAt n → ∃ pre' post', pre ++ rest = pre' ++ post' ∧ n = pre'.length ∧
        (post' = [] ∨ BlockedBy cfg tag lock.procLocks (modes pre') myProc mode) := by
  induction rest generalizing pre ahead with
  | nil =>
    refine ⟨_, rfl, nofun, ?_⟩
    rintro _ ⟨⟩
    exact ⟨pre, [], rfl, rfl, Or.inl rfl⟩
  | cons w rest ih =>
    have hpre : modes pre ⊆ modes (pre ++ [w]) := by
      intro m hm
      obtain ⟨w', hw', hmode⟩ := mem_modes.1 hm
      exact mem_modes.2 ⟨w', mem_append_left _ hw', hmode⟩
    have hnext : ∀ ahead', ahead' ⊆ modes (pre ++ [w]) → ∃ place,
        joinScan cfg myProc tag mode lock held rest ahead' (pre.length + 1) = some place ∧
        (place = .grant → ¬ Conflicting cfg tag lock.procLocks myProc mode) ∧
        ∀ n, place = .insertAt n → ∃ pre' post', pre ++ w :: rest = pre' ++ post' ∧
          n = pre'.length ∧
          (post' = [] ∨ BlockedBy cfg tag lock.procLocks (modes pre') myProc mode) := by
      intro ahead' hahead'
      simpa using ih (pre ++ [w]) ahead' hahead'
    rw [joinScan]
    split_ifs
    · exact hnext ahead (hahead.trans hpre)
    · exact ⟨_, rfl, nofun, nofun⟩
    · obtain ⟨conflict, hcheck, hiff⟩ := h.requestConflicts_eq hproc myProc ahead mode
      rw [hcheck]
      cases conflict with
      | true =>
        refine ⟨.insertAt pre.length, rfl, nofun, ?_⟩
        rintro _ ⟨⟩
        exact ⟨pre, w :: rest, rfl, rfl, Or.inr ((hiff.1 rfl).mono (fun _ _ _ hq => hq) hahead)⟩
      | false =>
        refine ⟨.grant, rfl, fun _ hcon => ?_, nofun⟩
        exact Bool.false_ne_true (hiff.2 (Or.inr hcon))
    · refine hnext (insert w.waitLockMode ahead) (Finset.insert_subset ?_ (hahead.trans hpre))
      exact mem_modes.2 ⟨w, by simp, rfl⟩

theorem queuePlace_spec
    (hblocked : BlockedBy cfg tag lock.procLocks (modes lock.waitProcs) myProc mode) :
    ∃ place, queuePlace cfg myProc tag mode lock held = some place ∧
      (place = .grant → ¬ Conflicting cfg tag lock.procLocks myProc mode) ∧
      ∀ n, place = .insertAt n → ∃ pre post, lock.waitProcs = pre ++ post ∧ n = pre.length ∧
        BlockedBy cfg tag lock.procLocks (modes pre) myProc mode := by
  unfold queuePlace
  split_ifs
  · obtain ⟨place, hscan, hgrant, hinsert⟩ :=
      joinScan_spec h hproc held mode lock.waitProcs [] ∅ subset_rfl
    refine ⟨place, hscan, hgrant, fun n hn => ?_⟩
    obtain ⟨pre, post, heq, hlen, hplace⟩ := hinsert n hn
    refine ⟨pre, post, heq, hlen, ?_⟩
    rcases hplace with rfl | hplace
    · -- at the end of the queue all requests are ahead
      rw [nil_append, append_nil] at heq
      exact heq ▸ hblocked
    · exact hplace
  · refine ⟨_, rfl, nofun, ?_⟩
    rintro _ ⟨⟩
    exact ⟨lock.waitProcs, [], by simp, rfl, hblocked⟩

end

theorem joinWaitQueue_spec (proclock : ProcLock Proc Mode) (dontWait : Bool)
    (h : lock.Pending cfg tag lock.waitProcs p mode) (hnot : ∀ w ∈ lock.waitProcs, w.proc ≠ p)
    (hqueue : Blocked cfg tag lock.procLocks ∅ lock.waitProcs)
    (hblocked : BlockedBy cfg tag lock.procLocks (modes lock.waitProcs) p mode) :
    ∃ lock' status, joinWaitQueue cfg p tag mode lock proclock dontWait = some (lock', status) ∧
      (status = .ok → lock' = grantLock lock p mode ∧
        ¬ Conflicting cfg tag lock.procLocks p mode) ∧
      (status = .waiting → Settled cfg tag (some lock') ∧
        (queued (some lock')).Perm (p :: queued (some lock)) ∧
        (∀ q n, HeldIn (some lock') q n ↔ HeldIn (some lock) q n) ∧
        ∀ q n, AwaitedIn (some lock') q n ↔ AwaitedIn (some lock) q n ∨ q = p ∧ n = mode) ∧
      (status = .error → lock' = lock) := by
  obtain ⟨own, hmem, hproc, -⟩ := h.procLock
  obtain ⟨place, hplace, hgrant, hinsert⟩ := queuePlace_spec h.toCore ⟨own, hmem, hproc⟩
    (myHeldLocks cfg p lock proclock) hblocked
  unfold joinWaitQueue
  dsimp only
  rw [hplace]
  cases place with
  | earlyDeadlock => exact ⟨lock, .error, rfl, nofun, nofun, fun _ => rfl⟩
  | grant => exact ⟨_, .ok, rfl, fun _ => ⟨rfl, hgrant rfl⟩, nofun, nofun⟩
  | insertAt n =>
    cases dontWait with
    | true => exact ⟨lock, .error, rfl, nofun, nofun, fun _ => rfl⟩
    | false =>
      refine ⟨_, .waiting, rfl, nofun, fun _ => ?_, nofun⟩
      obtain ⟨pre, post, heq, rfl, hpre⟩ := hinsert n rfl
      rw [heq, take_left, drop_left]
      rw [heq] at h hqueue hnot
      refine ⟨?_, ?_, fun q n => by simp, fun q n => ?_⟩
      · rintro _ ⟨⟩
        refine ⟨h.join hnot _, hqueue.insert ?_⟩
        exact hpre.mono (fun _ _ _ hq => hq) Finset.subset_union_right
      · simp only [queued, heq, map_append, map_cons]
        exact perm_middle
      · simp only [awaitedIn_some, heq, perm_middle.mem_iff, exists_mem_cons_iff]
        exact or_comm.trans (or_congr_right (and_congr eq_comm eq_comm))

end PostgreSieve.LockMgr
