import PostgreSieve.LockMgr.Conflicts
import Mathlib.Algebra.BigOperators.Group.Finset.Piecewise
import Mathlib.Data.List.Basic

/-! # The state of one lock

The counters and masks of a lock are those of its proclocks and its wait queue, and the holders do
not conflict. Each function of the lock manager keeps this. Between the moment a request is counted
and the moment it is granted, queued or taken back, it is `Pending`.
-/

namespace PostgreSieve.LockMgr

open List

variable {Proc Mode Tag : Type}

/-- The number of waiters for a mode. -/
def waiting [DecidableEq Mode] (queue : List (Waiter Proc Mode)) (m : Mode) : ℕ :=
  queue.countP fun w => w.waitLockMode = m

/-- No process holds a mode that conflicts with one held by another lock group. -/
def Exclusive (cfg : Config Proc Mode Tag) (tag : Tag) (procLocks : List (ProcLock Proc Mode)) :
    Prop :=
  ∀ p q m n, HoldsIn procLocks p m → HoldsIn procLocks q n → n ∈ cfg.conflictTab m → p ≠ q →
    cfg.group p = cfg.group q ∧ cfg.relationExtend tag = false

/-- The waiters are different processes with proclocks that do not hold the mode yet. -/
structure QueueOk (procLocks : List (ProcLock Proc Mode)) (queue : List (Waiter Proc Mode)) :
    Prop where
  nodup : (queue.map Waiter.proc).Nodup
  procLock : ∀ w ∈ queue, ∃ proclock ∈ procLocks, proclock.proc = w.proc ∧
    w.waitLockMode ∉ proclock.holdMask

theorem QueueOk.mono {queue : List (Waiter Proc Mode)} {l l' : List (ProcLock Proc Mode)}
    (h : QueueOk l queue)
    (hl : ∀ w ∈ queue, ∀ proclock ∈ l, proclock.proc = w.proc →
      w.waitLockMode ∉ proclock.holdMask →
      ∃ proclock' ∈ l', proclock'.proc = w.proc ∧ w.waitLockMode ∉ proclock'.holdMask) :
    QueueOk l' queue := by
  refine ⟨h.nodup, fun w hw => ?_⟩
  obtain ⟨proclock, hmem, hproc, hnot⟩ := h.procLock w hw
  exact hl w hw proclock hmem hproc hnot

/-! ## Changes of a list of proclocks -/

theorem holdsIn_append_new (l : List (ProcLock Proc Mode)) (p leader q : Proc) (n : Mode) :
    HoldsIn (l ++ [⟨p, leader, ∅⟩]) q n ↔ HoldsIn l q n := by
  constructor
  · rintro ⟨proclock, hmem, hproc, hn⟩
    rcases mem_append.1 hmem with hmem | hmem
    · exact ⟨proclock, hmem, hproc, hn⟩
    · rw [mem_singleton.1 hmem] at hn
      exact absurd hn (Finset.notMem_empty n)
  · rintro ⟨proclock, hmem, hproc, hn⟩
    exact ⟨proclock, mem_append_left _ hmem, hproc, hn⟩

section

variable [DecidableEq Proc] {p q : Proc} {m n : Mode} {l : List (ProcLock Proc Mode)}
  {cfg : Config Proc Mode Tag}
variable {f : Finset Mode → Finset Mode} {proclock : ProcLock Proc Mode} {lock : Lock Proc Mode}

theorem mem_updateHoldMask (h : proclock ∈ updateHoldMask p f l) :
    ∃ old ∈ l, old.proc = proclock.proc ∧ old.groupLeader = proclock.groupLeader ∧
      proclock.holdMask = if old.proc = p then f old.holdMask else old.holdMask := by
  obtain ⟨old, hmem, rfl⟩ := mem_map.1 h
  refine ⟨old, hmem, ?_⟩
  split_ifs <;> simp

theorem mem_updateHoldMask_of_mem {old : ProcLock Proc Mode} (h : old ∈ l) :
    ∃ proclock ∈ updateHoldMask p f l, proclock.proc = old.proc ∧
      proclock.holdMask = if old.proc = p then f old.holdMask else old.holdMask := by
  refine ⟨_, mem_map_of_mem h, ?_⟩
  split_ifs <;> simp

theorem holdsIn_updateHoldMask : HoldsIn (updateHoldMask p f l) q n ↔
    ∃ old ∈ l, old.proc = q ∧ n ∈ if q = p then f old.holdMask else old.holdMask := by
  constructor
  · rintro ⟨proclock, hmem, rfl, hn⟩
    obtain ⟨old, hold, hproc, -, hmask⟩ := mem_updateHoldMask hmem
    exact ⟨old, hold, hproc, by rwa [← hproc, ← hmask]⟩
  · rintro ⟨old, hold, rfl, hn⟩
    obtain ⟨proclock, hmem, hproc, hmask⟩ := mem_updateHoldMask_of_mem hold
    exact ⟨proclock, hmem, hproc, hmask ▸ hn⟩

theorem map_proc_updateHoldMask (f : Finset Mode → Finset Mode) :
    (updateHoldMask p f l).map ProcLock.proc = l.map ProcLock.proc := by
  rw [updateHoldMask, map_map]
  refine map_congr_left fun proclock _ => ?_
  simp only [Function.comp_apply]
  split_ifs <;> rfl

theorem Table.updateHoldMask (ht : Table cfg l) (f : Finset Mode → Finset Mode) :
    Table cfg (updateHoldMask p f l) := by
  constructor
  · rw [map_proc_updateHoldMask]
    exact ht.nodup
  · intro proclock hmem
    obtain ⟨old, hold, hproc, hleader, -⟩ := mem_updateHoldMask hmem
    rw [← hleader, ← hproc]
    exact ht.leader old hold

theorem updateHoldMask_split {l₁ l₂ : List (ProcLock Proc Mode)}
    (h₁ : ∀ other ∈ l₁, other.proc ≠ proclock.proc)
    (h₂ : ∀ other ∈ l₂, other.proc ≠ proclock.proc) (f : Finset Mode → Finset Mode) :
    updateHoldMask proclock.proc f (l₁ ++ proclock :: l₂)
      = l₁ ++ { proclock with holdMask := f proclock.holdMask } :: l₂ := by
  have hself : ∀ l : List (ProcLock Proc Mode), (∀ other ∈ l, other.proc ≠ proclock.proc) →
      updateHoldMask proclock.proc f l = l := by
    intro l hl
    rw [updateHoldMask, map_congr_left fun other hother => if_neg (hl other hother)]
    exact map_id' l
  unfold updateHoldMask at hself ⊢
  rw [map_append, map_cons, if_pos rfl, hself l₁ h₁, hself l₂ h₂]

theorem Lock.procLock_mem (h : lock.procLock p = some proclock) :
    proclock ∈ lock.procLocks ∧ proclock.proc = p :=
  ⟨mem_of_find?_eq_some h, by simpa using List.find?_some h⟩

theorem Lock.exists_procLock (h : ∃ proclock ∈ lock.procLocks, proclock.proc = p) :
    ∃ proclock, lock.procLock p = some proclock := by
  obtain ⟨proclock, hmem, hproc⟩ := h
  exact Option.isSome_iff_exists.1 (List.find?_isSome.2 ⟨proclock, hmem, by simpa using hproc⟩)

variable [DecidableEq Mode]

theorem holdsIn_insert (hp : ∃ proclock ∈ l, proclock.proc = p) :
    HoldsIn (updateHoldMask p (insert m) l) q n ↔ HoldsIn l q n ∨ q = p ∧ n = m := by
  rw [holdsIn_updateHoldMask]
  split_ifs with hq
  · subst hq
    simp only [Finset.mem_insert, true_and]
    constructor
    · rintro ⟨old, hold, hproc, hn | hn⟩
      · exact Or.inr hn
      · exact Or.inl ⟨old, hold, hproc, hn⟩
    · rintro (⟨old, hold, hproc, hn⟩ | hn)
      · exact ⟨old, hold, hproc, Or.inr hn⟩
      · obtain ⟨old, hold, hproc⟩ := hp
        exact ⟨old, hold, hproc, Or.inl hn⟩
  · simp only [hq, false_and, or_false]
    rfl

theorem holdsIn_erase :
    HoldsIn (updateHoldMask p (·.erase m) l) q n ↔ HoldsIn l q n ∧ ¬ (q = p ∧ n = m) := by
  rw [holdsIn_updateHoldMask]
  split_ifs with hq
  · simp only [Finset.mem_erase, hq, true_and]
    constructor
    · rintro ⟨old, hold, hproc, hne, hn⟩
      exact ⟨⟨old, hold, hproc, hn⟩, hne⟩
    · rintro ⟨⟨old, hold, hproc, hn⟩, hne⟩
      exact ⟨old, hold, hproc, hne, hn⟩
  · simp only [hq, false_and, not_false_iff, and_true]
    rfl

theorem mem_deleteIfIdle :
    proclock ∈ deleteIfIdle p l ↔
      proclock ∈ l ∧ ¬ (proclock.proc = p ∧ proclock.holdMask = ∅) := by
  simp only [deleteIfIdle, mem_filter, decide_eq_true_eq]

theorem holdsIn_deleteIfIdle : HoldsIn (deleteIfIdle p l) q n ↔ HoldsIn l q n := by
  constructor
  · rintro ⟨proclock, hmem, hproc, hn⟩
    exact ⟨proclock, (mem_deleteIfIdle.1 hmem).1, hproc, hn⟩
  · rintro ⟨proclock, hmem, hproc, hn⟩
    exact ⟨proclock, mem_deleteIfIdle.2 ⟨hmem, fun h => Finset.ne_empty_of_mem hn h.2⟩, hproc, hn⟩

theorem Table.deleteIfIdle (ht : Table cfg l) : Table cfg (deleteIfIdle p l) := by
  constructor
  · exact ht.nodup.sublist (filter_sublist.map _)
  · intro proclock hmem
    exact ht.leader proclock (mem_deleteIfIdle.1 hmem).1

theorem holders_deleteIfIdle : holders (deleteIfIdle p l) n = holders l n := by
  rw [holders, deleteIfIdle, countP_filter]
  refine countP_congr fun proclock _ => ?_
  simp only [Bool.and_eq_true, decide_eq_true_eq]
  exact and_iff_left_of_imp fun hn hidle => Finset.ne_empty_of_mem hn hidle.2

variable (hnodup : (l.map ProcLock.proc).Nodup)
include hnodup

theorem holders_updateHoldMask (hmem : proclock ∈ l) (f : Finset Mode → Finset Mode) :
    holders (updateHoldMask proclock.proc f l) n + (if n ∈ proclock.holdMask then 1 else 0)
      = holders l n + if n ∈ f proclock.holdMask then 1 else 0 := by
  obtain ⟨l₁, l₂, rfl, h₁, h₂⟩ := split_at_proc hnodup hmem
  rw [updateHoldMask_split h₁ h₂]
  simp only [holders_append, holders_cons]
  omega

theorem holders_insert (hmem : proclock ∈ l) (hm : m ∉ proclock.holdMask) :
    holders (updateHoldMask proclock.proc (insert m) l) n
      = holders l n + if n = m then 1 else 0 := by
  have h := holders_updateHoldMask hnodup hmem (insert m) (n := n)
  by_cases heq : n = m
  · subst heq
    simpa [hm] using h
  · simpa [heq] using h

theorem holders_erase (hmem : proclock ∈ l) (hm : m ∈ proclock.holdMask) :
    holders (updateHoldMask proclock.proc (·.erase m) l) n + (if n = m then 1 else 0)
      = holders l n := by
  have h := holders_updateHoldMask hnodup hmem (·.erase m) (n := n)
  by_cases heq : n = m
  · subst heq
    simpa [hm] using h
  · simpa [heq] using h

end

/-! ## The wait queue -/

section

variable [DecidableEq Mode] {queue : List (Waiter Proc Mode)} {m : Mode}

theorem waiting_append (queue queue' : List (Waiter Proc Mode)) :
    waiting (queue ++ queue') m = waiting queue m + waiting queue' m := by
  simp [waiting]

theorem waiting_cons (w : Waiter Proc Mode) :
    waiting (w :: queue) m = waiting queue m + if m = w.waitLockMode then 1 else 0 := by
  simp [waiting, countP_cons, eq_comm]

theorem waiting_pos : 0 < waiting queue m ↔ ∃ w ∈ queue, w.waitLockMode = m := by
  simp [waiting, countP_pos_iff]

end

/-! ## The invariant -/

variable [DecidableEq Mode] [Fintype Mode]

/-- What does not depend on the wait queue. -/
structure Lock.Core (cfg : Config Proc Mode Tag) (tag : Tag) (lock : Lock Proc Mode) : Prop where
  table : Table cfg lock.procLocks
  granted : ∀ m, lock.granted m = holders lock.procLocks m
  grantMask : ∀ m, m ∈ lock.grantMask ↔ 0 < holders lock.procLocks m
  nGranted : lock.nGranted = ∑ m, lock.granted m
  nRequested : lock.nRequested = ∑ m, lock.requested m
  exclusive : Exclusive cfg tag lock.procLocks

structure Lock.Ok (cfg : Config Proc Mode Tag) (tag : Tag) (lock : Lock Proc Mode) : Prop
    extends lock.Core cfg tag where
  requested : ∀ m, lock.requested m = holders lock.procLocks m + waiting lock.waitProcs m
  waitMask : ∀ m, m ∈ lock.waitMask ↔ 0 < waiting lock.waitProcs m
  queueOk : QueueOk lock.procLocks lock.waitProcs

/-- A request of `p` is counted, and the others that wait are `queue`. -/
structure Lock.Pending (cfg : Config Proc Mode Tag) (tag : Tag) (lock : Lock Proc Mode)
    (queue : List (Waiter Proc Mode)) (p : Proc) (mode : Mode) : Prop
    extends lock.Core cfg tag where
  requested : ∀ m, lock.requested m
    = holders lock.procLocks m + waiting queue m + if m = mode then 1 else 0
  waitMask : ∀ m, 0 < waiting queue m → m ∈ lock.waitMask
  waitMask_of_ne : ∀ m, m ∈ lock.waitMask → m ≠ mode → 0 < waiting queue m
  queueOk : QueueOk lock.procLocks queue
  procLock : ∃ proclock ∈ lock.procLocks, proclock.proc = p ∧ mode ∉ proclock.holdMask

theorem sum_bump (count : Mode → ℤ) (m : Mode) (d : ℤ) :
    ∑ i, bump count m d i = ∑ i, count i + d := by
  have h : ∀ i, bump count m d i = count i + if i = m then d else 0 := by
    intro i
    unfold bump
    split_ifs <;> simp
  simp [h, Finset.sum_add_distrib]

theorem Lock.ok_new (cfg : Config Proc Mode Tag) (tag : Tag) :
    (Lock.new : Lock Proc Mode).Ok cfg tag where
  table := ⟨nodup_nil, fun _ h => by cases h⟩
  granted _ := rfl
  grantMask _ := by simp [Lock.new]
  nGranted := by simp [Lock.new]
  nRequested := by simp [Lock.new]
  exclusive p _ _ _ h := by obtain ⟨_, hmem, -⟩ := h; cases hmem
  requested _ := rfl
  waitMask _ := by simp [Lock.new, waiting]
  queueOk := ⟨nodup_nil, fun _ h => by cases h⟩

variable {cfg : Config Proc Mode Tag} {tag : Tag} {lock : Lock Proc Mode}
  {queue : List (Waiter Proc Mode)} {p : Proc} {mode : Mode}
variable {l : List (ProcLock Proc Mode)} {pre post : List (Waiter Proc Mode)}

theorem Lock.Core.congr {lock' : Lock Proc Mode} (h : lock.Core cfg tag)
    (ht : Table cfg lock'.procLocks)
    (hholders : ∀ m, holders lock'.procLocks m = holders lock.procLocks m)
    (hholds : ∀ q n, HoldsIn lock'.procLocks q n ↔ HoldsIn lock.procLocks q n)
    (hgranted : lock'.granted = lock.granted) (hmask : lock'.grantMask = lock.grantMask)
    (hnGranted : lock'.nGranted = lock.nGranted)
    (hnRequested : lock'.nRequested = ∑ m, lock'.requested m) : lock'.Core cfg tag where
  table := ht
  granted m := by rw [hgranted, hholders]; exact h.granted m
  grantMask m := by rw [hmask, hholders]; exact h.grantMask m
  nGranted := by rw [hnGranted, hgranted]; exact h.nGranted
  nRequested := hnRequested
  exclusive q q' n n' hq hq' := h.exclusive q q' n n' ((hholds q n).1 hq) ((hholds q' n').1 hq')

/-- A waiter seen as a request that the others do not know of. -/
theorem Lock.Ok.pending (h : lock.Ok cfg tag)
    {w : Waiter Proc Mode} (hqueue : lock.waitProcs = pre ++ w :: post) :
    lock.Pending cfg tag (pre ++ post) w.proc w.waitLockMode ∧
      ∀ w' ∈ pre ++ post, w'.proc ≠ w.proc := by
  have hwaiting : ∀ m, waiting lock.waitProcs m
      = waiting (pre ++ post) m + if m = w.waitLockMode then 1 else 0 := by
    rw [hqueue]
    simp only [waiting_append, waiting_cons]
    omega
  have hnodup := h.queueOk.nodup
  have hperm : (w :: (pre ++ post)).Perm lock.waitProcs := by
    rw [hqueue]
    exact perm_middle.symm
  have hmem : ∀ w' ∈ w :: (pre ++ post), w' ∈ lock.waitProcs := fun w' h' => hperm.mem_iff.1 h'
  rw [← (hperm.map Waiter.proc).nodup_iff, map_cons, nodup_cons] at hnodup
  refine ⟨{
    toCore := h.toCore
    requested := fun m => ?_
    waitMask := fun m hm => (h.waitMask m).2 (by rw [hwaiting]; omega)
    waitMask_of_ne := fun m hm hne => ?_
    queueOk := ⟨hnodup.2, fun w' h' => h.queueOk.procLock w' (hmem w' (mem_cons_of_mem _ h'))⟩
    procLock := h.queueOk.procLock w (hmem w mem_cons_self) },
    fun w' h' heq => hnodup.1 (heq ▸ mem_map_of_mem h')⟩
  · rw [h.requested, hwaiting]
    push_cast
    omega
  · have := (h.waitMask m).1 hm
    rw [hwaiting, if_neg hne] at this
    omega

theorem Lock.Pending.mem_clearMask (h : lock.Pending cfg tag queue p mode) (last : Prop)
    [Decidable last] (hlast : last ↔ waiting queue mode = 0) (m : Mode) :
    m ∈ (if last then lock.waitMask.erase mode else lock.waitMask) ↔ 0 < waiting queue m := by
  by_cases heq : m = mode
  · subst heq
    split_ifs with hclear
    · simp [hlast.1 hclear]
    · have hpos := Nat.pos_of_ne_zero (mt hlast.2 hclear)
      exact iff_of_true (h.waitMask m hpos) hpos
  · have hiff : m ∈ lock.waitMask ↔ 0 < waiting queue m :=
      ⟨fun hm => h.waitMask_of_ne m hm heq, h.waitMask m⟩
    split_ifs
    · rw [Finset.mem_erase, hiff]
      exact and_iff_right heq
    · exact hiff

theorem Lock.Pending.join (h : lock.Pending cfg tag (pre ++ post) p mode)
    (hqueue : ∀ w ∈ pre ++ post, w.proc ≠ p) (held : Finset Mode) :
    Lock.Ok cfg tag { lock with
      waitProcs := pre ++ ⟨p, mode, held⟩ :: post
      waitMask := insert mode lock.waitMask } := by
  have hwaiting : ∀ m, waiting (pre ++ ⟨p, mode, held⟩ :: post) m
      = waiting (pre ++ post) m + if m = mode then 1 else 0 := by
    simp only [waiting_append, waiting_cons]
    omega
  have hperm : (pre ++ ⟨p, mode, held⟩ :: post).Perm (⟨p, mode, held⟩ :: (pre ++ post)) :=
    perm_middle
  refine {
    toCore := h.toCore.congr h.table (fun _ => rfl) (fun _ _ => Iff.rfl) rfl rfl rfl h.nRequested
    requested := fun m => ?_
    waitMask := fun m => ?_
    queueOk := ⟨?_, fun w hw => ?_⟩ }
  · rw [h.requested, hwaiting]
    push_cast
    omega
  · rw [hwaiting, Finset.mem_insert]
    by_cases heq : m = mode
    · simp [heq]
    · rw [if_neg heq]
      exact ⟨fun hm => h.waitMask_of_ne m (hm.resolve_left heq) heq,
        fun hm => Or.inr (h.waitMask m hm)⟩
  · rw [(hperm.map Waiter.proc).nodup_iff, map_cons, nodup_cons]
    refine ⟨fun hin => ?_, h.queueOk.nodup⟩
    obtain ⟨w, hw, hproc⟩ := mem_map.1 hin
    exact hqueue w hw hproc
  · rcases mem_cons.1 (hperm.mem_iff.1 hw) with rfl | hw
    · exact h.procLock
    · exact h.queueOk.procLock w hw

variable [DecidableEq Proc]

theorem Lock.Core.lockCheckConflicts_eq (h : lock.Core cfg tag) {proclock : ProcLock Proc Mode}
    (hproc : lock.procLock p = some proclock) (myProc : Proc) (m : Mode) :
    ∃ conflict, lockCheckConflicts cfg myProc tag m lock proclock = some conflict ∧
      (conflict = true ↔ Conflicting cfg tag lock.procLocks p m) := by
  obtain ⟨hmem, rfl⟩ := Lock.procLock_mem hproc
  exact LockMgr.lockCheckConflicts_eq h.table h.granted h.grantMask hmem myProc tag m

/-! ## A request -/

theorem Lock.Core.addProcLock (h : lock.Core cfg tag) (hnot : ¬ HoldsIn lock.procLocks p mode)
    (hl : l = if (lock.procLock p).isSome then lock.procLocks
      else lock.procLocks ++ [⟨p, cfg.group p, ∅⟩]) :
    Table cfg l ∧ (∀ m, holders l m = holders lock.procLocks m) ∧
      (∀ q n, HoldsIn l q n ↔ HoldsIn lock.procLocks q n) ∧
      (∃ proclock ∈ l, proclock.proc = p ∧ mode ∉ proclock.holdMask) ∧
      ∀ proclock ∈ lock.procLocks, proclock ∈ l := by
  subst hl
  rcases hfind : lock.procLock p with - | proclock
  · have hfresh : ∀ proclock ∈ lock.procLocks, proclock.proc ≠ p := by
      intro proclock hmem
      simpa using List.find?_eq_none.1 hfind proclock hmem
    simp only [Option.isSome_none, Bool.false_eq_true, if_false]
    refine ⟨⟨?_, ?_⟩, ?_, holdsIn_append_new _ p _, ?_, ?_⟩
    · rw [map_append, nodup_append]
      refine ⟨h.table.nodup, nodup_singleton _, ?_⟩
      intro q hq q' hq'
      obtain ⟨proclock, hmem, rfl⟩ := mem_map.1 hq
      rw [mem_singleton.1 hq']
      exact hfresh proclock hmem
    · exact forall_mem_append.2 ⟨h.table.leader, forall_mem_singleton.2 rfl⟩
    · intro m
      simp [holders_append, holders_cons]
    · exact ⟨_, mem_append_right _ (mem_singleton_self _), rfl, Finset.notMem_empty _⟩
    · exact fun proclock hmem => mem_append_left _ hmem
  · obtain ⟨hmem, hproc⟩ := Lock.procLock_mem hfind
    exact ⟨h.table, fun _ => rfl, fun _ _ => Iff.rfl,
      ⟨proclock, hmem, hproc, fun hm => hnot ⟨proclock, hmem, hproc, hm⟩⟩, fun _ hmem => hmem⟩

theorem Lock.Ok.setupLockInTable {old : Option (Lock Proc Mode)}
    (h : (old.getD Lock.new).Ok cfg tag) (hnot : ¬ HoldsIn (old.getD Lock.new).procLocks p mode) :
    (LockMgr.setupLockInTable cfg old p mode).Pending cfg tag
      (old.getD Lock.new).waitProcs p mode ∧
    (∀ q n, HoldsIn (LockMgr.setupLockInTable cfg old p mode).procLocks q n ↔
      HoldsIn (old.getD Lock.new).procLocks q n) := by
  unfold LockMgr.setupLockInTable
  generalize old.getD Lock.new = lock at h hnot ⊢
  obtain ⟨ht, hholders, hholds, hproc, hmem⟩ := h.toCore.addProcLock hnot rfl
  refine ⟨{
    toCore := h.toCore.congr ht hholders hholds rfl rfl rfl ?_
    requested := fun m => ?_
    waitMask := fun m => (h.waitMask m).2
    waitMask_of_ne := fun m hm _ => (h.waitMask m).1 hm
    queueOk := h.queueOk.mono fun w _ proclock hl hw hnot => ⟨proclock, hmem proclock hl, hw, hnot⟩
    procLock := hproc }, hholds⟩
  · rw [sum_bump, ← h.nRequested]
  · show bump lock.requested mode 1 m = _
    rw [hholders, bump, h.requested]
    split_ifs <;> simp

/-! ## The end of a request -/

omit [Fintype Mode] in
theorem Exclusive.insert (h : Exclusive cfg tag l)
    (hp : ∃ proclock ∈ l, proclock.proc = p) (hno : ¬ Conflicting cfg tag l p mode) :
    Exclusive cfg tag (updateHoldMask p (insert mode) l) := by
  have hcompatible : ∀ q n, HoldsIn l q n → n ∈ cfg.conflictTab mode → q ≠ p →
      cfg.group q = cfg.group p ∧ cfg.relationExtend tag = false := by
    intro q n hq hn hne
    by_contra hcon
    refine hno ⟨q, n, hne, ?_, hq, hn⟩
    by_contra hor
    rw [not_or, not_not, Bool.not_eq_true] at hor
    exact hcon hor
  intro q q' n n' hq hq' hconflict hne
  rcases (holdsIn_insert hp).1 hq with hold | ⟨rfl, rfl⟩
  · rcases (holdsIn_insert hp).1 hq' with hold' | ⟨rfl, rfl⟩
    · exact h q q' n n' hold hold' hconflict hne
    · exact hcompatible q n hold (cfg.conflict_symm n n' hconflict) hne
  · rcases (holdsIn_insert hp).1 hq' with hq' | ⟨rfl, rfl⟩
    · obtain ⟨hgroup, hext⟩ := hcompatible q' n' hq' hconflict hne.symm
      exact ⟨hgroup.symm, hext⟩
    · exact absurd rfl hne

theorem Lock.Pending.grantLock (h : lock.Pending cfg tag queue p mode)
    (hqueue : ∀ w ∈ queue, w.proc = p → w.waitLockMode ≠ mode)
    (hno : ¬ Conflicting cfg tag lock.procLocks p mode) :
    Lock.Ok cfg tag { LockMgr.grantLock lock p mode with waitProcs := queue } := by
  obtain ⟨proclock, hmem, rfl, hnot⟩ := h.procLock
  have hholders : ∀ m, holders (updateHoldMask proclock.proc (insert mode) lock.procLocks) m
      = holders lock.procLocks m + if m = mode then 1 else 0 :=
    fun m => holders_insert h.table.nodup hmem hnot
  refine {
    table := h.table.updateHoldMask _
    granted := fun m => ?_
    grantMask := fun m => ?_
    nGranted := ?_
    nRequested := h.nRequested
    exclusive := h.exclusive.insert ⟨proclock, hmem, rfl⟩ hno
    requested := fun m => ?_
    waitMask := fun m => ?_
    queueOk := h.queueOk.mono fun w hw old hold hproc hw' => ?_ }
  · show bump lock.granted mode 1 m = _
    rw [LockMgr.grantLock, hholders, bump, h.granted]
    split_ifs <;> simp
  · rw [LockMgr.grantLock, hholders, Finset.mem_insert, h.grantMask]
    split_ifs with heq <;> simp [heq]
  · show lock.nGranted + 1 = ∑ m, bump lock.granted mode 1 m
    rw [sum_bump, ← h.nGranted]
  · rw [LockMgr.grantLock, hholders, h.requested]
    push_cast
    omega
  · refine h.mem_clearMask (bump lock.granted mode 1 mode = lock.requested mode) ?_ m
    rw [bump, if_pos rfl, h.granted, h.requested, if_pos rfl]
    omega
  · obtain ⟨new, hnew, hproc', hmask⟩ := mem_updateHoldMask_of_mem (p := proclock.proc)
      (f := insert mode) hold
    refine ⟨new, hnew, hproc'.trans hproc, ?_⟩
    rw [hmask]
    split_ifs with heq
    · rw [Finset.mem_insert, not_or]
      exact ⟨hqueue w hw (hproc.symm.trans heq), hw'⟩
    · exact hw'

theorem Lock.Pending.withdraw (h : lock.Pending cfg tag queue p mode)
    (hqueue : ∀ w ∈ queue, w.proc ≠ p) {mask : Finset Mode}
    (hmask : ∀ m, m ∈ mask ↔ 0 < waiting queue m) :
    Lock.Ok cfg tag { lock with
      procLocks := LockMgr.deleteIfIdle p lock.procLocks
      waitProcs := queue
      nRequested := lock.nRequested - 1
      requested := bump lock.requested mode (-1)
      waitMask := mask } := by
  refine {
    toCore := h.toCore.congr h.table.deleteIfIdle (fun _ => holders_deleteIfIdle)
      (fun _ _ => holdsIn_deleteIfIdle) rfl rfl rfl ?_
    requested := fun m => ?_
    waitMask := hmask
    queueOk := h.queueOk.mono fun w hw proclock hl hproc hnot => ?_ }
  · rw [sum_bump, h.nRequested]
    rfl
  · show bump lock.requested mode (-1) m = holders (LockMgr.deleteIfIdle p _) m + waiting queue m
    rw [holders_deleteIfIdle, bump, h.requested]
    split_ifs <;> omega
  · exact ⟨proclock, mem_deleteIfIdle.2 ⟨hl, fun hidle => hqueue w hw
      (hproc.symm.trans hidle.1)⟩, hproc, hnot⟩

/-! ## Releasing -/

theorem Lock.Ok.deleteIfIdle (h : lock.Ok cfg tag) (hqueue : ∀ w ∈ lock.waitProcs, w.proc ≠ p) :
    Lock.Ok cfg tag { lock with procLocks := LockMgr.deleteIfIdle p lock.procLocks } where
  toCore := h.toCore.congr h.table.deleteIfIdle (fun _ => holders_deleteIfIdle)
    (fun _ _ => holdsIn_deleteIfIdle) rfl rfl rfl h.nRequested
  requested m := by
    rw [holders_deleteIfIdle]
    exact h.requested m
  waitMask := h.waitMask
  queueOk := h.queueOk.mono fun w hw proclock hl hproc hnot =>
    ⟨proclock, mem_deleteIfIdle.2 ⟨hl, fun hidle => hqueue w hw (hproc.symm.trans hidle.1)⟩,
      hproc, hnot⟩

theorem Lock.Ok.unGrantLock (h : lock.Ok cfg tag) (hholds : HoldsIn lock.procLocks p mode)
    (hqueue : ∀ w ∈ lock.waitProcs, w.proc ≠ p) :
    (LockMgr.unGrantLock cfg lock mode p).1.Ok cfg tag := by
  obtain ⟨proclock, hmem, rfl, hheld⟩ := hholds
  have hholders : ∀ m, holders (updateHoldMask proclock.proc (·.erase mode) lock.procLocks) m
      + (if m = mode then 1 else 0) = holders lock.procLocks m :=
    fun m => holders_erase h.table.nodup hmem hheld
  refine {
    table := h.table.updateHoldMask (·.erase mode)
    granted := fun m => ?_
    grantMask := fun m => ?_
    nGranted := ?_
    nRequested := ?_
    exclusive := fun q q' n n' hq hq' =>
      h.exclusive q q' n n' (holdsIn_erase.1 hq).1 (holdsIn_erase.1 hq').1
    requested := fun m => ?_
    waitMask := h.waitMask
    queueOk := h.queueOk.mono fun w hw old hold hproc hw' => ?_ }
  · show bump lock.granted mode (-1) m = _
    rw [LockMgr.unGrantLock, bump, h.granted, ← hholders]
    split_ifs <;> simp
  · show m ∈ (if bump lock.granted mode (-1) mode = 0 then lock.grantMask.erase mode
      else lock.grantMask) ↔
        0 < holders (updateHoldMask proclock.proc (·.erase mode) lock.procLocks) m
    have hzero : bump lock.granted mode (-1) mode = 0 ↔
        holders (updateHoldMask proclock.proc (·.erase mode) lock.procLocks) mode = 0 := by
      rw [bump, if_pos rfl, h.granted, ← hholders mode, if_pos rfl]
      omega
    have hm := hholders m
    by_cases heq : m = mode
    · subst heq
      split_ifs with hclear
      · simp [hzero.1 hclear]
      · rw [h.grantMask, ← hm]
        omega
    · have hiff : m ∈ lock.grantMask ↔
          0 < holders (updateHoldMask proclock.proc (·.erase mode) lock.procLocks) m := by
        rw [h.grantMask, ← hm, if_neg heq, Nat.add_zero]
      split_ifs
      · rw [Finset.mem_erase, hiff]
        exact and_iff_right heq
      · exact hiff
  · show lock.nGranted - 1 = ∑ m, bump lock.granted mode (-1) m
    rw [sum_bump, h.nGranted]
    rfl
  · show lock.nRequested - 1 = ∑ m, bump lock.requested mode (-1) m
    rw [sum_bump, h.nRequested]
    rfl
  · show bump lock.requested mode (-1) m = _
    rw [LockMgr.unGrantLock, bump, h.requested, ← hholders]
    split_ifs <;> push_cast <;> omega
  · obtain ⟨new, hnew, hproc', hmask⟩ := mem_updateHoldMask_of_mem (p := proclock.proc)
      (f := (·.erase mode)) hold
    refine ⟨new, hnew, hproc'.trans hproc, ?_⟩
    rw [hmask, if_neg fun heq => hqueue w hw (hproc.symm.trans heq)]
    exact hw'

end PostgreSieve.LockMgr
