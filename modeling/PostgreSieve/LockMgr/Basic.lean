import Mathlib.Algebra.BigOperators.Group.Finset.Basic
import Mathlib.Data.Finset.Card
import Mathlib.Data.Fintype.Basic
import Mathlib.Data.Int.Basic
import Mathlib.Logic.Relation

/-! # The heavyweight lock manager

The shared lock table. A lock has one `ProcLock` for each process that holds or awaits it, counters
and masks that summarize them, and a queue of waiting processes. A section that the code executes
under the partition lock is one step. A bit mask over the lock modes is a finite set of modes, and
`none` stands for a crash: a PANIC or a dangling pointer.
-/

namespace PostgreSieve.LockMgr

variable {Proc Mode Tag : Type} [DecidableEq Proc] [DecidableEq Mode] [Fintype Mode]
  [DecidableEq Tag]

/-- The conflict table of a lock method, the lock groups and the kinds of the locks. A process
becomes a group leader by pointing to itself, and a member only ever points to such a process. -/
structure Config (Proc Mode Tag : Type) where
  conflictTab : Mode → Finset Mode
  conflict_symm : ∀ m n, n ∈ conflictTab m → m ∈ conflictTab n
  lockGroupLeader : Proc → Option Proc
  leader_leads : ∀ p leader, lockGroupLeader p = some leader →
    lockGroupLeader leader = some leader
  /-- The tag is of type `LOCKTAG_RELATION_EXTEND`. -/
  relationExtend : Tag → Bool

/-- The `groupLeader` of the proclocks of a process. -/
def Config.group (cfg : Config Proc Mode Tag) (p : Proc) : Proc := (cfg.lockGroupLeader p).getD p

structure ProcLock (Proc Mode : Type) where
  proc : Proc
  groupLeader : Proc
  holdMask : Finset Mode

/-- A process in a wait queue, with the wait information of its `PGPROC`. -/
structure Waiter (Proc Mode : Type) where
  proc : Proc
  waitLockMode : Mode
  heldLocks : Finset Mode

structure Lock (Proc Mode : Type) where
  grantMask : Finset Mode
  waitMask : Finset Mode
  procLocks : List (ProcLock Proc Mode)
  waitProcs : List (Waiter Proc Mode)
  requested : Mode → ℤ
  nRequested : ℤ
  granted : Mode → ℤ
  nGranted : ℤ

/-- A lock object that was just created. -/
def Lock.new : Lock Proc Mode where
  grantMask := ∅
  waitMask := ∅
  procLocks := []
  waitProcs := []
  requested := fun _ => 0
  nRequested := 0
  granted := fun _ => 0
  nGranted := 0

/-- The entry of a process in the proclock table. -/
def Lock.procLock (lock : Lock Proc Mode) (p : Proc) : Option (ProcLock Proc Mode) :=
  lock.procLocks.find? fun proclock => proclock.proc = p

def bump (count : Mode → ℤ) (m : Mode) (d : ℤ) : Mode → ℤ :=
  fun i => if i = m then count i + d else count i

/-! ## Conflicts -/

/-- The loop of `LockCheckConflicts` that subtracts the locks of the other group members. -/
def subtractGroup (conflictMask : Finset Mode) (proclock : ProcLock Proc Mode) :
    List (ProcLock Proc Mode) → (Mode → ℤ) → ℤ → Option Bool
  | [], _, _ => some true
  | other :: rest, conflictsRemaining, totalConflictsRemaining =>
    if proclock.proc ≠ other.proc ∧ proclock.groupLeader = other.groupLeader ∧
        other.holdMask ∩ conflictMask ≠ ∅ then
      let intersectMask := other.holdMask ∩ conflictMask
      if ∃ i ∈ intersectMask, conflictsRemaining i ≤ 0 then none
      else if totalConflictsRemaining - intersectMask.card = 0 then some false
      else subtractGroup conflictMask proclock rest
        (fun i => if i ∈ intersectMask then conflictsRemaining i - 1 else conflictsRemaining i)
        (totalConflictsRemaining - intersectMask.card)
    else subtractGroup conflictMask proclock rest conflictsRemaining totalConflictsRemaining

/-- `LockCheckConflicts`, executed by `myProc` for the request of `proclock`. -/
def lockCheckConflicts (cfg : Config Proc Mode Tag) (myProc : Proc) (tag : Tag) (lockmode : Mode)
    (lock : Lock Proc Mode) (proclock : ProcLock Proc Mode) : Option Bool :=
  let conflictMask := cfg.conflictTab lockmode
  if conflictMask ∩ lock.grantMask = ∅ then some false
  else
    let conflictsRemaining := fun i =>
      if i ∈ conflictMask then lock.granted i - (if i ∈ proclock.holdMask then 1 else 0) else 0
    let totalConflictsRemaining := ∑ i, conflictsRemaining i
    if totalConflictsRemaining = 0 then some false
    else if proclock.groupLeader = myProc ∧ cfg.lockGroupLeader myProc = none then some true
    else if cfg.relationExtend tag then some true
    else subtractGroup conflictMask proclock lock.procLocks conflictsRemaining
      totalConflictsRemaining

/-- The test before each grant: the request of `p` conflicts with `aheadRequests` or, which is the
more complex check, with locks that are already held. -/
def requestConflicts (cfg : Config Proc Mode Tag) (myProc : Proc) (tag : Tag)
    (lock : Lock Proc Mode) (aheadRequests : Finset Mode) (p : Proc) (lockmode : Mode) :
    Option Bool :=
  if cfg.conflictTab lockmode ∩ aheadRequests ≠ ∅ then some true
  else (lock.procLock p).bind (lockCheckConflicts cfg myProc tag lockmode lock)

/-! ## Granting and releasing -/

/-- The proclocks with a new `holdMask` for one process. -/
def updateHoldMask (p : Proc) (f : Finset Mode → Finset Mode)
    (procLocks : List (ProcLock Proc Mode)) : List (ProcLock Proc Mode) :=
  procLocks.map fun proclock =>
    if proclock.proc = p then { proclock with holdMask := f proclock.holdMask } else proclock

/-- The proclock of a process goes away if it holds nothing. -/
def deleteIfIdle (p : Proc) (procLocks : List (ProcLock Proc Mode)) :
    List (ProcLock Proc Mode) :=
  procLocks.filter fun proclock => ¬ (proclock.proc = p ∧ proclock.holdMask = ∅)

/-- The lock and proclock of a request, created if needed, with the request counted. -/
def setupLockInTable (cfg : Config Proc Mode Tag) (lock : Option (Lock Proc Mode)) (p : Proc)
    (lockmode : Mode) : Lock Proc Mode :=
  let lock := lock.getD Lock.new
  { lock with
    procLocks := if (lock.procLock p).isSome then lock.procLocks
      else lock.procLocks ++ [⟨p, cfg.group p, ∅⟩]
    nRequested := lock.nRequested + 1
    requested := bump lock.requested lockmode 1 }

def grantLock (lock : Lock Proc Mode) (p : Proc) (lockmode : Mode) : Lock Proc Mode :=
  let granted := bump lock.granted lockmode 1
  { lock with
    nGranted := lock.nGranted + 1
    granted := granted
    grantMask := insert lockmode lock.grantMask
    waitMask := if granted lockmode = lock.requested lockmode then lock.waitMask.erase lockmode
      else lock.waitMask
    procLocks := updateHoldMask p (insert lockmode) lock.procLocks }

/-- `UnGrantLock`: the lock after the release, and whether waiters should be woken up. -/
def unGrantLock (cfg : Config Proc Mode Tag) (lock : Lock Proc Mode) (lockmode : Mode)
    (p : Proc) : Lock Proc Mode × Bool :=
  let granted := bump lock.granted lockmode (-1)
  ({ lock with
    nRequested := lock.nRequested - 1
    requested := bump lock.requested lockmode (-1)
    nGranted := lock.nGranted - 1
    granted := granted
    grantMask := if granted lockmode = 0 then lock.grantMask.erase lockmode else lock.grantMask
    procLocks := updateHoldMask p (·.erase lockmode) lock.procLocks },
   cfg.conflictTab lockmode ∩ lock.waitMask ≠ ∅)

/-- The pass of `ProcLockWakeup` over the wait queue: the lock, the waiters that stay in the queue
and the processes that were woken up. -/
def wakeupLoop (cfg : Config Proc Mode Tag) (myProc : Proc) (tag : Tag) :
    List (Waiter Proc Mode) → Finset Mode → Lock Proc Mode →
      Option (Lock Proc Mode × List (Waiter Proc Mode) × List Proc)
  | [], _, lock => some (lock, [], [])
  | w :: rest, aheadRequests, lock => do
    let conflict ← requestConflicts cfg myProc tag lock aheadRequests w.proc w.waitLockMode
    if conflict then
      let (lock', stay, woken) ←
        wakeupLoop cfg myProc tag rest (insert w.waitLockMode aheadRequests) lock
      some (lock', w :: stay, woken)
    else
      let (lock', stay, woken) ←
        wakeupLoop cfg myProc tag rest aheadRequests (grantLock lock w.proc w.waitLockMode)
      some (lock', stay, w.proc :: woken)

/-- The lock with its waiters that can go on woken up, and these processes. -/
def procLockWakeup (cfg : Config Proc Mode Tag) (myProc : Proc) (tag : Tag)
    (lock : Lock Proc Mode) : Option (Lock Proc Mode × List Proc) := do
  let (lock', stay, woken) ← wakeupLoop cfg myProc tag lock.waitProcs ∅ lock
  some ({ lock' with waitProcs := stay }, woken)

/-- Garbage collection after a release: what remains of the lock, and the processes woken up. -/
def cleanUpLock (cfg : Config Proc Mode Tag) (myProc : Proc) (tag : Tag) (lock : Lock Proc Mode)
    (p : Proc) (wakeupNeeded : Bool) : Option (Option (Lock Proc Mode) × List Proc) :=
  let lock := { lock with procLocks := deleteIfIdle p lock.procLocks }
  if lock.nRequested = 0 then some (none, [])
  else if wakeupNeeded then do
    let (lock', woken) ← procLockWakeup cfg myProc tag lock
    some (some lock', woken)
  else some (some lock, [])

/-! ## Waiting -/

inductive ProcWaitStatus where
  | ok
  | waiting
  | error
  deriving DecidableEq

/-- The outcome of the search for a place in the wait queue. -/
inductive QueuePlace where
  | earlyDeadlock
  | grant
  /-- The number of waiters in front. -/
  | insertAt (n : ℕ)

/-- The loop of `JoinWaitQueue` over the waiters, of which `n` were passed. -/
def joinScan (cfg : Config Proc Mode Tag) (myProc : Proc) (tag : Tag) (lockmode : Mode)
    (lock : Lock Proc Mode) (myHeldLocks : Finset Mode) :
    List (Waiter Proc Mode) → Finset Mode → ℕ → Option QueuePlace
  | [], _, n => some (.insertAt n)
  | w :: rest, aheadRequests, n =>
    if cfg.lockGroupLeader myProc ≠ none ∧
        cfg.lockGroupLeader myProc = cfg.lockGroupLeader w.proc then
      joinScan cfg myProc tag lockmode lock myHeldLocks rest aheadRequests (n + 1)
    else if cfg.conflictTab w.waitLockMode ∩ myHeldLocks ≠ ∅ then
      if cfg.conflictTab lockmode ∩ w.heldLocks ≠ ∅ then some .earlyDeadlock
      else do
        let conflict ← requestConflicts cfg myProc tag lock aheadRequests myProc lockmode
        some (if conflict then .insertAt n else .grant)
    else
      joinScan cfg myProc tag lockmode lock myHeldLocks rest
        (insert w.waitLockMode aheadRequests) (n + 1)

/-- The modes held by a process and the other members of its lock group. -/
def myHeldLocks (cfg : Config Proc Mode Tag) (myProc : Proc) (lock : Lock Proc Mode)
    (proclock : ProcLock Proc Mode) : Finset Mode :=
  match cfg.lockGroupLeader myProc with
  | none => proclock.holdMask
  | some leader => lock.procLocks.foldl
      (fun held other => if other.groupLeader = leader then held ∪ other.holdMask else held)
      proclock.holdMask

/-- Where to go in the wait queue: normally to the end, but before a waiter that must wait for locks
that the process or its group already holds. -/
def queuePlace (cfg : Config Proc Mode Tag) (myProc : Proc) (tag : Tag) (lockmode : Mode)
    (lock : Lock Proc Mode) (myHeldLocks : Finset Mode) : Option QueuePlace :=
  if myHeldLocks ≠ ∅ ∧ lock.waitProcs ≠ [] then
    joinScan cfg myProc tag lockmode lock myHeldLocks lock.waitProcs ∅ 0
  else some (.insertAt lock.waitProcs.length)

def joinWaitQueue (cfg : Config Proc Mode Tag) (myProc : Proc) (tag : Tag) (lockmode : Mode)
    (lock : Lock Proc Mode) (proclock : ProcLock Proc Mode) (dontWait : Bool) :
    Option (Lock Proc Mode × ProcWaitStatus) := do
  let held := myHeldLocks cfg myProc lock proclock
  match ← queuePlace cfg myProc tag lockmode lock held with
  | .earlyDeadlock => some (lock, .error)
  | .grant => some (grantLock lock myProc lockmode, .ok)
  | .insertAt n =>
    if dontWait then some (lock, .error)
    else some ({ lock with
      waitProcs := lock.waitProcs.take n ++
        ⟨myProc, lockmode, proclock.holdMask⟩ :: lock.waitProcs.drop n
      waitMask := insert lockmode lock.waitMask }, .waiting)

/-! ## The lock table -/

/-- The lock table, and for each process the lock it waits for. -/
structure State (Proc Mode Tag : Type) where
  locks : Tag → Option (Lock Proc Mode)
  waitLock : Proc → Option Tag

def State.init : State Proc Mode Tag := ⟨fun _ => none, fun _ => none⟩

/-- The table after a section on one lock that woke up some processes. -/
def State.update (s : State Proc Mode Tag) (tag : Tag) (lock : Option (Lock Proc Mode))
    (woken : List Proc) : State Proc Mode Tag where
  locks := Function.update s.locks tag lock
  waitLock := fun q => if q ∈ woken then none else s.waitLock q

/-- A request that was refused is taken back. -/
def undoRequest (lock : Lock Proc Mode) (p : Proc) (lockmode : Mode) : Lock Proc Mode :=
  { lock with
    procLocks := deleteIfIdle p lock.procLocks
    nRequested := lock.nRequested - 1
    requested := bump lock.requested lockmode (-1) }

/-- The part of `LockAcquireExtended` that works on the main lock table. -/
def lockAcquire (cfg : Config Proc Mode Tag) (s : State Proc Mode Tag) (myProc : Proc) (tag : Tag)
    (lockmode : Mode) (dontWait : Bool) : Option (State Proc Mode Tag × ProcWaitStatus) := do
  let lock := setupLockInTable cfg (s.locks tag) myProc lockmode
  let proclock ← lock.procLock myProc
  let foundConflict ← requestConflicts cfg myProc tag lock lock.waitMask myProc lockmode
  if foundConflict then
    let (lock', waitResult) ← joinWaitQueue cfg myProc tag lockmode lock proclock dontWait
    match waitResult with
    | .ok => some (s.update tag (some lock') [], .ok)
    | .waiting =>
      let s' := s.update tag (some lock') []
      some ({ s' with waitLock := Function.update s'.waitLock myProc (some tag) }, .waiting)
    | .error => some (s.update tag (some (undoRequest lock' myProc lockmode)) [], .error)
  else some (s.update tag (some (grantLock lock myProc lockmode)) [], .ok)

/-- `LockRelease` of a lock that is in the main lock table. -/
def lockRelease (cfg : Config Proc Mode Tag) (s : State Proc Mode Tag) (myProc : Proc) (tag : Tag)
    (lockmode : Mode) : Option (State Proc Mode Tag) := do
  let lock ← s.locks tag
  let proclock ← lock.procLock myProc
  if lockmode ∈ proclock.holdMask then
    let (lock, wakeupNeeded) := unGrantLock cfg lock lockmode myProc
    let (lock', woken) ← cleanUpLock cfg myProc tag lock myProc wakeupNeeded
    some (s.update tag lock' woken)
  else some s

/-- A process leaves the wait queue without the lock. -/
def removeFromWaitQueue (cfg : Config Proc Mode Tag) (s : State Proc Mode Tag) (proc : Proc) :
    Option (State Proc Mode Tag) := do
  let tag ← s.waitLock proc
  let lock ← s.locks tag
  let w ← lock.waitProcs.find? fun w => w.proc = proc
  let requested := bump lock.requested w.waitLockMode (-1)
  let lock := { lock with
    waitProcs := lock.waitProcs.filter fun w => w.proc ≠ proc
    nRequested := lock.nRequested - 1
    requested := requested
    waitMask := if lock.granted w.waitLockMode = requested w.waitLockMode then
        lock.waitMask.erase w.waitLockMode else lock.waitMask }
  let (lock', woken) ← cleanUpLock cfg proc tag lock proc true
  some (s.update tag lock' (proc :: woken))

/-! ## Steps -/

inductive Call (Proc Mode Tag : Type) where
  | acquire (myProc : Proc) (tag : Tag) (lockmode : Mode) (dontWait : Bool)
  | release (myProc : Proc) (tag : Tag) (lockmode : Mode)
  | removeFromWaitQueue (myProc : Proc)
  | wakeup (myProc : Proc) (tag : Tag)

def State.Holds (s : State Proc Mode Tag) (tag : Tag) (p : Proc) (m : Mode) : Prop :=
  ∃ lock, s.locks tag = some lock ∧ ∃ proclock ∈ lock.procLocks,
    proclock.proc = p ∧ m ∈ proclock.holdMask

/-- A process that waits for a lock does nothing else. Repeated requests for a mode are counted in
the local lock table of the process, so it asks only for modes it does not hold, and it releases
only what it holds. -/
def Enabled (s : State Proc Mode Tag) : Call Proc Mode Tag → Prop
  | .acquire p tag m _ => s.waitLock p = none ∧ ¬ s.Holds tag p m
  | .release p tag m => s.waitLock p = none ∧ s.Holds tag p m
  | .removeFromWaitQueue p => s.waitLock p ≠ none
  | .wakeup _ tag => s.locks tag ≠ none

def exec (cfg : Config Proc Mode Tag) (s : State Proc Mode Tag) :
    Call Proc Mode Tag → Option (State Proc Mode Tag)
  | .acquire p tag m dontWait => (lockAcquire cfg s p tag m dontWait).map Prod.fst
  | .release p tag m => lockRelease cfg s p tag m
  | .removeFromWaitQueue p => removeFromWaitQueue cfg s p
  | .wakeup p tag => do
    let lock ← s.locks tag
    let (lock', woken) ← procLockWakeup cfg p tag lock
    some (s.update tag (some lock') woken)

def Step (cfg : Config Proc Mode Tag) (s s' : State Proc Mode Tag) : Prop :=
  ∃ call, Enabled s call ∧ exec cfg s call = some s'

def Reachable (cfg : Config Proc Mode Tag) (s : State Proc Mode Tag) : Prop :=
  Relation.ReflTransGen (Step cfg) State.init s

end PostgreSieve.LockMgr
