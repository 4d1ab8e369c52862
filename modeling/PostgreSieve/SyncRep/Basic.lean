import Mathlib.Algebra.Group.Nat.Defs
import Mathlib.Data.Finset.Card
import Mathlib.Data.List.Sort
import Mathlib.Data.List.TakeWhile
import PostgreSieve.Runs.Basic

/-! # Waiting for synchronous standbys

A committing backend waits in one of three queues until synchronous standbys have written, flushed
or applied its commit record. A WAL sender that hears from its standby advances the released
positions and wakes the backends up to them. A section under `SyncRepLock` is one step. What the WAL
senders have heard so far, and the configuration, are the input of a release.
-/

namespace PostgreSieve.SyncRep

inductive WaitMode where
  | write
  | flush
  | apply
  deriving DecidableEq

inductive WalSndState where
  | startup
  | backup
  | catchup
  | streaming
  | stopping
  deriving DecidableEq

/-- What a WAL sender publishes; `0` is `InvalidXLogRecPtr`. -/
structure WalSnd where
  pid : ℕ
  state : WalSndState
  write : ℕ
  flush : ℕ
  apply : ℕ
  syncStandbyPriority : ℕ

def WalSnd.position (w : WalSnd) : WaitMode → ℕ
  | .write => w.write
  | .flush => w.flush
  | .apply => w.apply

inductive SyncRepMethod where
  | priority
  | quorum
  deriving DecidableEq

structure SyncRepConfig where
  numSync : ℕ
  numSync_pos : 0 < numSync
  syncrepMethod : SyncRepMethod

/-! ## Released positions -/

structure SyncRepStandbyData extends WalSnd where
  walsndIndex : ℕ
  isMe : Bool

/-- Active, streaming or stopping, synchronous and with a valid flush position. -/
def WalSnd.candidate (w : WalSnd) : Bool :=
  w.pid ≠ 0 && (w.state = .streaming || w.state = .stopping) && w.syncStandbyPriority ≠ 0 &&
    w.flush ≠ 0

/-- The order of `standby_priority_comparator`. -/
def standbyPriorityComparator (a b : SyncRepStandbyData) : Prop :=
  if a.syncStandbyPriority ≠ b.syncStandbyPriority then
    a.syncStandbyPriority < b.syncStandbyPriority
  else a.walsndIndex ≤ b.walsndIndex

instance : DecidableRel standbyPriorityComparator := fun a b =>
  inferInstanceAs (Decidable (if a.syncStandbyPriority ≠ b.syncStandbyPriority then
    a.syncStandbyPriority < b.syncStandbyPriority else a.walsndIndex ≤ b.walsndIndex))

/-- The loop over the array of WAL senders. -/
def collect (me : ℕ) (walsnds : List WalSnd) : List SyncRepStandbyData :=
  (walsnds.zipIdx.filter fun x => x.1.candidate).map fun x => ⟨x.1, x.2, x.2 = me⟩

def getCandidateStandbys (config : SyncRepConfig) (me : ℕ) (walsnds : List WalSnd) :
    List SyncRepStandbyData :=
  let standbys := collect me walsnds
  if config.syncrepMethod = .priority ∧ standbys.length > config.numSync then
    (standbys.insertionSort standbyPriorityComparator).take config.numSync
  else standbys

/-- An invalid position stands for one that is not set yet. -/
def getOldestSyncRecPtr (standbys : List SyncRepStandbyData) (m : WaitMode) : ℕ :=
  standbys.foldl (fun ptr s => if ptr = 0 ∨ ptr > s.position m then s.position m else ptr) 0

/-- The positions in descending order. -/
def latest (standbys : List SyncRepStandbyData) (m : WaitMode) : List ℕ :=
  (standbys.map (·.position m)).insertionSort (· ≥ ·)

/-- `none` is a read outside of the array. -/
def getNthLatestSyncRecPtr (standbys : List SyncRepStandbyData) (nth : ℕ) (m : WaitMode) :
    Option ℕ :=
  if nth = 0 then none else (latest standbys m)[nth - 1]?

/-- The released position of each mode, if there are enough standbys and this one is among them.
The parameter `nth` of `SyncRepGetNthLatestSyncRecPtr` is a `uint8`. -/
def getSyncRecPtr (config : Option SyncRepConfig) (me : ℕ) (walsnds : List WalSnd) :
    Option (WaitMode → Option ℕ) :=
  config.bind fun config =>
    let standbys := getCandidateStandbys config me walsnds
    if standbys.any (·.isMe) ∧ config.numSync ≤ standbys.length then
      some fun m => match config.syncrepMethod with
        | .priority => some (getOldestSyncRecPtr standbys m)
        | .quorum => getNthLatestSyncRecPtr standbys (config.numSync % 2 ^ 8) m
    else none

/-! ## Queues -/

variable {Proc : Type}

/-- A call of `SyncRepReleaseWaiters`: the configuration that the WAL sender `me` has, and what all
of them publish. -/
structure Release where
  config : Option SyncRepConfig
  walsnds : List WalSnd
  me : Fin walsnds.length

/-- Queues hold the waiting processes with their `waitLSN`. -/
structure State (Proc : Type) where
  lsn : WaitMode → ℕ
  queue : WaitMode → List (Proc × ℕ)
  /-- Who was told that the position is reached. -/
  acknowledged : List (Proc × ℕ × WaitMode)
  /-- The calls of `SyncRepReleaseWaiters` so far. -/
  releases : List Release

def State.init : State Proc := ⟨fun _ => 0, fun _ => [], [], []⟩

/-- The loop of `SyncRepQueueInsert`, from the tail of the queue. -/
def insertFromTail (x : Proc × ℕ) : List (Proc × ℕ) → List (Proc × ℕ)
  | [] => [x]
  | w :: rest => if w.2 < x.2 then x :: w :: rest else w :: insertFromTail x rest

def queueInsert (queue : List (Proc × ℕ)) (x : Proc × ℕ) : List (Proc × ℕ) :=
  (insertFromTail x queue.reverse).reverse

/-- The position is advanced, and `SyncRepWakeQueue(false, m)` removes the waiters up to it. -/
def State.advance (s : State Proc) (m : WaitMode) (ptr : ℕ) : State Proc :=
  if s.lsn m < ptr then
    { s with
      lsn := Function.update s.lsn m ptr
      queue := Function.update s.queue m ((s.queue m).dropWhile fun w => w.2 ≤ ptr)
      acknowledged := s.acknowledged ++
        ((s.queue m).takeWhile fun w => w.2 ≤ ptr).map fun w => (w.1, w.2, m) }
  else s

def Release.recPtr (r : Release) : Option (WaitMode → Option ℕ) :=
  getSyncRecPtr r.config r.me r.walsnds

def releaseWaiters (s : State Proc) (r : Release) : Option (State Proc) :=
  let s := { s with releases := s.releases ++ [r] }
  let myWalSnd := r.walsnds.get r.me
  if myWalSnd.syncStandbyPriority = 0 ∨
      (myWalSnd.state ≠ .streaming ∧ myWalSnd.state ≠ .stopping) ∨ myWalSnd.flush = 0 then some s
  else match r.recPtr with
    | none => some s
    | some ptr => do
      let writePtr ← ptr .write
      let flushPtr ← ptr .flush
      let applyPtr ← ptr .apply
      some (((s.advance .write writePtr).advance .flush flushPtr).advance .apply applyPtr)

/-! ## Runs -/

inductive Action (Proc : Type) where
  /-- `SyncRepWaitForLSN`, with what it reads of the status of the standbys. -/
  | wait (p : Proc) (lsn : ℕ) (m : WaitMode) (statusInit statusDefined namesDefined : Bool)
  | release (r : Release)
  /-- `SyncRepCancelWait`. -/
  | cancel (p : Proc)

variable [DecidableEq Proc]

def State.waiting (s : State Proc) (p : Proc) : Bool :=
  (s.queue .write ++ s.queue .flush ++ s.queue .apply).any (·.1 = p)

/-- One step; `none` is a failed assertion. -/
def step (s : State Proc) : Action Proc → Option (State Proc)
  | .wait p lsn m statusInit statusDefined namesDefined =>
    if s.waiting p then none
    else if statusInit && !statusDefined then some s
    else if lsn ≤ s.lsn m then some { s with acknowledged := s.acknowledged ++ [(p, lsn, m)] }
    else if !statusInit && !namesDefined then some s
    else some { s with queue := Function.update s.queue m (queueInsert (s.queue m) (p, lsn)) }
  | .release r => releaseWaiters s r
  | .cancel p => some { s with queue := fun m => (s.queue m).filter (·.1 ≠ p) }

end PostgreSieve.SyncRep
