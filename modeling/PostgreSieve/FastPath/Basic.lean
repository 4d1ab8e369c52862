import PostgreSieve.LockMgr.Basic

/-! # Fast-path relation locks

Weak locks on relations may be recorded in slots of the backend that holds them, without a trip to
the main lock table. A strong locker first raises the count of its partition of the lock space, which
stops others from using the fast path there, and then moves the matching locks of every process to
the main table. A section under one `fpInfoLock`, the spinlock of the counts or one partition lock is
one step.
-/

namespace PostgreSieve.FastPath

open Function LockMgr

/-! ## Lock modes and lock tags -/

inductive LockMode where
  | accessShare
  | rowShare
  | rowExclusive
  | shareUpdateExclusive
  | share
  | shareRowExclusive
  | exclusive
  | accessExclusive
  deriving DecidableEq

instance : Fintype LockMode where
  elems := {.accessShare, .rowShare, .rowExclusive, .shareUpdateExclusive, .share,
    .shareRowExclusive, .exclusive, .accessExclusive}
  complete m := by cases m <;> decide

def lockConflicts : LockMode → Finset LockMode
  | .accessShare => {.accessExclusive}
  | .rowShare => {.exclusive, .accessExclusive}
  | .rowExclusive => {.share, .shareRowExclusive, .exclusive, .accessExclusive}
  | .shareUpdateExclusive =>
    {.shareUpdateExclusive, .share, .shareRowExclusive, .exclusive, .accessExclusive}
  | .share =>
    {.rowExclusive, .shareUpdateExclusive, .shareRowExclusive, .exclusive, .accessExclusive}
  | .shareRowExclusive =>
    {.rowExclusive, .shareUpdateExclusive, .share, .shareRowExclusive, .exclusive,
      .accessExclusive}
  | .exclusive =>
    {.rowShare, .rowExclusive, .shareUpdateExclusive, .share, .shareRowExclusive, .exclusive,
      .accessExclusive}
  | .accessExclusive =>
    {.accessShare, .rowShare, .rowExclusive, .shareUpdateExclusive, .share, .shareRowExclusive,
      .exclusive, .accessExclusive}

/-- The mode is below `ShareUpdateExclusiveLock`. -/
def LockMode.weak : LockMode → Bool
  | .accessShare | .rowShare | .rowExclusive => true
  | _ => false

/-- The mode is above `ShareUpdateExclusiveLock`. -/
def LockMode.strong : LockMode → Bool
  | .share | .shareRowExclusive | .exclusive | .accessExclusive => true
  | _ => false

/-- The modes that have a bit in a fast-path slot, by number. -/
def weakModes : List LockMode := [.accessShare, .rowShare, .rowExclusive]

inductive LockTag where
  | relation (dbOid relOid : ℕ)
  | relationExtend (dbOid relOid : ℕ)
  | other (id : ℕ)
  deriving DecidableEq

def invalidOid : ℕ := 0

def fpLockSlotsPerGroup : ℕ := 16

/-- The processes with their databases and lock groups, and the hash functions. -/
structure Env (Proc : Type) where
  allProcs : List Proc
  mem_allProcs : ∀ p, p ∈ allProcs
  databaseId : Proc → ℕ
  lockGroupLeader : Proc → Option Proc
  leader_leads : ∀ p leader, lockGroupLeader p = some leader →
    lockGroupLeader leader = some leader
  fastPathLockGroupsPerBackend : ℕ
  hashcode : LockTag → ℕ

variable {Proc : Type}

def Env.config (env : Env Proc) : Config Proc LockMode LockTag where
  conflictTab := lockConflicts
  conflict_symm := by decide
  lockGroupLeader := env.lockGroupLeader
  leader_leads := env.leader_leads
  relationExtend
    | .relationExtend _ _ => true
    | _ => false

def Env.fastPathRelGroup (env : Env Proc) (rel : ℕ) : ℕ :=
  (rel * 49157) % 2 ^ 64 &&& (env.fastPathLockGroupsPerBackend - 1)

/-- The partition of the strong lock counts. -/
def Env.partition (env : Env Proc) (tag : LockTag) : ℕ := env.hashcode tag % 1024

/-- `EligibleForRelationFastPath`: the relation, if the process may lock it on the fast path. -/
def Env.eligible (env : Env Proc) (p : Proc) (tag : LockTag) (mode : LockMode) : Option ℕ :=
  match tag with
  | .relation db rel =>
    if db = env.databaseId p ∧ env.databaseId p ≠ invalidOid ∧ mode.weak then some rel else none
  | _ => none

/-- `ConflictsWithRelationFastPath`. -/
def conflictsWithFastPath (tag : LockTag) (mode : LockMode) : Bool :=
  match tag with
  | .relation db _ => db ≠ invalidOid && mode.strong
  | _ => false

/-! ## Slots -/

structure Slot where
  relId : ℕ
  lockBits : Finset LockMode

/-- The loop of `FastPathGrantRelationLock`: the slot to use, and whether it has the relation. -/
def scanSlots (relid : ℕ) : List Slot → ℕ → Option ℕ → Option (ℕ × Bool)
  | [], _, unusedSlot => unusedSlot.map fun f => (f, false)
  | slot :: rest, f, unusedSlot =>
    if slot.lockBits = ∅ then scanSlots relid rest (f + 1) (some f)
    else if slot.relId = relid then some (f, true)
    else scanSlots relid rest (f + 1) unusedSlot

/-- The slots and the local use count after the grant, if there is space. -/
def fastPathGrantRelationLock (relid : ℕ) (lockmode : LockMode) (slots : List Slot)
    (useCount : ℕ) : Option (List Slot × ℕ) :=
  match scanSlots relid slots 0 none with
  | some (f, true) =>
    some (slots.modify f fun slot => ⟨slot.relId, insert lockmode slot.lockBits⟩, useCount)
  | some (f, false) =>
    some (slots.modify f fun slot => ⟨relid, insert lockmode slot.lockBits⟩, useCount + 1)
  | none => none

/-- The slots and the local use count after the release, and whether the lock was found. -/
def fastPathUnGrantRelationLock (relid : ℕ) (lockmode : LockMode) (slots : List Slot) :
    Bool × List Slot × ℕ :=
  let slots' := slots.map fun slot =>
    if slot.relId = relid ∧ lockmode ∈ slot.lockBits then
      { slot with lockBits := slot.lockBits.erase lockmode } else slot
  (slots.any fun slot => slot.relId = relid ∧ lockmode ∈ slot.lockBits, slots',
    slots'.countP fun slot => slot.lockBits ≠ ∅)

/-- The modes that a transfer takes out of the slot of a relation: up to `limit` of them, if the
shared memory is exhausted after so many. -/
def takeSlot (relid limit : ℕ) : List Slot → List LockMode × List Slot
  | [] => ([], [])
  | slot :: rest =>
    if slot.relId = relid ∧ slot.lockBits ≠ ∅ then
      let moved := (weakModes.filter fun mode => mode ∈ slot.lockBits).take limit
      (moved, ⟨slot.relId, slot.lockBits \ moved.toFinset⟩ :: rest)
    else ((takeSlot relid limit rest).1, slot :: (takeSlot relid limit rest).2)

/-! ## Processes -/

/-- Where a process is in `LockAcquireExtended` or `LockRelease`. -/
inductive Phase (Proc : Type) where
  /-- In `FastPathTransferRelationLocks`, with these processes to come. -/
  | transfer (dontWait : Bool) (todo : List Proc)
  | mainAcquire (dontWait : Bool)
  | waiting
  /-- The attempt failed; the strong lock count is still to be dropped. -/
  | aborted
  | mainRelease
  /-- The lock is released; the strong lock count is still to be dropped. -/
  | released

structure FState (Proc : Type) where
  main : State Proc LockMode LockTag
  slots : Proc → ℕ → List Slot
  useCounts : Proc → ℕ → ℕ
  count : ℕ → ℕ
  /-- The local locks with `holdsStrongLockCount`. -/
  strongLocks : Finset (Proc × LockTag × LockMode)
  /-- The locks that a process holds according to its local lock table. -/
  held : Proc → Finset (LockTag × LockMode)
  pc : Proc → Option (LockTag × LockMode × Phase Proc)

def FState.init : FState Proc where
  main := State.init
  slots := fun _ _ => List.replicate fpLockSlotsPerGroup ⟨invalidOid, ∅⟩
  useCounts := fun _ _ => 0
  count := fun _ => 0
  strongLocks := ∅
  held := fun _ => ∅
  pc := fun _ => none

variable [DecidableEq Proc]

def FState.setPc (s : FState Proc) (p : Proc) (pc : Option (LockTag × LockMode × Phase Proc)) :
    FState Proc :=
  { s with pc := update s.pc p pc }

def FState.setHeld (s : FState Proc) (p : Proc) (held : Finset (LockTag × LockMode)) :
    FState Proc :=
  { s with held := update s.held p held }

def FState.setSlots (s : FState Proc) (p : Proc) (group : ℕ) (slots : List Slot) : FState Proc :=
  { s with slots := update s.slots p (update (s.slots p) group slots) }

def FState.setUseCount (s : FState Proc) (p : Proc) (group n : ℕ) : FState Proc :=
  { s with useCounts := update s.useCounts p (update (s.useCounts p) group n) }

/-! ## Sections -/

/-- The attempt to take a lock on the fast path. -/
def fastPathAcquire (env : Env Proc) (s : FState Proc) (p : Proc) (tag : LockTag)
    (lockmode : LockMode) : Option (FState Proc) :=
  match env.eligible p tag lockmode with
  | none => none
  | some relid =>
    let group := env.fastPathRelGroup relid
    if s.useCounts p group < fpLockSlotsPerGroup ∧ s.count (env.partition tag) = 0 then
      match fastPathGrantRelationLock relid lockmode (s.slots p group) (s.useCounts p group) with
      | some (slots, n) => some ((s.setSlots p group slots).setUseCount p group n)
      | none => none
    else none

def beginStrongLockAcquire (env : Env Proc) (s : FState Proc) (p : Proc) (tag : LockTag)
    (lockmode : LockMode) : FState Proc :=
  { s with
    count := update s.count (env.partition tag) (s.count (env.partition tag) + 1)
    strongLocks := insert (p, tag, lockmode) s.strongLocks }

/-- The count is dropped if the local lock has one, in `AbortStrongLockAcquire` and
`RemoveLocalLock`. -/
def dropStrongLockCount (env : Env Proc) (s : FState Proc) (p : Proc) (tag : LockTag)
    (lockmode : LockMode) : FState Proc :=
  if (p, tag, lockmode) ∈ s.strongLocks then
    { s with
      count := update s.count (env.partition tag) (s.count (env.partition tag) - 1)
      strongLocks := s.strongLocks.erase (p, tag, lockmode) }
  else s

/-- The lock moves to the main table and is granted there without a check for conflicts. -/
def transferLock (env : Env Proc) (tag : LockTag) (q : Proc)
    (main : State Proc LockMode LockTag) (lockmode : LockMode) : State Proc LockMode LockTag :=
  main.update tag
    (some (grantLock (setupLockInTable env.config (main.locks tag) q lockmode) q lockmode)) []

/-- The section of `FastPathTransferRelationLocks` for one process. -/
def transferProc (env : Env Proc) (s : FState Proc) (tag : LockTag) (q : Proc) (limit : ℕ) :
    FState Proc :=
  match tag with
  | .relation db rel =>
    if env.databaseId q ≠ db then s
    else
      let group := env.fastPathRelGroup rel
      let (moved, slots) := takeSlot rel limit (s.slots q group)
      { s.setSlots q group slots with main := moved.foldl (transferLock env tag q) s.main }
  | _ => s

/-- The release of a lock on the fast path, if it is there. -/
def fastPathRelease (env : Env Proc) (s : FState Proc) (p : Proc) (tag : LockTag)
    (lockmode : LockMode) : Bool × FState Proc :=
  match env.eligible p tag lockmode with
  | none => (false, s)
  | some relid =>
    let group := env.fastPathRelGroup relid
    if 0 < s.useCounts p group then
      let (result, slots, n) := fastPathUnGrantRelationLock relid lockmode (s.slots p group)
      (result, (s.setSlots p group slots).setUseCount p group n)
    else (false, s)

/-! ## Steps -/

inductive Action (Proc : Type) where
  | acquire (p : Proc) (tag : LockTag) (lockmode : LockMode) (dontWait : Bool)
  /-- The next process of a transfer; with a limit if the shared memory is exhausted there. -/
  | transfer (p : Proc) (outOfMemory : Option ℕ)
  | mainAcquire (p : Proc)
  /-- There is no shared memory for the lock. -/
  | outOfMemory (p : Proc)
  /-- A process finds that the lock it waits for was granted. -/
  | awake (p : Proc)
  /-- A process gives up waiting. -/
  | cancel (p : Proc)
  | abort (p : Proc)
  | release (p : Proc) (tag : LockTag) (lockmode : LockMode)
  | mainRelease (p : Proc)
  | removeLocalLock (p : Proc)
  /-- A pass over the waiters by anyone, as the deadlock detector may cause it. -/
  | wakeup (p : Proc) (tag : LockTag)

/-- One step; `none` if it does not apply or the code fails. -/
def step (env : Env Proc) (s : FState Proc) : Action Proc → Option (FState Proc)
  | .acquire p tag lockmode dontWait =>
    match fastPathAcquire env s p tag lockmode with
    | some s' => some (s'.setHeld p (insert (tag, lockmode) (s.held p)))
    | none =>
      if conflictsWithFastPath tag lockmode then
        some ((beginStrongLockAcquire env s p tag lockmode).setPc p
          (some (tag, lockmode, .transfer dontWait env.allProcs)))
      else some (s.setPc p (some (tag, lockmode, .mainAcquire dontWait)))
  | .transfer p outOfMemory =>
    match s.pc p, outOfMemory with
    | some (tag, lockmode, .transfer dontWait []), _ =>
      some (s.setPc p (some (tag, lockmode, .mainAcquire dontWait)))
    | some (tag, lockmode, .transfer dontWait (q :: todo)), none =>
      some ((transferProc env s tag q weakModes.length).setPc p
        (some (tag, lockmode, .transfer dontWait todo)))
    | some (tag, lockmode, .transfer _ (q :: _)), some limit =>
      some ((transferProc env s tag q limit).setPc p (some (tag, lockmode, .aborted)))
    | _, _ => none
  | .mainAcquire p =>
    match s.pc p with
    | some (tag, lockmode, .mainAcquire dontWait) => do
      let (main, waitResult) ← lockAcquire env.config s.main p tag lockmode dontWait
      let s' := { s with main := main }
      match waitResult with
      | .ok => some ((s'.setHeld p (insert (tag, lockmode) (s.held p))).setPc p none)
      | .waiting => some (s'.setPc p (some (tag, lockmode, .waiting)))
      | .error => some (s'.setPc p (some (tag, lockmode, .aborted)))
    | _ => none
  | .outOfMemory p =>
    match s.pc p with
    | some (tag, lockmode, .mainAcquire _) => some (s.setPc p (some (tag, lockmode, .aborted)))
    | _ => none
  | .awake p =>
    match s.pc p with
    | some (tag, lockmode, .waiting) =>
      if s.main.waitLock p = none then
        some ((s.setHeld p (insert (tag, lockmode) (s.held p))).setPc p none)
      else none
    | _ => none
  | .cancel p =>
    match s.pc p with
    | some (tag, lockmode, .waiting) => do
      let main ← removeFromWaitQueue env.config s.main p
      some ({ s with main := main }.setPc p (some (tag, lockmode, .aborted)))
    | _ => none
  | .abort p =>
    match s.pc p with
    | some (tag, lockmode, .aborted) =>
      some ((dropStrongLockCount env s p tag lockmode).setPc p none)
    | _ => none
  | .release p tag lockmode =>
    let (released, s') := fastPathRelease env s p tag lockmode
    let s' := s'.setHeld p ((s.held p).erase (tag, lockmode))
    some (if released then s' else s'.setPc p (some (tag, lockmode, .mainRelease)))
  | .mainRelease p =>
    match s.pc p with
    | some (tag, lockmode, .mainRelease) => do
      let main ← lockRelease env.config s.main p tag lockmode
      some ({ s with main := main }.setPc p (some (tag, lockmode, .released)))
    | _ => none
  | .removeLocalLock p =>
    match s.pc p with
    | some (tag, lockmode, .released) =>
      some ((dropStrongLockCount env s p tag lockmode).setPc p none)
    | _ => none
  | .wakeup p tag => do
    let main ← exec env.config s.main (.wakeup p tag)
    some { s with main := main }

/-- The step is the next one of its process. A process does nothing else while it acquires or
releases a lock; it asks for locks that it does not hold, and releases those that it holds. -/
def Ready (s : FState Proc) : Action Proc → Prop
  | .acquire p tag lockmode _ => s.pc p = none ∧ (tag, lockmode) ∉ s.held p
  | .transfer p _ => ∃ tag lockmode dontWait todo,
      s.pc p = some (tag, lockmode, .transfer dontWait todo)
  | .mainAcquire p => ∃ tag lockmode dontWait, s.pc p = some (tag, lockmode, .mainAcquire dontWait)
  | .outOfMemory p => ∃ tag lockmode dontWait, s.pc p = some (tag, lockmode, .mainAcquire dontWait)
  | .awake p => ∃ tag lockmode, s.pc p = some (tag, lockmode, .waiting) ∧ s.main.waitLock p = none
  | .cancel p => ∃ tag lockmode, s.pc p = some (tag, lockmode, .waiting) ∧ s.main.waitLock p ≠ none
  | .abort p => ∃ tag lockmode, s.pc p = some (tag, lockmode, .aborted)
  | .release p tag lockmode => s.pc p = none ∧ (tag, lockmode) ∈ s.held p
  | .mainRelease p => ∃ tag lockmode, s.pc p = some (tag, lockmode, .mainRelease)
  | .removeLocalLock p => ∃ tag lockmode, s.pc p = some (tag, lockmode, .released)
  | .wakeup _ tag => s.main.locks tag ≠ none

def Step (env : Env Proc) (s s' : FState Proc) : Prop :=
  ∃ action, Ready s action ∧ step env s action = some s'

def Reachable (env : Env Proc) (s : FState Proc) : Prop :=
  Relation.ReflTransGen (Step env) FState.init s

end PostgreSieve.FastPath
