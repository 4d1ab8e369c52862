import PostgreSieve.ProcArray.Basic

/-! # Tuple visibility

`heapam_visibility.c`. A transaction that commits is recorded in `pg_xact` before it leaves the proc
array, and statuses may move on while a routine runs: each of its tests reads the statuses of a stage
of their own.
-/

namespace PostgreSieve.Heap

open Xact

/-- A committing transaction is recorded as committed and still in the proc array. -/
inductive XidStatus where
  | inProgress
  | committing
  | committed
  | aborted
  deriving DecidableEq

abbrev Oracle := ℕ → XidStatus

def transactionIdIsInProgress (o : Oracle) (xid : ℕ) : Bool :=
  o xid = .inProgress || o xid = .committing

def transactionIdDidCommit (o : Oracle) (xid : ℕ) : Bool :=
  o xid = .committing || o xid = .committed

/-- A transaction ends once. -/
def XidStatus.Moves : XidStatus → XidStatus → Prop
  | .inProgress, _ => True
  | .committing, s => s = .committing ∨ s = .committed
  | .committed, s => s = .committed
  | .aborted, s => s = .aborted

/-- The statuses at a later time. -/
def Later (o o' : Oracle) : Prop := ∀ xid, (o xid).Moves (o' xid)

/-- A tuple header, with the bits of `t_infomask` that are about visibility. The command ids are
those that `HeapTupleHeaderGetCmin` and `HeapTupleHeaderGetCmax` find. -/
structure HeapTupleHeader where
  xmin : ℕ
  xmax : ℕ
  xvac : ℕ
  cmin : ℕ
  cmax : ℕ
  xmaxKeyshrLock : Bool
  xmaxExclLock : Bool
  xmaxLockOnly : Bool
  xminCommitted : Bool
  xminInvalid : Bool
  xmaxCommitted : Bool
  xmaxInvalid : Bool
  xmaxIsMulti : Bool
  movedOff : Bool
  movedIn : Bool

/-- `isUpdate` is `ISUPDATE_from_mxstatus` of the member's status. -/
structure MultiXactMember where
  xid : ℕ
  isUpdate : Bool

def heapTupleGetUpdateXid (members : ℕ → List MultiXactMember) (tuple : HeapTupleHeader) : ℕ :=
  match (members tuple.xmax).find? (·.isUpdate) with
  | some member => member.xid
  | none => invalidTransactionId

/-- The surroundings of a call. The members of a multixact never change. -/
structure Visit (members : ℕ → List MultiXactMember) where
  /-- The statuses that the test of each stage reads. -/
  oracle : ℕ → Oracle
  /-- The statuses after the call. -/
  final : Oracle
  later : ∀ i j, i ≤ j → Later (oracle i) (oracle j)
  later_final : ∀ i, Later (oracle i) final
  /-- `TransactionIdIsCurrentTransactionId`. -/
  current : ℕ → Bool
  current_inProgress : ∀ xid, current xid = true → ∀ i, oracle i xid = .inProgress
  subTransGetTopmostTransaction : ℕ → ℕ
  /-- Whether the commit record of the inserting or deleting transaction is not flushed and there is
  no LSN interlock. -/
  xminDenied : Bool
  xmaxDenied : Bool

namespace HeapTupleHeader

def xmaxIsLockedOnly (tuple : HeapTupleHeader) : Bool :=
  tuple.xmaxLockOnly || (!tuple.xmaxIsMulti && tuple.xmaxExclLock && !tuple.xmaxKeyshrLock)

def lockedUpgraded (tuple : HeapTupleHeader) : Bool :=
  tuple.xmaxIsMulti && tuple.xmaxLockOnly && !tuple.xmaxExclLock && !tuple.xmaxKeyshrLock

def xminFrozen (tuple : HeapTupleHeader) : Bool := tuple.xminCommitted && tuple.xminInvalid

end HeapTupleHeader

namespace Visit

variable {members : ℕ → List MultiXactMember} (v : Visit members)

/-! ## Hint bits -/

/-- `SetHintBits` with `HEAP_XMIN_COMMITTED`. -/
def hintXminCommitted (tuple : HeapTupleHeader) : HeapTupleHeader :=
  if v.xminDenied then tuple else { tuple with xminCommitted := true }

/-- `SetHintBits` with `HEAP_XMAX_COMMITTED`. -/
def hintXmaxCommitted (tuple : HeapTupleHeader) : HeapTupleHeader :=
  if v.xmaxDenied then tuple else { tuple with xmaxCommitted := true }

/-- `SetHintBits` with `HEAP_XMIN_INVALID`, which is never denied. -/
def hintXminInvalid (tuple : HeapTupleHeader) : HeapTupleHeader := { tuple with xminInvalid := true }

/-- `SetHintBits` with `HEAP_XMAX_INVALID`, which is never denied. -/
def hintXmaxInvalid (tuple : HeapTupleHeader) : HeapTupleHeader := { tuple with xmaxInvalid := true }

/-- False if the row ought to be invisible. -/
def heapTupleCleanMoved (tuple : HeapTupleHeader) : Except String (HeapTupleHeader × Bool) :=
  if !(tuple.movedOff || tuple.movedIn) then .ok (tuple, true)
  else if v.current tuple.xvac then
    .error "encountered tuple with HEAP_MOVED considered current"
  else if transactionIdIsInProgress (v.oracle 0) tuple.xvac then
    .error "encountered tuple with HEAP_MOVED considered in-progress"
  else if tuple.movedOff then
    if transactionIdDidCommit (v.oracle 1) tuple.xvac then .ok (hintXminInvalid tuple, false)
    else .ok ({ tuple with xminCommitted := true }, true)
  else if transactionIdDidCommit (v.oracle 1) tuple.xvac then
    .ok ({ tuple with xminCommitted := true }, true)
  else .ok (hintXminInvalid tuple, false)

/-! ## Multixacts -/

/-- The members are looked up one after the other, from stage 6 on. -/
def multiXactIdIsRunning (multi : ℕ) : Bool :=
  (members multi).any (v.current ·.xid) ||
    (members multi).zipIdx.any fun (member, i) =>
      transactionIdIsInProgress (v.oracle (6 + i)) member.xid

def heapTupleHeaderGetUpdateXid (members : ℕ → List MultiXactMember) (tuple : HeapTupleHeader) : ℕ :=
  if !tuple.xmaxInvalid && tuple.xmaxIsMulti && !tuple.xmaxLockOnly then
    heapTupleGetUpdateXid members tuple
  else tuple.xmax

def heapTupleHeaderIsOnlyLocked (tuple : HeapTupleHeader) : Bool :=
  if tuple.xmaxInvalid then true
  else if tuple.xmaxLockOnly then true
  else if tuple.xmax = invalidTransactionId then true
  else if !tuple.xmaxIsMulti then false
  else
    let xmax := heapTupleGetUpdateXid members tuple
    if v.current xmax then false
    else if transactionIdIsInProgress (v.oracle 4) xmax then false
    else if transactionIdDidCommit (v.oracle 5) xmax then false
    else true

/-! ## The inserting transaction -/

inductive Inserter where
  | gone
  | current
  | running
  | committed

/-- What the routines first find out about the inserting transaction of a tuple without a hint that
it committed. They differ in which transactions count as running. -/
def inserter (isRunning : ℕ → Bool) (tuple : HeapTupleHeader) :
    Except String (HeapTupleHeader × Inserter) :=
  if tuple.xminInvalid then .ok (tuple, .gone)
  else do
    let (tuple, visible) ← v.heapTupleCleanMoved tuple
    if !visible then pure (tuple, .gone)
    else if v.current tuple.xmin then pure (tuple, .current)
    else if isRunning tuple.xmin then pure (tuple, .running)
    else if transactionIdDidCommit (v.oracle 3) tuple.xmin then
      pure (v.hintXminCommitted tuple, .committed)
    else pure (hintXminInvalid tuple, .gone)

/-! ## HeapTupleSatisfiesSelf -/

/-- The inserting transaction is the current one. -/
def selfOwn (tuple : HeapTupleHeader) : HeapTupleHeader × Bool :=
  if tuple.xmaxInvalid then (tuple, true)
  else if tuple.xmaxIsLockedOnly then (tuple, true)
  else if tuple.xmaxIsMulti then (tuple, !v.current (heapTupleGetUpdateXid members tuple))
  else if !v.current tuple.xmax then (hintXmaxInvalid tuple, true)
  else (tuple, false)

/-- The inserting transaction has committed. -/
def selfXmax (tuple : HeapTupleHeader) : HeapTupleHeader × Bool :=
  if tuple.xmaxInvalid then (tuple, true)
  else if tuple.xmaxCommitted then (tuple, tuple.xmaxIsLockedOnly)
  else if tuple.xmaxIsMulti then
    if tuple.xmaxIsLockedOnly then (tuple, true)
    else
      let xmax := heapTupleGetUpdateXid members tuple
      if v.current xmax then (tuple, false)
      else if transactionIdIsInProgress (v.oracle 4) xmax then (tuple, true)
      else if transactionIdDidCommit (v.oracle 5) xmax then (tuple, false)
      else (tuple, true)
  else if v.current tuple.xmax then (tuple, tuple.xmaxIsLockedOnly)
  else if transactionIdIsInProgress (v.oracle 4) tuple.xmax then (tuple, true)
  else if !transactionIdDidCommit (v.oracle 5) tuple.xmax then (hintXmaxInvalid tuple, true)
  else if tuple.xmaxIsLockedOnly then (hintXmaxInvalid tuple, true)
  else (v.hintXmaxCommitted tuple, false)

def heapTupleSatisfiesSelf (tuple : HeapTupleHeader) : Except String (HeapTupleHeader × Bool) :=
  if !tuple.xminCommitted then do
    match ← v.inserter (transactionIdIsInProgress (v.oracle 2)) tuple with
    | (tuple, .gone) => pure (tuple, false)
    | (tuple, .current) => pure (v.selfOwn tuple)
    | (tuple, .running) => pure (tuple, false)
    | (tuple, .committed) => pure (v.selfXmax tuple)
  else .ok (v.selfXmax tuple)

/-! ## HeapTupleSatisfiesMVCC -/

/-- A snapshot with the command id of its scan. -/
structure MvccSnapshot extends Snapshot where
  curcid : ℕ

def inSnapshot (snapshot : MvccSnapshot) (xid : ℕ) : Bool :=
  xidInMVCCSnapshot v.subTransGetTopmostTransaction xid snapshot.toSnapshot

/-- The inserting transaction is the current one. -/
def mvccOwn (snapshot : MvccSnapshot) (tuple : HeapTupleHeader) : HeapTupleHeader × Bool :=
  if snapshot.curcid ≤ tuple.cmin then (tuple, false)
  else if tuple.xmaxInvalid then (tuple, true)
  else if tuple.xmaxIsLockedOnly then (tuple, true)
  else if tuple.xmaxIsMulti then
    if !v.current (heapTupleGetUpdateXid members tuple) then (tuple, true)
    else (tuple, snapshot.curcid ≤ tuple.cmax)
  else if !v.current tuple.xmax then (hintXmaxInvalid tuple, true)
  else (tuple, snapshot.curcid ≤ tuple.cmax)

/-- The inserting transaction has committed. -/
def mvccXmax (snapshot : MvccSnapshot) (tuple : HeapTupleHeader) : HeapTupleHeader × Bool :=
  if tuple.xmaxInvalid then (tuple, true)
  else if tuple.xmaxIsLockedOnly then (tuple, true)
  else if tuple.xmaxIsMulti then
    let xmax := heapTupleGetUpdateXid members tuple
    if v.current xmax then (tuple, snapshot.curcid ≤ tuple.cmax)
    else if v.inSnapshot snapshot xmax then (tuple, true)
    else if transactionIdDidCommit (v.oracle 5) xmax then (tuple, false)
    else (tuple, true)
  else if !tuple.xmaxCommitted then
    if v.current tuple.xmax then (tuple, snapshot.curcid ≤ tuple.cmax)
    else if v.inSnapshot snapshot tuple.xmax then (tuple, true)
    else if !transactionIdDidCommit (v.oracle 5) tuple.xmax then (hintXmaxInvalid tuple, true)
    else (v.hintXmaxCommitted tuple, false)
  else (tuple, v.inSnapshot snapshot tuple.xmax)

def heapTupleSatisfiesMVCC (snapshot : MvccSnapshot) (tuple : HeapTupleHeader) :
    Except String (HeapTupleHeader × Bool) :=
  if !tuple.xminCommitted then do
    match ← v.inserter (v.inSnapshot snapshot) tuple with
    | (tuple, .gone) => pure (tuple, false)
    | (tuple, .current) => pure (v.mvccOwn snapshot tuple)
    | (tuple, .running) => pure (tuple, false)
    | (tuple, .committed) => pure (v.mvccXmax snapshot tuple)
  else if !tuple.xminFrozen && v.inSnapshot snapshot tuple.xmin then .ok (tuple, false)
  else .ok (v.mvccXmax snapshot tuple)

/-! ## HeapTupleSatisfiesVacuum -/

inductive HTSVResult where
  | dead
  | live
  | recentlyDead
  | insertInProgress
  | deleteInProgress
  deriving DecidableEq

/-- The inserting transaction is the current one. -/
def vacuumOwn (tuple : HeapTupleHeader) : HTSVResult :=
  if tuple.xmaxInvalid then .insertInProgress
  else if tuple.xmaxIsLockedOnly || v.heapTupleHeaderIsOnlyLocked tuple then .insertInProgress
  else if v.current (heapTupleHeaderGetUpdateXid members tuple) then .deleteInProgress
  else .insertInProgress

/-- The inserting transaction has committed. The last component is `dead_after`. -/
def vacuumXmax (tuple : HeapTupleHeader) : HeapTupleHeader × HTSVResult × ℕ :=
  if tuple.xmaxInvalid then (tuple, .live, invalidTransactionId)
  else if tuple.xmaxIsLockedOnly then
    if !tuple.xmaxCommitted then
      if tuple.xmaxIsMulti then
        if !tuple.lockedUpgraded && v.multiXactIdIsRunning tuple.xmax then
          (tuple, .live, invalidTransactionId)
        else (hintXmaxInvalid tuple, .live, invalidTransactionId)
      else if transactionIdIsInProgress (v.oracle 4) tuple.xmax then
        (tuple, .live, invalidTransactionId)
      else (hintXmaxInvalid tuple, .live, invalidTransactionId)
    else (tuple, .live, invalidTransactionId)
  else if tuple.xmaxIsMulti then
    let xmax := heapTupleGetUpdateXid members tuple
    if transactionIdIsInProgress (v.oracle 4) xmax then
      (tuple, .deleteInProgress, invalidTransactionId)
    else if transactionIdDidCommit (v.oracle 5) xmax then (tuple, .recentlyDead, xmax)
    else if !v.multiXactIdIsRunning tuple.xmax then
      (hintXmaxInvalid tuple, .live, invalidTransactionId)
    else (tuple, .live, invalidTransactionId)
  else if !tuple.xmaxCommitted then
    if transactionIdIsInProgress (v.oracle 4) tuple.xmax then
      (tuple, .deleteInProgress, invalidTransactionId)
    else if transactionIdDidCommit (v.oracle 5) tuple.xmax then
      (v.hintXmaxCommitted tuple, .recentlyDead, tuple.xmax)
    else (hintXmaxInvalid tuple, .live, invalidTransactionId)
  else (tuple, .recentlyDead, tuple.xmax)

def heapTupleSatisfiesVacuumHorizon (tuple : HeapTupleHeader) :
    Except String (HeapTupleHeader × HTSVResult × ℕ) :=
  if !tuple.xminCommitted then do
    match ← v.inserter (transactionIdIsInProgress (v.oracle 2)) tuple with
    | (tuple, .gone) => pure (tuple, .dead, invalidTransactionId)
    | (tuple, .current) => pure (tuple, v.vacuumOwn tuple, invalidTransactionId)
    | (tuple, .running) => pure (tuple, .insertInProgress, invalidTransactionId)
    | (tuple, .committed) => pure (v.vacuumXmax tuple)
  else .ok (v.vacuumXmax tuple)

def heapTupleSatisfiesVacuum (oldestXmin : ℕ) (tuple : HeapTupleHeader) :
    Except String (HeapTupleHeader × HTSVResult) := do
  let (tuple, res, deadAfter) ← v.heapTupleSatisfiesVacuumHorizon tuple
  if res = .recentlyDead ∧ transactionIdPrecedes deadAfter oldestXmin then pure (tuple, .dead)
  else pure (tuple, res)

end Visit

/-- Whether the hint bits alone tell that a tuple is dead, for a given horizon test. -/
def heapTupleIsSurelyDead (isRemovable : ℕ → Bool) (tuple : HeapTupleHeader) : Bool :=
  if !tuple.xminCommitted then tuple.xminInvalid
  else if tuple.xmaxInvalid then false
  else if tuple.xmaxIsLockedOnly then false
  else if tuple.xmaxIsMulti then false
  else if !tuple.xmaxCommitted then false
  else isRemovable tuple.xmax

end PostgreSieve.Heap
