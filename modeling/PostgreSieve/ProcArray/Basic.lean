import Mathlib.Data.List.Basic
import Mathlib.Logic.Function.Basic
import PostgreSieve.ProcArray.Xid

/-! # The proc array

`procarray.c`: the transaction ids that backends advertise, and snapshots of them. The arrays of
`ProcGlobal` mirror the fields of the `PGPROC` entries, so that there is one copy of them here. The
entries of `subxids` are those that `count` covers.
-/

namespace PostgreSieve.Xact

def pgprocMaxCachedSubxids : ℕ := 64

/-- The flags are those that snapshots look at. -/
structure PgProc where
  xid : ℕ
  xmin : ℕ
  subxids : List ℕ
  overflowed : Bool
  inVacuum : Bool
  inLogicalDecoding : Bool

/-- The proc array, with the `TransamVariables` that go with it. -/
structure ProcArray where
  numProcs : ℕ
  procs : ℕ → PgProc
  nextXid : ℕ
  latestCompletedXid : ℕ
  xactCompletionCount : ℕ

structure Snapshot where
  xmin : ℕ
  xmax : ℕ
  xip : List ℕ
  subxip : List ℕ
  suboverflowed : Bool
  takenDuringRecovery : Bool
  snapXactCompletionCount : ℕ

namespace ProcArray

def setProc (a : ProcArray) (p : ℕ) (proc : PgProc) : ProcArray :=
  { a with procs := Function.update a.procs p proc }

/-- Advance `latestCompletedXid` if it is older. -/
def maintainLatestCompletedXid (a : ProcArray) (latestXid : ℕ) : ProcArray :=
  if transactionIdPrecedes (xidFromFull a.latestCompletedXid) latestXid then
    { a with latestCompletedXid := fullXidRelativeTo a.latestCompletedXid latestXid }
  else a

/-- Mark a write transaction as no longer running. -/
def procArrayEndTransactionInternal (a : ProcArray) (p latestXid : ℕ) : ProcArray :=
  let proc := { a.procs p with
    xid := invalidTransactionId
    xmin := invalidTransactionId
    inVacuum := false
    subxids := []
    overflowed := false }
  let a := (a.setProc p proc).maintainLatestCompletedXid latestXid
  { a with xactCompletionCount := a.xactCompletionCount + 1 }

/-- The branch of `ProcArrayEndTransaction` for a transaction without an XID. -/
def procArrayEndReadOnly (a : ProcArray) (p : ℕ) : ProcArray :=
  a.setProc p { a.procs p with xmin := invalidTransactionId, inVacuum := false }

/-- `GetNewTransactionId`, without the checks against running out of ids. -/
def getNewTransactionId (a : ProcArray) (p : ℕ) (isSubXact : Bool) : ProcArray :=
  let xid := xidFromFull a.nextXid
  let a := { a with nextXid := fullTransactionIdAdvance a.nextXid }
  let proc := a.procs p
  if isSubXact = false then a.setProc p { proc with xid := xid }
  else if proc.subxids.length < pgprocMaxCachedSubxids then
    a.setProc p { proc with subxids := proc.subxids ++ [xid] }
  else a.setProc p { proc with overflowed := true }

/-- The last index below `n` at which the list has `x`. -/
def lastIndex (l : List ℕ) (x : ℕ) : ℕ → Option ℕ
  | 0 => none
  | n + 1 => if l.getD n 0 = x then some n else lastIndex l x n

/-- Remove one XID from the cache by moving the last entry to its place. -/
def removeSubxid (l : List ℕ) (x : ℕ) : List ℕ :=
  match lastIndex l x l.length with
  | none => l
  | some j => (l.set j (l.getD (l.length - 1) 0)).dropLast

def xidCacheRemoveRunningXids (a : ProcArray) (p xid : ℕ) (xids : List ℕ) (latestXid : ℕ) :
    ProcArray :=
  let subxids := xids.foldr (fun anxid l => removeSubxid l anxid) (a.procs p).subxids
  let a := a.setProc p { a.procs p with subxids := removeSubxid subxids xid }
  let a := a.maintainLatestCompletedXid latestXid
  { a with xactCompletionCount := a.xactCompletionCount + 1 }

/-! ## Snapshots -/

/-- What the loop of `GetSnapshotData` has collected. -/
structure Scan where
  xmin : ℕ
  xip : List ℕ
  subxip : List ℕ
  suboverflowed : Bool

/-- A round of the loop of `GetSnapshotData`. -/
def Scan.visit (a : ProcArray) (mypgxactoff xmax : ℕ) (s : Scan) (pgxactoff : ℕ) : Scan :=
  let proc := a.procs pgxactoff
  if proc.xid = invalidTransactionId then s
  else if pgxactoff = mypgxactoff then s
  else if !normalTransactionIdPrecedes proc.xid xmax then s
  else if proc.inLogicalDecoding || proc.inVacuum then s
  else
    let s := { s with
      xmin := if normalTransactionIdPrecedes proc.xid s.xmin then proc.xid else s.xmin
      xip := s.xip ++ [proc.xid] }
    if s.suboverflowed then s
    else if proc.overflowed then { s with suboverflowed := true }
    else { s with subxip := s.subxip ++ proc.subxids }

/-- `GetSnapshotData` outside of recovery, for the previous contents of the snapshot. -/
def getSnapshotData (a : ProcArray) (p : ℕ) (snapshot : Snapshot) : ProcArray × Snapshot :=
  -- the snapshot is reused if no transaction with an XID has finished since
  if snapshot.snapXactCompletionCount ≠ 0 ∧
      a.xactCompletionCount = snapshot.snapXactCompletionCount then
    let proc := a.procs p
    (a.setProc p { proc with
      xmin := if proc.xmin = invalidTransactionId then snapshot.xmin else proc.xmin }, snapshot)
  else
    let myxid := (a.procs p).xid
    let xmax := transactionIdAdvance (xidFromFull a.latestCompletedXid)
    let xmin := if transactionIdIsNormal myxid && normalTransactionIdPrecedes myxid xmax then myxid
      else xmax
    let s := (List.range a.numProcs).foldl (Scan.visit a p xmax) ⟨xmin, [], [], false⟩
    let proc := a.procs p
    (a.setProc p { proc with
      xmin := if proc.xmin = invalidTransactionId then s.xmin else proc.xmin },
      { xmin := s.xmin
        xmax := xmax
        xip := s.xip
        subxip := s.subxip
        suboverflowed := s.suboverflowed
        takenDuringRecovery := false
        snapXactCompletionCount := a.xactCompletionCount })

end ProcArray

/-- `XidInMVCCSnapshot`, for a given `SubTransGetTopmostTransaction`. -/
def xidInMVCCSnapshot (subTransGetTopmostTransaction : ℕ → ℕ) (xid : ℕ) (snapshot : Snapshot) :
    Bool :=
  if transactionIdPrecedes xid snapshot.xmin then false
  else if transactionIdFollowsOrEquals xid snapshot.xmax then true
  else if snapshot.takenDuringRecovery = false then
    if snapshot.suboverflowed = false then xid ∈ snapshot.subxip || xid ∈ snapshot.xip
    else
      let xid := subTransGetTopmostTransaction xid
      if transactionIdPrecedes xid snapshot.xmin then false else xid ∈ snapshot.xip
  else if snapshot.suboverflowed then
    let xid := subTransGetTopmostTransaction xid
    if transactionIdPrecedes xid snapshot.xmin then false else xid ∈ snapshot.subxip
  else xid ∈ snapshot.subxip

end PostgreSieve.Xact
