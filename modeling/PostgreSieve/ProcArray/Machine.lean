import PostgreSieve.ProcArray.Basic
import PostgreSieve.Runs.Basic

/-! # Transactions and snapshots over a run

The operations on the proc array are atomic steps. Beside it stands a ledger of the transactions: for
every full XID its top-level transaction and its backend, whether it was rolled back, and whether its
transaction belongs to a lazy VACUUM or to logical decoding.
-/

namespace PostgreSieve.Xact

open Function

structure Ledger where
  /-- The XID of the transaction that a backend runs. -/
  current : ℕ → Option ℕ
  top : ℕ → ℕ
  owner : ℕ → ℕ
  rolledBack : ℕ → Bool
  exempt : ℕ → Bool

/-- The proc array with the snapshot structures of each backend. -/
structure XactSys where
  arr : ProcArray
  snapshots : ℕ → ℕ → Snapshot
  ledger : Ledger

namespace Ledger

/-- The top-level transaction is running. -/
def Running (l : Ledger) (t : ℕ) : Prop := ∃ q, l.current q = some t

/-- A backend gets the XID `xid` for a transaction. -/
def begin (l : Ledger) (p xid : ℕ) (exempt : Bool) : Ledger :=
  { l with
    current := update l.current p (some xid)
    top := update l.top xid xid
    owner := update l.owner xid p
    exempt := update l.exempt xid exempt }

/-- A backend gets the XID `xid` for a subtransaction of `t`. -/
def beginSub (l : Ledger) (p t xid : ℕ) : Ledger :=
  { l with top := update l.top xid t, owner := update l.owner xid p }

def rollBack (l : Ledger) (xids : List ℕ) : Ledger :=
  { l with rolledBack := fun y => decide (y ∈ xids) || l.rolledBack y }

def finish (l : Ledger) (p : ℕ) : Ledger :=
  { l with current := update l.current p none }

def setExempt (l : Ledger) (p : ℕ) (exempt : Bool) : Ledger :=
  match l.current p with
  | none => l
  | some t => { l with exempt := update l.exempt t (l.exempt t || exempt) }

end Ledger

inductive XactAction where
  | assignXid (p : ℕ)
  | assignSubXid (p : ℕ)
  | abortSub (p xid : ℕ) (xids : List ℕ) (latestXid : ℕ)
  | endTransaction (p latestXid : ℕ)
  | endReadOnly (p : ℕ)
  | setFlags (p : ℕ) (inVacuum inLogicalDecoding : Bool)
  | takeSnapshot (p slot : ℕ)

namespace XactSys

/-- The XIDs are of subtransactions of `t`, and `latestXid` is the latest of them. -/
def Group (s : XactSys) (t : ℕ) (xids : List ℕ) (latestXid : ℕ) : Prop :=
  latestXid ∈ xids ∧ ∀ y ∈ xids, y < s.arr.nextXid ∧ FullNormal y ∧ s.ledger.top y = t ∧ y ≠ t ∧
    y ≤ latestXid

/-- The latest XID among those of the transaction `t` that were not rolled back. -/
def Latest (s : XactSys) (t latestXid : ℕ) : Prop :=
  latestXid < s.arr.nextXid ∧ FullNormal latestXid ∧ s.ledger.top latestXid = t ∧
    ∀ k < s.arr.nextXid - t, s.ledger.top (t + k) = t → s.ledger.rolledBack (t + k) = false →
      t + k ≤ latestXid

instance (s : XactSys) (t : ℕ) (xids : List ℕ) (latestXid : ℕ) :
    Decidable (s.Group t xids latestXid) := inferInstanceAs (Decidable (_ ∧ _))

instance (s : XactSys) (t latestXid : ℕ) : Decidable (s.Latest t latestXid) :=
  inferInstanceAs (Decidable (_ ∧ _))

/-- The full XIDs of an action are passed to the code as words. -/
def step (s : XactSys) : XactAction → Option XactSys
  | .assignXid p =>
    if p < s.arr.numProcs ∧ s.ledger.current p = none then
      some { s with
        arr := s.arr.getNewTransactionId p false
        ledger := s.ledger.begin p s.arr.nextXid
          ((s.arr.procs p).inVacuum || (s.arr.procs p).inLogicalDecoding) }
    else none
  | .assignSubXid p =>
    match s.ledger.current p with
    | none => none
    | some t => some { s with
        arr := s.arr.getNewTransactionId p true
        ledger := s.ledger.beginSub p t s.arr.nextXid }
  | .abortSub p xid xids latestXid =>
    match s.ledger.current p with
    | none => none
    | some t =>
      if s.Group t (xid :: xids) latestXid then
        some { s with
          arr := s.arr.xidCacheRemoveRunningXids p (xidFromFull xid) (xids.map xidFromFull)
            (xidFromFull latestXid)
          ledger := s.ledger.rollBack (xid :: xids) }
      else none
  | .endTransaction p latestXid =>
    match s.ledger.current p with
    | none => none
    | some t =>
      if s.Latest t latestXid then
        some { s with
          arr := s.arr.procArrayEndTransactionInternal p (xidFromFull latestXid)
          ledger := s.ledger.finish p }
      else none
  | .endReadOnly p =>
    if s.ledger.current p = none then some { s with arr := s.arr.procArrayEndReadOnly p } else none
  | .setFlags p inVacuum inLogicalDecoding =>
    some { s with
      arr := s.arr.setProc p { s.arr.procs p with
        inVacuum := inVacuum
        inLogicalDecoding := inLogicalDecoding }
      ledger := s.ledger.setExempt p (inVacuum || inLogicalDecoding) }
  | .takeSnapshot p slot =>
    if p < s.arr.numProcs then
      let r := s.arr.getSnapshotData p (s.snapshots p slot)
      some { s with
        arr := r.1
        snapshots := update s.snapshots p (update (s.snapshots p) slot r.2) }
    else none

/-- After startup, with the latest completed XID of the previous run. -/
def start (numProcs latestXid : ℕ) : XactSys where
  arr := {
    numProcs := numProcs
    procs := fun _ => ⟨0, 0, [], false, false, false⟩
    nextXid := fullTransactionIdAdvance latestXid
    latestCompletedXid := latestXid
    xactCompletionCount := 1 }
  snapshots := fun _ _ => ⟨0, 0, [], [], false, false, 0⟩
  ledger := ⟨fun _ => none, id, fun _ => 0, fun _ => false, fun _ => false⟩

/-- The top-level transaction has ended. -/
def Ended (s : XactSys) (t : ℕ) : Prop := t < s.arr.nextXid ∧ ¬ s.ledger.Running t

/-- The XIDs of running transactions and the latest completed one are less than `2 ^ 31` behind the
next one. -/
def InWindow (s : XactSys) : Prop :=
  s.arr.nextXid < s.arr.latestCompletedXid + 2 ^ 31 ∧
    ∀ t, s.ledger.Running t → s.arr.nextXid < t + 2 ^ 31

/-- Live XIDs stay within `2 ^ 31` of each other. -/
def KeepsWindow (s : XactSys) (a : XactAction) : Prop := ∀ t, s.step a = some t → t.InWindow

end XactSys

end PostgreSieve.Xact
