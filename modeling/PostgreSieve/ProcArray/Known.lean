import Mathlib.Logic.Function.Basic
import PostgreSieve.ProcArray.Xid

/-! # Known-assigned transaction ids

The array in which the startup process of a standby keeps the ids that it believes to be running on
the primary. Removed entries stay in place, marked invalid, until the array is compressed. Only the
startup process changes the array, so the lock modes have no bearing on what it computes.
-/

namespace PostgreSieve.Xact

open Function

/-- The array and the counters of the compression heuristics. -/
structure KnownAssigned where
  xids : ℕ → ℕ
  valid : ℕ → Bool
  num : ℕ
  head : ℕ
  tail : ℕ
  max : ℕ
  transactionEndsCounter : ℕ
  lastCompressTs : ℤ

inductive KAXCompressReason where
  | noSpace
  | prune
  | transactionEnd
  | startupProcessIdle
  deriving DecidableEq

def kaxCompressFrequency : ℕ := 128

/-- In microseconds. -/
def kaxCompressIdleInterval : ℤ := 1000 * 1000

/-- The readings of the clock that a call may take, before and after compressing. -/
structure Clock where
  before : ℤ
  after : ℤ

namespace KnownAssigned

/-- Move the valid ones of the `n` entries from `i` on down to `compressIndex`. -/
def compressLoop (k : KnownAssigned) (compressIndex i : ℕ) : ℕ → KnownAssigned × ℕ
  | 0 => (k, compressIndex)
  | n + 1 =>
    if k.valid i then
      compressLoop { k with
        xids := update k.xids compressIndex (k.xids i)
        valid := update k.valid compressIndex true } (compressIndex + 1) (i + 1) n
    else compressLoop k compressIndex (i + 1) n

def doCompress (k : KnownAssigned) (clock : Clock) : KnownAssigned :=
  let (k, compressIndex) := k.compressLoop 0 k.tail (k.head - k.tail)
  { k with tail := 0, head := compressIndex, lastCompressTs := clock.after }

def compress (k : KnownAssigned) (reason : KAXCompressReason) (clock : Clock) : KnownAssigned :=
  let nelements := k.head - k.tail
  if nelements = k.num then if reason ≠ .noSpace then k else k.doCompress clock
  else
    match reason with
    | .transactionEnd =>
      let counter := k.transactionEndsCounter
      let k := { k with transactionEndsCounter := (counter + 1) % 2 ^ 32 }
      if counter % kaxCompressFrequency ≠ 0 then k
      else if nelements < 2 * k.num then k
      else k.doCompress clock
    | .startupProcessIdle =>
      if k.lastCompressTs ≠ 0 ∧ clock.before < k.lastCompressTs + kaxCompressIdleInterval then k
      else k.doCompress clock
    | _ => k.doCompress clock

/-- Count the ids up to `toXid`, the hard way. -/
def countXids (toXid : ℕ) : ℕ → ℕ → ℕ → ℕ
  | 0, _, nxids => nxids
  | fuel + 1, nextXid, nxids =>
    if transactionIdPrecedes nextXid toXid then
      countXids toXid fuel (transactionIdAdvance nextXid) (nxids + 1)
    else nxids

/-- There are fewer rounds than words. -/
def numberOfXids (fromXid toXid : ℕ) : ℕ :=
  if fromXid ≤ toXid then toXid - fromXid + 1 else countXids toXid (2 ^ 32) fromXid 1

def insertLoop (k : KnownAssigned) (head nextXid : ℕ) : ℕ → KnownAssigned
  | 0 => { k with head := head }
  | n + 1 =>
    insertLoop { k with
      xids := update k.xids head nextXid
      valid := update k.valid head true } (head + 1) (transactionIdAdvance nextXid) n

/-- Put the ids after the head, if there is room. -/
def insertXids (k : KnownAssigned) (fromXid nxids : ℕ) : KnownAssigned × Option String :=
  if k.max < k.head + nxids then (k, some "too many KnownAssignedXids")
  else
    let k := k.insertLoop k.head fromXid nxids
    ({ k with num := k.num + nxids }, none)

/-- The array afterwards and the error raised, if any. -/
def add (k : KnownAssigned) (fromXid toXid : ℕ) (clock : Clock) :
    KnownAssigned × Option String :=
  let nxids := numberOfXids fromXid toXid
  if k.tail < k.head ∧ transactionIdFollowsOrEquals (k.xids (k.head - 1)) fromXid then
    (k, some "out-of-order XID insertion in KnownAssignedXids")
  else if k.max < k.head + nxids then (k.compress .noSpace clock).insertXids fromXid nxids
  else k.insertXids fromXid nxids

/-- Binary search of the entries from `first` up to `stop`. -/
def searchLoop (k : KnownAssigned) (xid first stop : ℕ) : Option ℕ :=
  if h : first < stop then
    let midIndex := (first + (stop - 1)) / 2
    if xid = k.xids midIndex then some midIndex
    else if transactionIdPrecedes xid (k.xids midIndex) then searchLoop k xid first midIndex
    else searchLoop k xid (midIndex + 1) stop
  else none
termination_by stop - first
decreasing_by all_goals omega

/-- The first valid entry among the `n` ones from `i` on, or the place after them. -/
def skipInvalid (k : KnownAssigned) (i : ℕ) : ℕ → ℕ
  | 0 => i
  | n + 1 => if k.valid i then i else skipInvalid k (i + 1) n

/-- An array without valid entries is reset. -/
def setTail (k : KnownAssigned) (tail : ℕ) : KnownAssigned :=
  if k.head ≤ tail then { k with head := 0, tail := 0 } else { k with tail := tail }

def search (k : KnownAssigned) (xid : ℕ) (remove : Bool) : KnownAssigned × Bool :=
  match k.searchLoop xid k.tail k.head with
  | none => (k, false)
  | some index =>
    if !k.valid index then (k, false)
    else if remove then
      let k := { k with valid := update k.valid index false, num := k.num - 1 }
      if index = k.tail then
        (k.setTail (k.skipInvalid (k.tail + 1) (k.head - (k.tail + 1))), true)
      else (k, true)
    else (k, true)

def knownAssignedXidExists (k : KnownAssigned) (xid : ℕ) : Bool := (k.search xid false).2

def remove (k : KnownAssigned) (xid : ℕ) : KnownAssigned := (k.search xid true).1

def removeTree (k : KnownAssigned) (xid : ℕ) (subxids : List ℕ) (clock : Clock) :
    KnownAssigned :=
  let k := if xid ≠ invalidTransactionId then k.remove xid else k
  let k := subxids.foldl remove k
  k.compress .transactionEnd clock

/-- Mark entries invalid up to `removeXid`, except those of prepared transactions. -/
def pruneLoop (k : KnownAssigned) (removeXid : ℕ) (isPrepared : ℕ → Bool) (i count : ℕ) :
    ℕ → KnownAssigned × ℕ
  | 0 => (k, count)
  | n + 1 =>
    if k.valid i then
      if transactionIdFollowsOrEquals (k.xids i) removeXid then (k, count)
      else if !isPrepared (k.xids i) then
        pruneLoop { k with valid := update k.valid i false } removeXid isPrepared (i + 1)
          (count + 1) n
      else pruneLoop k removeXid isPrepared (i + 1) count n
    else pruneLoop k removeXid isPrepared (i + 1) count n

def removePreceding (k : KnownAssigned) (removeXid : ℕ) (isPrepared : ℕ → Bool) (clock : Clock) :
    KnownAssigned :=
  if removeXid = invalidTransactionId then { k with num := 0, head := 0, tail := 0 }
  else
    let (k, count) := k.pruneLoop removeXid isPrepared k.tail 0 (k.head - k.tail)
    let k := { k with num := k.num - count }
    (k.setTail (k.skipInvalid k.tail (k.head - k.tail))).compress .prune clock

/-- The ids put into `xarray`, and the new `xmin`. -/
def getLoop (k : KnownAssigned) (xmax i : ℕ) (xarray : List ℕ) (xmin : ℕ) : ℕ → List ℕ × ℕ
  | 0 => (xarray, xmin)
  | n + 1 =>
    if k.valid i then
      let knownXid := k.xids i
      let xmin := if xarray.length = 0 ∧ transactionIdPrecedes knownXid xmin then knownXid else xmin
      if xmax ≠ invalidTransactionId ∧ transactionIdFollowsOrEquals knownXid xmax then
        (xarray, xmin)
      else getLoop k xmax (i + 1) (xarray ++ [knownXid]) xmin n
    else getLoop k xmax (i + 1) xarray xmin n

def getAndSetXmin (k : KnownAssigned) (xmin xmax : ℕ) : List ℕ × ℕ :=
  k.getLoop xmax k.tail [] xmin (k.head - k.tail)

def getOldestXmin (k : KnownAssigned) : ℕ :=
  let i := k.skipInvalid k.tail (k.head - k.tail)
  if i < k.head then k.xids i else invalidTransactionId

/-- The array as created, with unspecified contents. -/
def initial (max : ℕ) (xids : ℕ → ℕ) (valid : ℕ → Bool) : KnownAssigned where
  xids := xids
  valid := valid
  num := 0
  head := 0
  tail := 0
  max := max
  transactionEndsCounter := 0
  lastCompressTs := 0

end KnownAssigned

end PostgreSieve.Xact
