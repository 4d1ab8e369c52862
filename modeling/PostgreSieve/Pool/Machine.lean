import PostgreSieve.Eviction.Vtable

/-! # The shared buffer pool

Backends run the routines of the buffer manager over a pool of `N` buffers with one
eviction policy. A backend is at a program point, and a step performs the atomic
action of that point: one access to a buffer header, one operation on a lock, or
work that a held lock protects. Everything the routines learn from outside the
buffer manager (content locks, the log, the disk) is the input of a step.
-/

namespace PostgreSieve

open Function

/-- The identity of a disk block. -/
structure BufferTag where
  spcOid : ℕ
  dbOid : ℕ
  relNumber : ℕ
  forkNum : ℤ
  blockNum : ℕ
  deriving DecidableEq

/-- `ClearBufferTag`. -/
def BufferTag.clear : BufferTag := ⟨0, 0, 0, -1, 2 ^ 32 - 1⟩

def numBufferPartitions : ℕ := 128

def maxBlockNumber : ℕ := 2 ^ 32 - 2

inductive BufferAccessStrategyType where
  | bulkRead
  | bulkWrite
  | vacuum
  deriving DecidableEq

/-- A ring of buffers; `none` is an unfilled slot. -/
structure Ring where
  btype : BufferAccessStrategyType
  nbuffers : ℕ
  current : ℕ
  buffers : ℕ → Option ℕ

namespace Ring

/-- The slot advance at the start of `GetBufferFromRing`. -/
def advance (r : Ring) : Ring :=
  { r with current := if r.nbuffers ≤ r.current + 1 then 0 else r.current + 1 }

/-- `AddBufferToRing`. -/
def add (r : Ring) (b : ℕ) : Ring :=
  { r with buffers := update r.buffers r.current (some b) }

/-- `StrategyRejectBuffer`, when it answers true. -/
def rejects (r : Ring) (b : ℕ) (fromRing : Bool) : Bool :=
  r.btype = .bulkRead && fromRing && r.buffers r.current = some b

def drop (r : Ring) : Ring := { r with buffers := update r.buffers r.current none }

end Ring

/-- The arguments of `BufferAlloc`; `strategy` says whether the backend's ring is in use. -/
structure AllocReq where
  tag : BufferTag
  strategy : Bool
  permanent : Bool

/-- The arguments of `ExtendBufferedRelShared`; the block number of `fork` is not used. -/
structure ExtendReq where
  fork : BufferTag
  strategy : Bool
  permanent : Bool
  extendUpto : Option ℕ

def ExtendReq.tag (e : ExtendReq) (block : ℕ) : BufferTag := { e.fork with blockNum := block }

/-- What a victim buffer is wanted for. -/
inductive VictimFor where
  | alloc (r : AllocReq)
  /-- After this one `more` victims are needed beside `buffers`. -/
  | extend (e : ExtendReq) (more : ℕ) (buffers : List ℕ)

namespace VictimFor

def strategy : VictimFor → Bool
  | alloc r => r.strategy
  | extend e _ _ => e.strategy

/-- The victims that are already held. -/
def buffers : VictimFor → List ℕ
  | alloc _ => []
  | extend _ _ bs => bs

end VictimFor

/-- The argument lists with which `UnlockBufHdrExt` is called. -/
inductive HdrUpdate where
  | install (t : BufferTag) (permanent : Bool)
  | clear
  | flags (set unset : BufState)
  | pin

namespace HdrUpdate

def set : HdrUpdate → BufState
  | install _ permanent => bmTagValid ||| (if permanent then bmPermanent else 0) ||| bufUsagecountOne
  | flags s _ => s
  | _ => 0

def unset : HdrUpdate → BufState
  | clear => bufFlagMask ||| bufUsagecountMask
  | flags _ u => u
  | _ => 0

def refcountChange : HdrUpdate → BufState
  | pin => 1
  | _ => 0

end HdrUpdate

/-- The updates of a buffer header. -/
inductive WordOp where
  /-- The pin of a victim by `StrategyGetBuffer`. -/
  | claim
  /-- `PinBuffer`, with a strategy or without. -/
  | pin (strategy : Bool)
  /-- `UnlockBufHdrExt`. -/
  | unlockExt (u : HdrUpdate)
  /-- `MarkBufferDirty`. -/
  | dirty

def WordOp.apply (w : BufState) : WordOp → BufState
  | claim => w + bufRefcountOne
  | pin strategy => w.pin strategy
  | unlockExt u => w.unlockExt u.set u.unset u.refcountChange
  | dirty => w ||| (bmDirty ||| bmJustDirtied)

/-- The backend that performs the update gets a pin. -/
def WordOp.pins : WordOp → Bool
  | claim => true
  | pin _ => true
  | unlockExt .pin => true
  | _ => false

inductive Notify where
  | hit
  | insert
  | invalidate

/-- The hook of the policy that a notification calls. -/
def Notify.hook (V : EvictionVtable) (N : ℕ) : Notify → Hook V.State
  | hit => V.notifyHit N
  | insert => V.notifyInsert N
  | invalidate => V.notifyInvalidate N

/-! ## Program points -/

/-- A program point of a backend. A routine that returns to its caller carries the point it
returns to. -/
inductive Pc (π : Type) where
  | idle
  | failed (message : String)
  /-- `BufferAlloc` has returned buffer `b`. -/
  | returned (r : AllocReq) (b : ℕ) (found : Bool)
  | bufferAlloc (r : AllocReq)
  /-- `PinBuffer`, continuing according to its result. -/
  | pinBuffer (b : ℕ) (strategy : Bool) (valid invalid : Pc π)
  | pinLoop (b : ℕ) (strategy : Bool) (valid invalid : Pc π) (old : BufState)
  | unpinBuffer (b : ℕ) (next : Pc π)
  /-- `UnpinBuffer(victim_buf_hdr)` in the pre-existing-buffer branch of
  `ExtendBufferedRelShared`. -/
  | unpinVictim (b : ℕ) (next : Pc π)
  | wakePinCountWaiter (b : ℕ) (next : Pc π)
  | notify (n : Notify) (b : ℕ) (next : Pc π)
  /-- `GetVictimBuffer` from the label `again`. -/
  | getVictimBuffer (k : VictimFor)
  | ringRead (k : VictimFor) (b : ℕ)
  | ringLoop (k : VictimFor) (b : ℕ) (old : BufState)
  /-- Inside `get_buffer` of the policy. -/
  | getBuffer (k : VictimFor) (g : π)
  | gotVictim (k : VictimFor) (b : ℕ) (w : BufState) (fromRing : Bool)
  | lockLsn (k : VictimFor) (b : ℕ) (fromRing : Bool)
  | lsnCheck (k : VictimFor) (b : ℕ) (w : BufState) (fromRing : Bool)
  | invalidateVictimBuffer (b : ℕ) (yes no : Pc π)
  | lockVictim (b : ℕ) (t : BufferTag) (yes no : Pc π)
  /-- `BufTableInsert` of `BufferAlloc`. -/
  | allocInsert (r : AllocReq) (v : ℕ)
  | lockInstall (v : ℕ) (t : BufferTag) (permanent : Bool) (next : Pc π)
  | lwExclusive (t : BufferTag) (next : Pc π)
  | lwRelease (exclusive : Bool) (t : BufferTag) (next : Pc π)
  | bufTableDelete (t : BufferTag) (b : ℕ) (next : Pc π)
  | writeTag (b : ℕ) (t : BufferTag) (next : Pc π)
  | unlockBufHdr (b : ℕ) (next : Pc π)
  | unlockBufHdrExt (b : ℕ) (old : BufState) (u : HdrUpdate) (next : Pc π)
  /-- `DropRelationBuffers` and its relatives at buffer `b`. -/
  | lockDrop (b : ℕ) (matching : BufferTag → Bool)
  /-- `InvalidateBuffer` with the partition lock held. -/
  | lockInvalidate (b : ℕ) (t : BufferTag)
  | startBufferIo (b : ℕ) (forInput : Bool) (yes no : Pc π)
  | terminateBufferIo (b : ℕ) (clearDirty : Bool) (set : BufState) (next : Pc π)
  | flushLsn (b : ℕ) (next : Pc π)
  | flushWrite (b : ℕ) (next : Pc π)
  /-- `SyncOneBuffer`. -/
  | lockSync (b : ℕ) (skipRecentlyUsed : Bool)
  | markDirty (b : ℕ)
  | dirtyLoop (b : ℕ) (old : BufState)
  | extendSize (e : ExtendReq) (buffers : List ℕ)
  | extendSurplus (e : ExtendReq) (first : ℕ) (keep surplus : List ℕ)
  | extendLoop (e : ExtendReq) (first i : ℕ) (todo done : List ℕ)
  | extendCheck (e : ExtendReq) (first i b : ℕ) (todo done : List ℕ)
  | clearValid (b : ℕ) (next : Pc π)
  | zeroExtend (buffers : List ℕ)

/-- The requests a backend may start with. -/
inductive Op where
  | read (r : AllocReq)
  | extend (e : ExtendReq) (extendBy : ℕ)
  | drop (b : ℕ) (matching : BufferTag → Bool)
  | sync (b : ℕ) (skipRecentlyUsed : Bool)
  /-- `ReleaseBuffer`. -/
  | release (b : ℕ)
  /-- `IncrBufferRefCount`. -/
  | repin (b : ℕ)
  | markDirty (b : ℕ)
  /-- The end of reading a block into a buffer. -/
  | makeValid (b : ℕ)
  | newRing (btype : BufferAccessStrategyType) (nbuffers : ℕ)

/-- What a step may need to know from outside. -/
inductive Input where
  | go
  | start (op : Op)
  | answer (yes : Bool)
  | blocks (n : ℕ)

/-- The atomic action of a program point, with the points it can lead to. -/
inductive Instr (V : EvictionVtable) where
  | goto (next : Pc V.Pc)
  | setRing (r : Ring) (next : Pc V.Pc)
  | raise (message : String)
  | load (b : ℕ) (next : BufState → Pc V.Pc)
  /-- `WaitBufHdrUnlocked`. -/
  | await (b : ℕ) (next : BufState → Pc V.Pc)
  | readTag (b : ℕ) (next : BufferTag → Pc V.Pc)
  | policy (k : VictimFor) (g : V.Pc)
  /-- `PinBuffer` looks for a private reference count entry: with one, it counts up and only
  reads the header. -/
  | pinFirst (b : ℕ) (held : BufState → Pc V.Pc) (fresh : BufState → Pc V.Pc)
  /-- A buffer that this backend has not pinned. -/
  | checkUnpinned (b : ℕ) (next : Pc V.Pc)
  | cas (b : ℕ) (old : BufState) (op : WordOp) (ok : Pc V.Pc) (fail : BufState → Pc V.Pc)
  | lockBufHdr (b : ℕ) (next : BufState → BufferTag → Pc V.Pc)
  | unlockBufHdr (b : ℕ) (next : Pc V.Pc)
  | clearValid (b : ℕ) (next : Pc V.Pc)
  | unpin (b : ℕ) (next wake : Pc V.Pc)
  | writeTag (b : ℕ) (t : BufferTag) (next : Pc V.Pc)
  /-- A lookup under the shared partition lock, which stays held on a hit. -/
  | lookup (t : BufferTag) (hit : ℕ → Pc V.Pc) (miss : Pc V.Pc)
  | lwExclusive (t : BufferTag) (next : Pc V.Pc)
  /-- `BufTableInsert` under a new exclusive partition lock. -/
  | tableInsert (t : BufferTag) (v : ℕ) (fresh : Pc V.Pc) (existing : ℕ → Pc V.Pc)
  | tableDelete (t : BufferTag) (next : Pc V.Pc)
  | lwRelease (exclusive : Bool) (t : BufferTag) (next : Pc V.Pc)
  | notify (n : Notify) (b : ℕ) (next : Pc V.Pc)

structure Backend (V : EvictionVtable) where
  pc : Pc V.Pc
  /-- `PrivateRefCount`. -/
  refcount : ℕ → ℕ
  ring : Ring

/-! ## The routines -/

namespace Pc

variable {π : Type}

/-- Give the victim back to the policy and start over. -/
def giveUp (k : VictimFor) (b : ℕ) : Pc π := .notify .insert b (.unpinBuffer b (.getVictimBuffer k))

/-- `GetVictimBuffer` returns `b`. -/
def afterVictim (b : ℕ) : VictimFor → Pc π
  | .alloc r => .allocInsert r b
  | .extend e 0 bs => .extendSize e (bs ++ [b])
  | .extend e (n + 1) bs => .getVictimBuffer (.extend e n (bs ++ [b]))

/-- The last part of `GetVictimBuffer`: drop the old mapping of the victim, if it has one. -/
def afterFlush (k : VictimFor) (b : ℕ) (w : BufState) : Pc π :=
  if w.has bmTagValid then .invalidateVictimBuffer b (afterVictim b k) (giveUp k b)
  else afterVictim b k

def flushBuffer (b : ℕ) (next : Pc π) : Pc π := .startBufferIo b false (.flushLsn b next) next

/-- The last loop of `ExtendBufferedRelShared`. -/
def terminateAll (bs : List ℕ) : Pc π :=
  bs.foldr (fun b next => .terminateBufferIo b false bmValid next) .idle

end Pc

section Code

variable {V : EvictionVtable} (N : ℕ)

def startOp (x : Backend V) : Op → Option (Instr V)
  | .read r => some (.goto (.bufferAlloc r))
  | .extend e extendBy =>
    if extendBy = 0 then none else some (.goto (.getVictimBuffer (.extend e (extendBy - 1) [])))
  | .drop b matching => if b < N then some (.goto (.lockDrop b matching)) else none
  | .sync b skip => if b < N then some (.checkUnpinned b (.lockSync b skip)) else none
  | .release b => if 0 < x.refcount b then some (.goto (.unpinBuffer b .idle)) else none
  | .repin b => if 0 < x.refcount b then some (.pinFirst b (fun _ => .idle) fun _ => .idle) else none
  | .markDirty b => if 0 < x.refcount b then some (.goto (.markDirty b)) else none
  | .makeValid b =>
    if 0 < x.refcount b then
      some (.goto (.startBufferIo b true (.terminateBufferIo b false bmValid .idle) .idle))
    else none
  | .newRing btype n => if 0 < n then some (.setRing ⟨btype, n, 0, fun _ => none⟩ .idle) else none

/-- How many of the victims of `ExtendBufferedRelShared` are needed. -/
def extendBy (e : ExtendReq) (first n : ℕ) : ℕ :=
  match e.extendUpto with
  | none => n
  | some upto => if upto < first then 0 else if upto < first + n then upto - first else n

/-- One block of the insertion loop of `ExtendBufferedRelShared`. -/
def extendOne (e : ExtendReq) (first i v : ℕ) (todo done : List ℕ) : Instr V :=
  let tag := e.tag (first + i)
  let next b := Pc.extendLoop e first (i + 1) todo (done ++ [b])
  .tableInsert tag v
    (.lockInstall v tag e.permanent (.lwRelease true tag
      (.notify .insert v (.startBufferIo v true (next v) (next v)))))
    fun b => .pinBuffer b e.strategy
      (.lwRelease true tag (.unpinVictim v (.extendCheck e first i b todo done)))
      (.lwRelease true tag (.unpinVictim v (.clearValid b (next b))))

/-- The action of the program point of `x`, if the input fits. -/
def code (x : Backend V) (input : Input) : Option (Instr V) :=
  match x.pc with
  | .idle => match input with
    | .start op => startOp N x op
    | _ => none
  | .failed _ => some (.goto .idle)
  | .returned _ _ _ => some (.goto .idle)
  | .bufferAlloc r => some (.lookup r.tag
      (fun b => .pinBuffer b r.strategy
        (.lwRelease false r.tag (.notify .hit b (.returned r b true)))
        (.lwRelease false r.tag (.returned r b false)))
      (.getVictimBuffer (.alloc r)))
  | .pinBuffer b s valid invalid => some (.pinFirst b
      (fun w => if w.has bmValid then valid else invalid) (.pinLoop b s valid invalid))
  | .pinLoop b s valid invalid old =>
    if old.has bmLocked then some (.await b (.pinLoop b s valid invalid))
    else some (.cas b old (.pin s) (if (old.pin s).has bmValid then valid else invalid)
      (.pinLoop b s valid invalid))
  | .unpinBuffer b next => some (.unpin b next (.wakePinCountWaiter b next))
  | .unpinVictim b next => some (.unpin b next (.wakePinCountWaiter b next))
  | .wakePinCountWaiter b next => some (.lockBufHdr b fun w _ =>
      if w.has bmPinCountWaiter && w.getRefcount = 1 then
        .unlockBufHdrExt b w (.flags 0 bmPinCountWaiter) next
      else .unlockBufHdr b next)
  | .notify n b next => some (.notify n b next)
  | .getVictimBuffer k =>
    if k.strategy then
      let ring := x.ring.advance
      some (.setRing ring (match ring.buffers ring.current with
        | none => .getBuffer k (V.getBuffer N)
        | some b => .ringRead k b))
    else some (.goto (.getBuffer k (V.getBuffer N)))
  | .ringRead k b => some (.load b (.ringLoop k b))
  | .ringLoop k b old =>
    if old.getRefcount ≠ 0 ∨ 1 < old.getUsagecount then
      some (.goto (.getBuffer k (V.getBuffer N)))
    else if old.has bmLocked then some (.await b (.ringLoop k b))
    else some (.cas b old .claim (.gotVictim k b (old + bufRefcountOne) true) (.ringLoop k b))
  | .getBuffer k g => some (.policy k g)
  | .gotVictim k b w fromRing =>
    if w.has bmDirty then
      match input with
      | .answer locked =>
        if locked then
          if k.strategy then some (.goto (.lockLsn k b fromRing))
          else some (.goto (.flushBuffer b (.afterFlush k b w)))
        else some (.goto (.giveUp k b))
      | _ => none
    else some (.goto (.afterFlush k b w))
  | .lockLsn k b fromRing => some (.lockBufHdr b fun w _ =>
      .unlockBufHdr b (.lsnCheck k b w fromRing))
  | .lsnCheck k b w fromRing => match input with
    | .answer needsFlush =>
      if needsFlush && x.ring.rejects b fromRing then some (.setRing x.ring.drop (.giveUp k b))
      else some (.goto (.flushBuffer b (.afterFlush k b w)))
    | _ => none
  | .invalidateVictimBuffer b yes no => some (.readTag b fun t =>
      .lwExclusive t (.lockVictim b t yes no))
  | .lockVictim b t yes no => some (.lockBufHdr b fun w _ =>
      if w.getRefcount ≠ 1 ∨ w.has bmDirty then .unlockBufHdr b (.lwRelease true t no)
      else .writeTag b .clear (.unlockBufHdrExt b w .clear
        (.bufTableDelete t b (.lwRelease true t yes))))
  | .allocInsert r v => some (.tableInsert r.tag v
      (.lockInstall v r.tag r.permanent
        (.lwRelease true r.tag (.notify .insert v (.returned r v false))))
      fun b => .notify .insert v (.unpinBuffer v (.pinBuffer b r.strategy
        (.lwRelease true r.tag (.returned r b true))
        (.lwRelease true r.tag (.returned r b false)))))
  | .lockInstall v t permanent next => some (.lockBufHdr v fun w _ =>
      .writeTag v t (.unlockBufHdrExt v w (.install t permanent) next))
  | .lwExclusive t next => some (.lwExclusive t next)
  | .lwRelease exclusive t next => some (.lwRelease exclusive t next)
  | .bufTableDelete t _ next => some (.tableDelete t next)
  | .writeTag b t next => some (.writeTag b t next)
  | .unlockBufHdr b next => some (.unlockBufHdr b next)
  | .unlockBufHdrExt b old u next => some (.cas b old (.unlockExt u) next fun w =>
      .unlockBufHdrExt b w u next)
  | .lockDrop b matching => some (.lockBufHdr b fun _ t =>
      if matching t then .unlockBufHdr b (.lwExclusive t (.lockInvalidate b t))
      else .unlockBufHdr b .idle)
  | .lockInvalidate b t => some (.lockBufHdr b fun w t' =>
      if t' ≠ t then .unlockBufHdr b (.lwRelease true t .idle)
      else if w.getRefcount ≠ 0 then
        -- the backend that waits for the pin to go away starts over
        .unlockBufHdr b (.lwRelease true t
          (if 0 < x.refcount b then .failed "buffer is pinned in InvalidateBuffer"
          else .lwExclusive t (.lockInvalidate b t)))
      else .notify .invalidate b (.writeTag b .clear (.unlockBufHdrExt b w .clear
        (if w.has bmTagValid then .bufTableDelete t b (.lwRelease true t .idle)
        else .lwRelease true t .idle))))
  | .startBufferIo b forInput yes no => some (.lockBufHdr b fun w _ =>
      if w.has bmIoInProgress then .unlockBufHdr b (.startBufferIo b forInput yes no)
      else if (if forInput then w.has bmValid else !w.has bmDirty) then .unlockBufHdr b no
      else .unlockBufHdrExt b w (.flags bmIoInProgress 0) yes)
  | .terminateBufferIo b clearDirty set next => some (.lockBufHdr b fun w _ =>
      .unlockBufHdrExt b w (.flags set (bmIoInProgress ||| bmIoError |||
        if clearDirty && !w.has bmJustDirtied then bmDirty ||| bmCheckpointNeeded else 0)) next)
  | .flushLsn b next => some (.lockBufHdr b fun w _ =>
      .unlockBufHdrExt b w (.flags 0 bmJustDirtied) (.flushWrite b next))
  | .flushWrite b next => match input with
    | .answer written =>
      if written then some (.goto (.terminateBufferIo b true 0 next))
      else some (.raise "could not write block")
    | _ => none
  | .lockSync b skip => some (.lockBufHdr b fun w _ =>
      if (w.getRefcount ≠ 0 ∨ w.getUsagecount ≠ 0) ∧ skip then .unlockBufHdr b .idle
      else if !w.has bmValid || !w.has bmDirty then .unlockBufHdr b .idle
      else .unlockBufHdrExt b w .pin (.flushBuffer b (.unpinBuffer b .idle)))
  | .markDirty b => some (.load b (.dirtyLoop b))
  | .dirtyLoop b old =>
    if old.has bmLocked then some (.await b (.dirtyLoop b))
    else some (.cas b old .dirty .idle (.dirtyLoop b))
  | .extendSize e bs => match input with
    | .blocks first =>
      let n := extendBy e first bs.length
      some (.goto (.extendSurplus e first (bs.take n) (bs.drop n)))
    | _ => none
  | .extendSurplus e first keep (v :: surplus) =>
    some (.goto (.notify .insert v (.unpinBuffer v (.extendSurplus e first keep surplus))))
  | .extendSurplus e first keep [] =>
    if keep = [] then some (.goto .idle)
    else if maxBlockNumber ≤ first + keep.length then some (.raise "cannot extend relation")
    else some (.goto (.extendLoop e first 0 keep []))
  | .extendLoop e first i (v :: todo) done => some (extendOne e first i v todo done)
  | .extendLoop _ _ _ [] done => some (.goto (.zeroExtend done))
  | .extendCheck e first i b todo done => match input with
    | .answer pageIsNew =>
      if pageIsNew then
        some (.goto (.clearValid b (.extendLoop e first (i + 1) todo (done ++ [b]))))
      else some (.raise "unexpected data beyond EOF")
    | _ => none
  | .clearValid b next => some (.clearValid b (.startBufferIo b true next (.clearValid b next)))
  | .zeroExtend bs => match input with
    | .answer extended =>
      if extended then some (.goto (.terminateAll bs)) else some (.raise "could not extend file")
    | _ => none

end Code

/-! ## Shared memory and steps -/

/-- The shared memory of the buffer manager. -/
structure Pool (V : EvictionVtable) (Pid : Type) where
  tag : ℕ → BufferTag
  state : ℕ → BufState
  /-- The buffer mapping table. -/
  table : BufferTag → Option ℕ
  /-- The holder of each partition lock in exclusive mode, and those in shared mode. -/
  exclusive : ℕ → Option Pid
  shared : ℕ → List Pid
  /-- The holder of `buffer_strategy_lock`. -/
  strategyLock : Option Pid
  policy : V.State

structure Sys (V : EvictionVtable) (Pid : Type) where
  pool : Pool V Pid
  backends : Pid → Backend V

/-- The hash function of the mapping table decides the partition of a tag. -/
def partition (hash : BufferTag → ℕ) (t : BufferTag) : ℕ := hash t % numBufferPartitions

section Exec

variable {V : EvictionVtable} {Pid : Type} [DecidableEq Pid]

def Pool.setState (P : Pool V Pid) (b : ℕ) (w : BufState) : Pool V Pid :=
  { P with state := update P.state b w }

/-- `SpinLockRelease(&buffer_strategy_lock)`, if `p` holds it. -/
def Pool.releaseStrategy (P : Pool V Pid) (p : Pid) : Pool V Pid :=
  { P with strategyLock := if P.strategyLock = some p then none else P.strategyLock }

def Backend.goto (x : Backend V) (pc : Pc V.Pc) : Backend V := { x with pc := pc }

/-- `TrackNewBufferPin`. -/
def Backend.track (x : Backend V) (b : ℕ) : Backend V :=
  { x with refcount := update x.refcount b (x.refcount b + 1) }

/-- One less private pin. -/
def Backend.untrack (x : Backend V) (b : ℕ) : Backend V :=
  { x with refcount := update x.refcount b (x.refcount b - 1) }

/-- One action of `get_buffer`, called for `k`. -/
def execGet (p : Pid) (P : Pool V Pid) (x : Backend V) (k : VictimFor) :
    GetInstr V.State V.Pc → Option (Pool V Pid × Backend V)
  | .acquire next =>
    if P.strategyLock = none then
      some ({ P with strategyLock := some p }, x.goto (.getBuffer k (next P.policy)))
    else none
  | .update s next => some ({ P with policy := s }, x.goto (.getBuffer k next))
  | .load b next => some (P, x.goto (.getBuffer k (next (P.state b))))
  | .await b next =>
    if (P.state b).has bmLocked then none else some (P, x.goto (.getBuffer k (next (P.state b))))
  | .cas b old new ok fail =>
    if P.state b = old then
      some ({ P.setState b new with policy := ok.1 }, x.goto (.getBuffer k ok.2))
    else
      some ({ P with policy := (fail (P.state b)).1 }, x.goto (.getBuffer k (fail (P.state b)).2))
  | .claim b old s fail =>
    if P.state b = old then
      some ({ (P.setState b (old + bufRefcountOne)).releaseStrategy p with policy := s },
        { (x.track b).goto (.gotVictim k b (old + bufRefcountOne) false) with
          ring := if k.strategy then x.ring.add b else x.ring })
    else some (P, x.goto (.getBuffer k (fail (P.state b))))
  | .raise s message =>
    some ({ P.releaseStrategy p with policy := s }, x.goto (.failed message))

/-- The effect of an action of `get_buffer` that is not blocked. Most leave the headers and the
pins of the backend as they are. -/
inductive Gets (p : Pid) (P : Pool V Pid) (x : Backend V) (k : VictimFor) :
    GetInstr V.State V.Pc → Pool V Pid → Backend V → Prop
  | stay {i} (s lock g) :
    Gets p P x k i { P with policy := s, strategyLock := lock } (x.goto (.getBuffer k g))
  | cas (b new ok fail) : Gets p P x k (.cas b (P.state b) new ok fail)
    { P.setState b new with policy := ok.1 } (x.goto (.getBuffer k ok.2))
  | claim (b s fail) : Gets p P x k (.claim b (P.state b) s fail)
    { (P.setState b (P.state b + bufRefcountOne)).releaseStrategy p with policy := s }
    { (x.track b).goto (.gotVictim k b (P.state b + bufRefcountOne) false) with
      ring := if k.strategy then x.ring.add b else x.ring }
  | raise (s message) : Gets p P x k (.raise s message) { P.releaseStrategy p with policy := s }
    (x.goto (.failed message))

theorem execGet_cases {p : Pid} {P P' : Pool V Pid} {x x' : Backend V} {k : VictimFor}
    {i : GetInstr V.State V.Pc} (he : execGet p P x k i = some (P', x')) :
    Gets p P x k i P' x' := by
  cases i with
  | acquire => cases ((Option.ite_none_right_eq_some ..).mp he).2; exact .stay ..
  | update | load => cases he; exact .stay ..
  | await => cases ((Option.ite_none_left_eq_some ..).mp he).2; exact .stay ..
  | cas =>
    simp only [execGet] at he
    split at he <;> cases he
    · subst_vars
      exact .cas ..
    · exact .stay ..
  | claim =>
    simp only [execGet] at he
    split at he <;> cases he
    · subst_vars
      exact .claim ..
    · exact .stay ..
  | raise => cases he; exact .raise ..

/-- Perform an action, if it is not blocked. -/
def exec (N : ℕ) (hash : BufferTag → ℕ) (p : Pid) (P : Pool V Pid) (x : Backend V) :
    Instr V → Option (Pool V Pid × Backend V)
  | .goto next => some (P, x.goto next)
  | .setRing r next => some (P, { x with ring := r, pc := next })
  | .raise message => some (P, x.goto (.failed message))
  | .load b next => some (P, x.goto (next (P.state b)))
  | .await b next =>
    if (P.state b).has bmLocked then none else some (P, x.goto (next (P.state b)))
  | .readTag b next => some (P, x.goto (next (P.tag b)))
  | .policy k g => execGet p P x k (V.code N P.policy g)
  | .pinFirst b held fresh =>
    if 0 < x.refcount b then some (P, (x.track b).goto (held (P.state b)))
    else some (P, x.goto (fresh (P.state b)))
  | .checkUnpinned b next => if x.refcount b = 0 then some (P, x.goto next) else none
  | .cas b old op ok fail =>
    if P.state b = old then
      some (P.setState b (op.apply old), (if op.pins then x.track b else x).goto ok)
    else some (P, x.goto (fail (P.state b)))
  | .lockBufHdr b next =>
    if (P.state b).has bmLocked then none
    else
      some (P.setState b (P.state b ||| bmLocked), x.goto (next (P.state b ||| bmLocked) (P.tag b)))
  | .unlockBufHdr b next => some (P.setState b (P.state b - bmLocked), x.goto next)
  | .clearValid b next => some (P.setState b (P.state b &&& ~~~bmValid), x.goto next)
  | .unpin b next wake =>
    if x.refcount b = 0 then none
    else if x.refcount b = 1 then
      some (P.setState b (P.state b - bufRefcountOne),
        (x.untrack b).goto (if (P.state b).has bmPinCountWaiter then wake else next))
    else some (P, (x.untrack b).goto next)
  | .writeTag b t next => some ({ P with tag := update P.tag b t }, x.goto next)
  | .lookup t hit miss =>
    if P.exclusive (partition hash t) = none then
      match P.table t with
      | some b =>
        let l := p :: P.shared (partition hash t)
        some ({ P with shared := update P.shared (partition hash t) l }, x.goto (hit b))
      | none => some (P, x.goto miss)
    else none
  | .lwExclusive t next =>
    if P.exclusive (partition hash t) = none ∧ P.shared (partition hash t) = [] then
      some ({ P with exclusive := update P.exclusive (partition hash t) (some p) },
        x.goto next)
    else none
  | .tableInsert t v fresh existing =>
    if P.exclusive (partition hash t) = none ∧ P.shared (partition hash t) = [] then
      let P := { P with exclusive := update P.exclusive (partition hash t) (some p) }
      match P.table t with
      | none => some ({ P with table := update P.table t (some v) }, x.goto fresh)
      | some b => some (P, x.goto (existing b))
    else none
  | .tableDelete t next =>
    some ({ P with table := update P.table t none }, x.goto next)
  | .lwRelease exclusive t next =>
    let π := partition hash t
    if exclusive then
      some ({ P with exclusive := update P.exclusive π none }, x.goto next)
    else
      let l := (P.shared π).filter (· ≠ p)
      some ({ P with shared := update P.shared π l }, x.goto next)
  | .notify n b next =>
    match n.hook V N with
    | none => some (P, x.goto next)
    | some f =>
      if P.strategyLock = none then some ({ P with policy := f P.policy b }, x.goto next) else none

theorem exec_notify_cases {N : ℕ} {hash : BufferTag → ℕ} {p : Pid} {P P' : Pool V Pid}
    {x x' : Backend V} {n : Notify} {b : ℕ} {next : Pc V.Pc}
    (he : exec N hash p P x (.notify n b next) = some (P', x')) :
    ∃ s, P' = { P with policy := s } ∧ x' = x.goto next := by
  unfold exec at he
  dsimp only at he
  split at he
  · cases he
    exact ⟨_, rfl, rfl⟩
  · cases ((Option.ite_none_right_eq_some ..).mp he).2
    exact ⟨_, rfl, rfl⟩

/-- One step of backend `p`. -/
def step (N : ℕ) (hash : BufferTag → ℕ) (s : Sys V Pid) (a : Pid × Input) : Option (Sys V Pid) :=
  (code N (s.backends a.1) a.2).bind fun i =>
    (exec N hash a.1 s.pool (s.backends a.1) i).map fun r =>
      ⟨r.1, update s.backends a.1 r.2⟩

/-- Shared memory after start-up, with every backend idle. -/
def boot (V : EvictionVtable) (Pid : Type) (N : ℕ) : Sys V Pid where
  pool :=
    { tag := fun _ => .clear
      state := fun _ => 0
      table := fun _ => none
      exclusive := fun _ => none
      shared := fun _ => []
      strategyLock := none
      policy := V.init N }
  backends _ := ⟨.idle, fun _ => 0, ⟨.bulkRead, 1, 0, fun _ => none⟩⟩

/-- Backend `p` starts `op` and takes `n` more steps. -/
def Op.steps {Pid : Type} (op : Op) (p : Pid) (n : ℕ) : List (Pid × Input) :=
  (p, .start op) :: List.replicate n (p, .go)

/-- Block `k` of one relation. -/
def block (k : ℕ) : BufferTag := ⟨1, 1, 1, 0, k⟩

end Exec

end PostgreSieve
