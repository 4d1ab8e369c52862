import Mathlib.Data.Finset.Basic
import PostgreSieve.Runs.Basic

/-! # The shared invalidation queue

`sinvaladt.c`: messages in a circular buffer, a counter for each backend, and two locks. Writers
hold `SInvalWriteLock`, readers hold `SInvalReadLock` in shared mode and change their own entry
only, and `SICleanupQueue` holds both, so that its body is one step. A step of a process is
otherwise one access to shared memory.
-/

namespace PostgreSieve.Sinval

open Function List

def maxNumMessages : ℕ := 4096

def msgNumWraparound : ℕ := maxNumMessages * 262144

def cleanupMin : ℕ := maxNumMessages / 2

def cleanupQuantum : ℕ := maxNumMessages / 16

def sigThreshold : ℕ := maxNumMessages / 2

def writeQuantum : ℕ := 64

structure ProcState where
  /-- Zero in an inactive entry. -/
  procPid : ℕ
  nextMsgNum : ℤ
  resetState : Bool
  signaled : Bool
  hasMessages : Bool
  sendOnly : Bool
  deriving DecidableEq

structure SISeg (Msg : Type*) where
  minMsgNum : ℤ
  maxMsgNum : ℤ
  nextThreshold : ℤ
  buffer : ℕ → Msg
  pgprocnos : List ℕ
  procState : ℕ → ProcState

variable {Msg : Type*}

def SISeg.setProc (g : SISeg Msg) (p : ℕ) (st : ProcState) : SISeg Msg :=
  { g with procState := update g.procState p st }

/-- `SharedInvalShmemInit`. The buffer is not filled. -/
def sharedInvalShmemInit (buffer : ℕ → Msg) : SISeg Msg where
  minMsgNum := 0
  maxMsgNum := 0
  nextThreshold := cleanupMin
  buffer := buffer
  pgprocnos := []
  procState := fun _ => ⟨0, 0, false, false, false, false⟩

/-! ## The functions that run under the write lock -/

/-- The part of `SharedInvalBackendInit` in the critical section. -/
def SISeg.sharedInvalBackendInit (g : SISeg Msg) (p pid : ℕ) (sendOnly : Bool) :
    Except String (SISeg Msg) :=
  let oldPid := (g.procState p).procPid
  if oldPid ≠ 0 then
    .error s!"sinval slot for backend {p} is already in use by process {oldPid}"
  else
    .ok { g.setProc p ⟨pid, g.maxMsgNum, false, false, false, sendOnly⟩ with
      pgprocnos := g.pgprocnos ++ [p] }

/-- The last entry takes the place of the one to remove. -/
def removeProc (pgprocnos : List ℕ) (p : ℕ) : Option (List ℕ) := do
  let i ← (List.range pgprocnos.length).reverse.find? fun i => pgprocnos[i]? = some p
  let last ← pgprocnos.getLast?
  some ((if i ≠ pgprocnos.length - 1 then pgprocnos.set i last else pgprocnos).dropLast)

def SISeg.cleanupInvalidationState (g : SISeg Msg) (p : ℕ) : Except String (SISeg Msg) :=
  let g := g.setProc p
    { g.procState p with procPid := 0, nextMsgNum := 0, resetState := false, signaled := false }
  match removeProc g.pgprocnos p with
  | none => .error "could not find entry in sinval array"
  | some pgprocnos => .ok { g with pgprocnos := pgprocnos }

/-- The variables of the first loop of `SICleanupQueue`. -/
structure Scan where
  procState : ℕ → ProcState
  min : ℤ
  minsig : ℤ
  needSig : Option ℕ

def Scan.visit (lowbound : ℤ) (a : Scan) (p : ℕ) : Scan :=
  let st := a.procState p
  let n := st.nextMsgNum
  if st.resetState ∨ st.sendOnly then a
  else if n < lowbound then
    { a with procState := update a.procState p { st with resetState := true } }
  else
    let a := { a with min := if n < a.min then n else a.min }
    if n < a.minsig ∧ ¬ st.signaled then { a with minsig := n, needSig := some p } else a

def SISeg.scan (g : SISeg Msg) (minFree : ℕ) : Scan :=
  g.pgprocnos.foldl (Scan.visit (g.maxMsgNum - maxNumMessages + minFree))
    ⟨g.procState, g.maxMsgNum, g.maxMsgNum - sigThreshold, none⟩

/-- Decrement all message counters. -/
def SISeg.wrap (g : SISeg Msg) : SISeg Msg where
  minMsgNum := g.minMsgNum - msgNumWraparound
  maxMsgNum := g.maxMsgNum - msgNumWraparound
  nextThreshold := g.nextThreshold
  buffer := g.buffer
  pgprocnos := g.pgprocnos
  procState := g.pgprocnos.foldl (fun ps p => update ps p
    { ps p with nextMsgNum := (ps p).nextMsgNum - msgNumWraparound }) g.procState

def threshold (numMsgs : ℤ) : ℤ :=
  if numMsgs < cleanupMin then cleanupMin else (numMsgs / cleanupQuantum + 1) * cleanupQuantum

/-- `SICleanupQueue` between taking and releasing the locks, and the backend to signal. -/
def SISeg.siCleanupQueue (g : SISeg Msg) (minFree : ℕ) : SISeg Msg × Option ℕ :=
  let a := g.scan minFree
  let g := { g with procState := a.procState, minMsgNum := a.min }
  let g := if msgNumWraparound ≤ a.min then g.wrap else g
  let g := { g with nextThreshold := threshold (g.maxMsgNum - g.minMsgNum) }
  match a.needSig with
  | some p => (g.setProc p { g.procState p with signaled := true }, some p)
  | none => (g, none)

theorem removeProc_append (l₁ l₂ : List ℕ) (p last : ℕ) (hlast : last ∈ (l₁ ++ p :: l₂).getLast?) :
    (p :: (if l₁.length ≠ (l₁ ++ p :: l₂).length - 1 then (l₁ ++ p :: l₂).set l₁.length last
      else l₁ ++ p :: l₂).dropLast).Perm (l₁ ++ p :: l₂) := by
  rcases eq_nil_or_concat l₂ with rfl | ⟨l₂, z, rfl⟩
  · simp only [length_append, length_singleton, Nat.add_sub_cancel, ne_eq,
      not_true_eq_false, if_false, dropLast_concat]
    exact (perm_append_singleton p l₁).symm
  · obtain rfl : z = last := by
      have he : l₁ ++ p :: l₂.concat z = (l₁ ++ p :: l₂) ++ [z] := by simp
      rw [he, List.getLast?_concat] at hlast
      exact Option.some.inj hlast
    rw [if_pos (by simp), concat_eq_append]
    have hset : (l₁ ++ p :: (l₂ ++ [z])).set l₁.length z = (l₁ ++ z :: l₂) ++ [z] := by simp
    rw [hset, dropLast_concat]
    exact (((perm_append_singleton z l₂).symm.append_left l₁).cons p).trans
      perm_middle.symm

theorem exists_removeProc {l : List ℕ} {p : ℕ} (hp : p ∈ l) :
    ∃ l', removeProc l p = some l' ∧ (p :: l').Perm l := by
  cases hi : (List.range l.length).reverse.find? fun i => l[i]? = some p with
  | none =>
    obtain ⟨i, hlt, he⟩ := getElem_of_mem hp
    rw [List.find?_eq_none] at hi
    exact absurd (by simp [hlt, he]) (hi i (by simpa using hlt))
  | some i =>
    have hget : l[i]? = some p := by simpa using List.find?_some hi
    obtain ⟨hlt, rfl⟩ := List.getElem?_eq_some_iff.mp hget
    have hne : l ≠ [] := ne_nil_of_mem hp
    refine ⟨_, by simp only [removeProc, hi, List.getLast?_eq_some_getLast hne]; rfl, ?_⟩
    have hsplit : l = l.take i ++ l[i] :: l.drop (i + 1) := by simp
    have hlen : (l.take i).length = i := length_take_of_le hlt.le
    have h := removeProc_append (l.take i) (l.drop (i + 1)) l[i] (l.getLast hne)
    rw [← hsplit, hlen] at h
    exact h (List.getLast?_eq_some_getLast hne)

section Cleanup

variable {g : SISeg Msg} {lowbound B : ℤ} {a b c : Scan} {p : ℕ}

/-- What visiting backends does: it resets some of them and lowers the minimum, to no less than
`lowbound`. -/
structure Scan.Follows (lowbound : ℤ) (a b : Scan) : Prop where
  proc : ∀ q, b.procState q = a.procState q ∨
    b.procState q = { a.procState q with resetState := true }
  min_le : b.min ≤ a.min
  low : a.min ≤ b.min ∨ lowbound ≤ b.min

theorem Scan.Follows.trans (h : Follows lowbound a b) (h' : Follows lowbound b c) :
    Follows lowbound a c where
  proc q := by
    rcases h.proc q with hq | hq <;> rcases h'.proc q with hq' | hq' <;> simp [hq, hq']
  min_le := h'.min_le.trans h.min_le
  low := by
    have := h.low
    have := h'.low
    omega

/-- The backend is not behind the minimum, or the minimum does not wait for it. -/
def Scan.Covers (a : Scan) (q : ℕ) : Prop :=
  (a.procState q).sendOnly = false → (a.procState q).resetState = false →
    a.min ≤ (a.procState q).nextMsgNum

theorem Scan.Follows.covers (h : Follows lowbound a b) {q : ℕ} (hq : a.Covers q) : b.Covers q := by
  intro hs hr
  rcases h.proc q with he | he <;> rw [he] at hs hr ⊢
  · exact h.min_le.trans (hq hs hr)
  · cases hr

theorem Scan.follows_visit (lowbound : ℤ) (a : Scan) (p : ℕ) :
    Follows lowbound a (a.visit lowbound p) := by
  unfold visit
  simp only
  split
  · exact ⟨fun q => .inl rfl, le_rfl, .inl le_rfl⟩
  · split
    · refine ⟨fun q => ?_, le_rfl, .inl le_rfl⟩
      rcases eq_or_ne q p with rfl | hq
      · simp
      · simp [hq]
    · split
      all_goals
        refine ⟨fun q => .inl rfl, ?_, ?_⟩ <;> simp only <;> split <;> omega

theorem Scan.covers_visit (lowbound : ℤ) (a : Scan) (p : ℕ) : (a.visit lowbound p).Covers p := by
  unfold visit
  simp only
  split
  · rename_i h
    intro hs hr
    simp [hs, hr] at h
  · split
    · intro _ hr
      simp at hr
    · split
      all_goals
        intro _ _
        simp only
        split <;> omega

theorem Scan.le_visit (hB : B ≤ a.min)
    (hp : (a.procState p).sendOnly = false → (a.procState p).resetState = false →
      B ≤ (a.procState p).nextMsgNum) :
    B ≤ (a.visit lowbound p).min := by
  unfold visit
  simp only
  split
  · exact hB
  · rename_i h
    simp only [not_or, Bool.not_eq_true] at h
    have := hp h.2 h.1
    split
    · exact hB
    · split <;> simp only <;> split <;> omega

theorem Scan.foldl_visit (lowbound : ℤ) (l : List ℕ) (a : Scan) :
    Follows lowbound a (l.foldl (visit lowbound) a) ∧
    (∀ q ∈ l, (l.foldl (visit lowbound) a).Covers q) ∧
    ∀ B ≤ a.min, (∀ q ∈ l, (a.procState q).sendOnly = false → (a.procState q).resetState = false →
      B ≤ (a.procState q).nextMsgNum) → B ≤ (l.foldl (visit lowbound) a).min := by
  induction l generalizing a with
  | nil => exact ⟨⟨fun q => .inl rfl, le_rfl, .inl le_rfl⟩, nofun, fun B hB _ => hB⟩
  | cons p l ih =>
    have hp := follows_visit lowbound a p
    obtain ⟨hf, hc, hmin⟩ := ih (a.visit lowbound p)
    refine ⟨hp.trans hf, ?_, fun B hB hl => ?_⟩
    · rintro q (_ | ⟨_, hq⟩)
      · exact hf.covers (covers_visit lowbound a p)
      · exact hc q hq
    · apply hmin B (le_visit hB (hl p mem_cons_self))
      intro q hq hs hr
      rcases hp.proc q with he | he <;> rw [he] at hs hr ⊢
      · exact hl q (mem_cons_of_mem p hq) hs hr
      · cases hr

theorem foldl_update {β : Type*} (f : β → β) {l : List ℕ} (hl : l.Nodup) (m : ℕ → β) (q : ℕ) :
    l.foldl (fun m p => update m p (f (m p))) m q = if q ∈ l then f (m q) else m q := by
  induction l generalizing m with
  | nil => rfl
  | cons p l ih =>
    obtain ⟨hp, hl⟩ := nodup_cons.mp hl
    rw [foldl_cons, ih hl]
    rcases eq_or_ne q p with rfl | hq
    · simp [hp]
    · simp [hq]

/-- The counters as the queue keeps them. -/
structure Bounded (minMsgNum maxMsgNum : ℤ) : Prop where
  nonneg : 0 ≤ minMsgNum
  min_le : minMsgNum ≤ maxMsgNum
  max_le : maxMsgNum ≤ minMsgNum + maxNumMessages
  min_lt : minMsgNum < msgNumWraparound

/-- What `SICleanupQueue` does to the queue, with `w` taken from the counters. -/
structure SISeg.Cleaned (g g' : SISeg Msg) (w : ℕ) : Prop where
  dvd : maxNumMessages ∣ w
  bounded : Bounded g'.minMsgNum g'.maxMsgNum
  le_min : g.minMsgNum ≤ g'.minMsgNum + w
  max_eq : g'.maxMsgNum = g.maxMsgNum - w
  buffer_eq : g'.buffer = g.buffer
  pgprocnos_eq : g'.pgprocnos = g.pgprocnos
  same : ∀ q, (g'.procState q).procPid = (g.procState q).procPid ∧
    (g'.procState q).sendOnly = (g.procState q).sendOnly ∧
    (g'.procState q).hasMessages = (g.procState q).hasMessages
  next : ∀ q ∈ g.pgprocnos, (g'.procState q).nextMsgNum = (g.procState q).nextMsgNum - w
  window : ∀ q ∈ g.pgprocnos, (g'.procState q).sendOnly = false →
    (g'.procState q).resetState = false → g'.minMsgNum ≤ (g'.procState q).nextMsgNum

theorem SISeg.Cleaned.signal {g' : SISeg Msg} {w : ℕ} (h : g.Cleaned g' w) (p : ℕ) :
    g.Cleaned (g'.setProc p { g'.procState p with signaled := true }) w := by
  have hp : ∀ q, (g'.setProc p { g'.procState p with signaled := true }).procState q =
      if q = p then { g'.procState q with signaled := true } else g'.procState q := by
    intro q
    rcases eq_or_ne q p with rfl | hq
    · simp [setProc]
    · simp [setProc, hq]
  refine ⟨h.dvd, h.bounded, h.le_min, h.max_eq, h.buffer_eq, h.pgprocnos_eq, fun q => ?_,
    fun q hq => ?_, fun q hq => ?_⟩
  · rw [hp]
    split <;> exact h.same q
  · rw [hp]
    split <;> exact h.next q hq
  · rw [hp]
    split <;> exact h.window q hq

variable (hg : Bounded g.minMsgNum g.maxMsgNum) (hnd : g.pgprocnos.Nodup)
  (hw : ∀ q ∈ g.pgprocnos, (g.procState q).sendOnly = false →
    (g.procState q).resetState = false → g.minMsgNum ≤ (g.procState q).nextMsgNum) (minFree : ℕ)
include hg hnd hw minFree

theorem SISeg.exists_cleaned :
    let a := g.scan minFree
    let g' := { g with procState := a.procState, minMsgNum := a.min }
    ∃ w, g.Cleaned (if msgNumWraparound ≤ a.min then g'.wrap else g') w := by
  intro a g'
  obtain ⟨hf, hc, hmin⟩ := Scan.foldl_visit (g.maxMsgNum - maxNumMessages + minFree) g.pgprocnos
    ⟨g.procState, g.maxMsgNum, g.maxMsgNum - sigThreshold, none⟩
  change Scan.Follows _ _ a at hf
  have hle : g.minMsgNum ≤ a.min := hmin _ hg.min_le hw
  have hmax : a.min ≤ g.maxMsgNum := hf.min_le
  have hlow : g.maxMsgNum ≤ a.min + maxNumMessages := by
    have := hf.low
    simp only at this
    omega
  have hsame : ∀ q, (a.procState q).procPid = (g.procState q).procPid ∧
      (a.procState q).sendOnly = (g.procState q).sendOnly ∧
      (a.procState q).hasMessages = (g.procState q).hasMessages ∧
      (a.procState q).nextMsgNum = (g.procState q).nextMsgNum := by
    intro q
    rcases hf.proc q with hq | hq <;> simp [hq]
  have hpos := hg.nonneg
  have hlt := hg.min_lt
  have hgmax := hg.max_le
  split
  · have hproc : ∀ q, g'.wrap.procState q = if q ∈ g.pgprocnos then
        { a.procState q with nextMsgNum := (a.procState q).nextMsgNum - msgNumWraparound }
        else a.procState q := fun q => foldl_update
      (fun st : ProcState => { st with nextMsgNum := st.nextMsgNum - msgNumWraparound }) hnd _ q
    refine ⟨msgNumWraparound, ⟨_, rfl⟩, ⟨?_, ?_, ?_, ?_⟩, ?_, rfl, rfl, rfl, fun q => ?_,
      fun q hq => ?_, fun q hq => ?_⟩
    · simp only [wrap, g']
      omega
    · simp only [wrap, g']
      omega
    · simp only [wrap, g']
      omega
    · have hW : maxNumMessages ≤ msgNumWraparound := by decide
      simp only [wrap, g']
      omega
    · simp only [wrap, g']
      omega
    · obtain ⟨h1, h2, h3, -⟩ := hsame q
      rw [hproc]
      split <;> exact ⟨h1, h2, h3⟩
    · rw [hproc, if_pos hq]
      simp only [(hsame q).2.2.2]
    · rw [hproc, if_pos hq]
      intro hs hr
      exact Int.sub_le_sub_right (hc q hq hs hr) _
  · rename_i hwrap
    refine ⟨0, Nat.dvd_zero _, ⟨?_, ?_, ?_, ?_⟩, ?_, ?_, rfl, rfl, fun q => ?_,
      fun q hq => ?_, fun q hq => hc q hq⟩
    · exact hpos.trans hle
    · exact hmax
    · exact hlow
    · exact Int.not_le.mp hwrap
    · simpa [g'] using hle
    · simp [g']
    · obtain ⟨h1, h2, h3, -⟩ := hsame q
      exact ⟨h1, h2, h3⟩
    · simp [g', (hsame q).2.2.2]

theorem SISeg.siCleanupQueue_cleaned : ∃ w, g.Cleaned (g.siCleanupQueue minFree).1 w := by
  obtain ⟨w, h⟩ := exists_cleaned hg hnd hw minFree
  refine ⟨w, ?_⟩
  unfold siCleanupQueue
  extract_lets a g₁ g₂ g₃
  have h₃ : g.Cleaned g₃ w := ⟨h.dvd, h.bounded, h.le_min, h.max_eq, h.buffer_eq,
    h.pgprocnos_eq, h.same, h.next, h.window⟩
  cases a.needSig with
  | none => exact h₃
  | some p => exact h₃.signal p

end Cleanup

/-! ## Program points -/

/-- `SIInsertDataEntries`. The messages of this iteration are `now`, or `stored ++ todo`. -/
inductive InsertPc (Msg : Type*) where
  | loop (data : List Msg)
  | check (now rest : List Msg)
  | cleanup (now rest : List Msg)
  | signal (now rest : List Msg)
  | store (max : ℤ) (todo stored rest : List Msg)
  | publish (max : ℤ) (stored rest : List Msg)
  | kick (i : ℕ) (rest : List Msg)

/-- `SIGetDataEntries`. -/
inductive GetPc (Msg : Type*) where
  | test
  | lock
  | fetchMax
  | resetTest (max : ℤ)
  | copy (max : ℤ) (data : List Msg)

/-- `SICleanupQueue` called without locks. -/
inductive CleanupPc where
  | writeLock
  | readLock
  | signal

inductive Pc (Msg : Type*) where
  | idle
  | insert (pc : InsertPc Msg)
  | get (datasize : ℕ) (pc : GetPc Msg)
  | cleanup (minFree : ℕ) (pc : CleanupPc)

/-- What happens at the interface. `sent` ends a critical section of `SIInsertDataEntries`. -/
inductive Event (Msg : Type*) where
  | joined (p : ℕ) (sendOnly : Bool)
  | left (p : ℕ)
  | inserted (msgs : List Msg)
  | sent
  | called (p : ℕ)
  | returned (p : ℕ) (data : List Msg) (datasize : ℕ)
  | reset (p : ℕ)
  | failed (p : ℕ) (message : String)
  deriving DecidableEq

structure Sys (Msg : Type*) where
  seg : SISeg Msg
  /-- The holder of `SInvalWriteLock`. -/
  writeLock : Option ℕ
  /-- The holders of `SInvalReadLock` in shared mode. -/
  readers : Finset ℕ
  pc : ℕ → Pc Msg
  /-- The newest event first. -/
  history : List (Event Msg)

inductive Op (Msg : Type*) where
  | init (pid : ℕ) (sendOnly : Bool)
  | exit
  | insert (data : List Msg)
  | get (datasize : ℕ)
  | cleanup (minFree : ℕ)

inductive Action (Msg : Type*) where
  | call (p : ℕ) (op : Op Msg)
  | go (p : ℕ)

namespace Sys

def goto (s : Sys Msg) (p : ℕ) (pc : Pc Msg) : Sys Msg :=
  { s with pc := update s.pc p pc }

def record (s : Sys Msg) (e : Event Msg) : Sys Msg := { s with history := e :: s.history }

/-- A process calls a function. The functions with one critical section are done in one step. A
backend that only sends never receives. -/
def call (slots : ℕ) (s : Sys Msg) (p : ℕ) : Op Msg → Option (Sys Msg)
  | .init pid sendOnly =>
    if pid = 0 then none
    else if slots ≤ p then
      some (s.record (.failed p
        s!"unexpected MyProcNumber {p} in SharedInvalBackendInit (max {slots})"))
    else if s.writeLock = none then
      match s.seg.sharedInvalBackendInit p pid sendOnly with
      | .ok seg => some ({ s with seg := seg }.record (.joined p sendOnly))
      | .error e => some (s.record (.failed p e))
    else none
  | .exit =>
    if (s.seg.procState p).procPid ≠ 0 ∧ s.writeLock = none then
      match s.seg.cleanupInvalidationState p with
      | .ok seg => some ({ s with seg := seg }.record (.left p))
      | .error e => some (s.record (.failed p e))
    else none
  | .insert data => some (s.goto p (.insert (.loop data)))
  | .get datasize =>
    if (s.seg.procState p).procPid ≠ 0 ∧ (s.seg.procState p).sendOnly = false then
      some ((s.goto p (.get datasize .test)).record (.called p))
    else none
  | .cleanup minFree => some (s.goto p (.cleanup minFree .writeLock))

def siInsertDataEntries (s : Sys Msg) (p : ℕ) : InsertPc Msg → Option (Sys Msg)
  | .loop [] => some (s.goto p .idle)
  | .loop (m :: data) =>
    if s.writeLock = none then
      some ({ s with writeLock := some p }.goto p
        (.insert (.check ((m :: data).take writeQuantum) ((m :: data).drop writeQuantum))))
    else none
  | .check now rest =>
    let numMsgs := s.seg.maxMsgNum - s.seg.minMsgNum
    if maxNumMessages < numMsgs + now.length ∨ s.seg.nextThreshold ≤ numMsgs then
      some (s.goto p (.insert (.cleanup now rest)))
    else some (s.goto p (.insert (.store s.seg.maxMsgNum now [] rest)))
  | .cleanup now rest =>
    if s.readers = ∅ then
      match s.seg.siCleanupQueue now.length with
      | (seg, none) => some ({ s with seg := seg }.goto p (.insert (.check now rest)))
      | (seg, some _) =>
        some ({ s with seg := seg, writeLock := none }.goto p (.insert (.signal now rest)))
    else none
  | .signal now rest =>
    if s.writeLock = none then
      some ({ s with writeLock := some p }.goto p (.insert (.check now rest)))
    else none
  | .store max (m :: todo) stored rest =>
    some ({ s with seg := { s.seg with
      buffer := update s.seg.buffer (max % maxNumMessages).toNat m } }.goto p
        (.insert (.store (max + 1) todo (stored ++ [m]) rest)))
  | .store max [] stored rest => some (s.goto p (.insert (.publish max stored rest)))
  | .publish max stored rest =>
    some (({ s with seg := { s.seg with maxMsgNum := max } }.goto p
      (.insert (.kick 0 rest))).record (.inserted stored))
  | .kick i rest =>
    match s.seg.pgprocnos[i]? with
    | some q =>
      some ({ s with seg := s.seg.setProc q { s.seg.procState q with hasMessages := true } }.goto p
        (.insert (.kick (i + 1) rest)))
    | none => some (({ s with writeLock := none }.goto p (.insert (.loop rest))).record .sent)

def siGetDataEntries (s : Sys Msg) (p datasize : ℕ) : GetPc Msg → Option (Sys Msg)
  | .test =>
    if (s.seg.procState p).hasMessages then some (s.goto p (.get datasize .lock))
    else some ((s.goto p .idle).record (.returned p [] datasize))
  | .lock =>
    some ({ s with
      seg := s.seg.setProc p { s.seg.procState p with hasMessages := false }
      readers := insert p s.readers }.goto p (.get datasize .fetchMax))
  | .fetchMax => some (s.goto p (.get datasize (.resetTest s.seg.maxMsgNum)))
  | .resetTest max =>
    if (s.seg.procState p).resetState then
      some (({ s with
        seg := s.seg.setProc p
          { s.seg.procState p with nextMsgNum := max, resetState := false, signaled := false }
        readers := s.readers.erase p }.goto p .idle).record (.reset p))
    else some (s.goto p (.get datasize (.copy max [])))
  | .copy max data =>
    let st := s.seg.procState p
    if data.length < datasize ∧ st.nextMsgNum < max then
      some ({ s with seg := s.seg.setProc p { st with nextMsgNum := st.nextMsgNum + 1 } }.goto p
        (.get datasize (.copy max
          (data ++ [s.seg.buffer (st.nextMsgNum % maxNumMessages).toNat]))))
    else
      some (({ s with
        seg := s.seg.setProc p
          (if max ≤ st.nextMsgNum then { st with signaled := false }
          else { st with hasMessages := true })
        readers := s.readers.erase p }.goto p .idle).record (.returned p data datasize))

def siCleanupQueue (s : Sys Msg) (p minFree : ℕ) : CleanupPc → Option (Sys Msg)
  | .writeLock =>
    if s.writeLock = none then
      some ({ s with writeLock := some p }.goto p (.cleanup minFree .readLock))
    else none
  | .readLock =>
    if s.readers = ∅ then
      let r := s.seg.siCleanupQueue minFree
      some ({ s with seg := r.1, writeLock := none }.goto p
        (match r.2 with
        | some _ => .cleanup minFree .signal
        | none => .idle))
    else none
  | .signal => some (s.goto p .idle)

end Sys

def step (slots : ℕ) (s : Sys Msg) : Action Msg → Option (Sys Msg)
  | .call p op =>
    match s.pc p with
    | .idle => s.call slots p op
    | _ => none
  | .go p =>
    match s.pc p with
    | .idle => none
    | .insert pc => s.siInsertDataEntries p pc
    | .get datasize pc => s.siGetDataEntries p datasize pc
    | .cleanup minFree pc => s.siCleanupQueue p minFree pc

def start (buffer : ℕ → Msg) : Sys Msg where
  seg := sharedInvalShmemInit buffer
  writeLock := none
  readers := ∅
  pc := fun _ => .idle
  history := []

end PostgreSieve.Sinval
