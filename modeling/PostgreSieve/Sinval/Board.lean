import Mathlib.Data.List.Infix
import Mathlib.Tactic.Common
import PostgreSieve.Lists.Ring
import PostgreSieve.Sinval.Queue

/-! # The conceptual invalidation queue

The conceptual queue is an infinite array, of which every backend has taken an initial part. The
circular buffer, the counters and the flags follow it, here for the steps of a reader.
-/

namespace PostgreSieve

open Function List

namespace Sinval

variable {Msg : Type*}

/-! ## The conceptual queue -/

/-- All messages ever inserted, how many of them had been inserted when a critical section of a
writer last ended, and for each backend how many it is done with and how many it must be done with
when the current call finds nothing more. -/
structure Board (Msg : Type*) where
  log : List Msg
  settled : ℕ
  taken : ℕ → ℕ
  due : ℕ → ℕ

/-- A backend obtains consecutive messages, starting with the first one after it has joined. A call
that does not fill its array leaves nothing that was due. A reset stands for messages that have
been inserted, and later ones are obtained as usual. -/
inductive Board.Step : Board Msg → Event Msg → Board Msg → Prop where
  | joined {b p sendOnly} :
      Step b (.joined p sendOnly) { b with taken := update b.taken p b.log.length }
  | left {b p} : Step b (.left p) b
  | failed {b p message} : Step b (.failed p message) b
  | inserted {b msgs} : Step b (.inserted msgs) { b with log := b.log ++ msgs }
  | sent {b} : Step b .sent { b with settled := b.log.length }
  | called {b p} : Step b (.called p) { b with due := update b.due p b.settled }
  | returned {b p data datasize} : data <+: b.log.drop (b.taken p) →
      (data.length < datasize → b.due p ≤ b.taken p + data.length) →
      Step b (.returned p data datasize)
        { b with taken := update b.taken p (b.taken p + data.length) }
  | reset {b p t} : b.taken p ≤ t → t ≤ b.log.length → b.due p ≤ t →
      Step b (.reset p) { b with taken := update b.taken p t }

/-- The events, the newest first, lead to the conceptual queue. -/
inductive Board.Explains : List (Event Msg) → Board Msg → Prop where
  | nil : Explains [] ⟨[], 0, fun _ => 0, fun _ => 0⟩
  | cons {h b e b'} : Explains h b → Step b e b' → Explains (e :: h) b'

/-! ## What the program points mean -/

namespace Pc

/-- The process holds the write lock. -/
def writing : Pc Msg → Bool
  | insert (.check ..) | insert (.cleanup ..) | insert (.store ..) | insert (.publish ..)
  | insert (.kick ..) | cleanup _ .readLock => true
  | _ => false

/-- The process holds the read lock. -/
def reading : Pc Msg → Bool
  | get _ .fetchMax | get _ (.resetTest _) | get _ (.copy ..) => true
  | _ => false

/-- The messages in the buffer behind the last one. -/
def stored : Pc Msg → List Msg
  | insert (.store _ _ stored _) | insert (.publish _ stored _) => stored
  | _ => []

/-- The messages read in this call. -/
def copied : Pc Msg → List Msg
  | get _ (.copy _ data) => data
  | _ => []

/-- The limit of this call, once it is known. -/
def limit : Pc Msg → Option ℤ
  | get _ (.resetTest max) | get _ (.copy max _) => some max
  | _ => none

/-- Up to where the backend has read without having to look at its flag, if it goes on from
`next`. -/
def reach (next : ℤ) : Pc Msg → Option ℤ
  | get _ .fetchMax => none
  | get _ (.resetTest max) | get _ (.copy max _) => some max
  | _ => some next

/-- The buffer has room for the messages of the writer. -/
def Room (minMsgNum maxMsgNum : ℤ) : Pc Msg → Prop
  | insert (.store max todo stored _) =>
    max = maxMsgNum + stored.length ∧ max + todo.length ≤ minMsgNum + maxNumMessages
  | insert (.publish max stored _) =>
    max = maxMsgNum + stored.length ∧ max ≤ minMsgNum + maxNumMessages
  | _ => True

end Pc

/-- The flag of the backend is set if it is not done with the first `n` messages. -/
def Alert (offset : ℕ) (st : ProcState) (pc : Pc Msg) (n : ℕ) : Prop :=
  ∀ m, pc.reach st.nextMsgNum = some m → m + offset < n → st.hasMessages = true

/-- How the entry and the program point of an active backend follow the conceptual queue. Message
number `m` is the message `m + offset` of the log. -/
structure Reader (b : Board Msg) (offset : ℕ) (g : SISeg Msg) (pc : Pc Msg) (q : ℕ) : Prop where
  cursor : (g.procState q).nextMsgNum + offset = b.taken q + pc.copied.length
  copied : pc.copied <+: b.log.drop (b.taken q)
  le : b.taken q ≤ b.log.length
  window : (g.procState q).sendOnly = false → (g.procState q).resetState = false →
    g.minMsgNum ≤ (g.procState q).nextMsgNum
  limit : ∀ max, pc.limit = some max → (g.procState q).nextMsgNum ≤ max ∧
    g.minMsgNum ≤ max ∧ max ≤ g.maxMsgNum ∧ b.due q ≤ max + offset
  due : ∀ d c, pc = .get d c → pc.limit = none → b.due q ≤ b.settled
  copying : ∀ d max data, pc = .get d (.copy max data) → (g.procState q).resetState = false

/-- The messages that the writer has put behind the last one. -/
def Sys.stored (s : Sys Msg) : List Msg := (s.writeLock.map fun w => (s.pc w).stored).getD []

/-- The state of the system follows the conceptual queue. -/
structure Matches (b : Board Msg) (offset : ℕ) (s : Sys Msg) : Prop where
  explains : Board.Explains s.history b
  dvd : maxNumMessages ∣ offset
  max_eq : s.seg.maxMsgNum + offset = b.log.length
  bounded : Bounded s.seg.minMsgNum s.seg.maxMsgNum
  settled_le : b.settled ≤ b.log.length
  nodup : s.seg.pgprocnos.Nodup
  active : ∀ q, q ∈ s.seg.pgprocnos ↔ (s.seg.procState q).procPid ≠ 0
  reader : ∀ q ∈ s.seg.pgprocnos, Reader b offset s.seg (s.pc q) q
  alert : ∀ q ∈ s.seg.pgprocnos, (s.seg.procState q).sendOnly = false →
    Alert offset (s.seg.procState q) (s.pc q) b.settled
  getting : ∀ q d c, s.pc q = .get d c →
    q ∈ s.seg.pgprocnos ∧ (s.seg.procState q).sendOnly = false
  room : ∀ q, (s.pc q).Room s.seg.minMsgNum s.seg.maxMsgNum
  kicked : ∀ w i rest, s.pc w = .insert (.kick i rest) → ∀ q ∈ s.seg.pgprocnos.take i,
    (s.seg.procState q).sendOnly = false →
      Alert offset (s.seg.procState q) (s.pc q) b.log.length
  write : ∀ q, (s.pc q).writing = true ↔ s.writeLock = some q
  read : ∀ q, (s.pc q).reading = true ↔ q ∈ s.readers
  ring : Ring.Holds maxNumMessages s.seg.buffer (b.log ++ s.stored)
    (s.seg.minMsgNum + offset).toNat

section Steps

variable {b b' : Board Msg} {offset n : ℕ} {g g' : SISeg Msg} {s : Sys Msg} {p q : ℕ} {pc pc' : Pc Msg}
variable {writeLock : Option ℕ}

@[simp] theorem SISeg.setProc_self (st : ProcState) : (g.setProc p st).procState p = st :=
  update_self ..

theorem SISeg.setProc_of_ne (st : ProcState) (hq : q ≠ p) :
    (g.setProc p st).procState q = g.procState q :=
  update_of_ne hq ..

theorem SISeg.setProc_procState (g : SISeg Msg) (p : ℕ) : g.setProc p (g.procState p) = g := by
  simp [setProc]

theorem Reader.mono (h : Reader b offset g pc q)
    (hnext : (g'.procState q).nextMsgNum = (g.procState q).nextMsgNum)
    (hsend : (g'.procState q).sendOnly = (g.procState q).sendOnly)
    (hreset : (g'.procState q).resetState = (g.procState q).resetState)
    (hmin : g'.minMsgNum = g.minMsgNum) (hmax : g.maxMsgNum ≤ g'.maxMsgNum)
    (hlog : b.log <+: b'.log) (hsettled : b.settled ≤ b'.settled)
    (htaken : b'.taken q = b.taken q) (hdue : b'.due q = b.due q) : Reader b' offset g' pc q where
  cursor := by rw [hnext, htaken]; exact h.cursor
  copied := by
    rw [htaken]
    exact h.copied.trans (hlog.drop _)
  le := by
    rw [htaken]
    exact h.le.trans hlog.length_le
  window := by rw [hnext, hsend, hreset, hmin]; exact h.window
  limit m hm := by
    obtain ⟨h1, h2, h3, h4⟩ := h.limit m hm
    rw [hnext, hmin, hdue]
    exact ⟨h1, h2, h3.trans hmax, h4⟩
  due d c hc hl := by
    rw [hdue]
    exact (h.due d c hc hl).trans hsettled
  copying := by rw [hreset]; exact h.copying

section

variable (h : Matches b offset s)
include h

/-- A step that changes the entry, the program point and the locks of `p` only. -/
theorem Matches.own (b' : Board Msg) (p : ℕ) (st : ProcState) (pc : Pc Msg) {readers : Finset ℕ}
    {history : List (Event Msg)} (hseg : g = s.seg.setProc p st)
    (hpid : st.procPid = (s.seg.procState p).procPid)
    (hsend : st.sendOnly = (s.seg.procState p).sendOnly) (hexplains : Board.Explains history b')
    (hlog : b'.log = b.log) (hsettled : b'.settled = b.settled)
    (hother : ∀ q ≠ p, b'.taken q = b.taken q ∧ b'.due q = b.due q)
    (hreader : p ∈ s.seg.pgprocnos → Reader b' offset g pc p)
    (halert : ∀ n ≤ b.log.length, Alert offset (s.seg.procState p) (s.pc p) n → Alert offset st pc n)
    (hget : ∀ d c, pc = .get d c → p ∈ s.seg.pgprocnos ∧ st.sendOnly = false)
    (hroom : pc.Room s.seg.minMsgNum s.seg.maxMsgNum)
    (hkick : ∀ i rest, pc ≠ .insert (.kick i rest))
    (hwrite : ∀ q, (update s.pc p pc q).writing = true ↔ writeLock = some q)
    (hread : ∀ q, (update s.pc p pc q).reading = true ↔ q ∈ readers)
    (hstored : (writeLock.map fun w => (update s.pc p pc w).stored).getD [] = s.stored) :
    Matches b' offset ⟨g, writeLock, readers, update s.pc p pc, history⟩ := by
  subst hseg
  have hact : ∀ q ∈ s.seg.pgprocnos, (update s.seg.procState p st q).sendOnly = false →
      ∀ n ≤ b.log.length, ((s.seg.procState q).sendOnly = false →
        Alert offset (s.seg.procState q) (s.pc q) n) →
      Alert offset (update s.seg.procState p st q) (update s.pc p pc q) n := by
    intro q _ hs n hn ha
    rcases eq_or_ne q p with rfl | hq
    · rw [update_self, update_self] at *
      exact halert n hn (ha (hsend ▸ hs))
    · rw [update_of_ne hq] at hs ⊢
      rw [update_of_ne hq]
      exact ha hs
  refine ⟨hexplains, h.dvd, hlog ▸ h.max_eq, h.bounded, hlog ▸ hsettled ▸ h.settled_le, h.nodup,
    fun q => ?_, fun q hq => ?_, fun q hq hs => ?_, fun q d c hc => ?_, fun q => ?_,
    fun w i rest hw q hq hs => ?_, hwrite, hread, ?_⟩
  · refine (h.active q).trans ?_
    rcases eq_or_ne q p with rfl | hq
    · simp [hpid]
    · simp [SISeg.setProc_of_ne _ hq]
  · rcases eq_or_ne q p with rfl | hne
    · simpa using hreader hq
    · have he := SISeg.setProc_of_ne (g := s.seg) st hne
      simp only [update_of_ne hne]
      exact (h.reader q hq).mono (by rw [he]) (by rw [he]) (by rw [he]) rfl le_rfl
        (hlog ▸ prefix_rfl) hsettled.ge (hother q hne).1 (hother q hne).2
  · rw [hsettled]
    exact hact q hq hs _ h.settled_le (h.alert q hq)
  · rcases eq_or_ne q p with rfl | hne
    · simp only [update_self] at hc
      rw [SISeg.setProc_self]
      exact hget d c hc
    · simp only [update_of_ne hne] at hc
      rw [SISeg.setProc_of_ne _ hne]
      exact h.getting q d c hc
  · rcases eq_or_ne q p with rfl | hne
    · simp only [update_self]
      exact hroom
    · simp only [update_of_ne hne]
      exact h.room q
  · rcases eq_or_ne w p with rfl | hne
    · simp only [update_self] at hw
      exact absurd hw (hkick i rest)
    · simp only [update_of_ne hne] at hw
      rw [hlog]
      exact hact q (mem_of_mem_take hq) hs _ le_rfl (h.kicked w i rest hw q hq)
  · have hring := h.ring
    rw [← hstored, ← hlog] at hring
    exact hring

/-! ### The locks -/

theorem Matches.write_same (hpc : s.pc p = pc') (hw : pc.writing = pc'.writing) (q : ℕ) :
    (update s.pc p pc q).writing = true ↔ s.writeLock = some q := by
  rw [← h.write q]
  rcases eq_or_ne q p with rfl | hq
  · rw [update_self, hw, hpc]
  · rw [update_of_ne hq]

theorem Matches.write_acquire (hnone : s.writeLock = none) (hw : pc.writing = true) (q : ℕ) :
    (update s.pc p pc q).writing = true ↔ some p = some q := by
  rcases eq_or_ne q p with rfl | hq
  · simp [hw]
  · rw [update_of_ne hq, h.write q, hnone]
    simp [hq.symm]

theorem Matches.write_release (hw : (s.pc p).writing = true) (hw' : pc.writing = false) (q : ℕ) :
    (update s.pc p pc q).writing = true ↔ none = some q := by
  rcases eq_or_ne q p with rfl | hq
  · simp [hw']
  · rw [update_of_ne hq, h.write q, (h.write p).mp hw]
    simp [hq.symm]

theorem Matches.read_same (hpc : s.pc p = pc') (hr : pc.reading = pc'.reading) (q : ℕ) :
    (update s.pc p pc q).reading = true ↔ q ∈ s.readers := by
  rw [← h.read q]
  rcases eq_or_ne q p with rfl | hq
  · rw [update_self, hr, hpc]
  · rw [update_of_ne hq]

theorem Matches.read_acquire (hr : pc.reading = true) (q : ℕ) :
    (update s.pc p pc q).reading = true ↔ q ∈ insert p s.readers := by
  rcases eq_or_ne q p with rfl | hq
  · simp [hr]
  · simp [h.read q, hq]

theorem Matches.read_release (hr : pc.reading = false) (q : ℕ) :
    (update s.pc p pc q).reading = true ↔ q ∈ s.readers.erase p := by
  rcases eq_or_ne q p with rfl | hq
  · simp [hr]
  · simp [h.read q, hq]

end

theorem Sys.stored_same (hpc : s.pc p = pc') (hst : pc.stored = pc'.stored) :
    (s.writeLock.map fun w => (update s.pc p pc w).stored).getD [] = s.stored := by
  unfold stored
  cases s.writeLock with
  | none => rfl
  | some w =>
    rcases eq_or_ne w p with rfl | hw
    · simp [hst, hpc]
    · simp [hw]

/-! ### Steps outside `SIGetDataEntries` -/

/-- The process is not reading messages. -/
def Pc.Outside (pc : Pc Msg) : Prop := ∀ d c, pc ≠ .get d c

theorem Pc.copied_of_not_reading (h : pc.reading = false) : pc.copied = [] := by
  unfold copied
  split
  · cases h
  · rfl

theorem Pc.limit_of_not_reading (h : pc.reading = false) : pc.limit = none := by
  unfold limit
  split
  · cases h
  · cases h
  · rfl

theorem Pc.reach_of_not_reading (h : pc.reading = false) (m : ℤ) : pc.reach m = some m := by
  unfold reach
  split
  · cases h
  · cases h
  · cases h
  · rfl

theorem Pc.Outside.reading (h : pc.Outside) : pc.reading = false := by
  cases pc with
  | get d c => exact absurd rfl (h d c)
  | _ => rfl

theorem Reader.outside (h : Reader b offset g pc q) (ho : pc.Outside)
    (ho' : pc'.Outside) : Reader b offset g pc' q where
  cursor := by
    rw [Pc.copied_of_not_reading ho'.reading, ← Pc.copied_of_not_reading ho.reading]
    exact h.cursor
  copied := by rw [Pc.copied_of_not_reading ho'.reading]; exact nil_prefix
  le := h.le
  window := h.window
  limit m hm := by simp [Pc.limit_of_not_reading ho'.reading] at hm
  due d c hc _ := absurd hc (ho' d c)
  copying d m data hc := absurd hc (ho' d _)

section

variable (h : Matches b offset s) (hpc : s.pc p = pc') (ho : pc'.Outside) (ho' : pc.Outside)
  (hroom : pc.Room s.seg.minMsgNum s.seg.maxMsgNum) (hkick : ∀ i rest, pc ≠ .insert (.kick i rest))
include h hpc ho ho' hroom hkick

theorem Matches.move
    (hwrite : ∀ q, (update s.pc p pc q).writing = true ↔ writeLock = some q)
    (hstored : (writeLock.map fun w => (update s.pc p pc w).stored).getD [] = s.stored) :
    Matches b offset ({ s with writeLock := writeLock }.goto p pc) := by
  subst hpc
  exact h.own b p (s.seg.procState p) pc (s.seg.setProc_procState p).symm rfl rfl h.explains rfl rfl
    (fun q _ => ⟨rfl, rfl⟩) (fun hp => (h.reader p hp).outside ho ho')
    (fun n _ ha m hm => ha m (by
      rwa [Pc.reach_of_not_reading ho.reading, ← Pc.reach_of_not_reading ho'.reading]))
    (fun d c hc => absurd hc (ho' d c)) hroom hkick hwrite
    (h.read_same rfl (by rw [ho'.reading, ho.reading])) hstored

theorem Matches.goto (hw : pc.writing = pc'.writing) (hst : pc.stored = pc'.stored) :
    Matches b offset (s.goto p pc) :=
  h.move hpc ho ho' hroom hkick (h.write_same hpc hw) (Sys.stored_same hpc hst)

theorem Matches.acquire (hfree : s.writeLock = none) (hw : pc.writing = true)
    (hst : pc.stored = []) : Matches b offset ({ s with writeLock := some p }.goto p pc) :=
  h.move hpc ho ho' hroom hkick (h.write_acquire hfree hw) (by simp [Sys.stored, hfree, hst])

end

/-! ### Steps of `SIGetDataEntries` -/

section Get

variable {d : ℕ} {c : GetPc Msg} {st : ProcState}
variable {readers : Finset ℕ} {max : ℤ} {data : List Msg}

section

variable (h : Matches b offset s)
include h

theorem Matches.finish (hpc : s.pc p = .get d c) (st : ProcState) {t : ℕ} {e : Event Msg}
    (he : Board.Step b e { b with taken := update b.taken p t }) (hseg : g = s.seg.setProc p st)
    (hpid : st.procPid = (s.seg.procState p).procPid)
    (hsend : st.sendOnly = (s.seg.procState p).sendOnly) (hnext : st.nextMsgNum + offset = t)
    (ht : t ≤ b.log.length) (hwindow : st.resetState = false → s.seg.minMsgNum ≤ st.nextMsgNum)
    (halert : ∀ n ≤ b.log.length, Alert offset (s.seg.procState p) (s.pc p) n →
      (t < n → st.hasMessages = true))
    (hread : ∀ q, (update s.pc p .idle q).reading = true ↔ q ∈ readers) :
    Matches { b with taken := update b.taken p t } offset
      ⟨g, s.writeLock, readers, update s.pc p .idle, e :: s.history⟩ := by
  subst hseg
  refine h.own _ p st .idle rfl hpid hsend (h.explains.cons he) rfl rfl (fun q hq => ?_) (fun _ => ?_)
    (fun n hn ha m hm hlt => ?_) nofun trivial nofun (h.write_same hpc rfl) hread
    (Sys.stored_same hpc rfl)
  · simp [hq]
  · refine ⟨?_, nil_prefix, ?_, fun _ hr => ?_, nofun, nofun, nofun⟩
    · simpa [Pc.copied] using hnext
    · simpa using ht
    · simp only [SISeg.setProc_self] at hr ⊢
      exact hwindow hr
  · obtain rfl := Option.some.inj hm
    exact halert n hn ha (by omega)

theorem Matches.goOn (hpc : s.pc p = .get d c) (st : ProcState) (c' : GetPc Msg)
    (hseg : g = s.seg.setProc p st) (hpid : st.procPid = (s.seg.procState p).procPid)
    (hsend : st.sendOnly = (s.seg.procState p).sendOnly)
    (hreader : Reader b offset s.seg (.get d c) p → Reader b offset g (.get d c') p)
    (halert : ∀ n ≤ b.log.length, Alert offset (s.seg.procState p) (.get d c) n →
      Alert offset st (.get d c') n)
    (hread : ∀ q, (update s.pc p (.get d c') q).reading = true ↔ q ∈ readers) :
    Matches b offset ⟨g, s.writeLock, readers, update s.pc p (.get d c'), s.history⟩ := by
  refine h.own b p st _ hseg hpid hsend h.explains rfl rfl (fun q _ => ⟨rfl, rfl⟩)
    (fun hp => hreader (hpc ▸ h.reader p hp)) (fun n hn ha => halert n hn (hpc ▸ ha)) ?_ trivial
    nofun (h.write_same hpc rfl) hread (Sys.stored_same hpc rfl)
  · rintro d' c'' -
    rw [hsend]
    exact h.getting p d c hpc

theorem Matches.get_test (hpc : s.pc p = .get d .test)
    (hf : (s.seg.procState p).hasMessages = false) :
    ∃ b', Matches b' offset ((s.goto p .idle).record (.returned p [] d)) := by
  obtain ⟨hp, hs⟩ := h.getting p d _ hpc
  have hr := h.reader p hp
  rw [hpc] at hr
  have hcur := hr.cursor
  simp only [Pc.copied, length_nil] at hcur
  -- the flag is not set, so nothing settled is missing
  have hdue : b.due p ≤ b.taken p := by
    have ha := mt (h.alert p hp hs _ (by rw [hpc]; rfl)) (by simp [hf])
    have hd := hr.due d _ rfl rfl
    omega
  exact ⟨_, h.finish (t := b.taken p + 0) (e := .returned p [] d) hpc (s.seg.procState p)
    (.returned nil_prefix fun _ => hdue) (s.seg.setProc_procState p).symm rfl rfl (by omega) hr.le
    (hr.window hs) (fun n hn ha hlt => ha _ (by rw [hpc]; rfl) (by omega)) (h.read_same hpc rfl)⟩

theorem Matches.get_flagged (hpc : s.pc p = .get d .test) :
    Matches b offset (s.goto p (.get d .lock)) :=
  h.goOn hpc (s.seg.procState p) .lock (s.seg.setProc_procState p).symm rfl rfl
    (fun hr => ⟨hr.cursor, hr.copied, hr.le, hr.window, nofun, fun _ _ _ _ => hr.due d _ rfl rfl,
      nofun⟩)
    (fun _ _ ha => ha) (h.read_same hpc rfl)

theorem Matches.get_lock (hpc : s.pc p = .get d .lock) :
    Matches b offset ({ s with
      seg := s.seg.setProc p { s.seg.procState p with hasMessages := false }
      readers := insert p s.readers }.goto p (.get d .fetchMax)) := by
  refine h.goOn hpc _ _ rfl rfl rfl (fun hr => ?_) (fun n hn _ => nofun) (h.read_acquire rfl)
  have hw := hr.window
  refine ⟨?_, nil_prefix, hr.le, ?_, nofun, fun _ _ _ _ => hr.due d _ rfl rfl, nofun⟩
  · rw [SISeg.setProc_self]
    exact hr.cursor
  · rw [SISeg.setProc_self]
    exact hw

theorem Matches.get_fetchMax (hpc : s.pc p = .get d .fetchMax) :
    Matches b offset (s.goto p (.get d (.resetTest s.seg.maxMsgNum))) := by
  have hmax := h.max_eq
  refine h.goOn hpc (s.seg.procState p) (.resetTest s.seg.maxMsgNum)
    (s.seg.setProc_procState p).symm rfl rfl (fun hr => ?_) (fun n hn _ m hm hlt => ?_)
    (h.read_same hpc rfl)
  · have hcur := hr.cursor
    have hle := hr.le
    have hdue := hr.due d _ rfl rfl
    have hset := h.settled_le
    have hmin := h.bounded.min_le
    simp only [Pc.copied, length_nil] at hcur
    refine ⟨hr.cursor, nil_prefix, hr.le, hr.window, ?_, nofun, nofun⟩
    rintro m hm
    obtain rfl := Option.some.inj hm
    omega
  · obtain rfl := Option.some.inj hm
    omega

theorem Matches.get_reset (hpc : s.pc p = .get d (.resetTest max)) :
    ∃ b', Matches b' offset (({ s with
      seg := s.seg.setProc p
        { s.seg.procState p with nextMsgNum := max, resetState := false, signaled := false }
      readers := s.readers.erase p }.goto p .idle).record (.reset p)) := by
  obtain ⟨hp, hs⟩ := h.getting p d _ hpc
  have hr := h.reader p hp
  rw [hpc] at hr
  obtain ⟨hnext, hmin, hmax, hdue⟩ := hr.limit max rfl
  have hcur := hr.cursor
  have hlen := h.max_eq
  obtain ⟨t, ht⟩ : ∃ t : ℕ, max + offset = t := ⟨(max + offset).toNat, by omega⟩
  have hle : t ≤ b.log.length := by omega
  exact ⟨_, h.finish (t := t) hpc _ (.reset (by omega) hle (by omega)) rfl rfl rfl ht hle
    (fun _ => hmin) (fun n hn ha hlt => ha max (by rw [hpc]; rfl) (by omega)) (h.read_release rfl)⟩

theorem Matches.get_resetTest (hpc : s.pc p = .get d (.resetTest max))
    (hreset : (s.seg.procState p).resetState = false) :
    Matches b offset (s.goto p (.get d (.copy max []))) :=
  h.goOn hpc (s.seg.procState p) (.copy max []) (s.seg.setProc_procState p).symm rfl rfl
    (fun hr => ⟨hr.cursor, hr.copied, hr.le, hr.window, hr.limit, nofun, fun _ _ _ _ => hreset⟩)
    (fun _ _ ha => ha) (h.read_same hpc rfl)

end

theorem prefix_concat {l l' : List Msg} {x : Msg} (h : l <+: l') (hx : l'[l.length]? = some x) :
    l ++ [x] <+: l' := by
  obtain ⟨r, rfl⟩ := h
  cases r with
  | nil => simp at hx
  | cons y r =>
    obtain rfl : y = x := by simpa using hx
    exact ⟨r, by simp⟩

theorem Matches.buffer_eq (h : Matches b offset s) {m : ℤ} {k : ℕ} (hk : m + offset = k)
    (hmin : s.seg.minMsgNum ≤ m) (hmax : m < s.seg.maxMsgNum) :
    b.log[k]? = some (s.seg.buffer (m % maxNumMessages).toNat) := by
  have hlen := h.max_eq
  have hpos := h.bounded.nonneg
  rw [h.ring.of_append k (by omega) (by omega)]
  obtain ⟨j, hj⟩ := h.dvd
  congr 2
  obtain ⟨m, rfl⟩ := Int.eq_ofNat_of_zero_le (hpos.trans hmin)
  obtain rfl : k = m + maxNumMessages * j := by omega
  rw [Nat.add_mul_mod_self_left]
  omega

section

variable (h : Matches b offset s) (hpc : s.pc p = .get d (.copy max data))
include h hpc

theorem Matches.get_copy (hlt : (s.seg.procState p).nextMsgNum < max) :
    Matches b offset ({ s with seg := s.seg.setProc p { s.seg.procState p with
      nextMsgNum := (s.seg.procState p).nextMsgNum + 1 } }.goto p (.get d (.copy max
        (data ++ [s.seg.buffer ((s.seg.procState p).nextMsgNum % maxNumMessages).toNat])))) := by
  obtain ⟨hp, hs⟩ := h.getting p d _ hpc
  refine h.goOn hpc _ _ rfl rfl rfl (fun hr => ?_) (fun n hn ha => ha) (h.read_same hpc rfl)
  have hreset := hr.copying d max data rfl
  have hmin := hr.window hs hreset
  obtain ⟨hnext, hmin', hmax, hdue⟩ := hr.limit max rfl
  have hcur := hr.cursor
  simp only [Pc.copied] at hcur
  have hx := h.buffer_eq (k := b.taken p + data.length) (by omega) hmin (by omega)
  refine ⟨?_, prefix_concat hr.copied ?_, hr.le, fun _ _ => ?_, fun m hm => ?_, nofun,
    fun _ _ _ _ => ?_⟩
  · simp only [SISeg.setProc_self, Pc.copied, length_append, length_singleton]
    omega
  · rw [List.getElem?_drop]
    exact hx
  · exact hmin.trans (by simp)
  · obtain rfl := Option.some.inj hm
    rw [SISeg.setProc_self]
    exact ⟨hlt, hmin', hmax, hdue⟩
  · rw [SISeg.setProc_self]
    exact hreset

theorem Matches.get_return (hend : ¬ (data.length < d ∧ (s.seg.procState p).nextMsgNum < max)) :
    ∃ b', Matches b' offset (({ s with
      seg := s.seg.setProc p
        (if max ≤ (s.seg.procState p).nextMsgNum then { s.seg.procState p with signaled := false }
        else { s.seg.procState p with hasMessages := true })
      readers := s.readers.erase p }.goto p .idle).record (.returned p data d)) := by
  obtain ⟨hp, hs⟩ := h.getting p d _ hpc
  have hr := h.reader p hp
  rw [hpc] at hr
  have hreset := hr.copying d max data rfl
  have hmin := hr.window hs hreset
  obtain ⟨hnext, hmin', hmax, hdue⟩ := hr.limit max rfl
  have hcur := hr.cursor
  have hlen := h.max_eq
  simp only [Pc.copied] at hcur
  refine ⟨_, h.finish (t := b.taken p + data.length) hpc _
    (.returned hr.copied fun hlt => ?_) rfl ?_ ?_ ?_ (by omega) (fun _ => ?_) (fun n hn ha hlt => ?_)
    (h.read_release rfl)⟩
  · omega
  · split <;> rfl
  · split <;> rfl
  · split <;> exact mod_cast hcur
  · split <;> exact hmin
  · split
    · exact ha max (by rw [hpc]; rfl) (by omega)
    · rfl

end

end Get

end Steps

end Sinval

end PostgreSieve
