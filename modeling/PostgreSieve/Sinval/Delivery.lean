import PostgreSieve.Sinval.Board

/-! # Delivery of invalidation messages

The steps of the writers and of `SICleanupQueue` follow the conceptual queue as well, and so does
every run.
-/

namespace PostgreSieve

open Function List Option

namespace Sinval

variable {Msg : Type*}

section Steps

variable {b b' : Board Msg} {offset n : ℕ} {g g' : SISeg Msg} {s : Sys Msg} {p q : ℕ} {pc pc' : Pc Msg}

/-! ## Steps of `SIInsertDataEntries` with the write lock -/

section Write

variable {st : ProcState} {max : ℤ} {m : Msg} {todo stored rest : List Msg} {i : ℕ}

theorem Pc.outside_of_writing (h : pc.writing = true) : pc.Outside := by
  rintro d c rfl
  cases h

theorem Pc.room_of_not_writing {lo hi : ℤ} (h : pc.writing = false) : pc.Room lo hi := by
  unfold Room
  split
  · cases h
  · cases h
  · trivial

theorem Matches.not_writing (h : Matches b offset s) (hp : (s.pc p).writing = true) (hq : q ≠ p) :
    (s.pc q).writing = false := by
  rw [← Bool.not_eq_true, h.write q, (h.write p).mp hp]
  simpa using hq.symm

theorem alert_update (ho : (s.pc p).Outside) (ho' : pc.Outside) :
    Alert offset st (update s.pc p pc q) n ↔ Alert offset st (s.pc q) n := by
  rcases eq_or_ne q p with rfl | hq
  · simp only [Alert, update_self, Pc.reach_of_not_reading ho.reading,
      Pc.reach_of_not_reading ho'.reading]
  · rw [update_of_ne hq]

variable (h : Matches b offset s)
include h

section

variable (hp : (s.pc p).writing = true)
include hp

/-- A step of the writer `p` that keeps the counters of the backends. -/
theorem Matches.writer (b' : Board Msg) (g' : SISeg Msg) {writeLock : Option ℕ}
    {history : List (Event Msg)} (ho : pc.Outside) (hexplains : Board.Explains history b')
    (htaken : b'.taken = b.taken) (hdue : b'.due = b.due) (hlog : b.log <+: b'.log)
    (hsettled : b.settled ≤ b'.settled) (hsettled' : b'.settled ≤ b'.log.length)
    (hmax : g'.maxMsgNum + offset = b'.log.length) (hmin : g'.minMsgNum = s.seg.minMsgNum)
    (hfull : g'.maxMsgNum ≤ g'.minMsgNum + maxNumMessages) (hprocs : g'.pgprocnos = s.seg.pgprocnos)
    (hsame : ∀ q, (g'.procState q).procPid = (s.seg.procState q).procPid ∧
      (g'.procState q).nextMsgNum = (s.seg.procState q).nextMsgNum ∧
      (g'.procState q).sendOnly = (s.seg.procState q).sendOnly ∧
      (g'.procState q).resetState = (s.seg.procState q).resetState)
    (halert : ∀ q ∈ s.seg.pgprocnos, (s.seg.procState q).sendOnly = false →
      Alert offset (g'.procState q) (s.pc q) b'.settled)
    (hroom : pc.Room g'.minMsgNum g'.maxMsgNum)
    (hkick : ∀ i rest, pc = .insert (.kick i rest) → ∀ q ∈ s.seg.pgprocnos.take i,
      (s.seg.procState q).sendOnly = false → Alert offset (g'.procState q) (s.pc q) b'.log.length)
    (hwrite : ∀ q, (update s.pc p pc q).writing = true ↔ writeLock = some q)
    (hstored : (writeLock.map fun w => (update s.pc p pc w).stored).getD [] = pc.stored)
    (hring : Ring.Holds maxNumMessages g'.buffer (b'.log ++ pc.stored)
      (s.seg.minMsgNum + offset).toNat) :
    Matches b' offset ⟨g', writeLock, s.readers, update s.pc p pc, history⟩ := by
  have hout := Pc.outside_of_writing hp
  have hsend : ∀ q, (g'.procState q).sendOnly = (s.seg.procState q).sendOnly :=
    fun q => (hsame q).2.2.1
  have hgrow : s.seg.maxMsgNum ≤ g'.maxMsgNum := by
    have := h.max_eq
    have := hlog.length_le
    omega
  have hbound : Bounded g'.minMsgNum g'.maxMsgNum := by
    rw [hmin] at hfull ⊢
    exact ⟨h.bounded.nonneg, h.bounded.min_le.trans hgrow, hfull, h.bounded.min_lt⟩
  refine ⟨hexplains, h.dvd, hmax, hbound, hsettled', hprocs ▸ h.nodup, fun q => ?_,
    fun q hq => ?_, fun q hq hs => ?_, fun q d c hc => ?_, fun q => ?_, fun w i rest hw q hq hs => ?_,
    hwrite, h.read_same rfl ?_, ?_⟩
  · simp only [hprocs, h.active, (hsame q).1]
  · obtain ⟨-, hnext, hs, hreset⟩ := hsame q
    have hr := (h.reader q (hprocs ▸ hq)).mono hnext hs hreset hmin hgrow hlog hsettled
      (congrFun htaken q) (congrFun hdue q)
    rcases eq_or_ne q p with rfl | hne
    · simp only [update_self]
      exact hr.outside hout ho
    · simp only [update_of_ne hne]
      exact hr
  · exact (alert_update hout ho).mpr (halert q (hprocs ▸ hq) (hsend q ▸ hs))
  · rcases eq_or_ne q p with rfl | hne
    · simp only [update_self] at hc
      exact absurd hc (ho d c)
    · simp only [update_of_ne hne] at hc
      simp only [hprocs, hsend]
      exact h.getting q d c hc
  · rcases eq_or_ne q p with rfl | hne
    · simpa using hroom
    · simp only [update_of_ne hne]
      exact Pc.room_of_not_writing (h.not_writing hp hne)
  · rcases eq_or_ne w p with rfl | hne
    · simp only [update_self] at hw
      exact (alert_update hout ho).mpr (hkick i rest hw q (hprocs ▸ hq) (hsend q ▸ hs))
    · simp only [update_of_ne hne] at hw
      have hf := h.not_writing hp hne
      rw [hw] at hf
      cases hf
  · rw [ho.reading, hout.reading]
  · rw [← hstored, ← hmin] at hring
    exact hring

theorem Matches.stored_eq :
    s.stored = (s.pc p).stored := by
  simp [Sys.stored, (h.write p).mp hp]

theorem Matches.stored_update :
    (s.writeLock.map fun w => (update s.pc p pc w).stored).getD [] = pc.stored := by
  simp [(h.write p).mp hp]

end

theorem Matches.insert_store (hpc : s.pc p = .insert (.store max (m :: todo) stored rest)) :
    Matches b offset ({ s with seg := { s.seg with
      buffer := update s.seg.buffer (max % maxNumMessages).toNat m } }.goto p
        (.insert (.store (max + 1) todo (stored ++ [m]) rest))) := by
  have hw : (s.pc p).writing = true := by rw [hpc]; rfl
  have hroom := h.room p
  rw [hpc] at hroom
  obtain ⟨hmax, hfits⟩ := hroom
  rw [length_cons] at hfits
  have hring := h.ring
  have hlen := h.max_eq
  have hpos := h.bounded.nonneg
  have hle := h.bounded.min_le
  rw [h.stored_eq hw, hpc] at hring
  have hstore := hring.store (x := m) (by
    simp only [Pc.stored, length_append]
    omega)
  have hidx : (max % maxNumMessages).toNat =
      (b.log ++ (Pc.insert (.store max (m :: todo) stored rest)).stored).length %
        maxNumMessages := by
    obtain ⟨j, hj⟩ := h.dvd
    simp only [Pc.stored, length_append]
    obtain ⟨k, rfl⟩ := Int.eq_ofNat_of_zero_le (show 0 ≤ max by omega)
    rw [show b.log.length + stored.length = k + maxNumMessages * j by omega,
      Nat.add_mul_mod_self_left]
    omega
  rw [← hidx] at hstore
  refine h.writer hw b _ nofun h.explains rfl rfl prefix_rfl le_rfl h.settled_le h.max_eq rfl
    h.bounded.max_le rfl (fun q => ⟨rfl, rfl, rfl, rfl⟩) h.alert ?_ nofun
    (h.write_same hpc rfl) (h.stored_update hw) ?_
  · simp only [Pc.Room, length_append, length_singleton]
    omega
  · rw [append_assoc] at hstore
    exact hstore

theorem Matches.insert_publish (hpc : s.pc p = .insert (.publish max stored rest)) :
    ∃ b', Matches b' offset (({ s with seg := { s.seg with maxMsgNum := max } }.goto p
      (.insert (.kick 0 rest))).record (.inserted stored)) := by
  have hw : (s.pc p).writing = true := by rw [hpc]; rfl
  have hroom := h.room p
  rw [hpc] at hroom
  obtain ⟨hmax, hfits⟩ := hroom
  have hlen := h.max_eq
  have hring := h.ring
  rw [h.stored_eq hw, hpc] at hring
  refine ⟨_, h.writer hw _ { s.seg with maxMsgNum := max } nofun (h.explains.cons .inserted) rfl rfl
    (prefix_append _ _) le_rfl ?_ ?_ rfl hfits rfl (fun q => ⟨rfl, rfl, rfl, rfl⟩) h.alert
    trivial ?_ (h.write_same hpc rfl) (h.stored_update hw) ?_⟩
  · exact h.settled_le.trans (by simp)
  · simp only [length_append]
    omega
  · rintro i rest he q hq
    cases he
    simp at hq
  · simp only [Pc.stored, append_nil] at hring ⊢
    exact hring

theorem Matches.insert_kick (hpc : s.pc p = .insert (.kick i rest))
    (hq : s.seg.pgprocnos[i]? = some q) :
    Matches b offset ({ s with
      seg := s.seg.setProc q { s.seg.procState q with hasMessages := true } }.goto p
        (.insert (.kick (i + 1) rest))) := by
  have hw : (s.pc p).writing = true := by rw [hpc]; rfl
  have hmono : ∀ r n, Alert offset (s.seg.procState r) (s.pc r) n → Alert offset
      ((s.seg.setProc q { s.seg.procState q with hasMessages := true }).procState r) (s.pc r) n := by
    intro r n ha
    rcases eq_or_ne r q with rfl | hne
    · rw [SISeg.setProc_self]
      exact fun _ _ _ => rfl
    · rw [SISeg.setProc_of_ne _ hne]
      exact ha
  have hring := h.ring
  rw [h.stored_eq hw, hpc] at hring
  refine h.writer hw b _ nofun h.explains rfl rfl prefix_rfl le_rfl h.settled_le h.max_eq rfl
    h.bounded.max_le rfl (fun r => ?_) (fun r hr hs => hmono r _ (h.alert r hr hs)) trivial ?_
    (h.write_same hpc rfl) (h.stored_update hw) hring
  · rcases eq_or_ne r q with rfl | hne
    · simp
    · simp [SISeg.setProc_of_ne _ hne]
  · rintro _ _ he r hr hs
    cases he
    rw [take_add_one, hq, toList_some, mem_append, mem_singleton] at hr
    rcases hr with hr | rfl
    · exact hmono r _ (h.kicked p i rest hpc r hr hs)
    · rw [SISeg.setProc_self]
      exact fun _ _ _ => rfl

theorem Matches.insert_sent (hpc : s.pc p = .insert (.kick i rest))
    (hq : s.seg.pgprocnos[i]? = none) :
    ∃ b', Matches b' offset (({ s with writeLock := none }.goto p
      (.insert (.loop rest))).record .sent) := by
  have hw : (s.pc p).writing = true := by rw [hpc]; rfl
  have hring := h.ring
  rw [h.stored_eq hw, hpc] at hring
  refine ⟨_, h.writer hw _ s.seg nofun (h.explains.cons .sent) rfl rfl prefix_rfl h.settled_le
    le_rfl h.max_eq rfl h.bounded.max_le rfl (fun q => ⟨rfl, rfl, rfl, rfl⟩)
    (fun q hmem hs => ?_) trivial nofun (h.write_release hw rfl) rfl hring⟩
  -- the flag of every backend has been set
  apply h.kicked p i rest hpc q _ hs
  rwa [take_of_length_le (List.getElem?_eq_none_iff.mp hq)]

end Write

/-! ## `SICleanupQueue` -/

section

variable (h : Matches b offset s)
include h

/-- With both locks held nobody reads, and the counters may be decremented. -/
theorem Matches.cleaned (hp : (s.pc p).writing = true) (hempty : s.readers = ∅)
    (hst : (s.pc p).stored = []) {w : ℕ} (hc : s.seg.Cleaned g' w) {writeLock : Option ℕ}
    (ho : pc.Outside) (hroom : pc.Room g'.minMsgNum g'.maxMsgNum)
    (hkick : ∀ i rest, pc ≠ .insert (.kick i rest))
    (hwrite : ∀ q, (update s.pc p pc q).writing = true ↔ writeLock = some q)
    (hstored : (writeLock.map fun w => (update s.pc p pc w).stored).getD [] = []) :
    Matches b (offset + w)
      ⟨g', writeLock, s.readers, update s.pc p pc, s.history⟩ := by
  have hout := Pc.outside_of_writing hp
  have hread : ∀ q, (update s.pc p pc q).reading = true ↔ q ∈ s.readers :=
    h.read_same rfl (by rw [ho.reading, hout.reading])
  have hnot : ∀ q, (s.pc q).reading = false := fun q => by
    rw [← Bool.not_eq_true, h.read q, hempty]
    exact Finset.notMem_empty q
  have hlen := h.max_eq
  have hmax := hc.max_eq
  have hact : ∀ q ∈ s.seg.pgprocnos, ∀ n, Alert offset (s.seg.procState q) (s.pc q) n →
      Alert (offset + w) (g'.procState q) (s.pc q) n := by
    intro q hq n ha m hm hlt
    rw [Pc.reach_of_not_reading (hnot q), hc.next q hq] at hm
    obtain rfl := some.inj hm
    rw [(hc.same q).2.2]
    exact ha _ (Pc.reach_of_not_reading (hnot q) _) (by omega)
  refine ⟨h.explains, Nat.dvd_add h.dvd hc.dvd, ?_, hc.bounded, h.settled_le, ?_, fun q => ?_,
    fun q hq => ?_, fun q hq hs => ?_, fun q d c hq => ?_, fun q => ?_,
    fun v i rest hv => ?_, hwrite, hread, ?_⟩
  · push_cast
    omega
  · simpa only [hc.pgprocnos_eq] using h.nodup
  · simp only [hc.pgprocnos_eq, (hc.same q).1, h.active q]
  · simp only [hc.pgprocnos_eq] at hq
    have hr := h.reader q hq
    have hcur := hr.cursor
    rw [Pc.copied_of_not_reading (hnot q)] at hcur
    have hr' : Reader b (offset + w) g' (s.pc q) q := by
      refine ⟨?_, hr.copied, hr.le, hc.window q hq, fun m hm => ?_, hr.due, fun d m data he => ?_⟩
      · rw [Pc.copied_of_not_reading (hnot q), hc.next q hq]
        omega
      · rw [Pc.limit_of_not_reading (hnot q)] at hm
        cases hm
      · have := hnot q
        rw [he] at this
        cases this
    rcases eq_or_ne q p with rfl | hne
    · simp only [update_self]
      exact hr'.outside hout ho
    · simp only [update_of_ne hne]
      exact hr'
  · simp only [hc.pgprocnos_eq, (hc.same q).2.1] at hq hs
    exact (alert_update hout ho).mpr (hact q hq _ (h.alert q hq hs))
  · simp only [hc.pgprocnos_eq, (hc.same q).2.1]
    rcases eq_or_ne q p with rfl | hne
    · simp only [update_self] at hq
      exact absurd hq (ho d c)
    · simp only [update_of_ne hne] at hq
      exact h.getting q d c hq
  · rcases eq_or_ne q p with rfl | hne
    · simpa using hroom
    · simp only [update_of_ne hne]
      exact Pc.room_of_not_writing (h.not_writing hp hne)
  · rcases eq_or_ne v p with rfl | hne
    · simp only [update_self] at hv
      exact absurd hv (hkick i rest)
    · simp only [update_of_ne hne] at hv
      have hf := h.not_writing hp hne
      rw [hv] at hf
      cases hf
  · have hring := h.ring
    rw [h.stored_eq hp, hst, ← hstored, ← hc.buffer_eq] at hring
    apply hring.mono
    have := hc.le_min
    push_cast
    omega

theorem Matches.exists_cleaned (minFree : ℕ) :
    ∃ w, s.seg.Cleaned (s.seg.siCleanupQueue minFree).1 w :=
  SISeg.siCleanupQueue_cleaned h.bounded h.nodup (fun q hq => (h.reader q hq).window) minFree

/-! ## Joining and leaving -/

theorem Matches.not_kick (hfree : s.writeLock = none) {i : ℕ} {rest : List Msg} :
    s.pc q ≠ .insert (.kick i rest) := by
  intro he
  have hw := (h.write q).mp (by rw [he]; rfl)
  rw [hfree] at hw
  cases hw

theorem Matches.init (hpc : s.pc p = .idle) (hfree : s.writeLock = none) {pid : ℕ} (hpid : pid ≠ 0)
    (hold : (s.seg.procState p).procPid = 0) (sendOnly : Bool) :
    ∃ b', Matches b' offset ({ s with
      seg := { s.seg.setProc p ⟨pid, s.seg.maxMsgNum, false, false, false, sendOnly⟩ with
        pgprocnos := s.seg.pgprocnos ++ [p] } }.record (.joined p sendOnly)) := by
  have hp : p ∉ s.seg.pgprocnos := fun hm => (h.active p).mp hm hold
  have hne : ∀ q ∈ s.seg.pgprocnos, q ≠ p := fun q hq he => hp (he ▸ hq)
  have hlen := h.max_eq
  have hset := h.settled_le
  have hst := SISeg.setProc_self (g := s.seg) (p := p)
    ⟨pid, s.seg.maxMsgNum, false, false, false, sendOnly⟩
  refine ⟨_, h.explains.cons .joined, h.dvd, h.max_eq, h.bounded, h.settled_le, ?_, fun q => ?_,
    fun q hq => ?_, fun q hq hs => ?_, fun q d c hq => ?_, h.room, fun w i rest hw => ?_, h.write,
    h.read, h.ring⟩
  · exact nodup_append.mpr ⟨h.nodup, nodup_singleton p, by simpa using hne⟩
  · simp only [Sys.record, mem_append, mem_singleton, h.active q]
    rcases eq_or_ne q p with rfl | hq
    · simp [hpid]
    · simp [SISeg.setProc_of_ne _ hq, hq]
  · rcases mem_append.mp hq with hq | hq
    · have he := SISeg.setProc_of_ne (g := s.seg) (p := p)
        ⟨pid, s.seg.maxMsgNum, false, false, false, sendOnly⟩ (hne q hq)
      exact (h.reader q hq).mono (by simp only [Sys.record, he]) (by simp only [Sys.record, he])
        (by simp only [Sys.record, he]) rfl le_rfl prefix_rfl le_rfl
        (update_of_ne (hne q hq) ..) rfl
    · obtain rfl := mem_singleton.mp hq
      simp only [Sys.record, hpc]
      refine ⟨?_, nil_prefix, ?_, fun _ _ => ?_, nofun, nofun, nofun⟩
      · simp only [hst, update_self, Pc.copied, length_nil]
        omega
      · simp
      · rw [hst]
        exact h.bounded.min_le
  · simp only [Sys.record] at hs ⊢
    rcases mem_append.mp hq with hq | hq
    · rw [SISeg.setProc_of_ne _ (hne q hq)] at hs ⊢
      exact h.alert q hq hs
    · obtain rfl := mem_singleton.mp hq
      rw [hst, hpc]
      intro m hm hlt
      obtain rfl := some.inj hm
      exact absurd hlt (by simp only; omega)
  · obtain ⟨hmem, hs⟩ := h.getting q d c hq
    simp only [Sys.record]
    rw [SISeg.setProc_of_ne _ (hne q hmem)]
    exact ⟨mem_append_left _ hmem, hs⟩
  · exact absurd hw (h.not_kick hfree)

theorem Matches.exit (hpc : s.pc p = .idle) (hfree : s.writeLock = none) {l : List ℕ}
    (hl : (p :: l).Perm s.seg.pgprocnos) :
    ∃ b', Matches b' offset ({ s with
      seg := { s.seg.setProc p { s.seg.procState p with
          procPid := 0, nextMsgNum := 0, resetState := false, signaled := false } with
        pgprocnos := l } }.record (.left p)) := by
  obtain ⟨hp, hnd⟩ := nodup_cons.mp (hl.nodup_iff.mpr h.nodup)
  have hne : ∀ q ∈ l, q ≠ p := fun q hq he => hp (he ▸ hq)
  have hmem : ∀ q ∈ l, q ∈ s.seg.pgprocnos := fun q hq => hl.mem_iff.mp (mem_cons_of_mem p hq)
  refine ⟨b, h.explains.cons .left, h.dvd, h.max_eq, h.bounded, h.settled_le, hnd, fun q => ?_,
    fun q hq => ?_, fun q hq hs => ?_, fun q d c hq => ?_, h.room, fun w i rest hw => ?_, h.write,
    h.read, h.ring⟩
  · simp only [Sys.record]
    rcases eq_or_ne q p with rfl | hq
    · simp [hp]
    · rw [SISeg.setProc_of_ne _ hq, ← h.active q, ← hl.mem_iff]
      simp [hq]
  · have he := SISeg.setProc_of_ne (g := s.seg) { s.seg.procState p with
          procPid := 0, nextMsgNum := 0, resetState := false, signaled := false } (hne q hq)
    exact (h.reader q (hmem q hq)).mono (by simp only [Sys.record, he])
      (by simp only [Sys.record, he]) (by simp only [Sys.record, he]) rfl le_rfl prefix_rfl
      le_rfl rfl rfl
  · simp only [Sys.record] at hs ⊢
    rw [SISeg.setProc_of_ne _ (hne q hq)] at hs ⊢
    exact h.alert q (hmem q hq) hs
  · obtain ⟨hm, hs⟩ := h.getting q d c hq
    have hq' : q ≠ p := by
      rintro rfl
      simp [Sys.record, hpc] at hq
    simp only [Sys.record]
    rw [SISeg.setProc_of_ne _ hq']
    exact ⟨(mem_cons.mp (hl.mem_iff.mpr hm)).resolve_left hq', hs⟩
  · exact absurd hw (h.not_kick hfree)

end

/-! ## Every step -/

variable {t : Sys Msg} {slots : ℕ}

section

variable (h : Matches b offset s)
include h

theorem Matches.failed (message : String) :
    Matches b offset (s.record (.failed p message)) :=
  { h with explains := h.explains.cons .failed }

theorem Matches.call_get (hpc : s.pc p = .idle) (d : ℕ)
    (hp : p ∈ s.seg.pgprocnos) (hs : (s.seg.procState p).sendOnly = false) :
    ∃ b', Matches b' offset ((s.goto p (.get d .test)).record (.called p)) := by
  refine ⟨_, h.own { b with due := update b.due p b.settled } p (s.seg.procState p)
    (.get d .test) (s.seg.setProc_procState p).symm rfl rfl (h.explains.cons .called) rfl rfl
    (fun q hq => by simp [hq]) (fun hp => ?_) (fun n _ ha => by rw [hpc] at ha; exact ha)
    (fun _ _ _ => ⟨hp, hs⟩) trivial nofun (h.write_same hpc rfl) (h.read_same hpc rfl)
    (Sys.stored_same hpc rfl)⟩
  have hr := h.reader p hp
  rw [hpc] at hr
  exact ⟨hr.cursor, hr.copied, hr.le, hr.window, nofun, fun _ _ _ _ => by simp, nofun⟩

theorem Matches.call (hpc : s.pc p = .idle) (op : Op Msg)
    (ht : s.call slots p op = some t) : ∃ b', Matches b' offset t := by
  cases op with
  | init pid sendOnly =>
    simp only [Sys.call] at ht
    split at ht
    · cases ht
    · rename_i hpid
      split at ht
      · obtain rfl := some.inj ht
        exact ⟨b, h.failed _⟩
      · split at ht
        · rename_i hfree
          by_cases hold : (s.seg.procState p).procPid = 0
          · simp only [SISeg.sharedInvalBackendInit, hold, ne_eq, not_true_eq_false, if_false] at ht
            obtain rfl := some.inj ht
            exact h.init hpc hfree hpid hold sendOnly
          · simp only [SISeg.sharedInvalBackendInit, ne_eq, hold, not_false_eq_true, if_true] at ht
            obtain rfl := some.inj ht
            exact ⟨b, h.failed _⟩
        · cases ht
  | exit =>
    simp only [Sys.call] at ht
    split at ht
    · rename_i hact
      obtain ⟨l, hl, hperm⟩ := exists_removeProc ((h.active p).mpr hact.1)
      have hl' : removeProc (s.seg.setProc p { s.seg.procState p with
        procPid := 0, nextMsgNum := 0, resetState := false, signaled := false }).pgprocnos p =
        some l := hl
      simp only [SISeg.cleanupInvalidationState, hl'] at ht
      obtain rfl := some.inj ht
      exact h.exit hpc hact.2 hperm
    · cases ht
  | insert data =>
    obtain rfl := some.inj ht
    exact ⟨b, h.goto hpc nofun nofun trivial nofun rfl rfl⟩
  | get d =>
    simp only [Sys.call] at ht
    split at ht
    · rename_i hact
      obtain rfl := some.inj ht
      exact h.call_get hpc d ((h.active p).mpr hact.1) hact.2
    · cases ht
  | cleanup minFree =>
    obtain rfl := some.inj ht
    exact ⟨b, h.goto hpc nofun nofun trivial nofun rfl rfl⟩

theorem Matches.insert {c : InsertPc Msg} (hpc : s.pc p = .insert c)
    (ht : s.siInsertDataEntries p c = some t) : ∃ b' offset', Matches b' offset' t := by
  cases c with
  | loop data =>
    cases data with
    | nil =>
      obtain rfl := some.inj ht
      exact ⟨b, offset, h.goto hpc nofun nofun trivial nofun rfl rfl⟩
    | cons m data =>
      simp only [Sys.siInsertDataEntries] at ht
      split at ht
      · rename_i hfree
        obtain rfl := some.inj ht
        exact ⟨b, offset, h.acquire hpc nofun nofun trivial nofun hfree rfl rfl⟩
      · cases ht
  | check now rest =>
    simp only [Sys.siInsertDataEntries] at ht
    split at ht
    · obtain rfl := some.inj ht
      exact ⟨b, offset, h.goto hpc nofun nofun trivial nofun rfl rfl⟩
    · obtain rfl := some.inj ht
      refine ⟨b, offset, h.goto hpc nofun nofun ?_ nofun rfl rfl⟩
      simp only [Pc.Room, length_nil]
      omega
  | cleanup now rest =>
    have hw : (s.pc p).writing = true := by rw [hpc]; rfl
    obtain ⟨w, hc⟩ := h.exists_cleaned now.length
    simp only [Sys.siInsertDataEntries] at ht
    split at ht
    · rename_i hempty
      have hst : (s.pc p).stored = [] := by rw [hpc]; rfl
      split at ht
      all_goals
        rename_i he
        rw [he] at hc
        obtain rfl := some.inj ht
      · exact ⟨b, offset + w, h.cleaned hw hempty hst hc nofun trivial nofun
          (h.write_same hpc rfl) (h.stored_update hw)⟩
      · exact ⟨b, offset + w, h.cleaned hw hempty hst hc nofun trivial nofun
          (h.write_release hw rfl) rfl⟩
    · cases ht
  | signal now rest =>
    simp only [Sys.siInsertDataEntries] at ht
    split at ht
    · rename_i hfree
      obtain rfl := some.inj ht
      exact ⟨b, offset, h.acquire hpc nofun nofun trivial nofun hfree rfl rfl⟩
    · cases ht
  | store max todo stored rest =>
    cases todo with
    | nil =>
      obtain rfl := some.inj ht
      have hroom := h.room p
      rw [hpc] at hroom
      refine ⟨b, offset, h.goto hpc nofun nofun ?_ nofun rfl rfl⟩
      simpa [Pc.Room] using hroom
    | cons m todo =>
      obtain rfl := some.inj ht
      exact ⟨b, offset, h.insert_store hpc⟩
  | publish max stored rest =>
    obtain rfl := some.inj ht
    obtain ⟨b', hb'⟩ := h.insert_publish hpc
    exact ⟨b', offset, hb'⟩
  | kick i rest =>
    simp only [Sys.siInsertDataEntries] at ht
    split at ht
    · rename_i hq
      obtain rfl := some.inj ht
      exact ⟨b, offset, h.insert_kick hpc hq⟩
    · rename_i hq
      obtain rfl := some.inj ht
      obtain ⟨b', hb'⟩ := h.insert_sent hpc hq
      exact ⟨b', offset, hb'⟩

theorem Matches.get {d : ℕ} {c : GetPc Msg} (hpc : s.pc p = .get d c)
    (ht : s.siGetDataEntries p d c = some t) : ∃ b', Matches b' offset t := by
  cases c with
  | test =>
    simp only [Sys.siGetDataEntries] at ht
    split at ht
    · obtain rfl := some.inj ht
      exact ⟨b, h.get_flagged hpc⟩
    · rename_i hf
      obtain rfl := some.inj ht
      exact h.get_test hpc (Bool.not_eq_true _ ▸ hf)
  | lock =>
    obtain rfl := some.inj ht
    exact ⟨b, h.get_lock hpc⟩
  | fetchMax =>
    obtain rfl := some.inj ht
    exact ⟨b, h.get_fetchMax hpc⟩
  | resetTest max =>
    simp only [Sys.siGetDataEntries] at ht
    split at ht
    · obtain rfl := some.inj ht
      exact h.get_reset hpc
    · rename_i hf
      obtain rfl := some.inj ht
      exact ⟨b, h.get_resetTest hpc (Bool.not_eq_true _ ▸ hf)⟩
  | copy max data =>
    simp only [Sys.siGetDataEntries] at ht
    split at ht
    · rename_i hlt
      obtain rfl := some.inj ht
      exact ⟨b, h.get_copy hpc hlt.2⟩
    · rename_i hend
      obtain rfl := some.inj ht
      exact h.get_return hpc hend

theorem Matches.cleanup {minFree : ℕ} {c : CleanupPc}
    (hpc : s.pc p = .cleanup minFree c) (ht : s.siCleanupQueue p minFree c = some t) :
    ∃ offset', Matches b offset' t := by
  cases c with
  | writeLock =>
    simp only [Sys.siCleanupQueue] at ht
    split at ht
    · rename_i hfree
      obtain rfl := some.inj ht
      exact ⟨offset, h.acquire hpc nofun nofun trivial nofun hfree rfl rfl⟩
    · cases ht
  | readLock =>
    have hw : (s.pc p).writing = true := by rw [hpc]; rfl
    obtain ⟨w, hc⟩ := h.exists_cleaned minFree
    simp only [Sys.siCleanupQueue] at ht
    split at ht
    · rename_i hempty
      have hst : (s.pc p).stored = [] := by rw [hpc]; rfl
      obtain rfl := some.inj ht
      refine ⟨offset + w, ?_⟩
      cases (s.seg.siCleanupQueue minFree).2 <;>
        exact h.cleaned hw hempty hst hc nofun trivial nofun (h.write_release hw rfl) rfl
    · cases ht
  | signal =>
    obtain rfl := some.inj ht
    exact ⟨offset, h.goto hpc nofun nofun trivial nofun rfl rfl⟩

theorem Matches.step {a : Action Msg} (ht : step slots s a = some t) :
    ∃ b' offset', Matches b' offset' t := by
  cases a with
  | call p op =>
    simp only [Sinval.step] at ht
    split at ht
    · rename_i hpc
      obtain ⟨b', hb'⟩ := h.call hpc op ht
      exact ⟨b', offset, hb'⟩
    · cases ht
  | go p =>
    simp only [Sinval.step] at ht
    split at ht
    · cases ht
    · rename_i hpc
      exact h.insert hpc ht
    · rename_i hpc
      obtain ⟨b', hb'⟩ := h.get hpc ht
      exact ⟨b', offset, hb'⟩
    · rename_i hpc
      obtain ⟨offset', hb⟩ := h.cleanup hpc ht
      exact ⟨b, offset', hb⟩

end

theorem matches_start (buffer : ℕ → Msg) :
    Matches ⟨[], 0, fun _ => 0, fun _ => 0⟩ 0 (start buffer) where
  explains := .nil
  dvd := Nat.dvd_zero _
  max_eq := rfl
  bounded := ⟨le_rfl, le_rfl, show (0 : ℤ) ≤ 0 + maxNumMessages by decide,
    show (0 : ℤ) < msgNumWraparound by decide⟩
  settled_le := le_rfl
  nodup := nodup_nil
  active q := by simp [start, sharedInvalShmemInit]
  reader := nofun
  alert := nofun
  getting := nofun
  room q := trivial
  kicked := nofun
  write q := by simp [start, Pc.writing]
  read q := by simp [start, Pc.reading]
  ring := nofun

end Steps

end Sinval

/-- In every run the backends obtain the messages as from the conceptual queue, and the counters
stay in order and within 32 bits. -/
theorem sinval_delivery {Msg : Type*} (slots : ℕ) (buffer : ℕ → Msg)
    (as : List (Sinval.Action Msg)) (s : Sinval.Sys Msg)
    (h : run (Sinval.step slots) (Sinval.start buffer) as = some s) :
    (∃ b, Sinval.Board.Explains s.history b) ∧
    (∀ p, (s.seg.procState p).procPid ≠ 0 → (s.seg.procState p).sendOnly = false →
      (s.seg.procState p).resetState = false →
        s.seg.minMsgNum ≤ (s.seg.procState p).nextMsgNum ∧
        (s.seg.procState p).nextMsgNum ≤ s.seg.maxMsgNum) ∧
    s.seg.maxMsgNum ≤ s.seg.minMsgNum + Sinval.maxNumMessages ∧
    0 ≤ s.seg.minMsgNum ∧ s.seg.maxMsgNum < 2 ^ 31 := by
  obtain ⟨b, offset, hm⟩ := run_invariant (I := fun s => ∃ b offset, Sinval.Matches b offset s) h
    (along_true as _) ⟨_, _, Sinval.matches_start buffer⟩
    (fun u a v ⟨b, offset, hu⟩ _ hv => hu.step hv)
  have hbound := hm.bounded
  refine ⟨⟨b, hm.explains⟩, fun p hp hs hr => ?_, hbound.max_le, hbound.nonneg, ?_⟩
  · have hreader := hm.reader p ((hm.active p).mpr hp)
    have hcur := hreader.cursor
    have hlen := hm.max_eq
    have hle := hreader.copied.length_le
    have htaken := hreader.le
    rw [length_drop] at hle
    exact ⟨hreader.window hs hr, by omega⟩
  · have hlt := hbound.min_lt
    have hle := hbound.max_le
    have hW : (Sinval.msgNumWraparound : ℤ) + Sinval.maxNumMessages < 2 ^ 31 := by decide
    omega

/-- Backend 1 sends two messages and backend 0 obtains them with two calls. -/
theorem sinval_delivery_two : ∃ s : Sinval.Sys ℕ,
    Reachable (Sinval.step 2) (Sinval.start fun _ => 0) s ∧
    s.history = [.returned 0 [8] 2, .called 0, .returned 0 [7] 1, .called 0, .sent,
      .inserted [7, 8], .joined 1 true, .joined 0 false] ∧
    (∃ b, Sinval.Board.Explains s.history b) ∧
    s.seg.maxMsgNum ≤ s.seg.minMsgNum + Sinval.maxNumMessages := by
  have hrun : (run (Sinval.step 2) (Sinval.start fun _ => 0)
      ([.call 0 (.init 10 false), .call 1 (.init 11 true), .call 1 (.insert [7, 8])] ++
        List.replicate 9 (.go 1) ++ [.call 0 (.get 1)] ++ List.replicate 6 (.go 0) ++
        [.call 0 (.get 2)] ++ List.replicate 6 (.go 0))).map Sinval.Sys.history =
      some [.returned 0 [8] 2, .called 0, .returned 0 [7] 1, .called 0, .sent,
        .inserted [7, 8], .joined 1 true, .joined 0 false] := by decide +kernel
  obtain ⟨s, hs, hh⟩ := map_eq_some_iff.mp hrun
  obtain ⟨hb, -, hmax, -⟩ := sinval_delivery 2 (fun _ => 0) _ s hs
  exact ⟨s, ⟨_, hs⟩, hh, hb, hmax⟩

end PostgreSieve
