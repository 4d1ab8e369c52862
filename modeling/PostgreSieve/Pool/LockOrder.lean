import PostgreSieve.Pool.Lists

/-! # The strategy lock and the header locks

`InvalidateBuffer` calls `StrategyNotifyInvalidate` with the header of the buffer locked.
`LRUGetBuffer` waits for a locked header with `buffer_strategy_lock` held, while SIEVE and
LFU skip locked headers. So a lock-order deadlock is possible with LRU only, and only if
the two meet at the same buffer.
-/

namespace PostgreSieve

open Function

section Holder

variable {π : Type} {c : ℕ}

theorem Pc.Formed.holder {pc : Pc π} (hf : pc.Formed) (h : pc.duty.hdr = some c) :
    (∃ n, pc = .unlockBufHdr c n) ∨ (∃ w u n, pc = .unlockBufHdrExt c w u n) ∨
      (∃ t n, pc = .writeTag c t n) ∨ ∃ n, pc = .notify .invalidate c n := by
  cases pc with
  | unlockBufHdr b next => cases h; exact .inl ⟨next, rfl⟩
  | unlockBufHdrExt b w u next =>
    obtain rfl : b = c := by cases u <;> exact Option.some.inj h
    exact .inr (.inl ⟨w, u, next, rfl⟩)
  | writeTag b t next =>
    obtain ⟨-, w, u, n, rfl⟩ := hf
    obtain rfl : b = c := by cases u <;> exact Option.some.inj h
    exact .inr (.inr (.inl ⟨t, _, rfl⟩))
  | notify k b next =>
    cases k with
    | hit => cases hf.2.1.symm.trans h
    | insert => cases hf.2.1.1.symm.trans h
    | invalidate =>
      obtain ⟨hn, t, n, rfl⟩ := hf
      obtain ⟨-, w, u, n, rfl⟩ := hn
      obtain rfl : b = c := by cases u <;> exact Option.some.inj h
      exact .inr (.inr (.inr ⟨_, rfl⟩))
  | pinBuffer | pinLoop | startBufferIo => cases hf.2.2.1.1.symm.trans h
  | invalidateVictimBuffer | lockVictim => cases hf.2.2.2.1.1.symm.trans h
  | unpinBuffer | unpinVictim | terminateBufferIo => cases hf.2.1.1.symm.trans h
  | wakePinCountWaiter | lockInstall | lwExclusive | lwRelease | bufTableDelete | flushLsn
  | flushWrite | clearValid => cases hf.2.1.symm.trans h
  | _ => cases h

theorem Pc.Formed.hdr_of_invalidate {b : ℕ} {next : Pc π}
    (hf : (Pc.notify .invalidate b next).Formed) :
    (Pc.notify .invalidate b next).duty.hdr = some b := by
  obtain ⟨hn, t, n, rfl⟩ := hf
  obtain ⟨-, w, u, n, rfl⟩ := hn
  cases u <;> rfl

end Holder

section Arrival

variable {V : EvictionVtable} {Pid : Type} [DecidableEq Pid] {N : ℕ} {hash : BufferTag → ℕ}
  {p : Pid} {P P' : Pool V Pid} {x x' : Backend V} {c : ℕ} {next : Pc V.Pc} {i : Instr V}

theorem execGet_hdr {k : VictimFor} {g : GetInstr V.State V.Pc}
    (he : execGet p P x k g = some (P', x')) : x'.pc.duty.hdr = none := by
  cases execGet_cases he <;> rfl

/-- A backend gets a header lock by `LockBufHdr` only. -/
theorem exec_hdr (hd : i.Disciplined x.pc) (hn : x.pc.duty.hdr = none)
    (he : exec N hash p P x i = some (P', x')) :
    x'.pc.duty.hdr = none ∨ ∃ b k, i = .lockBufHdr b k := by
  cases i with
  | goto | setRing | clearValid | tableDelete => cases he; exact .inl (hd.hdr.trans hn)
  | raise => cases he; exact .inl rfl
  | load | readTag => cases he; exact .inl ((hd _).hdr.trans hn)
  | await =>
    cases ((Option.ite_none_left_eq_some ..).mp he).2
    exact .inl ((hd _).hdr.trans hn)
  | policy k g => exact .inl (execGet_hdr he)
  | pinFirst b held fresh =>
    obtain ⟨hheld, hfresh⟩ := hd (P.state b)
    simp only [exec] at he
    split at he <;> cases he
    · exact .inl (hheld.hdr.trans hn)
    · exact .inl (hfresh.hdr.trans hn)
  | checkUnpinned | lwExclusive =>
    cases ((Option.ite_none_right_eq_some ..).mp he).2
    exact .inl (hd.hdr.trans hn)
  | cas b old op ok fail =>
    simp only [exec] at he
    split at he <;> cases he
    · cases op with
      | claim =>
        obtain ⟨-, -, -, ⟨k, rfl⟩, -⟩ := hd
        exact .inl rfl
      | pin => exact .inl (hd.2.2.2.hdr.trans hn)
      | unlockExt => exact .inl hd.2.2.2.2.hdr
      | dirty => exact .inl (hd.2.2.hdr.trans hn)
    · exact .inl ((hd.1 _).hdr.trans hn)
  | lockBufHdr b k => exact .inr ⟨b, k, rfl⟩
  | unlockBufHdr => cases he; exact .inl hd.2.hdr
  | unpin b next wake =>
    obtain ⟨vs, -, -, hnext, hwake⟩ := hd
    obtain ⟨-, he⟩ := (Option.ite_none_left_eq_some ..).mp he
    split at he <;> cases he
    · split
      · exact .inl (hwake.hdr.trans hn)
      · exact .inl (hnext.hdr.trans hn)
    · exact .inl (hnext.hdr.trans hn)
  | writeTag => cases he; exact .inl (hd.2.hdr.trans hn)
  | lookup =>
    obtain ⟨-, he⟩ := (Option.ite_none_right_eq_some ..).mp he
    split at he <;> cases he
    · exact .inl ((hd.1 _).hdr.trans hn)
    · exact .inl (hd.2.hdr.trans hn)
  | tableInsert =>
    obtain ⟨-, he⟩ := (Option.ite_none_right_eq_some ..).mp he
    split at he <;> cases he
    · exact .inl (hd.1.hdr.trans hn)
    · exact .inl ((hd.2 _).hdr.trans hn)
  | lwRelease =>
    simp only [exec] at he
    split at he <;> cases he <;> exact .inl (hd.hdr.trans hn)
  | notify k b next =>
    obtain ⟨s', rfl, rfl⟩ := exec_notify_cases he
    cases k with
    | insert =>
      obtain ⟨vs, -, -, hpc⟩ := hd
      exact .inl (hpc.hdr.trans hn)
    | _ => exact .inl (hd.hdr.trans hn)

/-- A backend reaches `StrategyNotifyInvalidate` for `c` when `InvalidateBuffer` locks the header
of `c`, which has the tag it is looking for and is not pinned. -/
theorem lockInvalidate_of_exec {input : Input} (hf : x.pc.Formed) (hf' : x'.pc.Formed)
    (hi : code N x input = some i) (he : exec N hash p P x i = some (P', x'))
    (hx : x'.pc = .notify .invalidate c next) :
    x.pc = .lockInvalidate c (P.tag c) ∧ (P.state c).getRefcount = 0 := by
  have hd := code_disciplined hf hi
  have hc : x'.pc.duty.hdr = some c := by
    rw [hx] at hf' ⊢
    exact hf'.hdr_of_invalidate
  cases hh : x.pc.duty.hdr with
  | none =>
    obtain hn | ⟨b, k, rfl⟩ := exec_hdr hd hh he
    · cases hn.symm.trans hc
    · cases ((Option.ite_none_left_eq_some ..).mp he).2
      obtain ⟨hpc, rfl, h0⟩ := hd.2.2 _ _ _ _ hx
      exact ⟨hpc, (congrArg Fields.refcount fields_or_bmLocked).symm.trans h0⟩
  | some b =>
    obtain ⟨pc, refcount, ring⟩ := x
    obtain ⟨n, rfl⟩ | ⟨w, u, n, rfl⟩ | ⟨t, n, rfl⟩ | ⟨n, rfl⟩ := hf.holder hh
    · cases hi
      cases he
      cases hf.2.1.symm.trans hc
    · cases hi
      simp only [exec] at he
      split at he <;> cases he
      · cases hf.2.1.1.symm.trans hc
      · cases hx
    · cases hi
      cases he
      obtain ⟨-, w, u, n, rfl⟩ := hf
      cases hx
    · cases hi
      obtain ⟨-, t, n, rfl⟩ := hf
      simp only [exec] at he
      split at he
      · cases he; cases hx
      · cases ((Option.ite_none_right_eq_some ..).mp he).2; cases hx

end Arrival

/-! ## Deadlocks -/

section Deadlock

variable {V : EvictionVtable} {Pid : Type}

/-- `p` is in `get_buffer` and waits for the header lock of `b`. -/
def WaitsForHeader (N : ℕ) (s : Sys V Pid) (p : Pid) (b : ℕ) : Prop :=
  ∃ k g next, (s.backends p).pc = .getBuffer k g ∧ V.code N s.pool.policy g = .await b next

/-- The next action of `q` needs `buffer_strategy_lock`. -/
def WaitsForStrategyLock (N : ℕ) (s : Sys V Pid) (q : Pid) : Prop :=
  (∃ n c next f, (s.backends q).pc = .notify n c next ∧ n.hook V N = some f) ∨
    ∃ k g next, (s.backends q).pc = .getBuffer k g ∧ V.code N s.pool.policy g = .acquire next

/-- `p` holds `buffer_strategy_lock` and waits for the header of `b`, and `q` has locked that
header and waits for `buffer_strategy_lock`. -/
structure Deadlock (N : ℕ) (s : Sys V Pid) (p q : Pid) (b : ℕ) : Prop where
  strategyLock : s.pool.strategyLock = some p
  waits : WaitsForHeader N s p b
  header : (s.duty q).hdr = some b
  blocked : WaitsForStrategyLock N s q

/-- The point is `StrategyNotifyInvalidate` for buffer `c`. -/
def Pc.atInvalidate {π : Type} (c : ℕ) : Pc π → Bool
  | notify .invalidate b _ => b = c
  | _ => false

theorem Pc.atInvalidate_iff {π : Type} {c : ℕ} {pc : Pc π} :
    pc.atInvalidate c = true ↔ ∃ next, pc = .notify .invalidate c next := by
  constructor
  · intro h
    unfold atInvalidate at h
    split at h
    · rename_i b next
      rw [decide_eq_true_eq] at h
      exact ⟨next, h ▸ rfl⟩
    · cases h
  · rintro ⟨next, rfl⟩
    simp [atInvalidate]

variable {N : ℕ} {s : Sys V Pid} {p q : Pid} {b : ℕ}

theorem Deadlock.atInvalidate [Fintype Pid] (h : Deadlock N s p q b) (hs : Sound s) :
    (s.backends q).pc.atInvalidate b = true := by
  obtain ⟨n, hn⟩ | ⟨w, u, n, hn⟩ | ⟨t, n, hn⟩ | ⟨n, hn⟩ := (hs.formed q).holder h.header
  all_goals
    have hb := h.blocked
    simp only [WaitsForStrategyLock, hn, reduceCtorEq, false_and, exists_false, or_self] at hb
  exact Pc.atInvalidate_iff.mpr ⟨n, hn⟩

/-- Neither backend of a deadlock can take a step. -/
theorem Deadlock.stuck [Fintype Pid] [DecidableEq Pid] {hash : BufferTag → ℕ}
    (h : Deadlock N s p q b) (hs : Sound s) (input : Input) :
    step N hash s (p, input) = none ∧ step N hash s (q, input) = none := by
  constructor
  · obtain ⟨k, g, next, hpc, hg⟩ := h.waits
    have hl : (s.pool.state b).has bmLocked = true := by
      rw [has_bmLocked]
      exact (hs.locked b).mpr ⟨q, h.header⟩
    simp [step, code, hpc, exec, hg, execGet, hl]
  · obtain ⟨next, hq⟩ := Pc.atInvalidate_iff.mp (h.atInvalidate hs)
    obtain ⟨n, c, next', f, hpc, hf⟩ | ⟨k, g, next', hpc, -⟩ := h.blocked
    · simp [step, code, hpc, exec, hf, h.strategyLock]
    · cases hq.symm.trans hpc

end Deadlock

namespace Lru

variable {Pid : Type} [Fintype Pid]

/-- The point has read a locked header of candidate `c` and is about to wait for it. -/
def atWait (c : ℕ) : PostgreSieve.Pc Pc → Bool
  | .getBuffer _ (.examine b _ old) => b = c && old.has bmLocked
  | _ => false

/-- The step makes `LRUGetBuffer` and `InvalidateBuffer` meet at one buffer: the former reads the
header of its candidate while the latter has it locked, or the latter locks the header for which
the former is about to wait. -/
def crosses (s : Sys vtable Pid) (a : Pid × Input) : Bool :=
  match (s.backends a.1).pc with
  | .getBuffer _ (.loop c _) => decide (∃ q, (s.backends q).pc.atInvalidate c = true)
  | .lockInvalidate c t => s.pool.tag c = t && (s.pool.state c).getRefcount = 0 &&
      decide (∃ p, atWait c (s.backends p).pc = true)
  | _ => false

theorem code_await {N : ℕ} {s : State} {g : Pc} {b : ℕ} {next : BufState → Pc}
    (h : code N s g = .await b next) : ∃ trycounter old, g = .examine b trycounter old ∧
      old.has bmLocked = true := by
  cases g with
  | start => cases h
  | loop c n => simp only [code] at h; split at h <;> cases h
  | examine c n old =>
    simp only [code] at h
    split_ifs at h with hl
    cases h
    exact ⟨n, old, rfl, hl⟩

theorem atWait_iff {c : ℕ} {pc : PostgreSieve.Pc Pc} :
    atWait c pc = true ↔ ∃ k trycounter old, pc = .getBuffer k (.examine c trycounter old) ∧
      old.has bmLocked = true := by
  constructor
  · intro h
    unfold atWait at h
    split at h
    · rename_i k b n old
      simp only [Bool.and_eq_true, decide_eq_true_eq] at h
      exact ⟨k, n, old, h.1 ▸ rfl, h.2⟩
    · cases h
  · rintro ⟨k, n, old, rfl, hl⟩
    simp [atWait, hl]

variable [DecidableEq Pid] {N : ℕ} {hash : BufferTag → ℕ} {s : Sys vtable Pid} {p : Pid}
  {P : Pool vtable Pid} {x : Backend vtable}

omit [Fintype Pid] in
/-- `LRUGetBuffer` comes to wait for `c` by reading the header of its candidate `c`. -/
theorem loop_of_exec {i : Instr vtable} {input : Input} {c : ℕ}
    (hr : (∀ k g, (s.backends p).pc ≠ .getBuffer k g) → x.pc.Ranged vtable N)
    (hi : PostgreSieve.code N (s.backends p) input = some i)
    (he : exec N hash p s.pool (s.backends p) i = some (P, x)) (hx : atWait c x.pc = true) :
    ∃ k n, (s.backends p).pc = .getBuffer k (.loop c n) := by
  obtain ⟨k, n, old, hpc, hl⟩ := atWait_iff.mp hx
  by_cases hg : ∃ k g, (s.backends p).pc = .getBuffer k g
  · obtain ⟨k', g, hg⟩ := hg
    simp only [PostgreSieve.code, hg, Option.some.injEq] at hi
    subst hi
    simp only [exec] at he
    cases g with
    | start =>
      cases ((Option.ite_none_right_eq_some ..).mp he).2
      cases hpc
    | loop b m =>
      simp only [code] at he
      split at he <;> cases he <;> cases hpc
      exact ⟨k, n, hg⟩
    | examine b m old =>
      simp only [code] at he
      split_ifs at he
      · cases ((Option.ite_none_left_eq_some ..).mp he).2
        cases hpc
      · cases he
        cases hpc
      · cases he
        cases hpc
      · simp only [execGet] at he
        split at he <;> cases he <;> cases hpc
  · have := hr fun k g h => hg ⟨k, g, h⟩
    rw [hpc] at this
    cases this.2

/-- While no step makes the two meet, no backend waits for a header that is locked by one in
`StrategyNotifyInvalidate`. -/
theorem apart_of_run (hN : 0 < N) (hP : Fintype.card Pid ≤ maxBackends) {as : List (Pid × Input)}
    (hr : run (step N hash) (boot vtable Pid N) as = some s)
    (hC : Along (step N hash) (fun s a => crosses s a = false) (boot vtable Pid N) as) :
    Sound s ∧ ∀ p q c, atWait c (s.backends p).pc = true →
      (s.backends q).pc.atInvalidate c = false := by
  have h : Sound s ∧ Placed (listPolicy N hN) s ∧ ∀ p q c, atWait c (s.backends p).pc = true →
      (s.backends q).pc.atInvalidate c = false := by
    refine run_invariant (I := fun s => Sound s ∧ Placed (listPolicy N hN) s ∧
      ∀ p q c, atWait c (s.backends p).pc = true → (s.backends q).pc.atInvalidate c = false) hr hC
      ⟨boot_sound _ _ _, boot_placed _, fun _ _ _ hw => nomatch hw⟩ ?_
    rintro u a v ⟨hs, hp, hI⟩ hc hstep
    obtain ⟨i, P, x, hi, he, rfl⟩ := step_eq_some_iff.mp hstep
    obtain ⟨hp', hx, -⟩ := exec_placed hs hp hi he
    have heff := exec_effect EvictionPolicy.lru.careful hP hs
      (code_disciplined (hs.formed a.1) hi) he
    refine ⟨hs.step heff, hp', fun p q c hw => ?_⟩
    by_contra hv
    rw [Bool.not_eq_false] at hv
    dsimp only at hw hv
    by_cases hpa : p = a.1 <;> by_cases hqa : q = a.1
    · subst hpa hqa
      obtain ⟨k, n, old, hpc, -⟩ := atWait_iff.mp hw
      rw [hpc] at hv
      cases hv
    · subst hpa
      rw [update_self] at hw
      rw [update_of_ne hqa] at hv
      obtain ⟨k, n, hpc⟩ := loop_of_exec hx hi he hw
      have : crosses u a = true := by
        simp only [crosses, hpc, decide_eq_true_eq]
        exact ⟨q, hv⟩
      simp [this] at hc
    · subst hqa
      rw [update_self] at hv
      rw [update_of_ne hpa] at hw
      obtain ⟨next, hpc⟩ := Pc.atInvalidate_iff.mp hv
      obtain ⟨hl, h0⟩ := lockInvalidate_of_exec (hs.formed _) heff.formed hi he hpc
      have : crosses u a = true := by
        simp only [crosses, hl, h0, decide_true, Bool.and_self, Bool.true_and, decide_eq_true_eq]
        exact ⟨p, hw⟩
      simp [this] at hc
    · rw [update_of_ne hpa] at hw
      rw [update_of_ne hqa] at hv
      simp [hI p q c hw] at hv
  exact ⟨h.1, h.2.2⟩

end Lru

theorem Sieve.code_ne_await {N : ℕ} {s : State} {g : Pc} {b : ℕ} {next : BufState → Pc} :
    code N s g ≠ .await b next := by
  intro h
  cases g with
  | start => cases h
  | loop n => simp only [code] at h; split at h <;> cases h
  | examine n old => simp only [code] at h; split_ifs at h

theorem Lfu.code_ne_await {N : ℕ} {s : State} {g : Pc} {b : ℕ} {next : BufState → Pc} :
    code N s g ≠ .await b next := by
  intro h
  cases g with
  | start => cases h
  | bucket f => simp only [code] at h; split at h <;> cases h
  | candidate f c => simp only [code] at h; split at h <;> cases h
  | examine f c old => simp only [code] at h; split at h <;> cases h

section Main

variable {Pid : Type} [Fintype Pid] [DecidableEq Pid] {N : ℕ} {hash : BufferTag → ℕ}

end Main

end PostgreSieve
