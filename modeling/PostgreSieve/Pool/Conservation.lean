import PostgreSieve.Pool.Lists

/-! # No buffer drains out of the eviction lists

A list policy takes its victims out of its lists, and a buffer returns only through
`StrategyNotifyInsert`. So a buffer is linked or it is a victim of some backend, as
long as no step drops a victim and no hook takes a buffer out.
-/

namespace PostgreSieve

section Conditions

variable {V : EvictionVtable} {Pid : Type}

/-- The step raises an error. -/
def raises (N : ℕ) (s : Sys V Pid) (a : Pid × Input) : Bool :=
  match code N (s.backends a.1) a.2 with
  | some (.raise _) => true
  | some (.policy _ g) => match V.code N s.pool.policy g with
    | .raise _ _ => true
    | _ => false
  | _ => false

/-- The step drops a victim: the backend is about to unpin one in the pre-existing-buffer branch
of `ExtendBufferedRelShared`, or it raises an error while it holds victims. -/
def dropsVictim (N : ℕ) (s : Sys V Pid) (a : Pid × Input) : Bool :=
  match (s.backends a.1).pc with
  | .unpinVictim _ _ => true
  | pc => raises N s a && !pc.duty.victims.isEmpty

/-- The step is a `StrategyNotifyInvalidate`. -/
def invalidates (N : ℕ) (s : Sys V Pid) (a : Pid × Input) : Bool :=
  match code N (s.backends a.1) a.2 with
  | some (.notify .invalidate _ _) => true
  | _ => false

/-- The steps that keep every buffer linked or held. -/
def KeepsBuffers (N : ℕ) (s : Sys V Pid) (a : Pid × Input) : Prop :=
  dropsVictim N s a = false ∧ (V.notifyInvalidate N = none ∨ invalidates N s a = false)

variable {N : ℕ} {hash : BufferTag → ℕ} {s s' : Sys V Pid} {a : Pid × Input} {i : Instr V}

theorem victims_eq_nil_of_raises (hd : dropsVictim N s a = false) (hr : raises N s a = true) :
    (s.duty a.1).victims = [] := by
  rw [dropsVictim] at hd
  split at hd
  · cases hd
  · simpa [hr, Sys.duty] using hd

theorem KeepsBuffers.noLoss (h : KeepsBuffers N s a) (hi : code N (s.backends a.1) a.2 = some i) :
    NoLoss (N := N) s a.1 i where
  victim b next hpc := by
    have hd := h.1
    rw [dropsVictim, hpc] at hd
    cases hd
  error message hr := victims_eq_nil_of_raises h.1 (by rw [raises, hi, hr])
  getError k g s' message hp hc := victims_eq_nil_of_raises h.1 (by simp only [raises, hi, hp, hc])
  invalidate := by
    refine h.2.imp_right fun hn b next hb => ?_
    rw [invalidates, hi, hb] at hn
    cases hn

variable [DecidableEq Pid] [Fintype Pid]

/-- In a run without such steps every buffer is linked or a victim. -/
theorem linked_or_victim (hV : V.Careful) (hP : Fintype.card Pid ≤ maxBackends) (L : V.ListPolicy N)
    {as : List (Pid × Input)} (hr : run (step N hash) (boot V Pid N) as = some s)
    (hC : Along (step N hash) (KeepsBuffers N) (boot V Pid N) as) :
    Sound s ∧ Placed L s ∧
      ∀ b < N, L.linked s.pool.policy b ∨ ∃ p, b ∈ (s.duty p).victims := by
  refine run_invariant (I := fun s => Sound s ∧ Placed L s ∧
      ∀ b < N, L.linked s.pool.policy b ∨ ∃ p, b ∈ (s.duty p).victims) hr hC
    ⟨boot_sound V Pid N, boot_placed L, fun b hb => .inl (L.linked_init b hb)⟩ ?_
  rintro u a v ⟨hs, hp, hl⟩ hk hstep
  obtain ⟨i, P, x, hi, he, rfl⟩ := step_eq_some_iff.mp hstep
  obtain ⟨hp', -, hkept⟩ := exec_placed hs hp hi he
  refine ⟨hs.step (exec_effect hV hP hs (code_disciplined (hs.formed a.1) hi) he), hp', ?_⟩
  intro b hb
  have hkept := hkept (hk.noLoss hi) b
  have hex := exists_update_iff (s := u) (p := a.1) (x := x) (Q := fun x => b ∈ x.pc.duty.victims)
  rcases hl b hb with hlinked | ⟨q, hq⟩
  · exact (hkept (.inl hlinked)).imp_right fun hx => hex.mpr (.inl hx)
  · by_cases hqa : q = a.1
    · exact (hkept (.inr (hqa ▸ hq))).imp_right fun hx => hex.mpr (.inl hx)
    · exact .inr (hex.mpr (.inr ⟨q, hqa, hq⟩))

end Conditions

section Policies

variable {Pid : Type} [DecidableEq Pid] [Fintype Pid] {N : ℕ} {hash : BufferTag → ℕ}

/-- With SIEVE and no step that drops a victim, every buffer is in the queue or held as a victim,
and all buffers are in the queue when nobody holds a victim. -/
theorem sieve_conservation (hN : 0 < N) (hP : Fintype.card Pid ≤ maxBackends)
    {as : List (Pid × Input)} {s : Sys Sieve.vtable Pid}
    (hr : run (step N hash) (boot Sieve.vtable Pid N) as = some s)
    (hC : Along (step N hash) (fun s a => dropsVictim N s a = false) (boot Sieve.vtable Pid N) as) :
    (∀ b < N, b ∈ Sieve.queue N s.pool.policy ∨
      ∃ p, b ∈ (s.duty p).victims ∧ 0 < (s.backends p).refcount b) ∧
    ((∀ p, (s.duty p).victims = []) → (Sieve.queue N s.pool.policy).Perm (List.range N)) := by
  obtain ⟨hs, hp, hl⟩ := linked_or_victim (V := Sieve.vtable) EvictionPolicy.sieve.careful hP
    (Sieve.listPolicy N hN) hr
    (hC.imp fun s a hd => ⟨hd, .inl rfl⟩)
  refine ⟨fun b hb => (hl b hb).imp_right fun ⟨p, hv⟩ => ⟨p, hv, hs.victims hv⟩, fun hv => ?_⟩
  obtain ⟨l, hq⟩ := hp.inv
  rw [hq.queue_eq]
  refine (List.perm_ext_iff_of_nodup (List.nodup_cons.mp hq.marked.nodup).2
    List.nodup_range).mpr fun b => ?_
  rw [List.mem_range]
  refine ⟨hq.lt b, fun hb => ?_⟩
  rcases hl b hb with hlinked | ⟨p, hb⟩
  · exact hq.queue_eq ▸ hlinked
  · rw [hv p] at hb
    cases hb

theorem sieve_conservation_miss :
    ∃ s : Sys Sieve.vtable Unit, run (step 2 fun _ => 0) (boot Sieve.vtable Unit 2)
        ((Op.read ⟨block 0, false, true⟩).steps () 13) = some s ∧
      (Sieve.queue 2 s.pool.policy).Perm (List.range 2) :=
  (exists_run (p := fun s => ∀ p, (s.duty p).victims = []) (by decide +kernel)).imp fun s h =>
    ⟨h.1, (sieve_conservation (by decide) (by simp [maxBackends]) h.1 (by decide +kernel)).2 h.2⟩

/-- A backend that extends a relation over a block that already has a buffer unpins its victim
without giving it back: buffer 1 is out of the queue although nobody holds a victim. -/
theorem sieve_extension_drains_queue :
    ∃ (as : List (Unit × Input)) (s : Sys Sieve.vtable Unit),
      run (step 2 fun _ => 0) (boot Sieve.vtable Unit 2) as = some s ∧
      (∀ p, (s.duty p).victims = []) ∧ (s.pool.state 1).getRefcount = 0 ∧
      Sieve.queue 2 s.pool.policy = [0] :=
  ⟨(Op.read ⟨block 0, false, true⟩).steps () 13 ++ (Op.makeValid 0).steps () 4 ++
    (Op.release 0).steps () 1 ++ (Op.extend ⟨block 0, false, true, none⟩ 1).steps () 5 ++
    [((), .blocks 0)] ++ List.replicate 6 ((), .go) ++ [((), .answer true)] ++
    List.replicate 4 ((), .go) ++ [((), .answer true)] ++ List.replicate 2 ((), .go),
    exists_run (by decide +kernel)⟩

/-- With a list policy and no step that drops a victim or invalidates a buffer, a buffer that is
not pinned, or that nobody holds as a victim, is linked. -/
theorem linked_of_unpinned {V : EvictionVtable} (hV : V.Careful)
    (hP : Fintype.card Pid ≤ maxBackends) (L : V.ListPolicy N) {as : List (Pid × Input)}
    {s : Sys V Pid} (hr : run (step N hash) (boot V Pid N) as = some s)
    (hC : Along (step N hash) (fun s a => dropsVictim N s a = false ∧ invalidates N s a = false)
      (boot V Pid N) as) {b : ℕ} (hb : b < N)
    (hfree : (s.pool.state b).getRefcount = 0 ∨ ∀ p, b ∉ (s.duty p).victims) :
    L.linked s.pool.policy b := by
  obtain ⟨hs, -, hl⟩ := linked_or_victim hV hP L hr (hC.imp fun s a h => ⟨h.1, .inr h.2⟩)
  refine (hl b hb).resolve_right fun ⟨p, hv⟩ => ?_
  rcases hfree with h0 | hnone
  · exact (hs.victims hv).ne' (hs.unpinned h0 p)
  · exact hnone p hv

/-- With LRU or LFU and no step that drops a victim or invalidates a buffer, every buffer that is
not pinned, or that nobody holds as a victim, can be reached by `get_buffer`. -/
theorem lru_lfu_conservation (hN : 0 < N) (hP : Fintype.card Pid ≤ maxBackends)
    (as : List (Pid × Input)) :
    (∀ s : Sys Lru.vtable Pid, run (step N hash) (boot Lru.vtable Pid N) as = some s →
      Along (step N hash) (fun s a => dropsVictim N s a = false ∧ invalidates N s a = false)
        (boot Lru.vtable Pid N) as →
      ∀ b < N, (s.pool.state b).getRefcount = 0 ∨ (∀ p, b ∉ (s.duty p).victims) →
        b ∈ Lru.queue N s.pool.policy) ∧
    ∀ s : Sys Lfu.vtable Pid, run (step N hash) (boot Lfu.vtable Pid N) as = some s →
      Along (step N hash) (fun s a => dropsVictim N s a = false ∧ invalidates N s a = false)
        (boot Lfu.vtable Pid N) as →
      ∀ b < N, (s.pool.state b).getRefcount = 0 ∨ (∀ p, b ∉ (s.duty p).victims) →
        Lfu.Linked N s.pool.policy b := by
  constructor
  · intro s hr hC b hb hfree
    exact linked_of_unpinned EvictionPolicy.lru.careful hP (Lru.listPolicy N hN) hr hC hb hfree
  · intro s hr hC b hb hfree
    exact (linked_of_unpinned EvictionPolicy.lfu.careful hP (Lfu.listPolicy N hN) hr hC hb hfree).2

theorem lru_lfu_conservation_miss :
    (∃ s : Sys Lru.vtable Unit, run (step 2 fun _ => 0) (boot Lru.vtable Unit 2)
        ((Op.read ⟨block 0, false, true⟩).steps () 13) = some s ∧
      (s.pool.state 1).getRefcount = 0 ∧ 1 ∈ Lru.queue 2 s.pool.policy) ∧
    ∃ s : Sys Lfu.vtable Unit, run (step 2 fun _ => 0) (boot Lfu.vtable Unit 2)
        ((Op.read ⟨block 0, false, true⟩).steps () 13) = some s ∧
      (s.pool.state 1).getRefcount = 0 ∧ Lfu.Linked 2 s.pool.policy 1 := by
  constructor
  · exact (exists_run (p := fun s => (s.pool.state 1).getRefcount = 0) (by decide +kernel)).imp
      fun s h => ⟨h.1, h.2, (lru_lfu_conservation (by decide) (by simp [maxBackends]) _).1 s h.1
        (by decide +kernel) 1 (by decide) (.inl h.2)⟩
  · exact (exists_run (p := fun s => (s.pool.state 1).getRefcount = 0) (by decide +kernel)).imp
      fun s h => ⟨h.1, h.2, (lru_lfu_conservation (by decide) (by simp [maxBackends]) _).2 s h.1
        (by decide +kernel) 1 (by decide) (.inl h.2)⟩

/-- Dropping the relation of a buffer takes the buffer out of the lists of LRU and of LFU, and it
is neither pinned nor held as a victim. -/
theorem drop_drains_lru_lfu :
    (∃ (as : List (Unit × Input)) (s : Sys Lru.vtable Unit),
      run (step 2 fun _ => 0) (boot Lru.vtable Unit 2) as = some s ∧
      (∀ p, (s.duty p).victims = []) ∧ (s.pool.state 0).getRefcount = 0 ∧
      0 ∉ Lru.queue 2 s.pool.policy) ∧
    ∃ (as : List (Unit × Input)) (s : Sys Lfu.vtable Unit),
      run (step 2 fun _ => 0) (boot Lfu.vtable Unit 2) as = some s ∧
      (∀ p, (s.duty p).victims = []) ∧ (s.pool.state 0).getRefcount = 0 ∧
      ¬Lfu.Linked 2 s.pool.policy 0 := by
  constructor
  · exact ⟨(Op.read ⟨block 0, false, true⟩).steps () 13 ++ (Op.release 0).steps () 1 ++
      (Op.drop 0 fun _ => true).steps () 9, exists_run (by decide +kernel)⟩
  · exact ⟨(Op.read ⟨block 0, false, true⟩).steps () 14 ++ (Op.release 0).steps () 1 ++
      (Op.drop 0 fun _ => true).steps () 9,
      (exists_run (p := fun s => (∀ p, (s.duty p).victims = []) ∧
        (s.pool.state 0).getRefcount = 0 ∧ s.pool.policy.freq 0 = 0) (by decide +kernel)).imp
        fun s h => ⟨h.1, h.2.1, h.2.2.1, fun hl => hl.1 h.2.2.2⟩⟩

end Policies

end PostgreSieve
