import PostgreSieve.Pool.Pins

/-! # The eviction lists during a run

With a list policy the lists are changed under `buffer_strategy_lock` only, at buffers of
the pool only, and stay well formed. A step that takes a buffer out of the lists makes it
a victim of the backend, except for the invalidation hook.
-/

namespace PostgreSieve

open List Option

variable {V : EvictionVtable} {N : ℕ}

def Ring.Ranged (N : ℕ) (r : Ring) : Prop := ∀ i b, r.buffers i = some b → b < N

/-- The buffers that the routines may hand to a hook are buffers of the pool, and `get_buffer` is
entered at its start. -/
def Pc.Ranged (V : EvictionVtable) (N : ℕ) : Pc V.Pc → Prop
  | pinBuffer _ _ pc pc' | pinLoop _ _ pc pc' _ | invalidateVictimBuffer _ pc pc'
  | lockVictim _ _ pc pc' | startBufferIo _ _ pc pc' => pc.Ranged V N ∧ pc'.Ranged V N
  | unpinBuffer _ next | unpinVictim _ next | wakePinCountWaiter _ next | lwExclusive _ next
  | lwRelease _ _ next | bufTableDelete _ _ next | writeTag _ _ next | unlockBufHdr _ next
  | unlockBufHdrExt _ _ _ next | terminateBufferIo _ _ _ next | flushLsn _ next
  | flushWrite _ next | clearValid _ next => next.Ranged V N
  | notify _ b next | lockInstall b _ _ next => b < N ∧ next.Ranged V N
  | getVictimBuffer k => ∀ v ∈ k.buffers, v < N
  | getBuffer k g => (∀ v ∈ k.buffers, v < N) ∧ g = V.getBuffer N
  | ringRead k b | ringLoop k b _ | gotVictim k b _ _ | lockLsn k b _ | lsnCheck k b _ _ =>
    b < N ∧ ∀ v ∈ k.buffers, v < N
  | allocInsert _ b | lockDrop b _ | lockInvalidate b _ => b < N
  | extendSize _ bs | extendLoop _ _ _ bs _ | extendCheck _ _ _ _ bs _ => ∀ v ∈ bs, v < N
  | extendSurplus _ _ keep surplus => (∀ v ∈ keep, v < N) ∧ ∀ v ∈ surplus, v < N
  | _ => True

def Instr.Ranged (N : ℕ) : Instr V → Prop
  | goto next | checkUnpinned _ next | unlockBufHdr _ next | clearValid _ next
  | writeTag _ _ next | lwExclusive _ next | tableDelete _ next | lwRelease _ _ next =>
    next.Ranged V N
  | setRing r next => r.Ranged N ∧ next.Ranged V N
  | raise _ => True
  | load _ next | await _ next => ∀ w, (next w).Ranged V N
  | readTag _ next => ∀ t, (next t).Ranged V N
  | policy k _ => ∀ v ∈ k.buffers, v < N
  | pinFirst _ held fresh => ∀ w, (held w).Ranged V N ∧ (fresh w).Ranged V N
  | cas _ _ _ ok fail => ok.Ranged V N ∧ ∀ w, (fail w).Ranged V N
  | lockBufHdr _ next => ∀ w t, (next w t).Ranged V N
  | unpin _ next wake => next.Ranged V N ∧ wake.Ranged V N
  | lookup _ hit miss => (∀ b < N, (hit b).Ranged V N) ∧ miss.Ranged V N
  | tableInsert _ v fresh existing =>
    v < N ∧ fresh.Ranged V N ∧ ∀ b < N, (existing b).Ranged V N
  | notify _ b next => b < N ∧ next.Ranged V N

namespace Pc

variable {b : ℕ} {k : VictimFor}

theorem afterVictim_ranged (hb : b < N) (hk : ∀ v ∈ k.buffers, v < N) :
    (afterVictim b k : Pc V.Pc).Ranged V N := by
  have happ : ∀ v ∈ k.buffers ++ [b], v < N :=
    forall_mem_append.mpr ⟨hk, forall_mem_singleton.mpr hb⟩
  match k with
  | .alloc _ => exact hb
  | .extend _ 0 _ => exact happ
  | .extend _ (_ + 1) _ => exact happ

theorem afterFlush_ranged (w : BufState) (hb : b < N) (hk : ∀ v ∈ k.buffers, v < N) :
    (afterFlush k b w : Pc V.Pc).Ranged V N := by
  rw [afterFlush]
  split
  · exact ⟨afterVictim_ranged hb hk, hb, hk⟩
  · exact afterVictim_ranged hb hk

theorem terminateAll_ranged (bs : List ℕ) : (terminateAll bs : Pc V.Pc).Ranged V N := by
  induction bs with
  | nil => trivial
  | cons b bs ih => exact ih

end Pc

variable {x : Backend V} {i : Instr V}

theorem startOp_ranged {op : Op} (h : startOp N x op = some i) :
    i.Ranged N := by
  cases op with
  | read r => cases h; trivial
  | extend e n =>
    cases ((ite_none_left_eq_some ..).mp h).2
    exact fun v hv => nomatch hv
  | drop b matching =>
    obtain ⟨hb, h⟩ := (ite_none_right_eq_some ..).mp h
    cases h
    exact hb
  | repin b =>
    cases ((ite_none_right_eq_some ..).mp h).2
    exact fun _ => ⟨trivial, trivial⟩
  | makeValid b =>
    cases ((ite_none_right_eq_some ..).mp h).2
    exact ⟨trivial, trivial⟩
  | newRing btype n =>
    cases ((ite_none_right_eq_some ..).mp h).2
    exact ⟨fun i b hb => (nomatch hb), trivial⟩
  | sync b skip | release b | markDirty b =>
    cases ((ite_none_right_eq_some ..).mp h).2
    trivial

theorem ranged_update {ι : Type} [DecidableEq ι] {f : ι → Option ℕ} {o : Option ℕ}
    (hf : ∀ i b, f i = some b → b < N) (ho : ∀ b, o = some b → b < N) (i j : ι) (b : ℕ)
    (h : Function.update f i o j = some b) : b < N := by
  by_cases hj : j = i
  · subst hj
    exact ho b ((Function.update_self j o f).symm.trans h)
  · exact hf j b ((Function.update_of_ne hj o f).symm.trans h)

theorem code_ranged {input : Input} (hr : x.ring.Ranged N) (hpc : x.pc.Ranged V N)
    (h : code N x input = some i) : i.Ranged N := by
  obtain ⟨pc, refcount, ring⟩ := x
  cases pc with
  | idle =>
    cases input with
    | start op => exact startOp_ranged h
    | _ => cases h
  | failed _ | returned _ _ _ => cases h; trivial
  | bufferAlloc r =>
    cases h
    exact ⟨fun b hb => ⟨⟨hb, trivial⟩, trivial⟩, fun v hv => by cases hv⟩
  | pinBuffer b s valid invalid =>
    cases h
    refine fun w => ⟨?_, hpc⟩
    dsimp only
    split
    · exact hpc.1
    · exact hpc.2
  | pinLoop b s valid invalid old =>
    simp only [code] at h
    split at h <;> cases h
    · exact fun w => hpc
    · refine ⟨?_, fun w => hpc⟩
      split
      · exact hpc.1
      · exact hpc.2
  | unpinBuffer b next | unpinVictim b next => cases h; exact ⟨hpc, hpc⟩
  | wakePinCountWaiter b next =>
    cases h
    intro w t
    dsimp only
    split <;> exact hpc
  | notify n b next => cases h; exact hpc
  | getVictimBuffer k =>
    simp only [code] at h
    split at h <;> cases h
    · refine ⟨hr, ?_⟩
      split
      · exact ⟨hpc, rfl⟩
      · rename_i b hb
        exact ⟨hr _ b hb, hpc⟩
    · exact ⟨hpc, rfl⟩
  | ringRead k b => cases h; exact fun w => hpc
  | ringLoop k b old =>
    simp only [code] at h
    split_ifs at h <;> cases h
    · exact ⟨hpc.2, rfl⟩
    · exact fun w => hpc
    · exact ⟨hpc, fun w => hpc⟩
  | getBuffer k g => cases h; exact hpc.1
  | gotVictim k b w fromRing =>
    have hflush := Pc.afterFlush_ranged (V := V) w hpc.1 hpc.2
    simp only [code] at h
    split at h
    · cases input <;> simp only [reduceCtorEq] at h
      split_ifs at h <;> cases h
      · exact hpc
      · exact ⟨hflush, hflush⟩
      · exact hpc
    · cases h
      exact hflush
  | lockLsn k b fromRing => cases h; exact fun w t => hpc
  | lsnCheck k b w fromRing =>
    have hflush := Pc.afterFlush_ranged (V := V) w hpc.1 hpc.2
    cases input <;> simp only [code, reduceCtorEq] at h
    split at h <;> cases h
    · exact ⟨ranged_update (o := none) hr (fun b hb => by cases hb) _, hpc⟩
    · exact ⟨hflush, hflush⟩
  | invalidateVictimBuffer b yes no => cases h; exact fun t => hpc
  | lockVictim b t yes no =>
    cases h
    intro w t
    dsimp only
    split
    · exact hpc.2
    · exact hpc.1
  | allocInsert r v =>
    cases h
    exact ⟨hpc, ⟨hpc, hpc, trivial⟩, fun b hb => ⟨hpc, trivial, trivial⟩⟩
  | lockInstall v t permanent next => cases h; exact fun w t => hpc.2
  | lwExclusive t next | lwRelease e t next | bufTableDelete t b next | writeTag b t next
  | unlockBufHdr b next => cases h; exact hpc
  | unlockBufHdrExt b old u next => cases h; exact ⟨hpc, fun w => hpc⟩
  | lockDrop b matching =>
    cases h
    intro w t
    dsimp only
    split
    · exact hpc
    · trivial
  | lockInvalidate b t =>
    cases h
    intro w t'
    dsimp only
    split_ifs
    · trivial
    · trivial
    · exact hpc
    · exact ⟨hpc, trivial⟩
    · exact ⟨hpc, trivial⟩
  | startBufferIo b forInput yes no =>
    cases h
    intro w t
    dsimp only
    split_ifs
    · exact hpc
    · exact hpc.2
    · exact hpc.1
    · exact hpc.2
    · exact hpc.1
  | terminateBufferIo b clearDirty set next | flushLsn b next => cases h; exact fun w t => hpc
  | flushWrite b next =>
    cases input <;> simp only [code, reduceCtorEq] at h
    split at h <;> cases h
    · exact hpc
    · trivial
  | lockSync b skip =>
    cases h
    intro w t
    dsimp only
    split_ifs
    · trivial
    · trivial
    · exact ⟨trivial, trivial⟩
  | markDirty b => cases h; exact fun w => trivial
  | dirtyLoop b old =>
    simp only [code] at h
    split at h <;> cases h
    · exact fun w => trivial
    · exact ⟨trivial, fun w => trivial⟩
  | extendSize e bs =>
    cases input <;> simp only [code, reduceCtorEq] at h
    cases h
    exact ⟨fun v hv => hpc v (mem_of_mem_take hv), fun v hv => hpc v (mem_of_mem_drop hv)⟩
  | extendSurplus e first keep surplus =>
    cases surplus with
    | nil =>
      simp only [code] at h
      split_ifs at h <;> cases h
      · trivial
      · trivial
      · exact hpc.1
    | cons v surplus =>
      cases h
      exact ⟨hpc.2 v mem_cons_self, hpc.1, fun u hu => hpc.2 u (mem_cons_of_mem v hu)⟩
  | extendLoop e first i todo done =>
    cases todo with
    | nil => cases h; trivial
    | cons v todo =>
      cases h
      have hv := hpc v mem_cons_self
      have htodo : ∀ u ∈ todo, u < N := fun u hu => hpc u (mem_cons_of_mem v hu)
      exact ⟨hv, ⟨hv, hv, htodo, htodo⟩, fun b hb => ⟨htodo, htodo⟩⟩
  | extendCheck e first i b todo done =>
    cases input <;> simp only [code, reduceCtorEq] at h
    split at h <;> cases h
    · exact hpc
    · trivial
  | clearValid b next => cases h; exact ⟨hpc, hpc⟩
  | zeroExtend bs =>
    cases input <;> simp only [code, reduceCtorEq] at h
    split at h <;> cases h
    · exact Pc.terminateAll_ranged bs
    · trivial

/-! ## The lists under `buffer_strategy_lock` -/

section Placed

variable {Pid : Type}

/-- The lists are well formed, and a backend inside `get_buffer` holds the lock. -/
structure Placed (L : V.ListPolicy N) (s : Sys V Pid) : Prop where
  inv : L.Inv s.pool.policy
  inside : ∀ {p k g}, (s.backends p).pc = .getBuffer k g → L.locked g = true →
    s.pool.strategyLock = some p ∧ L.At s.pool.policy g
  table : ∀ {t b}, s.pool.table t = some b → b < N
  ring : ∀ p, (s.backends p).ring.Ranged N
  ranged : ∀ p, (s.backends p).pc.Ranged V N ∨
    ∃ k g, (s.backends p).pc = .getBuffer k g ∧ ∀ v ∈ k.buffers, v < N

variable {L : V.ListPolicy N} {s : Sys V Pid} {p : Pid} {P : Pool V Pid} {x : Backend V}

theorem Pc.Ranged.unlocked {pc : Pc V.Pc} (L : V.ListPolicy N) (h : pc.Ranged V N) {k : VictimFor}
    {g : V.Pc} (hpc : pc = .getBuffer k g) : L.locked g = false := by
  subst hpc
  exact h.2 ▸ L.locked_entry

namespace Placed

variable [DecidableEq Pid]

/-- A step of `p`, given what it means for the other backends inside `get_buffer`. -/
theorem update (h : Placed L s) (hinv : L.Inv P.policy)
    (hother : ∀ q ≠ p, ∀ g, s.pool.strategyLock = some q → L.At s.pool.policy g →
      P.strategyLock = some q ∧ L.At P.policy g)
    (hp : ∀ k g, x.pc = .getBuffer k g → L.locked g = true →
      P.strategyLock = some p ∧ L.At P.policy g)
    (htable : ∀ t b, P.table t = some b → b < N) (hring : x.ring.Ranged N)
    (hx : x.pc.Ranged V N ∨ ∃ k g, x.pc = .getBuffer k g ∧ ∀ v ∈ k.buffers, v < N) :
    Placed L (⟨P, Function.update s.backends p x⟩ : Sys V Pid) where
  inv := hinv
  inside := by
    intro q k g
    refine forall_update (Q := fun q x => x.pc = .getBuffer k g → L.locked g = true →
      P.strategyLock = some q ∧ L.At P.policy g) (fun q hq hpc hg => ?_) (hp k g) q
    obtain ⟨hl, hat⟩ := h.inside hpc hg
    exact hother q hq g hl hat
  table := htable _ _
  ring := forall_update (Q := fun _ x => x.ring.Ranged N) (fun q _ => h.ring q) hring
  ranged := forall_update (Q := fun _ x => x.pc.Ranged V N ∨
    ∃ k g, x.pc = .getBuffer k g ∧ ∀ v ∈ k.buffers, v < N) (fun q _ => h.ranged q) hx

theorem outside (h : Placed L s) (hpol : P.policy = s.pool.policy)
    (hlock : P.strategyLock = s.pool.strategyLock)
    (htable : ∀ t b, P.table t = some b → b < N) (hring : x.ring.Ranged N)
    (hx : x.pc.Ranged V N) : Placed L (⟨P, Function.update s.backends p x⟩ : Sys V Pid) := by
  refine h.update (hpol ▸ h.inv) (fun q _ g hl hat => ⟨hlock ▸ hl, hpol ▸ hat⟩) ?_ htable hring
    (.inl hx)
  intro k g hpc hg
  rw [hx.unlocked L hpc] at hg
  cases hg

theorem holding (h : Placed L s) (hl : s.pool.strategyLock = some p) (hinv : L.Inv P.policy)
    (hlock : P.strategyLock = some p) (htable : P.table = s.pool.table)
    (hring : x.ring = (s.backends p).ring) {k : VictimFor} {g : V.Pc} (hpc : x.pc = .getBuffer k g)
    (hat : L.At P.policy g) (hk : ∀ v ∈ k.buffers, v < N) :
    Placed L (⟨P, Function.update s.backends p x⟩ : Sys V Pid) := by
  refine h.update hinv ?_ ?_ (fun t b hb => h.table (htable ▸ hb)) (hring ▸ h.ring p)
    (.inr ⟨k, g, hpc, hk⟩)
  · intro q hq g hl'
    exact absurd (some.inj (hl'.symm.trans hl)) hq
  · intro k' g' hpc' hg'
    cases hpc.symm.trans hpc'
    exact ⟨hlock, hat⟩

/-- A step on the lists while no other backend is inside `get_buffer`, after which `p` is
outside. -/
theorem released (h : Placed L s) (hl : ∀ q ≠ p, s.pool.strategyLock ≠ some q)
    (hinv : L.Inv P.policy) (htable : P.table = s.pool.table) (hring : x.ring.Ranged N)
    (hx : x.pc.Ranged V N) : Placed L (⟨P, Function.update s.backends p x⟩ : Sys V Pid) := by
  refine h.update hinv (fun q hq g hl' => absurd hl' (hl q hq)) ?_
    (fun t b hb => h.table (htable ▸ hb)) hring (.inl hx)
  intro k g hpc hg
  rw [hx.unlocked L hpc] at hg
  cases hg

end Placed

/-- A step of `p` that ends in `P` and `x` loses no buffer. -/
def Kept (L : V.ListPolicy N) (s : Sys V Pid) (p : Pid) (P : Pool V Pid) (x : Backend V) : Prop :=
  ∀ b, L.linked s.pool.policy b ∨ b ∈ (s.duty p).victims →
    L.linked P.policy b ∨ b ∈ x.pc.duty.victims

theorem Kept.of_imp (hl : ∀ b, L.linked s.pool.policy b → L.linked P.policy b)
    (hv : ∀ b ∈ (s.duty p).victims, b ∈ x.pc.duty.victims) : Kept L s p P x :=
  fun b => Or.imp (hl b) (hv b)

variable [DecidableEq Pid]

theorem execGet_placed (h : Placed L s) {k : VictimFor} {g : V.Pc}
    (hpc : (s.backends p).pc = .getBuffer k g) (hk : ∀ v ∈ k.buffers, v < N)
    (he : execGet p s.pool (s.backends p) k (V.code N s.pool.policy g) = some (P, x)) :
    Placed L (⟨P, Function.update s.backends p x⟩ : Sys V Pid) ∧
      ((∀ s' message, V.code N s.pool.policy g = .raise s' message → k.buffers = []) →
        Kept L s p P x) := by
  have hv : (s.duty p).victims = k.buffers := by rw [Sys.duty, hpc]; rfl
  have hsame g' : ∀ b ∈ (s.duty p).victims,
      b ∈ ((s.backends p).goto (.getBuffer k g')).pc.duty.victims := by
    rw [hv]
    exact fun b hb => hb
  have hkeeps := L.code_keeps h.inv fun hg => (h.inside hpc hg).2
  -- every action but the acquisition is made with the lock held
  have hlock : (∀ next, V.code N s.pool.policy g ≠ .acquire next) →
      s.pool.strategyLock = some p := by
    intro hn
    refine (h.inside hpc ?_).1
    rw [← Bool.not_eq_false]
    intro hg
    obtain ⟨next, hc⟩ := (L.acquire_iff (s := s.pool.policy)).mp hg
    exact hn next hc
  have hfree : s.pool.strategyLock = some p → ∀ q ≠ p, s.pool.strategyLock ≠ some q :=
    fun hl q hq hl' => hq (some.inj (hl'.symm.trans hl))
  cases hc : V.code N s.pool.policy g with
  | acquire next =>
    rw [hc] at he hkeeps
    obtain ⟨hnone, he⟩ := (ite_none_right_eq_some ..).mp he
    cases he
    refine ⟨h.update h.inv ?_ ?_ (fun t b => h.table) (h.ring p) (.inr ⟨k, _, rfl, hk⟩),
      fun _ => .of_imp (fun _ hb => hb) (hsame _)⟩
    · intro q hq g hl
      rw [hnone] at hl
      cases hl
    · rintro k' g' ⟨⟩ -
      exact ⟨rfl, hkeeps _ h.inv⟩
  | update s' next =>
    rw [hc] at he hkeeps
    cases he
    have hl := hlock (by simp [hc])
    obtain ⟨hinv, hat, hlinked⟩ := hkeeps
    exact ⟨h.holding hl hinv hl rfl rfl rfl hat hk,
      fun _ => .of_imp hlinked (hsame _)⟩
  | load b next =>
    rw [hc] at he hkeeps
    cases he
    have hl := hlock (by simp [hc])
    exact ⟨h.holding hl h.inv hl rfl rfl rfl (hkeeps _) hk,
      fun _ => .of_imp (fun _ hb => hb) (hsame _)⟩
  | await b next =>
    rw [hc] at he hkeeps
    cases ((ite_none_left_eq_some ..).mp he).2
    have hl := hlock (by simp [hc])
    exact ⟨h.holding hl h.inv hl rfl rfl rfl (hkeeps _) hk,
      fun _ => .of_imp (fun _ hb => hb) (hsame _)⟩
  | cas b old new ok fail =>
    rw [hc] at he hkeeps
    have hl := hlock (by simp [hc])
    obtain ⟨⟨hinv, hat, hlinked⟩, hfail⟩ := hkeeps
    simp only [execGet] at he
    split at he <;> cases he
    · exact ⟨h.holding hl hinv hl rfl rfl rfl hat hk,
        fun _ => .of_imp hlinked (hsame _)⟩
    · obtain ⟨hinv, hat, hlinked⟩ := hfail (s.pool.state b)
      exact ⟨h.holding hl hinv hl rfl rfl rfl hat hk,
        fun _ => .of_imp hlinked (hsame _)⟩
  | claim b old s' fail =>
    rw [hc] at he hkeeps
    have hl := hlock (by simp [hc])
    obtain ⟨hb, hinv, hlinked, hat⟩ := hkeeps
    simp only [execGet] at he
    split at he <;> cases he
    · refine ⟨h.released (hfree hl) hinv rfl ?_ ⟨hb, hk⟩, fun _ c hc => ?_⟩
      · split
        · exact ranged_update (h.ring p) (fun c hc => some.inj hc ▸ hb) _
        · exact h.ring p
      · rw [hv] at hc
        by_cases hcb : c = b
        · exact .inr (hcb ▸ mem_cons_self)
        · exact hc.imp (hlinked c hcb) fun hc => mem_cons_of_mem b hc
    · exact ⟨h.holding hl h.inv hl rfl rfl rfl (hat _) hk,
        fun _ => .of_imp (fun _ hb => hb) (hsame _)⟩
  | raise s' message =>
    rw [hc] at he hkeeps
    cases he
    have hl := hlock (by simp [hc])
    obtain ⟨hinv, hlinked⟩ := hkeeps
    refine ⟨h.released (hfree hl) hinv rfl (h.ring p) trivial, fun hr => .of_imp hlinked ?_⟩
    rw [hv, hr s' message rfl]
    exact fun b hb => hb

/-- What a step must not do for every buffer to stay linked or held: unpin a victim that was not
given back, raise an error while victims are held, or take a buffer out of the lists. -/
structure NoLoss (s : Sys V Pid) (p : Pid) (i : Instr V) : Prop where
  victim : ∀ b next, (s.backends p).pc ≠ .unpinVictim b next
  error : ∀ message, i = .raise message → (s.duty p).victims = []
  getError : ∀ k g s' message, i = .policy k g → V.code N s.pool.policy g = .raise s' message →
    (s.duty p).victims = []
  invalidate : V.notifyInvalidate N = none ∨ ∀ b next, i ≠ .notify .invalidate b next

theorem exec_placed [Fintype Pid] {hash : BufferTag → ℕ} {input : Input} {i : Instr V}
    (hs : Sound s) (h : Placed L s) (hi : code N (s.backends p) input = some i)
    (he : exec N hash p s.pool (s.backends p) i = some (P, x)) :
    Placed L (⟨P, Function.update s.backends p x⟩ : Sys V Pid) ∧
      ((∀ k g, (s.backends p).pc ≠ .getBuffer k g) → x.pc.Ranged V N) ∧
      (NoLoss (N := N) s p i → Kept L s p P x) := by
  have hd := code_disciplined (hs.formed p) hi
  by_cases hg : ∃ k g, (s.backends p).pc = .getBuffer k g
  · obtain ⟨k, g, hpc⟩ := hg
    simp only [code, hpc, some.injEq] at hi
    subst hi
    have hk : ∀ v ∈ k.buffers, v < N := by
      rcases h.ranged p with hr | ⟨k', g', hpc', hk⟩
      · rw [hpc] at hr
        exact hr.1
      · cases hpc.symm.trans hpc'
        exact hk
    obtain ⟨hplaced, hkept⟩ := execGet_placed h hpc hk he
    refine ⟨hplaced, fun hn => absurd hpc (hn k g), fun hn => hkept fun s' message hc => ?_⟩
    have := hn.getError k g s' message rfl hc
    rwa [Sys.duty, hpc] at this
  · have hr := code_ranged (h.ring p) ((h.ranged p).resolve_right
      (by rintro ⟨k, g, hpc, -⟩; exact hg ⟨k, g, hpc⟩)) hi
    have htab : ∀ t b, s.pool.table t = some b → b < N := fun t b hb => h.table hb
    -- most actions leave the policy alone and keep the victims
    have hout {P : Pool V Pid} {x : Backend V} (hpol : P.policy = s.pool.policy)
        (hlock : P.strategyLock = s.pool.strategyLock) (ht : ∀ t b, P.table t = some b → b < N)
        (hring : x.ring.Ranged N) (hx : x.pc.Ranged V N) (hv : NoLoss (N := N) s p i →
          ∀ b ∈ (s.duty p).victims, b ∈ x.pc.duty.victims) :
        Placed L (⟨P, Function.update s.backends p x⟩ : Sys V Pid) ∧
          ((∀ k g, (s.backends p).pc ≠ .getBuffer k g) → x.pc.Ranged V N) ∧
          (NoLoss (N := N) s p i → Kept L s p P x) :=
      ⟨h.outside hpol hlock ht hring hx, fun _ => hx,
        fun hn => .of_imp (fun _ hb => hpol ▸ hb) (hv hn)⟩
    have hkept {x : Backend V} {d : Duty} (hx : x.pc.Has d) (hd : d.victims = (s.duty p).victims) :
        NoLoss (N := N) s p i → ∀ b ∈ (s.duty p).victims, b ∈ x.pc.duty.victims :=
      fun _ b hb => (hx.victims b).mpr (hd ▸ hb)
    cases i with
    | goto next | clearValid b next =>
      cases he
      exact hout rfl rfl htab (h.ring p) hr (hkept hd rfl)
    | setRing r next =>
      cases he
      exact hout rfl rfl htab hr.1 hr.2 (hkept hd rfl)
    | raise message =>
      cases he
      refine hout rfl rfl htab (h.ring p) trivial fun hn => ?_
      rw [hn.error message rfl]
      exact fun b hb => hb
    | load b next | readTag b next =>
      cases he
      exact hout rfl rfl htab (h.ring p) (hr _) (hkept (hd _) rfl)
    | await b next =>
      cases ((ite_none_left_eq_some ..).mp he).2
      exact hout rfl rfl htab (h.ring p) (hr _) (hkept (hd _) rfl)
    | policy k g => exact absurd ⟨k, g, hd.1⟩ hg
    | pinFirst b held fresh =>
      obtain ⟨hheld, hfresh⟩ := hd (s.pool.state b)
      simp only [exec] at he
      split at he <;> cases he
      · exact hout rfl rfl htab (h.ring p) (hr _).1 (hkept hheld rfl)
      · exact hout rfl rfl htab (h.ring p) (hr _).2 (hkept hfresh rfl)
    | checkUnpinned b next =>
      cases ((ite_none_right_eq_some ..).mp he).2
      exact hout rfl rfl htab (h.ring p) hr (hkept hd rfl)
    | cas b old op ok fail =>
      simp only [exec] at he
      split at he <;> cases he
      · rename_i hold
        subst hold
        refine hout rfl rfl htab ?_ hr.1 ?_
        · split <;> exact h.ring p
        · cases op with
          | claim =>
            obtain ⟨-, h0, -, -, hpc⟩ := hd
            have hb : b ∉ (s.duty p).victims := fun hv => (hs.victims hv).ne'
              (hs.unpinned h0 p)
            exact fun _ c hc => ((hpc hb).victims c).mpr (mem_cons_of_mem b hc)
          | pin strategy => exact hkept hd.2.2.2 rfl
          | unlockExt u => exact hkept hd.2.2.2.2 rfl
          | dirty => exact hkept hd.2.2 rfl
      · exact hout rfl rfl htab (h.ring p) (hr.2 _) (hkept (hd.1 _) rfl)
    | lockBufHdr b next =>
      cases ((ite_none_left_eq_some ..).mp he).2
      exact hout rfl rfl htab (h.ring p) (hr _ _) (hkept (hd.2.1 _ _) rfl)
    | unlockBufHdr b next =>
      cases he
      exact hout rfl rfl htab (h.ring p) hr (hkept hd.2 rfl)
    | unpin b next wake =>
      obtain ⟨vs, -, hvs, hnext, hwake⟩ := hd
      have hlost {pc : Pc V.Pc} (hpc : pc.Has { (s.duty p) with victims := vs, fresh := none })
          (hn : NoLoss (N := N) s p (.unpin b next wake)) (c : ℕ) (hc : c ∈ (s.duty p).victims) :
          c ∈ pc.duty.victims :=
        (hpc.victims c).mpr (((hvs c).mp hc).resolve_right fun hb => hn.victim b next hb.2)
      obtain ⟨-, he⟩ := (ite_none_left_eq_some ..).mp he
      split at he <;> cases he
      · refine hout rfl rfl htab (h.ring p) ?_ (hlost ?_) <;> dsimp only [Backend.goto] <;> split
        · exact hr.2
        · exact hr.1
        · exact hwake
        · exact hnext
      · exact hout rfl rfl htab (h.ring p) hr.1 (hlost hnext)
    | writeTag b t next =>
      cases he
      exact hout rfl rfl htab (h.ring p) hr (hkept hd.2 rfl)
    | lookup t hit miss =>
      obtain ⟨-, he⟩ := (ite_none_right_eq_some ..).mp he
      split at he <;> cases he
      · rename_i b hb
        exact hout rfl rfl htab (h.ring p) (hr.1 b (h.table hb)) (hkept (hd.1 b) rfl)
      · exact hout rfl rfl htab (h.ring p) hr.2 (hkept hd.2 rfl)
    | lwExclusive t next =>
      cases ((ite_none_right_eq_some ..).mp he).2
      exact hout rfl rfl htab (h.ring p) hr (hkept hd rfl)
    | tableInsert t v fresh existing =>
      obtain ⟨hv, hfresh, hexisting⟩ := hr
      obtain ⟨-, he⟩ := (ite_none_right_eq_some ..).mp he
      split at he <;> cases he
      · exact hout rfl rfl (ranged_update htab (fun b hb => some.inj hb ▸ hv) t) (h.ring p)
          hfresh (hkept hd.1 rfl)
      · rename_i b hb
        exact hout rfl rfl htab (h.ring p) (hexisting b (h.table hb)) (hkept (hd.2 b) rfl)
    | tableDelete t next =>
      cases he
      exact hout rfl rfl (ranged_update htab (o := none) (fun b hb => by cases hb) t) (h.ring p) hr
        (hkept hd rfl)
    | lwRelease exclusive t next =>
      simp only [exec] at he
      split at he <;> cases he <;> exact hout rfl rfl htab (h.ring p) hr (hkept hd rfl)
    | notify n b next =>
      obtain ⟨hb, hnext⟩ := hr
      cases n with
      | insert =>
        obtain ⟨vs, -, hvs, hpc⟩ := hd
        obtain ⟨f, hf, hinv, hlinked, hlinks⟩ := L.insert h.inv hb
        simp only [exec, Notify.hook, hf, ite_none_right_eq_some] at he
        obtain ⟨hfree, he⟩ := he
        cases he
        refine ⟨h.released (fun q _ => by simp [hfree]) hinv rfl (h.ring p) hnext, fun _ => hnext,
          fun _ c hc => ?_⟩
        rcases hc with hc | hc
        · exact .inl (hlinks c hc)
        · rcases (hvs c).mp hc with rfl | hc
          · exact .inl hlinked
          · exact .inr ((hpc.victims c).mpr hc)
      | hit =>
        simp only [exec, Notify.hook] at he
        split at he
        · cases he
          exact hout rfl rfl htab (h.ring p) hnext (hkept hd rfl)
        · rename_i f hf
          obtain ⟨hinv, hlinks⟩ := L.hit hf h.inv hb
          obtain ⟨hfree, he⟩ := (ite_none_right_eq_some ..).mp he
          cases he
          exact ⟨h.released (fun q _ => by simp [hfree]) hinv rfl (h.ring p) hnext, fun _ => hnext,
            fun _ => .of_imp hlinks fun c hc => (hd.victims c).mpr hc⟩
      | invalidate =>
        simp only [exec, Notify.hook] at he
        split at he
        · cases he
          exact hout rfl rfl htab (h.ring p) hnext (hkept hd rfl)
        · rename_i f hf
          obtain ⟨hfree, he⟩ := (ite_none_right_eq_some ..).mp he
          cases he
          refine ⟨h.released (fun q _ => by simp [hfree]) (L.invalidate hf h.inv hb) rfl (h.ring p)
            hnext, fun _ => hnext, fun hn => ?_⟩
          rcases hn.invalidate with hn | hn
          · rw [hf] at hn
            cases hn
          · exact absurd rfl (hn b next)

omit [DecidableEq Pid] in
theorem boot_placed (L : V.ListPolicy N) : Placed L (boot V Pid N) where
  inv := L.inv_init
  inside h := nomatch h
  table h := nomatch h
  ring _ _ _ h := nomatch h
  ranged _ := .inl trivial

end Placed

end PostgreSieve
