import PostgreSieve.FastPath.Steps

/-! # Safety of the fast path

In every state that the steps can reach, the locks on the fast path do not conflict with those in the
main table, and every lock is found where it is looked for.
-/

namespace PostgreSieve.FastPath

open Function LockMgr Option

variable {Proc : Type} [DecidableEq Proc] {env : Env Proc} {s s' : FState Proc} {p : Proc}
  {tag : LockTag} {mode : LockMode}
variable {n : LockMode}

/-! ## Each step keeps the invariant -/

section

variable (h : FInv env s)
variable {phase phase' : Phase Proc} {dontWait : Bool}
include h

theorem FInv.acquire (hpc : s.pc p = none) (hnot : (tag, mode) ∉ s.held p) (dontWait : Bool) :
    ∃ s', step env s (.acquire p tag mode dontWait) = some s' ∧ FInv env s' := by
  rw [step]
  split
  next s' hfast => exact ⟨_, rfl, h.acquire_fast hpc hnot hfast⟩
  next =>
    split_ifs with hc
    · exact ⟨_, rfl, h.begin hpc hnot hc dontWait⟩
    · refine ⟨_, rfl, ?_⟩
      have hproc : ProcOk env s.main (s.slots p) (s.useCounts p) (s.held p)
          (some (tag, mode, .mainAcquire dontWait)) p := by
        refine (h.proc p).setPc (hpc ▸ quiet_none) (fun t n => by simp) ?_
        rintro t n phase ⟨⟩
        exact hnot
      have hfinal := h.advance_main h.main (fun q _ => .refl s.main q) (fun t n hc' => ?_)
        (fun t n q hc' hsw => ?_) hproc
      · rw [update_eq_self] at hfinal
        exact hfinal
      · rw [Claims, Claims, hpc]
        refine or_congr_right ⟨?_, by simp⟩
        rintro ⟨phase, ⟨⟩⟩
        exact absurd hc' hc
      · rcases hsw with hin | ⟨phase, ⟨⟩, -⟩
        · exact Or.inl (Or.inl hin)
        · exact absurd hc' hc

section

variable (hpc : s.pc p = some (tag, mode, phase))
include hpc

variable {main' : State Proc LockMode LockTag}

theorem FInv.changePhase (hinv : Inv env.config main')
    (hother : ∀ q, q ≠ p → Bystander s.main main' q)
    (hproc : ProcOk env main' (s.slots p) (s.useCounts p) (s.held p) (some (tag, mode, phase')) p)
    (hpassed : ∀ q, phase'.Passed q → phase.Passed q ∨ ∀ n, ¬ FastHolds env (s.slots q) q tag n) :
    FInv env ({ s with main := main' }.setPc p (some (tag, mode, phase'))) := by
  have hfinal := h.advance_main hinv hother (fun t n _ => ?_) (fun t n q _ hsw => ?_) hproc
  · rw [update_eq_self] at hfinal
    exact hfinal
  · simp [Claims, hpc]
  · rcases hsw with hin | ⟨_, ⟨⟩, hq⟩
    · exact Or.inl (Or.inl hin)
    · exact (hpassed q hq).imp_left fun hq => Or.inr ⟨phase, hpc, hq⟩

theorem FInv.setPhase (hquiet : Quiet (s.pc p)) (hquiet' : Quiet (some (tag, mode, phase')))
    (hpassed : ∀ q, phase'.Passed q → phase.Passed q ∨ ∀ n, ¬ FastHolds env (s.slots q) q tag n) :
    FInv env (s.setPc p (some (tag, mode, phase'))) := by
  refine h.changePhase hpc h.main (fun q _ => .refl s.main q)
    ((h.proc p).setPc hquiet hquiet' ?_) hpassed
  rintro t n _ ⟨⟩
  exact (h.proc p).fresh tag mode phase hpc

/-- A process gets the lock after it has passed all the others. -/
theorem FInv.grant (hpassed : ∀ q, phase.Passed q) (hinv : Inv env.config main')
    (hother : ∀ q, q ≠ p → Bystander s.main main' q)
    (hproc : ProcOk env main' (s.slots p) (s.useCounts p) (insert (tag, mode) (s.held p)) none p) :
    FInv env { s with
      main := main'
      held := update s.held p (insert (tag, mode) (s.held p))
      pc := update s.pc p none } := by
  refine h.advance_main hinv hother (fun t n _ => ?_) (fun t n q _ hsw => ?_) hproc
  · rw [Claims, Claims, hpc, Finset.mem_insert, Prod.mk.injEq]
    simp [or_comm, eq_comm]
  · rcases hsw with hin | ⟨_, ⟨⟩, -⟩
    rcases Finset.mem_insert.1 hin with heq | hin
    · cases heq
      exact Or.inl (Or.inr ⟨_, hpc, hpassed q⟩)
    · exact Or.inl (Or.inl hin)

end

theorem FInv.transfer {todo : List Proc}
    (hpc : s.pc p = some (tag, mode, .transfer dontWait todo)) (outOfMemory : Option ℕ) :
    ∃ s', step env s (.transfer p outOfMemory) = some s' ∧ FInv env s' := by
  have hquiet : Quiet (s.pc p) := by
    rw [hpc]
    exact fun t n => ⟨nofun, nofun⟩
  cases todo with
  | nil =>
    simp only [step, hpc]
    refine ⟨_, rfl, h.setPhase hpc hquiet (fun t n => ⟨nofun, nofun⟩) fun q _ => ?_⟩
    exact Or.inl List.not_mem_nil
  | cons q todo =>
    cases outOfMemory with
    | none =>
      simp only [step, hpc]
      obtain ⟨hinv, hpc', -, hcleared⟩ := h.transferProc tag q weakModes.length
      refine ⟨_, rfl, hinv.setPhase (hpc' ▸ hpc) (hpc' ▸ hquiet) (fun t n => ⟨nofun, nofun⟩) ?_⟩
      intro q' hq'
      by_cases heq : q' = q
      · subst heq
        exact Or.inr (hcleared le_rfl)
      · refine Or.inl fun hin => ?_
        rcases List.mem_cons.1 hin with rfl | hin
        · exact heq rfl
        · exact hq' hin
    | some limit =>
      simp only [step, hpc]
      obtain ⟨hinv, hpc', -, -⟩ := h.transferProc tag q limit
      exact ⟨_, rfl, hinv.setPhase (hpc' ▸ hpc) (hpc' ▸ hquiet) (fun t n => ⟨nofun, nofun⟩)
        fun q' hq' => False.elim hq'⟩

/-- A process gives up a lock or its attempt to get it, and goes on to drop the count. -/
theorem FInv.giveUp {main' : State Proc LockMode LockTag} (hpc : s.pc p = some (tag, mode, phase))
    (hinv : Inv env.config main') (hother : ∀ q, q ≠ p → Bystander s.main main' q)
    (hquiet' : Quiet (some (tag, mode, phase'))) (hpassed : ∀ q, ¬ phase'.Passed q)
    (hwait : main'.waitLock p = none) (hholds : ∀ t n, main'.Holds t p n → s.main.Holds t p n)
    (hrec : ∀ t n, FastHolds env (s.slots p) p t n ∨ main'.Holds t p n ↔ (t, n) ∈ s.held p) :
    FInv env ({ s with main := main' }.setPc p (some (tag, mode, phase'))) := by
  have hp := h.proc p
  have hproc : ProcOk env main' (s.slots p) (s.useCounts p) (s.held p)
      (some (tag, mode, phase')) p := by
    refine ⟨hp.slotsOk, hp.database, fun t n => ?_, fun t n hf hn => ?_, fun t n hrel => ?_,
      fun t ht => ?_, ?_⟩
    · rw [hrec, or_iff_left]
      rintro (hrel | ⟨hw, -⟩)
      · exact (hquiet' t n).1 hrel
      · exact (hquiet' t n).2 hw
    · exact hp.exclusive t n hf (hholds t n hn)
    · exact absurd hrel (hquiet' t n).1
    · rw [hwait] at ht
      cases ht
    · rintro t n _ ⟨⟩
      exact hp.fresh tag mode _ hpc
  exact h.changePhase hpc hinv hother hproc fun q hq => absurd hq (hpassed q)

theorem FInv.mainAcquire (hpc : s.pc p = some (tag, mode, .mainAcquire dontWait)) :
    ∃ s', step env s (.mainAcquire p) = some s' ∧ FInv env s' := by
  have hquiet : Quiet (s.pc p) := by
    rw [hpc]
    simp [Quiet]
  have hp := h.proc p
  have hrec := hp.recorded_quiet hquiet
  have hnot : ¬ (FastHolds env (s.slots p) p tag mode ∨ s.main.Holds tag p mode) :=
    fun hin => hp.fresh tag mode _ hpc ((hrec tag mode).1 hin)
  obtain ⟨main', status, hacquire, hinv, hother, hown⟩ := lockAcquire_spec h.main
    (hp.waitLock_quiet hquiet) (fun hin => hnot (Or.inr hin)) dontWait
  simp only [step, hpc, hacquire, bind_eq_bind, bind_some]
  cases status with
  | ok =>
    obtain ⟨hwait, hholds⟩ := hown
    exact ⟨_, rfl, h.grant hpc (fun _ => trivial) hinv hother (hp.granted hnot hrec hwait hholds)⟩
  | waiting =>
    obtain ⟨hwait, hwaits, hholds⟩ := hown
    have hproc : ProcOk env main' (s.slots p) (s.useCounts p) (s.held p)
        (some (tag, mode, .waiting)) p := by
      refine ⟨hp.slotsOk, hp.database, fun t n => ?_, fun t n hf hn => ?_, by simp, fun t ht => ?_, ?_⟩
      · rw [hholds, hrec, hwait]
        simp
      · exact hp.exclusive t n hf ((hholds t n).1 hn)
      · rw [hwait] at ht
        cases ht
        exact ⟨mode, rfl, hwaits⟩
      · rintro t n _ ⟨⟩
        exact hp.fresh tag mode _ hpc
    exact ⟨_, rfl, h.changePhase hpc hinv hother hproc fun _ _ => Or.inl trivial⟩
  | error =>
    obtain ⟨hwait, hholds⟩ := hown
    exact ⟨_, rfl, h.giveUp hpc hinv hother (fun t n => by simp) (fun _ hq => hq) hwait
      (fun t n => (hholds t n).1) fun t n => by rw [hholds, hrec]⟩

theorem FInv.awake (hpc : s.pc p = some (tag, mode, .waiting)) (hwait : s.main.waitLock p = none) :
    ∃ s', step env s (.awake p) = some s' ∧ FInv env s' := by
  have hp := h.proc p
  simp only [step, hpc, if_pos hwait]
  have hproc : ProcOk env s.main (s.slots p) (s.useCounts p)
      (insert (tag, mode) (s.held p)) none p := by
    refine ⟨hp.slotsOk, hp.database, fun t n => ?_, hp.exclusive, nofun, fun t ht => ?_, nofun⟩
    · rw [hp.recorded, hpc, hwait, Finset.mem_insert, Prod.mk.injEq]
      simp [or_comm, eq_comm]
    · rw [hwait] at ht
      cases ht
  exact ⟨_, rfl, h.grant hpc (fun _ => trivial) h.main (fun q _ => .refl s.main q) hproc⟩

theorem FInv.cancel (hpc : s.pc p = some (tag, mode, .waiting)) (hwait : s.main.waitLock p ≠ none) :
    ∃ s', step env s (.cancel p) = some s' ∧ FInv env s' := by
  obtain ⟨main', hremove, hinv, hother, hwait', hholds⟩ := removeFromWaitQueue_spec h.main hwait
  simp only [step, hpc, hremove, bind_eq_bind, bind_some]
  refine ⟨_, rfl, h.giveUp hpc hinv hother (fun t n => ⟨nofun, nofun⟩) (fun _ hq => hq) hwait'
    (fun t n => (hholds t n).1) fun t n => ?_⟩
  rw [hholds, (h.proc p).recorded, hpc]
  simp [hwait]

theorem FInv.mainRelease (hpc : s.pc p = some (tag, mode, .mainRelease)) :
    ∃ s', step env s (.mainRelease p) = some s' ∧ FInv env s' := by
  have hp := h.proc p
  have hheld := hp.released tag mode hpc
  have hwait : s.main.waitLock p = none := by
    cases hw : s.main.waitLock p with
    | none => rfl
    | some t =>
      obtain ⟨n, hn, -⟩ := hp.waits t hw
      rw [hpc] at hn
      cases hn
  obtain ⟨main', hrelease, hinv, hother, hwait', hholds⟩ := lockRelease_spec h.main hwait hheld
  simp only [step, hpc, hrelease, bind_eq_bind, bind_some]
  refine ⟨_, rfl, h.giveUp hpc hinv hother (fun t n => ⟨nofun, nofun⟩) (fun _ hq => hq) hwait'
    (fun t n hn => ((hholds t n).1 hn).1) fun t n => ?_⟩
  have hrec := hp.recorded t n
  rw [hpc] at hrec
  rw [hholds]
  by_cases heq : t = tag ∧ n = mode
  · obtain ⟨rfl, rfl⟩ := heq
    refine iff_of_false ?_ (hp.fresh t n _ hpc)
    rintro (hf | ⟨-, hne⟩)
    · exact hp.exclusive t n hf hheld
    · exact hne ⟨rfl, rfl⟩
  · rw [and_iff_left heq, hrec, or_iff_left]
    rintro (⟨⟨⟩⟩ | ⟨⟨⟩, -⟩)
    exact heq ⟨rfl, rfl⟩

theorem FInv.fastPathRelease_spec (p : Proc) (tag : LockTag) (mode : LockMode) :
    ∃ found slots' useCounts', fastPathRelease env s p tag mode = (found, { s with
        slots := update s.slots p slots'
        useCounts := update s.useCounts p useCounts' }) ∧
      (∀ group, SlotsOk (slots' group) (useCounts' group)) ∧
      (∀ group rel m, SlotHolds (slots' group) rel m → SlotHolds (s.slots p group) rel m) ∧
      (found = true ↔ FastHolds env (s.slots p) p tag mode) ∧
      ∀ t n, FastHolds env slots' p t n ↔
        FastHolds env (s.slots p) p t n ∧ ¬ (t = tag ∧ n = mode) := by
  have hp := h.proc p
  have hslots : (¬ FastHolds env (s.slots p) p tag mode ∧
      fastPathRelease env s p tag mode = (false, s)) ∨ ∃ rel, env.eligible p tag mode = some rel ∧
        0 < s.useCounts p (env.fastPathRelGroup rel) := by
    cases helig : env.eligible p tag mode with
    | none =>
      refine .inl ⟨fun hf => ?_, by simp [fastPathRelease, helig]⟩
      obtain ⟨rel, hrel, -⟩ := hp.eligible hf
      rw [helig] at hrel
      cases hrel
    | some rel =>
      by_cases huse : 0 < s.useCounts p (env.fastPathRelGroup rel)
      · exact .inr ⟨rel, rfl, huse⟩
      · refine .inl ⟨fun hf => ?_, by simp [fastPathRelease, helig, huse]⟩
        -- without slots in use there is no lock
        rw [(eligible_eq_some helig).1] at hf
        obtain ⟨-, slot, hslot, -, hm⟩ := hf
        have hused := (hp.slotsOk (env.fastPathRelGroup rel)).used
        have hpos : 0 < usedSlots (s.slots p (env.fastPathRelGroup rel)) :=
          List.countP_pos_iff.2 ⟨slot, hslot, by simpa using Finset.ne_empty_of_mem hm⟩
        omega
  rcases hslots with ⟨hnot, heq⟩ | ⟨rel, helig, huse⟩
  · refine ⟨false, s.slots p, s.useCounts p, by simpa using heq, hp.slotsOk,
      fun _ _ _ h => h, iff_of_false Bool.false_ne_true hnot, fun t n => (and_iff_left_of_imp ?_).symm⟩
    rintro hf ⟨rfl, rfl⟩
    exact hnot hf
  · obtain ⟨htag, -, -⟩ := eligible_eq_some helig
    have hfast : FastHolds env (s.slots p) p tag mode ↔
        SlotHolds (s.slots p (env.fastPathRelGroup rel)) rel mode := by
      rw [htag]
      simp [FastHolds]
    generalize hun : fastPathUnGrantRelationLock rel mode
      (s.slots p (env.fastPathRelGroup rel)) = r
    obtain ⟨found, new, k⟩ := r
    obtain ⟨hok, hfound, hnew⟩ := (hp.slotsOk _).unGrant hun
    refine ⟨found, update (s.slots p) (env.fastPathRelGroup rel) new,
      update (s.useCounts p) (env.fastPathRelGroup rel) k, ?_,
      slotsOk_update hp.slotsOk _ hok, fun group rel' m hm => ?_, hfound.trans hfast.symm,
      fastHolds_update (F := fun a t n => a ∧ ¬ (t ∧ n = mode)) (by simp) htag hnew⟩
    · simp only [fastPathRelease, helig, if_pos huse, hun]
      rfl
    · by_cases hg : group = env.fastPathRelGroup rel
      · subst hg
        rw [update_self, hnew] at hm
        exact hm.1
      · rwa [update_of_ne hg] at hm

theorem FInv.release (hpc : s.pc p = none) (hin : (tag, mode) ∈ s.held p) :
    ∃ s', step env s (.release p tag mode) = some s' ∧ FInv env s' := by
  have hp := h.proc p
  have hrec := hp.recorded_quiet (hpc ▸ quiet_none)
  obtain ⟨found, slots', useCounts', hrel, hok, hsub, hfound, hfast⟩ :=
    h.fastPathRelease_spec p tag mode
  have hdb : ∀ group rel m, SlotHolds (slots' group) rel m → env.databaseId p ≠ invalidOid :=
    fun group rel m hm => hp.database group rel m (hsub group rel m hm)
  have hpc' : update s.pc p none = s.pc := by rw [← hpc, update_eq_self]
  simp only [step, hrel]
  refine ⟨_, rfl, ?_⟩
  cases found with
  | true =>
    have hf := hfound.1 rfl
    have hproc : ProcOk env s.main slots' useCounts' ((s.held p).erase (tag, mode)) none p := by
      refine ⟨hok, hdb, fun t n => ?_, fun t n hf' => ?_, nofun, ?_, nofun⟩
      · rw [hfast, Finset.mem_erase, ← hrec, ne_eq, Prod.mk.injEq]
        simp only [reduceCtorEq, false_and, or_false]
        constructor
        · rintro (⟨hf', hne⟩ | hn)
          · exact ⟨hne, Or.inl hf'⟩
          · refine ⟨?_, Or.inr hn⟩
            rintro ⟨rfl, rfl⟩
            exact hp.exclusive t n hf hn
        · rintro ⟨hne, hf' | hn⟩
          · exact Or.inl ⟨hf', hne⟩
          · exact Or.inr hn
      · exact hp.exclusive t n ((hfast t n).1 hf').1
      · rw [← hpc]
        exact hp.waits
    obtain ⟨rel, helig, -⟩ := hp.eligible hf
    have hweak : conflictsWithFastPath tag mode = false :=
      conflictsWithFastPath_eq_false (eligible_eq_some helig).2.2
    have hfinal := h.advance h.main (fun q _ => .refl s.main q) (fun t n hc => ?_)
      (fun t n q _ hsw => ?_) hproc fun t n hf' => Or.inl ((hfast t n).1 hf').1
    · rw [hpc'] at hfinal
      exact hfinal
    · rw [Claims, Claims, hpc, Finset.mem_erase]
      refine or_congr_left (and_iff_right ?_)
      rintro ⟨⟩
      rw [hweak] at hc
      cases hc
    · rcases hsw with hheld | ⟨_, ⟨⟩, -⟩
      exact Or.inl (Or.inl (Finset.mem_of_mem_erase hheld))
  | false =>
    have hf : ¬ FastHolds env (s.slots p) p tag mode := fun hf => Bool.false_ne_true (hfound.2 hf)
    have hholds := ((hrec tag mode).2 hin).resolve_left hf
    have hproc : ProcOk env s.main slots' useCounts' ((s.held p).erase (tag, mode))
        (some (tag, mode, .mainRelease)) p := by
      refine ⟨hok, hdb, fun t n => ?_, fun t n hf' => ?_, ?_, fun t ht => ?_, ?_⟩
      · have hfast' : FastHolds env slots' p t n ↔ FastHolds env (s.slots p) p t n := by
          rw [hfast]
          refine and_iff_left_of_imp ?_
          rintro hf' ⟨rfl, rfl⟩
          exact hf hf'
        rw [hfast', hrec, Finset.mem_erase, ne_eq, Prod.mk.injEq]
        simp only [some.injEq, Prod.mk.injEq, and_true, reduceCtorEq, and_false, false_and,
          or_false]
        constructor
        · intro hheld
          by_cases heq : t = tag ∧ n = mode
          · exact Or.inr ⟨heq.1.symm, heq.2.symm⟩
          · exact Or.inl ⟨heq, hheld⟩
        · rintro (⟨-, hheld⟩ | ⟨rfl, rfl⟩)
          · exact hheld
          · exact hin
      · exact hp.exclusive t n ((hfast t n).1 hf').1
      · rintro t n ⟨⟩
        exact hholds
      · rw [hp.waitLock_quiet (hpc ▸ quiet_none)] at ht
        cases ht
      · rintro t n _ ⟨⟩
        exact Finset.notMem_erase _ _
    refine h.advance h.main (fun q _ => .refl s.main q) (fun t n hc => ?_)
      (fun t n q _ hsw => ?_) hproc fun t n hf' => Or.inl ((hfast t n).1 hf').1
    · rw [Claims, Claims, hpc, Finset.mem_erase]
      constructor
      · rintro (⟨-, hheld⟩ | ⟨_, ⟨⟩⟩)
        · exact Or.inl hheld
        · exact Or.inl hin
      · rintro (hheld | ⟨_, ⟨⟩⟩)
        by_cases heq : (t, n) = (tag, mode)
        · cases heq
          exact Or.inr ⟨_, rfl⟩
        · exact Or.inl ⟨heq, hheld⟩
    · rcases hsw with hheld | ⟨_, ⟨⟩, -⟩
      · exact Or.inl (Or.inl (Finset.mem_of_mem_erase hheld))
      · exact Or.inl (Or.inl hin)

theorem step_spec {action : Action Proc} (hready : Ready s action) :
    ∃ s', step env s action = some s' ∧ FInv env s' := by
  cases action with
  | acquire p tag lockmode dontWait => exact h.acquire hready.1 hready.2 dontWait
  | transfer p outOfMemory =>
    obtain ⟨tag, lockmode, dontWait, todo, hpc⟩ := hready
    exact h.transfer hpc outOfMemory
  | mainAcquire p =>
    obtain ⟨tag, lockmode, dontWait, hpc⟩ := hready
    exact h.mainAcquire hpc
  | outOfMemory p =>
    obtain ⟨tag, lockmode, dontWait, hpc⟩ := hready
    simp only [step, hpc]
    exact ⟨_, rfl, h.setPhase hpc (hpc ▸ fun t n => ⟨nofun, nofun⟩) (fun t n => ⟨nofun, nofun⟩)
      fun q hq => False.elim hq⟩
  | awake p =>
    obtain ⟨tag, lockmode, hpc, hwait⟩ := hready
    exact h.awake hpc hwait
  | cancel p =>
    obtain ⟨tag, lockmode, hpc, hwait⟩ := hready
    exact h.cancel hpc hwait
  | abort p | removeLocalLock p =>
    obtain ⟨tag, lockmode, hpc⟩ := hready
    simp only [step, hpc]
    exact ⟨_, rfl, h.drop hpc (hpc ▸ fun t n => ⟨nofun, nofun⟩)⟩
  | release p tag lockmode => exact h.release hready.1 hready.2
  | mainRelease p =>
    obtain ⟨tag, lockmode, hpc⟩ := hready
    exact h.mainRelease hpc
  | wakeup p tag =>
    obtain ⟨lock, hlock⟩ := ne_none_iff_exists'.1 hready
    obtain ⟨main', hwake, hinv, hother⟩ := wakeup_spec h.main hlock p
    simp only [step, hwake, bind_eq_bind, bind_some]
    refine ⟨_, rfl, ?_⟩
    simpa using h.advance_main hinv (fun q _ => hother q) (fun _ _ _ => Iff.rfl)
      (fun _ _ _ _ hsw => Or.inl hsw) ((h.proc p).bystander h.main (hother p))

end

theorem Reachable.inv (h : Reachable env s) : FInv env s := by
  induction h with
  | refl => exact fInv_init
  | tail _ hstep ih =>
    obtain ⟨action, hready, hexec⟩ := hstep
    obtain ⟨s', hexec', hinv⟩ := step_spec ih hready
    rw [hexec] at hexec'
    cases hexec'
    exact hinv

/-! ## The fast path is invisible -/

/-- The process has the lock, as far as its own state tells: it is in its local lock table, or it is
about to be granted or given up. -/
def FState.Held (s : FState Proc) (p : Proc) (tag : LockTag) (m : LockMode) : Prop :=
  (tag, m) ∈ s.held p ∨ s.pc p = some (tag, m, .mainRelease) ∨
    s.pc p = some (tag, m, .waiting) ∧ s.main.waitLock p = none

omit [DecidableEq Proc] in
/-- A lock that is granted in the main table does not conflict with one in a slot. -/
theorem FInv.not_conflict (h : FInv env s)
    (hf : FastHolds env (s.slots q) q tag n) (hholds : s.main.Holds tag p m) :
    m ∉ lockConflicts n := by
  intro hconflict
  obtain ⟨rel, helig, -⟩ := (h.proc q).eligible hf
  have hstrong := strong_of_conflict n m (eligible_eq_some helig).2.2 hconflict
  rw [h.strong_eq_false hf hholds] at hstrong
  cases hstrong

omit [DecidableEq Proc] in
theorem FInv.compatible (h : FInv env s)
    (hp : FastHolds env (s.slots p) p tag m ∨ s.main.Holds tag p m)
    (hq : FastHolds env (s.slots q) q tag n ∨ s.main.Holds tag q n)
    (hgroup : env.config.group p ≠ env.config.group q) : n ∉ lockConflicts m := by
  rcases hp with hp | hp <;> rcases hq with hq | hq
  · intro hconflict
    obtain ⟨rel, helig, -⟩ := (h.proc p).eligible hp
    obtain ⟨rel', helig', -⟩ := (h.proc q).eligible hq
    have hstrong := strong_of_conflict m n (eligible_eq_some helig).2.2 hconflict
    rw [FastPath.strong_eq_false n (eligible_eq_some helig').2.2] at hstrong
    cases hstrong
  · exact h.not_conflict hp hq
  · exact fun hconflict => h.not_conflict hq hp (env.config.conflict_symm m n hconflict)
  · intro hconflict
    obtain ⟨lock, hlock, hp⟩ := hp
    obtain ⟨lock', hlock', hq⟩ := hq
    rw [hlock] at hlock'
    cases hlock'
    have hne : p ≠ q := by
      rintro rfl
      exact hgroup rfl
    exact hgroup ((h.main.settled tag lock hlock).1.exclusive p q m n hp hq hconflict hne).1

/-- Two processes of one database. -/
def twoProcs : Env Bool where
  allProcs := [false, true]
  mem_allProcs := by decide
  databaseId := fun _ => 1
  lockGroupLeader := fun _ => none
  leader_leads := nofun
  fastPathLockGroupsPerBackend := 1
  hashcode := fun _ => 0

theorem twoProcs_reachable : ∃ s, Reachable twoProcs s ∧
    (LockTag.relation 1 5, LockMode.accessShare) ∈ s.held false ∧
    FastHolds twoProcs (s.slots false) false (.relation 1 5) .accessShare := by
  refine ⟨_, .single ⟨.acquire false (.relation 1 5) .accessShare false, ⟨rfl, ?_⟩, rfl⟩,
    ?_, rfl, ?_⟩
  · exact Finset.notMem_empty _
  · exact Finset.mem_insert_self _ _
  · exact ⟨⟨5, {.accessShare}⟩, List.mem_iff_getElem?.2 ⟨15, rfl⟩, rfl, by decide⟩

end PostgreSieve.FastPath
