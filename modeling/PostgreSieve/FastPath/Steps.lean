import PostgreSieve.FastPath.Invariant

/-! # The steps of the fast path

Each step keeps the invariant, and does not fail.
-/

namespace PostgreSieve.FastPath

open Function LockMgr List

variable {Proc : Type} {env : Env Proc} {s : FState Proc} {main main' : State Proc LockMode LockTag}
  {slots : ℕ → List Slot} {useCounts : ℕ → ℕ} {held : Finset (LockTag × LockMode)}
  {pc pc' : Option (LockTag × LockMode × Phase Proc)} {p q : Proc} {tag : LockTag}
  {m mode : LockMode}
variable {rel : ℕ} {P : LockMode → Prop} {new : List Slot}

/-! ## Weak and strong locks -/

theorem strong_of_conflict : ∀ m n, LockMode.weak m = true → n ∈ lockConflicts m →
    LockMode.strong n = true := by
  decide

theorem strong_eq_false : ∀ m, LockMode.weak m = true → LockMode.strong m = false := by
  decide

theorem eligible_eq_some (h : env.eligible p tag mode = some rel) :
    tag = .relation (env.databaseId p) rel ∧ env.databaseId p ≠ invalidOid ∧ mode.weak = true := by
  unfold Env.eligible at h
  split at h
  · split_ifs at h with hif
    cases h
    exact ⟨by rw [hif.1], hif.2⟩
  · cases h

theorem conflictsWithFastPath_eq_false (h : mode.weak = true) :
    conflictsWithFastPath tag mode = false := by
  cases tag with
  | relation db rel => simp [conflictsWithFastPath, strong_eq_false mode h]
  | relationExtend db rel => rfl
  | other id => rfl

theorem ProcOk.eligible (h : ProcOk env main slots useCounts held pc q)
    (hf : FastHolds env slots q tag m) : ∃ rel, env.eligible q tag m = some rel ∧
      SlotHolds (slots (env.fastPathRelGroup rel)) rel m := by
  cases tag with
  | relation db rel =>
    obtain ⟨rfl, hslot⟩ := hf
    refine ⟨rel, ?_, hslot⟩
    have hdb := h.database _ rel m hslot
    obtain ⟨slot, hmem, -, hm⟩ := hslot
    have hweak := (h.slotsOk _).weak slot hmem m hm
    simp [Env.eligible, hdb, hweak]
  | relationExtend db rel => cases hf
  | other id => cases hf

/-- A change to what the slots hold of one relation. -/
theorem fastHolds_update {F : Prop → Prop → LockMode → Prop} (hF : ∀ a m', F a False m' ↔ a)
    (htag : tag = .relation (env.databaseId q) rel)
    (hnew : ∀ rel' m', SlotHolds new rel' m' ↔
      F (SlotHolds (slots (env.fastPathRelGroup rel)) rel' m') (rel' = rel) m')
    (t : LockTag) (m' : LockMode) :
    FastHolds env (update slots (env.fastPathRelGroup rel) new) q t m' ↔
      F (FastHolds env slots q t m') (t = tag) m' := by
  subst htag
  by_cases ht : t = .relation (env.databaseId q) rel
  · subst ht
    simp [FastHolds, hnew]
  · rw [eq_false ht, hF]
    cases t with
    | relation db rel' =>
      refine and_congr_right fun hdb => ?_
      have hne : rel' ≠ rel := fun heq => ht (by rw [hdb, heq])
      by_cases hgroup : env.fastPathRelGroup rel' = env.fastPathRelGroup rel
      · rw [hgroup, update_self, hnew, eq_false hne, hF]
      · rw [update_of_ne hgroup]
    | relationExtend db rel' => rfl
    | other id => rfl

/-! ## Changes of a process -/

/-- The process is not about to release a lock or to get one. -/
def Quiet (pc : Option (LockTag × LockMode × Phase Proc)) : Prop :=
  ∀ tag m, pc ≠ some (tag, m, .mainRelease) ∧ pc ≠ some (tag, m, .waiting)

theorem quiet_none : Quiet (none : Option (LockTag × LockMode × Phase Proc)) :=
  fun _ _ => ⟨nofun, nofun⟩

section

variable (h : ProcOk env main slots useCounts held pc q)
include h

theorem ProcOk.recorded_quiet (hpc : Quiet pc) (tag : LockTag) (m : LockMode) :
    FastHolds env slots q tag m ∨ main.Holds tag q m ↔ (tag, m) ∈ held := by
  rw [h.recorded, or_iff_left]
  rintro (hrel | ⟨hwait, -⟩)
  · exact (hpc tag m).1 hrel
  · exact (hpc tag m).2 hwait

theorem ProcOk.waitLock_quiet (hpc : Quiet pc) :
    main.waitLock q = none := by
  cases hwait : main.waitLock q with
  | none => rfl
  | some tag =>
    obtain ⟨m, hm, -⟩ := h.waits tag hwait
    exact absurd hm (hpc tag m).2

theorem ProcOk.setPc (hpc : Quiet pc)
    (hpc' : Quiet pc') (hfresh : ∀ tag m phase, pc' = some (tag, m, phase) → (tag, m) ∉ held) :
    ProcOk env main slots useCounts held pc' q where
  slotsOk := h.slotsOk
  database := h.database
  recorded tag m := by
    rw [h.recorded_quiet hpc, or_iff_left]
    rintro (hrel | ⟨hwait, -⟩)
    · exact (hpc' tag m).1 hrel
    · exact (hpc' tag m).2 hwait
  exclusive := h.exclusive
  released tag m hrel := absurd hrel (hpc' tag m).1
  waits tag hwait := by
    rw [h.waitLock_quiet hpc] at hwait
    cases hwait
  fresh := hfresh

theorem ProcOk.granted (hnot : ¬ (FastHolds env slots q tag mode ∨ main.Holds tag q mode))
    (hrec : ∀ t m, FastHolds env slots q t m ∨ main.Holds t q m ↔ (t, m) ∈ held)
    (hwait : main'.waitLock q = none)
    (hholds : ∀ t n, main'.Holds t q n ↔ main.Holds t q n ∨ t = tag ∧ n = mode) :
    ProcOk env main' slots useCounts (insert (tag, mode) held) none q where
  slotsOk := h.slotsOk
  database := h.database
  recorded t n := by
    rw [hholds, ← or_assoc, hrec, Finset.mem_insert, Prod.mk.injEq]
    simp [or_comm]
  exclusive t n hf hn := by
    rcases (hholds t n).1 hn with hold | ⟨rfl, rfl⟩
    · exact h.exclusive t n hf hold
    · exact hnot (Or.inl hf)
  released t n := nofun
  waits t hw := by
    rw [hwait] at hw
    cases hw
  fresh t n phase := nofun

theorem ProcOk.database_update {group : ℕ}
    (hnew : ∀ rel m, SlotHolds new rel m → env.databaseId q ≠ invalidOid)
    (g rel : ℕ) (m : LockMode) (hm : SlotHolds (update slots group new g) rel m) :
    env.databaseId q ≠ invalidOid := by
  by_cases hg : g = group
  · subst hg
    rw [update_self] at hm
    exact hnew rel m hm
  · rw [update_of_ne hg] at hm
    exact h.database g rel m hm

/-- Some locks of a process move from its slots to the main table. -/
theorem ProcOk.transferred {slots' : ℕ → List Slot}
    {Moved : LockTag → LockMode → Prop} (hok : ∀ group, SlotsOk (slots' group) (useCounts group))
    (hdb : ∀ group rel m, SlotHolds (slots' group) rel m → env.databaseId q ≠ invalidOid)
    (hfast : ∀ t n, FastHolds env slots' q t n ↔ FastHolds env slots q t n ∧ ¬ Moved t n)
    (hholds : ∀ t n, main'.Holds t q n ↔ main.Holds t q n ∨ Moved t n)
    (hmoved : ∀ t n, Moved t n → FastHolds env slots q t n)
    (hlock : main'.waitLock q = main.waitLock q)
    (hwaits : ∀ t n, main'.Waits t q n ↔ main.Waits t q n) :
    ProcOk env main' slots' useCounts held pc q := by
  refine ⟨hok, hdb, fun t n => ?_, fun t n hf hn => ?_, fun t n hpc => ?_, fun t hw => ?_, h.fresh⟩
  · rw [hfast, hholds, hlock, ← h.recorded]
    constructor
    · rintro (⟨hf, -⟩ | hold | hm)
      · exact Or.inl hf
      · exact Or.inr hold
      · exact Or.inl (hmoved t n hm)
    · rintro (hf | hold)
      · by_cases hm : Moved t n
        · exact Or.inr (Or.inr hm)
        · exact Or.inl ⟨hf, hm⟩
      · exact Or.inr (Or.inl hold)
  · obtain ⟨hold, hnot⟩ := (hfast t n).1 hf
    rcases (hholds t n).1 hn with hn | hm
    · exact h.exclusive t n hold hn
    · exact hnot hm
  · exact (hholds t n).2 (Or.inl (h.released t n hpc))
  · rw [hlock] at hw
    obtain ⟨n, hpc, hn⟩ := h.waits t hw
    exact ⟨n, hpc, (hwaits t n).2 hn⟩

end

theorem slotsOk_update (h : ∀ group, SlotsOk (slots group) (useCounts group)) (group : ℕ)
    {k : ℕ} (hnew : SlotsOk new k) (g : ℕ) :
    SlotsOk (update slots group new g) (update useCounts group k g) := by
  by_cases hg : g = group
  · subst hg
    simpa using hnew
  · simpa [hg] using h g

/-- No strong lock is granted on a relation that is locked on the fast path. -/
theorem FInv.strong_eq_false (h : FInv env s) {n : LockMode}
    (hf : FastHolds env (s.slots q) q tag m) (hholds : s.main.Holds tag p n) :
    n.strong = false := by
  obtain ⟨rel, helig, -⟩ := (h.proc q).eligible hf
  obtain ⟨htag, hdb, -⟩ := eligible_eq_some helig
  by_contra hstrong
  rw [Bool.not_eq_false] at hstrong
  have hc : conflictsWithFastPath tag n = true := by
    rw [htag]
    simpa [conflictsWithFastPath, hstrong] using hdb
  have hsw : Swept (s.held p) (s.pc p) tag n q := by
    rcases ((h.proc p).recorded tag n).1 (Or.inr hholds) with hin | hpc | ⟨hpc, -⟩
    · exact Or.inl hin
    · exact Or.inr ⟨_, hpc, trivial⟩
    · exact Or.inr ⟨_, hpc, trivial⟩
  exact h.swept p tag n q m hc hsw hf

/-! ## Acquiring -/

variable [DecidableEq Proc]

section

variable (h : FInv env s) (hpc : s.pc p = none) (hnot : (tag, mode) ∉ s.held p)
include h hpc hnot

theorem FInv.acquire_fast {s' : FState Proc} (hfast : fastPathAcquire env s p tag mode = some s') :
    FInv env (s'.setHeld p (insert (tag, mode) (s.held p))) := by
  unfold fastPathAcquire at hfast
  split at hfast
  next => cases hfast
  next rel helig =>
  obtain ⟨htag, hdb, hweak⟩ := eligible_eq_some helig
  dsimp only at hfast
  split_ifs at hfast with hif
  split at hfast
  next slots' k hgrant =>
    cases hfast
    have hp := h.proc p
    rw [hpc] at hp
    have hrec := hp.recorded_quiet quiet_none
    obtain ⟨hok, hslots⟩ := (hp.slotsOk _).grant hweak hgrant
    have hf := fastHolds_update (F := fun a t n => a ∨ t ∧ n = mode) (by simp) htag hslots
    have hweak' : conflictsWithFastPath tag mode = false := conflictsWithFastPath_eq_false hweak
    have hpc' : update s.pc p none = s.pc := by rw [← hpc, update_eq_self]
    have hproc : ProcOk env s.main
        (update (s.slots p) (env.fastPathRelGroup rel) slots')
        (update (s.useCounts p) (env.fastPathRelGroup rel) k)
        (insert (tag, mode) (s.held p)) none p := {
      slotsOk := slotsOk_update hp.slotsOk _ hok
      database := hp.database_update fun rel' m hm => hdb
      recorded := fun t n => by
        rw [hf, or_right_comm, hrec, Finset.mem_insert, Prod.mk.injEq]
        simp [or_comm]
      exclusive := fun t n hfast hholds => by
        rcases (hf t n).1 hfast with hold | ⟨rfl, rfl⟩
        · exact hp.exclusive t n hold hholds
        · exact hnot ((hrec t n).1 (Or.inr hholds))
      released := fun t n => nofun
      waits := hp.waits
      fresh := fun t n phase => nofun }
    have hfinal := h.advance h.main (fun q _ => .refl s.main q) ?_ ?_ hproc ?_
    · rw [hpc'] at hfinal
      exact hfinal
    · intro t n hc
      rw [hpc, Claims, Claims, Finset.mem_insert, Prod.mk.injEq, or_assoc]
      refine or_iff_right ?_
      rintro ⟨rfl, rfl⟩
      rw [hweak'] at hc
      cases hc
    · intro t n q hc hsw
      rcases hsw with hin | ⟨phase, hphase, -⟩
      · rcases Finset.mem_insert.1 hin with heq | hin
        · cases heq
          rw [hweak'] at hc
          cases hc
        · exact Or.inl (Or.inl hin)
      · cases hphase
    · intro t n hfast
      rcases (hf t n).1 hfast with hold | ⟨rfl, rfl⟩
      · exact Or.inl hold
      · -- a count that is zero leaves no strong locker in the partition
        refine Or.inr fun p' m hin => ?_
        have hzero := hif.2
        rw [h.count, Finset.card_eq_zero] at hzero
        have hin' : (p', t, m) ∈ s.strongLocks.filter
            fun lock => env.partition lock.2.1 = env.partition t := Finset.mem_filter.2 ⟨hin, rfl⟩
        rw [hzero] at hin'
        cases hin'
  next => cases hfast

theorem FInv.begin (hc : conflictsWithFastPath tag mode = true) (dontWait : Bool) :
    FInv env ((beginStrongLockAcquire env s p tag mode).setPc p
      (some (tag, mode, .transfer dontWait env.allProcs))) := by
  have hp := h.proc p
  have hclaims : ∀ t n, Claims (s.held p) (some (tag, mode, .transfer dontWait env.allProcs)) t n ↔
      Claims (s.held p) (s.pc p) t n ∨ t = tag ∧ n = mode := by
    simp [Claims, hpc, eq_comm]
  have hfresh : (p, tag, mode) ∉ s.strongLocks := by
    rw [h.strong, hpc]
    rintro ⟨-, hin | ⟨phase, hphase⟩⟩
    · exact hnot hin
    · cases hphase
  refine ⟨h.main, fun q => ?_, fun part => ?_, fun q t n => ?_, fun p' t n q n' hc' hsw => ?_⟩
  · by_cases hq : q = p
    · subst hq
      simp only [FState.setPc, beginStrongLockAcquire, update_self]
      refine hp.setPc (hpc ▸ quiet_none) (fun t n => by simp) ?_
      rintro t n phase ⟨⟩
      exact hnot
    · simpa [FState.setPc, beginStrongLockAcquire, hq] using h.proc q
  · simp only [FState.setPc, beginStrongLockAcquire, Finset.filter_insert]
    by_cases hpart : part = env.partition tag
    · subst hpart
      rw [update_self, if_pos rfl, Finset.card_insert_of_notMem, h.count]
      exact fun hin => hfresh (Finset.mem_filter.1 hin).1
    · rw [update_of_ne hpart, if_neg fun heq => hpart heq.symm]
      exact h.count part
  · simp only [FState.setPc, beginStrongLockAcquire, Finset.mem_insert, Prod.mk.injEq]
    by_cases hq : q = p
    · subst hq
      rw [update_self, hclaims, h.strong]
      constructor
      · rintro (⟨-, rfl, rfl⟩ | ⟨hc', hcl⟩)
        · exact ⟨hc, Or.inr ⟨rfl, rfl⟩⟩
        · exact ⟨hc', Or.inl hcl⟩
      · rintro ⟨hc', hcl | ⟨rfl, rfl⟩⟩
        · exact Or.inr ⟨hc', hcl⟩
        · exact Or.inl ⟨rfl, rfl, rfl⟩
    · simp only [hq, false_and, false_or, update_of_ne hq]
      exact h.strong q t n
  · simp only [FState.setPc, beginStrongLockAcquire] at hsw ⊢
    by_cases hp' : p' = p
    · subst hp'
      rw [update_self] at hsw
      rcases hsw with hin | ⟨phase, hphase, hpassed⟩
      · exact h.swept p' t n q n' hc' (Or.inl hin)
      · cases hphase
        exact absurd (env.mem_allProcs q) hpassed
    · rw [update_of_ne hp'] at hsw
      exact h.swept p' t n q n' hc' hsw

end

theorem FInv.drop (h : FInv env s) {phase : Phase Proc} (hpc : s.pc p = some (tag, mode, phase))
    (hquiet : Quiet (s.pc p)) : FInv env ((dropStrongLockCount env s p tag mode).setPc p none) := by
  have hp := h.proc p
  have hnot := hp.fresh tag mode phase hpc
  have hclaims : ∀ t n, Claims (s.held p) (none : Option (LockTag × LockMode × Phase Proc)) t n ↔
      Claims (s.held p) (s.pc p) t n ∧ ¬ (t = tag ∧ n = mode) := by
    intro t n
    simp only [Claims, hpc, Option.some.injEq, Prod.mk.injEq, reduceCtorEq, exists_false, or_false]
    constructor
    · intro hin
      refine ⟨Or.inl hin, ?_⟩
      rintro ⟨rfl, rfl⟩
      exact hnot hin
    · rintro ⟨hin | ⟨phase', rfl, rfl, -⟩, hne⟩
      · exact hin
      · exact absurd ⟨rfl, rfl⟩ hne
  have hproc : ProcOk env s.main (s.slots p) (s.useCounts p) (s.held p) none p :=
    hp.setPc hquiet quiet_none (by simp)
  unfold dropStrongLockCount
  split_ifs with hin
  · refine ⟨h.main, fun q => ?_, fun part => ?_, fun q t n => ?_, fun p' t n q n' hc' hsw => ?_⟩
    · by_cases hq : q = p
      · subst hq
        simpa [FState.setPc] using hproc
      · simpa [FState.setPc, hq] using h.proc q
    · simp only [FState.setPc, Finset.filter_erase]
      by_cases hpart : part = env.partition tag
      · subst hpart
        rw [update_self, Finset.card_erase_of_mem, h.count]
        exact Finset.mem_filter.2 ⟨hin, rfl⟩
      · rw [update_of_ne hpart, Finset.erase_eq_of_notMem]
        · exact h.count part
        · exact fun hmem => hpart (Finset.mem_filter.1 hmem).2.symm
    · simp only [FState.setPc, Finset.mem_erase, ne_eq, Prod.mk.injEq]
      by_cases hq : q = p
      · subst hq
        rw [update_self, hclaims, h.strong]
        tauto
      · simp only [hq, false_and, not_false_eq_true, true_and, update_of_ne hq]
        exact h.strong q t n
    · simp only [FState.setPc] at hsw ⊢
      by_cases hp' : p' = p
      · subst hp'
        rw [update_self] at hsw
        rcases hsw with hin | ⟨phase', hphase, -⟩
        · exact h.swept p' t n q n' hc' (Or.inl hin)
        · cases hphase
      · rw [update_of_ne hp'] at hsw
        exact h.swept p' t n q n' hc' hsw
  · have hfinal := h.advance_main h.main (fun q _ => .refl s.main q) (fun t n hc => ?_)
      (fun t n q hc hsw => ?_) hproc
    · rw [update_eq_self] at hfinal
      exact hfinal
    · rw [hclaims]
      refine and_iff_left_of_imp fun hcl => ?_
      rintro ⟨rfl, rfl⟩
      exact hin ((h.strong p t n).2 ⟨hc, hcl⟩)
    · rcases hsw with hheld | ⟨phase', hphase, -⟩
      · exact Or.inl (Or.inl hheld)
      · cases hphase

/-! ## Transferring -/

theorem transferLock_spec (h : Inv env.config main) (hnot : ¬ main.Holds tag q mode)
    (hwait : ¬ main.Waits tag q mode)
    (hcompatible : ∀ q' n, main.Holds tag q' n → n ∉ lockConflicts mode) :
    Inv env.config (transferLock env tag q main mode) ∧
      (transferLock env tag q main mode).waitLock = main.waitLock ∧
      (∀ t q' n, (transferLock env tag q main mode).Waits t q' n ↔ main.Waits t q' n) ∧
      ∀ t q' n, (transferLock env tag q main mode).Holds t q' n ↔
        main.Holds t q' n ∨ t = tag ∧ q' = q ∧ n = mode := by
  obtain ⟨hok, hblocked, hqueued⟩ := h.getD tag
  have hnotIn : ¬ HoldsIn ((main.locks tag).getD Lock.new).procLocks q mode :=
    fun hin => hnot (heldIn_iff_getD.2 hin)
  obtain ⟨hpending, hsame⟩ := hok.setupLockInTable hnotIn
  unfold transferLock
  generalize hlock : setupLockInTable env.config (main.locks tag) q mode = lock
    at hpending hsame ⊢
  have hqueue : lock.waitProcs = ((main.locks tag).getD Lock.new).waitProcs := by rw [← hlock]; rfl
  rw [← hqueue] at hpending hblocked hqueued
  obtain ⟨hsettled, hheld⟩ := hpending.settled_grantLock
    (fun w hw hproc hmode => hwait (awaitedIn_iff_getD.2 ⟨w, hqueue ▸ hw, hproc, hmode⟩))
    (hblocked.mono (fun q n _ hq => (hsame q n).2 hq) subset_rfl) (by
      rintro ⟨q', n, -, -, hq', hn⟩
      exact hcompatible q' n (heldIn_iff_getD.2 ((hsame q' n).1 hq')) hn)
  refine ⟨h.update hsettled ?_, by simp [State.update], fun t q' n => ?_, fun t q' n => ?_⟩
  · rw [hqueued, append_nil]
    rfl
  · rw [State.waits_update]
    split_ifs with ht
    · subst ht
      rw [State.Waits, awaitedIn_some, awaitedIn_iff_getD, ← hqueue]
      rfl
    · rfl
  · rw [State.holds_update]
    split_ifs with ht
    · subst ht
      rw [hheld, hsame, ← heldIn_iff_getD]
      simp only [true_and]
      rfl
    · simp [ht]

theorem transferLocks_spec (moved : List LockMode) (h : Inv env.config main)
    (hnodup : moved.Nodup) (hweak : ∀ m ∈ moved, m.weak = true)
    (hnot : ∀ m ∈ moved, ¬ main.Holds tag q m) (hwait : ∀ m ∈ moved, ¬ main.Waits tag q m)
    (hstrong : ∀ m ∈ moved, ∀ q' n, main.Holds tag q' n → n.strong = false) :
    Inv env.config (moved.foldl (transferLock env tag q) main) ∧
      (moved.foldl (transferLock env tag q) main).waitLock = main.waitLock ∧
      (∀ t q' n, (moved.foldl (transferLock env tag q) main).Waits t q' n ↔ main.Waits t q' n) ∧
      ∀ t q' n, (moved.foldl (transferLock env tag q) main).Holds t q' n ↔
        main.Holds t q' n ∨ t = tag ∧ q' = q ∧ n ∈ moved := by
  induction moved generalizing main with
  | nil => exact ⟨h, rfl, fun _ _ _ => Iff.rfl, by simp⟩
  | cons mode moved ih =>
    rw [nodup_cons] at hnodup
    obtain ⟨hinv, hlock, hwaits, hholds⟩ := transferLock_spec h (hnot mode mem_cons_self)
      (hwait mode mem_cons_self) (fun q' n hn hconflict => by
        have := strong_of_conflict mode n (hweak mode mem_cons_self) hconflict
        rw [hstrong mode mem_cons_self q' n hn] at this
        cases this)
    obtain ⟨hinv', hlock', hwaits', hholds'⟩ := ih hinv hnodup.2
      (fun m hm => hweak m (mem_cons_of_mem _ hm))
      (fun m hm => by
        rw [hholds]
        rintro (hold | ⟨-, -, rfl⟩)
        · exact hnot m (mem_cons_of_mem _ hm) hold
        · exact hnodup.1 hm)
      (fun m hm => by
        rw [hwaits]
        exact hwait m (mem_cons_of_mem _ hm))
      (fun _ _ q' n hn => by
        rcases (hholds tag q' n).1 hn with hold | ⟨-, -, rfl⟩
        · exact hstrong mode mem_cons_self q' n hold
        · exact FastPath.strong_eq_false n (hweak n mem_cons_self))
    rw [foldl_cons]
    refine ⟨hinv', hlock'.trans hlock, fun t q' n => (hwaits' t q' n).trans (hwaits t q' n),
      fun t q' n => ?_⟩
    rw [hholds', hholds, mem_cons]
    tauto

theorem FInv.transferProc (h : FInv env s) (tag : LockTag) (q : Proc) (limit : ℕ) :
    FInv env (FastPath.transferProc env s tag q limit) ∧
      (FastPath.transferProc env s tag q limit).pc = s.pc ∧
      (FastPath.transferProc env s tag q limit).held = s.held ∧
      (weakModes.length ≤ limit →
        ∀ n, ¬ FastHolds env ((FastPath.transferProc env s tag q limit).slots q) q tag n) := by
  cases tag with
  | relationExtend db rel => exact ⟨h, rfl, rfl, fun _ _ hf => hf⟩
  | other id => exact ⟨h, rfl, rfl, fun _ _ hf => hf⟩
  | relation db rel =>
    unfold FastPath.transferProc
    dsimp only
    by_cases hdb : env.databaseId q ≠ db
    · rw [if_pos hdb]
      exact ⟨h, rfl, rfl, fun _ n hf => hdb hf.1.symm⟩
    rw [if_neg hdb]
    rw [not_not] at hdb
    subst hdb
    generalize htake : takeSlot rel limit (s.slots q (env.fastPathRelGroup rel)) = taken
    obtain ⟨moved, slots'⟩ := taken
    have hq := h.proc q
    obtain ⟨hok, hnodup, hmoved, hslots, hall⟩ := (hq.slotsOk _).take htake
    have hf : ∀ m ∈ moved, FastHolds env (s.slots q) q (.relation (env.databaseId q) rel) m :=
      fun m hm => ⟨rfl, hmoved m hm⟩
    have hf' := fastHolds_update (q := q) (F := fun a t n => a ∧ ¬ (t ∧ n ∈ moved)) (by simp) rfl
      hslots
    obtain ⟨hinv, hlock, hwaits, hholds⟩ := transferLocks_spec moved h.main hnodup
      (fun m hm => by
        obtain ⟨slot, hslot, -, hbit⟩ := hmoved m hm
        exact (hq.slotsOk _).weak slot hslot m hbit)
      (fun m hm => hq.exclusive _ m (hf m hm))
      (fun m hm hwait => by
        -- a process does not wait for a lock that it holds
        have hwaitLock := h.main.waitLock_of_waits hwait
        obtain ⟨m', hpc, hwait'⟩ := hq.waits _ hwaitLock
        obtain rfl := (h.main.waits_unique hwait hwait').2
        rcases (hq.recorded _ m').1 (Or.inl (hf m' hm)) with hin | hrel | ⟨-, hnone⟩
        · exact hq.fresh _ m' _ hpc hin
        · rw [hpc] at hrel
          cases hrel
        · rw [hwaitLock] at hnone
          cases hnone)
      (fun m hm q' n hn => h.strong_eq_false (hf m hm) hn)
    have hother : ∀ q', q' ≠ q → Bystander s.main
        (moved.foldl (transferLock env (.relation (env.databaseId q) rel) q) s.main) q' := by
      intro q' hne
      refine .same (by rw [hlock]) (fun t n => ?_) fun t n => hwaits t q' n
      rw [hholds]
      exact or_iff_left fun heq => hne heq.2.1
    have hproc : ProcOk env
        (moved.foldl (transferLock env (.relation (env.databaseId q) rel) q) s.main)
        (update (s.slots q) (env.fastPathRelGroup rel) slots') (s.useCounts q)
        (s.held q) (s.pc q) q := by
      refine hq.transferred (fun g => ?_) (hq.database_update fun rel' m hm => ?_) hf'
        (fun t n => ?_) ?_ (by rw [hlock]) fun t n => hwaits t q n
      · have := slotsOk_update hq.slotsOk (env.fastPathRelGroup rel) hok g
        rwa [update_eq_self] at this
      · exact hq.database _ rel' m ((hslots rel' m).1 hm).1
      · rw [hholds]
        simp only [true_and]
      · rintro t n ⟨rfl, hm⟩
        exact hf n hm
    refine ⟨?_, rfl, rfl, fun hlimit n hfast => ?_⟩
    · have hfinal := h.advance hinv hother (fun _ _ _ => Iff.rfl)
        (fun _ _ _ _ hsw => Or.inl hsw) hproc fun t n hfast => Or.inl ((hf' t n).1 hfast).1
      simp only [update_eq_self] at hfinal
      exact hfinal
    · simp only [FState.setSlots, update_self] at hfast
      have := hfast.2
      rw [update_self] at this
      exact hall hlimit n this

end PostgreSieve.FastPath
