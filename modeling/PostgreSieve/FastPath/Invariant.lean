import PostgreSieve.FastPath.Slots
import PostgreSieve.LockMgr.Table

/-! # The invariant of the fast path

Every lock that a process holds is recorded in one place, and the relations for which a strong
locker has passed a process are not in the slots of that process.
-/

namespace PostgreSieve.FastPath

open Function LockMgr

variable {Proc : Type} {env : Env Proc}

/-- The lock is recorded in a slot of the process. -/
def FastHolds (env : Env Proc) (slots : ℕ → List Slot) (q : Proc) (tag : LockTag) (m : LockMode) :
    Prop :=
  match tag with
  | .relation db rel => db = env.databaseId q ∧ SlotHolds (slots (env.fastPathRelGroup rel)) rel m
  | _ => False

/-- What a process has recorded fits what it holds and where it is. -/
structure ProcOk (env : Env Proc) (main : State Proc LockMode LockTag) (slots : ℕ → List Slot)
    (useCounts : ℕ → ℕ) (held : Finset (LockTag × LockMode))
    (pc : Option (LockTag × LockMode × Phase Proc)) (q : Proc) : Prop where
  slotsOk : ∀ group, SlotsOk (slots group) (useCounts group)
  database : ∀ group rel m, SlotHolds (slots group) rel m → env.databaseId q ≠ invalidOid
  recorded : ∀ tag m, FastHolds env slots q tag m ∨ main.Holds tag q m ↔
    (tag, m) ∈ held ∨ pc = some (tag, m, .mainRelease) ∨
      pc = some (tag, m, .waiting) ∧ main.waitLock q = none
  exclusive : ∀ tag m, FastHolds env slots q tag m → ¬ main.Holds tag q m
  released : ∀ tag m, pc = some (tag, m, .mainRelease) → main.Holds tag q m
  waits : ∀ tag, main.waitLock q = some tag →
    ∃ m, pc = some (tag, m, .waiting) ∧ main.Waits tag q m
  fresh : ∀ tag m phase, pc = some (tag, m, phase) → (tag, m) ∉ held

/-- A strong locker in this phase has passed the process `q`. -/
def Phase.Passed (q : Proc) : Phase Proc → Prop
  | .transfer _ todo => q ∉ todo
  | .aborted | .released => False
  | .mainAcquire _ | .waiting | .mainRelease => True

/-- A process that holds a lock or is about to has passed the process `q`. -/
def Swept (held : Finset (LockTag × LockMode)) (pc : Option (LockTag × LockMode × Phase Proc))
    (tag : LockTag) (m : LockMode) (q : Proc) : Prop :=
  (tag, m) ∈ held ∨ ∃ phase, pc = some (tag, m, phase) ∧ phase.Passed q

/-- A process holds a lock, or acquires or releases it. -/
def Claims (held : Finset (LockTag × LockMode)) (pc : Option (LockTag × LockMode × Phase Proc))
    (tag : LockTag) (m : LockMode) : Prop :=
  (tag, m) ∈ held ∨ ∃ phase, pc = some (tag, m, phase)

structure FInv (env : Env Proc) (s : FState Proc) : Prop where
  main : Inv env.config s.main
  proc : ∀ q, ProcOk env s.main (s.slots q) (s.useCounts q) (s.held q) (s.pc q) q
  count : ∀ part, s.count part
    = (s.strongLocks.filter fun lock => env.partition lock.2.1 = part).card
  strong : ∀ p tag m, (p, tag, m) ∈ s.strongLocks ↔
    conflictsWithFastPath tag m = true ∧ Claims (s.held p) (s.pc p) tag m
  swept : ∀ p tag m q n, conflictsWithFastPath tag m = true →
    Swept (s.held p) (s.pc p) tag m q → ¬ FastHolds env (s.slots q) q tag n

variable {s : FState Proc} {main main' : State Proc LockMode LockTag} {slots slots' : ℕ → List Slot}
  {useCounts useCounts' : ℕ → ℕ} {held held' : Finset (LockTag × LockMode)}
  {pc pc' : Option (LockTag × LockMode × Phase Proc)} {p q : Proc} {tag : LockTag}
  {m mode : LockMode}

theorem Swept.claims (h : Swept held pc tag m q) : Claims held pc tag m := by
  rcases h with h | ⟨phase, h, -⟩
  · exact Or.inl h
  · exact Or.inr ⟨phase, h⟩

theorem fInv_init : FInv env (FState.init : FState Proc) where
  main := inv_init
  proc q := {
    slotsOk := fun group => by
      refine ⟨List.pairwise_replicate.2 (Or.inr fun h => absurd rfl h), ?_, ?_⟩
      · intro slot hslot m hm
        rw [List.eq_of_mem_replicate hslot] at hm
        cases hm
      · simp [FState.init, usedSlots, List.countP_replicate]
    database := fun group rel m h => by
      obtain ⟨slot, hslot, -, hm⟩ := h
      rw [List.eq_of_mem_replicate hslot] at hm
      cases hm
    recorded := fun tag m => by
      refine iff_of_false ?_ (by simp [FState.init])
      rintro (h | ⟨lock, hlock, -⟩)
      · cases tag with
        | relation db rel =>
          obtain ⟨-, slot, hslot, -, hm⟩ := h
          rw [List.eq_of_mem_replicate hslot] at hm
          cases hm
        | relationExtend db rel => exact h
        | other id => exact h
      · cases hlock
    exclusive := fun tag m _ h => by
      obtain ⟨lock, hlock, -⟩ := h
      cases hlock
    released := fun tag m h => by cases h
    waits := fun tag h => by cases h
    fresh := fun tag m phase h => by cases h }
  count part := by simp [FState.init]
  strong p tag m := by simp [FState.init, Claims]
  swept p tag m q n _ h := by simp [FState.init, Swept] at h

/-! ## What other processes do -/

theorem ProcOk.bystander (h : ProcOk env main slots useCounts held pc q)
    (hmain : Inv env.config main) (hb : Bystander main main' q) :
    ProcOk env main' slots useCounts held pc q := by
  cases hb with
  | same hwait hholds hwaits =>
    refine ⟨h.slotsOk, h.database, fun tag m => ?_, fun tag m hf hm => ?_, fun tag m hpc => ?_,
      fun tag hw => ?_, h.fresh⟩
    · rw [hholds, hwait]
      exact h.recorded tag m
    · exact h.exclusive tag m hf ((hholds tag m).1 hm)
    · exact (hholds tag m).2 (h.released tag m hpc)
    · rw [hwait] at hw
      obtain ⟨m, hpc, hm⟩ := h.waits tag hw
      exact ⟨m, hpc, (hwaits tag m).2 hm⟩
  | woken t n hwaits hwait hholds =>
    have hlock := hmain.waitLock_of_waits hwaits
    obtain ⟨n', hpc, hn'⟩ := h.waits t hlock
    obtain rfl := (hmain.waits_unique hwaits hn').2
    -- the lock was not recorded before the process was woken up
    have hnot : ¬ (FastHolds env slots q t n' ∨ main.Holds t q n') := by
      rw [h.recorded]
      rintro (hheld | hrel | ⟨-, hnone⟩)
      · exact h.fresh t n' _ hpc hheld
      · rw [hpc] at hrel
        cases hrel
      · rw [hlock] at hnone
        cases hnone
    refine ⟨h.slotsOk, h.database, fun tag m => ?_, fun tag m hf hm => ?_, fun tag m hrel => ?_,
      fun tag hw => ?_, h.fresh⟩
    · rw [hholds, ← or_assoc, h.recorded, hpc, hwait, hlock]
      simp only [Option.some.injEq, Prod.mk.injEq, reduceCtorEq, and_false, false_or, or_false,
        and_true]
      exact or_congr_right ⟨fun ⟨h, h'⟩ => ⟨h.symm, h'.symm⟩, fun ⟨h, h'⟩ => ⟨h.symm, h'.symm⟩⟩
    · rcases (hholds tag m).1 hm with hold | ⟨rfl, rfl⟩
      · exact h.exclusive tag m hf hold
      · exact hnot (Or.inl hf)
    · exact (hholds tag m).2 (Or.inl (h.released tag m hrel))
    · rw [hwait] at hw
      cases hw

/-! ## What a process does -/

variable [DecidableEq Proc]

section

variable (h : FInv env s) (hmain : Inv env.config main')
  (hother : ∀ q, q ≠ p → Bystander s.main main' q)
  (hstrong : ∀ tag m, conflictsWithFastPath tag m = true →
    (Claims held' pc' tag m ↔ Claims (s.held p) (s.pc p) tag m))
  (hswept : ∀ tag m q, conflictsWithFastPath tag m = true → Swept held' pc' tag m q →
    Swept (s.held p) (s.pc p) tag m q ∨ ∀ n, ¬ FastHolds env (s.slots q) q tag n)
include h hmain hother hstrong hswept

/-- A step of a process that leaves the strong lock counts and the slots of the others alone. -/
theorem FInv.advance (hproc : ProcOk env main' slots' useCounts' held' pc' p)
    (hfast : ∀ tag n, FastHolds env slots' p tag n → FastHolds env (s.slots p) p tag n ∨
      ∀ p' m, (p', tag, m) ∉ s.strongLocks) :
    FInv env { s with
      main := main'
      slots := update s.slots p slots'
      useCounts := update s.useCounts p useCounts'
      held := update s.held p held'
      pc := update s.pc p pc' } where
  main := hmain
  proc q := by
    by_cases hq : q = p
    · subst hq
      simpa using hproc
    · simpa [hq] using (h.proc q).bystander h.main (hother q hq)
  count := h.count
  strong q tag m := by
    by_cases hq : q = p
    · subst hq
      simp only [update_self, h.strong]
      exact and_congr_right fun hc => (hstrong tag m hc).symm
    · simpa [hq] using h.strong q tag m
  swept p' tag m q n hc hsw hf := by
    -- the locker holds a count, and its passing of `q` is not new or left no lock there
    have hpassed : (p', tag, m) ∈ s.strongLocks ∧ ∀ n, ¬ FastHolds env (s.slots q) q tag n := by
      by_cases hp' : p' = p
      · subst hp'
        simp only [update_self] at hsw
        refine ⟨(h.strong p' tag m).2 ⟨hc, (hstrong tag m hc).1 hsw.claims⟩, ?_⟩
        rcases hswept tag m q hc hsw with hold | hnone
        · exact fun n => h.swept p' tag m q n hc hold
        · exact hnone
      · simp only [update_of_ne hp'] at hsw
        exact ⟨(h.strong p' tag m).2 ⟨hc, hsw.claims⟩, fun n => h.swept p' tag m q n hc hsw⟩
    by_cases hq : q = p
    · subst hq
      rcases hfast tag n (by simpa using hf) with hf | hnone
      · exact hpassed.2 n hf
      · exact hnone p' m hpassed.1
    · exact hpassed.2 n (by simpa [hq] using hf)

theorem FInv.advance_main (hproc : ProcOk env main' (s.slots p) (s.useCounts p) held' pc' p) :
    FInv env { s with
      main := main'
      held := update s.held p held'
      pc := update s.pc p pc' } := by
  simpa using h.advance hmain hother hstrong hswept hproc fun _ _ hf => Or.inl hf

end

end PostgreSieve.FastPath
