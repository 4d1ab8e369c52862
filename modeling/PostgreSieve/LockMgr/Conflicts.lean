import PostgreSieve.LockMgr.Basic
import Mathlib.Algebra.BigOperators.Ring.Finset
import Mathlib.Algebra.Order.BigOperators.Group.Finset
import Mathlib.Data.List.Nodup

/-! # What `LockCheckConflicts` answers

The function works on counters. If the counters are the numbers of holders, it answers whether a
process outside of the lock group holds a conflicting mode.
-/

namespace PostgreSieve.LockMgr

open List

variable {Proc Mode Tag : Type}
variable {l : List (ProcLock Proc Mode)} {proclock : ProcLock Proc Mode} {mask : Finset Mode}

theorem Config.group_eq_of_none {cfg : Config Proc Mode Tag} {p q : Proc}
    (hnone : cfg.lockGroupLeader p = none) (h : cfg.group q = p) : q = p := by
  rcases hq : cfg.lockGroupLeader q with - | leader
  · simpa [Config.group, hq] using h
  · have hleader : leader = p := by simpa [Config.group, hq] using h
    rw [hleader] at hq
    have hleads := cfg.leader_leads q p hq
    rw [hnone] at hleads
    cases hleads

/-! ## Holders in a list of proclocks -/

/-- The process holds the mode. -/
def HoldsIn (procLocks : List (ProcLock Proc Mode)) (p : Proc) (m : Mode) : Prop :=
  ∃ proclock ∈ procLocks, proclock.proc = p ∧ m ∈ proclock.holdMask

/-- The proclocks are those of different processes, with the lock groups of these. -/
structure Table (cfg : Config Proc Mode Tag) (procLocks : List (ProcLock Proc Mode)) : Prop where
  nodup : (procLocks.map ProcLock.proc).Nodup
  leader : ∀ proclock ∈ procLocks, proclock.groupLeader = cfg.group proclock.proc

theorem split_at_proc (hnodup : (l.map ProcLock.proc).Nodup) (hmem : proclock ∈ l) :
    ∃ l₁ l₂, l = l₁ ++ proclock :: l₂ ∧ (∀ other ∈ l₁, other.proc ≠ proclock.proc) ∧
      ∀ other ∈ l₂, other.proc ≠ proclock.proc := by
  obtain ⟨l₁, l₂, rfl⟩ := append_of_mem hmem
  refine ⟨l₁, l₂, rfl, ?_, ?_⟩
  · intro other hother heq
    simp only [map_append, map_cons, nodup_append] at hnodup
    exact hnodup.2.2 _ (mem_map_of_mem hother) _ mem_cons_self heq
  · intro other hother heq
    simp only [map_append, map_cons, nodup_append, nodup_cons] at hnodup
    exact hnodup.2.1.1 (heq ▸ mem_map_of_mem hother)

section

variable [DecidableEq Mode]
variable {l : List (ProcLock Proc Mode)}

/-- The number of proclocks that hold a mode. -/
def holders (procLocks : List (ProcLock Proc Mode)) (m : Mode) : ℕ :=
  procLocks.countP fun proclock => m ∈ proclock.holdMask

/-- The number of holds of modes in a mask. -/
def load (procLocks : List (ProcLock Proc Mode)) (mask : Finset Mode) : ℕ :=
  ∑ m ∈ mask, holders procLocks m

@[simp] theorem holders_nil (m : Mode) : holders ([] : List (ProcLock Proc Mode)) m = 0 := rfl

theorem holders_cons (proclock : ProcLock Proc Mode) (l : List (ProcLock Proc Mode)) (m : Mode) :
    holders (proclock :: l) m = holders l m + if m ∈ proclock.holdMask then 1 else 0 := by
  simp [holders, countP_cons]

theorem holders_append (l l' : List (ProcLock Proc Mode)) (m : Mode) :
    holders (l ++ l') m = holders l m + holders l' m := by
  simp [holders]

theorem holders_pos {m : Mode} :
    0 < holders l m ↔ ∃ p, HoldsIn l p m := by
  simp [holders, HoldsIn, countP_pos_iff]

theorem load_cons (proclock : ProcLock Proc Mode) (l : List (ProcLock Proc Mode))
    (mask : Finset Mode) :
    load (proclock :: l) mask = load l mask + (proclock.holdMask ∩ mask).card := by
  have hcard : (proclock.holdMask ∩ mask).card
      = ∑ m ∈ mask, if m ∈ proclock.holdMask then 1 else 0 := by
    rw [Finset.inter_comm, ← Finset.filter_mem_eq_inter, Finset.card_filter]
  simp only [load, holders_cons, Finset.sum_add_distrib, hcard]

theorem load_pos {mask : Finset Mode} :
    0 < load l mask ↔ ∃ p, ∃ m ∈ mask, HoldsIn l p m := by
  rw [load, Finset.sum_pos_iff]
  constructor
  · rintro ⟨m, hm, hpos⟩
    obtain ⟨p, hp⟩ := holders_pos.1 hpos
    exact ⟨p, m, hm, hp⟩
  · rintro ⟨p, m, hm, hp⟩
    exact ⟨m, hm, holders_pos.2 ⟨p, hp⟩⟩

end

section

variable [DecidableEq Proc]

/-- The proclocks of the other processes. -/
def others (p : Proc) (l : List (ProcLock Proc Mode)) : List (ProcLock Proc Mode) :=
  l.filter fun other => p ≠ other.proc

theorem holdsIn_others {p q : Proc} {l : List (ProcLock Proc Mode)} {m : Mode} :
    HoldsIn (others p l) q m ↔ HoldsIn l q m ∧ q ≠ p := by
  simp only [HoldsIn, others, mem_filter, decide_eq_true_eq]
  constructor
  · rintro ⟨proclock, ⟨hmem, hne⟩, rfl, hm⟩
    exact ⟨⟨proclock, hmem, rfl, hm⟩, hne.symm⟩
  · rintro ⟨⟨proclock, hmem, rfl, hm⟩, hne⟩
    exact ⟨proclock, ⟨hmem, hne.symm⟩, rfl, hm⟩

theorem others_split {l₁ l₂ : List (ProcLock Proc Mode)} {proclock : ProcLock Proc Mode}
    (h₁ : ∀ other ∈ l₁, other.proc ≠ proclock.proc)
    (h₂ : ∀ other ∈ l₂, other.proc ≠ proclock.proc) :
    others proclock.proc (l₁ ++ proclock :: l₂) = l₁ ++ l₂ := by
  have hself : ∀ l : List (ProcLock Proc Mode), (∀ other ∈ l, other.proc ≠ proclock.proc) →
      l.filter (fun other => proclock.proc ≠ other.proc) = l :=
    fun l hl => filter_eq_self.2 fun other hother => by simpa using (hl other hother).symm
  simp only [others, filter_append, filter_cons, hself l₁ h₁, hself l₂ h₂]
  simp

end

variable [DecidableEq Proc] [DecidableEq Mode]

theorem holders_eq_others_add (hnodup : (l.map ProcLock.proc).Nodup) (hmem : proclock ∈ l)
    (m : Mode) :
    holders l m = holders (others proclock.proc l) m
      + if m ∈ proclock.holdMask then 1 else 0 := by
  obtain ⟨l₁, l₂, rfl, h₁, h₂⟩ := split_at_proc hnodup hmem
  rw [others_split h₁ h₂]
  simp only [holders_append, holders_cons]
  omega

/-! ## The loop over the group members -/

/-- The other members of a lock group. -/
def mates (proclock : ProcLock Proc Mode) (l : List (ProcLock Proc Mode)) :
    List (ProcLock Proc Mode) :=
  l.filter fun other => proclock.proc ≠ other.proc ∧ proclock.groupLeader = other.groupLeader

/-- The processes outside of a lock group. -/
def strangers (proclock : ProcLock Proc Mode) (l : List (ProcLock Proc Mode)) :
    List (ProcLock Proc Mode) :=
  l.filter fun other => proclock.groupLeader ≠ other.groupLeader

theorem holders_others
    (hself : ∀ other ∈ l, other.proc = proclock.proc → other.groupLeader = proclock.groupLeader)
    (m : Mode) :
    holders (others proclock.proc l) m
      = holders (mates proclock l) m + holders (strangers proclock l) m := by
  have hmates : mates proclock l = (others proclock.proc l).filter
      fun other => proclock.groupLeader = other.groupLeader := by
    simp [mates, others, filter_filter, and_comm]
  have hstrangers : strangers proclock l = (others proclock.proc l).filter
      fun other => !decide (proclock.groupLeader = other.groupLeader) := by
    rw [others, filter_filter]
    refine filter_congr fun other hother => ?_
    have := hself other hother
    grind
  rw [hmates, hstrangers]
  exact countP_eq_countP_filter_add ..

/-- The loop ends without a PANIC, and finds a conflict if one remains without the group. -/
theorem subtractGroup_eq (mask : Finset Mode) (proclock : ProcLock Proc Mode)
    (rest : List (ProcLock Proc Mode)) (apart : Mode → ℕ) (remaining : Mode → ℤ) (total : ℤ)
    (hremaining : ∀ i ∈ mask, remaining i = holders (mates proclock rest) i + apart i)
    (htotal : total = load (mates proclock rest) mask + ∑ i ∈ mask, apart i) (hpos : total ≠ 0) :
    subtractGroup mask proclock rest remaining total
      = some (decide (∑ i ∈ mask, apart i ≠ 0)) := by
  induction rest generalizing remaining total with
  | nil =>
    have : ∑ i ∈ mask, apart i ≠ 0 := by
      simp only [mates, filter_nil, load, holders_nil, Finset.sum_const_zero] at htotal
      omega
    simp [subtractGroup, this]
  | cons other rest ih =>
    rw [subtractGroup]
    by_cases hmate : proclock.proc ≠ other.proc ∧ proclock.groupLeader = other.groupLeader
    · have hmates : mates proclock (other :: rest) = other :: mates proclock rest := by
        simp [mates, hmate.1, hmate.2]
      simp only [hmates, holders_cons] at hremaining
      rw [hmates, load_cons] at htotal
      by_cases hinter : other.holdMask ∩ mask = ∅
      · rw [if_neg (by tauto)]
        apply ih
        · intro i hi
          have : i ∉ other.holdMask := fun h =>
            Finset.notMem_empty i (hinter ▸ Finset.mem_inter.2 ⟨h, hi⟩)
          simpa [this] using hremaining i hi
        · simpa [hinter] using htotal
        · exact hpos
      · rw [if_pos ⟨hmate.1, hmate.2, hinter⟩]
        have hpanic : ¬ ∃ i ∈ other.holdMask ∩ mask, remaining i ≤ 0 := by
          rintro ⟨i, hi, hle⟩
          have hi := Finset.mem_inter.1 hi
          have := hremaining i hi.2
          rw [if_pos hi.1] at this
          omega
        rw [if_neg hpanic]
        by_cases hzero : total - (other.holdMask ∩ mask).card = 0
        · have hnone : ∑ i ∈ mask, apart i = 0 := by omega
          rw [if_pos hzero]
          simp [hnone]
        · rw [if_neg hzero]
          apply ih
          · intro i hi
            have hrem := hremaining i hi
            by_cases hheld : i ∈ other.holdMask
            · rw [if_pos hheld] at hrem
              rw [if_pos (Finset.mem_inter.2 ⟨hheld, hi⟩), hrem]
              omega
            · rw [if_neg hheld] at hrem
              rw [if_neg fun h => hheld (Finset.mem_inter.1 h).1, hrem]
              omega
          · omega
          · exact hzero
    · have hmates : mates proclock (other :: rest) = mates proclock rest := by
        simp only [mates, filter_cons, hmate, decide_false, Bool.false_eq_true, if_false]
      rw [if_neg (by tauto)]
      rw [hmates] at hremaining htotal
      exact ih remaining total hremaining htotal hpos

/-! ## The answer -/

/-- A process outside of the lock group holds a mode that conflicts with the request. Locks for
extending a relation conflict within a group as well. -/
def Conflicting (cfg : Config Proc Mode Tag) (tag : Tag) (procLocks : List (ProcLock Proc Mode))
    (p : Proc) (m : Mode) : Prop :=
  ∃ q n, q ≠ p ∧ (cfg.group q ≠ cfg.group p ∨ cfg.relationExtend tag = true) ∧
    HoldsIn procLocks q n ∧ n ∈ cfg.conflictTab m

variable {cfg : Config Proc Mode Tag} {lock : Lock Proc Mode}
  {proclock : ProcLock Proc Mode}

theorem load_others_pos {p : Proc} :
    0 < load (others p l) mask ↔ ∃ q n, q ≠ p ∧ HoldsIn l q n ∧ n ∈ mask := by
  rw [load_pos]
  constructor
  · rintro ⟨q, n, hn, hq⟩
    obtain ⟨hholds, hne⟩ := holdsIn_others.1 hq
    exact ⟨q, n, hne, hholds, hn⟩
  · rintro ⟨q, n, hne, hq, hn⟩
    exact ⟨q, n, hn, holdsIn_others.2 ⟨hq, hne⟩⟩

theorem load_strangers_pos (ht : Table cfg lock.procLocks) (hmem : proclock ∈ lock.procLocks) :
    0 < load (strangers proclock lock.procLocks) mask ↔
      ∃ q n, q ≠ proclock.proc ∧ cfg.group q ≠ cfg.group proclock.proc ∧
        HoldsIn lock.procLocks q n ∧ n ∈ mask := by
  rw [load_pos]
  simp only [HoldsIn, strangers, mem_filter, decide_eq_true_eq]
  constructor
  · rintro ⟨_, n, hn, other, ⟨hother, hne⟩, rfl, hheld⟩
    rw [ht.leader _ hmem, ht.leader _ hother] at hne
    exact ⟨other.proc, n, fun h => hne (by rw [h]), hne.symm, ⟨other, hother, rfl, hheld⟩, hn⟩
  · rintro ⟨_, n, -, hne, ⟨other, hother, rfl, hheld⟩, hn⟩
    refine ⟨other.proc, n, hn, other, ⟨hother, ?_⟩, rfl, hheld⟩
    rw [ht.leader _ hmem, ht.leader _ hother]
    exact hne.symm

/-- `LockCheckConflicts` tells whether there is a conflict, whoever executes it. -/
theorem lockCheckConflicts_eq [Fintype Mode] (ht : Table cfg lock.procLocks)
    (hgranted : ∀ m, lock.granted m = holders lock.procLocks m)
    (hmask : ∀ m, m ∈ lock.grantMask ↔ 0 < holders lock.procLocks m)
    (hmem : proclock ∈ lock.procLocks) (myProc : Proc) (tag : Tag) (m : Mode) :
    ∃ conflict, lockCheckConflicts cfg myProc tag m lock proclock = some conflict ∧
      (conflict = true ↔ Conflicting cfg tag lock.procLocks proclock.proc m) := by
  have hremaining : ∀ i ∈ cfg.conflictTab m,
      (if i ∈ cfg.conflictTab m then
        lock.granted i - (if i ∈ proclock.holdMask then 1 else 0) else 0)
      = (holders (others proclock.proc lock.procLocks) i : ℤ) := by
    intro i hi
    rw [if_pos hi, hgranted, holders_eq_others_add ht.nodup hmem]
    push_cast
    omega
  have htotal : ∑ i, (if i ∈ cfg.conflictTab m then
        lock.granted i - (if i ∈ proclock.holdMask then 1 else 0) else 0)
      = (load (others proclock.proc lock.procLocks) (cfg.conflictTab m) : ℤ) := by
    rw [← Finset.sum_subset (Finset.subset_univ (cfg.conflictTab m))
      (fun i _ hi => if_neg hi), Finset.sum_congr rfl hremaining, load]
    push_cast
    rfl
  have hconflict : Conflicting cfg tag lock.procLocks proclock.proc m →
      0 < load (others proclock.proc lock.procLocks) (cfg.conflictTab m) := by
    rintro ⟨q, n, hne, -, hholds, hn⟩
    exact load_others_pos.2 ⟨q, n, hne, hholds, hn⟩
  unfold lockCheckConflicts
  dsimp only
  rw [htotal]
  by_cases hgrant : cfg.conflictTab m ∩ lock.grantMask = ∅
  · refine ⟨false, if_pos hgrant, ?_⟩
    simp only [Bool.false_eq_true, false_iff]
    rintro ⟨q, n, -, -, hholds, hn⟩
    have hn' := (hmask n).2 (holders_pos.2 ⟨q, hholds⟩)
    exact Finset.notMem_empty n (hgrant ▸ Finset.mem_inter.2 ⟨hn, hn'⟩)
  rw [if_neg hgrant]
  by_cases hzero : load (others proclock.proc lock.procLocks) (cfg.conflictTab m) = 0
  · refine ⟨false, by rw [hzero]; rfl, ?_⟩
    simp only [Bool.false_eq_true, false_iff]
    intro h
    exact absurd (hconflict h) (by omega)
  rw [if_neg (by exact_mod_cast hzero)]
  obtain ⟨q, n, hne, hholds, hn⟩ := load_others_pos.1 (Nat.pos_of_ne_zero hzero)
  by_cases halone : proclock.groupLeader = myProc ∧ cfg.lockGroupLeader myProc = none
  · -- nobody else is in the group of `myProc`
    rw [if_pos halone]
    refine ⟨true, rfl, iff_of_true rfl ⟨q, n, hne, Or.inl ?_, hholds, hn⟩⟩
    intro hgroup
    have hleader := (ht.leader _ hmem).symm.trans halone.1
    have hq := Config.group_eq_of_none halone.2 (hgroup.trans hleader)
    have hp := Config.group_eq_of_none halone.2 hleader
    exact hne (hq.trans hp.symm)
  rw [if_neg halone]
  by_cases hext : cfg.relationExtend tag = true
  · rw [if_pos hext]
    exact ⟨true, rfl, iff_of_true rfl ⟨q, n, hne, Or.inr hext, hholds, hn⟩⟩
  rw [if_neg hext]
  have hself : ∀ other ∈ lock.procLocks, other.proc = proclock.proc →
      other.groupLeader = proclock.groupLeader := by
    intro other hother heq
    rw [ht.leader _ hother, ht.leader _ hmem, heq]
  refine ⟨_, subtractGroup_eq _ proclock lock.procLocks
    (holders (strangers proclock lock.procLocks)) _ _ ?_ ?_ (by exact_mod_cast hzero), ?_⟩
  · intro i hi
    rw [hremaining i hi, holders_others hself]
    rfl
  · simp only [load, holders_others hself, Finset.sum_add_distrib]
    rfl
  · rw [decide_eq_true_iff, ← Nat.pos_iff_ne_zero]
    refine (load_strangers_pos ht hmem).trans ?_
    simp only [Conflicting, hext, Bool.false_eq_true, or_false]

end PostgreSieve.LockMgr
