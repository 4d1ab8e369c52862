import PostgreSieve.Eviction.Vtable
import Mathlib.Data.Finset.Card
import Mathlib.Data.Nat.ModEq
import Mathlib.Data.Prod.Lex
import Mathlib.Tactic.Ring

/-! # Clock sweep

The hand is an atomic counter that every backend advances. Whoever carries it to
a multiple of the pool size folds it back below the pool size and counts a pass,
by a compare-exchange under `buffer_strategy_lock`. The accounting results treat
any number of processes that do nothing but tick.
-/

namespace PostgreSieve.ClockSweep

open Nat

/-- `nextVictimBuffer` and `completePasses`, both of type `uint32`. -/
structure State where
  nextVictimBuffer : ℕ
  completePasses : ℕ
  deriving DecidableEq

/-- Where a process stands in `ClockSweepTick`. -/
inductive TickPc where
  | start
  /-- In the wraparound loop, with the value the counter is expected to have. -/
  | wrap (expected : ℕ)
  | done (victim : ℕ)
  deriving DecidableEq

/-- The next atomic step of `ClockSweepTick`: the fetch-add, or one spinlocked
compare-exchange of the wraparound loop. -/
def tickStep (N : ℕ) (s : State) : TickPc → State × TickPc
  | .wrap expected =>
    if s.nextVictimBuffer = expected then
      (⟨expected % N, (s.completePasses + 1) % 2 ^ 32⟩, .done 0)
    else
      (s, .wrap s.nextVictimBuffer)
  | _ =>
    let victim := s.nextVictimBuffer
    ({ s with nextVictimBuffer := (victim + 1) % 2 ^ 32 },
      if victim < N then .done victim
      else if victim % N = 0 then .wrap ((victim + 1) % 2 ^ 32)
      else .done (victim % N))

inductive Pc where
  | tick (t : TickPc) (trycounter : ℕ)
  | examine (b trycounter : ℕ) (old : BufState)

/-- `ClockSweepGetBuffer`. -/
def code (N : ℕ) (s : State) : Pc → GetInstr State Pc
  | .tick (.done b) trycounter => .load b (.examine b trycounter)
  | .tick t trycounter => .update (tickStep N s t).1 (.tick (tickStep N s t).2 trycounter)
  | .examine b trycounter old =>
    if old.getRefcount ≠ 0 then
      if trycounter - 1 = 0 then .raise s "no unpinned buffers available"
      else .update s (.tick .start (trycounter - 1))
    else if old.has bmLocked then .await b (.examine b trycounter)
    else if old.getUsagecount ≠ 0 then
      .cas b old (old - bufUsagecountOne) (s, .tick .start N) fun w => (s, .examine b trycounter w)
    else .claim b old s (.examine b trycounter)

abbrev vtable : EvictionVtable where
  State := State
  Pc := Pc
  init _ := ⟨0, 0⟩
  getBuffer N := .tick .start N
  code := code
  notifyHit _ := none
  notifyInsert _ := none
  notifyInvalidate _ := none

/-- `StrategySyncStart`: the completed passes and the buffer to start from. -/
def syncStart (N : ℕ) (s : State) : ℕ × ℕ :=
  ((s.completePasses + s.nextVictimBuffer / N) % 2 ^ 32, s.nextVictimBuffer % N)

/-! ## Processes that tick -/

/-- The clock, the processes, and how many ticks were taken so far. -/
structure Clocks (Pid : Type*) where
  clock : State
  pc : Pid → TickPc
  ticks : ℕ

section Accounting

variable {Pid : Type*} {N : ℕ} {c d : Clocks Pid} {p : Pid}

def start (Pid : Type*) : Clocks Pid := ⟨⟨0, 0⟩, fun _ => .start, 0⟩

def InLoop (c : Clocks Pid) (p : Pid) : Prop := ∃ e, c.pc p = .wrap e

instance (c : Clocks Pid) (p : Pid) : Decidable (InLoop c p) :=
  match h : c.pc p with
  | .wrap e => .isTrue ⟨e, h⟩
  | .start => .isFalse (by simp [InLoop, h])
  | .done _ => .isFalse (by simp [InLoop, h])

/-- The counter does not overflow, and no compare-exchange folds it while it stands on a
multiple of the pool size. -/
def FoldsOffBoundary (N : ℕ) (c : Clocks Pid) (p : Pid) : Prop :=
  match c.pc p with
  | .wrap e => c.clock.nextVictimBuffer = e → ¬ N ∣ e
  | _ => c.clock.nextVictimBuffer + 1 < 2 ^ 32

instance (N : ℕ) (c : Clocks Pid) (p : Pid) : Decidable (FoldsOffBoundary N c p) :=
  match h : c.pc p with
  | .wrap e =>
    decidable_of_iff (c.clock.nextVictimBuffer = e → ¬ N ∣ e) (by simp [FoldsOffBoundary, h])
  | .start =>
    decidable_of_iff (c.clock.nextVictimBuffer + 1 < 2 ^ 32) (by simp [FoldsOffBoundary, h])
  | .done _ =>
    decidable_of_iff (c.clock.nextVictimBuffer + 1 < 2 ^ 32) (by simp [FoldsOffBoundary, h])

/-- How often the counter has left a positive multiple of `N` since it was last folded. -/
def crossings (N n : ℕ) : ℕ := (n - 1) / N

/-- Every crossing still has its process in the wraparound loop, and each such process stands
for one pass that is not counted yet. -/
structure Accounted (N : ℕ) (c : Clocks Pid) : Prop where
  small : c.clock.nextVictimBuffer < 2 ^ 32
  balance : ∃ (F : Finset Pid) (passes : ℕ), (∀ p, p ∈ F ↔ InLoop c p) ∧
    c.clock.completePasses = passes % 2 ^ 32 ∧ crossings N c.clock.nextVictimBuffer ≤ F.card ∧
    c.ticks + N * crossings N c.clock.nextVictimBuffer =
      passes * N + c.clock.nextVictimBuffer + N * F.card

theorem crossings_succ (n : ℕ) :
    crossings N (n + 1) = crossings N n + if N ∣ n ∧ 0 < n then 1 else 0 := by
  rcases Nat.eq_zero_or_pos n with rfl | hn
  · simp [crossings]
  · obtain ⟨m, rfl⟩ : ∃ m, n = m + 1 := ⟨n - 1, by omega⟩
    simp [crossings, Nat.succ_div]

theorem crossings_mod (hN : 0 < N) (n : ℕ) : crossings N (n % N) = 0 := by
  have := mod_lt n hN
  exact div_eq_of_lt (by omega)

/-- Off the multiples of `N`, folding takes away one `N` for each crossing. -/
theorem mod_add_crossings {n : ℕ} (h : ¬ N ∣ n) :
    n % N + N * crossings N n = n := by
  have hpos : 0 < n := pos_of_ne_zero fun h0 => h (h0 ▸ dvd_zero N)
  have hd : crossings N n = n / N := by
    obtain ⟨m, rfl⟩ : ∃ m, n = m + 1 := ⟨n - 1, by omega⟩
    rw [succ_div_of_not_dvd h]
    rfl
  rw [hd]
  exact mod_add_div n N

theorem accounted_start : Accounted N (start Pid) where
  small := by simp [start]
  balance := ⟨∅, 0, by simp [InLoop, start], by simp [start], by simp [crossings, start],
    by simp [crossings, start]⟩

/-- With no process in the loop nothing is pending: the clock shows the number of ticks. -/
theorem Accounted.quiet (h : Accounted N c) (hq : ∀ p, ¬ InLoop c p) :
    ∃ passes, c.clock.completePasses = passes % 2 ^ 32 ∧
      c.ticks = passes * N + c.clock.nextVictimBuffer := by
  obtain ⟨F, passes, hF, hP, hle, hb⟩ := h.balance
  have hF0 : F.card = 0 := by
    rw [Finset.card_eq_zero, Finset.eq_empty_iff_forall_notMem]
    exact fun p hp => hq p ((hF p).mp hp)
  have hX : crossings N c.clock.nextVictimBuffer = 0 := by omega
  exact ⟨passes, hP, by simpa [hF0, hX] using hb⟩

theorem Accounted.modEq (h : Accounted N c) (hq : ∀ p, ¬ InLoop c p) :
    c.clock.completePasses * N + c.clock.nextVictimBuffer ≡ c.ticks [MOD 2 ^ 32 * N] := by
  obtain ⟨passes, hP, hT⟩ := h.quiet hq
  rw [hT, hP]
  exact ((mod_modEq passes (2 ^ 32)).mul_right' N).add_right _

theorem syncStart_eq {s : State} {passes ticks : ℕ} (hN : 0 < N)
    (hP : s.completePasses = passes % 2 ^ 32) (hT : ticks = passes * N + s.nextVictimBuffer) :
    syncStart N s = (ticks / N % 2 ^ 32, ticks % N) := by
  rw [ClockSweep.syncStart, hT, hP, mod_add_mod, add_comm (passes * N),
    add_mul_div_right _ _ hN, add_mul_mod_self_right, add_comm passes]

theorem Accounted.syncStart (hN : 0 < N) (h : Accounted N c) (hq : ∀ p, ¬ InLoop c p) :
    syncStart N c.clock = (c.ticks / N % 2 ^ 32, c.ticks % N) := by
  obtain ⟨passes, hP, hT⟩ := h.quiet hq
  exact syncStart_eq hN hP hT

variable [DecidableEq Pid]

/-- One step of process `p`; a process whose tick is done begins the next one. -/
def step (N : ℕ) (c : Clocks Pid) (p : Pid) : Option (Clocks Pid) :=
  let r := tickStep N c.clock (c.pc p)
  some ⟨r.1, Function.update c.pc p r.2, match c.pc p with
    | .wrap _ => c.ticks
    | _ => c.ticks + 1⟩

theorem inLoop_update {r : State} {q : Pid} {t : TickPc} {n : ℕ} :
    InLoop ⟨r, Function.update c.pc p t, n⟩ q ↔
      if q = p then ∃ e, t = .wrap e else InLoop c q := by
  by_cases h : q = p <;> simp [InLoop, h]

section

variable (hN : 0 < N) (h : Accounted N c)
include hN h

/-- A fetch-add enters the loop exactly when it leaves a positive multiple of `N`. -/
theorem Accounted.tick (hp : ¬ InLoop c p) (hC : FoldsOffBoundary N c p)
    (hd : step N c p = some d) : Accounted N d := by
  obtain ⟨F, passes, hF, hP, hle, hb⟩ := h.balance
  set n := c.clock.nextVictimBuffer with hn
  have hpc : ∀ e, c.pc p ≠ .wrap e := fun e he => hp ⟨e, he⟩
  have hlt : n + 1 < 2 ^ 32 := by
    simp only [FoldsOffBoundary] at hC
    grind
  have hd' : d = ⟨⟨n + 1, c.clock.completePasses⟩, Function.update c.pc p
      (if n < N then .done n else if n % N = 0 then .wrap (n + 1) else .done (n % N)),
      c.ticks + 1⟩ := by
    have hm : (n + 1) % 2 ^ 32 = n + 1 := mod_eq_of_lt hlt
    cases hc : c.pc p with
    | wrap e => exact absurd hc (hpc e)
    | _ => simp only [step, hc, tickStep, ← hn, hm, Option.some.injEq] at hd; exact hd.symm
  have hwrap : (∃ e, (if n < N then TickPc.done n else if n % N = 0 then .wrap (n + 1)
      else .done (n % N)) = .wrap e) ↔ N ∣ n ∧ 0 < n := by
    rw [dvd_iff_mod_eq_zero]
    by_cases h1 : n < N
    · simp only [h1, if_true, reduceCtorEq, exists_false, false_iff, not_and]
      rw [mod_eq_of_lt h1]
      omega
    · by_cases h2 : n % N = 0 <;> simp [h1, h2]
      omega
  subst hd'
  refine ⟨hlt, ?_⟩
  by_cases hx : N ∣ n ∧ 0 < n
  · refine ⟨insert p F, passes, fun q => ?_, hP, ?_, ?_⟩
    · rw [inLoop_update, hwrap, Finset.mem_insert, hF]
      by_cases hq : q = p <;> simp [hq, hx]
    · rw [crossings_succ, if_pos hx, Finset.card_insert_of_notMem (fun hm => hp ((hF p).mp hm))]
      omega
    · rw [crossings_succ, if_pos hx, Finset.card_insert_of_notMem (fun hm => hp ((hF p).mp hm)),
        mul_add, mul_add]
      simp only
      omega
  · refine ⟨F, passes, fun q => ?_, hP, ?_, ?_⟩
    · rw [inLoop_update, hwrap, hF]
      by_cases hq : q = p <;> simp [hq, hx, hp]
    · rw [crossings_succ, if_neg hx]
      omega
    · simp only [crossings_succ, if_neg hx, add_zero]
      omega

/-- A successful fold off the multiples of `N` takes back every crossing, counts one pass and
takes one process out of the loop. -/
theorem Accounted.wrap {e : ℕ} (hp : c.pc p = .wrap e) (hC : FoldsOffBoundary N c p)
    (hd : step N c p = some d) : Accounted N d := by
  obtain ⟨F, passes, hF, hP, hle, hb⟩ := h.balance
  have hin : InLoop c p := ⟨e, hp⟩
  simp only [FoldsOffBoundary, hp] at hC
  by_cases he : c.clock.nextVictimBuffer = e
  · simp only [step, hp, tickStep, if_pos he, Option.some.injEq] at hd
    subst hd
    have hlt := h.small
    have hmod := mod_add_crossings (hC he)
    have hcard := Finset.card_erase_add_one ((hF p).mpr hin)
    rw [he] at hlt hle hb
    refine ⟨by simp only; omega, F.erase p, passes + 1, fun q => ?_, ?_, ?_, ?_⟩
    · rw [inLoop_update, Finset.mem_erase, hF]
      by_cases hq : q = p <;> simp [hq]
    · simp only [hP, mod_add_mod]
    · simp [crossings_mod hN]
    · simp only [crossings_mod hN]
      rw [← hcard, mul_add] at hb
      rw [add_mul]
      omega
  · simp only [step, hp, tickStep, if_neg he, Option.some.injEq] at hd
    subst hd
    refine ⟨h.small, F, passes, fun q => ?_, hP, hle, hb⟩
    rw [inLoop_update, hF]
    by_cases hq : q = p <;> simp [hq, hin]

theorem Accounted.step (hC : FoldsOffBoundary N c p) (hd : step N c p = some d) :
    Accounted N d := by
  by_cases hp : InLoop c p
  · obtain ⟨e, he⟩ := hp
    exact h.wrap hN he hC hd
  · exact h.tick hN hp hC hd

end

theorem ticks_le_of_run {as : List Pid} (h : run (step N) c as = some d) : c.ticks ≤ d.ticks := by
  refine run_invariant (I := fun x => c.ticks ≤ x.ticks) h (along_true as c) le_rfl ?_
  rintro u q v hu - hv
  simp only [ClockSweep.step, Option.some.injEq] at hv
  subst hv
  simp only
  split <;> omega

/-- While every fold happens off the multiples of the pool size, the clock of a state with no
process in the wraparound loop shows exactly the ticks taken, and the pair reported to the
background writer is read off that number, so it moves forward from one such state to a later
one as long as the pass counter does not wrap. -/
theorem completePasses_accounting (hN : 0 < N) {as bs : List Pid}
    (hc : run (step N) (start Pid) as = some c) (hd : run (step N) c bs = some d)
    (hC : Along (step N) (FoldsOffBoundary N) (start Pid) (as ++ bs))
    (hqc : ∀ p, ¬ InLoop c p) (hqd : ∀ p, ¬ InLoop d p) :
    (d.clock.completePasses * N + d.clock.nextVictimBuffer ≡ d.ticks [MOD 2 ^ 32 * N]) ∧
      syncStart N d.clock = (d.ticks / N % 2 ^ 32, d.ticks % N) ∧
      (d.ticks / N < 2 ^ 32 →
        toLex (syncStart N c.clock) ≤ toLex (syncStart N d.clock)) := by
  rw [along_append_iff hc] at hC
  have hstep := fun (u : Clocks Pid) q v (hu : Accounted N u) => hu.step (p := q) (d := v) hN
  have hac : Accounted N c := run_invariant hc hC.1 accounted_start hstep
  have had : Accounted N d := run_invariant hd hC.2 hac hstep
  refine ⟨had.modEq hqd, had.syncStart hN hqd, fun hlt => ?_⟩
  have hle := ticks_le_of_run hd
  have hdiv := Nat.div_le_div_right (c := N) hle
  rw [hac.syncStart hN hqc, had.syncStart hN hqd, mod_eq_of_lt hlt,
    mod_eq_of_lt (by omega), Prod.Lex.toLex_le_toLex]
  rcases lt_or_ge (c.ticks / N) (d.ticks / N) with hl | hg
  · exact Or.inl hl
  · have he : c.ticks / N = d.ticks / N := le_antisymm hdiv hg
    have h1 := div_add_mod c.ticks N
    have h2 := div_add_mod d.ticks N
    rw [he] at h1
    omega

/-- Three ticks of one process over two buffers with the fold at 3, then one of another. -/
theorem completePasses_accounting_two :
    ∃ c d : Clocks Bool,
      run (step 2) (start Bool) [false, false, false, false] = some c ∧
      run (step 2) c [true] = some d ∧ d.ticks = 4 ∧
      syncStart 2 d.clock = (d.ticks / 2 % 2 ^ 32, d.ticks % 2) ∧
      toLex (syncStart 2 c.clock) ≤ toLex (syncStart 2 d.clock) := by
  refine ⟨_, _, rfl, rfl, rfl, ?_⟩
  have h := completePasses_accounting (N := 2) (by decide)
    (rfl : run (step 2) (start Bool) [false, false, false, false] = some _)
    (rfl : run (step 2) _ [true] = some _) (by decide) (by decide) (by decide)
  exact ⟨h.2.1, h.2.2 (by decide)⟩

/-- The third tick enters the loop; before it folds the counter another process moves it from 3
to 4, so the fold takes away two passes and counts one. -/
theorem completePasses_undercounts :
    ∃ c : Clocks Bool,
      run (step 2) (start Bool) [false, false, false, true, false, false] = some c ∧
      (∀ p, ¬ InLoop c p) ∧ c.clock = ⟨0, 1⟩ ∧ c.ticks = 4 ∧
      ¬ c.clock.completePasses * 2 + c.clock.nextVictimBuffer ≡ c.ticks [MOD 2 ^ 32 * 2] :=
  ⟨_, rfl, by decide, rfl, rfl, by decide⟩

/-! ## Folds that take back one pass -/

/-- The counter does not overflow, and every compare-exchange that folds it takes back exactly one
pass. -/
def FoldsOnePass (N : ℕ) (c : Clocks Pid) (p : Pid) : Prop :=
  match c.pc p with
  | .wrap e => c.clock.nextVictimBuffer = e → N ≤ e ∧ e < 2 * N
  | _ => c.clock.nextVictimBuffer + 1 < 2 ^ 32

/-- The clock shows the number of ticks, whoever is in the wraparound loop. -/
def Exact (N : ℕ) (c : Clocks Pid) : Prop :=
  ∃ passes, c.clock.completePasses = passes % 2 ^ 32 ∧
    c.ticks = passes * N + c.clock.nextVictimBuffer

omit [DecidableEq Pid] in
theorem exact_start : Exact N (start Pid) := ⟨0, rfl, by simp [start]⟩

theorem Exact.step (h : Exact N c) (hC : FoldsOnePass N c p) (hd : step N c p = some d) :
    Exact N d := by
  obtain ⟨passes, hP, hT⟩ := h
  simp only [ClockSweep.step, Option.some.injEq] at hd
  subst hd
  cases hc : c.pc p with
  | wrap e =>
    simp only [FoldsOnePass, hc] at hC
    by_cases he : c.clock.nextVictimBuffer = e
    · obtain ⟨h1, h2⟩ := hC he
      have hmod : e % N = e - N := by
        rw [mod_eq_sub_mod h1, mod_eq_of_lt (by omega)]
      refine ⟨passes + 1, ?_, ?_⟩
      · simp only [tickStep, if_pos he, hP, mod_add_mod]
      · simp only [tickStep, if_pos he, hmod, add_mul, one_mul]
        omega
    · exact ⟨passes, by simp only [tickStep, if_neg he, hP], by simp only [tickStep, if_neg he, hT]⟩
  | start | done =>
    simp only [FoldsOnePass, hc] at hC
    refine ⟨passes, hP, ?_⟩
    simp only [tickStep, mod_eq_of_lt hC]
    omega

end Accounting

end PostgreSieve.ClockSweep
