import PostgreSieve.Eviction.Policies
import Mathlib.Tactic.LinearCombination

/-! # The position of the background writer

`BgBufferSync` cleans buffers ahead of the strategy point, which it asks
`StrategySyncStart` for, and tells from wrapped differences of pass counts how far
it has come. The hand of the clock sweep is such a point. The list policies
have none and count the calls of `StrategySyncStart` instead.
-/

namespace PostgreSieve

open Nat

/-- A point of a scan around the pool: the completed passes, of type `uint32`, and the buffer. -/
structure ScanPoint where
  passes : ℕ
  buf : ℕ
  deriving DecidableEq

/-- The difference of two values of type `uint32`, converted to `int32`. -/
def int32Sub (a b : ℕ) : ℤ := ((a : ℤ) - b).bmod (2 ^ 32)

/-- One step of the scan in `BgBufferSync`. -/
def ScanPoint.advance (N : ℕ) (x : ScanPoint) : ScanPoint :=
  if N ≤ x.buf + 1 then ⟨(x.passes + 1) % 2 ^ 32, 0⟩ else { x with buf := x.buf + 1 }

/-- The static variables of `BgBufferSync`: the strategy point of the last call, if it was saved,
and the point to clean next. -/
structure BgWriter where
  savedInfoValid : Bool
  prev : ScanPoint
  next : ScanPoint
  deriving DecidableEq

/-- `strategy_delta` and `bufs_to_lap`, and the point where the scan starts. -/
structure LapEstimate where
  strategyDelta : ℤ
  bufsToLap : ℤ
  next : ScanPoint
  deriving DecidableEq

/-- The first part of `BgBufferSync`: compare the strategy point with the saved ones. -/
def BgWriter.estimate (N : ℕ) (w : BgWriter) (strategy : ScanPoint) : LapEstimate :=
  if w.savedInfoValid then
    let passesDelta := int32Sub strategy.passes w.prev.passes
    let strategyDelta := (strategy.buf : ℤ) - w.prev.buf + passesDelta * N
    if 0 < int32Sub w.next.passes strategy.passes then
      ⟨strategyDelta, (strategy.buf : ℤ) - w.next.buf, w.next⟩
    else if w.next.passes = strategy.passes ∧ strategy.buf ≤ w.next.buf then
      ⟨strategyDelta, N - ((w.next.buf : ℤ) - strategy.buf), w.next⟩
    else ⟨strategyDelta, N, strategy⟩
  else ⟨0, N, strategy⟩

/-- `BgBufferSync`, given the strategy point. The scan is on if `bgwriter_lru_maxpages` is
positive; it stops after `scan` buffers, because enough of them are reusable or written, or after
`bufs_to_lap`. -/
def BgWriter.bgBufferSync (N : ℕ) (w : BgWriter) (strategy : ScanPoint) (on : Bool) (scan : ℕ) :
    BgWriter :=
  if on then
    let e := w.estimate N strategy
    ⟨true, strategy, (ScanPoint.advance N)^[min scan e.bufsToLap.toNat] e.next⟩
  else { w with savedInfoValid := false }

/-! ## Calls among strategy activity -/

/-- The clock, the field `bgw_sync_seq` of each list policy, and the background writer, with the
ticks of the clock at its last call. -/
structure SyncState (Pid : Type*) where
  clocks : ClockSweep.Clocks Pid
  bgwSyncSeq : EvictionPolicy → ℕ
  writer : BgWriter
  lastTicks : ℕ

inductive SyncAction (Pid : Type*) where
  /-- Process `p` looks for a victim. -/
  | activity (p : Pid)
  | bgBufferSync (on : Bool) (scan : ℕ)

section Machine

variable {Pid : Type*} [DecidableEq Pid]

/-- `StrategySyncStart`: the strategy point, and the counter it leaves behind. -/
def SyncState.strategySyncStart (policy : EvictionPolicy) (N : ℕ) (s : SyncState Pid) :
    ScanPoint × SyncState Pid :=
  match policy with
  | .clockSweep =>
    (⟨(ClockSweep.syncStart N s.clocks.clock).1, (ClockSweep.syncStart N s.clocks.clock).2⟩, s)
  | _ =>
    let seq := (s.bgwSyncSeq policy + 1) % 2 ^ 32
    (⟨seq / N, seq % N⟩, { s with bgwSyncSeq := Function.update s.bgwSyncSeq policy seq })

/-- What a call of `BgBufferSync` computes. -/
def SyncState.estimate (policy : EvictionPolicy) (N : ℕ) (s : SyncState Pid) : LapEstimate :=
  s.writer.estimate N (s.strategySyncStart policy N).1

namespace BgSync

def step (policy : EvictionPolicy) (N : ℕ) (s : SyncState Pid) :
    SyncAction Pid → Option (SyncState Pid)
  | .activity p =>
    if policy = .clockSweep then (ClockSweep.step N s.clocks p).map fun c => { s with clocks := c }
    else some s
  | .bgBufferSync on scan =>
    let r := s.strategySyncStart policy N
    some { r.2 with
      writer := s.writer.bgBufferSync N r.1 on scan
      lastTicks := s.clocks.ticks }

def start (Pid : Type*) : SyncState Pid :=
  ⟨ClockSweep.start Pid, fun _ => 0, ⟨false, ⟨0, 0⟩, ⟨0, 0⟩⟩, 0⟩

/-- The clock ticks without overflow and every fold of its counter takes back exactly one pass;
between two calls it makes fewer than `2 ^ 31` passes. The call counter of a list policy does not
wrap around while the background writer has saved a strategy point, except in a pool of one
buffer. -/
def Allowed (policy : EvictionPolicy) (N : ℕ) (s : SyncState Pid) : SyncAction Pid → Prop
  | .activity p => policy = .clockSweep → ClockSweep.FoldsOnePass N s.clocks p
  | .bgBufferSync on _ =>
    if policy = .clockSweep then s.clocks.ticks / N < s.lastTicks / N + 2 ^ 31
    else s.writer.savedInfoValid && on → N = 1 ∨ s.bgwSyncSeq policy + 1 < 2 ^ 32

/-- A call of `BgBufferSync` computes a strategy point that has not gone back, and stays within
one lap of it. -/
def WithinLap (policy : EvictionPolicy) (N : ℕ) (s : SyncState Pid) : SyncAction Pid → Prop
  | .bgBufferSync true _ => 0 ≤ (s.estimate policy N).strategyDelta ∧
      0 ≤ (s.estimate policy N).bufsToLap ∧ (s.estimate policy N).bufsToLap ≤ N
  | _ => True

end BgSync

end Machine

/-! ## Points of an endless scan -/

section Points

variable {N S S₀ X : ℕ}
variable {w : BgWriter}

theorem int32Sub_mod {a b : ℕ} (h : (a : ℤ) < b + 2 ^ 31) (h' : (b : ℤ) ≤ a + 2 ^ 31) :
    int32Sub (a % 2 ^ 32) (b % 2 ^ 32) = a - b := by
  simp only [int32Sub, Int.bmod]
  omega

/-- The point of an endless scan after `S` buffers. -/
def ScanPoint.ofCount (N S : ℕ) : ScanPoint := ⟨S / N % 2 ^ 32, S % N⟩

theorem ScanPoint.advance_ofCount (hN : 0 < N) (S : ℕ) :
    (ofCount N S).advance N = ofCount N (S + 1) := by
  have hlt := mod_lt S hN
  have hdm := div_add_mod S N
  rw [advance]
  split
  · rename_i h
    have hlast : N ≤ S % N + 1 := h
    have he : S + 1 = N * (S / N + 1) := by
      rw [mul_add]
      omega
    simp only [ofCount, he, Nat.mul_div_cancel_left _ hN, Nat.mul_mod_right, Nat.mod_add_mod]
  · rename_i h
    have hlast : ¬ N ≤ S % N + 1 := h
    have hlt' : S % N + 1 < N := by omega
    have he : S + 1 = N * (S / N) + (S % N + 1) := by omega
    have hd : (S + 1) / N = S / N := by
      rw [he, mul_add_div hN, div_eq_of_lt hlt', add_zero]
    have hm : (S + 1) % N = S % N + 1 := by
      rw [he, mul_add_mod, mod_eq_of_lt hlt']
    simp only [ofCount, hd, hm]

theorem ScanPoint.iterate_advance (hN : 0 < N) (S k : ℕ) :
    (advance N)^[k] (ofCount N S) = ofCount N (S + k) := by
  induction k with
  | zero => rfl
  | succ k ih => rw [Function.iterate_succ_apply', ih, advance_ofCount hN, add_assoc]

/-- The saved points are the one after `S₀` buffers and one at most a lap ahead. -/
def BgWriter.Saved (N : ℕ) (w : BgWriter) (S₀ X : ℕ) : Prop :=
  w.prev = .ofCount N S₀ ∧ w.next = .ofCount N X ∧ S₀ ≤ X ∧ X ≤ S₀ + N

/-- When the strategy point has moved from `S₀` to `S`, the comparison finds the distance, and
the number of buffers left in the lap from `S`. -/
theorem BgWriter.Saved.estimate (hN : 0 < N) (h : w.Saved N S₀ X) (hS : S₀ ≤ S)
    (hlt : S / N < S₀ / N + 2 ^ 31) (hv : w.savedInfoValid = true) :
    ∃ Y, S ≤ Y ∧ Y ≤ S + N ∧
      w.estimate N (.ofCount N S) = ⟨(S : ℤ) - S₀, (S : ℤ) + N - Y, .ofCount N Y⟩ := by
  obtain ⟨hprev, hnext, hX, hX'⟩ := h
  have hq : S₀ / N ≤ S / N := Nat.div_le_div_right hS
  have hx : S₀ / N ≤ X / N := Nat.div_le_div_right hX
  have hx' : X / N ≤ S₀ / N + 1 := by
    rw [← add_div_right _ hN]
    exact Nat.div_le_div_right hX'
  have hS₀ := div_add_mod S₀ N
  have hSd := div_add_mod S N
  have hXd := div_add_mod X N
  have hdelta : int32Sub (S / N % 2 ^ 32) (S₀ / N % 2 ^ 32) = (S / N : ℕ) - (S₀ / N : ℕ) :=
    int32Sub_mod (by omega) (by omega)
  have hahead : int32Sub (X / N % 2 ^ 32) (S / N % 2 ^ 32) = (X / N : ℕ) - (S / N : ℕ) :=
    int32Sub_mod (by omega) (by omega)
  have hmove : ((S % N : ℕ) : ℤ) - (S₀ % N : ℕ) + ((S / N : ℕ) - (S₀ / N : ℕ)) * N = S - S₀ := by
    have h₁ : (N : ℤ) * (S / N : ℕ) + (S % N : ℕ) = S := by exact_mod_cast hSd
    have h₀ : (N : ℤ) * (S₀ / N : ℕ) + (S₀ % N : ℕ) = S₀ := by exact_mod_cast hS₀
    linear_combination h₁ - h₀
  simp only [BgWriter.estimate, hv, if_true, hprev, hnext, ScanPoint.ofCount, hdelta, hahead, hmove]
  split
  · have hlap : X / N = S / N + 1 := by omega
    rw [hlap, mul_add] at hXd
    have := mod_lt S hN
    refine ⟨X, by omega, by omega, ?_⟩
    simp only [LapEstimate.mk.injEq, true_and, and_true]
    omega
  · split
    · have hlap : X / N = S / N := by omega
      rw [hlap] at hXd
      refine ⟨X, by omega, by omega, ?_⟩
      simp only [LapEstimate.mk.injEq, true_and, and_true]
      omega
    · refine ⟨S, le_rfl, le_add_right _ _, ?_⟩
      simp only [LapEstimate.mk.injEq, true_and, and_true]
      omega

theorem BgWriter.estimate_of_not_saved (hv : w.savedInfoValid = false) (S : ℕ) :
    w.estimate N (.ofCount N S) = ⟨0, (S : ℤ) + N - S, .ofCount N S⟩ := by
  simp [estimate, hv]

/-- The scan leaves points that are at most a lap apart. -/
theorem BgWriter.saved_bgBufferSync {Y scan : ℕ} {delta : ℤ} (hN : 0 < N) (hY : S ≤ Y)
    (hY' : Y ≤ S + N) (he : w.estimate N (.ofCount N S) = ⟨delta, (S : ℤ) + N - Y, .ofCount N Y⟩) :
    ∃ X, (w.bgBufferSync N (.ofCount N S) true scan).Saved N S X := by
  refine ⟨Y + min scan (S + N - Y), ?_⟩
  have hlap : ((S : ℤ) + N - Y).toNat = S + N - Y := by omega
  simp only [bgBufferSync, if_true, he, hlap, ScanPoint.iterate_advance hN]
  exact ⟨rfl, rfl, by omega, by omega⟩

end Points

/-! ## Runs -/

namespace BgSync

variable {N : ℕ}

/-- The call counter `seq` of a list policy stands at the point after `S` buffers. -/
def Counts (N seq S : ℕ) : Prop := seq < 2 ^ 32 ∧ (S = seq ∨ N = 1 ∧ S % 2 ^ 32 = seq)

theorem Counts.ofCount {seq S : ℕ} (h : Counts N seq S) :
    (⟨seq / N, seq % N⟩ : ScanPoint) = .ofCount N S := by
  obtain ⟨hlt, rfl | ⟨rfl, hS⟩⟩ := h
  · have hd : S / N % 2 ^ 32 = S / N := mod_eq_of_lt (lt_of_le_of_lt (div_le_self S N) hlt)
    rw [ScanPoint.ofCount, hd]
  · rw [ScanPoint.ofCount, Nat.div_one, Nat.div_one, hS, Nat.mod_one, Nat.mod_one]

/-- The writer's saved points are those of its last call. -/
def Tracks {Pid : Type*} (policy : EvictionPolicy) (N : ℕ) (s : SyncState Pid) : Prop :=
  if policy = .clockSweep then
    ClockSweep.Exact N s.clocks ∧ s.lastTicks ≤ s.clocks.ticks ∧
      (s.writer.savedInfoValid = true → ∃ X, s.writer.Saved N s.lastTicks X)
  else
    s.bgwSyncSeq policy < 2 ^ 32 ∧ (s.writer.savedInfoValid = true →
      ∃ S₀ X, s.writer.Saved N S₀ X ∧ Counts N (s.bgwSyncSeq policy) S₀)

/-- What a call finds: the strategy point after `S` buffers, fewer than `2 ^ 31` passes behind
the saved one. -/
structure Finds (N : ℕ) (w : BgWriter) (strategy : ScanPoint) (S : ℕ) : Prop where
  point : strategy = .ofCount N S
  saved : w.savedInfoValid = true →
    ∃ S₀ X, w.Saved N S₀ X ∧ S₀ ≤ S ∧ S / N < S₀ / N + 2 ^ 31

theorem Finds.estimate {w : BgWriter} {strategy : ScanPoint} {S : ℕ} (hN : 0 < N)
    (h : Finds N w strategy S) : ∃ delta : ℤ, ∃ Y, 0 ≤ delta ∧ S ≤ Y ∧ Y ≤ S + N ∧
      w.estimate N strategy = ⟨delta, (S : ℤ) + N - Y, .ofCount N Y⟩ := by
  obtain ⟨rfl, hs⟩ := h
  cases hv : w.savedInfoValid with
  | false => exact ⟨0, S, le_rfl, le_rfl, le_add_right _ _, w.estimate_of_not_saved hv S⟩
  | true =>
    obtain ⟨S₀, X, hsaved, hle, hlt⟩ := hs hv
    obtain ⟨Y, h1, h2, he⟩ := hsaved.estimate hN hle hlt hv
    exact ⟨S - S₀, Y, by omega, h1, h2, he⟩

section Runs

variable {Pid : Type*} {policy : EvictionPolicy} {s t : SyncState Pid}
variable {scan : ℕ} {a : SyncAction Pid}

theorem strategySyncStart_of_ne (hp : policy ≠ .clockSweep) (s : SyncState Pid) :
    s.strategySyncStart policy N =
      (⟨(s.bgwSyncSeq policy + 1) % 2 ^ 32 / N, (s.bgwSyncSeq policy + 1) % 2 ^ 32 % N⟩,
        { s with
          bgwSyncSeq :=
            Function.update s.bgwSyncSeq policy ((s.bgwSyncSeq policy + 1) % 2 ^ 32) }) := by
  cases policy with
  | clockSweep => exact absurd rfl hp
  | _ => rfl

theorem Tracks.finds_clockSweep (hN : 0 < N) (h : Tracks .clockSweep N s)
    (hC : Allowed .clockSweep N s (.bgBufferSync true scan)) :
    Finds N s.writer (s.strategySyncStart .clockSweep N).1 s.clocks.ticks := by
  obtain ⟨⟨passes, hP, hT⟩, hle, hs⟩ := h
  refine ⟨?_, fun hv => ?_⟩
  · simp only [SyncState.strategySyncStart, ClockSweep.syncStart_eq hN hP hT]
    rfl
  · obtain ⟨X, hX⟩ := hs hv
    exact ⟨_, X, hX, hle, hC⟩

theorem Tracks.finds_list (hN : 0 < N) (hp : policy ≠ .clockSweep)
    (h : Tracks policy N s) (hC : Allowed policy N s (.bgBufferSync true scan)) :
    ∃ S, Finds N s.writer (s.strategySyncStart policy N).1 S ∧
      Counts N ((s.bgwSyncSeq policy + 1) % 2 ^ 32) S := by
  simp only [Tracks, if_neg hp] at h
  simp only [Allowed, if_neg hp, Bool.and_true] at hC
  obtain ⟨hlt, hs⟩ := h
  have hlt' : (s.bgwSyncSeq policy + 1) % 2 ^ 32 < 2 ^ 32 := mod_lt _ (by decide)
  rw [strategySyncStart_of_ne hp]
  cases hv : s.writer.savedInfoValid with
  | false => exact ⟨_, ⟨Counts.ofCount ⟨hlt', .inl rfl⟩, by simp [hv]⟩, hlt', .inl rfl⟩
  | true =>
    obtain ⟨S₀, X, hX, -, hS₀⟩ := hs hv
    have hS : Counts N ((s.bgwSyncSeq policy + 1) % 2 ^ 32) (S₀ + 1) := by
      refine ⟨hlt', ?_⟩
      rcases hC hv with hN1 | hno
      · refine .inr ⟨hN1, ?_⟩
        rcases hS₀ with rfl | ⟨-, hS₀⟩ <;> omega
      · rcases hS₀ with rfl | ⟨hN1, hS₀⟩
        · exact .inl (mod_eq_of_lt hno).symm
        · exact .inr ⟨hN1, by omega⟩
    refine ⟨S₀ + 1, ⟨hS.ofCount, fun _ => ⟨S₀, X, hX, le_succ _, ?_⟩⟩, hS⟩
    have hdiv : (S₀ + 1) / N ≤ S₀ / N + 1 := by
      rw [← add_div_right _ hN]
      exact Nat.div_le_div_right (by omega)
    omega

theorem Tracks.exists_finds (hN : 0 < N) (h : Tracks policy N s)
    (hC : Allowed policy N s (.bgBufferSync true scan)) :
    ∃ S, Finds N s.writer (s.strategySyncStart policy N).1 S := by
  by_cases hp : policy = .clockSweep
  · subst hp
    exact ⟨_, h.finds_clockSweep hN hC⟩
  · obtain ⟨S, hS, -⟩ := h.finds_list hN hp hC
    exact ⟨S, hS⟩

theorem Finds.saved_bgBufferSync {w : BgWriter} {strategy : ScanPoint} {S : ℕ} (hN : 0 < N)
    (h : Finds N w strategy S) (scan : ℕ) :
    ∃ X, (w.bgBufferSync N strategy true scan).Saved N S X := by
  obtain ⟨delta, Y, -, h1, h2, he⟩ := h.estimate hN
  obtain ⟨rfl, -⟩ := h
  exact BgWriter.saved_bgBufferSync hN h1 h2 he

theorem Tracks.withinLap (hN : 0 < N) (h : Tracks policy N s)
    (hC : Allowed policy N s a) : WithinLap policy N s a := by
  cases a with
  | activity p => trivial
  | bgBufferSync on scan =>
    cases on with
    | false => trivial
    | true =>
      obtain ⟨S, hS⟩ := h.exists_finds hN hC
      obtain ⟨delta, Y, hdelta, h1, h2, he⟩ := hS.estimate hN
      rw [WithinLap, SyncState.estimate, he]
      exact ⟨hdelta, by simp only; omega, by simp only; omega⟩

theorem tracks_start : Tracks policy N (start Pid) := by
  rw [Tracks]
  split
  · exact ⟨ClockSweep.exact_start, le_rfl, nofun⟩
  · exact ⟨by simp [start], nofun⟩

variable [DecidableEq Pid]

theorem Tracks.step (hN : 0 < N) (h : Tracks policy N s)
    (hC : Allowed policy N s a) (ht : step policy N s a = some t) : Tracks policy N t := by
  by_cases hp : policy = .clockSweep
  · subst hp
    obtain ⟨hexact, hle, hs⟩ := h
    cases a with
    | activity p =>
      rw [BgSync.step, if_pos rfl] at ht
      obtain ⟨c, hc, rfl⟩ := Option.map_eq_some_iff.mp ht
      refine ⟨hexact.step (hC rfl) hc, hle.trans ?_, hs⟩
      have hrun : run (ClockSweep.step N) s.clocks [p] = some c :=
        run_cons_eq_some_iff.mpr ⟨c, hc, rfl⟩
      exact ClockSweep.ticks_le_of_run hrun
    | bgBufferSync on scan =>
      obtain rfl := Option.some.inj ht
      refine ⟨hexact, le_rfl, fun hv => ?_⟩
      cases on with
      | false => exact absurd hv (by simp [BgWriter.bgBufferSync])
      | true => exact (Tracks.finds_clockSweep hN ⟨hexact, hle, hs⟩ hC).saved_bgBufferSync hN scan
  · cases a with
    | activity p =>
      simp only [BgSync.step, if_neg hp, Option.some.injEq] at ht
      exact ht ▸ h
    | bgBufferSync on scan =>
      obtain rfl := Option.some.inj ht
      have hlt : (s.bgwSyncSeq policy + 1) % 2 ^ 32 < 2 ^ 32 := mod_lt _ (by decide)
      simp only [Tracks, if_neg hp, strategySyncStart_of_ne hp, Function.update_self]
      refine ⟨hlt, fun hv => ?_⟩
      cases on with
      | false => exact absurd hv (by simp [BgWriter.bgBufferSync])
      | true =>
        obtain ⟨S, hf, hS⟩ := h.finds_list hN hp hC
        rw [strategySyncStart_of_ne hp] at hf
        obtain ⟨X, hX⟩ := hf.saved_bgBufferSync hN scan
        exact ⟨S, X, hX, hS⟩

end Runs

end BgSync

/-- While every fold of the clock takes back one pass and no call counter wraps around under a
saved point, each call of `BgBufferSync` finds the strategy point ahead of the last one, and the
cleaning point within one lap of it. -/
theorem bgwriter_within_lap {Pid : Type*} [DecidableEq Pid] (policy : EvictionPolicy) {N : ℕ}
    (hN : 0 < N) (as : List (SyncAction Pid))
    (hC : Along (BgSync.step policy N) (BgSync.Allowed policy N) (BgSync.start Pid) as) :
    Along (BgSync.step policy N) (BgSync.WithinLap policy N) (BgSync.start Pid) as :=
  hC.of_invariant BgSync.tracks_start (fun _ _ _ hu hCu hv => hu.step hN hCu hv)
    fun _ _ hu hCu => hu.withinLap hN hCu

/-- The clock makes a pass over two buffers between two calls. -/
theorem bgwriter_within_lap_pass : 0 < 2 ∧
    Along (BgSync.step .clockSweep 2) (BgSync.WithinLap .clockSweep 2) (BgSync.start Unit)
      [.bgBufferSync true 1, .activity (), .activity (), .activity (), .activity (),
        .bgBufferSync true 2] := by
  refine ⟨by decide, bgwriter_within_lap .clockSweep (by decide) _ ?_⟩
  simp [Along, BgSync.step, BgSync.Allowed, BgSync.start, ClockSweep.FoldsOnePass, ClockSweep.step,
    ClockSweep.start, ClockSweep.tickStep, SyncState.strategySyncStart]

theorem BgSync.run_off {policy : EvictionPolicy} (hp : policy ≠ .clockSweep) (N n : ℕ) :
    run (step policy N) (start Bool) (List.replicate n (.bgBufferSync false 0)) =
      some { start Bool with bgwSyncSeq := Function.update (fun _ => 0) policy (n % 2 ^ 32) } := by
  induction n with
  | zero =>
    simp [start]
  | succ n ih =>
    rw [List.replicate_succ', run_append_eq_some_iff]
    refine ⟨_, ih, ?_⟩
    simp [run, step, strategySyncStart_of_ne hp, BgWriter.bgBufferSync, start, ClockSweep.start]

/-- With a list policy and two buffers, the call after `2 ^ 32 - 1` others finds the strategy point
behind the saved one. With the clock sweep it does so when another process moves the hand
from 3 to 4 before it is folded. -/
theorem bgwriter_falls_back :
    (∀ policy : EvictionPolicy, policy ≠ .clockSweep → ∃ s : SyncState Bool,
      run (BgSync.step policy 2) (BgSync.start Bool)
        (List.replicate (2 ^ 32 - 2) (.bgBufferSync false 0) ++ [.bgBufferSync true 0]) = some s ∧
      (s.estimate policy 2).strategyDelta = - (2 ^ 32 - 1) ∧
      (s.estimate policy 2).bufsToLap = - 1) ∧
    ∃ s : SyncState Bool, run (BgSync.step .clockSweep 2) (BgSync.start Bool)
        [.activity false, .activity false, .activity false, .activity true, .bgBufferSync true 0,
          .activity false, .activity false] = some s ∧
      (s.estimate .clockSweep 2).strategyDelta = - 2 := by
  constructor
  · intro policy hp
    refine ⟨_, run_append_eq_some_iff.mpr ⟨_, BgSync.run_off hp 2 _, rfl⟩, ?_⟩
    simp only [SyncState.estimate, BgSync.strategySyncStart_of_ne hp, Function.update_self]
    decide
  · exact ⟨_, rfl, by decide⟩

end PostgreSieve
