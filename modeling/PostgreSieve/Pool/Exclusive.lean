import PostgreSieve.Pool.Pins

/-! # Victims belong to one backend

`StrategyGetBuffer` returns a buffer by one compare-exchange, in its ring part or in
`get_buffer` of the policy. The buffer was neither pinned nor locked, and it is not
returned again before the backend that got it has unpinned it.
-/

namespace PostgreSieve

open Function Option

variable {V : EvictionVtable} {Pid : Type} {N : ℕ} {hash : BufferTag → ℕ}

/-- The buffer that `StrategyGetBuffer` returns by the compare-exchange of this step. -/
def claims (N : ℕ) (s : Sys V Pid) (a : Pid × Input) : Option ℕ :=
  match code N (s.backends a.1) a.2 with
  | some (.cas b old .claim _ _) => if s.pool.state b = old then some b else none
  | some (.policy _ g) => match V.code N s.pool.policy g with
    | .claim b old _ _ => if s.pool.state b = old then some b else none
    | _ => none
  | _ => none

/-- The buffer that the backend of this step gives its last pin up on. -/
def unpins (N : ℕ) (s : Sys V Pid) (a : Pid × Input) : Option ℕ :=
  match code N (s.backends a.1) a.2 with
  | some (.unpin b _ _) => if (s.backends a.1).refcount b = 1 then some b else none
  | _ => none

section Pins

variable [DecidableEq Pid] {s s' : Sys V Pid} {P P' : Pool V Pid} {x x' : Backend V} {p : Pid}
  {b : ℕ}

theorem execGet_refcount_pos {k : VictimFor} {g : GetInstr V.State V.Pc} (hb : 0 < x.refcount b)
    (he : execGet p P x k g = some (P', x')) : 0 < x'.refcount b := by
  cases execGet_cases he with
  | claim c => exact Backend.track_pos c hb
  | _ => exact hb

/-- Only the unpinning of its last pin takes a buffer away from a backend. -/
theorem exec_refcount_pos {i : Instr V} (hb : 0 < x.refcount b)
    (hi : ∀ next wake, i = .unpin b next wake → x.refcount b ≠ 1)
    (he : exec N hash p P x i = some (P', x')) : 0 < x'.refcount b := by
  cases i with
  | goto | setRing | raise | load | readTag | unlockBufHdr | clearValid | writeTag | tableDelete =>
    cases he
    exact hb
  | await | lockBufHdr =>
    cases ((ite_none_left_eq_some ..).mp he).2
    exact hb
  | policy k g => exact execGet_refcount_pos hb he
  | checkUnpinned | lwExclusive =>
    cases ((ite_none_right_eq_some ..).mp he).2
    exact hb
  | pinFirst c held fresh =>
    simp only [exec] at he
    split at he <;> cases he
    · exact Backend.track_pos c hb
    · exact hb
  | cas c old op ok fail =>
    simp only [exec] at he
    split at he <;> cases he
    · split
      · exact Backend.track_pos c hb
      · exact hb
    · exact hb
  | unpin c next wake =>
    simp only [exec, ite_none_left_eq_some] at he
    have hpos : 0 < (x.untrack c).refcount b := by
      obtain rfl | hcb := eq_or_ne b c
      · have := hi next wake rfl
        simp only [Backend.untrack_self]
        omega
      · rwa [Backend.untrack_of_ne hcb]
    obtain ⟨-, he⟩ := he
    split at he <;> cases he <;> exact hpos
  | lookup | tableInsert =>
    obtain ⟨-, he⟩ := (ite_none_right_eq_some ..).mp he
    split at he <;> cases he <;> exact hb
  | lwRelease e t next =>
    simp only [exec] at he
    split at he <;> cases he <;> exact hb
  | notify n c next =>
    obtain ⟨s', rfl, rfl⟩ := exec_notify_cases he
    exact hb

theorem step_refcount_pos {a : Pid × Input} (hs : step N hash s a = some s')
    (hb : 0 < (s.backends p).refcount b) (ha : a.1 = p → unpins N s a ≠ some b) :
    0 < (s'.backends p).refcount b := by
  obtain ⟨i, P, x, hi, he, rfl⟩ := step_eq_some_iff.mp hs
  by_cases hp : a.1 = p
  · subst hp
    dsimp only
    rw [update_self]
    refine exec_refcount_pos hb ?_ he
    rintro next wake rfl h1
    exact ha rfl (by simp [unpins, hi, h1])
  · dsimp only
    rwa [update_of_ne (Ne.symm hp)]

end Pins

section Claims

variable {s s' u : Sys V Pid} {a : Pid × Input} {b : ℕ}

theorem claims_cases (h : claims N s a = some b) :
    (∃ ok fail, code N (s.backends a.1) a.2 = some (.cas b (s.pool.state b) .claim ok fail)) ∨
    ∃ k g policy fail, code N (s.backends a.1) a.2 = some (.policy k g) ∧
      V.code N s.pool.policy g = .claim b (s.pool.state b) policy fail := by
  rw [claims] at h
  split at h
  · rename_i hi
    obtain ⟨rfl, hb⟩ := (ite_none_right_eq_some ..).mp h
    cases hb
    exact .inl ⟨_, _, hi⟩
  · rename_i hi
    split at h
    · rename_i hc
      obtain ⟨rfl, hb⟩ := (ite_none_right_eq_some ..).mp h
      cases hb
      exact .inr ⟨_, _, _, _, hi, hc⟩
    · cases h
  · cases h

variable [Fintype Pid]

theorem claims_free (hV : V.Careful) (h : Sound s) (hc : claims N s a = some b) :
    (s.pool.state b).getRefcount = 0 ∧ (s.pool.state b).has bmLocked = false := by
  obtain ⟨ok, fail, hi⟩ | ⟨k, g, policy, fail, -, hg⟩ := claims_cases hc
  · obtain ⟨-, h0, hl, -⟩ := code_disciplined (h.formed a.1) hi
    exact ⟨h0, hl⟩
  · exact hV.claim hg

variable [DecidableEq Pid]

theorem step_of_claims (h : Sound s) (hc : claims N s a = some b) (hs : step N hash s a = some s') :
    s'.pool.state = update s.pool.state b (s.pool.state b + bufRefcountOne) ∧
      ∃ k w fromRing, (s'.backends a.1).pc = .gotVictim k b w fromRing ∧
        0 < (s'.backends a.1).refcount b := by
  obtain ⟨i, P, x, hi, he, rfl⟩ := step_eq_some_iff.mp hs
  have hpos : 0 < ((s.backends a.1).track b).refcount b := by simp
  dsimp only
  rw [update_self]
  obtain ⟨ok, fail, hi'⟩ | ⟨k, g, policy, fail, hi', hg⟩ := claims_cases hc
  · obtain ⟨-, -, -, ⟨k, rfl⟩, -⟩ := code_disciplined (h.formed a.1) hi'
    cases hi.symm.trans hi'
    simp only [exec, if_true, some.injEq, Prod.mk.injEq] at he
    obtain ⟨rfl, rfl⟩ := he
    exact ⟨rfl, k, _, _, rfl, hpos⟩
  · cases hi.symm.trans hi'
    simp only [exec, execGet, hg, if_true, some.injEq, Prod.mk.injEq] at he
    obtain ⟨rfl, rfl⟩ := he
    exact ⟨rfl, k, _, _, rfl, hpos⟩

/-- Between a state in which `p` has pinned `b` and a claim of `b`, `p` gives up its pin. -/
theorem unpins_before_claims (hV : V.Careful) (hP : Fintype.card Pid ≤ maxBackends) {p : Pid}
    {as : List (Pid × Input)} (h : Sound s) (hp : 0 < (s.backends p).refcount b)
    (hr : run (step N hash) s as = some u) (hc : claims N u a = some b) :
    ∃ as₁ c as₂ v, as = as₁ ++ c :: as₂ ∧ run (step N hash) s as₁ = some v ∧
      c.1 = p ∧ unpins N v c = some b := by
  induction as generalizing s with
  | nil =>
    obtain rfl := some.inj hr
    exact absurd (h.unpinned (claims_free hV h hc).1 p) hp.ne'
  | cons c as ih =>
    obtain ⟨t, ht, hr⟩ := run_cons_eq_some_iff.mp hr
    by_cases hcp : c.1 = p ∧ unpins N s c = some b
    · exact ⟨[], c, as, s, rfl, rfl, hcp⟩
    · have hpt := step_refcount_pos ht hp fun hcp' hu => hcp ⟨hcp', hu⟩
      obtain ⟨P, x, rfl, he⟩ := step_effect hV hP h ht
      obtain ⟨as₁, c', as₂, v, rfl, hv, hu⟩ := ih (h.step he) hpt hr
      exact ⟨c :: as₁, c', as₂, v, rfl, run_cons_eq_some_iff.mpr ⟨_, ht, hv⟩, hu⟩

/-- Whichever policy is active, the compare-exchange by which `StrategyGetBuffer` returns a buffer
finds it neither pinned nor locked and changes its reference count only, and the buffer is not
returned again before the backend that got it has unpinned it. -/
theorem victim_exclusivity {policy : EvictionPolicy} {s s' : Sys policy.vtable Pid}
    (hP : Fintype.card Pid ≤ maxBackends)
    (h : Reachable (step N hash) (boot policy.vtable Pid N) s)
    (hc : claims N s a = some b) (hs : step N hash s a = some s') :
    (s.pool.state b).getRefcount = 0 ∧ (s.pool.state b).has bmLocked = false ∧
    (s'.pool.state b).fields = { (s.pool.state b).fields with refcount := 1 } ∧
    (∀ c ≠ b, s'.pool.state c = s.pool.state c) ∧
    (∃ k w fromRing, (s'.backends a.1).pc = .gotVictim k b w fromRing) ∧
    ∀ as u a', run (step N hash) s' as = some u → claims N u a' = some b →
      ∃ as₁ c as₂ v, as = as₁ ++ c :: as₂ ∧ run (step N hash) s' as₁ = some v ∧
        c.1 = a.1 ∧ unpins N v c = some b := by
  have hV := policy.careful
  have hsound := sound_of_reachable hV hP h
  obtain ⟨h0, hl⟩ := claims_free hV hsound hc
  obtain ⟨hstate, k, w, fromRing, hpc, hpos⟩ := step_of_claims hsound hc hs
  refine ⟨h0, hl, ?_, ?_, ⟨k, w, fromRing, hpc⟩, ?_⟩
  · have hlt : (s.pool.state b).getRefcount < maxBackends := lt_of_eq_of_lt h0 (by decide)
    rw [hstate, update_self, fields_add_refcountOne hlt, h0]
  · intro c hcb
    rw [hstate, update_of_ne hcb]
  · intro as u a' hr hc'
    obtain ⟨P, x, rfl, he⟩ := step_effect hV hP hsound hs
    exact unpins_before_claims hV hP (hsound.step he) hpos hr hc'

/-- A backend that misses in an empty pool of two buffers gets buffer 0. -/
theorem victim_exclusivity_miss :
    ∃ s s' : Sys EvictionPolicy.sieve.vtable (Fin 2), claims 2 s (0, .go) = some 0 ∧
      (s'.pool.state 0).fields = { (s.pool.state 0).fields with refcount := 1 } ∧
      ∀ as u a', run (step 2 fun _ => 0) s' as = some u → claims 2 u a' = some 0 →
        ∃ as₁ c as₂ v, as = as₁ ++ c :: as₂ ∧ run (step 2 fun _ => 0) s' as₁ = some v ∧
          c.1 = 0 ∧ unpins 2 v c = some 0 := by
  have h : (run (step 2 fun _ => 0) (boot EvictionPolicy.sieve.vtable (Fin 2) 2)
      ((0, .start (.read ⟨⟨1, 1, 1, 0, 0⟩, false, true⟩)) :: List.replicate 4 (0, .go))).bind
        (fun s => (step 2 (fun _ => 0) s (0, .go)).map fun _ =>
          decide (claims 2 s (0, .go) = some 0)) = some true := by
    decide +kernel
  simp only [bind_eq_some_iff, map_eq_some_iff, decide_eq_true_iff] at h
  obtain ⟨s, hr, s', hs, hc⟩ := h
  obtain ⟨-, -, hf, -, -, hu⟩ := victim_exclusivity (by simp [maxBackends]) ⟨_, hr⟩ hc hs
  exact ⟨s, s', hc, hf, hu⟩

end Claims

end PostgreSieve
