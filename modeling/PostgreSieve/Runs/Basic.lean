import Mathlib.Data.List.Basic
import Mathlib.Logic.Function.Basic

/-! # Runs of a step function and loops of one process

A system takes labelled steps, and a run is a list of labels. `Along` asks a
condition of every step of a run, stated of the state before the step. A loop
body either continues with a new state or returns, and `Returns` says that
enough iterations return.
-/

namespace PostgreSieve

open Option

section Runs

variable {σ α : Type*}

/-- Take the listed steps, stopping at the first one that is not enabled. -/
def run (step : σ → α → Option σ) : σ → List α → Option σ
  | s, [] => some s
  | s, a :: as => (step s a).bind fun t => run step t as

/-- Every step of the run meets the condition in the state it is taken in. -/
def Along (step : σ → α → Option σ) (C : σ → α → Prop) : σ → List α → Prop
  | _, [] => True
  | s, a :: as => C s a ∧ ∀ t, step s a = some t → Along step C t as

variable {step : σ → α → Option σ} {C : σ → α → Prop} {s t u : σ} {a : α} {as bs : List α}
variable {D : σ → α → Prop} {I : σ → Prop}

@[simp] theorem run_nil : run step s [] = some s := rfl

theorem run_cons_eq_some_iff :
    run step s (a :: as) = some t ↔ ∃ u, step s a = some u ∧ run step u as = some t := by
  simp [run, bind_eq_some_iff]

theorem run_append_eq_some_iff :
    run step s (as ++ bs) = some t ↔ ∃ u, run step s as = some u ∧ run step u bs = some t := by
  induction as generalizing s with
  | nil => simp
  | cons a as ih =>
    simp only [List.cons_append, run_cons_eq_some_iff, ih]
    constructor
    · rintro ⟨v, hv, u, hu, ht⟩; exact ⟨u, ⟨v, hv, hu⟩, ht⟩
    · rintro ⟨u, ⟨v, hv, hu⟩, ht⟩; exact ⟨v, hv, u, hu, ht⟩

theorem exists_run {p : σ → Prop} [DecidablePred p]
    (h : (run step s as).any (decide <| p ·) = true) : ∃ t, run step s as = some t ∧ p t := by
  simpa [any_eq_true] using h

theorem along_append_iff (h : run step s as = some u) :
    Along step C s (as ++ bs) ↔ Along step C s as ∧ Along step C u bs := by
  induction as generalizing s with
  | nil => simp only [run_nil, some.injEq] at h; simp [Along, h]
  | cons a as ih =>
    obtain ⟨v, hv, hu⟩ := run_cons_eq_some_iff.mp h
    have he : ∀ P : σ → Prop, (∀ t, step s a = some t → P t) ↔ P v := by
      intro P
      rw [hv]
      exact ⟨fun hp => hp v rfl, fun hp t ht => some.inj ht ▸ hp⟩
    rw [List.cons_append, Along, Along, he, he, ih hu, and_assoc]

theorem Along.imp (h : Along step C s as) (hCD : ∀ s a, C s a → D s a) :
    Along step D s as := by
  induction as generalizing s with
  | nil => trivial
  | cons a as ih => exact ⟨hCD s a h.1, fun t ht => ih (h.2 t ht)⟩

theorem Along.of_invariant (h : Along step C s as) (hs : I s)
    (hstep : ∀ u a v, I u → C u a → step u a = some v → I v)
    (hD : ∀ u a, I u → C u a → D u a) : Along step D s as := by
  induction as generalizing s with
  | nil => trivial
  | cons a as ih => exact ⟨hD s a hs h.1, fun t ht => ih (h.2 t ht) (hstep s a t hs h.1 ht)⟩

/-- What every step that meets the condition keeps holds at the end of a run. -/
theorem run_invariant (h : run step s as = some t) (hC : Along step C s as)
    (hs : I s) (hstep : ∀ u a v, I u → C u a → step u a = some v → I v) : I t := by
  induction as generalizing s with
  | nil => simp only [run_nil, some.injEq] at h; exact h ▸ hs
  | cons a as ih =>
    obtain ⟨u, hu, ht⟩ := run_cons_eq_some_iff.mp h
    exact ih ht (hC.2 u hu) (hstep s a u hs hC.1 hu)

instance decidableAlong [∀ s a, Decidable (C s a)] :
    (as : List α) → (s : σ) → Decidable (Along step C s as)
  | [], _ => .isTrue trivial
  | a :: as, s =>
    match h : step s a with
    | none => decidable_of_iff (C s a) (by simp [Along, h])
    | some t =>
      have := decidableAlong as t
      decidable_of_iff (C s a ∧ Along step C t as) (by simp [Along, h])

/-- A state that some run leads to. -/
def Reachable (step : σ → α → Option σ) (s t : σ) : Prop := ∃ as, run step s as = some t

theorem along_true (as : List α) (s : σ) : Along step (fun _ _ => True) s as := by
  induction as generalizing s with
  | nil => trivial
  | cons a as ih => exact ⟨trivial, fun t _ => ih t⟩

theorem Reachable.invariant (h : Reachable step s t) (hs : I s)
    (hstep : ∀ u a v, I u → step u a = some v → I v) : I t := by
  obtain ⟨as, h⟩ := h
  exact run_invariant h (along_true as s) hs fun u a v hu _ => hstep u a v hu

end Runs

section Loops

variable {σ ρ : Type*}

/-- Iterate a loop body for at most the given number of rounds. -/
def iterate (body : σ → σ ⊕ ρ) : ℕ → σ → Option ρ
  | 0, _ => none
  | n + 1, s => match body s with
    | .inl t => iterate body n t
    | .inr r => some r

/-- The loop started in `s` returns `r`. -/
def Returns (body : σ → σ ⊕ ρ) (s : σ) (r : ρ) : Prop := ∃ n, iterate body n s = some r

variable {body : σ → σ ⊕ ρ} {s t : σ} {r r' : ρ}
variable {k j : ℕ}

theorem Returns.done (h : body s = .inr r) : Returns body s r :=
  ⟨1, by simp [iterate, h]⟩

theorem Returns.next (h : body s = .inl t) (hr : Returns body t r) : Returns body s r := by
  obtain ⟨n, hn⟩ := hr
  exact ⟨n + 1, by simp [iterate, h, hn]⟩

/-- Exactly `k` rounds lead from `s` to `t`. -/
def Leads (body : σ → σ ⊕ ρ) (k : ℕ) (s t : σ) : Prop :=
  ∀ n, iterate body (k + n) s = iterate body n t

theorem Leads.refl : Leads body 0 s s := fun n => by rw [Nat.zero_add]

theorem Leads.one (h : body s = .inl t) : Leads body 1 s t := fun n => by
  rw [Nat.add_comm, iterate, h]

theorem Leads.trans {u : σ} (h : Leads body k s t) (h' : Leads body j t u) :
    Leads body (k + j) s u := fun n => by
  rw [Nat.add_assoc, h, h']

theorem Leads.returns {k : ℕ} (h : Leads body k s t) (hr : Returns body t r) :
    Returns body s r := by
  obtain ⟨n, hn⟩ := hr
  exact ⟨k + n, (h n).trans hn⟩

section

variable {n : ℕ} (h : iterate body n s = some r)
include h

theorem iterate_succ :
    iterate body (n + 1) s = some r := by
  induction n generalizing s with
  | zero => simp [iterate] at h
  | succ n ih =>
    rw [iterate] at h ⊢
    cases hb : body s with
    | inl t => rw [hb] at h; exact ih h
    | inr r' => rw [hb] at h; exact h

theorem iterate_mono {m : ℕ} (hm : n ≤ m) :
    iterate body m s = some r := by
  induction hm with
  | refl => exact h
  | step _ ih => exact iterate_succ ih

theorem iterate_invariant {I : σ → Prop} {Q : ρ → Prop} (hs : I s)
    (hnext : ∀ u v, I u → body u = .inl v → I v) (hdone : ∀ u r, I u → body u = .inr r → Q r) :
    Q r := by
  induction n generalizing s with
  | zero => cases h
  | succ n ih =>
    rw [iterate] at h
    cases hb : body s with
    | inl t =>
      rw [hb] at h
      exact ih h (hnext s t hs hb)
    | inr r' =>
      rw [hb] at h
      exact some.inj h ▸ hdone s r' hs hb

end

end Loops

end PostgreSieve
