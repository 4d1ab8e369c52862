import Mathlib.Data.List.Induction
import Mathlib.Data.List.Nodup
import Mathlib.Tactic.Set
import PostgreSieve.Pglz.Basic

/-! # The history table

The entries are used in turn, and each one remembers one of the last input positions. The list of a
hash key holds the remembered positions with this key, newest first.
-/

namespace PostgreSieve.Pglz

open Function List Nat

variable {e e' : ℕ → HistEntry} {hash start : ℕ → ℕ} {h : History} {ps : List ℕ}
  {lo dp idx p q last hashsz : ℕ} {prev : Option ℕ}

/-- The entry of a position. -/
def slot (p : ℕ) : ℕ := p % pglzHistorySize + 1

theorem slot_ne_zero (p : ℕ) : slot p ≠ 0 := succ_ne_zero _

theorem slot_injOn (hp : lo ≤ p) (hp' : p < lo + pglzHistorySize) (hq : lo ≤ q)
    (hq' : q < lo + pglzHistorySize) (h : slot p = slot q) : p = q := by
  rw [slot, slot] at h
  rw [pglzHistorySize] at *
  omega

/-! ## Lists of entries -/

/-- The entry of the first position, or what comes after the list. -/
def first (ps : List ℕ) (last : ℕ) : ℕ := (ps.head?.map slot).getD last

/-- The entries of the positions are linked, between `prev` and `last`. -/
def Chained (e : ℕ → HistEntry) : Option ℕ → List ℕ → ℕ → Prop
  | _, [], _ => True
  | prev, p :: ps, last => (e (slot p)).prev = prev ∧ (e (slot p)).next = some (first ps last) ∧
    Chained e (some (slot p)) ps last

theorem Chained.congr (h : Chained e prev ps last) (he : ∀ p ∈ ps,
    (e' (slot p)).prev = (e (slot p)).prev ∧ (e' (slot p)).next = (e (slot p)).next) :
    Chained e' prev ps last := by
  induction ps generalizing prev with
  | nil => trivial
  | cons p ps ih =>
    obtain ⟨hprev, hnext, hrest⟩ := h
    obtain ⟨h1, h2⟩ := he p mem_cons_self
    exact ⟨h1.trans hprev, h2.trans hnext, ih hrest fun q hq => he q (mem_cons_of_mem p hq)⟩

theorem chained_concat : Chained e prev (ps ++ [q]) last ↔ Chained e prev ps (slot q) ∧
    (e (slot q)).prev = (ps.getLast?.map slot).or prev ∧ (e (slot q)).next = some last := by
  induction ps generalizing prev with
  | nil => simp [Chained, first]
  | cons p ps ih =>
    have hfirst : first (ps ++ [q]) last = first ps (slot q) := by
      cases ps <;> rfl
    have hlast : ((p :: ps).getLast?.map slot).or prev =
        (ps.getLast?.map slot).or (some (slot p)) := by
      rw [List.getLast?_cons]
      cases ps.getLast? <;> rfl
    rw [cons_append, Chained, Chained, ih, hfirst, hlast, and_assoc, and_assoc]

theorem Chained.setLast (h : Chained e prev (ps ++ [q]) last) (hq : ∀ p ∈ ps, slot p ≠ slot q)
    {last' : ℕ} : Chained (update e (slot q) { e (slot q) with next := some last' }) prev
      (ps ++ [q]) last' := by
  obtain ⟨h1, h2, -⟩ := chained_concat.mp h
  refine chained_concat.mpr ⟨h1.congr fun p hp => ?_, ?_, ?_⟩
  · rw [update_of_ne (hq p hp)]
    exact ⟨rfl, rfl⟩
  · rw [update_self]
    exact h2
  · rw [update_self]

theorem Chained.setFirst (h : Chained e prev (p :: ps) last) (hp : ∀ q ∈ ps, slot q ≠ slot p)
    {prev' : Option ℕ} : Chained (update e (slot p) { e (slot p) with prev := prev' }) prev'
      (p :: ps) last := by
  obtain ⟨-, h2, h3⟩ := h
  refine ⟨?_, ?_, h3.congr fun q hq => ?_⟩
  · rw [update_self]
  · rw [update_self]
    exact h2
  · rw [update_of_ne (hp q hq)]
    exact ⟨rfl, rfl⟩

/-! ## The positions with a hash key -/

/-- The positions from `lo` to `dp` with the hash key `idx`, newest first. -/
def bucket (hash : ℕ → ℕ) (lo idx : ℕ) : ℕ → List ℕ
  | 0 => []
  | n + 1 => if lo ≤ n ∧ hash n = idx then n :: bucket hash lo idx n else bucket hash lo idx n

theorem mem_bucket : p ∈ bucket hash lo idx dp ↔ lo ≤ p ∧ p < dp ∧ hash p = idx := by
  induction dp with
  | zero => simp [bucket]
  | succ n ih =>
    rw [bucket]
    split
    · rw [mem_cons, ih]
      constructor
      · rintro (rfl | ⟨h1, h2, h3⟩)
        · omega
        · omega
      · rintro ⟨h1, h2, h3⟩
        omega
    · rw [ih]
      constructor
      · rintro ⟨h1, h2, h3⟩
        omega
      · rintro ⟨h1, h2, h3⟩
        rcases Nat.lt_succ_iff_lt_or_eq.mp h2 with h2 | rfl
        · exact ⟨h1, h2, h3⟩
        · omega

theorem bucket_nodup : (bucket hash lo idx dp).Nodup := by
  induction dp with
  | zero => exact nodup_nil
  | succ n ih =>
    rw [bucket]
    split
    · refine nodup_cons.mpr ⟨fun hn => ?_, ih⟩
      have := (mem_bucket.mp hn).2.1
      omega
    · exact ih

theorem bucket_length_le : (bucket hash lo idx dp).length ≤ dp := by
  induction dp with
  | zero => exact zero_le _
  | succ n ih =>
    rw [bucket]
    split
    · exact succ_le_succ ih
    · exact le_succ_of_le ih

theorem bucket_succ (hlo : lo ≤ dp) : bucket hash lo idx (dp + 1) =
    if hash dp = idx then dp :: bucket hash lo idx dp else bucket hash lo idx dp := by
  simp only [bucket, hlo, true_and]

theorem bucket_empty (h : dp ≤ lo) : bucket hash lo idx dp = [] := by
  refine eq_nil_iff_forall_not_mem.mpr fun p hp => ?_
  have := mem_bucket.mp hp
  omega

/-- The oldest position is the last one of its list. -/
theorem bucket_oldest (hlt : lo < dp) : bucket hash lo idx dp =
    bucket hash (lo + 1) idx dp ++ if hash lo = idx then [lo] else [] := by
  induction dp with
  | zero => omega
  | succ n ih =>
    rcases Nat.lt_succ_iff_lt_or_eq.mp hlt with hn | rfl
    · rw [bucket_succ (le_of_lt hn), bucket_succ hn, ih hn]
      by_cases hi : hash n = idx
      · simp only [if_pos hi, cons_append]
      · simp only [if_neg hi]
    · rw [bucket_succ le_rfl, bucket_empty le_rfl, bucket_empty (le_refl (lo + 1)),
        nil_append]

/-! ## Adding positions -/

/-- The table remembers the positions from `lo` to `dp`. -/
structure Listed (hash : ℕ → ℕ) (hashsz : ℕ) (start : ℕ → ℕ) (e : ℕ → HistEntry) (lo dp : ℕ) :
    Prop where
  window : dp ≤ lo + pglzHistorySize
  start : ∀ idx < hashsz, start idx = first (bucket hash lo idx dp) 0
  chained : ∀ idx < hashsz, Chained e none (bucket hash lo idx dp) 0
  entry : ∀ p, lo ≤ p → p < dp →
    (e (slot p)).pos = p ∧ (e (slot p)).hindex = hash p

namespace Listed

section

variable (hl : Listed hash hashsz start e lo dp)
include hl

theorem slot_ne (hp : lo ≤ p ∧ p < dp) (hq : lo ≤ q ∧ q < dp) (hne : p ≠ q) : slot p ≠ slot q := by
  have hw := hl.window
  exact fun he => hne (slot_injOn hp.1 (by omega) hq.1 (by omega) he)

theorem scribble (x : HistEntry) :
    Listed hash hashsz start (update e 0 x) lo dp := by
  refine ⟨hl.window, hl.start, fun idx hidx => (hl.chained idx hidx).congr fun p _ => ?_,
    fun p hp hp' => ?_⟩
  · exact ⟨rfl, rfl⟩
  · exact hl.entry p hp hp'

theorem delink_alone (hlt : lo < dp) (hps : bucket hash (lo + 1) (hash lo) dp = []) :
    Listed hash hashsz (update start (hash lo) 0) e (lo + 1) dp := by
  have hw := hl.window
  have hother : ∀ idx, idx ≠ hash lo → bucket hash (lo + 1) idx dp = bucket hash lo idx dp := by
    intro idx hne
    rw [bucket_oldest hlt, if_neg hne.symm, append_nil]
  refine ⟨by omega, fun idx hidx => ?_, fun idx hidx => ?_, fun p hp => hl.entry p (by omega)⟩
  · rcases eq_or_ne idx (hash lo) with rfl | hne
    · rw [hps]
      exact update_self ..
    · rw [hother idx hne]
      exact (update_of_ne hne ..).trans (hl.start idx hidx)
  · rcases eq_or_ne idx (hash lo) with rfl | hne
    · rw [hps]
      trivial
    · rw [hother idx hne]
      exact hl.chained idx hidx

theorem delink_last (hlt : lo < dp) (hps : bucket hash (lo + 1) (hash lo) dp = ps ++ [q]) :
    Listed hash hashsz start (update e (slot q) { e (slot q) with next := some 0 }) (lo + 1)
      dp := by
  have hw := hl.window
  have hbucket : ∀ idx, bucket hash lo idx dp =
      bucket hash (lo + 1) idx dp ++ if hash lo = idx then [lo] else [] := fun idx => bucket_oldest hlt
  have hq := mem_bucket.mp (hps ▸ mem_append_right ps (mem_singleton_self q))
  have hnot : ∀ p, lo ≤ p ∧ p < dp → p ≠ q → update e (slot q)
      { e (slot q) with next := some 0 } (slot p) = e (slot p) := fun p hp hne =>
    update_of_ne (hl.slot_ne hp (by omega) hne) ..
  refine ⟨by omega, fun idx hi => ?_, fun idx hi => ?_, fun p hp hp' => ?_⟩
  · rw [hl.start idx hi, hbucket]
    split
    · rename_i he
      rw [← he, hps]
      cases ps <;> rfl
    · rw [append_nil]
  · have hc := hl.chained idx hi
    rw [hbucket] at hc
    split at hc
    · rename_i he
      subst he
      rw [hps] at hc ⊢
      refine Chained.setLast (chained_concat.mp hc).1 fun p hp => ?_
      have hmem := mem_bucket.mp (hps ▸ mem_append_left [q] hp)
      have hnd : (bucket hash (lo + 1) (hash lo) dp).Nodup := bucket_nodup
      rw [hps, nodup_append] at hnd
      exact hl.slot_ne (by omega) (by omega) (hnd.2.2 p hp q (mem_singleton_self q))
    · rename_i he
      rw [append_nil] at hc
      refine hc.congr fun p hp => ?_
      have hmem := mem_bucket.mp hp
      rw [hnot p (by omega) fun hpq => he (by rw [← hq.2.2, ← hpq, hmem.2.2])]
      exact ⟨rfl, rfl⟩
  · rcases eq_or_ne p q with rfl | hne
    · rw [update_self]
      exact hl.entry p (by omega) hp'
    · rw [hnot p (by omega) hne]
      exact hl.entry p (by omega) hp'

end

/-- The entry of the oldest position is taken out of its list. -/
theorem delink (hl : Listed hash hashsz h.start h.entries lo dp) (hlt : lo < dp)
    (hidx : hash lo < hashsz) : Listed hash hashsz (h.delink (slot lo)).start
      (h.delink (slot lo)).entries (lo + 1) dp := by
  have hc := hl.chained (hash lo) hidx
  rw [bucket_oldest hlt, if_pos rfl] at hc
  obtain ⟨-, hprev, hnext⟩ := chained_concat.mp hc
  have hhindex := (hl.entry lo le_rfl hlt).2
  rcases eq_nil_or_concat (bucket hash (lo + 1) (hash lo) dp) with hps | ⟨ps, q, hps⟩
  · rw [hps] at hprev
    have := (hl.delink_alone hlt hps).scribble { h.entries 0 with prev := none }
    simpa [History.delink, hprev, hnext, hhindex] using this
  · rw [concat_eq_append] at hps
    have hq := mem_bucket.mp (hps ▸ mem_append_right ps (mem_singleton_self q))
    have hne : slot lo ≠ slot q := hl.slot_ne (by omega) (by omega) (by omega)
    rw [hps, List.getLast?_concat] at hprev
    have := (hl.delink_last hlt hps).scribble
      { h.entries 0 with prev := some (slot q) }
    simpa [History.delink, hprev, hnext, hne, (slot_ne_zero q).symm] using this

/-- The next position is put at the head of its list. -/
theorem link (hl : Listed hash hashsz h.start h.entries lo dp) (hlo : lo ≤ dp)
    (hroom : dp < lo + pglzHistorySize) (hidx : hash dp < hashsz) : Listed hash hashsz
      (h.link (slot dp) (hash dp) dp).start (h.link (slot dp) (hash dp) dp).entries lo (dp + 1) := by
  have hfresh : ∀ p, lo ≤ p → p < dp → slot p ≠ slot dp := fun p hp hp' he => by
    have := slot_injOn hp (by omega) hlo hroom he
    omega
  have hstart := hl.start (hash dp) hidx
  set e₁ := update h.entries (slot dp) ⟨some (h.start (hash dp)), none, hash dp, dp⟩
  have hold : ∀ p, lo ≤ p → p < dp → e₁ (slot p) = h.entries (slot p) := fun p hp hp' =>
    update_of_ne (hfresh p hp hp') ..
  have hchained : ∀ idx < hashsz, Chained e₁ none (bucket hash lo idx dp) 0 := fun idx hi =>
    (hl.chained idx hi).congr fun p hp => by
      obtain ⟨h1, h2, -⟩ := mem_bucket.mp hp
      rw [hold p h1 h2]
      exact ⟨rfl, rfl⟩
  -- the head of the list, which is the unused entry if the list is empty
  set e₂ := update e₁ (h.start (hash dp))
    { e₁ (h.start (hash dp)) with prev := some (slot dp) } with he₂
  have hne : h.start (hash dp) ≠ slot dp := by
    rw [hstart]
    cases hb : bucket hash lo (hash dp) dp with
    | nil => exact (slot_ne_zero dp).symm
    | cons p ps =>
      obtain ⟨h1, h2, -⟩ := mem_bucket.mp (hb ▸ mem_cons_self)
      exact hfresh p h1 h2
  have hnew : e₂ (slot dp) = ⟨some (h.start (hash dp)), none, hash dp, dp⟩ :=
    (update_of_ne hne.symm ..).trans (update_self ..)
  have hkeep : ∀ i, (e₂ i).next = (e₁ i).next ∧ (e₂ i).pos = (e₁ i).pos ∧
      (e₂ i).hindex = (e₁ i).hindex := by
    intro i
    rcases eq_or_ne i (h.start (hash dp)) with rfl | hi
    · rw [he₂, update_self]
      exact ⟨rfl, rfl, rfl⟩
    · rw [he₂, update_of_ne hi]
      exact ⟨rfl, rfl, rfl⟩
  refine ⟨hroom, fun idx hi => ?_, fun idx hi => ?_, fun p hp hp' => ?_⟩
  · rw [bucket_succ hlo]
    split
    · rename_i he
      rw [← he]
      exact update_self ..
    · rename_i he
      exact (update_of_ne (Ne.symm he) ..).trans (hl.start idx hi)
  · change Chained e₂ _ _ _
    rw [bucket_succ hlo]
    split
    · rename_i he
      subst he
      refine ⟨congrArg HistEntry.prev hnew, (congrArg HistEntry.next hnew).trans ?_, ?_⟩
      · rw [hstart]
      · have hc := hchained (hash dp) hidx
        cases hb : bucket hash lo (hash dp) dp with
        | nil => trivial
        | cons p ps =>
          rw [hb] at hc hstart
          have hhead : h.start (hash dp) = slot p := hstart
          rw [he₂, hhead]
          refine hc.setFirst fun q hq => ?_
          have hnd : (bucket hash lo (hash dp) dp).Nodup := bucket_nodup
          rw [hb, nodup_cons] at hnd
          have hp := mem_bucket.mp (hb ▸ mem_cons_self)
          have hq' := mem_bucket.mp (hb ▸ mem_cons_of_mem p hq)
          exact hl.slot_ne (by omega) (by omega) fun hqp => hnd.1 (hqp ▸ hq)
    · rename_i he
      refine (hchained idx hi).congr fun p hp => ?_
      obtain ⟨h1, h2, h3⟩ := mem_bucket.mp hp
      rw [he₂, update_of_ne]
      · exact ⟨rfl, rfl⟩
      · rw [hstart]
        cases hb : bucket hash lo (hash dp) dp with
        | nil => exact slot_ne_zero p
        | cons q qs =>
          have hq := mem_bucket.mp (hb ▸ mem_cons_self)
          exact hl.slot_ne (by omega) (by omega) fun hpq => he (by rw [← hq.2.2, ← hpq, h3])
  · change (e₂ (slot p)).pos = p ∧ (e₂ (slot p)).hindex = hash p
    rcases Nat.lt_succ_iff_lt_or_eq.mp hp' with hlt | rfl
    · rw [(hkeep _).2.1, (hkeep _).2.2, hold p hp hlt]
      exact hl.entry p hp hlt
    · rw [hnew]
      exact ⟨rfl, rfl⟩

end Listed

/-- The table after the first `dp` positions were added. -/
structure Remembers (hash : ℕ → ℕ) (hashsz : ℕ) (h : History) (dp : ℕ) : Prop where
  listed : Listed hash hashsz h.start h.entries (dp - pglzHistorySize) dp
  next : h.next = slot dp
  recycle : h.recycle = decide (pglzHistorySize ≤ dp)

theorem Remembers.add (hr : Remembers hash hashsz h dp) (hhash : ∀ p, hash p < hashsz) :
    Remembers hash hashsz (pglzHistAdd h (hash dp) dp) (dp + 1) := by
  obtain ⟨hl, hnext, hrec⟩ := hr
  have hslot : slot dp = dp % pglzHistorySize + 1 := rfl
  have hpos : 0 < pglzHistorySize := by decide
  set h₁ := if h.recycle then h.delink h.next else h with hh₁
  have hl₁ : Listed hash hashsz h₁.start h₁.entries (dp + 1 - pglzHistorySize) dp := by
    rw [hh₁, hrec]
    by_cases hfull : pglzHistorySize ≤ dp
    · rw [decide_eq_true hfull, if_pos rfl, hnext]
      have hsame : slot dp = slot (dp - pglzHistorySize) := by
        rw [slot, slot, mod_eq_sub_mod hfull]
      rw [hsame, show dp + 1 - pglzHistorySize = dp - pglzHistorySize + 1 by omega]
      exact hl.delink (by omega) (hhash _)
    · rw [decide_eq_false hfull, if_neg Bool.false_ne_true,
        show dp + 1 - pglzHistorySize = dp - pglzHistorySize by omega]
      exact hl
  have hlink := hl₁.link (by omega) (by omega) (hhash dp)
  rw [← hnext] at hlink
  unfold pglzHistAdd
  simp only
  split
  · have hmod : dp % pglzHistorySize = pglzHistorySize - 1 := by
      have := mod_lt dp hpos
      omega
    refine ⟨hlink, ?_, ?_⟩
    · rw [slot, add_mod, hmod]
      rfl
    · have := mod_le dp pglzHistorySize
      exact (decide_eq_true (by omega)).symm
  · rename_i hwrap
    have hdec : h₁.recycle = h.recycle := by
      rw [hh₁]
      split
      · unfold History.delink
        simp only
        split <;> split <;> rfl
      · rfl
    refine ⟨hlink, ?_, ?_⟩
    · change h.next + 1 = slot (dp + 1)
      rw [hnext, slot, slot, pglzHistorySize]
      rw [hnext, slot, pglzHistorySize] at hwrap
      omega
    · change h₁.recycle = _
      rw [hdec, hrec]
      rw [hnext, slot, pglzHistorySize] at hwrap
      rw [pglzHistorySize]
      exact decide_eq_decide.mpr (by omega)

theorem remembers_start (start : ℕ → ℕ) (e : ℕ → HistEntry) (hs : ∀ i < hashsz, start i = 0) :
    Remembers hash hashsz ⟨start, e, 1, false⟩ 0 :=
  ⟨⟨zero_le _, hs, fun _ _ => trivial, fun p _ hp => absurd hp (not_lt_zero p)⟩, rfl, rfl⟩

theorem Remembers.addMatched (hr : Remembers hash hashsz h dp) (hhash : ∀ p, hash p < hashsz)
    (n : ℕ) : Remembers hash hashsz (addMatched hash n dp h) (dp + n) := by
  induction n generalizing dp h with
  | zero => exact hr
  | succ n ih =>
    have hrest := ih (hr.add hhash)
    rwa [add_assoc, add_comm 1] at hrest

end PostgreSieve.Pglz
