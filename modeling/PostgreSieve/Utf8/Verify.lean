import Mathlib.Data.List.Induction
import PostgreSieve.Utf8.Ascii
import PostgreSieve.Utf8.Codec

/-! # Validating strings

The automaton is in its begin state only after complete characters, and in a continuation state only
after the beginning of one, so that the byte-wise loop may take over at the leading byte.
-/

namespace PostgreSieve.Utf8

open List Nat

/-- Complete legal characters, without NUL. -/
inductive Valid : List UInt8 → Prop
  | nil : Valid []
  | cons {c s : List UInt8} : LegalChar c → c ≠ [0] → Valid s → Valid (c ++ s)

/-- Accept characters as long as `pg_utf8_verifychar` does. -/
def verifyChars (s : List UInt8) : ℕ :=
  if hs : s = [] then 0
  else
    match h : pgUtf8Verifychar s with
    | none => 0
    | some l => l + verifyChars (s.drop l)
termination_by s.length
decreasing_by
  have := length_pos_of_ne_nil hs
  have := pgUtf8Verifychar_pos h
  rw [length_drop]
  omega

variable {s c w part : List UInt8} {b : UInt8} {l state : ℕ}
variable {t : List UInt8} {lo hi after : ℕ} {lo hi : ℕ}

theorem Valid.append (hs : Valid s) (ht : Valid t) : Valid (s ++ t) := by
  induction hs with
  | nil => exact ht
  | cons hc h0 _ ih =>
    rw [append_assoc]
    exact .cons hc h0 ih

theorem Valid.concat (hs : Valid s) (hc : LegalChar c) (h0 : c ≠ [0]) : Valid (s ++ c) := by
  have := Valid.cons hc h0 .nil
  rw [append_nil] at this
  exact hs.append this

/-! ## Single characters -/

theorem islegal_append (c s : List UInt8) :
    pgUtf8Islegal (c ++ s) c.length = pgUtf8Islegal c c.length := by
  match c with
  | [] => rfl
  | [_] => rfl
  | [_, _] => rfl
  | [_, _, _] => rfl
  | [_, _, _, _] => rfl
  | _ :: _ :: _ :: _ :: _ :: _ => rfl

/-- The length that `pg_utf8_verifychar` computes is that of `pg_utf_mblen`. -/
theorem pgUtf8Verifychar_eq (s : List UInt8) : pgUtf8Verifychar s =
    if s.getD 0 0 &&& 0x80 = 0 then if s.getD 0 0 = 0 then none else some 1
    else if pgUtfMblen (s.getD 0 0) > s.length then none
    else if !pgUtf8Islegal s (pgUtfMblen (s.getD 0 0)) then none
    else some (pgUtfMblen (s.getD 0 0)) := by
  by_cases h : s.getD 0 0 &&& 0x80 = 0
  · simp only [pgUtf8Verifychar, if_pos h]
  · simp only [pgUtf8Verifychar, pgUtfMblen, if_neg h]

theorem high_iff (b : UInt8) : b &&& 0x80 = 0 ↔ b.toNat < 0x80 := by
  revert b
  exact forall_byte (by decide +kernel)

theorem verifychar_append (hc : LegalChar c) (h0 : c ≠ [0]) (s : List UInt8) :
    pgUtf8Verifychar (c ++ s) = some c.length := by
  obtain ⟨hlen, hlegal⟩ := id hc
  have hhead : (c ++ s).getD 0 0 = c.getD 0 0 := by
    cases c with
    | nil => cases hlegal
    | cons => rfl
  rw [pgUtf8Verifychar_eq, hhead, ← hlen, islegal_append, hlegal, length_append]
  split
  · rename_i h
    have h1 := ((pgUtfMblen_eq_iff (c.getD 0 0)).1.mpr (.inl (by rw [high_iff] at h; omega)))
    rw [h1] at hlen
    obtain ⟨a, rfl⟩ := length_eq_one_iff.mp hlen
    exact if_neg fun ha => h0 (by rw [← ha]; rfl)
  · rw [if_neg (by omega), if_neg (by decide)]

theorem legalChar_of_verifychar (h : pgUtf8Verifychar s = some l) (hs : s ≠ []) :
    l ≤ s.length ∧ LegalChar (s.take l) ∧ s.take l ≠ [0] := by
  obtain ⟨b, t, rfl⟩ := exists_cons_of_ne_nil hs
  rw [pgUtf8Verifychar_eq, getD_cons_zero] at h
  split at h
  · rename_i hb
    split at h
    · cases h
    · rename_i h0
      obtain rfl := Option.some.inj h
      refine ⟨succ_le_succ (zero_le _), ?_, fun he => h0 (List.cons.inj he).1⟩
      exact legalChar_iff.mpr (.inl ⟨b, rfl, (high_iff b).mp hb⟩)
  · rename_i hb
    split at h
    · cases h
    rename_i hle
    split at h
    · cases h
    rename_i hlegal
    obtain rfl := Option.some.inj h
    rw [Bool.not_eq_true', Bool.not_eq_false] at hlegal
    have hlen : ((b :: t).take (pgUtfMblen b)).length = pgUtfMblen b :=
      length_take_of_le (not_lt.mp hle)
    obtain ⟨n, hn⟩ : ∃ n, pgUtfMblen b = n + 1 := exists_eq_succ_of_ne_zero fun hz => by
      rw [hz] at hlegal
      cases hlegal
    have hhead : (b :: t).take (pgUtfMblen b) = b :: t.take n := by rw [hn, take_succ_cons]
    refine ⟨not_lt.mp hle, ⟨?_, ?_⟩, fun he => hb ?_⟩
    · rw [hlen, hhead, getD_cons_zero]
    · rw [← islegal_append _ ((b :: t).drop (pgUtfMblen b)), take_append_drop, hlen]
      exact hlegal
    · rw [hhead] at he
      rw [(List.cons.inj he).1]
      decide

/-! ## The byte-wise loops -/

theorem verifyRest_eq (s : List UInt8) : verifyRest s = verifyChars s := by
  fun_induction verifyRest s with
  | case1 => rw [verifyChars, dif_pos rfl]
  | case2 s hs hb h0 =>
    rw [verifyChars, dif_neg hs]
    have : pgUtf8Verifychar s = none := by rw [pgUtf8Verifychar_eq, if_pos hb, if_pos h0]
    split
    · rfl
    · simp_all
  | case3 s hs hb h0 ih =>
    rw [verifyChars, dif_neg hs, ih]
    have : pgUtf8Verifychar s = some 1 := by rw [pgUtf8Verifychar_eq, if_pos hb, if_neg h0]
    split
    · simp_all
    · simp_all
  | case4 s hs hb h =>
    rw [verifyChars, dif_neg hs]
    split
    · rfl
    · simp_all
  | case5 s hs hb l h ih =>
    rw [verifyChars, dif_neg hs, ih]
    split
    · simp_all
    · simp_all

theorem verifyChars_append (hw : Valid w) (s : List UInt8) :
    verifyChars (w ++ s) = w.length + verifyChars s := by
  induction hw with
  | nil => rw [nil_append, length_nil, zero_add]
  | @cons c w hc h0 _ ih =>
    have hne : c ++ w ++ s ≠ [] := by
      have : c ≠ [] := fun he => by
        rw [he] at hc
        cases hc.2
      simp [this]
    rw [verifyChars, dif_neg hne]
    have hv := verifychar_append hc h0 (w ++ s)
    rw [append_assoc]
    split
    · simp_all
    · rename_i l hl
      obtain rfl : c.length = l := Option.some.inj (hv.symm.trans hl)
      rw [drop_left, ih, length_append, add_assoc]

theorem verifyChars_valid (s : List UInt8) :
    verifyChars s ≤ s.length ∧ Valid (s.take (verifyChars s)) := by
  fun_induction verifyChars s with
  | case1 => exact ⟨le_rfl, .nil⟩
  | case2 s hs h => exact ⟨zero_le _, by rw [take_zero]; exact .nil⟩
  | case3 s hs l h ih =>
    obtain ⟨hle, hc, h0⟩ := legalChar_of_verifychar h hs
    obtain ⟨ih1, ih2⟩ := ih
    rw [length_drop] at ih1
    refine ⟨by omega, ?_⟩
    rw [take_add]
    exact .cons hc h0 ih2

/-! ## The automaton -/

/-- The next state, masked. -/
def next (state : ℕ) (b : UInt8) : ℕ := utf8Transition.getD b.toNat 0 >>> state &&& 31

theorem utf8Advance_eq (s : List UInt8) (state : ℕ) :
    utf8Advance s state = s.foldl next (state &&& 31) := by
  unfold utf8Advance
  induction s generalizing state with
  | nil => rfl
  | cons b s ih =>
    rw [foldl_cons, foldl_cons, ih]
    rfl

/-- The transitions: a state, the bytes from `lo` to `hi` that it accepts, and the state after. -/
def transitions : List (ℕ × ℕ × ℕ × ℕ) :=
  [(stateBgn, 0x01, 0x80, stateEnd), (stateBgn, 0xC2, 0xE0, stateCs1),
    (stateBgn, 0xE0, 0xE1, stateP3a), (stateBgn, 0xE1, 0xED, stateCs2),
    (stateBgn, 0xED, 0xEE, stateP3b), (stateBgn, 0xEE, 0xF0, stateCs2),
    (stateBgn, 0xF0, 0xF1, stateP4a), (stateBgn, 0xF1, 0xF4, stateCs3),
    (stateBgn, 0xF4, 0xF5, stateP4b),
    (stateCs1, 0x80, 0xC0, stateEnd), (stateCs2, 0x80, 0xC0, stateCs1),
    (stateCs3, 0x80, 0xC0, stateCs2), (stateP3a, 0xA0, 0xC0, stateCs1),
    (stateP3b, 0x80, 0xA0, stateCs1), (stateP4a, 0x90, 0xC0, stateCs2),
    (stateP4b, 0x80, 0x90, stateCs2)]

def states : List ℕ :=
  [stateErr, stateBgn, stateCs1, stateCs2, stateCs3, stateP3a, stateP3b, stateP4a, stateP4b]

theorem next_cases (b : UInt8) (h : state ∈ states) : next state b = stateErr ∨
    ∃ lo hi, (state, lo, hi, next state b) ∈ transitions ∧ lo ≤ b.toNat ∧ b.toNat < hi := by
  have hall : ∀ r ∈ utf8Transition.zipIdx, ∀ st ∈ states, r.1 >>> st &&& 31 = stateErr ∨
      ∃ q ∈ transitions, q.1 = st ∧ q.2.1 ≤ r.2 ∧ r.2 < q.2.2.1 ∧ q.2.2.2 = r.1 >>> st &&& 31 := by
    decide +kernel
  have hlen : utf8Transition.length = 256 := by decide +kernel
  have hlt : b.toNat < utf8Transition.length := hlen ▸ b.toNat_lt
  have hmem : (utf8Transition.getD b.toNat 0, b.toNat) ∈ utf8Transition.zipIdx := by
    rw [getD_eq_getElem _ _ hlt]
    exact mk_mem_zipIdx_iff_getElem?.mpr (List.getElem?_eq_getElem hlt)
  rcases hall _ hmem state h with he | ⟨q, hq, rfl, hlo, hhi, hafter⟩
  · exact .inl he
  · have hafter : q.2.2.2 = next q.1 b := hafter
    exact .inr ⟨q.2.1, q.2.2.1, hafter ▸ hq, hlo, hhi⟩

/-- The bytes begin a character that the continuation bytes which the state accepts complete. -/
def Begins : ℕ → ℕ → List UInt8 → Prop
  | 0, state, part => state = stateEnd ∧ LegalChar part
  | n + 1, state, part => ∃ lo hi after, (state, lo, hi, after) ∈ transitions ∧ state ≠ stateBgn ∧
      ∀ b : UInt8, lo ≤ b.toNat → b.toNat < hi → Begins n after (part ++ [b])

/-- A leading byte and continuation bytes. -/
structure Inside (state : ℕ) (part : List UInt8) : Prop where
  lead : ∃ a t, part = a :: t ∧ 0xC0 ≤ a.toNat ∧ a.toNat < 0xF8 ∧
    ∀ b ∈ t, 0x80 ≤ b.toNat ∧ b.toNat < 0xC0
  begins : ∃ n, Begins (n + 1) state part

/-- What the automaton knows after the bytes. -/
def Knows (state : ℕ) (s : List UInt8) : Prop :=
  state = stateErr ∨ state = stateEnd ∧ Valid s ∨
    ∃ w part, s = w ++ part ∧ Valid w ∧ Inside state part

section

variable (h : (state, lo, hi, after) ∈ transitions) (hne : state ≠ stateBgn)
include h hne

theorem continuation_range : 0x80 ≤ lo ∧ hi ≤ 0xC0 := by
  have hall : ∀ r ∈ transitions, r.1 ≠ stateBgn → 0x80 ≤ r.2.1 ∧ r.2.2.1 ≤ 0xC0 := by decide
  exact hall _ h hne

theorem next_continuation (b : UInt8) :
    next state b = stateErr ∨ next state b = after ∧ lo ≤ b.toNat ∧ b.toNat < hi := by
  have hstate : ∀ r ∈ transitions, r.1 ∈ states := by decide
  have hunique : ∀ r ∈ transitions, ∀ q ∈ transitions, r.1 ≠ stateBgn → q.1 = r.1 → q = r := by
    decide +kernel
  rcases next_cases b (hstate _ h) with he | ⟨lo', hi', hrow, hlo, hhi⟩
  · exact .inl he
  · have hrow := hunique _ h _ hrow hne rfl
    simp only [Prod.mk.injEq, true_and] at hrow
    obtain ⟨rfl, rfl, hafter⟩ := hrow
    exact .inr ⟨hafter, hlo, hhi⟩

end

theorem begins_two (h1 : 0xC2 ≤ b.toNat) (h2 : b.toNat < 0xE0) : Begins 1 stateCs1 [b] := by
  refine ⟨0x80, 0xC0, stateEnd, by decide, by decide, fun d hd hd' => ⟨rfl, ?_⟩⟩
  refine legalChar_iff.mpr (.inr (.inl ⟨b, d, rfl, h1, h2, ?_⟩))
  unfold Second
  omega

theorem begins_three (state lo hi : ℕ) (h1 : 0xE0 ≤ b.toNat) (h2 : b.toNat < 0xF0)
    (hrow : (state, lo, hi, stateCs1) ∈ transitions ∧ state ≠ stateBgn)
    (hsec : ∀ d, lo ≤ d → d < hi → Second b.toNat d) : Begins 2 state [b] := by
  refine ⟨lo, hi, stateCs1, hrow.1, hrow.2, fun d hd hd' => ?_⟩
  refine ⟨0x80, 0xC0, stateEnd, by decide, by decide, fun e he he' => ⟨rfl, ?_⟩⟩
  exact legalChar_iff.mpr (.inr (.inr (.inl ⟨b, d, e, rfl, h1, h2, hsec _ hd hd', he, he'⟩)))

theorem begins_four (state lo hi : ℕ) (h1 : 0xF0 ≤ b.toNat) (h2 : b.toNat < 0xF5)
    (hrow : (state, lo, hi, stateCs2) ∈ transitions ∧ state ≠ stateBgn)
    (hsec : ∀ d, lo ≤ d → d < hi → Second b.toNat d) : Begins 3 state [b] := by
  refine ⟨lo, hi, stateCs2, hrow.1, hrow.2, fun d hd hd' => ?_⟩
  refine ⟨0x80, 0xC0, stateCs1, by decide, by decide, fun e he he' => ?_⟩
  refine ⟨0x80, 0xC0, stateEnd, by decide, by decide, fun f hf hf' => ⟨rfl, ?_⟩⟩
  exact legalChar_iff.mpr
    (.inr (.inr (.inr ⟨b, d, e, f, rfl, h1, h2, hsec _ hd hd', he, he', hf, hf'⟩)))

theorem lead_cases (b : UInt8) : next stateBgn b = stateErr ∨
    next stateBgn b = stateEnd ∧ b ≠ 0 ∧ b.toNat < 0x80 ∨
    0xC0 ≤ b.toNat ∧ b.toNat < 0xF8 ∧ ∃ n, Begins (n + 1) (next stateBgn b) [b] := by
  rcases next_cases b (show stateBgn ∈ _ by decide) with he | ⟨lo, hi, hrow, hlo, hhi⟩
  · exact .inl he
  right
  simp only [transitions, mem_cons, Prod.mk.injEq, not_mem_nil, or_false] at hrow
  rcases hrow with ⟨-, rfl, rfl, he⟩ | hrow
  · refine .inl ⟨he, ?_, hhi⟩
    rintro rfl
    exact absurd hlo (by decide)
  right
  rcases hrow with ⟨-, rfl, rfl, he⟩ | ⟨-, rfl, rfl, he⟩ | ⟨-, rfl, rfl, he⟩ | ⟨-, rfl, rfl, he⟩ |
    ⟨-, rfl, rfl, he⟩ | ⟨-, rfl, rfl, he⟩ | ⟨-, rfl, rfl, he⟩ | ⟨-, rfl, rfl, he⟩ | hrow
  · exact ⟨by omega, by omega, 0, he ▸ begins_two hlo hhi⟩
  · exact ⟨by omega, by omega, 1, he ▸ begins_three stateP3a 0xA0 0xC0 (by omega) (by omega)
      (by decide) (by unfold Second; omega)⟩
  · exact ⟨by omega, by omega, 1, he ▸ begins_three stateCs2 0x80 0xC0 (by omega) (by omega)
      (by decide) (by unfold Second; omega)⟩
  · exact ⟨by omega, by omega, 1, he ▸ begins_three stateP3b 0x80 0xA0 (by omega) (by omega)
      (by decide) (by unfold Second; omega)⟩
  · exact ⟨by omega, by omega, 1, he ▸ begins_three stateCs2 0x80 0xC0 (by omega) (by omega)
      (by decide) (by unfold Second; omega)⟩
  · exact ⟨by omega, by omega, 2, he ▸ begins_four stateP4a 0x90 0xC0 (by omega) (by omega)
      (by decide) (by unfold Second; omega)⟩
  · exact ⟨by omega, by omega, 2, he ▸ begins_four stateCs3 0x80 0xC0 (by omega) (by omega)
      (by decide) (by unfold Second; omega)⟩
  · exact ⟨by omega, by omega, 2, he ▸ begins_four stateP4b 0x80 0x90 (by omega) (by omega)
      (by decide) (by unfold Second; omega)⟩
  · -- the other rows are those of continuation states
    simp [stateBgn, stateCs1, stateCs2, stateCs3, stateP3a, stateP3b, stateP4a, stateP4b] at hrow

theorem Knows.lead (hs : Valid s) : Knows (next stateBgn b) (s ++ [b]) := by
  rcases lead_cases b with he | ⟨he, h0, hlt⟩ | ⟨hlo, hhi, n, hb⟩
  · exact .inl he
  · refine .inr (.inl ⟨he, hs.concat (legalChar_iff.mpr (.inl ⟨b, rfl, hlt⟩)) fun hc => h0 ?_⟩)
    exact (List.cons.inj hc).1
  · exact .inr (.inr ⟨s, [b], rfl, hs, ⟨b, [], rfl, hlo, hhi, fun _ h => absurd h not_mem_nil⟩,
      n, hb⟩)

theorem Knows.step (h : Knows state s) (b : UInt8) : Knows (next state b) (s ++ [b]) := by
  rcases h with rfl | ⟨rfl, hs⟩ | ⟨w, part, rfl, hw, ⟨a, t, rfl, ha, ha', ht⟩, n, hbegins⟩
  · rcases next_cases b (show stateErr ∈ _ by decide) with he | ⟨lo, hi, hrow, -⟩
    · exact .inl he
    · simp [transitions, stateErr, stateBgn, stateCs1, stateCs2, stateCs3, stateP3a, stateP3b,
        stateP4a, stateP4b] at hrow
  · exact Knows.lead hs
  · obtain ⟨lo, hi, after, hrow, hne, hnext⟩ := hbegins
    obtain ⟨hlo, hhi⟩ := continuation_range hrow hne
    rcases next_continuation hrow hne b with he | ⟨rfl, hb, hb'⟩
    · exact .inl he
    · have hnext := hnext b hb hb'
      rw [append_assoc]
      cases n with
      | zero =>
        refine .inr (.inl ⟨hnext.1, hw.concat hnext.2 fun he => ?_⟩)
        cases t <;> cases he
      | succ n =>
        refine .inr (.inr ⟨w, _, rfl, hw, ⟨a, t ++ [b], rfl, ha, ha', ?_⟩, n, hnext⟩)
        exact forall_mem_append.mpr ⟨ht, forall_mem_singleton.mpr (by omega)⟩

theorem Knows.advance (h : Knows state s) (hlt : state < 32) (t : List UInt8) :
    Knows (utf8Advance t state) (s ++ t) := by
  have hmask : state &&& 31 = state := by
    rw [and_two_pow_sub_one_eq_mod state 5]
    exact mod_eq_of_lt hlt
  rw [utf8Advance_eq, hmask]
  clear hmask hlt
  induction t generalizing s state with
  | nil => rwa [append_nil]
  | cons b t ih =>
    have := ih (h.step b)
    rwa [append_assoc] at this

theorem Valid.ascii (h : Valid s) (ht : ∀ b ∈ t, IsAscii b) : Valid (s ++ t) := by
  induction t generalizing s with
  | nil => rwa [append_nil]
  | cons b t ih =>
    have hb := ht b mem_cons_self
    have hs : Valid (s ++ [b]) := by
      refine h.concat (legalChar_iff.mpr (.inl ⟨b, rfl, (high_iff b).mp hb.2⟩)) fun he => ?_
      exact hb.1 (List.cons.inj he).1
    have := ih hs fun d hd => ht d (mem_cons_of_mem b hd)
    rwa [append_assoc] at this

/-! ## The loop over strides -/

theorem Knows.strides (v : Vector8) (h : Knows state s) (hlt : state < 32) (t : List UInt8) :
    ∃ u, s ++ t = u ++ (verifyStrides v t state).1 ∧ Knows (verifyStrides v t state).2 u := by
  fun_induction verifyStrides v t state generalizing s with
  | case1 t state hle ih =>
    have hlen : v.size ∣ (t.take v.strideLength).length :=
      ⟨2, by rw [length_take_of_le hle, Vector8.strideLength, mul_comm]⟩
    have hnext : Knows (if state ≠ stateEnd ∨ !v.isValidAscii (t.take v.strideLength) then
        utf8Advance (t.take v.strideLength) state else state) (s ++ t.take v.strideLength) := by
      split
      · exact h.advance hlt _
      · rename_i hc
        rw [not_or, not_not, Bool.not_eq_true', Bool.not_eq_false] at hc
        obtain ⟨rfl, hc⟩ := hc
        rcases h with h | ⟨-, h⟩ | ⟨w, part, -, -, -, n, lo, hi, after, -, hne, -⟩
        · cases h
        · exact .inr (.inl ⟨rfl, h.ascii (v.isAscii_of_isValidAscii hlen hc)⟩)
        · exact absurd rfl hne
    have hlt' : (if state ≠ stateEnd ∨ !v.isValidAscii (t.take v.strideLength) then
        utf8Advance (t.take v.strideLength) state else state) < 32 := by
      split
      · exact and_le_right.trans_lt (by decide)
      · exact hlt
    obtain ⟨u, hu, hk⟩ := ih hnext hlt'
    rw [append_assoc, take_append_drop] at hu
    exact ⟨u, hu, hk⟩
  | case2 t state hle => exact ⟨s, rfl, h⟩

/-- From within a character the walk goes back to its leading byte. -/
theorem walkBack_eq {a : UInt8} (ha : 0xC0 ≤ a.toNat) (ha' : a.toNat < 0xF8)
    (ht : ∀ b ∈ t, 0x80 ≤ b.toNat ∧ b.toNat < 0xC0) (rest : List UInt8) :
    walkBack (w ++ a :: t ++ rest) (w.length + (t.length + 1)) = w.length := by
  induction t using List.reverseRecOn generalizing rest with
  | nil =>
    have hget : (w ++ [a] ++ rest).getD w.length 0 = a := by simp
    have hmb := pgUtfMblen_eq_iff a
    rw [length_nil, zero_add, walkBack, hget, if_neg]
    intro hle
    omega
  | append_singleton t b ih =>
    have hb := ht b (mem_append_right t (mem_singleton_self b))
    have hget : (w ++ a :: (t ++ [b]) ++ rest).getD (w.length + (t.length + 1)) 0 = b := by
      simp
    have hmb := (pgUtfMblen_eq_iff b).1.mpr (.inl hb.2)
    rw [length_append, length_singleton, ← add_assoc, walkBack, hget,
      if_pos hmb.le]
    have := ih (fun d hd => ht d (mem_append_left _ hd)) (b :: rest)
    rwa [show w ++ a :: (t ++ [b]) ++ rest = w ++ a :: t ++ b :: rest by simp]

theorem pgUtf8Verifystr_eq (v : Vector8) (s : List UInt8) :
    pgUtf8Verifystr v s = verifyChars s := by
  unfold pgUtf8Verifystr
  split
  swap
  · exact verifyRest_eq s
  have hstart : Knows stateBgn [] := .inr (.inl ⟨rfl, .nil⟩)
  obtain ⟨u, hu, hk⟩ := hstart.strides v (by decide) s
  generalize verifyStrides v s stateBgn = r at hu hk
  obtain ⟨rest, state⟩ := r
  subst hu
  have hsub : (u ++ rest).length - rest.length = u.length := by
    rw [length_append, Nat.add_sub_cancel]
  simp only [hsub, verifyRest_eq]
  by_cases herr : state = stateErr
  · rw [if_pos herr, drop_zero, zero_add]
  rw [if_neg herr]
  rcases hk with hk | ⟨rfl, hk⟩ | ⟨w, part, rfl, hw, ⟨a, t, rfl, ha, ha', ht⟩, n, hbegins⟩
  · exact absurd hk herr
  · rw [if_neg (not_not.mpr rfl), drop_left, verifyChars_append hk]
  · obtain ⟨lo, hi, after, -, hne, -⟩ := hbegins
    rw [if_pos (show state ≠ stateEnd from hne), length_append, length_cons, walkBack_eq ha ha' ht,
      append_assoc, drop_left, verifyChars_append hw]

/-- `pg_utf8_verifystr` finds the longest valid prefix, and the legal characters are the encodings of
the code points outside the surrogates. -/
theorem utf8_validation (v : Vector8) (s : List UInt8) :
    (pgUtf8Verifystr v s ≤ s.length ∧ Valid (s.take (pgUtf8Verifystr v s)) ∧
      ∀ m ≤ s.length, Valid (s.take m) → m ≤ pgUtf8Verifystr v s) ∧
    pgUtf8Verifystr v s = verifyChars s ∧
    (LegalChar s ↔ ∃ c, IsCodePoint c ∧ unicodeToUtf8 c = s) ∧
    ∀ c, IsCodePoint c → utf8ToUnicode (unicodeToUtf8 c) = c := by
  rw [pgUtf8Verifystr_eq]
  obtain ⟨hle, hvalid⟩ := verifyChars_valid s
  refine ⟨⟨hle, hvalid, fun m hm hv => ?_⟩, rfl, legalChar_iff_codePoint, fun c hc =>
    utf8ToUnicode_unicodeToUtf8 hc.1⟩
  have := verifyChars_append hv (s.drop m)
  rw [take_append_drop, length_take_of_le hm] at this
  omega

end PostgreSieve.Utf8
