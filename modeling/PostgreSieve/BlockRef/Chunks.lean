import Mathlib.Data.List.Nodup
import Mathlib.Data.Nat.Bitwise
import Mathlib.Data.Set.Insert
import PostgreSieve.BlockRef.Basic

/-! # The set of offsets in a chunk

Whether it is an array or a bitmap, a chunk holds a set of offsets, and the operations change this set as
they should without leaving the allocated words.
-/

namespace PostgreSieve.BlockRef

open Cells List Option Nat

variable {ws l : List ℕ} {o : ℕ}

/-! ## Bits -/

def bitAt (ws : List ℕ) (offset : ℕ) : Bool :=
  (ws.getD (offset / blocksPerEntry) 0).testBit (offset % blocksPerEntry)

theorem bitAt_set {i w o' : ℕ} (hi : i < ws.length) : bitAt (ws.set i w) o' =
    if o' / blocksPerEntry = i then w.testBit (o' % blocksPerEntry) else bitAt ws o' := by
  unfold bitAt
  split
  · rename_i heq
    rw [heq, getD_eq_getElem?_getD, List.getElem?_set_self hi]
    rfl
  · rename_i hne
    rw [getD_eq_getElem?_getD, List.getElem?_set_ne (Ne.symm hne),
      ← getD_eq_getElem?_getD]

theorem testBit_getElem {o' : ℕ} (ho : o / blocksPerEntry < ws.length)
    (heq : o' / blocksPerEntry = o / blocksPerEntry) :
    ws[o / blocksPerEntry].testBit (o' % blocksPerEntry) = bitAt ws o' := by
  unfold bitAt
  rw [heq, getD_eq_getElem?_getD, List.getElem?_eq_getElem ho]
  rfl

theorem mod_eq_iff {o' : ℕ} (heq : o' / blocksPerEntry = o / blocksPerEntry) :
    o % blocksPerEntry = o' % blocksPerEntry ↔ o' = o := by
  unfold blocksPerEntry at *
  omega

section

variable (rest : List (Option ℕ)) (ho : o / blocksPerEntry < ws.length)
include rest ho

theorem setBit_filled :
    ∃ ws', setBit (filled ws rest) o = some (filled ws' rest) ∧ ws'.length = ws.length ∧
      ∀ o', bitAt ws' o' = (decide (o' = o) || bitAt ws o') := by
  unfold setBit
  rw [readCell_filled ho]
  refine ⟨_, writeCell_filled ho _, length_set, fun o' => ?_⟩
  rw [bitAt_set ho]
  by_cases heq : o' / blocksPerEntry = o / blocksPerEntry
  · rw [if_pos heq, testBit_or, testBit_getElem ho heq, one_shiftLeft, testBit_two_pow,
      Bool.or_comm, decide_eq_decide.mpr (mod_eq_iff heq)]
  · have hne : o' ≠ o := fun h => heq (by rw [h])
    simp [heq, hne]

theorem clearBit_filled :
    ∃ ws', clearBit (filled ws rest) o = some (filled ws' rest) ∧ ws'.length = ws.length ∧
      ∀ o', bitAt ws' o' = (decide (o' ≠ o) && bitAt ws o') := by
  unfold clearBit
  rw [readCell_filled ho]
  refine ⟨_, writeCell_filled ho _, length_set, fun o' => ?_⟩
  rw [bitAt_set ho]
  by_cases heq : o' / blocksPerEntry = o / blocksPerEntry
  · have hmask : (0xFFFF : ℕ).testBit (o' % blocksPerEntry) = true := by
      rw [show (0xFFFF : ℕ) = 2 ^ blocksPerEntry - 1 by rfl, testBit_two_pow_sub_one]
      simpa using mod_lt o' (show blocksPerEntry > 0 by decide)
    rw [if_pos heq, testBit_and, testBit_getElem ho heq, testBit_xor, hmask,
      one_shiftLeft, testBit_two_pow, Bool.true_xor, Bool.and_comm, ← decide_not,
      decide_eq_decide.mpr (not_congr (mod_eq_iff heq))]
  · have hne : o' ≠ o := fun h => heq (by rw [h])
    simp [heq, hne]

end

namespace Chunk

variable {chunk : Chunk} {s : Set ℕ}

theorem clearBits_filled (rest : List (Option ℕ)) (n : ℕ) (hn : o + n ≤ blocksPerEntry * ws.length) :
    ∃ ws', clearBits n o (filled ws rest) = some (filled ws' rest) ∧ ws'.length = ws.length ∧
      ∀ o', bitAt ws' o' = (decide (o' < o ∨ o + n ≤ o') && bitAt ws o') := by
  induction n generalizing o ws with
  | zero => exact ⟨ws, rfl, rfl, fun o' => by simp [lt_or_ge]⟩
  | succ n ih =>
    have ho : o / blocksPerEntry < ws.length := by
      unfold blocksPerEntry at *
      omega
    obtain ⟨ws₁, h₁, hlen₁, hbit₁⟩ := clearBit_filled rest ho
    have hn₁ : o + 1 + n ≤ blocksPerEntry * ws₁.length := by
      rw [hlen₁]
      omega
    obtain ⟨ws₂, h₂, hlen₂, hbit₂⟩ := ih hn₁
    refine ⟨ws₂, ?_, hlen₂.trans hlen₁, fun o' => ?_⟩
    · rw [clearBits, h₁]
      exact h₂
    · rw [hbit₂, hbit₁, ← Bool.and_assoc, ← Bool.decide_and]
      congr 1
      rw [decide_eq_decide]
      omega

/-! ## Arrays of offsets -/

theorem decide_mem_drop {i : ℕ} (hi : i < l.length) :
    decide (o ∈ l.drop i) = (decide (o = l[i]) || decide (o ∈ l.drop (i + 1))) := by
  rw [← Bool.decide_or, decide_eq_decide, drop_eq_getElem_cons hi, mem_cons]

theorem search_filled (rest : List (Option ℕ)) (i : ℕ) (hi : i ≤ l.length) :
    search (filled l rest) o (l.length - i) i = some (decide (o ∈ l.drop i)) := by
  induction hn : l.length - i generalizing i with
  | zero =>
    rw [drop_eq_nil_of_le (by omega)]
    simp [search]
  | succ n ih =>
    have hlt : i < l.length := by omega
    rw [search, readCell_filled hlt, decide_mem_drop hlt]
    simp only [bind_eq_bind, bind_some]
    by_cases heq : l[i] = o
    · simp [heq]
    · rw [if_neg heq, ih (i + 1) hlt (by omega)]
      simp [Ne.symm heq]

theorem convert_filled (rest : List (Option ℕ)) (hbound : ∀ c ∈ l, c / blocksPerEntry < ws.length)
    (i : ℕ) (hi : i ≤ l.length) :
    ∃ ws', convert (filled l rest) (l.length - i) i (filled ws []) = some (filled ws' []) ∧
      ws'.length = ws.length ∧ ∀ o', bitAt ws' o' = (decide (o' ∈ l.drop i) || bitAt ws o') := by
  induction hn : l.length - i generalizing i ws with
  | zero =>
    refine ⟨ws, rfl, rfl, fun o' => ?_⟩
    rw [drop_eq_nil_of_le (by omega)]
    simp
  | succ n ih =>
    have hlt : i < l.length := by omega
    obtain ⟨ws₁, h₁, hlen₁, hbit₁⟩ := setBit_filled [] (hbound l[i] (getElem_mem hlt))
    have hbound₁ : ∀ c ∈ l, c / blocksPerEntry < ws₁.length := by rwa [hlen₁]
    obtain ⟨ws₂, h₂, hlen₂, hbit₂⟩ := ih hbound₁ (i + 1) hlt (by omega)
    refine ⟨ws₂, ?_, hlen₂.trans hlen₁, fun o' => ?_⟩
    · rw [convert, readCell_filled hlt]
      simp only [bind_eq_bind, bind_some, h₁]
      exact h₂
    · rw [hbit₂, hbit₁, decide_mem_drop hlt, Bool.or_left_comm, Bool.or_assoc]

/-- The filter keeps the small offsets in front. Between them and those not seen yet there are `gap`
words. -/
theorem filterOffsets_spec (limit : ℕ) (todo kept : List ℕ) (gap rest : List (Option ℕ)) (i : ℕ)
    (hi : i = kept.length + gap.length) :
    ∃ rest', filterOffsets limit todo.length i kept.length (filled kept (gap ++ filled todo rest)) =
        some ((kept ++ todo.filter (· < limit)).length,
          filled (kept ++ todo.filter (· < limit)) rest') ∧
      (kept ++ todo.filter (· < limit)).length + rest'.length =
        kept.length + gap.length + todo.length + rest.length := by
  induction todo generalizing kept gap i with
  | nil =>
    refine ⟨gap ++ rest, by simp [filterOffsets, filled], by simp; omega⟩
  | cons t todo ih =>
    have hread : readCell (filled kept (gap ++ filled (t :: todo) rest)) i = some t := by
      unfold readCell filled
      simp [hi]
    rw [length_cons, filterOffsets, hread]
    simp only [bind_eq_bind, bind_some]
    by_cases hlt : t < limit
    · -- the word behind the kept ones is overwritten
      obtain ⟨c, gap', hgap⟩ : ∃ c gap', gap ++ [some t] = c :: gap' := by
        cases gap with
        | nil => exact ⟨_, _, rfl⟩
        | cons c gap => exact ⟨_, _, rfl⟩
      have hsplit : filled kept (gap ++ filled (t :: todo) rest) =
          filled kept (c :: (gap' ++ filled todo rest)) := by
        rw [← cons_append, ← hgap]
        simp [filled]
      have hlen := congrArg List.length hgap
      simp only [length_append, length_cons, length_nil] at hlen
      rw [hsplit, writeCell_next]
      obtain ⟨rest', h', hlen'⟩ := ih (kept ++ [t]) gap' (i + 1) (by simp; omega)
      rw [length_append, length_singleton] at h'
      refine ⟨rest', ?_, ?_⟩
      · simp only [bind_some, h']
        simp [hlt]
      · simp [hlt] at hlen' ⊢
        omega
    · obtain ⟨rest', h', hlen'⟩ := ih kept (gap ++ [some t]) (i + 1) (by simp; omega)
      have hsplit : filled kept (gap ++ filled (t :: todo) rest) =
          filled kept (gap ++ [some t] ++ filled todo rest) := by
        simp [filled]
      refine ⟨rest', ?_, ?_⟩
      · rw [hsplit, h']
        simp [hlt]
      · simp [hlt] at hlen' ⊢
        omega

/-! ## The set of a chunk -/

/-- The chunk is an array with the offsets `l`. -/
structure ArrayOf (chunk : Chunk) (l : List ℕ) : Prop where
  data : ∃ rest, chunk.data = filled l rest
  usage : chunk.usage = l.length
  size : chunk.size = chunk.data.length
  alloc : chunk.size = 0 ∨ ∃ j ≤ 8, chunk.size = initialEntriesPerChunk * 2 ^ j
  few : l.length < maxEntriesPerChunk
  nodup : l.Nodup
  bound : ∀ o ∈ l, o < blocksPerChunk

/-- The chunk is a bitmap with the words `ws`. -/
structure BitmapOf (chunk : Chunk) (ws : List ℕ) : Prop where
  data : chunk.data = filled ws []
  usage : chunk.usage = maxEntriesPerChunk
  size : chunk.size = maxEntriesPerChunk
  length : ws.length = maxEntriesPerChunk

inductive Holds (chunk : Chunk) (s : Set ℕ) : Prop
  | array (l : List ℕ) (h : chunk.ArrayOf l) (hs : ∀ o, o ∈ s ↔ o ∈ l)
  | bitmap (ws : List ℕ) (h : chunk.BitmapOf ws) (hs : ∀ o, o ∈ s ↔ o < blocksPerChunk ∧ bitAt ws o)

theorem ArrayOf.not_isBitmap (h : chunk.ArrayOf l) : ¬ chunk.isBitmap := by
  unfold isBitmap
  rw [h.usage]
  exact h.few.ne

theorem BitmapOf.isBitmap (h : chunk.BitmapOf ws) : chunk.isBitmap := h.usage

theorem holds_fresh : fresh.Holds ∅ :=
  .array [] ⟨⟨[], rfl⟩, rfl, rfl, .inl rfl, by decide, .nil, nofun⟩ (by simp)

theorem Holds.discard (h : chunk.Holds s) : ({ chunk with usage := 0 } : Chunk).Holds ∅ := by
  refine .array [] ⟨⟨chunk.data, rfl⟩, rfl, ?_, ?_, by decide, .nil, nofun⟩ (by simp)
  · cases h with
    | array l h hs => exact h.size
    | bitmap ws h hs =>
      rw [h.size, h.data, filled_length, h.length]
      rfl
  · cases h with
    | array l h hs => exact h.alloc
    | bitmap ws h hs => exact .inr ⟨8, le_rfl, h.size⟩

theorem Holds.setLimit {limit : ℕ} (h : chunk.Holds s) (hlimit : limit < blocksPerChunk) :
    ∃ chunk', chunk.setLimit limit = some chunk' ∧ chunk'.Holds {o ∈ s | o < limit} := by
  unfold Chunk.setLimit
  cases h with
  | array l h hs =>
    obtain ⟨rest, hrest⟩ := h.data
    obtain ⟨rest', hfilter, hlen⟩ := filterOffsets_spec limit l [] [] rest 0 rfl
    have hsize := h.size
    rw [hrest, filled_length] at hsize
    simp only [nil_append, length_nil] at hfilter hlen
    have hstart : filled [] ([] ++ filled l rest) = chunk.data := by
      rw [hrest]
      rfl
    rw [if_neg h.not_isBitmap, h.usage, ← hstart]
    simp only [nil_append, bind_eq_bind, hfilter, bind_some]
    refine ⟨_, rfl, .array (l.filter (· < limit)) ⟨⟨rest', rfl⟩, rfl, ?_, h.alloc, ?_, ?_, ?_⟩ ?_⟩
    · dsimp only
      rw [filled_length]
      omega
    · exact (length_filter_le _ _).trans_lt h.few
    · exact h.nodup.filter _
    · intro o ho
      exact h.bound o (mem_of_mem_filter ho)
    · intro o
      simp [hs]
  | bitmap ws h hs =>
    have hall : limit + (blocksPerChunk - limit) ≤ blocksPerEntry * ws.length := by
      rw [h.length, Nat.add_sub_cancel' hlimit.le]
      decide
    obtain ⟨ws', hclear, hlen, hbit⟩ := clearBits_filled [] (blocksPerChunk - limit) hall
    rw [if_pos h.isBitmap, h.data, hclear]
    refine ⟨_, rfl, .bitmap ws' ⟨rfl, h.usage, h.size, hlen.trans h.length⟩ fun o => ?_⟩
    have hrange : o < limit ∨ limit + (blocksPerChunk - limit) ≤ o ↔ o < limit ∨ blocksPerChunk ≤ o := by
      rw [Nat.add_sub_cancel' hlimit.le]
    simp only [Set.mem_ofPred_eq, hs, hbit, hrange, Bool.and_eq_true, decide_eq_true_eq]
    constructor
    · rintro ⟨⟨ho, hb⟩, hlt⟩
      exact ⟨ho, .inl hlt, hb⟩
    · rintro ⟨ho, hlt, hb⟩
      exact ⟨⟨ho, hb⟩, by omega⟩

theorem div_lt_maxEntries {o : ℕ} (ho : o < blocksPerChunk) :
    o / blocksPerEntry < maxEntriesPerChunk := by
  unfold maxEntriesPerChunk blocksPerChunk blocksPerEntry at *
  omega

theorem bitAt_zeros (n o : ℕ) : bitAt (List.replicate n 0) o = false := by
  unfold bitAt
  rw [getD_eq_getElem?_getD, List.getElem?_replicate]
  split <;> exact zero_testBit _

theorem ArrayOf.enlarge (h : chunk.ArrayOf l) (hsize : chunk.size ≠ 0)
    (hfew : l.length + 1 < maxEntriesPerChunk) :
    chunk.enlarge.ArrayOf l ∧ l.length < chunk.enlarge.size := by
  obtain ⟨rest, hrest⟩ := h.data
  have hlen := h.size
  rw [hrest, filled_length] at hlen
  unfold Chunk.enlarge
  split
  · rename_i hfull
    rw [h.usage] at hfull
    refine ⟨⟨⟨rest ++ List.replicate chunk.size none, ?_⟩, h.usage, ?_, .inr ?_, h.few, h.nodup,
      h.bound⟩, ?_⟩
    · rw [hrest, filled, filled, append_assoc]
    · dsimp only
      rw [length_append, ← h.size, length_replicate]
      omega
    · obtain hzero | ⟨j, hj, hsz⟩ := h.alloc
      · exact absurd hzero hsize
      · refine ⟨j + 1, lt_of_le_of_ne hj ?_, by dsimp only; rw [hsz, pow_succ, mul_assoc]⟩
        rintro rfl
        have : initialEntriesPerChunk * 2 ^ 8 = maxEntriesPerChunk := by decide
        omega
    · dsimp only
      omega
  · rename_i hroom
    rw [h.usage] at hroom
    exact ⟨h, by omega⟩

theorem ArrayOf.add (h : chunk.ArrayOf l) (hsize : chunk.size ≠ 0) (ho : o < blocksPerChunk)
    (hnew : o ∉ l) :
    ∃ chunk', chunk.add o = some chunk' ∧
      if l.length + 1 = maxEntriesPerChunk then
        ∃ ws, chunk'.BitmapOf ws ∧ ∀ o', bitAt ws o' = (decide (o' = o) || decide (o' ∈ l))
      else chunk'.ArrayOf (l ++ [o]) := by
  have hfew := h.few
  unfold Chunk.add
  split_ifs with hfull hlast hlast
  · obtain ⟨rest, hrest⟩ := h.data
    have hzeros : (List.replicate maxEntriesPerChunk (some 0) : List (Option ℕ)) =
        filled (List.replicate maxEntriesPerChunk 0) [] := by
      simp [filled]
    have hbound : ∀ c ∈ l, c / blocksPerEntry < (List.replicate maxEntriesPerChunk 0).length := by
      intro c hc
      rw [length_replicate]
      exact div_lt_maxEntries (h.bound c hc)
    obtain ⟨ws₁, hconvert, hlen₁, hbit₁⟩ := convert_filled rest hbound 0 (zero_le _)
    rw [length_replicate] at hlen₁
    have ho₁ : o / blocksPerEntry < ws₁.length := by
      rw [hlen₁]
      exact div_lt_maxEntries ho
    obtain ⟨ws₂, hset, hlen₂, hbit₂⟩ := setBit_filled [] ho₁
    rw [Nat.sub_zero] at hconvert
    rw [h.usage, hrest, hzeros, hconvert]
    simp only [bind_eq_bind, bind_some, hset]
    refine ⟨_, rfl, ws₂, ⟨rfl, rfl, rfl, hlen₂.trans hlen₁⟩, fun o' => ?_⟩
    rw [hbit₂, hbit₁, drop_zero, bitAt_zeros, Bool.or_false]
  · rw [h.usage] at hfull
    omega
  · rw [h.usage] at hfull
    omega
  · obtain ⟨h', hroom⟩ := h.enlarge hsize (by omega)
    obtain ⟨rest, hrest⟩ := h'.data
    have hlen := h'.size
    rw [hrest, filled_length] at hlen
    obtain ⟨c, rest', rfl⟩ : ∃ c rest', rest = c :: rest' := by
      cases rest with
      | nil =>
        rw [length_nil] at hlen
        omega
      | cons c rest' => exact ⟨c, rest', rfl⟩
    dsimp only
    rw [h'.usage, hrest, writeCell_next]
    refine ⟨_, rfl, ⟨rest', rfl⟩, by simp, ?_, h'.alloc, ?_, ?_, ?_⟩
    · rw [filled_length, hlen]
      simp only [length_append, length_cons, length_nil]
      omega
    · rw [length_append, length_singleton]
      omega
    · exact nodup_append.mpr ⟨h.nodup, nodup_singleton o, by
        intro a ha b hb
        rw [mem_singleton] at hb
        rintro rfl
        exact hnew (hb ▸ ha)⟩
    · exact forall_mem_append.mpr ⟨h.bound, forall_mem_singleton.mpr ho⟩

theorem ArrayOf.nil_of_size (h : chunk.ArrayOf l) (hsize : chunk.size = 0) : l = [] := by
  obtain ⟨rest, hrest⟩ := h.data
  have hlen := h.size
  rw [hrest, filled_length] at hlen
  exact length_eq_zero_iff.mp (by omega)

theorem mark_fresh (hsize : chunk.size = 0) (ho : o < blocksPerChunk) :
    ∃ chunk', chunk.mark o = some chunk' ∧ chunk'.ArrayOf [o] := by
  unfold mark
  rw [if_pos hsize]
  refine ⟨_, rfl, ⟨List.replicate (initialEntriesPerChunk - 1) none, rfl⟩, rfl, rfl,
    .inr ⟨0, zero_le 8, rfl⟩, ?_, nodup_singleton o, fun o' ho' => ?_⟩
  · exact (show 1 < maxEntriesPerChunk by decide)
  · rwa [mem_singleton.mp ho']

theorem ArrayOf.mark (h : chunk.ArrayOf l) (hsize : chunk.size ≠ 0) :
    chunk.mark o = if o ∈ l then some chunk else chunk.add o := by
  obtain ⟨rest, hrest⟩ := h.data
  have hsearch := search_filled (o := o) rest 0 (zero_le l.length)
  rw [Nat.sub_zero, ← hrest, drop_zero] at hsearch
  unfold Chunk.mark
  rw [if_neg hsize, if_neg h.not_isBitmap, h.usage, hsearch]
  simp only [bind_eq_bind, bind_some, decide_eq_true_eq]

theorem Holds.mark (h : chunk.Holds s) (ho : o < blocksPerChunk) :
    ∃ chunk', chunk.mark o = some chunk' ∧ chunk'.Holds (insert o s) := by
  cases h with
  | array l h hs =>
    by_cases hsize : chunk.size = 0
    · obtain ⟨chunk', hmark, h'⟩ := mark_fresh hsize ho
      refine ⟨chunk', hmark, .array [o] h' fun o' => ?_⟩
      simp [hs, h.nil_of_size hsize]
    · rw [h.mark hsize]
      by_cases hmem : o ∈ l
      · rw [if_pos hmem]
        refine ⟨chunk, rfl, .array l h fun o' => ?_⟩
        rw [Set.mem_insert_iff, hs]
        exact ⟨fun hor => hor.elim (fun heq => heq ▸ hmem) id, .inr⟩
      · rw [if_neg hmem]
        obtain ⟨chunk', hadd, h'⟩ := h.add hsize ho hmem
        refine ⟨chunk', hadd, ?_⟩
        split_ifs at h' with hfull
        · obtain ⟨ws, hws, hbit⟩ := h'
          refine .bitmap ws hws fun o' => ?_
          rw [Set.mem_insert_iff, hs, hbit, Bool.or_eq_true, decide_eq_true_eq, decide_eq_true_eq]
          constructor
          · rintro (rfl | hin)
            · exact ⟨ho, .inl rfl⟩
            · exact ⟨h.bound o' hin, .inr hin⟩
          · exact And.right
        · refine .array _ h' fun o' => ?_
          rw [Set.mem_insert_iff, hs, mem_append, mem_singleton, or_comm]
  | bitmap ws h hs =>
    have hsize : chunk.size ≠ 0 := by
      rw [h.size]
      decide
    have hws : o / blocksPerEntry < ws.length := by
      rw [h.length]
      exact div_lt_maxEntries ho
    obtain ⟨ws', hset, hlen, hbit⟩ := setBit_filled [] hws
    unfold Chunk.mark
    rw [if_neg hsize, if_pos h.isBitmap, h.data, hset]
    refine ⟨_, rfl, .bitmap ws' ⟨rfl, h.usage, h.size, hlen.trans h.length⟩ fun o' => ?_⟩
    rw [Set.mem_insert_iff, hs, hbit, Bool.or_eq_true, decide_eq_true_eq]
    constructor
    · rintro (rfl | ⟨hlt, hb⟩)
      · exact ⟨ho, .inl rfl⟩
      · exact ⟨hlt, .inr hb⟩
    · rintro ⟨hlt, heq | hb⟩
      · exact .inl heq
      · exact .inr ⟨hlt, hb⟩

end Chunk

end PostgreSieve.BlockRef
