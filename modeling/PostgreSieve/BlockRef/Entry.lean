import Mathlib.Data.Finset.Card
import Mathlib.Data.Finset.Filter
import Mathlib.Data.Finset.Insert
import PostgreSieve.BlockRef.Chunks

/-! # Entries are sets of blocks

An entry holds the marked blocks below its limit. Getting the blocks of a range is exact, except that the
last chunk is read beyond its end if it is a bitmap and the range goes beyond all chunks.
-/

namespace PostgreSieve.BlockRef

open Cells List Nat

/-! ## Scanning a chunk -/

section Scan

variable {ws l blocks found : List ℕ} {nblocks b i : ℕ}

/-- Blocks are added to the output as long as there is space. -/
def fill (nblocks : ℕ) (blocks found : List ℕ) : List ℕ × Bool :=
  (blocks ++ found.take (nblocks - blocks.length), nblocks ≤ blocks.length + found.length)

/-- A scan that may run over the end of a bitmap does so unless the output is full before. -/
def fillUnless (past : Prop) [Decidable past] (nblocks : ℕ) (blocks found : List ℕ) :
    Option (List ℕ × Bool) :=
  if past ∧ blocks.length + found.length < nblocks then none else some (fill nblocks blocks found)

variable {past past' : Prop} [Decidable past] [Decidable past']

theorem fillUnless_congr (h : past ↔ past') :
    fillUnless past nblocks blocks found = fillUnless past' nblocks blocks found := by
  simp only [fillUnless, h]

theorem fillUnless_nil (hover : ¬past) (h : blocks.length < nblocks) :
    fillUnless past nblocks blocks [] = some (blocks, false) := by
  simp [fillUnless, hover, fill, h]

theorem fill_cons_of_eq (h : blocks.length + 1 = nblocks) :
    fill nblocks blocks (b :: found) = (blocks ++ [b], true) := by
  have hone : nblocks - blocks.length = 1 := by omega
  simp [fill, hone]
  omega

theorem fill_cons_of_lt (h : blocks.length + 1 < nblocks) :
    fill nblocks blocks (b :: found) = fill nblocks (blocks ++ [b]) found := by
  obtain ⟨k, hk⟩ : ∃ k, nblocks - blocks.length = k + 1 := ⟨nblocks - blocks.length - 1, by omega⟩
  have hk' : nblocks - (blocks ++ [b]).length = k := by
    rw [length_append, length_singleton]
    omega
  unfold fill
  rw [hk, hk', take_succ_cons, append_assoc, singleton_append]
  simp only [Prod.mk.injEq, true_and, length_append, length_cons, length_nil,
    decide_eq_decide]
  omega

theorem emit_fill {rest : List ℕ → Option (List ℕ × Bool)} (h : blocks.length < nblocks)
    (hrest : ∀ blocks', blocks'.length < nblocks →
      rest blocks' = fillUnless past nblocks blocks' found) :
    (if (Entry.emit nblocks b blocks).2 = true then some ((Entry.emit nblocks b blocks).1, true)
      else rest (Entry.emit nblocks b blocks).1) = fillUnless past nblocks blocks (b :: found) := by
  have hlen : (blocks ++ [b]).length + found.length = blocks.length + (b :: found).length := by
    rw [length_append, length_singleton, length_cons]
    omega
  unfold Entry.emit
  simp only [length_append, length_cons, length_nil, zero_add, decide_eq_true_eq]
  split_ifs with hfull
  · rw [fillUnless, if_neg (by rw [length_cons]; omega), fill_cons_of_eq hfull]
  · rw [hrest _ (by rw [length_append, length_singleton]; omega), fillUnless, fillUnless, hlen,
      fill_cons_of_lt (by omega)]

theorem scanArray_filled (base : ℕ) (rest : List (Option ℕ)) (startOffset stopOffset : ℕ)
    (hi : i ≤ l.length)
    (h : blocks.length < nblocks) :
    Entry.scanArray (filled l rest) base nblocks startOffset stopOffset (l.length - i) i blocks =
      fillUnless False nblocks blocks
        (((l.drop i).filter fun o => startOffset ≤ o ∧ o < stopOffset).map (base + ·)) := by
  induction hn : l.length - i generalizing i blocks with
  | zero =>
    rw [drop_eq_nil_of_le (by omega)]
    exact (fillUnless_nil id h).symm
  | succ n ih =>
    have hlt : i < l.length := by omega
    rw [Entry.scanArray, readCell_filled hlt, drop_eq_getElem_cons hlt]
    simp only [Option.bind_eq_bind, Option.bind_some]
    by_cases hin : startOffset ≤ l[i] ∧ l[i] < stopOffset
    · rw [if_pos hin, filter_cons_of_pos (by simpa using hin), map_cons]
      exact emit_fill h fun blocks' h' => ih hlt h' (by omega)
    · rw [if_neg hin, filter_cons_of_neg (by simpa using hin)]
      exact ih hlt h (by omega)

theorem and_shiftLeft_ne_zero (w k : ℕ) : w &&& 1 <<< k ≠ 0 ↔ w.testBit k = true := by
  rw [one_shiftLeft, and_two_pow]
  cases w.testBit k <;> simp

theorem readCell_div (hi : i < blocksPerEntry * ws.length) :
    ∃ w, readCell (filled ws []) (i / blocksPerEntry) = some w ∧
      (w &&& 1 <<< (i % blocksPerEntry) ≠ 0 ↔ bitAt ws i = true) := by
  have hlt : i / blocksPerEntry < ws.length := Nat.div_lt_of_lt_mul hi
  refine ⟨_, readCell_filled hlt, ?_⟩
  rw [and_shiftLeft_ne_zero, testBit_getElem hlt rfl]

theorem scanBitmap_filled (base n : ℕ) (hi : i ≤ blocksPerEntry * ws.length)
    (h : blocks.length < nblocks) :
    Entry.scanBitmap (filled ws []) base nblocks n i blocks =
      fillUnless (blocksPerEntry * ws.length < i + n) nblocks blocks
        (((List.range' i (min n (blocksPerEntry * ws.length - i))).filter (bitAt ws)).map
          (base + ·)) := by
  induction n generalizing i blocks with
  | zero =>
    exact (fillUnless_nil (by omega) h).symm
  | succ n ih =>
    rw [Entry.scanBitmap]
    rcases eq_or_lt_of_le hi with heq | hlt
    · have hout : readCell (filled ws []) (i / blocksPerEntry) = none := by
        apply readCell_of_le
        rw [filled_length, heq, Nat.mul_div_cancel_left _ (by decide)]
        simp
      rw [hout, heq, Nat.sub_self]
      simp [fillUnless, h]
    · obtain ⟨w, hread, hbit⟩ := readCell_div hlt
      have hmin : min (n + 1) (blocksPerEntry * ws.length - i) =
          min n (blocksPerEntry * ws.length - (i + 1)) + 1 := by omega
      have hover : blocksPerEntry * ws.length < i + (n + 1) ↔
          blocksPerEntry * ws.length < i + 1 + n := by omega
      rw [hread, hmin, List.range'_succ, fillUnless_congr hover]
      simp only [Option.bind_eq_bind, Option.bind_some]
      by_cases hset : bitAt ws i = true
      · rw [if_pos (hbit.mpr hset), filter_cons_of_pos hset, map_cons]
        exact emit_fill h fun blocks' h' => ih hlt h'
      · rw [if_neg (hbit.not.mpr hset), filter_cons_of_neg hset]
        exact ih hlt h

end Scan

namespace Chunk

variable {chunk : Chunk} {s : Set ℕ} {base nblocks startOffset stopOffset : ℕ}

/-- Scanning a chunk finds the offsets in the range, unless it is a bitmap and the range goes beyond it. -/
theorem Holds.scan (h : chunk.Holds s) (base nblocks : ℕ) (hstart : startOffset < blocksPerChunk)
    (hstop : startOffset ≤ stopOffset) :
    ∃ found : List ℕ, found.Nodup ∧
      (∀ b, b ∈ found ↔ ∃ o ∈ s, startOffset ≤ o ∧ o < stopOffset ∧ base + o = b) ∧
      ∀ blocks : List ℕ, blocks.length < nblocks →
        Entry.scanChunk chunk base nblocks startOffset stopOffset blocks =
          fillUnless (chunk.isBitmap ∧ blocksPerChunk < stopOffset) nblocks blocks found := by
  have hinj : Function.Injective (base + ·) := fun a b => add_left_cancel
  unfold Entry.scanChunk
  cases h with
  | array l h hs =>
    obtain ⟨rest, hrest⟩ := h.data
    refine ⟨(l.filter fun o => startOffset ≤ o ∧ o < stopOffset).map (base + ·),
      (h.nodup.filter _).map hinj, fun b => ?_, fun blocks hblocks => ?_⟩
    · simp only [mem_map, mem_filter, decide_eq_true_eq, hs]
      constructor
      · rintro ⟨o, ⟨ho, hlo, hhi⟩, rfl⟩
        exact ⟨o, ho, hlo, hhi, rfl⟩
      · rintro ⟨o, ho, hlo, hhi, rfl⟩
        exact ⟨o, ⟨ho, hlo, hhi⟩, rfl⟩
    · have hscan := scanArray_filled base rest startOffset stopOffset (zero_le l.length) hblocks
      rw [drop_zero, Nat.sub_zero] at hscan
      rw [if_neg h.not_isBitmap, h.usage, hrest, hscan]
      exact fillUnless_congr (iff_of_false id fun hc => h.not_isBitmap hc.1)
  | bitmap ws h hs =>
    have hall : blocksPerEntry * ws.length = blocksPerChunk := by
      rw [h.length]
      decide
    let all := blocksPerEntry * ws.length
    refine ⟨((List.range' startOffset (min (stopOffset - startOffset) (all - startOffset))).filter
      (bitAt ws)).map (base + ·), ((nodup_range' ..).filter _).map hinj, fun b => ?_,
      fun blocks hblocks => ?_⟩
    rotate_left
    · rw [if_pos h.isBitmap, h.data, scanBitmap_filled base _ (by omega) hblocks]
      exact fillUnless_congr (by rw [hall]; simp only [h.isBitmap, true_and]; omega)
    · simp only [mem_map, mem_filter, mem_range'_1, hs]
      constructor
      · rintro ⟨o, ⟨⟨hlo, hhi⟩, hbit⟩, rfl⟩
        exact ⟨o, ⟨by omega, hbit⟩, hlo, by omega, rfl⟩
      · rintro ⟨o, ⟨ho, hbit⟩, hlo, hhi, rfl⟩
        exact ⟨o, ⟨⟨hlo, by omega⟩, hbit⟩, rfl⟩

end Chunk

namespace Entry

variable {entry : Entry} {s : Finset ℕ} {b : ℕ}

/-! ## The set of an entry -/

/-- The offsets of a set of blocks within a chunk. -/
def offsets (s : Finset ℕ) (chunkno : ℕ) : Set ℕ :=
  {o | o < blocksPerChunk ∧ chunkno * blocksPerChunk + o ∈ s}

structure Holds (entry : Entry) (s : Finset ℕ) : Prop where
  chunk : ∀ (i : ℕ) (c : Chunk), entry.chunks[i]? = some c → c.Holds (offsets s i)
  mem : ∀ b ∈ s, b / blocksPerChunk < entry.nchunks

theorem div_mod_block (b : ℕ) :
    b / blocksPerChunk * blocksPerChunk + b % blocksPerChunk = b := div_add_mod' b _

theorem mod_lt_block (b : ℕ) : b % blocksPerChunk < blocksPerChunk := mod_lt b (by decide)

variable {i o : ℕ}

theorem block_eq_iff (ho : o < blocksPerChunk) :
    i * blocksPerChunk + o = b ↔ i = b / blocksPerChunk ∧ o = b % blocksPerChunk := by
  unfold blocksPerChunk at *
  omega

theorem block_div (i : ℕ) (ho : o < blocksPerChunk) :
    (i * blocksPerChunk + o) / blocksPerChunk = i := ((block_eq_iff ho).mp rfl).1.symm

theorem offsets_congr {s' : Finset ℕ} (h : ∀ b, b / blocksPerChunk = i → (b ∈ s' ↔ b ∈ s)) :
    offsets s' i = offsets s i :=
  Set.ext fun _ => and_congr_right fun ho => h _ (block_div i ho)

theorem offsets_eq_empty (h : ∀ b ∈ s, b / blocksPerChunk ≠ i) : offsets s i = ∅ :=
  Set.eq_empty_iff_forall_notMem.mpr fun _ hmem => h _ hmem.2 (block_div i hmem.1)

theorem holds_create : create.Holds ∅ := ⟨by simp [create], by simp⟩

/-! ## Marking -/

theorem le_growChunks (wanted fuel maxChunks : ℕ) (hpos : 1 ≤ maxChunks)
    (hfuel : wanted ≤ maxChunks + fuel) :
    wanted ≤ growChunks wanted fuel maxChunks ∧ maxChunks ≤ growChunks wanted fuel maxChunks := by
  induction fuel generalizing maxChunks with
  | zero => exact ⟨hfuel, le_rfl⟩
  | succ fuel ih =>
    rw [growChunks]
    split
    · obtain ⟨hwanted, hle⟩ := ih (maxChunks * 2) (by omega) (by omega)
      exact ⟨hwanted, by omega⟩
    · exact ⟨by omega, le_rfl⟩

section

variable (h : entry.Holds s)
include h

theorem Holds.grow (n : ℕ) :
    (⟨entry.limitBlock, entry.chunks ++ List.replicate n Chunk.fresh⟩ : Entry).Holds s := by
  refine ⟨fun i chunk hi => ?_, fun b hb => ?_⟩
  · rcases lt_or_ge i entry.chunks.length with hlt | hge
    · rw [List.getElem?_append_left hlt] at hi
      exact h.chunk i chunk hi
    · rw [List.getElem?_append_right hge, List.getElem?_replicate] at hi
      split_ifs at hi
      cases hi
      rw [offsets_eq_empty fun b hb => ((h.mem b hb).trans_le hge).ne]
      exact Chunk.holds_fresh
  · have := h.mem b hb
    unfold nchunks at *
    rw [length_append]
    omega

theorem Holds.set {chunk : Chunk} {s' : Finset ℕ} (limitBlock i : ℕ)
    (hchunk : chunk.Holds (offsets s' i)) (hother : ∀ j, j ≠ i → offsets s' j = offsets s j)
    (hi : i < entry.nchunks) :
    (⟨limitBlock, entry.chunks.set i chunk⟩ : Entry).Holds s' := by
  refine ⟨fun j c hj => ?_, fun b hb => ?_⟩
  · rcases eq_or_ne j i with rfl | hne
    · rw [List.getElem?_set_self hi] at hj
      cases hj
      exact hchunk
    · rw [List.getElem?_set_ne hne.symm] at hj
      rw [hother j hne]
      exact h.chunk j c hj
  · unfold nchunks
    rw [length_set]
    rcases eq_or_ne (b / blocksPerChunk) i with heq | hne
    · rw [heq]
      exact hi
    · have hmem : b % blocksPerChunk ∈ offsets s' (b / blocksPerChunk) :=
        ⟨mod_lt_block b, by rwa [div_mod_block]⟩
      rw [hother _ hne] at hmem
      exact h.mem b (by simpa only [div_mod_block] using hmem.2)

theorem Holds.markBlockModified (b : ℕ) :
    ∃ entry', entry.markBlockModified b = some entry' ∧ entry'.limitBlock = entry.limitBlock ∧
      entry'.Holds (insert b s) := by
  unfold Entry.markBlockModified
  dsimp only
  -- the chunks after the arrays were enlarged
  obtain ⟨chunks, hchunks, hgrow, hlt⟩ : ∃ chunks,
      (if entry.nchunks ≤ b / blocksPerChunk then
        entry.chunks ++ List.replicate (growChunks (b / blocksPerChunk + 1) (b / blocksPerChunk + 1)
          (max 16 entry.nchunks) - entry.nchunks) Chunk.fresh
      else entry.chunks) = chunks ∧ (⟨entry.limitBlock, chunks⟩ : Entry).Holds s ∧
      b / blocksPerChunk < chunks.length := by
    split_ifs with hle
    · refine ⟨_, rfl, h.grow _, ?_⟩
      obtain ⟨hwanted, hmax⟩ := le_growChunks (b / blocksPerChunk + 1) (b / blocksPerChunk + 1)
        (max 16 entry.nchunks) (by omega) (by omega)
      rw [length_append, length_replicate]
      unfold nchunks at *
      omega
    · exact ⟨_, rfl, h, Nat.lt_of_not_le hle⟩
  rw [hchunks, List.getElem?_eq_getElem hlt]
  obtain ⟨chunk, hmark, hchunk⟩ :=
    (hgrow.chunk _ _ (List.getElem?_eq_getElem hlt)).mark (mod_lt_block b)
  simp only [Option.bind_eq_bind, Option.bind_some, hmark]
  refine ⟨_, rfl, rfl, hgrow.set _ _ ?_ ?_ hlt⟩
  · have heq : offsets (insert b s) (b / blocksPerChunk) =
        insert (b % blocksPerChunk) (offsets s (b / blocksPerChunk)) := by
      ext o
      simp only [offsets, Set.mem_ofPred_eq, Set.mem_insert_iff, Finset.mem_insert]
      constructor
      · rintro ⟨ho, hb | hmem⟩
        · exact .inl ((block_eq_iff ho).mp hb).2
        · exact .inr ⟨ho, hmem⟩
      · rintro (rfl | ⟨ho, hmem⟩)
        · exact ⟨mod_lt_block b, .inl (div_mod_block b)⟩
        · exact ⟨ho, .inr hmem⟩
    rw [heq]
    exact hchunk
  · refine fun j hj => offsets_congr fun b' hb' => ?_
    rw [Finset.mem_insert]
    exact or_iff_right fun heq => hj (heq ▸ hb'.symm)

/-! ## Truncation -/

theorem Holds.discard (limitBlock n : ℕ) :
    (⟨limitBlock, entry.chunks.take n ++
      (entry.chunks.drop n).map fun chunk => { chunk with usage := 0 }⟩ : Entry).Holds
        (s.filter fun b => b / blocksPerChunk < n) := by
  refine ⟨fun i chunk hi => ?_, fun b hb => ?_⟩
  · rcases lt_or_ge i (entry.chunks.take n).length with hlt | hge
    · have hin : i < n := by
        rw [length_take] at hlt
        omega
      rw [List.getElem?_append_left hlt, List.getElem?_take_of_lt hin] at hi
      have heq : offsets (s.filter fun b => b / blocksPerChunk < n) i = offsets s i :=
        offsets_congr fun b hb => by rw [Finset.mem_filter, hb, and_iff_left hin]
      rw [heq]
      exact h.chunk i chunk hi
    · have hempty : offsets (s.filter fun b => b / blocksPerChunk < n) i = ∅ := by
        apply offsets_eq_empty
        intro b hb
        rw [Finset.mem_filter] at hb
        have := h.mem b hb.1
        rw [length_take] at hge
        unfold nchunks at this
        omega
      rw [List.getElem?_append_right hge, List.getElem?_map, List.getElem?_drop,
        Option.map_eq_some_iff] at hi
      obtain ⟨c, hc, rfl⟩ := hi
      rw [hempty]
      exact (h.chunk _ c hc).discard
  · rw [Finset.mem_filter] at hb
    have := h.mem b hb.1
    unfold nchunks at *
    simp
    omega

theorem Holds.setLimitBlock (limitBlock : ℕ) :
    ∃ entry', entry.setLimitBlock limitBlock = some entry' ∧
      entry'.limitBlock = min entry.limitBlock limitBlock ∧
      entry'.Holds (if limitBlock < entry.limitBlock then s.filter (· < limitBlock) else s) := by
  unfold Entry.setLimitBlock
  by_cases hold : entry.limitBlock ≤ limitBlock
  · rw [if_pos hold, if_neg (by omega)]
    exact ⟨entry, rfl, (min_eq_left hold).symm, h⟩
  · have hlt : limitBlock < entry.limitBlock := by omega
    rw [if_neg hold, if_pos hlt]
    dsimp only
    by_cases hchunks : entry.nchunks ≤ limitBlock / blocksPerChunk
    · rw [if_pos hchunks]
      refine ⟨_, rfl, (min_eq_right hlt.le).symm, ?_⟩
      have heq : s.filter (· < limitBlock) = s := by
        rw [Finset.filter_eq_self]
        intro b hb
        have hb' := h.mem b hb
        unfold blocksPerChunk at *
        omega
      rw [heq]
      exact ⟨h.chunk, h.mem⟩
    · rw [if_neg hchunks]
      have hd := h.discard limitBlock (limitBlock / blocksPerChunk + 1)
      have hlen : limitBlock / blocksPerChunk <
          (entry.chunks.take (limitBlock / blocksPerChunk + 1) ++
            (entry.chunks.drop (limitBlock / blocksPerChunk + 1)).map
              fun chunk => ({ chunk with usage := 0 } : Chunk)).length := by
        unfold nchunks at hchunks
        simp
        omega
      obtain ⟨chunk, hset, hchunk⟩ :=
        (hd.chunk _ _ (List.getElem?_eq_getElem hlen)).setLimit (mod_lt_block limitBlock)
      rw [List.getElem?_eq_getElem hlen]
      simp only [Option.bind_eq_bind, Option.bind_some, hset]
      refine ⟨_, rfl, (min_eq_right hlt.le).symm, hd.set _ _ ?_ ?_ hlen⟩
      · have heq : offsets (s.filter (· < limitBlock)) (limitBlock / blocksPerChunk) =
            {o ∈ offsets (s.filter fun b => b / blocksPerChunk < limitBlock / blocksPerChunk + 1)
              (limitBlock / blocksPerChunk) | o < limitBlock % blocksPerChunk} := by
          ext o
          simp only [offsets, Set.mem_ofPred_eq, Finset.mem_filter]
          unfold blocksPerChunk
          constructor
          · rintro ⟨ho, hmem, hlt⟩
            exact ⟨⟨ho, hmem, by omega⟩, by omega⟩
          · rintro ⟨⟨ho, hmem, -⟩, hlt⟩
            exact ⟨ho, hmem, by omega⟩
        rw [heq]
        exact hchunk
      · refine fun j hj => offsets_congr fun b hb => ?_
        rw [Finset.mem_filter, Finset.mem_filter]
        unfold blocksPerChunk at *
        exact and_congr_right fun _ => by omega

end

/-! ## Getting blocks -/

section GetBlocks

variable {startBlkno stopBlkno stopChunkno : ℕ}

/-- The last chunk of the range is a bitmap and the range goes beyond it. -/
def Overrun (entry : Entry) (stopBlkno stopChunkno : ℕ) : Prop :=
  stopChunkno * blocksPerChunk < stopBlkno ∧
    entry.chunks[stopChunkno - 1]?.any (fun chunk => chunk.isBitmap)

instance : Decidable (entry.Overrun stopBlkno stopChunkno) :=
  inferInstanceAs (Decidable (_ ∧ _))

theorem Holds.scanChunk (h : entry.Holds s) (nblocks : ℕ) {chunkno : ℕ} {chunk : Chunk}
    (hchunk : entry.chunks[chunkno]? = some chunk) (hstart : startBlkno / blocksPerChunk ≤ chunkno)
    (hlt : startBlkno < stopBlkno) (hin : chunkno < stopChunkno)
    (hlast : (stopChunkno - 1) * blocksPerChunk < stopBlkno) :
    let startOffset :=
      if chunkno = startBlkno / blocksPerChunk then startBlkno % blocksPerChunk else 0
    let stopOffset :=
      if chunkno = stopChunkno - 1 then stopBlkno - chunkno * blocksPerChunk else blocksPerChunk
    ∃ found : List ℕ, found.Nodup ∧
      (∀ b, b ∈ found ↔ b ∈ s ∧ b / blocksPerChunk = chunkno ∧ startBlkno ≤ b ∧ b < stopBlkno) ∧
      ∀ blocks : List ℕ, blocks.length < nblocks →
        Entry.scanChunk chunk (chunkno * blocksPerChunk) nblocks startOffset stopOffset blocks =
          fillUnless (chunkno = stopChunkno - 1 ∧ entry.Overrun stopBlkno stopChunkno) nblocks
            blocks found := by
  intro startOffset stopOffset
  have hoffsets : startOffset < blocksPerChunk ∧ startOffset ≤ stopOffset ∧
      (∀ o < blocksPerChunk, startOffset ≤ o ∧ o < stopOffset ↔
        startBlkno ≤ chunkno * blocksPerChunk + o ∧ chunkno * blocksPerChunk + o < stopBlkno) ∧
      (blocksPerChunk < stopOffset ↔
        chunkno = stopChunkno - 1 ∧ stopChunkno * blocksPerChunk < stopBlkno) := by
    unfold startOffset stopOffset blocksPerChunk at *
    split_ifs with hfirst hlast' hlast'
    all_goals
      refine ⟨by omega, by omega, fun o ho => by omega, by omega⟩
  obtain ⟨hstart', hle, hrange, hover⟩ := hoffsets
  obtain ⟨found, hnodup, hmem, hscan⟩ :=
    (h.chunk chunkno chunk hchunk).scan (chunkno * blocksPerChunk) nblocks hstart' hle
  refine ⟨found, hnodup, fun b => ?_, fun blocks hblocks => ?_⟩
  · rw [hmem]
    constructor
    · rintro ⟨o, ⟨ho, hs⟩, hlo, hhi, rfl⟩
      exact ⟨hs, block_div chunkno ho, (hrange o ho).mp ⟨hlo, hhi⟩⟩
    · rintro ⟨hs, rfl, hlo, hhi⟩
      have hb := div_mod_block b
      obtain ⟨hlo', hhi'⟩ := (hrange _ (mod_lt_block b)).mpr (by rw [hb]; exact ⟨hlo, hhi⟩)
      exact ⟨b % blocksPerChunk, ⟨mod_lt_block b, by rwa [hb]⟩, hlo', hhi', hb⟩
  · rw [hscan blocks hblocks]
    apply fillUnless_congr
    rw [hover]
    constructor
    · rintro ⟨hbitmap, heq, hgt⟩
      refine ⟨heq, hgt, ?_⟩
      rw [← heq, hchunk]
      exact decide_eq_true hbitmap
    · rintro ⟨heq, hgt, hbitmap⟩
      rw [← heq, hchunk] at hbitmap
      exact ⟨of_decide_eq_true hbitmap, heq, hgt⟩

theorem Holds.getBlocksLoop (h : entry.Holds s) (hlt : startBlkno < stopBlkno)
    (hchunks : stopChunkno ≤ entry.nchunks)
    (hlast : (stopChunkno - 1) * blocksPerChunk < stopBlkno) (nblocks n chunkno : ℕ)
    (hstart : startBlkno / blocksPerChunk ≤ chunkno) (hn : chunkno + n = stopChunkno) :
    ∃ found : List ℕ, found.Nodup ∧
      (∀ b, b ∈ found ↔ b ∈ s ∧ (chunkno ≤ b / blocksPerChunk ∧ b / blocksPerChunk < stopChunkno) ∧
        startBlkno ≤ b ∧ b < stopBlkno) ∧
      ∀ blocks : List ℕ, blocks.length < nblocks →
        Entry.getBlocksLoop entry startBlkno stopBlkno stopChunkno nblocks n chunkno blocks =
          if (0 < n ∧ entry.Overrun stopBlkno stopChunkno) ∧ blocks.length + found.length < nblocks
          then none else some (blocks ++ found.take (nblocks - blocks.length)) := by
  induction n generalizing chunkno with
  | zero =>
    refine ⟨[], .nil, fun b => ?_, fun blocks hblocks => ?_⟩
    · simp only [not_mem_nil, false_iff]
      omega
    · simp [Entry.getBlocksLoop]
  | succ n ih =>
    have hin : chunkno < stopChunkno := by omega
    have hchunk := List.getElem?_eq_getElem (show chunkno < entry.chunks.length from
      hin.trans_le hchunks)
    obtain ⟨found₁, hnodup₁, hmem₁, hscan⟩ := h.scanChunk nblocks hchunk hstart hlt hin hlast
    obtain ⟨found₂, hnodup₂, hmem₂, hloop⟩ := ih (chunkno + 1) (by omega) (by omega)
    refine ⟨found₁ ++ found₂, ?_, fun b => ?_, fun blocks hblocks => ?_⟩
    · refine nodup_append.mpr ⟨hnodup₁, hnodup₂, fun a ha b hb => ?_⟩
      rintro rfl
      have h₁ := ((hmem₁ a).mp ha).2.1
      have h₂ := ((hmem₂ a).mp hb).2.1
      omega
    · rw [mem_append, hmem₁, hmem₂]
      constructor
      · rintro (⟨hs, hdiv, hrange⟩ | ⟨hs, hdiv, hrange⟩)
        · exact ⟨hs, by omega, hrange⟩
        · exact ⟨hs, by omega, hrange⟩
      · rintro ⟨hs, hdiv, hrange⟩
        rcases eq_or_lt_of_le hdiv.1 with heq | hgt
        · exact .inl ⟨hs, heq.symm, hrange⟩
        · exact .inr ⟨hs, ⟨hgt, hdiv.2⟩, hrange⟩
    · rw [Entry.getBlocksLoop, hchunk]
      simp only [Option.bind_eq_bind, Option.bind_some]
      rw [hscan blocks hblocks, fillUnless, length_append]
      by_cases hfull : nblocks ≤ blocks.length + found₁.length
      · rw [if_neg (by omega), if_neg (by omega), take_append_of_le_length (by omega)]
        simp [fill, hfull]
      · have htake : found₁.take (nblocks - blocks.length) = found₁ :=
          take_of_length_le (by omega)
        have hdiff : nblocks - (blocks ++ found₁).length = nblocks - blocks.length - found₁.length := by
          rw [length_append]
          omega
        by_cases hover : chunkno = stopChunkno - 1 ∧ entry.Overrun stopBlkno stopChunkno
        · have hnil : found₂ = [] := by
            apply eq_nil_iff_forall_not_mem.mpr
            intro b hb
            have := ((hmem₂ b).mp hb).2.1
            omega
          rw [if_pos ⟨hover, by omega⟩, if_pos ⟨⟨by omega, hover.2⟩, by rw [hnil]; simp; omega⟩]
          rfl
        · have hiff : 0 < n ∧ entry.Overrun stopBlkno stopChunkno ↔
              0 < n + 1 ∧ entry.Overrun stopBlkno stopChunkno := by
            constructor
            · exact fun ⟨_, ho⟩ => ⟨by omega, ho⟩
            · rintro ⟨-, ho⟩
              refine ⟨Nat.pos_of_ne_zero fun hzero => hover ⟨by omega, ho⟩, ho⟩
          rw [if_neg fun hc => hover hc.1]
          simp only [Option.bind_some, fill, htake, hfull, decide_false, Bool.false_eq_true, if_false]
          rw [hloop _ (by rw [length_append]; omega), hdiff, length_append,
            take_append, htake, add_assoc, append_assoc]
          simp only [hiff]

/-- The range goes beyond all chunks, the last of them is a bitmap, and the output has space for more
blocks than there are: then bits behind the bitmap are tested. -/
def ReadsBeyond (entry : Entry) (s : Finset ℕ) (startBlkno stopBlkno nblocks : ℕ) : Prop :=
  startBlkno < entry.nchunks * blocksPerChunk ∧ entry.nchunks * blocksPerChunk < stopBlkno ∧
    entry.chunks.getLast?.any (fun chunk => chunk.isBitmap) ∧
    (s.filter fun b => startBlkno ≤ b ∧ b < stopBlkno).card < nblocks

theorem Holds.getBlocks (h : entry.Holds s) (hlt : startBlkno < stopBlkno) {nblocks : ℕ}
    (hpos : 1 ≤ nblocks) :
    (entry.getBlocks startBlkno stopBlkno nblocks = none ↔
      entry.ReadsBeyond s startBlkno stopBlkno nblocks) ∧
    ∀ blocks, entry.getBlocks startBlkno stopBlkno nblocks = some blocks →
      blocks.Nodup ∧ (∀ b ∈ blocks, b ∈ s ∧ startBlkno ≤ b ∧ b < stopBlkno) ∧
      blocks.length = min nblocks (s.filter fun b => startBlkno ≤ b ∧ b < stopBlkno).card := by
  unfold Entry.getBlocks
  dsimp only
  -- the chunks of the range, as far as they exist
  generalize hstop : (if stopBlkno % blocksPerChunk ≠ 0 then stopBlkno / blocksPerChunk + 1
    else stopBlkno / blocksPerChunk) = stopAll
  have hall : stopBlkno ≤ stopAll * blocksPerChunk ∧ (stopAll - 1) * blocksPerChunk < stopBlkno := by
    unfold blocksPerChunk at *
    split_ifs at hstop <;> omega
  have hclamp : (if entry.nchunks < stopAll then entry.nchunks else stopAll) =
      min entry.nchunks stopAll := by
    split_ifs <;> omega
  rw [hclamp]
  have hmem_lt {b : ℕ} (hb : b ∈ s) (hstop : b < stopBlkno) :
      b / blocksPerChunk < min entry.nchunks stopAll := by
    have := h.mem b hb
    unfold blocksPerChunk at *
    omega
  have hbeyond : entry.ReadsBeyond s startBlkno stopBlkno nblocks ↔
      (0 < min entry.nchunks stopAll - startBlkno / blocksPerChunk ∧
        entry.Overrun stopBlkno (min entry.nchunks stopAll)) ∧
      (s.filter fun b => startBlkno ≤ b ∧ b < stopBlkno).card < nblocks := by
    unfold ReadsBeyond Overrun
    rw [List.getLast?_eq_getElem?]
    have hmin (hgt : min entry.nchunks stopAll * blocksPerChunk < stopBlkno) :
        min entry.nchunks stopAll = entry.nchunks := by
      unfold blocksPerChunk at *
      omega
    rw [← Nat.div_lt_iff_lt_mul (show 0 < blocksPerChunk by decide), Nat.sub_pos_iff_lt]
    constructor
    · rintro ⟨hlt, hgt, hbitmap, hcard⟩
      rw [hmin ((Nat.mul_le_mul_right _ (min_le_left ..)).trans_lt hgt)]
      exact ⟨⟨hlt, hgt, hbitmap⟩, hcard⟩
    · rintro ⟨⟨hlt, hgt, hbitmap⟩, hcard⟩
      have heq := hmin hgt
      rw [heq] at hlt hgt hbitmap
      exact ⟨hlt, hgt, hbitmap, hcard⟩
  rw [hbeyond]
  generalize hend : min entry.nchunks stopAll = stopChunkno at *
  rcases le_or_gt stopChunkno (startBlkno / blocksPerChunk) with hnone | hsome
  · have hempty : (s.filter fun b => startBlkno ≤ b ∧ b < stopBlkno) = ∅ := by
      rw [Finset.filter_eq_empty_iff]
      rintro b hb ⟨hlo, hhi⟩
      have hblk := hmem_lt hb hhi
      have hdiv := Nat.div_le_div_right (c := blocksPerChunk) hlo
      omega
    rw [Nat.sub_eq_zero_of_le hnone, Entry.getBlocksLoop, hempty]
    refine ⟨by simp, fun blocks hblocks => ?_⟩
    cases hblocks
    exact ⟨.nil, nofun, by simp⟩
  · obtain ⟨found, hnodup, hmem, hloop⟩ := h.getBlocksLoop hlt (by omega)
      (show (stopChunkno - 1) * blocksPerChunk < stopBlkno by unfold blocksPerChunk at *; omega)
      nblocks (stopChunkno - startBlkno / blocksPerChunk) (startBlkno / blocksPerChunk) le_rfl
      (by omega)
    have hfound : ∀ b, b ∈ found ↔ b ∈ s.filter fun b => startBlkno ≤ b ∧ b < stopBlkno := by
      intro b
      rw [hmem, Finset.mem_filter]
      constructor
      · rintro ⟨hs, -, hrange⟩
        exact ⟨hs, hrange⟩
      · rintro ⟨hs, hlo, hhi⟩
        exact ⟨hs, ⟨Nat.div_le_div_right hlo, hmem_lt hs hhi⟩, hlo, hhi⟩
    have hcard : (s.filter fun b => startBlkno ≤ b ∧ b < stopBlkno).card = found.length := by
      rw [← toFinset_card_of_nodup hnodup]
      congr 1
      ext b
      rw [mem_toFinset, hfound]
    rw [hloop [] hpos, hcard, length_nil, zero_add]
    refine ⟨?_, fun blocks hblocks => ?_⟩
    · split_ifs with hc
      · exact iff_of_true rfl hc
      · exact iff_of_false nofun hc
    split_ifs at hblocks
    cases hblocks
    refine ⟨hnodup.sublist (take_sublist _ _), fun b hb => ?_, by simp⟩
    exact Finset.mem_filter.mp ((hfound b).mp (mem_of_mem_take hb))

end GetBlocks

/-! ## Calls -/

inductive Call
  | markBlockModified (blknum : ℕ)
  | setLimitBlock (limitBlock : ℕ)

namespace Call

def run (entry : Entry) : Call → Option Entry
  | .markBlockModified blknum => entry.markBlockModified blknum
  | .setLimitBlock limitBlock => entry.setLimitBlock limitBlock

/-- The lowest limit and the set of blocks that an entry should have. -/
def apply (content : ℕ × Finset ℕ) : Call → ℕ × Finset ℕ
  | .markBlockModified blknum => (content.1, insert blknum content.2)
  | .setLimitBlock limitBlock =>
    if limitBlock < content.1 then (limitBlock, content.2.filter (· < limitBlock)) else content

end Call

def runCalls (entry : Entry) (calls : List Call) : Option Entry := calls.foldlM Call.run entry

def content (calls : List Call) : ℕ × Finset ℕ := calls.foldl Call.apply (invalidBlockNumber, ∅)

theorem Holds.call (h : entry.Holds s) (call : Call) :
    ∃ entry', call.run entry = some entry' ∧
      entry'.limitBlock = (call.apply (entry.limitBlock, s)).1 ∧
      entry'.Holds (call.apply (entry.limitBlock, s)).2 := by
  cases call with
  | markBlockModified blknum => exact h.markBlockModified blknum
  | setLimitBlock limitBlock =>
    obtain ⟨entry', hset, hlimit, h'⟩ := h.setLimitBlock limitBlock
    refine ⟨entry', hset, ?_, ?_⟩
    · rw [hlimit, Call.apply]
      split_ifs with hlt
      · exact min_eq_right hlt.le
      · exact min_eq_left (Nat.le_of_not_lt hlt)
    · rw [Call.apply]
      split_ifs at h' ⊢ <;> exact h'

theorem Holds.runCalls (h : entry.Holds s) (calls : List Call) :
    ∃ entry', entry.runCalls calls = some entry' ∧
      entry'.limitBlock = (calls.foldl Call.apply (entry.limitBlock, s)).1 ∧
      entry'.Holds (calls.foldl Call.apply (entry.limitBlock, s)).2 := by
  induction calls generalizing entry s with
  | nil => exact ⟨entry, rfl, rfl, h⟩
  | cons call calls ih =>
    obtain ⟨entry₁, hrun, hlimit, h₁⟩ := h.call call
    obtain ⟨entry₂, hrun₂, hlimit₂, h₂⟩ := ih h₁
    rw [hlimit, Prod.mk.eta] at hlimit₂ h₂
    refine ⟨entry₂, ?_, hlimit₂, h₂⟩
    unfold Entry.runCalls at *
    rw [foldlM_cons, hrun]
    exact hrun₂

end Entry

open Entry

/-! ## Reading beyond a bitmap -/

/-- The first blocks of the sixteenth chunk. -/
def lastChunkMarks (n : ℕ) : List Call :=
  (List.range n).map fun i => .markBlockModified (15 * blocksPerChunk + i)

theorem lastChunkMarks_succ (n : ℕ) :
    lastChunkMarks (n + 1) =
      lastChunkMarks n ++ [Call.markBlockModified (15 * blocksPerChunk + n)] := by
  simp [lastChunkMarks, range_succ]

theorem markBlockModified_last {chunk chunk' : Chunk} {n : ℕ} (hn : n < blocksPerChunk)
    (hmark : chunk.mark n = some chunk') :
    (⟨invalidBlockNumber, List.replicate 15 Chunk.fresh ++ [chunk]⟩ : Entry).markBlockModified
      (15 * blocksPerChunk + n) =
        some ⟨invalidBlockNumber, List.replicate 15 Chunk.fresh ++ [chunk']⟩ := by
  have hmod : (15 * blocksPerChunk + n) % blocksPerChunk = n := by
    unfold blocksPerChunk at *
    omega
  unfold Entry.markBlockModified
  rw [block_div 15 hn, hmod]
  dsimp only
  rw [if_neg (by simp [nchunks])]
  simp [hmark]

theorem runCalls_lastChunkMarks (n : ℕ) (hn : n + 1 ≤ maxEntriesPerChunk) :
    ∃ chunk, create.runCalls (lastChunkMarks (n + 1)) =
        some ⟨invalidBlockNumber, List.replicate 15 Chunk.fresh ++ [chunk]⟩ ∧
      if n + 1 = maxEntriesPerChunk then chunk.isBitmap else chunk.ArrayOf (List.range (n + 1)) := by
  induction n with
  | zero =>
    obtain ⟨chunk, hmark, h⟩ := Chunk.mark_fresh (show Chunk.fresh.size = 0 by rfl)
      (show 0 < blocksPerChunk by decide)
    have hfirst : create.markBlockModified (15 * blocksPerChunk + 0) =
        (⟨invalidBlockNumber, List.replicate 15 Chunk.fresh ++ [Chunk.fresh]⟩ :
          Entry).markBlockModified (15 * blocksPerChunk + 0) := by rfl
    refine ⟨chunk, ?_, h⟩
    unfold Entry.runCalls
    rw [show lastChunkMarks (0 + 1) = [Call.markBlockModified (15 * blocksPerChunk + 0)] by rfl,
      foldlM_cons, Call.run, hfirst, markBlockModified_last (by decide) hmark]
    rfl
  | succ n ih =>
    obtain ⟨chunk, hrun, h⟩ := ih (by omega)
    rw [if_neg (by omega)] at h
    have hsize : chunk.size ≠ 0 := by
      intro hzero
      have hnil := congrArg List.length (h.nil_of_size hzero)
      simp at hnil
    have hblock : n + 1 < blocksPerChunk := by
      have : maxEntriesPerChunk < blocksPerChunk := by decide
      omega
    have hnew : n + 1 ∉ List.range (n + 1) := by simp
    obtain ⟨chunk', hadd, h'⟩ := h.add hsize hblock hnew
    have hmark : chunk.mark (n + 1) = some chunk' := by
      rw [h.mark hsize, if_neg hnew, hadd]
    refine ⟨chunk', ?_, ?_⟩
    · unfold Entry.runCalls at *
      rw [lastChunkMarks_succ, foldlM_append, hrun]
      simp only [Option.bind_eq_bind, Option.bind_some, foldlM_cons, foldlM_nil, Call.run,
        markBlockModified_last hblock hmark]
      rfl
    · rw [length_range] at h'
      split_ifs at h' ⊢
      · obtain ⟨ws, hws, -⟩ := h'
        exact hws.isBitmap
      · rwa [range_succ]

theorem card_content_le (calls : List Call) : (content calls).2.card ≤ calls.length := by
  suffices h : ∀ c : ℕ × Finset ℕ, (calls.foldl Call.apply c).2.card ≤ c.2.card + calls.length by
    simpa [content] using h (invalidBlockNumber, ∅)
  induction calls with
  | nil => exact fun c => le_rfl
  | cons call calls ih =>
    intro c
    have hone : (call.apply c).2.card ≤ c.2.card + 1 := by
      cases call with
      | markBlockModified blknum => exact Finset.card_insert_le _ _
      | setLimitBlock limitBlock =>
        rw [Call.apply]
        split
        · exact (Finset.card_filter_le _ _).trans (le_succ _)
        · exact le_succ _
    have hrest := ih (call.apply c)
    rw [foldl_cons, length_cons]
    omega

/-! ## The set of blocks and its ranges -/

/-- Any calls leave an entry for the right set of blocks. Getting blocks is exact, unless the words of a
bitmap are left, and it is known when that happens. -/
theorem block_ref_table_entry (calls : List Call) (startBlkno stopBlkno nblocks : ℕ)
    (hlt : startBlkno < stopBlkno) (hpos : 1 ≤ nblocks) :
    let members := (content calls).2.filter fun b => startBlkno ≤ b ∧ b < stopBlkno
    ∃ entry, create.runCalls calls = some entry ∧ entry.limitBlock = (content calls).1 ∧
      entry.Holds (content calls).2 ∧
      (entry.getBlocks startBlkno stopBlkno nblocks = none ↔
        entry.ReadsBeyond (content calls).2 startBlkno stopBlkno nblocks) ∧
      (¬ entry.ReadsBeyond (content calls).2 startBlkno stopBlkno nblocks →
        ∃ blocks, entry.getBlocks startBlkno stopBlkno nblocks = some blocks ∧ blocks.Nodup ∧
          blocks.length = min nblocks members.card ∧ (∀ b ∈ blocks, b ∈ members) ∧
          (members.card ≤ nblocks → ∀ b ∈ members, b ∈ blocks)) := by
  intro members
  obtain ⟨entry, hrun, hlimit, (h : entry.Holds (content calls).2)⟩ := holds_create.runCalls calls
  obtain ⟨hnone, hsome⟩ := h.getBlocks hlt hpos
  refine ⟨entry, hrun, hlimit, h, hnone, fun hbeyond => ?_⟩
  obtain ⟨blocks, hblocks⟩ := Option.ne_none_iff_exists'.mp (hnone.not.mpr hbeyond)
  obtain ⟨hnodup, hmem, hlen⟩ := hsome blocks hblocks
  have hsub : ∀ b ∈ blocks, b ∈ members := fun b hb => Finset.mem_filter.mpr (hmem b hb)
  refine ⟨blocks, hblocks, hnodup, hlen, hsub, fun hle b hb => ?_⟩
  have hall : blocks.toFinset = members := by
    apply Finset.eq_of_subset_of_card_le
    · intro b hb
      exact hsub b (mem_toFinset.mp hb)
    · rw [toFinset_card_of_nodup hnodup, hlen, min_eq_right hle]
  rw [← hall] at hb
  exact mem_toFinset.mp hb

theorem block_ref_table_entry_truncated :
    let calls : List Call := [.markBlockModified 3, .markBlockModified 70000, .setLimitBlock 5]
    ∃ entry, create.runCalls calls = some entry ∧ entry.Holds (content calls).2 ∧
      (¬ entry.ReadsBeyond (content calls).2 0 10 4 → (entry.getBlocks 0 10 4).isSome) := by
  obtain ⟨entry, hrun, -, h, -, hget⟩ := block_ref_table_entry
    [.markBlockModified 3, .markBlockModified 70000, .setLimitBlock 5] 0 10 4 (by decide) (by decide)
  refine ⟨entry, hrun, h, fun hbeyond => ?_⟩
  obtain ⟨blocks, hblocks, -⟩ := hget hbeyond
  rw [hblocks]
  rfl

/-- The range of all blocks: once the last chunk is a bitmap, words behind it are read. -/
theorem getBlocks_beyond_bitmap :
    ∃ entry, create.runCalls (lastChunkMarks maxEntriesPerChunk) = some entry ∧
      entry.getBlocks 0 invalidBlockNumber (maxEntriesPerChunk + 1) = none := by
  obtain ⟨chunk, hrun, hchunk⟩ := runCalls_lastChunkMarks (maxEntriesPerChunk - 1) (by decide)
  rw [if_pos (by decide)] at hchunk
  obtain ⟨entry, hrun', -, h⟩ := holds_create.runCalls (lastChunkMarks maxEntriesPerChunk)
  obtain rfl : entry = _ := Option.some.inj (hrun'.symm.trans hrun)
  refine ⟨_, hrun, (h.getBlocks (by decide) (by decide)).1.mpr
    ⟨by simp [nchunks, blocksPerChunk], ?_, ?_, ?_⟩⟩
  · simp [nchunks, blocksPerChunk, invalidBlockNumber]
  · simp [hchunk]
  · have hcard := card_content_le (lastChunkMarks maxEntriesPerChunk)
    have hlen : (lastChunkMarks maxEntriesPerChunk).length = maxEntriesPerChunk := by
      simp [lastChunkMarks]
    rw [hlen] at hcard
    exact ((Finset.card_filter_le _ _).trans hcard).trans_lt (lt_succ_self _)

end PostgreSieve.BlockRef
