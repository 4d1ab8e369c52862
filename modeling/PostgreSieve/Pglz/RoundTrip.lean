import PostgreSieve.Pglz.History
import PostgreSieve.Pglz.Output

/-! # Round trip

The matches that are found in the history are real ones, so that the items written by the compressor
always describe the input read so far.
-/

namespace PostgreSieve.Pglz

open Nat

variable {source : ℕ → UInt8} {hash : ℕ → ℕ} {entries : ℕ → HistEntry} {h : History}
  {e input hp len off dp hashsz : ℕ}

/-! ## Finding matches -/

theorem matchLength_spec {ip thislen : ℕ} (source : ℕ → UInt8) (hp : ℕ)
    (hle : thislen ≤ pglzMaxMatch) (hip : ip ≤ e) :
    let n := matchLength source e ip hp thislen
    thislen ≤ n ∧ n ≤ pglzMaxMatch ∧ ip + (n - thislen) ≤ e ∧
      ∀ j < n - thislen, source (ip + j) = source (hp + j) := by
  fun_induction matchLength source e ip hp thislen with
  | case1 ip hp thislen hc ih =>
    obtain ⟨hlt, heq, hmax⟩ := hc
    obtain ⟨h1, h2, h3, h4⟩ := ih hmax hlt
    refine ⟨by omega, h2, by omega, fun j hj => ?_⟩
    rcases Nat.eq_zero_or_pos j with rfl | hpos
    · exact heq
    · have := h4 (j - 1) (by omega)
      rwa [show ip + 1 + (j - 1) = ip + j by omega, show hp + 1 + (j - 1) = hp + j by omega] at this
  | case2 ip hp thislen hc =>
    exact ⟨le_rfl, hle, by omega, fun j hj => by omega⟩

/-- The bytes at `input` equal those `off` before them. -/
def Good (source : ℕ → UInt8) (e input len off : ℕ) : Prop :=
  len ≤ pglzMaxMatch ∧ input + len ≤ e ∧ (0 < len → 0 < off ∧ off < 0x0fff ∧ off ≤ input) ∧
    ∀ j < len, source (input + j) = source (input + j - off)

theorem entryLength_spec (source : ℕ → UInt8) (hp : ℕ) (hlen : len ≤ pglzMaxMatch)
    (he : input + len ≤ e) :
    let n := entryLength source e input hp len
    n ≤ pglzMaxMatch ∧ input + n ≤ e ∧ ∀ j < n, source (input + j) = source (hp + j) := by
  unfold entryLength
  split
  · split
    · rename_i hcmp
      obtain ⟨h1, h2, h3, h4⟩ := matchLength_spec source (hp + len) hlen he
      refine ⟨h2, by omega, fun j hj => ?_⟩
      rcases lt_or_ge j len with hjl | hjl
      · exact hcmp j hjl
      · have := h4 (j - len) (by omega)
        rwa [show input + len + (j - len) = input + j by omega,
          show hp + len + (j - len) = hp + j by omega] at this
    · exact ⟨zero_le _, by omega, fun j hj => absurd hj (not_lt_zero j)⟩
  · obtain ⟨-, h2, h3, h4⟩ := matchLength_spec (e := e) source hp
      (zero_le pglzMaxMatch) (show input ≤ e by omega)
    exact ⟨h2, h3, h4⟩

theorem Good.step (hg : Good source e input len off) (hp_lt : hp < input)
    (hoff : ¬ 0x0fff ≤ input - hp) :
    Good source e input
      (if len < entryLength source e input hp len then
        (entryLength source e input hp len, input - hp) else (len, off)).1
      (if len < entryLength source e input hp len then
        (entryLength source e input hp len, input - hp) else (len, off)).2 := by
  split
  · obtain ⟨h1, h2, h3⟩ := entryLength_spec source hp hg.1 hg.2.1
    refine ⟨h1, h2, fun _ => by omega, fun j hj => ?_⟩
    rw [h3 j hj, show input + j - (input - hp) = hp + j by omega]
  · exact hg

theorem searchHistory_spec {ps : List ℕ} {prev : Option ℕ} (goodDrop goodMatch : ℤ) {fuel : ℕ}
    (hc : Chained entries prev ps 0) (hps : ∀ p ∈ ps, (entries (slot p)).pos = p ∧ p < input)
    (hfuel : ps.length < fuel) (hg : Good source e input len off) :
    ∃ len' off', searchHistory source entries input e goodDrop fuel (some (first ps 0)) len off
      goodMatch = some (len', off') ∧ Good source e input len' off' := by
  induction ps generalizing fuel prev len off goodMatch with
  | nil =>
    obtain ⟨fuel, rfl⟩ := exists_eq_succ_of_ne_zero (ne_of_gt hfuel)
    exact ⟨len, off, rfl, hg⟩
  | cons p ps ih =>
    obtain ⟨fuel, rfl⟩ := exists_eq_succ_of_ne_zero (ne_of_gt (zero_lt_of_lt hfuel))
    obtain ⟨-, hnext, hrest⟩ := hc
    obtain ⟨hpos, hlt⟩ := hps p List.mem_cons_self
    have hfuel : ps.length < fuel := by simpa using hfuel
    have hps : ∀ q ∈ ps, (entries (slot q)).pos = q ∧ q < input :=
      fun q hq => hps q (List.mem_cons_of_mem p hq)
    have hfirst : first (p :: ps) 0 = slot p := rfl
    rw [hfirst, searchHistory, if_neg (show slot p ≠ invalidEntry from slot_ne_zero p)]
    simp only [hpos, hnext]
    split
    · exact ⟨len, off, rfl, hg⟩
    · rename_i hoff
      have hgood := hg.step hlt hoff
      generalize (if len < entryLength source e input p len then
        (entryLength source e input p len, input - p) else (len, off)) = best at *
      split
      · split
        · exact ⟨best.1, best.2, rfl, hgood⟩
        · exact ih _ hrest hps hfuel hgood
      · exact ih _ hrest hps hfuel hgood

/-- A match that is found can be coded as a tag. -/
theorem pglzFindMatch_spec {fuel hindex : ℕ} (source : ℕ → UInt8) (goodMatch goodDrop : ℤ)
    (hr : Remembers hash hashsz h dp) (hidx : hindex < hashsz) (hfuel : dp < fuel) (hle : dp ≤ e) :
    ∃ r, pglzFindMatch fuel source h dp e goodMatch goodDrop hindex = some r ∧
      ∀ len off, r = some (len, off) → (Item.tag len off).Fits source dp ∧ dp + len ≤ e := by
  have hl := hr.listed
  have hg : Good source e dp 0 0 :=
    ⟨zero_le _, hle, fun hc => absurd hc (lt_irrefl 0), fun j hj => absurd hj (not_lt_zero j)⟩
  obtain ⟨len, off, hs, hlen, hend, hoff, heq⟩ := searchHistory_spec goodDrop goodMatch
    (hl.chained hindex hidx) (fun p hp => by
      obtain ⟨h1, h2, -⟩ := mem_bucket.mp hp
      exact ⟨(hl.entry p h1 h2).1, h2⟩) (bucket_length_le.trans_lt hfuel) hg
  rw [pglzFindMatch, hl.start hindex hidx, hs]
  refine ⟨_, rfl, fun len' off' hr => ?_⟩
  simp only at hr
  split at hr
  · rename_i hmin
    obtain ⟨rfl, rfl⟩ := Prod.mk.inj (Option.some.inj hr)
    obtain ⟨h0, hmax, hle⟩ := hoff (by omega)
    exact ⟨⟨hmin, hlen, h0, by omega, hle, heq⟩, hend⟩
  · cases hr

/-! ## The loop of the compressor -/

/-- The state of the compressor, whose output buffer was `dest` at the start. -/
structure Compresses (p : Params) (hashsz : ℕ) (dest : ℕ → UInt8) (c : Compressor) : Prop where
  le : c.dp ≤ p.slen
  items : ∃ its, Emits c.output its ∧ Parses p.source 0 its c.dp
  history : Remembers p.hash hashsz c.history c.dp
  beyond : ∀ i, c.output.bp ≤ i → c.output.dest i = dest i
  bp : c.output.bp < p.resultMax.toNat + 4

/-- What `pglz_compress` returns. -/
structure Compressed (p : Params) (dest : ℕ → UInt8) (r : Option ℕ × (ℕ → UInt8)) : Prop where
  overrun : ∀ i, p.resultMax.toNat + 4 ≤ i → r.2 i = dest i
  size : ∀ n, r.1 = some n → n < p.resultMax ∧ ∃ gs, Grouped gs ∧
    Parses p.source 0 gs.flatten p.slen ∧ Stored r.2 0 (gs.flatMap groupBytes) ∧
    n = (gs.flatMap groupBytes).length

variable {p : Params} {dest : ℕ → UInt8} {c : Compressor}

section

variable (hc : Compresses p hashsz dest c) (hhash : ∀ s, p.hash s < hashsz)
include hc hhash

theorem Compresses.outItem {it : Item} (hfit : it.Fits p.source c.dp)
    (hle : c.dp + it.size ≤ p.slen) (hbp : ¬ p.resultMax ≤ c.output.bp) (found : Bool) :
    Compresses p hashsz dest ⟨c.dp + it.size, outItem c.output it, found,
      addMatched p.hash it.size c.dp c.history⟩ := by
  obtain ⟨its, hemits, hparses⟩ := hc.items
  obtain ⟨hemits', hbeyond, hbp'⟩ := hemits.outItem it
  have hbytes := it.bytes_length_le
  refine ⟨hle, ⟨its ++ [it], hemits', hparses.append ⟨hfit, rfl⟩⟩,
    hc.history.addMatched hhash it.size, fun i hi => ?_, ?_⟩
  · exact (hbeyond.2 i hi).trans (hc.beyond i (hbeyond.1.trans hi))
  · change (Pglz.outItem c.output it).bp < _
    omega

/-- A round of the loop. -/
theorem Compresses.step {fuel : ℕ} (hfuel : p.slen < fuel) :
    (∃ c', compressStep p fuel c = .inl c' ∧ Compresses p hashsz dest c' ∧ c.dp < c'.dp) ∨
      ∃ r, compressStep p fuel c = .inr (some r) ∧ Compressed p dest r := by
  have hbpmax := hc.bp
  have hover : ∀ i, p.resultMax.toNat + 4 ≤ i → c.output.dest i = dest i :=
    fun i hi => hc.beyond i (by omega)
  unfold compressStep
  split
  · rename_i hlt
    split
    · exact .inr ⟨_, rfl, hover, nofun⟩
    rename_i hbp
    split
    · exact .inr ⟨_, rfl, hover, nofun⟩
    obtain ⟨r, hr, hmatch⟩ := pglzFindMatch_spec p.source p.goodMatch p.goodDrop hc.history
      (hhash c.dp) (hlt.trans hfuel) hc.le
    rw [hr]
    left
    match r, hmatch with
    | some (len, off), hmatch =>
      obtain ⟨hfit, hend⟩ := hmatch len off rfl
      have hnext := hc.outItem hhash hfit hend hbp true
      rw [← pglzOutTag_eq] at hnext
      have hpos := hfit.size_pos
      exact ⟨_, rfl, hnext, Nat.lt_add_of_pos_right hpos⟩
    | none, _ =>
      have hfit : (Item.literal (p.source c.dp)).Fits p.source c.dp := rfl
      have hnext := hc.outItem hhash hfit hlt hbp c.foundMatch
      exact ⟨_, rfl, hnext, lt_succ_self _⟩
  · rename_i hend
    have hdp : c.dp = p.slen := le_antisymm hc.le (Nat.le_of_not_lt hend)
    obtain ⟨its, hemits, hparses⟩ := hc.items
    obtain ⟨gs, hgrouped, rfl, hst, hlen⟩ := hemits.finish
    have hbeyond := hemits.beyond_writeCtrl
    refine .inr ⟨_, rfl, fun i hi => ?_, fun n hn => ?_⟩
    · refine (hbeyond.2 i ?_).trans (hover i hi)
      rw [writeCtrl_bp]
      omega
    · split at hn
      · cases hn
      · obtain rfl := Option.some.inj hn
        exact ⟨by omega, gs, hgrouped, hdp ▸ hparses, hst, hlen⟩

theorem Compresses.iterate {n : ℕ} (fuel : ℕ) (hfuel : p.slen < fuel) (hn : p.slen - c.dp < n) :
    ∃ r, iterate (compressStep p fuel) n c = some (some r) ∧ Compressed p dest r := by
  induction n generalizing c with
  | zero => omega
  | succ n ih =>
    rcases hc.step hhash hfuel with ⟨c', hs, hc', hlt⟩ | ⟨r, hs, hr⟩
    · have hle := hc'.le
      obtain ⟨r, hrun, hr⟩ := ih hc' (by omega)
      refine ⟨r, ?_, hr⟩
      rw [PostgreSieve.iterate, hs]
      exact hrun
    · refine ⟨r, ?_, hr⟩
      rw [PostgreSieve.iterate, hs]

end

/-! ## Round trip -/

theorem pglzHistIdx_lt (signed : Bool) (source : ℕ → UInt8) (s e slen : ℕ) :
    pglzHistIdx signed source s e (hashSize slen - 1) < hashSize slen := by
  have hsize : 0 < hashSize slen ∧ hashSize slen - 1 < 2 ^ 32 := by
    unfold hashSize
    grind
  unfold pglzHistIdx
  simp only [BitVec.toNat_and, BitVec.toNat_ofNat, mod_eq_of_lt hsize.2]
  exact and_le_right.trans_lt (sub_one_lt_of_lt hsize.1)

theorem clamp_bounds {lo hi : ℤ} (h : lo ≤ hi) (x : ℤ) : lo ≤ clamp lo hi x ∧ clamp lo hi x ≤ hi := by
  unfold clamp
  grind

theorem int32_eq {x : ℤ} (h0 : 0 ≤ x) (h : x ≤ intMax) : int32 x = x := by
  have hmax : (intMax : ℤ) = 2 ^ 31 - 1 := by decide
  simp only [int32, Int.bmod]
  omega

/-- The maximum result size is computed without overflow. -/
theorem resultMax_le {slen : ℕ} (hlen : slen ≤ intMax) (strategy : Strategy) :
    resultMax slen strategy ≤ slen := by
  obtain ⟨h0, h99⟩ := clamp_bounds (show (0 : ℤ) ≤ 99 by decide) strategy.minCompRate
  unfold resultMax
  simp only
  generalize clamp 0 99 strategy.minCompRate = rate at *
  have hnonneg : ∀ n : ℕ, 0 ≤ (n : ℤ) * (100 - rate) := fun n =>
    Int.mul_nonneg (Int.natCast_nonneg n) (by omega)
  have hle : ∀ n : ℕ, (n : ℤ) * (100 - rate) ≤ n * 100 := fun n =>
    Int.mul_le_mul_of_nonneg_left (by omega) (Int.natCast_nonneg n)
  split
  · have h1 := hnonneg (slen / 100)
    have h2 := hle (slen / 100)
    rw [int32_eq h1 (by omega)]
    omega
  · have h1 := hnonneg slen
    have h2 := hle slen
    rw [int32_eq h1 (by omega), Int.tdiv_eq_ediv_of_nonneg h1]
    omega

section

variable (signed : Bool) (source : ℕ → UInt8) (slen : ℕ)
  (strategy : Option Strategy) (dest dest' : ℕ → UInt8) (histStart : ℕ → ℕ)
  (histEntries : ℕ → HistEntry) (fuel : ℕ) (hfuel : slen < fuel)
include hfuel

theorem pglzCompress_spec :
    ∃ size buffer, pglzCompress signed fuel source slen dest histStart histEntries strategy =
        some (size, buffer) ∧
      (∀ i, (resultMax slen (strategy.getD strategyDefault)).toNat + 4 ≤ i → buffer i = dest i) ∧
      ∀ n, size = some n → n < resultMax slen (strategy.getD strategyDefault) ∧
        ∃ gs, Grouped gs ∧ Parses source 0 gs.flatten slen ∧
          Stored buffer 0 (gs.flatMap groupBytes) ∧ n = (gs.flatMap groupBytes).length := by
  unfold pglzCompress
  simp only
  split
  · exact ⟨none, dest, rfl, fun _ _ => rfl, nofun⟩
  · generalize hp : (⟨source, slen, fun s => pglzHistIdx signed source s slen (hashSize slen - 1),
      clamp 17 pglzMaxMatch (strategy.getD strategyDefault).matchSizeGood,
      clamp 0 100 (strategy.getD strategyDefault).matchSizeDrop,
      resultMax slen (strategy.getD strategyDefault),
      (strategy.getD strategyDefault).firstSuccessBy⟩ : Params) = p
    have hhash : ∀ s, p.hash s < hashSize slen := by
      subst hp
      exact fun s => pglzHistIdx_lt ..
    have hslen : p.slen = slen := by rw [← hp]
    have hpmax : p.resultMax = resultMax slen (strategy.getD strategyDefault) := by rw [← hp]
    have hsource : p.source = source := by rw [← hp]
    have hstart : Compresses p (hashSize slen) dest ⟨0, ⟨dest, 0, none, 0, 0⟩, false,
        ⟨fun i => if i < hashSize slen then 0 else histStart i, histEntries, 1, false⟩⟩ :=
      ⟨zero_le _, ⟨[], .inl ⟨rfl, rfl, rfl, rfl⟩, rfl⟩,
        remembers_start _ _ fun i hi => if_pos hi, fun _ _ => rfl, succ_pos _⟩
    obtain ⟨⟨size, buffer⟩, hrun, hover, hsize⟩ := hstart.iterate (n := fuel) hhash fuel
      (by omega) (by rw [hslen]; exact hfuel)
    rw [hpmax] at hover hsize
    rw [hslen, hsource] at hsize
    exact ⟨size, buffer, by rw [hrun]; rfl, hover, hsize⟩

/-- The first `r` bytes are decompressed from as much of the compressed data as
`pglz_maximum_compressed_size` asks for. -/
theorem pglz_slice {n r : ℕ} {buffer : ℕ → UInt8}
    (hcomp : pglzCompress signed fuel source slen dest histStart histEntries strategy =
      some (some n, buffer)) (hr : r ≤ slen) :
    ∃ raw, pglzDecompress buffer (pglzMaximumCompressedSize r n) dest' r false = some (r, raw) ∧
      ∀ i < r, raw i = source i := by
  obtain ⟨size, buffer', hrun, -, hsize⟩ :=
    pglzCompress_spec signed source slen strategy dest histStart histEntries fuel hfuel
  obtain ⟨rfl, rfl⟩ := Prod.mk.inj (Option.some.inj (hrun.symm.trans hcomp))
  obtain ⟨-, gs, hgrouped, hparses, hst, hn⟩ := hsize n rfl
  refine pglzDecompress_spec ?_ hgrouped hparses hst hn hr dest' (by simp)
  unfold pglzMaximumCompressedSize
  omega

end

theorem pglz_slice_spaces : ∃ buffer,
    pglzCompress true 41 (fun _ => 32) 40 (fun _ => 0) (fun _ => 7) (fun _ => ⟨none, none, 0, 0⟩)
      none = some (some 5, buffer) ∧
      ∃ raw, pglzDecompress buffer 4 (fun _ => 0) 1 false = some (1, raw) ∧
        ∀ i < 1, raw i = 32 := by
  have hcomp : (pglzCompress true 41 (fun _ => 32) 40 (fun _ => 0) (fun _ => 7)
    (fun _ => ⟨none, none, 0, 0⟩) none).map Prod.fst = some (some 5) := by decide +kernel
  obtain ⟨⟨size, buffer⟩, hrun, rfl⟩ := Option.map_eq_some_iff.mp hcomp
  exact ⟨buffer, hrun, pglz_slice true (fun _ => 32) 40 none (fun _ => 0) (fun _ => 0)
    (fun _ => 7) (fun _ => ⟨none, none, 0, 0⟩) 41 (by decide) hrun (r := 1) (by decide)⟩

/-- What `pglz_compress` writes stays within four bytes of the maximum result size, and what it
returns is decompressed to the source. -/
theorem pglz_round_trip (signed : Bool) (source : ℕ → UInt8) (slen : ℕ) (hlen : slen ≤ intMax)
    (strategy : Option Strategy) (dest dest' : ℕ → UInt8) (histStart : ℕ → ℕ)
    (histEntries : ℕ → HistEntry) (fuel : ℕ) (hfuel : slen < fuel) :
    ∃ size buffer, pglzCompress signed fuel source slen dest histStart histEntries strategy =
        some (size, buffer) ∧
      (∀ i, (resultMax slen (strategy.getD strategyDefault)).toNat + 4 ≤ i → buffer i = dest i) ∧
      ∀ n, size = some n → n < resultMax slen (strategy.getD strategyDefault) ∧ n < slen ∧
        ∃ raw, pglzDecompress buffer n dest' slen true = some (slen, raw) ∧
          ∀ i < slen, raw i = source i := by
  have hmax := resultMax_le hlen (strategy.getD strategyDefault)
  obtain ⟨size, buffer, hrun, hover, hsize⟩ :=
    pglzCompress_spec signed source slen strategy dest histStart histEntries fuel hfuel
  refine ⟨size, buffer, hrun, hover, fun n hn => ?_⟩
  obtain ⟨hlt, gs, hgrouped, hparses, hst, hn⟩ := hsize n hn
  exact ⟨hlt, by omega,
    pglzDecompress_spec (.inl rfl) hgrouped hparses hst hn le_rfl dest' fun _ => ⟨rfl, rfl⟩⟩

theorem pglz_round_trip_spaces : ∃ size buffer,
    pglzCompress true 41 (fun _ => 32) 40 (fun _ => 0) (fun _ => 7) (fun _ => ⟨none, none, 0, 0⟩)
      none = some (size, buffer) ∧ size = some 5 ∧
      ∃ raw, pglzDecompress buffer 5 (fun _ => 0) 40 true = some (40, raw) ∧
        ∀ i < 40, raw i = 32 := by
  obtain ⟨size, buffer, hrun, -, hsize⟩ := pglz_round_trip true (fun _ => 32) 40 (by decide) none
    (fun _ => 0) (fun _ => 0) (fun _ => 7) (fun _ => ⟨none, none, 0, 0⟩) 41 (by decide)
  have h5 : size = some 5 := by
    have hcomp : (pglzCompress true 41 (fun _ => 32) 40 (fun _ => 0) (fun _ => 7)
      (fun _ => ⟨none, none, 0, 0⟩) none).map Prod.fst = some (some 5) := by decide +kernel
    rw [hrun] at hcomp
    exact Option.some.inj hcomp
  obtain ⟨-, -, raw, hraw⟩ := hsize 5 h5
  exact ⟨size, buffer, hrun, h5, raw, hraw⟩

end PostgreSieve.Pglz
