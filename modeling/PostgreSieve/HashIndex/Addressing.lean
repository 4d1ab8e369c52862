import Mathlib
import PostgreSieve.HashIndex.Basic

/-! # Block addresses are a stable bijection

The phase of a bucket is the least one with enough buckets. The blocks of a phase are those of its new
buckets followed by those of the overflow pages that were added in it, so that the phases tile the
index.
-/

namespace PostgreSieve.HashIndex

open Function

/-! ## Splitpoint phases -/

theorem getTotalbuckets_of_lt {p : ℕ} (hp : p < 10) : getTotalbuckets p = 2 ^ p := by
  unfold getTotalbuckets
  rw [if_pos (show p < splitpointGroupsWithOnePhase from hp), Nat.one_shiftLeft]

theorem getTotalbuckets_group (e k : ℕ) (hk : k < 4) :
    getTotalbuckets (10 + 4 * e + k) = 2 ^ (e + 7) * (k + 5) := by
  have hphase : 10 + 4 * e + k - splitpointGroupsWithOnePhase = 4 * e + k := by
    unfold splitpointGroupsWithOnePhase
    omega
  have hgroup : (4 * e + k) >>> splitpointPhaseBits = e := by
    rw [Nat.shiftRight_eq_div_pow, splitpointPhaseBits]
    omega
  have hmask : (4 * e + k) &&& splitpointPhaseMask = k := by
    rw [show splitpointPhaseMask = 2 ^ 2 - 1 by rfl, Nat.and_two_pow_sub_one_eq_mod]
    omega
  unfold getTotalbuckets
  rw [if_neg (by unfold splitpointGroupsWithOnePhase; omega)]
  dsimp only
  rw [hphase, hgroup, hmask, Nat.one_shiftLeft, Nat.shiftRight_eq_div_pow,
    show splitpointGroupsWithOnePhase + e - 1 = e + 7 + splitpointPhaseBits by
      unfold splitpointGroupsWithOnePhase splitpointPhaseBits; omega, pow_add,
    Nat.mul_div_cancel _ (by decide)]
  unfold splitpointPhaseBits
  ring

theorem exists_group {p : ℕ} (hp : 10 ≤ p) : ∃ e k, k < 4 ∧ p = 10 + 4 * e + k :=
  ⟨(p - 10) / 4, (p - 10) % 4, by omega, by omega⟩

theorem getTotalbuckets_lt_succ (p : ℕ) : getTotalbuckets p < getTotalbuckets (p + 1) := by
  rcases lt_or_ge p 9 with hp | hp
  · rw [getTotalbuckets_of_lt (by omega), getTotalbuckets_of_lt (by omega)]
    exact Nat.pow_lt_pow_right (by decide) (by omega)
  · rcases eq_or_lt_of_le hp with rfl | hp
    · decide
    · obtain ⟨e, k, hk, rfl⟩ := exists_group hp
      have hpos : 0 < 2 ^ (e + 7) := by positivity
      rw [getTotalbuckets_group e k hk]
      rcases eq_or_lt_of_le (Nat.le_of_lt_succ hk) with rfl | hk
      · rw [show 10 + 4 * e + 3 + 1 = 10 + 4 * (e + 1) + 0 by omega,
          getTotalbuckets_group (e + 1) 0 (by decide), show e + 1 + 7 = e + 7 + 1 by omega,
          Nat.pow_succ 2 (e + 7)]
        omega
      · rw [show 10 + 4 * e + k + 1 = 10 + 4 * e + (k + 1) by omega,
          getTotalbuckets_group e (k + 1) (by omega)]
        exact Nat.mul_lt_mul_of_pos_left (by omega) hpos

theorem getTotalbuckets_strictMono : StrictMono getTotalbuckets :=
  strictMono_nat_of_lt_succ getTotalbuckets_lt_succ

theorem getTotalbuckets_mono : Monotone getTotalbuckets := getTotalbuckets_strictMono.monotone

variable {n : ℕ}

theorem ceilLog2_spec (hn : 2 ≤ n) :
    ∃ g, ceilLog2 n = g + 1 ∧ 2 ^ g < n ∧ n ≤ 2 ^ (g + 1) := by
  refine ⟨Nat.log2 (n - 1), by unfold ceilLog2 leftmostOnePos32; rw [if_neg (by omega)], ?_, ?_⟩
  · have := Nat.log2_self_le (show n - 1 ≠ 0 by omega)
    omega
  · have := Nat.lt_log2_self (n := n - 1)
    omega

/-- The phase of a bucket is the least one with enough buckets. -/
theorem spareindex_spec (hn : 2 ≤ n) :
    ∃ p, spareindex n = p + 1 ∧ getTotalbuckets p < n ∧ n ≤ getTotalbuckets (p + 1) := by
  obtain ⟨g, hg, hlo, hhi⟩ := ceilLog2_spec hn
  unfold spareindex
  rw [hg]
  by_cases hsmall : g + 1 < splitpointGroupsWithOnePhase
  · rw [if_pos hsmall]
    unfold splitpointGroupsWithOnePhase at hsmall
    refine ⟨g, rfl, ?_, ?_⟩
    · rwa [getTotalbuckets_of_lt (by omega)]
    · rwa [getTotalbuckets_of_lt hsmall]
  · rw [if_neg hsmall]
    unfold splitpointGroupsWithOnePhase at *
    obtain ⟨e, rfl⟩ : ∃ e, g = e + 9 := ⟨g - 9, by omega⟩
    -- the bits of the bucket number behind the first one are the phase
    obtain ⟨k, hk, hquot⟩ : ∃ k, k < 4 ∧ (n - 1) / 2 ^ (e + 7) = k + 4 := by
      have hpos : 0 < 2 ^ (e + 7) := by positivity
      have hle : 4 ≤ (n - 1) / 2 ^ (e + 7) := by
        rw [Nat.le_div_iff_mul_le hpos]
        rw [show e + 9 = e + 7 + 2 by omega, pow_add] at hlo
        omega
      have hlt : (n - 1) / 2 ^ (e + 7) < 8 := by
        rw [Nat.div_lt_iff_lt_mul hpos]
        rw [show e + 9 + 1 = e + 7 + 3 by omega, pow_add] at hhi
        omega
      exact ⟨(n - 1) / 2 ^ (e + 7) - 4, by omega, by omega⟩
    have hphase : (n - 1) >>> (e + 9 + 1 - (splitpointPhaseBits + 1)) &&& splitpointPhaseMask = k := by
      rw [show e + 9 + 1 - (splitpointPhaseBits + 1) = e + 7 by unfold splitpointPhaseBits; omega,
        Nat.shiftRight_eq_div_pow, hquot, show splitpointPhaseMask = 2 ^ 2 - 1 by rfl,
        Nat.and_two_pow_sub_one_eq_mod]
      omega
    have hshift : (e + 9 + 1 - 10) <<< splitpointPhaseBits = 4 * e := by
      rw [Nat.shiftLeft_eq, splitpointPhaseBits]
      omega
    have hdiv := Nat.div_add_mod (n - 1) (2 ^ (e + 7))
    rw [hquot] at hdiv
    have htop : n ≤ getTotalbuckets (10 + 4 * e + k) := by
      rw [getTotalbuckets_group e k hk, show k + 5 = k + 4 + 1 by rfl, Nat.mul_succ]
      omega
    refine ⟨10 + 4 * e + k - 1, by omega, ?_,
      by rwa [show 10 + 4 * e + k - 1 + 1 = 10 + 4 * e + k by omega]⟩
    rcases k with _ | k
    · have hbase : getTotalbuckets (10 + 4 * e + 0 - 1) = 2 ^ (e + 9) := by
        rcases e with _ | e
        · decide
        · rw [show 10 + 4 * (e + 1) + 0 - 1 = 10 + 4 * e + 3 by omega,
            getTotalbuckets_group e 3 (by decide), show e + 1 + 9 = e + 7 + 3 by omega,
            Nat.pow_add 2 (e + 7)]
      rwa [hbase]
    · rw [show 10 + 4 * e + (k + 1) - 1 = 10 + 4 * e + k by omega,
        getTotalbuckets_group e k (by omega)]
      rw [show k + 1 + 4 = k + 5 by rfl] at hdiv
      omega

theorem spareindex_le_iff {bucket p : ℕ} :
    spareindex (bucket + 1) ≤ p ↔ bucket < getTotalbuckets p := by
  rcases Nat.eq_zero_or_pos bucket with rfl | hpos
  · have hone : getTotalbuckets 0 ≤ getTotalbuckets p := getTotalbuckets_mono (Nat.zero_le p)
    exact ⟨fun _ => hone, fun _ => Nat.zero_le p⟩
  · obtain ⟨q, hq, hlo, hhi⟩ := spareindex_spec (Nat.succ_le_succ hpos)
    rw [hq]
    constructor
    · intro hle
      exact hhi.trans (getTotalbuckets_mono hle)
    · intro hle
      exact getTotalbuckets_strictMono.lt_iff_lt.mp (hlo.trans_le hle)

theorem lt_totalbuckets (bucket : ℕ) : bucket < getTotalbuckets (spareindex (bucket + 1)) :=
  spareindex_le_iff.mp le_rfl

theorem spareindex_mono {b b' : ℕ} (h : b ≤ b') : spareindex (b + 1) ≤ spareindex (b' + 1) :=
  spareindex_le_iff.mpr (h.trans_lt (lt_totalbuckets b'))

theorem spareindex_le {bucket : ℕ} (h : bucket < 0x80000000) : spareindex (bucket + 1) ≤ 97 :=
  spareindex_le_iff.mpr (h.trans_eq (by decide))

theorem spareindex_totalbuckets (p : ℕ) : spareindex (getTotalbuckets p) = p := by
  have hpos : 1 ≤ getTotalbuckets p := getTotalbuckets_mono (Nat.zero_le p)
  obtain ⟨bucket, hb⟩ := Nat.exists_eq_add_of_le' hpos
  have hlt := lt_totalbuckets bucket
  rw [hb]
  apply le_antisymm
  · exact spareindex_le_iff.mpr (by omega)
  · exact getTotalbuckets_strictMono.le_iff_le.mp (by omega)

/-! ## Masks -/

theorem nextpower2_spec (hn : 2 ≤ n) :
    ∃ k, nextpower2 (n + 1) = 2 ^ (k + 1) ∧ 2 ^ k ≤ n ∧ n < 2 ^ (k + 1) := by
  have hlo := Nat.log2_self_le (show n + 1 ≠ 0 by omega)
  have hhi := Nat.lt_log2_self (n := n + 1)
  unfold nextpower2 leftmostOnePos32
  rw [Nat.add_sub_cancel]
  generalize Nat.log2 (n + 1) = g at hlo hhi
  rcases eq_or_lt_of_le hlo with heq | hlt
  · obtain ⟨k, rfl⟩ : ∃ k, g = k + 1 := by
      rcases g with _ | k
      · omega
      · exact ⟨k, rfl⟩
    have hand : (n + 1) &&& n = 0 := by
      rw [← heq, show n = 2 ^ (k + 1) - 1 by omega, Nat.and_two_pow_sub_one_eq_mod, Nat.mod_self]
    rw [if_pos hand]
    exact ⟨k, by rw [pow_succ]; omega, by omega, by rw [pow_succ]; omega⟩
  · have hand : (n + 1) &&& n ≠ 0 := by
      intro hzero
      have hbit := congrArg (Nat.testBit · g) hzero
      simp [Nat.testBit_and, Nat.testBit_of_two_pow_le_and_two_pow_add_one_gt hlo hhi,
        Nat.testBit_of_two_pow_le_and_two_pow_add_one_gt (show 2 ^ g ≤ n by omega) (by omega)]
        at hbit
    rw [if_neg hand, Nat.one_shiftLeft]
    exact ⟨g, rfl, by omega, by omega⟩

namespace HashMeta

variable {metap metap' : HashMeta}
variable {bucket : ℕ}

structure Addressed (metap : HashMeta) : Prop where
  point : spareindex (metap.maxbucket + 1) = metap.ovflpoint
  bucket : 1 ≤ metap.maxbucket
  limit : metap.maxbucket ≤ 0x7FFFFFFE
  masks : ∃ k, metap.lowmask = 2 ^ k - 1 ∧ metap.highmask = 2 ^ (k + 1) - 1
  low : metap.lowmask ≤ metap.maxbucket
  high : metap.maxbucket ≤ metap.highmask
  first : metap.spares 0 = 0
  mono : ∀ i < metap.ovflpoint, metap.spares i ≤ metap.spares (i + 1)
  last : metap.lastBlkno < invalidBlockNumber

namespace Addressed

variable (h : metap.Addressed)
include h

theorem point_pos : 1 ≤ metap.ovflpoint := by
  obtain ⟨p, hp, -⟩ := spareindex_spec (show 2 ≤ metap.maxbucket + 1 by have := h.bucket; omega)
  rw [← h.point, hp]
  omega

theorem bucket_lt : metap.maxbucket < getTotalbuckets metap.ovflpoint :=
  spareindex_le_iff.mp h.point.le

theorem point_lt : metap.ovflpoint < maxSplitpoints := by
  have hlimit := h.limit
  rw [← h.point]
  exact Nat.lt_succ_of_le (spareindex_le (by omega))

theorem room : getTotalbuckets metap.ovflpoint + metap.spares metap.ovflpoint < 2 ^ 32 - 1 := h.last

theorem spares_mono {i j : ℕ} (hij : i ≤ j) (hj : j ≤ metap.ovflpoint) :
    metap.spares i ≤ metap.spares j := by
  induction j, hij using Nat.le_induction with
  | base => exact le_rfl
  | succ j hij ih => exact (ih (by omega)).trans (h.mono j (by omega))

end Addressed

variable (dnumbuckets : ℚ) {n fuel i j : ℕ}

theorem initialBuckets_spec : ∃ p, initialBuckets dnumbuckets = getTotalbuckets p ∧
    1 ≤ p ∧ p ≤ 93 := by
  unfold initialBuckets
  split_ifs with hsmall hlarge
  · exact ⟨1, by decide, le_rfl, by decide⟩
  · exact ⟨93, by decide, by decide, le_rfl⟩
  · have hfloor : 2 ≤ ⌊dnumbuckets⌋₊ := Nat.le_floor (by push_cast; linarith)
    have hlt : ⌊dnumbuckets⌋₊ ≤ getTotalbuckets 93 := by
      have htotal : getTotalbuckets 93 = 0x40000000 := by decide
      rw [htotal]
      apply Nat.floor_le_of_le
      push_cast
      linarith
    obtain ⟨p, hp, -⟩ := spareindex_spec hfloor
    obtain ⟨n, hn⟩ := Nat.exists_eq_add_of_le' (Nat.one_le_of_lt hfloor)
    rw [hn] at hlt hp ⊢
    exact ⟨spareindex (n + 1), rfl, by omega, spareindex_le_iff.mpr hlt⟩

theorem addressed_init (bmshift : ℕ) :
    (initMetabuffer dnumbuckets bmshift).Addressed := by
  obtain ⟨p, hp, hpos, hle⟩ := initialBuckets_spec dnumbuckets
  have htwo : 2 ≤ getTotalbuckets p := getTotalbuckets_mono hpos
  have hmax : getTotalbuckets p ≤ 0x40000000 := getTotalbuckets_mono hle
  obtain ⟨k, hk, hlo, hhi⟩ := nextpower2_spec htwo
  unfold initMetabuffer
  dsimp only
  rw [hp, spareindex_totalbuckets, hk]
  have hlow : (2 ^ (k + 1) - 1) >>> 1 = 2 ^ k - 1 := by
    omega
  rw [hlow]
  constructor <;> try dsimp only
  · rw [Nat.sub_add_cancel (by omega), spareindex_totalbuckets]
  · omega
  · omega
  · exact ⟨k, rfl, rfl⟩
  · omega
  · omega
  · rw [update_of_ne (by omega)]
  · intro i hi
    rw [update_of_ne hi.ne]
    exact Nat.zero_le _
  · unfold lastBlkno invalidBlockNumber
    dsimp only
    rw [update_self]
    omega

/-! ## Growth -/

theorem uint32_of_lt (h : n < 2 ^ 32) : uint32 n = n := Nat.mod_eq_of_lt h

theorem spareindex_sub_one {bucket p : ℕ} (hle : bucket ≤ getTotalbuckets p) :
    spareindex (bucket + 1) - 1 ≤ p :=
  Nat.sub_le_of_le_add (spareindex_le_iff.mpr (hle.trans_lt (getTotalbuckets_lt_succ p)))

theorem Addressed.bucketToBlkno_eq (h : metap.Addressed)
    (hle : bucket ≤ getTotalbuckets metap.ovflpoint) :
    metap.bucketToBlkno bucket = bucket + 1 + metap.spares (spareindex (bucket + 1) - 1) := by
  have hspares := h.spares_mono (spareindex_sub_one hle) le_rfl
  have hroom := h.room
  unfold bucketToBlkno
  rcases Nat.eq_zero_or_pos bucket with rfl | hpos
  · have hzero : metap.spares (spareindex (0 + 1) - 1) = 0 := h.first
    rw [hzero]
    rfl
  · rw [if_pos hpos.ne', uint32_of_lt (n := bucket + _) (by omega), uint32_of_lt (by omega)]
    omega

theorem expandtable_cases (he : metap.expandtable = some metap') :
    metap.maxbucket < 0x7FFFFFFE ∧ metap'.maxbucket = metap.maxbucket + 1 ∧
    ((metap.highmask < metap.maxbucket + 1 ∧ metap'.lowmask = metap.highmask ∧
        metap'.highmask = (metap.maxbucket + 1) ||| metap.highmask) ∨
      (metap.maxbucket + 1 ≤ metap.highmask ∧ metap'.lowmask = metap.lowmask ∧
        metap'.highmask = metap.highmask)) ∧
    ((spareindex (metap.maxbucket + 1 + 1) ≤ metap.ovflpoint ∧ metap'.ovflpoint = metap.ovflpoint ∧
        metap'.spares = metap.spares) ∨
      (metap.ovflpoint < spareindex (metap.maxbucket + 1 + 1) ∧
        allocBuckets (metap.bucketToBlkno (metap.maxbucket + 1))
          (getTotalbuckets (spareindex (metap.maxbucket + 1 + 1)) - (metap.maxbucket + 1)) = true ∧
        metap'.ovflpoint = spareindex (metap.maxbucket + 1 + 1) ∧
        metap'.spares = update metap.spares (spareindex (metap.maxbucket + 1 + 1))
          (metap.spares metap.ovflpoint))) := by
  unfold expandtable at he
  dsimp only at he
  split_ifs at he with hlimit halloc hmask hpoint hpoint
  all_goals cases he
  · exact ⟨by omega, rfl, .inl ⟨hmask, rfl, rfl⟩, .inr ⟨hpoint, by
      simpa [show metap.ovflpoint < _ from hpoint] using halloc, rfl, rfl⟩⟩
  · exact ⟨by omega, rfl, .inl ⟨hmask, rfl, rfl⟩, .inl ⟨Nat.le_of_not_lt hpoint, rfl, rfl⟩⟩
  · exact ⟨by omega, rfl, .inr ⟨Nat.le_of_not_lt hmask, rfl, rfl⟩, .inr ⟨hpoint, by
      simpa [show metap.ovflpoint < _ from hpoint] using halloc, rfl, rfl⟩⟩
  · exact ⟨by omega, rfl, .inr ⟨Nat.le_of_not_lt hmask, rfl, rfl⟩,
      .inl ⟨Nat.le_of_not_lt hpoint, rfl, rfl⟩⟩

/-- A later metapage keeps the counts of all phases before the current one. -/
structure Extends (metap metap' : HashMeta) : Prop where
  point : metap.ovflpoint ≤ metap'.ovflpoint
  below : ∀ i < metap.ovflpoint, metap'.spares i = metap.spares i
  current : metap.spares metap.ovflpoint ≤ metap'.spares metap.ovflpoint

theorem Extends.refl (metap : HashMeta) : metap.Extends metap := ⟨le_rfl, fun _ _ => rfl, le_rfl⟩

theorem Extends.trans {metap'' : HashMeta} (h : metap.Extends metap') (h' : metap'.Extends metap'') :
    metap.Extends metap'' := by
  refine ⟨h.point.trans h'.point, fun i hi => ?_, ?_⟩
  · rw [h'.below i (hi.trans_le h.point), h.below i hi]
  · rcases eq_or_lt_of_le h.point with heq | hlt
    · have hcurrent := h'.current
      rw [← heq] at hcurrent
      exact h.current.trans hcurrent
    · rw [h'.below _ hlt]
      exact h.current

theorem lor_highmask {k b : ℕ} (h : 2 ^ (k + 1) - 1 < b) (hb : b ≤ 2 ^ (k + 1)) :
    b ||| (2 ^ (k + 1) - 1) = 2 ^ (k + 2) - 1 := by
  obtain rfl : b = 2 ^ (k + 1) := by omega
  have hlt : 2 ^ (k + 1) - 1 < 2 ^ (k + 1) := Nat.sub_lt (by positivity) one_pos
  have hor := Nat.two_pow_add_eq_or_of_lt hlt 1
  rw [mul_one] at hor
  rw [← hor, pow_succ 2 (k + 1)]
  omega

/-- A new phase is the next one, and starts right behind the blocks in use. -/
theorem Addressed.new_phase (h : metap.Addressed)
    (hpoint : metap.ovflpoint < spareindex (metap.maxbucket + 1 + 1)) :
    metap.maxbucket + 1 = getTotalbuckets metap.ovflpoint ∧
      spareindex (metap.maxbucket + 1 + 1) = metap.ovflpoint + 1 ∧
      metap.bucketToBlkno (metap.maxbucket + 1) = metap.lastBlkno + 1 := by
  have hlt := h.bucket_lt
  have hge := mt spareindex_le_iff.mpr hpoint.not_ge
  have hbucket : metap.maxbucket + 1 = getTotalbuckets metap.ovflpoint := by omega
  have hphase : spareindex (metap.maxbucket + 1 + 1) = metap.ovflpoint + 1 := by
    apply le_antisymm _ hpoint
    rw [spareindex_le_iff, hbucket]
    exact getTotalbuckets_lt_succ _
  rw [h.bucketToBlkno_eq hbucket.le, hphase, Nat.add_sub_cancel, lastBlkno, hbucket]
  omega

/-- The check of `_hash_alloc_buckets` detects a wraparound. -/
theorem lt_of_allocBuckets {firstblock nblocks : ℕ} (hfirst : firstblock < 2 ^ 32)
    (hpos : 0 < nblocks) (hblocks : nblocks < 2 ^ 32) (h : allocBuckets firstblock nblocks = true) :
    firstblock + nblocks - 1 < invalidBlockNumber := by
  unfold allocBuckets uint32 invalidBlockNumber at *
  simp only [Bool.not_eq_true', Bool.or_eq_false_iff, decide_eq_false_iff_not] at h
  omega

section

variable (h : metap.Addressed)
include h

theorem Addressed.expand (he : metap.expandtable = some metap') :
    metap'.Addressed ∧ metap.Extends metap' ∧ metap'.ovflpoint ≤ metap.ovflpoint + 1 := by
  obtain ⟨hlimit, hbucket, hmask, hpoint⟩ := expandtable_cases he
  obtain ⟨k, hlow, hhigh⟩ := h.masks
  have hle := h.high
  have hlo := h.low
  have hmasks : (∃ k, metap'.lowmask = 2 ^ k - 1 ∧ metap'.highmask = 2 ^ (k + 1) - 1) ∧
      metap'.lowmask ≤ metap'.maxbucket ∧ metap'.maxbucket ≤ metap'.highmask := by
    rcases hmask with ⟨hlt, hlow', hhigh'⟩ | ⟨hle', hlow', hhigh'⟩
    · have hone : 1 ≤ 2 ^ (k + 1) := Nat.one_le_two_pow
      have hor := lor_highmask (k := k) (b := metap.maxbucket + 1) (by omega) (by omega)
      rw [hhigh, hor] at hhigh'
      have hpow : 2 ^ (k + 2) = 2 * 2 ^ (k + 1) := by rw [pow_succ 2 (k + 1), mul_comm]
      exact ⟨⟨k + 1, by rw [hlow', hhigh], hhigh'⟩, by omega, by omega⟩
    · exact ⟨⟨k, by rw [hlow', hlow], by rw [hhigh', hhigh]⟩, by omega, by omega⟩
  obtain ⟨hmasks, hlow', hhigh'⟩ := hmasks
  rcases hpoint with ⟨hndx, hpoint, hspares⟩ | ⟨hndx, halloc, hpoint, hspares⟩
  · have hge : metap.ovflpoint ≤ spareindex (metap.maxbucket + 1 + 1) :=
      h.point ▸ spareindex_mono (Nat.le_succ _)
    refine ⟨⟨?_, by omega, by omega, hmasks, hlow', hhigh', ?_, ?_, ?_⟩, ⟨by omega, ?_, ?_⟩, by omega⟩
    · rw [hbucket, hpoint]
      exact le_antisymm hndx hge
    · rw [hspares]
      exact h.first
    · rw [hspares, hpoint]
      exact h.mono
    · unfold lastBlkno
      rw [hspares, hpoint]
      exact h.last
    · intro i _
      rw [hspares]
    · rw [hspares]
  · obtain ⟨htotal, hphase, hstart⟩ := h.new_phase hndx
    have hlast := h.last
    rw [hphase] at halloc hpoint hspares
    have hkeep {i : ℕ} (hi : i ≤ metap.ovflpoint) : metap'.spares i = metap.spares i := by
      rw [hspares, update_of_ne (by omega)]
    have hnew : metap'.spares (metap.ovflpoint + 1) = metap.spares metap.ovflpoint := by
      rw [hspares, update_self]
    have hmax : getTotalbuckets (metap.ovflpoint + 1) ≤ 0x80000000 :=
      getTotalbuckets_mono (hphase ▸ spareindex_le (by omega))
    have hlt := getTotalbuckets_lt_succ metap.ovflpoint
    refine ⟨⟨?_, by omega, by omega, hmasks, hlow', hhigh', ?_, ?_, ?_⟩, ⟨by omega, ?_, ?_⟩, by omega⟩
    · rw [hbucket, hpoint, hphase]
    · rw [hkeep (by omega)]
      exact h.first
    · intro i hi
      rw [hpoint] at hi
      rcases eq_or_lt_of_le (Nat.le_of_lt_succ hi) with rfl | hi
      · rw [hnew, hkeep le_rfl]
      · rw [hkeep (by omega), hkeep (by omega)]
        exact h.mono i hi
    · unfold lastBlkno invalidBlockNumber at *
      have hbound := lt_of_allocBuckets (by omega) (by omega) (by omega) halloc
      rw [hpoint, hnew]
      unfold invalidBlockNumber at hbound
      omega
    · intro i hi
      exact hkeep hi.le
    · rw [hkeep le_rfl]

theorem Addressed.addovfl (ha : metap.addovflpage = some metap')
    (hlast : metap.lastBlkno + (if metap.needsBitmap then 2 else 1) < invalidBlockNumber) :
    metap'.Addressed ∧ metap.Extends metap' := by
  -- the number of pages that are added
  obtain ⟨n, hn, heq⟩ : ∃ n, metap.lastBlkno + n < invalidBlockNumber ∧
      ∃ nmaps, metap' = { metap with
        spares := update metap.spares metap.ovflpoint
          (uint32 (metap.spares metap.ovflpoint + n))
        nmaps := nmaps } := by
    unfold addovflpage at ha
    split_ifs at ha hlast
    · cases ha
      exact ⟨2, hlast, _, rfl⟩
    · cases ha
      exact ⟨1, hlast, _, rfl⟩
  obtain ⟨nmaps, rfl⟩ := heq
  have hpos := h.point_pos
  have hword : uint32 (metap.spares metap.ovflpoint + n) = metap.spares metap.ovflpoint + n := by
    unfold lastBlkno invalidBlockNumber at hn
    exact uint32_of_lt (by omega)
  refine ⟨⟨h.point, h.bucket, h.limit, h.masks, h.low, h.high, ?_, ?_, ?_⟩, ⟨le_rfl, ?_, ?_⟩⟩
  · dsimp only
    rw [update_of_ne (by omega)]
    exact h.first
  · intro i hi
    dsimp only at hi ⊢
    rw [update_of_ne hi.ne]
    rcases eq_or_ne (i + 1) metap.ovflpoint with heq | hne
    · have hmono := h.mono i hi
      rw [heq] at hmono
      rw [heq, update_self]
      omega
    · rw [update_of_ne hne]
      exact h.mono i hi
  · unfold lastBlkno at *
    dsimp only
    rw [update_self]
    omega
  · intro i hi
    exact update_of_ne hi.ne _ _
  · dsimp only
    rw [update_self]
    omega

theorem Addressed.step (hs : Step metap metap') :
    metap'.Addressed ∧ metap.Extends metap' := by
  cases hs with
  | expand he => exact ⟨(h.expand he).1, (h.expand he).2.1⟩
  | addovfl ha hlast => exact h.addovfl ha hlast

theorem Addressed.run (hs : Relation.ReflTransGen Step metap metap') :
    metap'.Addressed ∧ metap.Extends metap' := by
  induction hs with
  | refl => exact ⟨h, .refl metap⟩
  | tail _ hstep ih =>
    obtain ⟨h', hext'⟩ := ih.1.step hstep
    exact ⟨h', ih.2.trans hext'⟩

end

/-! ## The addresses of a phase -/

theorem bitnoPhase_eq (hij : i ≤ j) (hj : j ≤ i + fuel)
    (hbelow : ∀ l, i ≤ l → l < j → metap.spares l < n) (hat : n ≤ metap.spares j ∨ j = i + fuel) :
    metap.bitnoPhase n fuel i = j := by
  induction fuel generalizing i with
  | zero =>
    rw [bitnoPhase]
    omega
  | succ fuel ih =>
    rw [bitnoPhase]
    rcases eq_or_lt_of_le hij with rfl | hlt
    · rw [if_neg (by omega)]
    · rw [if_pos (hbelow i le_rfl hlt)]
      exact ih hlt (by omega) (fun l hl hl' => hbelow l (by omega) hl') (by omega)

theorem Addressed.exists_phase (h : metap.Addressed) {bit : ℕ}
    (hbit : bit < metap.spares metap.ovflpoint) :
    ∃ j, 1 ≤ j ∧ j ≤ metap.ovflpoint ∧ metap.spares (j - 1) ≤ bit ∧ bit < metap.spares j := by
  have hex : ∃ j, bit < metap.spares j := ⟨_, hbit⟩
  have hfirst := h.first
  have hspec := Nat.find_spec hex
  have hpos : Nat.find hex ≠ 0 := by
    intro hzero
    rw [hzero] at hspec
    omega
  refine ⟨Nat.find hex, by omega, Nat.find_min' hex hbit, ?_, hspec⟩
  exact Nat.le_of_not_lt (Nat.find_min hex (by omega))

theorem Addressed.bitnoToBlkno_eq (h : metap.Addressed) {bit : ℕ} (hj : 1 ≤ j)
    (hj' : j ≤ metap.ovflpoint) (hlo : metap.spares (j - 1) ≤ bit) (hhi : bit < metap.spares j) :
    metap.bitnoToBlkno bit = getTotalbuckets j + bit + 1 := by
  have hroom := h.room
  have hspares := h.spares_mono hj' le_rfl
  have htotal := getTotalbuckets_mono hj'
  unfold bitnoToBlkno
  dsimp only
  rw [uint32_of_lt (n := bit + 1) (by omega)]
  have hphase : metap.bitnoPhase (bit + 1) (metap.ovflpoint - 1) 1 = j := by
    apply bitnoPhase_eq hj (by omega)
    · intro l _ hl
      have := h.spares_mono (show l ≤ j - 1 by omega) (by omega)
      omega
    · exact .inl hhi
  rw [hphase, uint32_of_lt (by omega)]
  omega

theorem ovflblknoLoop_eq_none {blkno : ℕ}
    (h : ∀ l, i ≤ l → l < i + fuel → getTotalbuckets l < blkno →
      blkno ≤ getTotalbuckets l + metap.spares (l - 1) ∨ getTotalbuckets l + metap.spares l < blkno) :
    metap.ovflblknoLoop blkno fuel i = none := by
  induction fuel generalizing i with
  | zero => rfl
  | succ fuel ih =>
    rw [ovflblknoLoop]
    split
    · rfl
    · have hout := h i le_rfl (by omega) (by omega)
      rw [if_neg (by omega)]
      exact ih fun l hl hl' => h l (by omega) (by omega)

theorem Addressed.ovflblknoLoop_eq_some (h : metap.Addressed) {bit : ℕ} (hi : 1 ≤ i) (hij : i ≤ j)
    (hj : j < i + fuel) (hj' : j ≤ metap.ovflpoint) (hlo : metap.spares (j - 1) ≤ bit)
    (hhi : bit < metap.spares j) :
    metap.ovflblknoLoop (getTotalbuckets j + bit + 1) fuel i = some bit := by
  induction fuel generalizing i with
  | zero => omega
  | succ fuel ih =>
    have htotal := getTotalbuckets_mono hij
    rw [ovflblknoLoop, if_neg (by omega)]
    rcases eq_or_lt_of_le hij with rfl | hlt
    · rw [if_pos ⟨by omega, by omega⟩]
      congr 1
      omega
    · have hspares := h.spares_mono (show i ≤ j - 1 by omega) (by omega)
      rw [if_neg (by omega)]
      exact ih (by omega) hlt (by omega)

theorem Addressed.exists_bucket_phase (h : metap.Addressed)
    (hb : bucket < getTotalbuckets metap.ovflpoint) :
    (bucket = 0 ∧ metap.bucketToBlkno bucket = 1) ∨
    ∃ j, 1 ≤ j ∧ j ≤ metap.ovflpoint ∧ getTotalbuckets (j - 1) ≤ bucket ∧
      bucket < getTotalbuckets j ∧
      metap.bucketToBlkno bucket = bucket + 1 + metap.spares (j - 1) := by
  rcases Nat.eq_zero_or_pos bucket with rfl | hpos
  · exact .inl ⟨rfl, rfl⟩
  · obtain ⟨p, hp, hlo, hhi⟩ := spareindex_spec (show 2 ≤ bucket + 1 by omega)
    have hle := spareindex_le_iff.mpr hb
    refine .inr ⟨p + 1, by omega, by omega, by rw [Nat.add_sub_cancel]; omega, by omega, ?_⟩
    rw [h.bucketToBlkno_eq hb.le, hp]

/-! ## Bijection -/

namespace Addressed

section

variable (h : metap.Addressed)
variable {bit : ℕ} {bucket : ℕ}
include h

theorem ovflblknoToBitno_bitno (hbit : bit < metap.spares metap.ovflpoint) :
    metap.ovflblknoToBitno (metap.bitnoToBlkno bit) = some bit := by
  obtain ⟨j, hj, hj', hlo, hhi⟩ := h.exists_phase hbit
  rw [h.bitnoToBlkno_eq hj hj' hlo hhi]
  exact h.ovflblknoLoop_eq_some le_rfl hj (by omega) hj' hlo hhi

theorem ovflblknoToBitno_bucket (hb : bucket < getTotalbuckets metap.ovflpoint) :
    metap.ovflblknoToBitno (metap.bucketToBlkno bucket) = none := by
  apply ovflblknoLoop_eq_none
  intro l hl hl' hlt
  rcases h.exists_bucket_phase hb with ⟨rfl, hblk⟩ | ⟨j, hj, hj', hlo, hhi, hblk⟩
  · have hone : 1 ≤ getTotalbuckets l := getTotalbuckets_mono (Nat.zero_le l)
    omega
  · rcases lt_or_ge l j with hlj | hlj
    · have htotal := getTotalbuckets_mono (show l ≤ j - 1 by omega)
      have hspares := h.spares_mono (show l ≤ j - 1 by omega) (by omega)
      omega
    · have htotal := getTotalbuckets_mono hlj
      have hspares := h.spares_mono (show j - 1 ≤ l - 1 by omega) (by omega)
      omega

theorem bitnoToBlkno_injOn :
    Set.InjOn metap.bitnoToBlkno (Set.Iio (metap.spares metap.ovflpoint)) := by
  intro bit hbit bit' hbit' heq
  have hsome := h.ovflblknoToBitno_bitno hbit
  rw [heq, h.ovflblknoToBitno_bitno hbit'] at hsome
  exact (Option.some.inj hsome).symm

theorem bucketToBlkno_strictMonoOn :
    StrictMonoOn metap.bucketToBlkno (Set.Iio (getTotalbuckets metap.ovflpoint)) := by
  intro bucket hb bucket' hb' hlt
  have hspares := h.spares_mono (Nat.sub_le_sub_right (spareindex_mono hlt.le) 1)
    (spareindex_sub_one (le_of_lt hb'))
  rw [h.bucketToBlkno_eq (le_of_lt hb), h.bucketToBlkno_eq (le_of_lt hb')]
  omega

theorem exists_of_le {j blkno : ℕ} (hj : j ≤ metap.ovflpoint)
    (hpos : 1 ≤ blkno) (hle : blkno ≤ getTotalbuckets j + metap.spares j) :
    (∃ bucket < getTotalbuckets j, metap.bucketToBlkno bucket = blkno) ∨
      ∃ bit < metap.spares j, metap.bitnoToBlkno bit = blkno := by
  induction j with
  | zero =>
    have hone : getTotalbuckets 0 = 1 := by decide
    have hfirst := h.first
    obtain rfl : blkno = 1 := by omega
    exact .inl ⟨0, by omega, rfl⟩
  | succ j ih =>
    have htotal := getTotalbuckets_lt_succ j
    have hspares := h.mono j (by omega)
    rcases le_or_gt blkno (getTotalbuckets j + metap.spares j) with hold | hnew
    · rcases ih (by omega) hold with ⟨bucket, hb, heq⟩ | ⟨bit, hb, heq⟩
      · exact .inl ⟨bucket, by omega, heq⟩
      · exact .inr ⟨bit, by omega, heq⟩
    · rcases le_or_gt blkno (getTotalbuckets (j + 1) + metap.spares j) with hbucket | hovfl
      · -- one of the new buckets
        have hb : blkno - 1 - metap.spares j < getTotalbuckets (j + 1) := by omega
        have hphase : spareindex (blkno - 1 - metap.spares j + 1) = j + 1 := by
          apply le_antisymm (spareindex_le_iff.mpr hb)
          exact Nat.lt_of_not_le (mt spareindex_le_iff.mp (by omega))
        refine .inl ⟨_, hb, ?_⟩
        have htop := getTotalbuckets_mono hj
        rw [h.bucketToBlkno_eq (by omega), hphase, Nat.add_sub_cancel]
        omega
      · refine .inr ⟨blkno - 1 - getTotalbuckets (j + 1), by omega, ?_⟩
        rw [h.bitnoToBlkno_eq (Nat.le_add_left 1 j) hj (by rw [Nat.add_sub_cancel]; omega) (by omega)]
        omega

theorem bucketToBlkno_mem (hb : bucket < getTotalbuckets metap.ovflpoint) :
    metap.bucketToBlkno bucket ∈ Set.Icc 1 metap.lastBlkno := by
  have hspares := h.spares_mono (spareindex_sub_one (le_of_lt hb)) le_rfl
  rw [h.bucketToBlkno_eq (le_of_lt hb)]
  unfold lastBlkno
  constructor <;> omega

theorem bitnoToBlkno_mem (hbit : bit < metap.spares metap.ovflpoint) :
    metap.bitnoToBlkno bit ∈ Set.Icc 1 metap.lastBlkno := by
  obtain ⟨j, hj, hj', hlo, hhi⟩ := h.exists_phase hbit
  have htotal := getTotalbuckets_mono hj'
  rw [h.bitnoToBlkno_eq hj hj' hlo hhi]
  unfold lastBlkno
  constructor <;> omega

end

/-! ## Stability -/

variable (h : metap.Addressed) (h' : metap'.Addressed) (hext : metap.Extends metap')
include h h' hext

theorem bucketToBlkno_extends {bucket : ℕ} (hb : bucket < getTotalbuckets metap.ovflpoint) :
    metap'.bucketToBlkno bucket = metap.bucketToBlkno bucket := by
  have hphase := spareindex_le_iff.mpr hb
  have hpos := h.point_pos
  have htotal := getTotalbuckets_mono hext.point
  rw [h.bucketToBlkno_eq (le_of_lt hb), h'.bucketToBlkno_eq (by omega),
    hext.below _ (by omega)]

theorem bitnoToBlkno_extends {bit : ℕ} (hbit : bit < metap.spares metap.ovflpoint) :
    metap'.bitnoToBlkno bit = metap.bitnoToBlkno bit := by
  obtain ⟨j, hj, hj', hlo, hhi⟩ := h.exists_phase hbit
  have hpoint := hext.point
  have hlo' : metap'.spares (j - 1) ≤ bit := by rwa [hext.below _ (by omega)]
  have hhi' : bit < metap'.spares j := by
    rcases eq_or_lt_of_le hj' with rfl | hlt
    · exact hhi.trans_le hext.current
    · rwa [hext.below _ hlt]
  rw [h.bitnoToBlkno_eq hj hj' hlo hhi, h'.bitnoToBlkno_eq hj (by omega) hlo' hhi']

end Addressed

end HashMeta

open HashMeta

/-- For every metapage that growth can produce, the blocks in use are exactly those of the buckets and of
the overflow pages, each of one only; the addresses can be inverted and never change. -/
theorem hash_addressing (dnumbuckets : ℚ) (bmshift : ℕ) (metap : HashMeta)
    (hrun : Relation.ReflTransGen Step (initMetabuffer dnumbuckets bmshift) metap) :
    let buckets := Set.Iio (getTotalbuckets metap.ovflpoint)
    let bits := Set.Iio (metap.spares metap.ovflpoint)
    (∃ k, metap.lowmask = 2 ^ k - 1 ∧ metap.highmask = 2 ^ (k + 1) - 1) ∧
    metap.lowmask ≤ metap.maxbucket ∧ metap.maxbucket ≤ metap.highmask ∧
    metap.maxbucket ∈ buckets ∧ metap.ovflpoint < maxSplitpoints ∧
    metap.lastBlkno < invalidBlockNumber ∧
    Set.InjOn metap.bucketToBlkno buckets ∧ Set.InjOn metap.bitnoToBlkno bits ∧
    Disjoint (metap.bucketToBlkno '' buckets) (metap.bitnoToBlkno '' bits) ∧
    metap.bucketToBlkno '' buckets ∪ metap.bitnoToBlkno '' bits = Set.Icc 1 metap.lastBlkno ∧
    (∀ bit ∈ bits, metap.ovflblknoToBitno (metap.bitnoToBlkno bit) = some bit) ∧
    (∀ bucket ∈ buckets, metap.ovflblknoToBitno (metap.bucketToBlkno bucket) = none) ∧
    (∀ metap', Relation.ReflTransGen Step metap metap' →
      (∀ bucket ∈ buckets, metap'.bucketToBlkno bucket = metap.bucketToBlkno bucket) ∧
      ∀ bit ∈ bits, metap'.bitnoToBlkno bit = metap.bitnoToBlkno bit) ∧
    ∀ metap', metap.expandtable = some metap' → metap'.ovflpoint ≤ metap.ovflpoint + 1 := by
  have h := ((addressed_init dnumbuckets bmshift).run hrun).1
  refine ⟨h.masks, h.low, h.high, h.bucket_lt, h.point_lt, h.last,
    h.bucketToBlkno_strictMonoOn.injOn, h.bitnoToBlkno_injOn, ?_, ?_,
    fun bit hbit => h.ovflblknoToBitno_bitno hbit, fun bucket hb => h.ovflblknoToBitno_bucket hb,
    ?_, fun metap' he => (h.expand he).2.2⟩
  · rw [Set.disjoint_left]
    rintro _ ⟨bucket, hb, rfl⟩ ⟨bit, hbit, heq⟩
    have hsome := h.ovflblknoToBitno_bitno hbit
    rw [heq, h.ovflblknoToBitno_bucket hb] at hsome
    cases hsome
  · ext blkno
    constructor
    · rintro (⟨bucket, hb, rfl⟩ | ⟨bit, hbit, rfl⟩)
      · exact h.bucketToBlkno_mem hb
      · exact h.bitnoToBlkno_mem hbit
    · rintro ⟨hpos, hle⟩
      exact h.exists_of_le le_rfl hpos hle
  · intro metap' hrun'
    obtain ⟨h', hext⟩ := h.run hrun'
    exact ⟨fun bucket hb => h.bucketToBlkno_extends h' hext hb,
      fun bit hbit => h.bitnoToBlkno_extends h' hext hbit⟩

/-- Two buckets and a third one. -/
theorem hash_addressing_three : ∃ metap, (initMetabuffer 2 15).expandtable = some metap ∧
    metap.bucketToBlkno '' Set.Iio (getTotalbuckets metap.ovflpoint) ∪
      metap.bitnoToBlkno '' Set.Iio (metap.spares metap.ovflpoint) =
        Set.Icc 1 metap.lastBlkno := by
  have hsome : (initMetabuffer 2 15).expandtable.isSome = true := by decide +kernel
  obtain ⟨metap, hmetap⟩ := Option.isSome_iff_exists.mp hsome
  have h := hash_addressing 2 15 metap (.single (.expand hmetap))
  exact ⟨metap, hmetap, h.2.2.2.2.2.2.2.2.2.1⟩

/-! ## The buckets of hash keys -/

def hashkey2bucket (hashkey : ℕ) (metap : HashMeta) : ℕ :=
  let bucket := hashkey &&& metap.highmask
  if metap.maxbucket < bucket then bucket &&& metap.lowmask else bucket

variable {metap metap' : HashMeta}

theorem hashkey2bucket_expand (h : metap.Addressed) (he : metap.expandtable = some metap')
    (hashkey : ℕ) : hashkey2bucket hashkey metap' = hashkey2bucket hashkey metap ∨
      metap'.maxbucket &&& metap.lowmask = hashkey2bucket hashkey metap := by
  obtain ⟨k, hlow, hhigh⟩ := h.masks
  have hpow : 2 ^ (k + 1) = 2 * 2 ^ k := pow_succ' 2 k
  have hlt := Nat.mod_lt hashkey (show 0 < 2 ^ (k + 1) by positivity)
  obtain ⟨-, hbucket, ⟨hlt', hlow', hhigh'⟩ | ⟨hle, hlow', hhigh'⟩, -⟩ := expandtable_cases he
  · -- the masks have one more bit, and the new bucket is the first one with it
    have hnew : metap.maxbucket + 1 = 2 ^ (k + 1) := by
      have := h.high
      omega
    have hmod : hashkey % 2 ^ (k + 2) % 2 ^ (k + 1) = hashkey % 2 ^ (k + 1) :=
      Nat.mod_mod_of_dvd _ (pow_dvd_pow 2 (Nat.le_succ _))
    rw [hhigh, lor_highmask (k := k) (by omega) hnew.le] at hhigh'
    simp only [hashkey2bucket, hlow', hhigh', hhigh, hlow, hbucket, hnew,
      Nat.and_two_pow_sub_one_eq_mod]
    rw [if_neg (show ¬ metap.maxbucket < hashkey % 2 ^ (k + 1) by omega)]
    split_ifs with hgt
    · exact .inl hmod
    · rcases Nat.lt_or_eq_of_le (not_lt.mp hgt) with hsmall | heq
      · exact .inl (by rwa [Nat.mod_eq_of_lt hsmall] at hmod)
      · rw [heq, Nat.mod_self] at hmod
        exact .inr (by rw [← hmod, hpow, Nat.mul_mod_left])
  · simp only [hashkey2bucket, hlow', hhigh', hhigh, hlow, hbucket, Nat.and_two_pow_sub_one_eq_mod]
    split_ifs with hgt hgt'
    · exact .inl rfl
    · omega
    · exact .inr (by rw [show hashkey % 2 ^ (k + 1) = metap.maxbucket + 1 by omega])
    · exact .inl rfl

/-- A hash key belongs to an existing bucket, and to the same one later unless an expansion has
split that bucket: a copy of the metapage is wrong only about buckets that were split since. -/
theorem hashkey2bucket_stable (dnumbuckets : ℚ) (bmshift hashkey : ℕ)
    (hrun : Relation.ReflTransGen Step (initMetabuffer dnumbuckets bmshift) metap)
    (hrun' : Relation.ReflTransGen Step metap metap') :
    hashkey2bucket hashkey metap ≤ metap.maxbucket ∧
    (hashkey2bucket hashkey metap' = hashkey2bucket hashkey metap ∨
      ∃ old new, Relation.ReflTransGen Step metap old ∧ old.expandtable = some new ∧
        Relation.ReflTransGen Step new metap' ∧
        new.maxbucket &&& old.lowmask = hashkey2bucket hashkey metap) := by
  have h := ((addressed_init dnumbuckets bmshift).run hrun).1
  constructor
  · unfold hashkey2bucket
    dsimp only
    split_ifs with hlt
    · exact Nat.and_le_right.trans h.low
    · exact not_lt.mp hlt
  induction hrun' with
  | refl => exact .inl rfl
  | tail hrun' hstep ih =>
    rcases ih with heq | ⟨old, new, hold, he, hnew, hsplit⟩
    · rw [← heq]
      cases hstep with
      | expand he =>
        exact (hashkey2bucket_expand (h.run hrun').1 he hashkey).imp_right
          fun hsplit => ⟨_, _, hrun', he, .refl, hsplit⟩
      | addovfl ha =>
        unfold addovflpage at ha
        split_ifs at ha <;> cases ha <;> exact .inl rfl
    · exact .inr ⟨old, new, hold, he, hnew.tail hstep, hsplit⟩

/-- Two buckets and a third one. -/
theorem hashkey2bucket_stable_three : ∃ metap, (initMetabuffer 2 15).expandtable = some metap ∧
    hashkey2bucket 1 (initMetabuffer 2 15) ≤ 1 := by
  have hsome : (initMetabuffer 2 15).expandtable.isSome = true := by decide +kernel
  obtain ⟨metap, hmetap⟩ := Option.isSome_iff_exists.mp hsome
  exact ⟨metap, hmetap, (hashkey2bucket_stable 2 15 1 .refl (.single (.expand hmetap))).1⟩

end PostgreSieve.HashIndex
