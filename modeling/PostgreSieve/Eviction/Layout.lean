import Mathlib.Order.CompletePartialOrder
import Mathlib.Order.Interval.Set.Disjoint
import PostgreSieve.Eviction.Lfu

/-! # The shared memory of the policies

`StrategyInitialize` allocates one block for whatever policy is active. Sizes are computed in `int`
and `size_t`; an expression that overflows has no value here.
-/

namespace PostgreSieve.Layout

open Option

def intMax : ℕ := 2 ^ 31 - 1

/-- The value of an `int` expression, unless it overflows. -/
def int (x : ℤ) : Option ℤ := if -(2 ^ 31) ≤ x ∧ x < 2 ^ 31 then some x else none

/-- The value of a `size_t` expression, unless it overflows. -/
def size (x : ℕ) : Option ℕ := if x < 2 ^ 64 then some x else none

/-- The conversion of an `int` to `size_t`. -/
def toSize (x : ℤ) : ℕ := (x % 2 ^ 64).toNat

def maxAlign (x : ℕ) : Option ℕ := do
  let x ← size (x + 7)
  some (x / 8 * 8)

def sizeofInt32 : ℕ := 4
def sizeofBufferStrategyCommon : ℕ := 20
def sizeofClockSweepState : ℕ := 4
def sizeofSieveState : ℕ := 8
def sizeofLRUState : ℕ := 4
def sizeofLFUState : ℕ := 8

/-! ## The lookup table -/

def numBufferPartitions : ℕ := 128
def defSegsize : ℕ := 256
def defDirsize : ℕ := 256
def sizeofHashhdr : ℕ := 856
def sizeofPointer : ℕ := 8

/-- `sizeof(HASHELEMENT) + sizeof(BufferLookupEnt)`, both aligned. -/
def elementSize : ℕ := 16 + 24

/-- `choose_nelem_alloc` for entries of this size. -/
def elementAllocCnt : ℕ := 2048 / elementSize

def ceilLog2 (num : ℕ) : ℕ := if num < 2 then 0 else Nat.log2 (num - 1) + 1

def nextPow2 (num : ℕ) : ℕ := 2 ^ ceilLog2 num

/-- `hash_estimate_size` for entries of type `BufferLookupEnt`. -/
def bufTableShmemSize (numEntries : ℕ) : Option ℕ := do
  let nBuckets := nextPow2 numEntries
  let nSegments := nextPow2 ((nBuckets - 1) / defSegsize + 1)
  let nDirEntries := max defDirsize nSegments
  let nElementAllocs := (numEntries - 1) / elementAllocCnt + 1
  let total ← maxAlign sizeofHashhdr
  let total ← size (total + (← size (nDirEntries * sizeofPointer)))
  let total ← size (total + (← size (nSegments * (← maxAlign (defSegsize * sizeofPointer)))))
  size (total + (← size (nElementAllocs * (← size (elementAllocCnt * elementSize)))))

/-! ## The policies -/

/-- The size of a struct with the arrays `Next` and `Prev` behind it. -/
def listShmemSize (state : ℕ) (n : ℤ) : Option ℕ := do
  let entries ← int (2 * (← int (n + 1)))
  size (state + (← size (toSize entries * sizeofInt32)))

def sieveShmemSize (n : ℤ) : Option ℕ := listShmemSize sizeofSieveState n

def lruShmemSize (n : ℤ) : Option ℕ := listShmemSize sizeofLRUState n

def lfuShmemSize (n : ℤ) : Option ℕ := do
  let freq ← size (sizeofLFUState + (← size (toSize n * sizeofInt32)))
  let entries ← int (2 * (← int (n + Lfu.maxFreq)))
  size (freq + (← size (toSize entries * sizeofInt32)))

/-- The size of the block that `StrategyInitialize` allocates. -/
def blockSize (n : ℤ) : Option ℕ := do
  let policy := max sizeofClockSweepState
    (max (← sieveShmemSize n) (max (← lfuShmemSize n) (← lruShmemSize n)))
  maxAlign (← size (sizeofBufferStrategyCommon + policy))

def strategyShmemSize (n : ℤ) : Option ℕ := do
  let table ← bufTableShmemSize (toSize (← int (n + numBufferPartitions)))
  size (table + (← blockSize n))

/-- An array of type `int32` in the block. -/
structure Span where
  start : ℕ
  entries : ℕ

/-- The byte behind an array. -/
def Span.stop (a : Span) : ℕ := a.start + a.entries * sizeofInt32

def Span.bytes (a : Span) : Set ℕ := Set.Ico a.start a.stop

/-- `Next` and `Prev` behind a struct, as `SieveInitialize` and `LRUInitialize` set them up. -/
def listArrays (state n : ℕ) : List Span :=
  let next : Span := ⟨sizeofBufferStrategyCommon + state, n + 1⟩
  [next, ⟨next.stop, n + 1⟩]

def sieveArrays (n : ℕ) : List Span := listArrays sizeofSieveState n

def lruArrays (n : ℕ) : List Span := listArrays sizeofLRUState n

/-- `LFUFreq`, `LFUNext` and `LFUPrev`, as `LFUInitialize` sets them up. -/
def lfuArrays (n : ℕ) : List Span :=
  let freq : Span := ⟨sizeofBufferStrategyCommon + sizeofLFUState, n⟩
  let next : Span := ⟨freq.stop, n + Lfu.maxFreq⟩
  [freq, next, ⟨next.stop, n + Lfu.maxFreq⟩]

/-- The arrays lie apart from each other in a block of this size. -/
def Fits (block : ℕ) (arrays : List Span) : Prop :=
  arrays.Pairwise (fun a b => Disjoint a.bytes b.bytes) ∧ ∀ a ∈ arrays, a.bytes ⊆ Set.Iio block

section Values

variable {x n state : ℕ}
variable {block : ℕ}

theorem int_of_le (h : x ≤ intMax) : int x = some (x : ℤ) := by
  rw [intMax] at h
  exact if_pos (by omega)

theorem size_of_le (h : x ≤ 2 ^ 63) : size x = some x := if_pos (by omega)

theorem toSize_of_le (h : x ≤ intMax) : toSize x = x := by
  rw [intMax] at h
  rw [toSize, Int.emod_eq_of_lt (by omega) (by omega), Int.toNat_natCast]

theorem maxAlign_of_le (h : x ≤ 2 ^ 62) : ∃ y, maxAlign x = some y ∧ x ≤ y ∧ y ≤ x + 7 := by
  refine ⟨(x + 7) / 8 * 8, ?_, by omega, by omega⟩
  rw [maxAlign, size_of_le (by omega)]
  rfl

theorem nextPow2_le {k : ℕ} (h : x ≤ 2 ^ k) : nextPow2 x ≤ 2 ^ k := by
  refine Nat.pow_le_pow_right (by decide) ?_
  rw [ceilLog2]
  split_ifs with hx
  · exact Nat.zero_le k
  · exact (Nat.log2_lt (by omega)).mpr (by omega)

theorem bufTableShmemSize_of_le (h : x ≤ 2 ^ 31) :
    ∃ y ≤ 2 ^ 60, bufTableShmemSize x = some y := by
  have hbuckets := nextPow2_le h
  have hsegments : nextPow2 ((nextPow2 x - 1) / defSegsize + 1) ≤ 2 ^ 31 :=
    nextPow2_le (by simp only [defSegsize]; omega)
  have hallocs : (x - 1) / elementAllocCnt + 1 ≤ 2 ^ 32 := by
    have := Nat.div_le_self (x - 1) elementAllocCnt
    omega
  have hheader : maxAlign sizeofHashhdr = some 856 := rfl
  have hsegment : maxAlign (defSegsize * sizeofPointer) = some 2048 := rfl
  have helements : size (elementAllocCnt * elementSize) = some 2040 := rfl
  simp only [bufTableShmemSize, hheader, hsegment, helements, bind_eq_bind,
    bind_some]
  generalize nextPow2 ((nextPow2 x - 1) / defSegsize + 1) = segments at hsegments ⊢
  have hdir : max defDirsize segments * sizeofPointer ≤ 2 ^ 34 := by
    rw [defDirsize, sizeofPointer]
    omega
  simp (disch := omega) only [size_of_le, bind_some]
  exact ⟨_, by omega, rfl⟩

theorem twice_of_le {m : ℕ} (h : 2 * (n + m) ≤ intMax) :
    ((int (n + m)).bind fun s => int (2 * s)) = some ((2 * (n + m) : ℕ) : ℤ) := by
  have hsum : int ((n : ℤ) + m) = some ((n + m : ℕ) : ℤ) := by
    exact_mod_cast int_of_le (x := n + m) (by omega)
  have hdouble : int (2 * ((n + m : ℕ) : ℤ)) = some ((2 * (n + m) : ℕ) : ℤ) := by
    exact_mod_cast int_of_le h
  rw [hsum, bind_some, hdouble]

theorem listShmemSize_of_le (hn : 2 * (n + 1) ≤ intMax) (hstate : state ≤ sizeofSieveState) :
    listShmemSize state n = some (state + 2 * (n + 1) * sizeofInt32) := by
  have hbytes : 2 * (n + 1) * sizeofInt32 ≤ 2 ^ 34 := by
    simp only [sizeofInt32, intMax] at *
    omega
  rw [sizeofSieveState] at hstate
  have htwice : ((int ((n : ℤ) + 1)).bind fun s => int (2 * s)) = some ((2 * (n + 1) : ℕ) : ℤ) :=
    twice_of_le hn
  simp only [listShmemSize, bind_eq_bind]
  rw [← bind_assoc, htwice, bind_some, toSize_of_le hn]
  simp (disch := omega) only [size_of_le, bind_some]

theorem lfuShmemSize_of_le (hn : 2 * (n + Lfu.maxFreq) ≤ intMax) :
    lfuShmemSize n = some (sizeofLFUState + n * sizeofInt32 +
      2 * (n + Lfu.maxFreq) * sizeofInt32) := by
  unfold lfuShmemSize
  generalize Lfu.maxFreq = m at hn ⊢
  simp only [bind_eq_bind]
  have hbytes : sizeofLFUState + n * sizeofInt32 + 2 * (n + m) * sizeofInt32 ≤ 2 ^ 34 := by
    simp only [sizeofInt32, sizeofLFUState, intMax] at *
    omega
  rw [toSize_of_le (by omega), size_of_le (by omega), bind_some, size_of_le (by omega),
    bind_some, ← bind_assoc, twice_of_le hn, bind_some, toSize_of_le hn]
  simp (disch := omega) only [size_of_le, bind_some]

theorem blockSize_of_le (hn : 2 * (n + Lfu.maxFreq) ≤ intMax) :
    ∃ block ≤ 2 ^ 40, blockSize n = some block ∧
      sizeofBufferStrategyCommon + sizeofSieveState + 2 * (n + 1) * sizeofInt32 ≤ block ∧
      sizeofBufferStrategyCommon + sizeofLFUState + n * sizeofInt32 +
        2 * (n + Lfu.maxFreq) * sizeofInt32 ≤ block := by
  have hlist : 2 * (n + 1) ≤ intMax := by
    rw [Lfu.maxFreq] at hn
    omega
  have hbytes : 3 * (n + Lfu.maxFreq) * sizeofInt32 ≤ 2 ^ 34 := by
    simp only [sizeofInt32, intMax] at *
    omega
  have hsieve : sieveShmemSize n = _ := listShmemSize_of_le hlist le_rfl
  have hlru : lruShmemSize n = _ := listShmemSize_of_le hlist (by decide)
  simp only [blockSize, hsieve, hlru, lfuShmemSize_of_le hn, bind_eq_bind,
    bind_some]
  generalize Lfu.maxFreq = m at hbytes ⊢
  simp only [sizeofBufferStrategyCommon, sizeofClockSweepState, sizeofSieveState, sizeofLRUState,
    sizeofLFUState, sizeofInt32] at hbytes ⊢
  rw [size_of_le (by omega), bind_some]
  obtain ⟨y, hy, hle, hle'⟩ := maxAlign_of_le (x := 20 + max 4 (max (8 + 2 * (n + 1) * 4)
    (max (8 + n * 4 + 2 * (n + m) * 4) (4 + 2 * (n + 1) * 4)))) (by omega)
  exact ⟨y, by omega, hy, by omega, by omega⟩

theorem disjoint_bytes {a b : Span} (h : a.stop ≤ b.start) : Disjoint a.bytes b.bytes :=
  Set.disjoint_left.mpr fun _ ha hb => (ha.2.trans_le h).not_ge hb.1

theorem Fits.cons {a : Span} {arrays : List Span} (hstop : a.stop ≤ block)
    (hstart : ∀ b ∈ arrays, a.stop ≤ b.start) (h : Fits block arrays) :
    Fits block (a :: arrays) :=
  ⟨h.1.cons fun b hb => disjoint_bytes (hstart b hb),
    List.forall_mem_cons.mpr ⟨fun _ hx => hx.2.trans_le hstop, h.2⟩⟩

theorem fits_nil : Fits block [] := ⟨.nil, by simp⟩

theorem fits_listArrays
    (h : sizeofBufferStrategyCommon + state + 2 * (n + 1) * sizeofInt32 ≤ block) :
    Fits block (listArrays state n) := by
  rw [sizeofInt32] at h
  refine .cons ?_ ?_ (.cons ?_ (by simp) fits_nil) <;> simp [Span.stop, sizeofInt32]
  all_goals omega

theorem fits_lfuArrays (h : sizeofBufferStrategyCommon + sizeofLFUState +
      n * sizeofInt32 + 2 * (n + Lfu.maxFreq) * sizeofInt32 ≤ block) :
    Fits block (lfuArrays n) := by
  rw [sizeofInt32] at h
  refine .cons ?_ ?_ (.cons ?_ ?_ (.cons ?_ (by simp) fits_nil)) <;> simp [Span.stop, sizeofInt32]
  all_goals omega

end Values

end PostgreSieve.Layout
