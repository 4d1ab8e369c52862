import Mathlib.Order.WellFounded
import PostgreSieve.Wal.Position

/-! # The conversions of positions are inverse to each other

The source computes them with 64-bit positions and 32-bit offsets in a segment.
-/

namespace PostgreSieve.Wal

open Nat

namespace Geometry

variable (g : Geometry)

/-- `IsValidWalSegSize`, for a power of two. -/
def ValidSegSize : Prop := 2 ^ 20 ≤ g.segSize ∧ g.segSize ≤ 2 ^ 30

/-- `XLogBytePosToRecPtr`; `seg_offset` has 32 bits. -/
def xLogBytePosToRecPtr (bytepos : ℕ) : ℕ :=
  let fullsegs := bytepos / g.usableBytesInSegment
  let bytesleft := bytepos % g.usableBytesInSegment
  let segOffset :=
    if bytesleft < g.blcksz - sizeOfXLogLongPHD then (bytesleft + sizeOfXLogLongPHD) % 2 ^ 32
    else
      let bytesleft := bytesleft - (g.blcksz - sizeOfXLogLongPHD)
      (g.blcksz + (bytesleft / g.usableBytesInPage * g.blcksz + bytesleft % g.usableBytesInPage +
        sizeOfXLogShortPHD)) % 2 ^ 32
  (fullsegs * g.segSize + segOffset) % 2 ^ 64

/-- `XLogBytePosToEndRecPtr`. -/
def xLogBytePosToEndRecPtr (bytepos : ℕ) : ℕ :=
  let fullsegs := bytepos / g.usableBytesInSegment
  let bytesleft := bytepos % g.usableBytesInSegment
  let segOffset :=
    if bytesleft < g.blcksz - sizeOfXLogLongPHD then
      if bytesleft = 0 then 0 else (bytesleft + sizeOfXLogLongPHD) % 2 ^ 32
    else
      let bytesleft := bytesleft - (g.blcksz - sizeOfXLogLongPHD)
      if bytesleft % g.usableBytesInPage = 0 then
        (g.blcksz + (bytesleft / g.usableBytesInPage * g.blcksz + bytesleft % g.usableBytesInPage))
          % 2 ^ 32
      else
        (g.blcksz + (bytesleft / g.usableBytesInPage * g.blcksz + bytesleft % g.usableBytesInPage +
          sizeOfXLogShortPHD)) % 2 ^ 32
  (fullsegs * g.segSize + segOffset) % 2 ^ 64

/-- `XLogRecPtrToBytePos`; `fullpages` and `offset` have 32 bits. -/
def xLogRecPtrToBytePos (ptr : ℕ) : ℕ :=
  let fullsegs := ptr / g.segSize
  let fullpages := g.segmentOffset ptr / g.blcksz % 2 ^ 32
  let offset := ptr % g.blcksz % 2 ^ 32
  if fullpages = 0 then
    (fullsegs * g.usableBytesInSegment + if 0 < offset then offset - sizeOfXLogLongPHD else 0)
      % 2 ^ 64
  else
    (fullsegs * g.usableBytesInSegment + (g.blcksz - sizeOfXLogLongPHD) +
      (fullpages - 1) * g.usableBytesInPage +
        if 0 < offset then offset - sizeOfXLogShortPHD else 0) % 2 ^ 64

/-- The first byte behind the header of a page. -/
def FirstOnPage (ptr : ℕ) : Prop := ptr % g.blcksz = g.headerSize (ptr / g.blcksz * g.blcksz)

variable {g}

/-! ## No overflow -/

theorem bytePosToRecPtr_lt {n : ℕ} (h : n < g.usableBytesInSegment) :
    g.bytePosToRecPtr n < g.segSize := by
  rw [← base_pages] at h
  obtain ⟨j, o, hj, ho, rfl⟩ := exists_page h
  have hp := (recPtr_place (q := 0) hj ho).1
  simp only [zero_mul, zero_add] at hp
  rw [hp, ← segSize_eq]
  have := mul_le_mul_right g.blcksz (succ_le_of_lt hj)
  rw [succ_mul] at this
  omega

theorem bytePosToEndRecPtr_le (n : ℕ) : g.bytePosToEndRecPtr n ≤ g.bytePosToRecPtr n := by
  simp only [bytePosToEndRecPtr, bytePosToRecPtr]
  split_ifs <;> omega

theorem xLogBytePosToRecPtr_eq (hg : g.ValidSegSize) (n : ℕ) :
    g.xLogBytePosToRecPtr n = g.bytePosToRecPtr n % 2 ^ 64 := by
  have hlt := mod_lt n g.usableBytesInSegment_pos
  have hseg := bytePosToRecPtr_lt hlt
  have hle := hg.2
  simp only [bytePosToRecPtr, div_eq_of_lt hlt, mod_mod, zero_mul, zero_add] at hseg
  simp only [xLogBytePosToRecPtr, bytePosToRecPtr]
  split_ifs at hseg ⊢ <;> rw [mod_eq_of_lt (b := 2 ^ 32) (by omega)]

theorem xLogBytePosToEndRecPtr_eq (hg : g.ValidSegSize) (n : ℕ) :
    g.xLogBytePosToEndRecPtr n = g.bytePosToEndRecPtr n % 2 ^ 64 := by
  have hlt := mod_lt n g.usableBytesInSegment_pos
  have hseg := (bytePosToEndRecPtr_le _).trans_lt (bytePosToRecPtr_lt hlt)
  have hle := hg.2
  simp only [bytePosToEndRecPtr, div_eq_of_lt hlt, mod_mod, zero_mul, zero_add]
    at hseg
  simp only [xLogBytePosToEndRecPtr, bytePosToEndRecPtr]
  split_ifs at hseg ⊢ <;> first | rfl | rw [mod_eq_of_lt (b := 2 ^ 32) (by omega)]

theorem xLogRecPtrToBytePos_eq (hg : g.ValidSegSize) (ptr : ℕ) :
    g.xLogRecPtrToBytePos ptr = g.recPtrToBytePos ptr % 2 ^ 64 := by
  have hpos := g.segSize_pos
  have hoff : ptr % g.blcksz % 2 ^ 32 = ptr % g.blcksz := by
    refine mod_eq_of_lt ((mod_lt _ g.blcksz_pos).trans_le ?_)
    exact (le_of_dvd hpos g.dvd).trans (hg.2.trans (by decide))
  have hpages : g.segmentOffset ptr / g.blcksz % 2 ^ 32 = g.segmentOffset ptr / g.blcksz := by
    refine mod_eq_of_lt ((div_le_self _ _).trans_lt ?_)
    rw [segmentOffset_eq]
    exact (mod_lt _ hpos).trans_le (hg.2.trans (by decide))
  simp only [xLogRecPtrToBytePos, recPtrToBytePos, hoff, hpages]
  split <;> rfl

/-! ## Both ways -/

theorem recPtrToBytePos_place {q j r : ℕ} (hj : j < g.pages) (hr : r < g.blcksz) :
    g.recPtrToBytePos ((q * g.pages + j) * g.blcksz + r) =
      q * g.usableBytesInSegment + (g.base j + if 0 < r then r - header j else 0) := by
  have hlt : j * g.blcksz + r < g.segSize := by
    have := mul_le_mul_right g.blcksz (succ_le_of_lt hj)
    rw [segSize_eq, succ_mul] at this
    omega
  have hptr : (q * g.pages + j) * g.blcksz + r = g.segSize * q + (j * g.blcksz + r) := by
    rw [← segSize_eq]
    ring
  have hseg : ((q * g.pages + j) * g.blcksz + r) / g.segSize = q := by
    rw [hptr, mul_add_div segSize_pos, div_eq_of_lt hlt, add_zero]
  have hpage : g.segmentOffset ((q * g.pages + j) * g.blcksz + r) / g.blcksz = j := by
    rw [segmentOffset_eq, hptr, mul_add_mod, mod_eq_of_lt hlt, pageStart_div _ _ hr]
  simp only [recPtrToBytePos, hseg, hpage, pageStart_mod _ _ hr]
  cases j with
  | zero => simp [base, header]
  | succ j => simp [base, header, add_assoc]

theorem recPtrToBytePos_bytePosToRecPtr (n : ℕ) : g.recPtrToBytePos (g.bytePosToRecPtr n) = n := by
  obtain ⟨q, j, o, hj, ho, rfl⟩ := exists_place (g := g) n
  have hpos : 0 < header j := by
    rw [header]
    split <;> decide
  rw [(recPtr_place hj ho).1, recPtrToBytePos_place hj (by omega), if_pos (by omega),
    Nat.add_sub_cancel_left]

theorem recPtrToBytePos_bytePosToEndRecPtr (n : ℕ) :
    g.recPtrToBytePos (g.bytePosToEndRecPtr n) = n := by
  obtain ⟨q, j, o, hj, ho, rfl⟩ := exists_place (g := g) n
  rw [(recPtr_place hj ho).2, recPtrToBytePos_place hj (by split <;> omega)]
  by_cases h0 : o = 0
  · simp [h0]
  · rw [if_neg h0, if_pos (by omega), Nat.add_sub_cancel_left]

theorem bytePosToEndRecPtr_strictMono : StrictMono g.bytePosToEndRecPtr := by
  refine strictMono_nat_of_lt_succ fun n => ?_
  rw [bytePosToEndRecPtr_succ]
  exact lt_succ_of_le (bytePosToEndRecPtr_le n)

theorem bytePosToEndRecPtr_cases (n : ℕ) :
    (g.FirstOnPage (g.bytePosToRecPtr n) → g.bytePosToEndRecPtr n +
        g.headerSize (g.bytePosToRecPtr n / g.blcksz * g.blcksz) = g.bytePosToRecPtr n) ∧
      (¬ g.FirstOnPage (g.bytePosToRecPtr n) → g.bytePosToEndRecPtr n = g.bytePosToRecPtr n) := by
  obtain ⟨q, j, o, hj, ho, rfl⟩ := exists_place (g := g) n
  have hr : header j + o < g.blcksz := by omega
  rw [FirstOnPage, (recPtr_place hj ho).1, (recPtr_place hj ho).2, pageStart_div _ _ hr,
    headerSize_page hj, pageStart_mod _ _ hr]
  split <;> omega

end Geometry

open Geometry

/-- The conversions of positions are inverse to each other and increasing, as long as the image of
the byte position has 64 bits. The end of a byte range is before the header of a page whose first
byte comes next. -/
theorem wal_positions_inverse (g : Geometry) (hg : g.ValidSegSize) (b : ℕ)
    (hb : g.bytePosToRecPtr b < 2 ^ 64) :
    let ptr := g.xLogBytePosToRecPtr b
    let endptr := g.xLogBytePosToEndRecPtr b
    g.xLogRecPtrToBytePos ptr = b ∧ g.xLogRecPtrToBytePos endptr = b ∧
      (∀ b' < b, g.xLogBytePosToRecPtr b' < ptr ∧ g.xLogBytePosToEndRecPtr b' < endptr) ∧
      endptr ≤ ptr ∧
      (g.FirstOnPage ptr → endptr + g.headerSize (ptr / g.blcksz * g.blcksz) = ptr) ∧
      (¬ g.FirstOnPage ptr → endptr = ptr) := by
  have hptr : ∀ b' ≤ b, g.xLogBytePosToRecPtr b' = g.bytePosToRecPtr b' := fun b' hle => by
    have := bytePosToRecPtr_strictMono.monotone (f := g.bytePosToRecPtr) hle
    rw [xLogBytePosToRecPtr_eq hg, mod_eq_of_lt (by omega)]
  have hend : ∀ b' ≤ b, g.xLogBytePosToEndRecPtr b' = g.bytePosToEndRecPtr b' := fun b' hle => by
    have := bytePosToRecPtr_strictMono.monotone (f := g.bytePosToRecPtr) hle
    have := bytePosToEndRecPtr_le (g := g) b'
    rw [xLogBytePosToEndRecPtr_eq hg, mod_eq_of_lt (by omega)]
  have hle : b ≤ g.bytePosToRecPtr b := bytePosToRecPtr_strictMono.le_apply
  have hmod : b % 2 ^ 64 = b := mod_eq_of_lt (hle.trans_lt hb)
  intro ptr endptr
  simp only [ptr, endptr, hptr b le_rfl, hend b le_rfl]
  refine ⟨?_, ?_, fun b' hlt => ?_, bytePosToEndRecPtr_le b,
    bytePosToEndRecPtr_cases b⟩
  · rw [xLogRecPtrToBytePos_eq hg, recPtrToBytePos_bytePosToRecPtr, hmod]
  · rw [xLogRecPtrToBytePos_eq hg, recPtrToBytePos_bytePosToEndRecPtr, hmod]
  · rw [hptr b' hlt.le, hend b' hlt.le]
    exact ⟨bytePosToRecPtr_strictMono hlt, bytePosToEndRecPtr_strictMono hlt⟩

/-- The first byte of the second page of a segment of 1 MB. -/
theorem wal_positions_inverse_page :
    let g : Geometry := ⟨8192, 2 ^ 20, by decide, by decide, 20, rfl⟩
    g.xLogRecPtrToBytePos (g.xLogBytePosToRecPtr 8152) = 8152 :=
  (wal_positions_inverse ⟨8192, 2 ^ 20, by decide, by decide, 20, rfl⟩ ⟨le_rfl, by decide⟩ 8152
    (by decide)).1

end PostgreSieve.Wal
