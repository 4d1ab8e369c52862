import Mathlib.Data.Nat.Prime.Basic
import Mathlib.Algebra.Order.Ring.Nat
import Mathlib.Data.Nat.Bits
import Mathlib.Tactic.Ring

/-! # Positions in the write-ahead log

The log is a sequence of pages, grouped into segments. Every page begins with a
header, and the first page of a segment has a longer one. A usable byte position
counts the bytes outside the headers. The conversions to physical positions are
given in closed form by the source; here they are shown to step from one byte to the
next as a writer does.
-/

namespace PostgreSieve.Wal

open Nat

def sizeOfXLogShortPHD : ℕ := 24

def sizeOfXLogLongPHD : ℕ := 40

def sizeOfXLogRecord : ℕ := 24

/-- `MAXALIGN`. -/
def maxAlign (n : ℕ) : ℕ := (n + 7) / 8 * 8

/-- `XLOG_BLCKSZ` and `wal_segment_size`. -/
structure Geometry where
  blcksz : ℕ
  segSize : ℕ
  header_lt : sizeOfXLogLongPHD < blcksz
  dvd : blcksz ∣ segSize
  pow : ∃ k, segSize = 2 ^ k

namespace Geometry

variable (g : Geometry)

/-- `XLogSegmentOffset`. -/
def segmentOffset (ptr : ℕ) : ℕ := ptr &&& (g.segSize - 1)

def usableBytesInPage : ℕ := g.blcksz - sizeOfXLogShortPHD

def usableBytesInSegment : ℕ :=
  g.segSize / g.blcksz * g.usableBytesInPage - (sizeOfXLogLongPHD - sizeOfXLogShortPHD)

/-- `XLogBytePosToRecPtr`. -/
def bytePosToRecPtr (bytepos : ℕ) : ℕ :=
  let fullsegs := bytepos / g.usableBytesInSegment
  let bytesleft := bytepos % g.usableBytesInSegment
  let segOffset :=
    if bytesleft < g.blcksz - sizeOfXLogLongPHD then bytesleft + sizeOfXLogLongPHD
    else
      let bytesleft := bytesleft - (g.blcksz - sizeOfXLogLongPHD)
      g.blcksz + (bytesleft / g.usableBytesInPage * g.blcksz + bytesleft % g.usableBytesInPage +
        sizeOfXLogShortPHD)
  fullsegs * g.segSize + segOffset

/-- `XLogBytePosToEndRecPtr`: a position at the start of a page is before its header. -/
def bytePosToEndRecPtr (bytepos : ℕ) : ℕ :=
  let fullsegs := bytepos / g.usableBytesInSegment
  let bytesleft := bytepos % g.usableBytesInSegment
  let segOffset :=
    if bytesleft < g.blcksz - sizeOfXLogLongPHD then
      if bytesleft = 0 then 0 else bytesleft + sizeOfXLogLongPHD
    else
      let bytesleft := bytesleft - (g.blcksz - sizeOfXLogLongPHD)
      if bytesleft % g.usableBytesInPage = 0 then
        g.blcksz + (bytesleft / g.usableBytesInPage * g.blcksz + bytesleft % g.usableBytesInPage)
      else
        g.blcksz + (bytesleft / g.usableBytesInPage * g.blcksz + bytesleft % g.usableBytesInPage +
          sizeOfXLogShortPHD)
  fullsegs * g.segSize + segOffset

/-- `XLogRecPtrToBytePos`. -/
def recPtrToBytePos (ptr : ℕ) : ℕ :=
  let fullsegs := ptr / g.segSize
  let fullpages := g.segmentOffset ptr / g.blcksz
  let offset := ptr % g.blcksz
  if fullpages = 0 then
    fullsegs * g.usableBytesInSegment + if 0 < offset then offset - sizeOfXLogLongPHD else 0
  else
    fullsegs * g.usableBytesInSegment + (g.blcksz - sizeOfXLogLongPHD) +
      (fullpages - 1) * g.usableBytesInPage + if 0 < offset then offset - sizeOfXLogShortPHD else 0

/-- The size of the header of the page that starts at `ptr`. -/
def headerSize (ptr : ℕ) : ℕ :=
  if g.segmentOffset ptr = 0 then sizeOfXLogLongPHD else sizeOfXLogShortPHD

/-- A byte outside the page headers. -/
def Usable (ptr : ℕ) : Prop := g.headerSize (ptr / g.blcksz * g.blcksz) ≤ ptr % g.blcksz

instance : DecidablePred g.Usable := fun _ => inferInstanceAs (Decidable (_ ≤ _))

/-- Where a writer at `ptr` puts the next byte: behind the header if a page starts there. -/
def skipHeader (ptr : ℕ) : ℕ := if ptr % g.blcksz = 0 then ptr + g.headerSize ptr else ptr

/-! ## Pages and segments -/

/-- The number of pages in a segment. -/
def pages : ℕ := g.segSize / g.blcksz

variable {g}

theorem blcksz_pos : 0 < g.blcksz := zero_lt_of_lt g.header_lt

theorem segSize_pos : 0 < g.segSize := by
  obtain ⟨k, hk⟩ := g.pow
  rw [hk]
  exact Nat.two_pow_pos k

theorem segSize_eq : g.pages * g.blcksz = g.segSize := Nat.div_mul_cancel g.dvd

theorem pages_pos : 0 < g.pages := div_pos (le_of_dvd segSize_pos g.dvd) blcksz_pos

theorem eight_dvd_blcksz : 8 ∣ g.blcksz := by
  obtain ⟨k, hk⟩ := g.pow
  obtain ⟨j, -, hj⟩ := (dvd_prime_pow prime_two).mp (hk ▸ g.dvd)
  have hlt : 2 ^ 3 < 2 ^ j := by
    rw [← hj]
    exact lt_trans (by decide) g.header_lt
  rw [hj]
  exact pow_dvd_pow 2 (Nat.pow_lt_pow_iff_right (by decide) |>.mp hlt).le

theorem segmentOffset_eq (ptr : ℕ) : g.segmentOffset ptr = ptr % g.segSize := by
  obtain ⟨k, hk⟩ := g.pow
  rw [segmentOffset, hk, and_two_pow_sub_one_eq_mod]

theorem segmentOffset_page (m : ℕ) : g.segmentOffset (m * g.blcksz) = m % g.pages * g.blcksz := by
  rw [segmentOffset_eq, ← segSize_eq, mul_mod_mul_right]

/-! ## Usable bytes page by page -/

variable (g) in
variable {j o : ℕ} {q j o : ℕ} {q j : ℕ} {n : ℕ}
/-- The usable bytes of a segment before its page `j`. -/
def base : ℕ → ℕ
  | 0 => 0
  | j + 1 => g.blcksz - sizeOfXLogLongPHD + j * g.usableBytesInPage

/-- The header size of page `j` of a segment. -/
def header (j : ℕ) : ℕ := if j = 0 then sizeOfXLogLongPHD else sizeOfXLogShortPHD

theorem header_lt_blcksz (j : ℕ) : header j < g.blcksz := by
  have := g.header_lt
  simp only [header, sizeOfXLogLongPHD, sizeOfXLogShortPHD] at *
  split <;> omega

theorem base_succ (j : ℕ) : g.base (j + 1) = g.base j + (g.blcksz - header j) := by
  cases j with
  | zero => simp [base, header]
  | succ j =>
    simp only [base, header, usableBytesInPage, Nat.add_eq_zero_iff, Nat.one_ne_zero, and_false,
      if_false, succ_mul]
    omega

theorem base_pages : g.base g.pages = g.usableBytesInSegment := by
  obtain ⟨p, hp⟩ : ∃ p, g.pages = p + 1 := ⟨g.pages - 1, by have := g.pages_pos; omega⟩
  have hlt := g.header_lt
  have hU : g.usableBytesInSegment =
      g.pages * g.usableBytesInPage - (sizeOfXLogLongPHD - sizeOfXLogShortPHD) := rfl
  rw [hU, hp, base, succ_mul]
  simp only [usableBytesInPage, sizeOfXLogLongPHD, sizeOfXLogShortPHD] at *
  omega

theorem exists_page {n P : ℕ} (h : n < g.base P) :
    ∃ j o, j < P ∧ o < g.blcksz - header j ∧ n = g.base j + o := by
  induction P with
  | zero => exact absurd h (not_lt_zero n)
  | succ P ih =>
    rw [base_succ] at h
    by_cases hn : n < g.base P
    · obtain ⟨j, o, hj, ho, he⟩ := ih hn
      exact ⟨j, o, by omega, ho, he⟩
    · exact ⟨P, n - g.base P, by omega, by omega, by omega⟩

theorem base_mono {j P : ℕ} (h : j ≤ P) : g.base j ≤ g.base P := by
  induction h with
  | refl => rfl
  | step _ ih => exact ih.trans (by rw [base_succ]; exact le_add_right _ _)

theorem base_add_lt (hj : j < g.pages) (ho : o < g.blcksz - header j) :
    g.base j + o < g.usableBytesInSegment := by
  have := base_mono (g := g) (succ_le_of_lt hj)
  rw [base_succ, base_pages] at this
  omega

theorem usableBytesInSegment_pos : 0 < g.usableBytesInSegment := by
  have hj := g.pages_pos
  have ho : 0 < g.blcksz - header 0 := Nat.sub_pos_of_lt (header_lt_blcksz 0)
  have := base_add_lt hj ho
  omega

/-- Every usable byte is byte `o` behind the header of page `j` of segment `q`. -/
theorem exists_place (n : ℕ) : ∃ q j o, j < g.pages ∧ o < g.blcksz - header j ∧
    n = q * g.usableBytesInSegment + (g.base j + o) := by
  have hlt := mod_lt n (g.usableBytesInSegment_pos)
  rw [← base_pages] at hlt
  obtain ⟨j, o, hj, ho, he⟩ := exists_page hlt
  refine ⟨n / g.usableBytesInSegment, j, o, hj, ho, ?_⟩
  rw [← he, base_pages, mul_comm]
  exact (div_add_mod _ _).symm

theorem place_div_mod (hj : j < g.pages) (ho : o < g.blcksz - header j) :
    (q * g.usableBytesInSegment + (g.base j + o)) / g.usableBytesInSegment = q ∧
      (q * g.usableBytesInSegment + (g.base j + o)) % g.usableBytesInSegment = g.base j + o := by
  have hlt := base_add_lt hj ho
  rw [mul_comm]
  exact ⟨by rw [mul_add_div usableBytesInSegment_pos, div_eq_of_lt hlt, Nat.add_zero],
    by rw [mul_add_mod, mod_eq_of_lt hlt]⟩

theorem left_div_mod (ho : o < g.blcksz - header (j + 1)) :
    ¬ g.base (j + 1) + o < g.blcksz - sizeOfXLogLongPHD ∧
      (g.base (j + 1) + o - (g.blcksz - sizeOfXLogLongPHD)) / g.usableBytesInPage = j ∧
      (g.base (j + 1) + o - (g.blcksz - sizeOfXLogLongPHD)) % g.usableBytesInPage = o := by
  have ho' : o < g.usableBytesInPage := ho
  have hleft : g.base (j + 1) + o - (g.blcksz - sizeOfXLogLongPHD) = g.usableBytesInPage * j + o := by
    rw [base, mul_comm]
    omega
  refine ⟨by rw [base]; omega, ?_, ?_⟩
  · rw [hleft, mul_add_div (by omega), div_eq_of_lt ho', Nat.add_zero]
  · rw [hleft, mul_add_mod, mod_eq_of_lt ho']

theorem recPtr_place (hj : j < g.pages) (ho : o < g.blcksz - header j) :
    g.bytePosToRecPtr (q * g.usableBytesInSegment + (g.base j + o)) =
      (q * g.pages + j) * g.blcksz + (header j + o) ∧
    g.bytePosToEndRecPtr (q * g.usableBytesInSegment + (g.base j + o)) =
      (q * g.pages + j) * g.blcksz + if o = 0 then 0 else header j + o := by
  obtain ⟨hd, hm⟩ := place_div_mod (q := q) hj ho
  simp only [bytePosToRecPtr, bytePosToEndRecPtr, hd, hm, ← segSize_eq]
  cases j with
  | zero =>
    have ho' : g.base 0 + o < g.blcksz - sizeOfXLogLongPHD := by simpa [base, header] using ho
    rw [if_pos ho', if_pos ho']
    simp only [base, header, if_true, zero_add]
    exact ⟨by ring, by split <;> ring⟩
  | succ j =>
    obtain ⟨hlt, hq, hr⟩ := left_div_mod ho
    rw [if_neg hlt, if_neg hlt, hq, hr]
    simp only [header, Nat.add_eq_zero_iff, Nat.one_ne_zero, and_false, if_false]
    refine ⟨by ring, ?_⟩
    split
    · rename_i h0
      subst h0
      ring
    · ring

/-! ## From byte to byte -/

theorem pageStart_mod (m r : ℕ) (hr : r < g.blcksz) : (m * g.blcksz + r) % g.blcksz = r := by
  rw [mul_comm, mul_add_mod, mod_eq_of_lt hr]

theorem pageStart_div (m r : ℕ) (hr : r < g.blcksz) : (m * g.blcksz + r) / g.blcksz = m := by
  rw [mul_comm, mul_add_div blcksz_pos, div_eq_of_lt hr, Nat.add_zero]

theorem headerSize_page (hj : j < g.pages) :
    g.headerSize ((q * g.pages + j) * g.blcksz) = header j := by
  have hm : (q * g.pages + j) % g.pages = j := by
    rw [mul_comm, mul_add_mod, mod_eq_of_lt hj]
  simp only [headerSize, header, segmentOffset_page, hm, mul_eq_zero, blcksz_pos.ne', or_false]

theorem skipHeader_page (hj : j < g.pages) :
    g.skipHeader ((q * g.pages + j) * g.blcksz) = (q * g.pages + j) * g.blcksz + header j := by
  rw [skipHeader, if_pos (mul_mod_left ..), headerSize_page hj]

theorem next_page (hj : j < g.pages) (ho : header j + (o + 1) = g.blcksz) :
    ∃ q' j', j' < g.pages ∧ q' * g.pages + j' = q * g.pages + j + 1 ∧
      q * g.usableBytesInSegment + (g.base j + o) + 1 =
        q' * g.usableBytesInSegment + (g.base j' + 0) := by
  have hlast : g.base j + o + 1 = g.base (j + 1) := by
    rw [base_succ]
    omega
  by_cases hp : j + 1 < g.pages
  · exact ⟨q, j + 1, hp, by omega, by omega⟩
  · have he : j + 1 = g.pages := by omega
    rw [he, base_pages] at hlast
    refine ⟨q + 1, 0, g.pages_pos, ?_, ?_⟩
    · rw [succ_mul]
      omega
    · rw [succ_mul, base]
      omega

theorem bytePosToEndRecPtr_succ (n : ℕ) :
    g.bytePosToEndRecPtr (n + 1) = g.bytePosToRecPtr n + 1 := by
  obtain ⟨q, j, o, hj, ho, rfl⟩ := exists_place (g := g) n
  rw [(recPtr_place hj ho).1]
  by_cases hlast : header j + (o + 1) = g.blcksz
  · obtain ⟨q', j', hj', hm, he⟩ := next_page (q := q) hj hlast
    rw [he, (recPtr_place hj' (Nat.sub_pos_of_lt (header_lt_blcksz j'))).2, if_pos rfl, hm, succ_mul]
    omega
  · rw [add_assoc, add_assoc (g.base j), (recPtr_place hj (by omega)).2, if_neg (succ_ne_zero o)]
    omega

theorem skipHeader_bytePosToEndRecPtr (n : ℕ) :
    g.skipHeader (g.bytePosToEndRecPtr n) = g.bytePosToRecPtr n := by
  obtain ⟨q, j, o, hj, ho, rfl⟩ := exists_place (g := g) n
  rw [(recPtr_place hj ho).1, (recPtr_place hj ho).2]
  split_ifs with h0
  · rw [Nat.add_zero, skipHeader_page hj, h0, Nat.add_zero]
  · rw [skipHeader, pageStart_mod _ _ (by omega), if_neg (by omega)]

/-- The next byte is behind the last one, or behind the header of the next page. -/
theorem bytePosToRecPtr_succ (n : ℕ) :
    g.bytePosToRecPtr (n + 1) = g.skipHeader (g.bytePosToRecPtr n + 1) := by
  rw [← skipHeader_bytePosToEndRecPtr, bytePosToEndRecPtr_succ]

theorem usable_bytePosToRecPtr (n : ℕ) : g.Usable (g.bytePosToRecPtr n) := by
  obtain ⟨q, j, o, hj, ho, rfl⟩ := exists_place (g := g) n
  have hr : header j + o < g.blcksz := by omega
  rw [(recPtr_place hj ho).1, Usable, pageStart_mod _ _ hr, pageStart_div _ _ hr, headerSize_page hj]
  exact le_add_right _ _

/-! ## The usable bytes of a range -/

/-- The usable bytes from `start` up to `stop`. -/
def usableBytes (g : Geometry) (start stop : ℕ) : List ℕ :=
  (List.range' start (stop - start)).filter fun p => g.Usable p

theorem headerSize_lt (ptr : ℕ) : g.headerSize ptr < g.blcksz := by
  have := g.header_lt
  simp only [headerSize, sizeOfXLogLongPHD, sizeOfXLogShortPHD] at *
  split <;> omega

theorem not_usable_of_lt_skipHeader {ptr p : ℕ} (h : ptr ≤ p) (hp : p < g.skipHeader ptr) :
    ¬ g.Usable p := by
  rw [skipHeader] at hp
  split at hp
  · rename_i h0
    obtain ⟨m, rfl⟩ : ∃ m, ptr = m * g.blcksz :=
      ⟨ptr / g.blcksz, (Nat.div_mul_cancel (Nat.dvd_of_mod_eq_zero h0)).symm⟩
    obtain ⟨r, rfl⟩ := Nat.exists_eq_add_of_le h
    have hr : r < g.headerSize (m * g.blcksz) := by omega
    have hr' := hr.trans (headerSize_lt _)
    rw [Usable, pageStart_div _ _ hr', pageStart_mod _ _ hr']
    omega
  · omega

theorem le_skipHeader (ptr : ℕ) : ptr ≤ g.skipHeader ptr := by
  rw [skipHeader]
  split <;> omega

theorem bytePosToRecPtr_strictMono : StrictMono g.bytePosToRecPtr := by
  refine strictMono_nat_of_lt_succ fun n => ?_
  rw [bytePosToRecPtr_succ]
  exact le_skipHeader (g.bytePosToRecPtr n + 1)

theorem usableBytes_append {a b c : ℕ} (hab : a ≤ b) (hbc : b ≤ c) :
    g.usableBytes a c = g.usableBytes a b ++ g.usableBytes b c := by
  have hr : List.range' a (c - a) = List.range' a (b - a) ++ List.range' b (c - b) := by
    have hb : b = a + (b - a) := by omega
    conv_rhs => rw [hb]
    rw [Nat.add_sub_cancel_left, List.range'_append_1]
    congr 1
    omega
  rw [usableBytes, hr, List.filter_append]
  rfl

theorem usableBytes_skipHeader (ptr : ℕ) : g.usableBytes ptr (g.skipHeader ptr) = [] := by
  rw [usableBytes, List.filter_eq_nil_iff]
  intro p hp
  have hm := List.mem_range'_1.mp hp
  simpa using not_usable_of_lt_skipHeader (g := g) hm.1 (by omega)

/-- The usable bytes of a range are those that the closed form counts off. -/
theorem usableBytes_eq_map (s n : ℕ) :
    g.usableBytes (g.bytePosToRecPtr s) (g.bytePosToEndRecPtr (s + n + 1)) =
      (List.range (n + 1)).map fun i => g.bytePosToRecPtr (s + i) := by
  have hone : ∀ k, g.usableBytes (g.bytePosToRecPtr k) (g.bytePosToRecPtr k + 1) =
      [g.bytePosToRecPtr k] := by
    simp [usableBytes, usable_bytePosToRecPtr]
  induction n with
  | zero =>
    rw [Nat.add_zero, bytePosToEndRecPtr_succ, hone]
    simp
  | succ n ih =>
    have hle : g.bytePosToRecPtr s ≤ g.bytePosToEndRecPtr (s + n + 1) := by
      rw [bytePosToEndRecPtr_succ]
      exact (bytePosToRecPtr_strictMono.monotone (le_add_right s n)).trans (le_succ _)
    have hnext : g.bytePosToRecPtr (s + (n + 1)) =
        g.skipHeader (g.bytePosToEndRecPtr (s + n + 1)) := (skipHeader_bytePosToEndRecPtr _).symm
    have hskip := le_skipHeader (g := g) (g.bytePosToEndRecPtr (s + n + 1))
    rw [bytePosToEndRecPtr_succ, usableBytes_append hle (by rw [hnext]; omega), ih,
      usableBytes_append hskip (by rw [hnext]; omega), usableBytes_skipHeader, ← hnext,
      hone, List.nil_append, List.range_succ (n := n + 1), List.map_append]
    rfl

/-! ## Alignment -/

theorem skipHeader_mod (ptr : ℕ) : g.skipHeader ptr % 8 = ptr % 8 := by
  rw [skipHeader, headerSize]
  simp only [sizeOfXLogLongPHD, sizeOfXLogShortPHD]
  split_ifs <;> omega

theorem bytePosToRecPtr_mod (n : ℕ) : g.bytePosToRecPtr n % 8 = n % 8 := by
  induction n with
  | zero =>
    have h := (recPtr_place (g := g) (q := 0) g.pages_pos
      (Nat.sub_pos_of_lt (header_lt_blcksz 0))).1
    simp only [zero_mul, zero_add, base, Nat.add_zero, header, if_true] at h
    rw [h]
    rfl
  | succ n ih =>
    rw [bytePosToRecPtr_succ, skipHeader_mod]
    omega

theorem bytePosToEndRecPtr_mod (hn : 0 < n) : g.bytePosToEndRecPtr n % 8 = n % 8 := by
  obtain ⟨m, rfl⟩ : ∃ m, n = m + 1 := ⟨n - 1, by omega⟩
  rw [bytePosToEndRecPtr_succ]
  have := g.bytePosToRecPtr_mod m
  omega

theorem bytePosToEndRecPtr_add {n d : ℕ} (hn : 0 < n) (hd : n + d ≤ maxAlign n) :
    g.bytePosToEndRecPtr (n + d) = g.bytePosToEndRecPtr n + d := by
  induction d with
  | zero => rfl
  | succ d ih =>
    have hmod : (n + d) % 8 ≠ 0 := by
      rw [maxAlign] at hd
      omega
    have hpage : g.bytePosToEndRecPtr (n + d) % g.blcksz ≠ 0 := by
      intro h0
      have h8 := eight_dvd_blcksz.trans (Nat.dvd_of_mod_eq_zero h0)
      have := g.bytePosToEndRecPtr_mod (show 0 < n + d by omega)
      omega
    have hnext : g.bytePosToRecPtr (n + d) = g.bytePosToEndRecPtr (n + d) := by
      rw [← skipHeader_bytePosToEndRecPtr, skipHeader, if_neg hpage]
    rw [← add_assoc, bytePosToEndRecPtr_succ, hnext, ih (by omega)]
    rfl

theorem bytePosToEndRecPtr_maxAlign (hn : 0 < n) :
    g.bytePosToEndRecPtr (maxAlign n) = maxAlign (g.bytePosToEndRecPtr n) := by
  have hmod := g.bytePosToEndRecPtr_mod hn
  have hle : n ≤ maxAlign n := by
    rw [maxAlign]
    omega
  have h := bytePosToEndRecPtr_add (g := g) (d := maxAlign n - n) hn (by omega)
  rw [Nat.add_sub_cancel' hle] at h
  rw [h]
  simp only [maxAlign] at hle ⊢
  omega

end Geometry

end PostgreSieve.Wal
