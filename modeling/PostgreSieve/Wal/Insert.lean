import PostgreSieve.Runs.Basic
import PostgreSieve.Wal.Position

/-! # Inserting a record into the write-ahead log

An inserter first reserves space, counted in usable bytes, and then copies the
chunks of its record page by page, stepping over the page headers. What it copies
comes to the end of what it reserved.
-/

namespace PostgreSieve

open List Nat

namespace Wal

/-- `CurrBytePos` and `PrevBytePos` of `XLogCtlInsert`. -/
structure Insert where
  currBytePos : ℕ
  prevBytePos : ℕ
  deriving DecidableEq

structure Reservation where
  startPos : ℕ
  endPos : ℕ
  prevPtr : ℕ
  deriving DecidableEq

/-- `ReserveXLogInsertLocation`. -/
def reserveXLogInsertLocation (g : Geometry) (ins : Insert) (size : ℕ) : Reservation × Insert :=
  let startbytepos := ins.currBytePos
  let endbytepos := startbytepos + maxAlign size
  (⟨g.bytePosToRecPtr startbytepos, g.bytePosToEndRecPtr endbytepos,
    g.bytePosToRecPtr ins.prevBytePos⟩, ⟨endbytepos, startbytepos⟩)

/-- The results of `ReserveXLogSwitch`; without an insertion `PrevPtr` is not set. -/
structure SwitchReservation where
  inserted : Bool
  startPos : ℕ
  endPos : ℕ
  prevPtr : Option ℕ
  deriving DecidableEq

/-- `ReserveXLogSwitch`. -/
def reserveXLogSwitch (g : Geometry) (ins : Insert) : SwitchReservation × Insert :=
  let startbytepos := ins.currBytePos
  let ptr := g.bytePosToEndRecPtr startbytepos
  if g.segmentOffset ptr = 0 then (⟨false, ptr, ptr, none⟩, ins)
  else
    let endbytepos := startbytepos + maxAlign sizeOfXLogRecord
    let endPos := g.bytePosToEndRecPtr endbytepos
    let segleft := g.segSize - g.segmentOffset endPos
    let (endPos, endbytepos) :=
      if segleft ≠ g.segSize then (endPos + segleft, g.recPtrToBytePos (endPos + segleft))
      else (endPos, endbytepos)
    (⟨true, g.bytePosToRecPtr startbytepos, endPos, some (g.bytePosToRecPtr ins.prevBytePos)⟩,
      ⟨endbytepos, startbytepos⟩)

/-- `INSERT_FREESPACE`. -/
def insertFreespace (g : Geometry) (endptr : ℕ) : ℕ :=
  if endptr % g.blcksz = 0 then 0 else g.blcksz - endptr % g.blcksz

/-- The variables of `CopyXLogRecordToWAL`, and what it has stored: record bytes, the field
`xlp_rem_len` of page headers, and cleared page headers, with their positions. -/
structure Copy where
  rdata : List (List UInt8)
  currPos : ℕ
  freespace : ℕ
  written : ℕ
  bytes : List (ℕ × UInt8)
  remLens : List (ℕ × ℕ)
  zeroed : List ℕ
  deriving DecidableEq

/-- `memcpy` of a chunk to consecutive positions. -/
def place (ptr : ℕ) (data : List UInt8) : List (ℕ × UInt8) := (List.range' ptr data.length).zip data

/-- A round of the loops over the chunks: fill the page and go to the next one, or finish the
chunk. -/
def copyStep (g : Geometry) (writeLen : ℕ) (c : Copy) : Copy ⊕ Copy :=
  match c.rdata with
  | [] => .inr c
  | data :: next =>
    if c.freespace < data.length then
      let page := c.currPos + c.freespace
      let written := c.written + c.freespace
      let currPos := page +
        if g.segmentOffset page = 0 then sizeOfXLogLongPHD else sizeOfXLogShortPHD
      .inl { c with
        rdata := data.drop c.freespace :: next
        currPos := currPos
        freespace := insertFreespace g currPos
        written := written
        bytes := c.bytes ++ place c.currPos (data.take c.freespace)
        remLens := c.remLens ++ [(page, writeLen - written)] }
    else
      .inl { c with
        rdata := next
        currPos := c.currPos + data.length
        freespace := c.freespace - data.length
        written := c.written + data.length
        bytes := c.bytes ++ place c.currPos data }

/-- A round of the loop that uses up the pages of the segment after an xlog-switch record. -/
def flushStep (g : Geometry) (endPos : ℕ) (c : Copy) : Copy ⊕ Copy :=
  if c.currPos < endPos then
    .inl { c with currPos := c.currPos + g.blcksz, zeroed := c.zeroed ++ [c.currPos] }
  else .inr c

/-- `CopyXLogRecordToWAL`, with at most `fuel` rounds of each loop. -/
def copyXLogRecordToWAL (g : Geometry) (fuel writeLen : ℕ) (isLogSwitch : Bool)
    (rdata : List (List UInt8)) (startPos endPos : ℕ) : Option (Except String Copy) := do
  let c ← iterate (copyStep g writeLen) fuel
    ⟨rdata, startPos, insertFreespace g startPos, 0, [], [], []⟩
  let c ←
    if isLogSwitch && g.segmentOffset c.currPos ≠ 0 then
      iterate (flushStep g endPos) fuel { c with currPos := c.currPos + c.freespace }
    else some { c with currPos := maxAlign c.currPos }
  if c.currPos ≠ endPos then
    some (.error "space reserved for WAL record does not match what was written")
  else some (.ok c)

/-! ## The loop over the chunks -/

section Loop

variable {g : Geometry} {s k n : ℕ} {all : List UInt8} {c c' : Copy}

variable {p m : ℕ} {data : List UInt8} {writeLen : ℕ}

theorem add_mod_of_lt (hm : m < insertFreespace g p) :
    (p + m) % g.blcksz = p % g.blcksz + m := by
  have hlt : p % g.blcksz + m < g.blcksz := by
    rw [insertFreespace] at hm
    split at hm <;> omega
  rw [← mod_add_mod, mod_eq_of_lt hlt]

theorem insertFreespace_add (hm : m ≤ insertFreespace g p) :
    insertFreespace g (p + m) = insertFreespace g p - m := by
  rcases hm.lt_or_eq with hlt | rfl
  · have hmod := add_mod_of_lt hlt
    rw [insertFreespace, hmod]
    rw [insertFreespace] at hlt ⊢
    split at hlt
    · omega
    · rename_i h0
      rw [if_neg (by omega), if_neg h0]
      omega
  · have hpage : (p + insertFreespace g p) % g.blcksz = 0 := by
      rw [insertFreespace]
      split
      · rwa [add_zero]
      · have hd := div_add_mod p g.blcksz
        have hlt := mod_lt p g.blcksz_pos
        have he : p + (g.blcksz - p % g.blcksz) = g.blcksz * (p / g.blcksz + 1) := by
          rw [Nat.mul_add]
          omega
        rw [he, mul_mod_right]
    rw [insertFreespace, if_pos hpage, Nat.sub_self]

theorem bytePosToRecPtr_add {i : ℕ} (hi : i < insertFreespace g (g.bytePosToRecPtr n)) :
    g.bytePosToRecPtr (n + i) = g.bytePosToRecPtr n + i := by
  induction i with
  | zero => rfl
  | succ i ih =>
    have hne : (g.bytePosToRecPtr n + (i + 1)) % g.blcksz ≠ 0 := by
      rw [add_mod_of_lt hi]
      omega
    rw [← add_assoc, Geometry.bytePosToRecPtr_succ, ih (by omega), add_assoc,
      Geometry.skipHeader, if_neg hne]

theorem bytePosToEndRecPtr_add_of_le (hm : m ≤ insertFreespace g (g.bytePosToRecPtr n)) (h0 : 0 < m) :
    g.bytePosToEndRecPtr (n + m) = g.bytePosToRecPtr n + m := by
  obtain ⟨i, rfl⟩ : ∃ i, m = i + 1 := ⟨m - 1, by omega⟩
  rw [← add_assoc, Geometry.bytePosToEndRecPtr_succ, bytePosToRecPtr_add (by omega)]
  rfl

/-- After `k` bytes of the record: they stand at the first usable bytes, and the position is the
end of them, or that of the next byte if there is one. -/
structure Copied (g : Geometry) (s : ℕ) (all : List UInt8) (c : Copy) : Prop where
  le : c.written ≤ all.length
  rest : c.rdata.flatten = all.drop c.written
  bytes : c.bytes = ((List.range c.written).map fun i => g.bytePosToRecPtr (s + i)).zip
    (all.take c.written)
  freespace : c.freespace = insertFreespace g c.currPos
  currPos : 0 < s + c.written ∧ c.currPos = g.bytePosToEndRecPtr (s + c.written) ∨
    c.rdata.flatten ≠ [] ∧ c.currPos = g.bytePosToRecPtr (s + c.written)

theorem Copied.currPos_eq (h : Copied g s all c) (hf : 0 < c.freespace) :
    c.currPos = g.bytePosToRecPtr (s + c.written) := by
  rcases h.currPos with ⟨hpos, he⟩ | ⟨-, he⟩
  · have hne : c.currPos % g.blcksz ≠ 0 := by
      intro h0
      rw [h.freespace, insertFreespace, if_pos h0] at hf
      exact lt_irrefl 0 hf
    rw [← Geometry.skipHeader_bytePosToEndRecPtr, ← he, Geometry.skipHeader, if_neg hne]
  · exact he

theorem place_eq (hm : data.length ≤ insertFreespace g (g.bytePosToRecPtr n)) :
    place (g.bytePosToRecPtr n) data =
      ((List.range data.length).map fun i => g.bytePosToRecPtr (n + i)).zip data := by
  rw [place]
  congr 1
  rw [List.range'_eq_map_range]
  refine map_congr_left fun i hi => ?_
  rw [bytePosToRecPtr_add ((mem_range.mp hi).trans_le hm)]

/-- Storing bytes at the next usable positions continues what is stored. -/
theorem Copied.store {tail : List UInt8} (h : Copied g s all c)
    (hdata : all.drop c.written = data ++ tail) (hm : data.length ≤ c.freespace) :
    c.bytes ++ place c.currPos data =
      ((List.range (c.written + data.length)).map fun i => g.bytePosToRecPtr (s + i)).zip
        (all.take (c.written + data.length)) := by
  have hplace : place c.currPos data =
      ((List.range data.length).map fun i => g.bytePosToRecPtr (s + (c.written + i))).zip data := by
    cases data with
    | nil => rfl
    | cons b data =>
      have hpos : c.currPos = g.bytePosToRecPtr (s + c.written) :=
        h.currPos_eq (lt_of_lt_of_le (succ_pos _) hm)
      rw [h.freespace, hpos] at hm
      rw [hpos, place_eq hm]
      simp only [add_assoc]
  have htake : all.take (c.written + data.length) = all.take c.written ++ data := by
    rw [take_add, hdata, take_left]
  have hlen : ((List.range c.written).map fun i => g.bytePosToRecPtr (s + i)).length =
      (all.take c.written).length := by
    rw [length_map, length_range, length_take, min_eq_left h.le]
  rw [h.bytes, hplace, htake, range_add, map_append, zip_append hlen, map_map]
  rfl

theorem insertFreespace_pos (n : ℕ) : 0 < insertFreespace g (g.bytePosToRecPtr n) := by
  have hu := g.usable_bytePosToRecPtr n
  have hlt := mod_lt (g.bytePosToRecPtr n) g.blcksz_pos
  have hpos : 0 < g.bytePosToRecPtr n % g.blcksz := by
    refine lt_of_lt_of_le ?_ hu
    rw [Geometry.headerSize]
    split <;> decide
  rw [insertFreespace, if_neg hpos.ne']
  omega

theorem Copied.nextPage (h : Copied g s all c) :
    let page := c.currPos + c.freespace
    page + (if g.segmentOffset page = 0 then sizeOfXLogLongPHD else sizeOfXLogShortPHD) =
      g.bytePosToRecPtr (s + (c.written + c.freespace)) := by
  have hpage : insertFreespace g (c.currPos + c.freespace) = 0 := by
    rw [h.freespace, insertFreespace_add le_rfl, Nat.sub_self]
  have hmod : (c.currPos + c.freespace) % g.blcksz = 0 := by
    by_contra hne
    rw [insertFreespace, if_neg hne] at hpage
    have := mod_lt (c.currPos + c.freespace) g.blcksz_pos
    omega
  have hend : c.currPos + c.freespace = g.bytePosToEndRecPtr (s + (c.written + c.freespace)) := by
    rcases Nat.eq_zero_or_pos c.freespace with h0 | hpos
    · rw [h0, add_zero, add_zero]
      rcases h.currPos with he | ⟨-, he⟩
      · exact he.2
      · have := insertFreespace_pos (g := g) (s + c.written)
        rw [← he, ← h.freespace] at this
        omega
    · have hcur := h.currPos_eq hpos
      rw [← add_assoc, bytePosToEndRecPtr_add_of_le _ hpos, hcur]
      rw [h.freespace, hcur]
  rw [← Geometry.skipHeader_bytePosToEndRecPtr, ← hend, Geometry.skipHeader, if_pos hmod]
  rfl

theorem Copied.step (h : Copied g s all c) (hc : copyStep g writeLen c = .inl c') :
    Copied g s all c' := by
  rw [copyStep] at hc
  cases hr : c.rdata with
  | nil => simp [hr] at hc
  | cons data next =>
    have hrest : all.drop c.written = data ++ next.flatten := by
      rw [← h.rest, hr, flatten_cons]
    have hw := h.le
    have hlen := congrArg List.length hrest
    rw [length_drop, length_append] at hlen
    simp only [hr] at hc
    split at hc
    · rename_i hlt
      obtain rfl := Sum.inl.inj hc
      have hnext := h.nextPage
      have htake : (data.take c.freespace).length = c.freespace := by
        rw [length_take, min_eq_left hlt.le]
      have hsplit : all.drop c.written = data.take c.freespace ++
          (data.drop c.freespace ++ next.flatten) := by
        rw [hrest, ← append_assoc, take_append_drop]
      have hstore := h.store hsplit htake.le
      rw [htake] at hstore
      refine ⟨by simp only; omega, ?_, hstore, rfl, .inr ⟨?_, hnext⟩⟩
      · simp only [flatten_cons]
        rw [← drop_drop, hrest, drop_append_of_le_length hlt.le]
      · simp only [flatten_cons, ne_eq, append_eq_nil_iff, drop_eq_nil_iff]
        omega
    · rename_i hge
      obtain rfl := Sum.inl.inj hc
      have hle : data.length ≤ c.freespace := not_lt.mp hge
      refine ⟨by simp only; omega, ?_, h.store hrest hle, ?_, ?_⟩
      · rw [← drop_drop, hrest, drop_left]
      · rw [h.freespace, insertFreespace_add (h.freespace ▸ hle)]
      · cases data with
        | nil =>
          have hcur := h.currPos
          rwa [hr, flatten_cons, nil_append] at hcur
        | cons b data =>
          have hcur := h.currPos_eq (lt_of_lt_of_le (succ_pos _) hle)
          have hend : g.bytePosToEndRecPtr (s + c.written + (b :: data).length) =
              g.bytePosToRecPtr (s + c.written) + (b :: data).length :=
            bytePosToEndRecPtr_add_of_le (by rwa [← hcur, ← h.freespace]) (succ_pos _)
          refine .inl ⟨by simp only [length_cons]; omega, ?_⟩
          rw [← add_assoc, hend, hcur]

/-- An upper bound for the rounds that are left. -/
def Copy.work (c : Copy) : ℕ :=
  2 * c.rdata.flatten.length + 2 * c.rdata.length + if c.freespace = 0 then 1 else 0

theorem Copied.work_lt (h : Copied g s all c) (hc : copyStep g writeLen c = .inl c') :
    c'.work < c.work := by
  rw [copyStep] at hc
  cases hr : c.rdata with
  | nil => simp [hr] at hc
  | cons data next =>
    simp only [hr] at hc
    split at hc
    · obtain rfl := Sum.inl.inj hc
      have hfree := insertFreespace_pos (g := g) (s + (c.written + c.freespace))
      rw [← h.nextPage] at hfree
      simp only [Copy.work, hr, if_neg hfree.ne', flatten_cons, length_append,
        length_drop, length_cons]
      split <;> omega
    · obtain rfl := Sum.inl.inj hc
      simp only [Copy.work, hr, flatten_cons, length_append, length_cons]
      split <;> split <;> omega

/-- The loop over the chunks ends, with the whole record stored. -/
theorem Copied.returns (writeLen : ℕ) (h : Copied g s all c) :
    ∃ c', Returns (copyStep g writeLen) c c' ∧ Copied g s all c' ∧ c'.rdata = [] ∧
      c'.zeroed = c.zeroed := by
  induction hw : c.work using Nat.strong_induction_on generalizing c with
  | _ w ih =>
    cases hr : c.rdata with
    | nil => exact ⟨c, .done (by rw [copyStep, hr]), h, hr, rfl⟩
    | cons data next =>
      obtain ⟨c₁, hc₁, hz⟩ : ∃ c₁, copyStep g writeLen c = .inl c₁ ∧ c₁.zeroed = c.zeroed := by
        simp only [copyStep, hr]
        split
        · exact ⟨_, rfl, rfl⟩
        · exact ⟨_, rfl, rfl⟩
      obtain ⟨c', hret, h', hr', hz'⟩ := ih _ (hw ▸ h.work_lt hc₁) (h.step hc₁) rfl
      exact ⟨c', .next hc₁ hret, h', hr', hz'.trans hz⟩

theorem copied_start (s : ℕ) {rdata : List (List UInt8)} (h : rdata.flatten ≠ []) :
    Copied g s rdata.flatten ⟨rdata, g.bytePosToRecPtr s,
      insertFreespace g (g.bytePosToRecPtr s), 0, [], [], []⟩ where
  le := zero_le _
  rest := rfl
  bytes := rfl
  freespace := rfl
  currPos := .inr ⟨h, rfl⟩

theorem Copied.done (h : Copied g s all c) (hr : c.rdata = []) :
    c.written = all.length ∧ c.currPos = g.bytePosToEndRecPtr (s + all.length) ∧
      c.bytes = ((List.range all.length).map fun i => g.bytePosToRecPtr (s + i)).zip all := by
  have hrest := h.rest
  rw [hr, flatten_nil] at hrest
  have hw : c.written = all.length := by
    have := drop_eq_nil_iff.mp hrest.symm
    exact le_antisymm h.le this
  refine ⟨hw, ?_, ?_⟩
  · rcases h.currPos with ⟨-, he⟩ | ⟨hne, -⟩
    · rw [he, hw]
    · exact absurd (by rw [hr, flatten_nil]) hne
  · rw [h.bytes, hw, take_length]

end Loop

/-! ## Reserved and copied -/

section Theorems

variable {g : Geometry} {ins : Insert} {rdata : List (List UInt8)} {s : ℕ}

theorem zip_append_left {l₁ l₂ : List ℕ} {l : List UInt8} (h : l₁.length = l.length) :
    (l₁ ++ l₂).zip l = l₁.zip l := by
  have hzip : (l₁ ++ l₂).zip (l ++ []) = l₁.zip l ++ l₂.zip [] := zip_append h
  rwa [append_nil, zip_nil_right, append_nil] at hzip

theorem zip_usableBytes {all : List UInt8} {n : ℕ} (hn : all.length ≤ n + 1) (more : List ℕ) :
    (g.usableBytes (g.bytePosToRecPtr s) (g.bytePosToEndRecPtr (s + n + 1)) ++ more).zip all =
      ((List.range all.length).map fun i => g.bytePosToRecPtr (s + i)).zip all := by
  obtain ⟨d, hd⟩ := Nat.exists_eq_add_of_le hn
  have hlen : ((List.range all.length).map fun i => g.bytePosToRecPtr (s + i)).length =
      all.length := by
    rw [length_map, length_range]
  rw [Geometry.usableBytes_eq_map, hd, range_add, map_append, append_assoc,
    zip_append_left hlen]

/-- What an inserter has stored: it ends at `endPos`, its bytes are those of the record on the
usable bytes of the reserved range, and the headers it has cleared are whole page headers. -/
structure Stores (g : Geometry) (rdata : List (List UInt8)) (startPos endPos : ℕ) (c : Copy) :
    Prop where
  currPos : c.currPos = endPos
  fits : rdata.flatten.length ≤ (g.usableBytes startPos endPos).length
  bytes : c.bytes = (g.usableBytes startPos endPos).zip rdata.flatten
  zeroed : ∀ p ∈ c.zeroed, p % g.blcksz = 0 ∧ g.headerSize p = sizeOfXLogShortPHD

/-- The copy ends, without the error, when it has enough rounds. -/
def CopiesTo (g : Geometry) (isLogSwitch : Bool) (rdata : List (List UInt8))
    (startPos endPos : ℕ) : Prop :=
  ∃ c rounds, Stores g rdata startPos endPos c ∧ ∀ fuel ≥ rounds,
    copyXLogRecordToWAL g fuel rdata.flatten.length isLogSwitch rdata startPos endPos = some (.ok c)

theorem copies_record (hs : 8 ∣ ins.currBytePos) (hlen : rdata.flatten ≠ []) :
    CopiesTo g false rdata (reserveXLogInsertLocation g ins rdata.flatten.length).1.startPos
      (reserveXLogInsertLocation g ins rdata.flatten.length).1.endPos := by
  obtain ⟨c, ⟨n, hn⟩, hc, hr, hz⟩ := (copied_start (g := g) ins.currBytePos hlen).returns
    rdata.flatten.length
  obtain ⟨-, hpos, hbytes⟩ := hc.done hr
  have hlen' : 0 < rdata.flatten.length := length_pos_of_ne_nil hlen
  have halign : ins.currBytePos + maxAlign rdata.flatten.length =
      maxAlign (ins.currBytePos + rdata.flatten.length) := by
    simp only [maxAlign]
    omega
  have hend : maxAlign c.currPos =
      g.bytePosToEndRecPtr (ins.currBytePos + maxAlign rdata.flatten.length) := by
    rw [halign, Geometry.bytePosToEndRecPtr_maxAlign (by omega), hpos]
  obtain ⟨m, hm⟩ : ∃ m, maxAlign rdata.flatten.length = m + 1 := by
    refine ⟨maxAlign rdata.flatten.length - 1, ?_⟩
    simp only [maxAlign]
    omega
  have hle : rdata.flatten.length ≤ m + 1 := by
    rw [← hm, maxAlign]
    omega
  refine ⟨{ c with currPos := maxAlign c.currPos }, n, ⟨hend, ?_, ?_, ?_⟩, fun fuel hf => ?_⟩
  · simp only [reserveXLogInsertLocation, hm, ← add_assoc, Geometry.usableBytes_eq_map]
    simpa using hle
  · have := zip_usableBytes (g := g) (s := ins.currBytePos) hle []
    rw [append_nil] at this
    simp only [reserveXLogInsertLocation, hm, ← add_assoc, this, hbytes]
  · simp [hz]
  · have hi := iterate_mono hn hf
    simp only [copyXLogRecordToWAL, reserveXLogInsertLocation, hi, Option.bind_eq_bind,
      Option.bind_some, Bool.false_and, Bool.false_eq_true, if_false, hend, ne_eq,
      not_true_eq_false]

theorem flush_returns {endPos d : ℕ} {c : Copy} (hd : c.currPos + d * g.blcksz = endPos) :
    ∃ c', Returns (flushStep g endPos) c c' ∧ c'.currPos = endPos ∧ c'.bytes = c.bytes ∧
      ∀ p ∈ c'.zeroed, p ∈ c.zeroed ∨ ∃ i < d, p = c.currPos + i * g.blcksz := by
  have hB := g.blcksz_pos
  induction d generalizing c with
  | zero =>
    rw [zero_mul, add_zero] at hd
    exact ⟨c, .done (if_neg hd.not_lt), hd, rfl, fun p hp => .inl hp⟩
  | succ d ih =>
    rw [succ_mul] at hd
    obtain ⟨c', hret, hpos, hbytes, hz⟩ := ih
      (c := { c with currPos := c.currPos + g.blcksz, zeroed := c.zeroed ++ [c.currPos] })
      (by simp only; omega)
    refine ⟨c', .next (if_pos (by omega)) hret, hpos, hbytes, fun p hp => ?_⟩
    rcases hz p hp with hp | ⟨i, hi, rfl⟩
    · rcases mem_append.mp hp with hp | hp
      · exact .inl hp
      · exact .inr ⟨0, succ_pos d, by simpa using hp⟩
    · refine .inr ⟨i + 1, succ_lt_succ hi, ?_⟩
      simp only [succ_mul]
      omega

theorem segmentOffset_lt (ptr : ℕ) : g.segmentOffset ptr < g.segSize := by
  rw [Geometry.segmentOffset_eq]
  exact mod_lt _ g.segSize_pos

theorem segmentOffset_add_left (ptr : ℕ) :
    g.segmentOffset (ptr + (g.segSize - g.segmentOffset ptr)) = 0 := by
  have hlt := segmentOffset_lt (g := g) ptr
  have hd := div_add_mod ptr g.segSize
  rw [← Geometry.segmentOffset_eq] at hd
  have he : ptr + (g.segSize - g.segmentOffset ptr) = g.segSize * (ptr / g.segSize + 1) := by
    rw [Nat.mul_add]
    omega
  rw [he, Geometry.segmentOffset_eq, mul_mod_right]

theorem reserveXLogSwitch_endPos (g : Geometry) (ins : Insert) :
    g.segmentOffset (reserveXLogSwitch g ins).1.endPos = 0 := by
  rw [reserveXLogSwitch]
  split
  · assumption
  · have hlt := segmentOffset_lt (g := g)
      (g.bytePosToEndRecPtr (ins.currBytePos + maxAlign sizeOfXLogRecord))
    simp only
    split
    · exact segmentOffset_add_left _
    · simp only
      omega

theorem exists_pages {E : ℕ} (h0 : g.segmentOffset E ≠ 0) :
    ∃ d, E + insertFreespace g E + d * g.blcksz = E + (g.segSize - g.segmentOffset E) ∧
      ∀ i < d, (E + insertFreespace g E + i * g.blcksz) % g.blcksz = 0 ∧
        g.headerSize (E + insertFreespace g E + i * g.blcksz) = sizeOfXLogShortPHD := by
  have hpage : (E + insertFreespace g E) % g.blcksz = 0 := by
    have h := insertFreespace_add (g := g) (p := E) le_rfl
    rw [Nat.sub_self, insertFreespace] at h
    by_contra hne
    have := mod_lt (E + insertFreespace g E) g.blcksz_pos
    rw [if_neg hne] at h
    omega
  have hfree : insertFreespace g E < g.blcksz := by
    have := g.blcksz_pos
    rw [insertFreespace]
    split <;> omega
  have hlt := segmentOffset_lt (g := g) E
  have hd := div_add_mod E g.segSize
  rw [← Geometry.segmentOffset_eq] at hd
  have hstop : E + (g.segSize - g.segmentOffset E) = g.segSize * (E / g.segSize + 1) := by
    rw [Nat.mul_add]
    omega
  obtain ⟨a, ha⟩ := dvd_of_mod_eq_zero hpage
  obtain ⟨b, hb⟩ : g.blcksz ∣ E + (g.segSize - g.segmentOffset E) := by
    rw [hstop]
    exact g.dvd.mul_right _
  have hab : a ≤ b := by
    have hmul : g.blcksz * a < g.blcksz * (b + 1) := by
      rw [← ha, Nat.mul_add, ← hb]
      omega
    exact Nat.lt_succ_iff.mp (Nat.lt_of_mul_lt_mul_left hmul)
  refine ⟨b - a, ?_, fun i hi => ⟨?_, ?_⟩⟩
  · rw [ha, hb, Nat.mul_comm (b - a), ← Nat.mul_add, Nat.add_sub_cancel' hab]
  · rw [ha, Nat.mul_comm i, ← Nat.mul_add, mul_mod_right]
  · -- the page starts behind `E` and before the end of the segment
    have hbefore : g.blcksz * a + i * g.blcksz < g.blcksz * b := by
      rw [Nat.mul_comm i, ← Nat.mul_add]
      exact mul_lt_mul_of_pos_left (by omega) g.blcksz_pos
    have hmod : (E + insertFreespace g E + i * g.blcksz) % g.segSize =
        E + insertFreespace g E + i * g.blcksz - g.segSize * (E / g.segSize) := by
      have hsplit : E + insertFreespace g E + i * g.blcksz = g.segSize * (E / g.segSize) +
          (E + insertFreespace g E + i * g.blcksz - g.segSize * (E / g.segSize)) := by
        omega
      conv_lhs => rw [hsplit]
      rw [mul_add_mod, mod_eq_of_lt (by omega)]
    rw [Geometry.headerSize, Geometry.segmentOffset_eq, hmod, if_neg (by omega)]

theorem copies_switch (hlen : rdata.flatten.length = sizeOfXLogRecord)
    (hi : (reserveXLogSwitch g ins).1.inserted = true) :
    CopiesTo g true rdata (reserveXLogSwitch g ins).1.startPos
      (reserveXLogSwitch g ins).1.endPos := by
  have hne : rdata.flatten ≠ [] := ne_nil_of_length_pos (hlen ▸ by decide)
  obtain ⟨c, ⟨n, hn⟩, hc, hr, hz⟩ := (copied_start (g := g) ins.currBytePos hne).returns
    rdata.flatten.length
  obtain ⟨-, hpos, hbytes⟩ := hc.done hr
  rw [hlen] at hpos
  set E := g.bytePosToEndRecPtr (ins.currBytePos + sizeOfXLogRecord) with hE
  have h24 : maxAlign sizeOfXLogRecord = sizeOfXLogRecord := by decide
  have hoff : ¬ g.segmentOffset (g.bytePosToEndRecPtr ins.currBytePos) = 0 := by
    intro h0
    simp [reserveXLogSwitch, h0] at hi
  have hstart : (reserveXLogSwitch g ins).1.startPos = g.bytePosToRecPtr ins.currBytePos := by
    simp only [reserveXLogSwitch, if_neg hoff]
  have hend : (reserveXLogSwitch g ins).1.endPos =
      if g.segmentOffset E = 0 then E else E + (g.segSize - g.segmentOffset E) := by
    simp only [reserveXLogSwitch, if_neg hoff, h24, ← hE]
    split_ifs <;> omega
  -- the record fits before `E`, and what is reserved behind it holds no record bytes
  have hstores : ∀ endPos, E ≤ endPos →
      rdata.flatten.length ≤ (g.usableBytes (g.bytePosToRecPtr ins.currBytePos) endPos).length ∧
      c.bytes = (g.usableBytes (g.bytePosToRecPtr ins.currBytePos) endPos).zip rdata.flatten := by
    intro endPos hle
    have hs : g.bytePosToRecPtr ins.currBytePos ≤ E :=
      (g.bytePosToRecPtr_strictMono.monotone (le_add_right _ 23)).trans
        (by rw [hE, sizeOfXLogRecord, Geometry.bytePosToEndRecPtr_succ]; exact le_succ _)
    have h23 : E = g.bytePosToEndRecPtr (ins.currBytePos + 23 + 1) := rfl
    rw [Geometry.usableBytes_append hs hle, h23]
    have hlen' : rdata.flatten.length ≤ 23 + 1 := hlen.le
    refine ⟨?_, ?_⟩
    · rw [Geometry.usableBytes_eq_map, length_append, length_map, length_range]
      exact hlen'.trans (le_add_right _ _)
    · rw [zip_usableBytes hlen', hbytes]
  rw [hstart, hend]
  split
  · rename_i h0
    have halign : maxAlign E = E := by
      have h8 : 8 ∣ E := by
        rw [Geometry.segmentOffset_eq] at h0
        exact (g.eight_dvd_blcksz.trans g.dvd).trans (dvd_of_mod_eq_zero h0)
      rw [maxAlign]
      omega
    obtain ⟨hfits, hb⟩ := hstores E le_rfl
    refine ⟨{ c with currPos := E }, n, ⟨rfl, hfits, hb, ?_⟩, fun fuel hf => ?_⟩
    · simp [hz]
    · have hi := iterate_mono hn hf
      simp only [copyXLogRecordToWAL, hi, Option.bind_eq_bind, Option.bind_some, hpos, h0,
        halign, ne_eq, not_true_eq_false, decide_false, Bool.and_false, Bool.false_eq_true, if_false]
  · rename_i h0
    obtain ⟨d, hd, hpages⟩ := exists_pages h0
    have hfree : c.freespace = insertFreespace g E := by rw [hc.freespace, hpos]
    obtain ⟨c', ⟨n', hn'⟩, hpos', hbytes', hz'⟩ := flush_returns (g := g)
      (c := { c with currPos := c.currPos + c.freespace }) (by simp only [hpos, hfree]; exact hd)
    obtain ⟨hfits, hb⟩ := hstores (E + (g.segSize - g.segmentOffset E)) (le_add_right _ _)
    refine ⟨c', max n n', ⟨hpos', hfits, hbytes'.trans hb, fun p hp => ?_⟩, fun fuel hf => ?_⟩
    · rcases hz' p hp with hp | ⟨i, hi, rfl⟩
      · simp [hz] at hp
      · simp only [hpos, hfree]
        exact hpages i hi
    · have hi := iterate_mono hn ((le_max_left n n').trans hf)
      have hi' := iterate_mono hn' ((le_max_right n n').trans hf)
      simp only [copyXLogRecordToWAL, hi, Option.bind_eq_bind, Option.bind_some, hpos, h0,
        ne_eq, not_false_eq_true, decide_true, Bool.and_true, if_true]
      simp only [hpos] at hi'
      simp [hi', hpos']

end Theorems

end Wal

/-- A record is copied to exactly the space that was reserved for it: the copy comes to the
reserved end position, its bytes lie on the usable bytes in between, and an xlog-switch record uses
up its segment. -/
theorem wal_reservation_matches_copy (g : Wal.Geometry) (ins : Wal.Insert)
    (hs : 8 ∣ ins.currBytePos) :
    (∀ rdata : List (List UInt8), Wal.sizeOfXLogRecord < rdata.flatten.length →
      let r := (Wal.reserveXLogInsertLocation g ins rdata.flatten.length).1
      Wal.CopiesTo g false rdata r.startPos r.endPos) ∧
    let w := (Wal.reserveXLogSwitch g ins).1
    g.segmentOffset w.endPos = 0 ∧
      ∀ rdata : List (List UInt8), rdata.flatten.length = Wal.sizeOfXLogRecord → w.inserted = true →
        Wal.CopiesTo g true rdata w.startPos w.endPos :=
  ⟨fun _ h => Wal.copies_record hs (ne_nil_of_length_pos (zero_lt_of_lt h)),
    Wal.reserveXLogSwitch_endPos g ins, fun _ h hi => Wal.copies_switch h hi⟩

/-- Pages of 64 bytes, two in a segment: a record of 30 bytes in two chunks starts 8 bytes before
the end of a page, and an xlog-switch record is put there. -/
theorem wal_reservation_matches_copy_page :
    let g : Wal.Geometry := ⟨64, 128, by decide, by decide, 7, rfl⟩
    8 ∣ 16 ∧ (let r := (Wal.reserveXLogInsertLocation g ⟨16, 0⟩ 30).1
      Wal.CopiesTo g false [List.replicate 20 1, List.replicate 10 2] r.startPos r.endPos) ∧
    Wal.CopiesTo g true [List.replicate 24 3] (Wal.reserveXLogSwitch g ⟨16, 0⟩).1.startPos
      (Wal.reserveXLogSwitch g ⟨16, 0⟩).1.endPos := by
  intro g
  have h := wal_reservation_matches_copy g ⟨16, 0⟩ (by decide)
  exact ⟨by decide, h.1 [List.replicate 20 1, List.replicate 10 2] (by decide),
    h.2.2 [List.replicate 24 3] (by decide) (by decide)⟩

end PostgreSieve
