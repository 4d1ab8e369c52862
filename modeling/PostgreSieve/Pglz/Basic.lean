import Mathlib.Algebra.Group.Nat.Defs
import Mathlib.Data.Int.Basic
import PostgreSieve.Runs.Basic

/-! # pglz compression

`pg_lzcompress.c`: the compressor and the decompressor on memory. A pointer into a buffer is the
distance from its start.
-/

namespace PostgreSieve.Pglz

open Function

def pglzMaxMatch : ℕ := 273

def pglzHistorySize : ℕ := 4096

def intMax : ℕ := 2 ^ 31 - 1

/-- The value that an `int32` gets. -/
def int32 (x : ℤ) : ℤ := x.bmod (2 ^ 32)

structure Strategy where
  minInputSize : ℤ
  maxInputSize : ℤ
  minCompRate : ℤ
  firstSuccessBy : ℤ
  matchSizeGood : ℤ
  matchSizeDrop : ℤ

def strategyDefault : Strategy := ⟨32, intMax, 25, 1024, 128, 10⟩

def strategyAlways : Strategy := ⟨0, intMax, 0, intMax, 128, 6⟩

/-! ## The history table -/

/-- A null pointer is `none`. -/
structure HistEntry where
  next : Option ℕ
  prev : Option ℕ
  hindex : ℕ
  pos : ℕ

structure History where
  start : ℕ → ℕ
  entries : ℕ → HistEntry
  next : ℕ
  recycle : Bool

def invalidEntry : ℕ := 0

/-- A `char` as an `int`, for a signed or an unsigned `char`. -/
def charInt (signed : Bool) (c : UInt8) : BitVec 32 :=
  if signed then c.toBitVec.signExtend 32 else c.toBitVec.setWidth 32

def pglzHistIdx (signed : Bool) (source : ℕ → UInt8) (s e mask : ℕ) : ℕ :=
  let c i := charInt signed (source (s + i))
  ((if e - s < 4 then c 0 else (c 0 <<< 6) ^^^ (c 1 <<< 4) ^^^ (c 2 <<< 2) ^^^ c 3) &&&
    BitVec.ofNat 32 mask).toNat

/-- Delink a previously used entry from its old hashcode's linked list. -/
def History.delink (h : History) (n : ℕ) : History :=
  let h := match (h.entries n).prev with
    | none => { h with
        start := update h.start (h.entries n).hindex ((h.entries n).next.getD 0) }
    | some p => { h with
        entries := update h.entries p { h.entries p with next := (h.entries n).next } }
  match (h.entries n).next with
  | none => h
  | some q => { h with
      entries := update h.entries q { h.entries q with prev := (h.entries n).prev } }

/-- Put an entry at the head of the list of a hash key. -/
def History.link (h : History) (n hindex s : ℕ) : History :=
  let head := h.start hindex
  let entries := update h.entries n
    { next := some head, prev := none, hindex := hindex, pos := s }
  -- the head may be the unused entry
  { h with
    entries := update entries head { entries head with prev := some n }
    start := update h.start hindex n }

def pglzHistAdd (h : History) (hindex s : ℕ) : History :=
  let n := h.next
  let h := (if h.recycle then h.delink n else h).link n hindex s
  if pglzHistorySize + 1 ≤ n + 1 then { h with next := 1, recycle := true }
  else { h with next := n + 1 }

/-! ## Output -/

/-- The output buffer. A null control pointer stands for the one to `ctrl_dummy`. -/
structure Output where
  dest : ℕ → UInt8
  bp : ℕ
  ctrlp : Option ℕ
  ctrlb : UInt8
  ctrl : UInt8

/-- `*ctrlp = ctrlb`. -/
def Output.writeCtrl (o : Output) : Output :=
  match o.ctrlp with
  | none => o
  | some p => { o with dest := update o.dest p o.ctrlb }

/-- `*bp++ = byte`. -/
def Output.put (o : Output) (byte : UInt8) : Output :=
  { o with dest := update o.dest o.bp byte, bp := o.bp + 1 }

def pglzOutCtrl (o : Output) : Output :=
  if o.ctrl &&& 0xff = 0 then
    { o.writeCtrl with ctrlp := some o.bp, bp := o.bp + 1, ctrlb := 0, ctrl := 1 }
  else o

def pglzOutLiteral (o : Output) (byte : UInt8) : Output :=
  let o := (pglzOutCtrl o).put byte
  { o with ctrl := o.ctrl <<< 1 }

def pglzOutTag (o : Output) (len off : ℕ) : Output :=
  let o := pglzOutCtrl o
  let o := { o with ctrlb := o.ctrlb ||| o.ctrl, ctrl := o.ctrl <<< 1 }
  if 17 < len then
    ((o.put (.ofNat (((off &&& 0xf00) >>> 4) ||| 0x0f))).put (.ofNat (off &&& 0xff))).put
      (.ofNat (len - 18))
  else
    (o.put (.ofNat (((off &&& 0xf00) >>> 4) ||| (len - 3)))).put (.ofNat (off &&& 0xff))

/-! ## Compression -/

/-- The number of equal bytes at `ip` and `hp`, from `thislen` on. -/
def matchLength (source : ℕ → UInt8) (e ip hp thislen : ℕ) : ℕ :=
  if ip < e ∧ source ip = source hp ∧ thislen < pglzMaxMatch then
    matchLength source e (ip + 1) (hp + 1) (thislen + 1)
  else thislen
termination_by e - ip

/-- The length of a match that has to be longer than the best one so far. -/
def entryLength (source : ℕ → UInt8) (e ip hp len : ℕ) : ℕ :=
  if 16 ≤ len then
    if ∀ i < len, source (ip + i) = source (hp + i) then
      matchLength source e (ip + len) (hp + len) len
    else 0
  else matchLength source e ip hp 0

/-- The loop over the history list. There is no result if a null pointer is followed. -/
def searchHistory (source : ℕ → UInt8) (entries : ℕ → HistEntry) (input e : ℕ) (goodDrop : ℤ) :
    ℕ → Option ℕ → ℕ → ℕ → ℤ → Option (ℕ × ℕ)
  | 0, _, _, _, _ => none
  | _ + 1, none, _, _, _ => none
  | fuel + 1, some n, len, off, goodMatch =>
    if n = invalidEntry then some (len, off)
    else
      let hp := (entries n).pos
      let thisoff := input - hp
      if 0x0fff ≤ thisoff then some (len, off)
      else
        let thislen := entryLength source e input hp len
        let best := if len < thislen then (thislen, thisoff) else (len, off)
        let hent := (entries n).next
        if hent ≠ some invalidEntry then
          if goodMatch ≤ best.1 then some best
          else searchHistory source entries input e goodDrop fuel hent best.1 best.2
            (goodMatch - (goodMatch * goodDrop).tdiv 100)
        else searchHistory source entries input e goodDrop fuel hent best.1 best.2 goodMatch

/-- Length and offset of a match, if there is one that saves a byte. -/
def pglzFindMatch (fuel : ℕ) (source : ℕ → UInt8) (h : History) (input e : ℕ)
    (goodMatch goodDrop : ℤ) (hindex : ℕ) : Option (Option (ℕ × ℕ)) :=
  (searchHistory source h.entries input e goodDrop fuel (some (h.start hindex)) 0 0 goodMatch).map
    fun r => if 2 < r.1 then some r else none

def clamp (lo hi x : ℤ) : ℤ := if x < lo then lo else if hi < x then hi else x

/-- The maximum result size allowed by the strategy. -/
def resultMax (slen : ℕ) (strategy : Strategy) : ℤ :=
  let needRate := clamp 0 99 strategy.minCompRate
  if intMax / 100 < slen then int32 ((slen / 100 : ℕ) * (100 - needRate))
  else (int32 (slen * (100 - needRate))).tdiv 100

def hashSize (slen : ℕ) : ℕ :=
  if slen < 128 then 512 else if slen < 256 then 1024 else if slen < 512 then 2048
  else if slen < 1024 then 4096 else 8192

/-- What the loop of `pglz_compress` does not change. -/
structure Params where
  source : ℕ → UInt8
  slen : ℕ
  hash : ℕ → ℕ
  goodMatch : ℤ
  goodDrop : ℤ
  resultMax : ℤ
  firstSuccessBy : ℤ

structure Compressor where
  dp : ℕ
  output : Output
  foundMatch : Bool
  history : History

/-- Add history entries for all matched characters. -/
def addMatched (hash : ℕ → ℕ) : ℕ → ℕ → History → History
  | 0, _, h => h
  | n + 1, dp, h => addMatched hash n (dp + 1) (pglzHistAdd h (hash dp) dp)

/-- A round of the loop of `pglz_compress`. The result is the size, which is `none` for `-1`, with the
output buffer. -/
def compressStep (p : Params) (fuel : ℕ) (c : Compressor) :
    Compressor ⊕ Option (Option ℕ × (ℕ → UInt8)) :=
  if c.dp < p.slen then
    if p.resultMax ≤ c.output.bp then .inr (some (none, c.output.dest))
    else if c.foundMatch = false ∧ p.firstSuccessBy ≤ c.output.bp then
      .inr (some (none, c.output.dest))
    else
      match pglzFindMatch fuel p.source c.history c.dp p.slen p.goodMatch p.goodDrop
        (p.hash c.dp) with
      | none => .inr none
      | some (some (len, off)) => .inl {
          dp := c.dp + len
          output := pglzOutTag c.output len off
          foundMatch := true
          history := addMatched p.hash len c.dp c.history }
      | some none => .inl { c with
          dp := c.dp + 1
          output := pglzOutLiteral c.output (p.source c.dp)
          history := pglzHistAdd c.history (p.hash c.dp) c.dp }
  else
    let o := c.output.writeCtrl
    .inr (some (if p.resultMax ≤ o.bp then none else some o.bp, o.dest))

/-- `pglz_compress`, with the contents of the output buffer and of the work arrays when it is called.
The fuel bounds the rounds of each loop. -/
def pglzCompress (signed : Bool) (fuel : ℕ) (source : ℕ → UInt8) (slen : ℕ) (dest : ℕ → UInt8)
    (histStart : ℕ → ℕ) (histEntries : ℕ → HistEntry) (strategy : Option Strategy) :
    Option (Option ℕ × (ℕ → UInt8)) :=
  let strategy := strategy.getD strategyDefault
  if strategy.matchSizeGood ≤ 0 ∨ slen < strategy.minInputSize ∨ strategy.maxInputSize < slen then
    some (none, dest)
  else
    let hashsz := hashSize slen
    let mask := hashsz - 1
    let p : Params := {
      source := source
      slen := slen
      hash := fun s => pglzHistIdx signed source s slen mask
      goodMatch := clamp 17 pglzMaxMatch strategy.matchSizeGood
      goodDrop := clamp 0 100 strategy.matchSizeDrop
      resultMax := resultMax slen strategy
      firstSuccessBy := strategy.firstSuccessBy }
    let history : History := {
      start := fun i => if i < hashsz then 0 else histStart i
      entries := histEntries
      next := 1
      recycle := false }
    (iterate (compressStep p fuel) fuel ⟨0, ⟨dest, 0, none, 0, 0⟩, false, history⟩).join

/-! ## Decompression -/

def memcpy (m : ℕ → UInt8) (dst src n : ℕ) : ℕ → UInt8 :=
  fun i => if dst ≤ i ∧ i < dst + n then m (src + (i - dst)) else m i

/-- Copy a match in non-overlapping pieces. -/
def copyMatch (dest : ℕ → UInt8) (dp off len : ℕ) (hoff : 0 < off) : ℕ → UInt8 :=
  if off < len then
    copyMatch (memcpy dest dp (dp - off) off) (dp + off) (off + off) (len - off) (by omega)
  else memcpy dest dp (dp - off) len
termination_by len

structure Decompressor where
  sp : ℕ
  dp : ℕ
  dest : ℕ → UInt8

/-- Read a match tag: the length, the offset and the position behind it. -/
def readTag (source : ℕ → UInt8) (sp : ℕ) : ℕ × ℕ × ℕ :=
  let len := ((source sp).toNat &&& 0x0f) + 3
  let off := (((source sp).toNat &&& 0xf0) <<< 4) ||| (source (sp + 1)).toNat
  if len = 18 then (len + (source (sp + 2)).toNat, off, sp + 3) else (len, off, sp + 2)

/-- Process the item of a control bit. There is no result if the data is corrupt. -/
def readItem (source : ℕ → UInt8) (srcend destend : ℕ) (ctrl : UInt8) (d : Decompressor) :
    Option Decompressor :=
  if ctrl &&& 1 ≠ 0 then
    let (len, off, sp) := readTag source d.sp
    if h : srcend < sp ∨ off = 0 ∨ d.dp < off then none
    else
      let len := min len (destend - d.dp)
      some ⟨sp, d.dp + len, copyMatch d.dest d.dp off len (by omega)⟩
  else some ⟨d.sp + 1, d.dp + 1, update d.dest d.dp (source d.sp)⟩

/-- Process as many items as remain of those of a control byte. -/
def readItems (source : ℕ → UInt8) (srcend destend : ℕ) : ℕ → UInt8 → Decompressor →
    Option Decompressor
  | 0, _, d => some d
  | n + 1, ctrl, d =>
    if d.sp < srcend ∧ d.dp < destend then
      (readItem source srcend destend ctrl d).bind (readItems source srcend destend n (ctrl >>> 1))
    else some d

variable {ctrl : UInt8} {d d' : Decompressor} {source : ℕ → UInt8}

variable {srcend destend : ℕ}

theorem readItem_sp (h : readItem source srcend destend ctrl d = some d') : d.sp ≤ d'.sp := by
  unfold readItem readTag at h
  grind

theorem readItems_sp {n : ℕ} (h : readItems source srcend destend n ctrl d = some d') :
    d.sp ≤ d'.sp := by
  induction n generalizing ctrl d with
  | zero =>
    rw [readItems, Option.some.injEq] at h
    exact h ▸ le_rfl
  | succ n ih =>
    rw [readItems] at h
    split at h
    · obtain ⟨d₁, h₁, h₂⟩ := Option.bind_eq_some_iff.mp h
      exact Nat.le_trans (readItem_sp h₁) (ih h₂)
    · rw [Option.some.injEq] at h
      exact h ▸ le_rfl

/-- The outer loop of `pglz_decompress`. -/
def decompressLoop (source : ℕ → UInt8) (srcend destend : ℕ) (d : Decompressor) :
    Option Decompressor :=
  if d.sp < srcend ∧ d.dp < destend then
    match _h : readItems source srcend destend 8 (source d.sp) { d with sp := d.sp + 1 } with
    | none => none
    | some d' => decompressLoop source srcend destend d'
  else some d
termination_by srcend - d.sp
decreasing_by
  have hsp := readItems_sp _h
  change d.sp + 1 ≤ d'.sp at hsp
  omega

theorem decompressLoop_eq : decompressLoop source srcend destend d =
    if d.sp < srcend ∧ d.dp < destend then
      (readItems source srcend destend 8 (source d.sp) { d with sp := d.sp + 1 }).bind
        (decompressLoop source srcend destend)
    else some d := by
  rw [decompressLoop]
  split
  · split <;> rename_i h <;> rw [h] <;> rfl
  · rfl

/-- `pglz_decompress`: the number of bytes decompressed, and the buffer. The result `-1` is `none`. -/
def pglzDecompress (source : ℕ → UInt8) (slen : ℕ) (dest : ℕ → UInt8) (rawsize : ℕ)
    (checkComplete : Bool) : Option (ℕ × (ℕ → UInt8)) :=
  (decompressLoop source slen rawsize ⟨0, 0, dest⟩).bind fun d =>
    if checkComplete = true ∧ (d.dp ≠ rawsize ∨ d.sp ≠ slen) then none else some (d.dp, d.dest)

/-- `pglz_maximum_compressed_size`, which computes in 64 bits. -/
def pglzMaximumCompressedSize (rawsize totalCompressedSize : ℕ) : ℕ :=
  min ((rawsize * 9 + 7) / 8 + 2) totalCompressedSize

end PostgreSieve.Pglz
