import Mathlib.Data.List.Infix
import PostgreSieve.BlockRef.Basic
import PostgreSieve.WalRecord.Decode

/-! # Reading a block reference table file

The reader gets the file in the pieces that the read callback delivers, and returns the blocks of
one relation fork after the other. An access outside of an array is a fault.
-/

namespace PostgreSieve.BlockRef

open List
open WalRecord (littleEndian)

def blockRefTableMagic : ℕ := 0x652b137b

def bufSize : ℕ := 65536

inductive ReadError where
  | wrongMagic (found : ℕ)
  | wrongChecksum (expected found : ℕ)
  | endsUnexpectedly
  | outOfMemory
  deriving DecidableEq

/-- `unread` is the part of the buffer from `cursor` to `used`. -/
structure ReadBuffer where
  unread : List UInt8
  calls : ℕ
  crc : UInt32
  deriving DecidableEq

/-- The read callback, which delivers no more than it is asked for in its `i`-th call, the
allocator, whose arrays have any contents, and the update of the checksum. -/
structure Environment where
  read : ℕ → ℕ → List UInt8
  read_le : ∀ i n, (read i n).length ≤ n
  alloc : ReadBuffer → ℕ → Option (List ℕ)
  alloc_length : ∀ b n sizes, alloc b n = some sizes → sizes.length = n
  comp : UInt32 → List UInt8 → UInt32

structure Reader where
  buffer : ReadBuffer
  totalChunks : ℕ
  consumedChunks : ℕ
  chunkSize : List ℕ
  chunkData : List ℕ
  chunkPosition : ℕ
  deriving DecidableEq

section

variable (env : Environment)

/-- Put bytes after those that `data` has got, which has space for `capacity` bytes. -/
def deliver (capacity : ℕ) (data bytes : List UInt8) (buffer : ReadBuffer) :
    Checked ReadError (List UInt8 × ReadBuffer) :=
  if data.length + bytes.length ≤ capacity then
    .ok (data ++ bytes, { buffer with crc := env.comp buffer.crc bytes })
  else .error .fault

def readLoop (capacity : ℕ) :
    ℕ → ℕ → List UInt8 → ReadBuffer → Checked ReadError (List UInt8 × ReadBuffer)
  | 0, _, _, _ => .error .fault
  | fuel + 1, length, data, buffer =>
    if length = 0 then .ok (data, buffer)
    else if buffer.unread ≠ [] then do
      let bytes := buffer.unread.take length
      let (data, buffer) ←
        deliver env capacity data bytes { buffer with unread := buffer.unread.drop length }
      readLoop capacity fuel (length - bytes.length) data buffer
    else if bufSize ≤ length then do
      let bytes := env.read buffer.calls length
      let (data, buffer) ←
        deliver env capacity data bytes { buffer with calls := buffer.calls + 1 }
      if bytes = [] then .error (.report .endsUnexpectedly)
      else readLoop capacity fuel (length - bytes.length) data buffer
    else
      let bytes := env.read buffer.calls bufSize
      if bytes = [] then .error (.report .endsUnexpectedly)
      else readLoop capacity fuel length data
        { buffer with unread := bytes, calls := buffer.calls + 1 }

/-- `BlockRefTableRead` into an array of `capacity` bytes, with at most two rounds for each byte. -/
def blockRefTableRead (capacity length : ℕ) (buffer : ReadBuffer) :
    Checked ReadError (List UInt8 × ReadBuffer) :=
  readLoop env capacity (2 * length + 2) length [] buffer

def createBlockRefTableReader : Checked ReadError Reader := do
  let (magic, buffer) ← blockRefTableRead env 4 4 ⟨[], 0, 0xFFFFFFFF⟩
  if littleEndian magic ≠ blockRefTableMagic then
    .error (.report (.wrongMagic (littleEndian magic)))
  else .ok ⟨buffer, 0, 0, [], List.replicate maxEntriesPerChunk 0, 0⟩

def uint16s : List UInt8 → List ℕ
  | low :: high :: bytes => littleEndian [low, high] :: uint16s bytes
  | _ => []

/-- `BlockRefTableReaderNextRelation`, with the locator and fork number as the bytes read. The
length of the chunk sizes is converted to `int`, and nothing is read if that is negative. -/
def readerNextRelation (reader : Reader) :
    Checked ReadError (Option (List UInt8 × ℕ) × Reader) := do
  let (sentry, buffer) ← blockRefTableRead env 24 24 reader.buffer
  if sentry.all (· = 0) then
    let expected := (buffer.crc ^^^ 0xFFFFFFFF).toNat
    let (actual, buffer) ← blockRefTableRead env 4 4 buffer
    if littleEndian actual ≠ expected then
      .error (.report (.wrongChecksum expected (littleEndian actual)))
    else .ok (none, { reader with buffer })
  else
    let nchunks := littleEndian (sentry.drop 20)
    match env.alloc buffer nchunks with
    | none => .error (.report .outOfMemory)
    | some sizes => do
      let length := nchunks * 2 % 2 ^ 32
      let (bytes, buffer) ←
        blockRefTableRead env (nchunks * 2) (if length < 2 ^ 31 then length else 0) buffer
      .ok (some (sentry.take 16, littleEndian ((sentry.drop 16).take 4)),
        { reader with
          buffer
          chunkSize := uint16s bytes ++ sizes.drop (bytes.length / 2)
          totalChunks := nchunks
          consumedChunks := 0 })

def fetch (array : List ℕ) (i : ℕ) : Checked ReadError ℕ :=
  match array[i]? with
  | none => .error .fault
  | some w => .ok w

/-- Look at the entries of a chunk from `position` on, as long as there is space for a block. -/
def scanEntries (nblocks : ℕ) (entry : ℕ → Checked ReadError (Option ℕ)) (limit : ℕ) :
    ℕ → ℕ → List ℕ → Checked ReadError (ℕ × List ℕ)
  | 0, position, blocks => .ok (position, blocks)
  | fuel + 1, position, blocks =>
    if position < limit ∧ blocks.length < nblocks then do
      match ← entry position with
      | none => scanEntries nblocks entry limit fuel (position + 1) blocks
      | some block =>
        if blocks.length < nblocks then
          scanEntries nblocks entry limit fuel (position + 1) (blocks ++ [block])
        else .error .fault
    else .ok (position, blocks)

def bitmapEntry (chunkno : ℕ) (data : List ℕ) (offset : ℕ) : Checked ReadError (Option ℕ) := do
  let w ← fetch data (offset / blocksPerEntry)
  .ok (if w &&& 1 <<< (offset % blocksPerEntry) ≠ 0 then
    some ((chunkno * blocksPerChunk + offset) % 2 ^ 32) else none)

def arrayEntry (chunkno : ℕ) (data : List ℕ) (position : ℕ) : Checked ReadError (Option ℕ) := do
  let offset ← fetch data position
  .ok (some ((chunkno * blocksPerChunk + offset) % 2 ^ 32))

/-- The blocks of the chunk read last. -/
def scanCurrent (nblocks : ℕ) (reader : Reader) (blocks : List ℕ) :
    Checked ReadError (ℕ × List ℕ) :=
  if reader.consumedChunks = 0 then .ok (reader.chunkPosition, blocks)
  else do
    let chunkno := reader.consumedChunks - 1
    let size ← fetch reader.chunkSize chunkno
    if size = maxEntriesPerChunk then
      scanEntries nblocks (bitmapEntry chunkno reader.chunkData) blocksPerChunk
        (blocksPerChunk - reader.chunkPosition) reader.chunkPosition blocks
    else
      scanEntries nblocks (arrayEntry chunkno reader.chunkData) size
        (size - reader.chunkPosition) reader.chunkPosition blocks

/-- The data of the next chunk. An empty one has none. -/
def readChunk (reader : Reader) : Checked ReadError Reader := do
  let size ← fetch reader.chunkSize reader.consumedChunks
  let (bytes, buffer) ← (if size > 0 then
      blockRefTableRead env (2 * maxEntriesPerChunk) (2 * size) reader.buffer
    else .ok ([], reader.buffer) : Checked ReadError (List UInt8 × ReadBuffer))
  .ok { reader with
    buffer
    chunkData := uint16s bytes ++ reader.chunkData.drop size
    consumedChunks := reader.consumedChunks + 1
    chunkPosition := 0 }

def getBlocksLoop (nblocks : ℕ) : ℕ → Reader → List ℕ → Checked ReadError (List ℕ × Reader)
  | 0, _, _ => .error .fault
  | fuel + 1, reader, blocks => do
    let (chunkPosition, blocks) ← scanCurrent nblocks reader blocks
    let reader := { reader with chunkPosition }
    if nblocks ≤ blocks.length then .ok (blocks, reader)
    else if reader.consumedChunks = reader.totalChunks then .ok (blocks, reader)
    else do
      let reader ← readChunk env reader
      getBlocksLoop nblocks fuel reader blocks

/-- `BlockRefTableReaderGetBlocks`. Each round consumes a chunk. -/
def readerGetBlocks (nblocks : ℕ) (reader : Reader) : Checked ReadError (List ℕ × Reader) :=
  getBlocksLoop env nblocks (reader.totalChunks - reader.consumedChunks + 1) reader []

inductive ReaderCall where
  | nextRelation
  | getBlocks (nblocks : ℕ)

def ReaderCall.run (reader : Reader) : ReaderCall → Checked ReadError Reader
  | nextRelation => do
    let (_, reader) ← readerNextRelation env reader
    .ok reader
  | getBlocks nblocks => do
    let (_, reader) ← readerGetBlocks env nblocks reader
    .ok reader

def readCalls (calls : List ReaderCall) : Checked ReadError Reader := do
  let reader ← createBlockRefTableReader env
  calls.foldlM (ReaderCall.run env) reader

end

/-! ## Accesses -/

structure Reader.Ok (reader : Reader) : Prop where
  data : reader.chunkData.length = maxEntriesPerChunk
  sizes : reader.chunkSize.length = reader.totalChunks
  consumed : reader.consumedChunks ≤ reader.totalChunks

/-- No chunk that the file announces is larger than `chunk_data`. -/
def Reader.Sized (reader : Reader) : Prop := ∀ size ∈ reader.chunkSize, size ≤ maxEntriesPerChunk

instance (reader : Reader) : Decidable reader.Sized := inferInstanceAs (Decidable (∀ _ ∈ _, _))

variable {env : Environment} {reader : Reader} {buffer : ReadBuffer} {capacity length nblocks : ℕ}

theorem deliver_safe {data bytes : List UInt8} (h : data.length + bytes.length ≤ capacity) :
    Safe (fun x => x.1.length = data.length + bytes.length ∧ x.2.unread = buffer.unread)
      (deliver env capacity data bytes buffer) := by
  rw [deliver, if_pos h]
  exact ⟨length_append, rfl⟩

theorem readLoop_safe {fuel : ℕ} {data : List UInt8} (hcap : data.length + length ≤ capacity)
    (hfuel : 2 * length + (if buffer.unread = [] then 1 else 0) < fuel) :
    Safe (fun x => x.1.length = data.length + length)
      (readLoop env capacity fuel length data buffer) := by
  induction fuel generalizing length data buffer with
  | zero => omega
  | succ fuel ih =>
    rw [readLoop]
    split_ifs with hzero hunread hdirect
    · simp [hzero]
    · have hpos : 0 < (buffer.unread.take length).length := by
        rw [length_take, lt_min_iff]
        exact ⟨by omega, length_pos_iff.mpr hunread⟩
      have hle : (buffer.unread.take length).length ≤ length := length_take_le ..
      refine (deliver_safe (by omega)).bind fun x hx => (ih ?_ ?_).imp fun y hy => ?_
      · omega
      · split <;> omega
      · omega
    · have hle := env.read_le buffer.calls length
      refine (deliver_safe (by omega)).bind fun x hx => .unless fun hne => ?_
      have hpos := length_pos_iff.mpr hne
      refine (ih ?_ ?_).imp fun y hy => ?_
      · omega
      · split <;> omega
      · omega
    · rw [if_pos (not_not.mp hunread)] at hfuel
      refine .unless fun hne => ih hcap ?_
      rw [if_neg hne]
      omega

theorem blockRefTableRead_safe (h : length ≤ capacity) :
    Safe (fun x => x.1.length = length) (blockRefTableRead env capacity length buffer) := by
  refine (readLoop_safe (by simpa using h) ?_).imp fun x hx => by simpa using hx
  split <;> omega

theorem length_uint16s (bytes : List UInt8) : (uint16s bytes).length = bytes.length / 2 := by
  fun_induction uint16s bytes with
  | case1 low high bytes ih => simp only [length_cons, ih]; omega
  | case2 bytes h =>
    rcases bytes with _ | ⟨low, _ | ⟨high, bytes⟩⟩
    · simp
    · simp
    · exact (h low high bytes rfl).elim

theorem fetch_safe {array : List ℕ} {i : ℕ} (h : i < array.length) :
    Safe (· ∈ array) (fetch array i) := by
  rw [fetch, List.getElem?_eq_getElem h]
  exact getElem_mem h

theorem scanEntries_safe {entry : ℕ → Checked ReadError (Option ℕ)} {limit : ℕ}
    (h : ∀ i < limit, Safe (fun _ => True) (entry i)) (fuel position : ℕ) (blocks : List ℕ) :
    Safe (fun _ => True) (scanEntries nblocks entry limit fuel position blocks) := by
  induction fuel generalizing position blocks with
  | zero => trivial
  | succ fuel ih =>
    rw [scanEntries]
    by_cases hlt : position < limit ∧ blocks.length < nblocks
    · rw [if_pos hlt]
      refine (h position hlt.1).bind fun block _ => ?_
      cases block with
      | none => exact ih ..
      | some block =>
        dsimp only
        rw [if_pos hlt.2]
        exact ih ..
    · rw [if_neg hlt]
      trivial

theorem Reader.Ok.scanCurrent (h : reader.Ok) (hsized : reader.Sized) (blocks : List ℕ) :
    Safe (fun _ => True) (scanCurrent nblocks reader blocks) := by
  have hlt := h.consumed
  rw [BlockRef.scanCurrent]
  split_ifs with hzero
  · trivial
  · refine (fetch_safe (by rw [h.sizes]; omega)).bind fun size hsize => ?_
    have hle := hsized size hsize
    split_ifs
    · refine scanEntries_safe (fun i hi => ?_) ..
      exact (fetch_safe (h.data ▸ Nat.div_lt_of_lt_mul hi)).bind fun _ _ => trivial
    · refine scanEntries_safe (fun i hi => ?_) ..
      exact (fetch_safe (h.data ▸ hi.trans_le hle)).bind fun _ _ => trivial

theorem Reader.Ok.readChunk (h : reader.Ok) (hsized : reader.Sized)
    (hlt : reader.consumedChunks < reader.totalChunks) :
    Safe (fun r => r.Ok ∧ r.chunkSize = reader.chunkSize ∧ r.totalChunks = reader.totalChunks ∧
      r.consumedChunks = reader.consumedChunks + 1) (readChunk env reader) := by
  refine (fetch_safe (h.sizes ▸ hlt)).bind fun size hsize => ?_
  have hle := hsized size hsize
  have hread : Safe (fun x : List UInt8 × ReadBuffer => x.1.length = 2 * size) (if size > 0 then
      blockRefTableRead env (2 * maxEntriesPerChunk) (2 * size) reader.buffer
      else .ok ([], reader.buffer)) := by
    split_ifs with hpos
    · exact blockRefTableRead_safe (by omega)
    · simp only [safe_ok, length_nil]
      omega
  refine hread.bind fun x hx => safe_ok.mpr ⟨⟨?_, h.sizes, hlt⟩, rfl, rfl, rfl⟩
  rw [length_append, length_uint16s, hx, length_drop, h.data]
  omega

theorem Reader.Ok.getBlocksLoop (h : reader.Ok) (hsized : reader.Sized) {fuel : ℕ}
    (hfuel : reader.totalChunks - reader.consumedChunks < fuel) (blocks : List ℕ) :
    Safe (fun x => x.2.Ok) (getBlocksLoop env nblocks fuel reader blocks) := by
  induction fuel generalizing reader blocks with
  | zero => omega
  | succ fuel ih =>
    have hle := h.consumed
    refine (h.scanCurrent hsized blocks).bind fun x _ => ?_
    have hok : ({ reader with chunkPosition := x.1 } : Reader).Ok := ⟨h.data, h.sizes, h.consumed⟩
    dsimp only
    split_ifs with hfull hlast
    · exact hok
    · exact hok
    · refine (hok.readChunk hsized (by dsimp only; omega)).bind fun r hr => ?_
      obtain ⟨hr, hsizes, htotal, hconsumed⟩ := hr
      dsimp only at htotal hconsumed
      exact ih hr (by rw [Reader.Sized, hsizes]; exact hsized) (by omega) x.2

theorem Reader.Ok.nextRelation (h : reader.Ok) :
    Safe (fun x => x.2.Ok) (readerNextRelation env reader) := by
  refine (blockRefTableRead_safe le_rfl).bind fun x _ => ?_
  dsimp only
  split
  · exact (blockRefTableRead_safe le_rfl).bind fun y _ =>
      .unless fun _ => ⟨h.data, h.sizes, h.consumed⟩
  · split
    · trivial
    · rename_i sizes hsizes
      refine (blockRefTableRead_safe (by split <;> omega)).bind fun y hy =>
        ⟨h.data, ?_, Nat.zero_le _⟩
      rw [length_append, length_uint16s, length_drop, env.alloc_length _ _ _ hsizes, hy]
      dsimp only
      split <;> omega

theorem createBlockRefTableReader_safe : Safe Reader.Ok (createBlockRefTableReader env) :=
  (blockRefTableRead_safe le_rfl).bind fun _ _ => .unless fun _ =>
    ⟨length_replicate, rfl, le_rfl⟩

/-- A file with one relation fork, that arrives in four pieces. -/
def oneFork (size data : List UInt8) : Environment where
  read i n := (([[0x7b, 0x13, 0x2b, 0x65],
    List.replicate 8 1 ++ List.replicate 12 0 ++ [1, 0, 0, 0], size, data] :
    List (List UInt8)).getD i []).take n
  read_le _ _ := length_take_le ..
  alloc _ n := some (List.replicate n 0)
  alloc_length := by rintro _ n _ ⟨⟩; exact length_replicate
  comp crc _ := crc

end PostgreSieve.BlockRef
