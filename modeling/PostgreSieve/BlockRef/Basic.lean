import Mathlib.Algebra.Group.Nat.Defs
import PostgreSieve.Lists.Cells

/-! # Block reference table entries

An entry records the modified blocks of a relation fork. The blocks are grouped in chunks, and a chunk
is an array of offsets or, once it would hold too many of them, a bitmap.
-/

namespace PostgreSieve.BlockRef

open Cells

def invalidBlockNumber : ℕ := 0xFFFFFFFF

def blocksPerChunk : ℕ := 2 ^ 16

def blocksPerEntry : ℕ := 16

def maxEntriesPerChunk : ℕ := blocksPerChunk / blocksPerEntry

def initialEntriesPerChunk : ℕ := 16

/-- One element of `chunk_size`, `chunk_usage` and `chunk_data`. -/
structure Chunk where
  size : ℕ
  usage : ℕ
  data : List (Option ℕ)

structure Entry where
  limitBlock : ℕ
  chunks : List Chunk

def Entry.nchunks (entry : Entry) : ℕ := entry.chunks.length

/-- `CreateBlockRefTableEntry`. -/
def Entry.create : Entry := ⟨invalidBlockNumber, []⟩

/-! ## Words of a bitmap -/

def setBit (data : List (Option ℕ)) (offset : ℕ) : Option (List (Option ℕ)) := do
  let w ← readCell data (offset / blocksPerEntry)
  writeCell data (offset / blocksPerEntry) (w ||| 1 <<< (offset % blocksPerEntry))

def clearBit (data : List (Option ℕ)) (offset : ℕ) : Option (List (Option ℕ)) := do
  let w ← readCell data (offset / blocksPerEntry)
  writeCell data (offset / blocksPerEntry) (w &&& (0xFFFF ^^^ 1 <<< (offset % blocksPerEntry)))

namespace Chunk

def fresh : Chunk := ⟨0, 0, []⟩

def isBitmap (chunk : Chunk) : Prop := chunk.usage = maxEntriesPerChunk

instance (chunk : Chunk) : Decidable chunk.isBitmap :=
  inferInstanceAs (Decidable (chunk.usage = maxEntriesPerChunk))

/-! ## Discarding blocks -/

/-- Unset `n` bits. -/
def clearBits : ℕ → ℕ → List (Option ℕ) → Option (List (Option ℕ))
  | 0, _, data => some data
  | n + 1, offset, data => do
    let data ← clearBit data offset
    clearBits n (offset + 1) data

/-- Filter out large offsets, with `n` left. -/
def filterOffsets (limit : ℕ) :
    ℕ → ℕ → ℕ → List (Option ℕ) → Option (ℕ × List (Option ℕ))
  | 0, _, j, data => some (j, data)
  | n + 1, i, j, data => do
    let offset ← readCell data i
    if offset < limit then do
      let data ← writeCell data j offset
      filterOffsets limit n (i + 1) (j + 1) data
    else filterOffsets limit n (i + 1) j data

/-- Discard the offsets from a limit on. -/
def setLimit (chunk : Chunk) (limit : ℕ) : Option Chunk :=
  if chunk.isBitmap then do
    let data ← clearBits (blocksPerChunk - limit) limit chunk.data
    some { chunk with data := data }
  else do
    let (usage, data) ← filterOffsets limit chunk.usage 0 0 chunk.data
    some { chunk with usage := usage, data := data }

/-! ## Marking a block -/

def search (data : List (Option ℕ)) (offset : ℕ) : ℕ → ℕ → Option Bool
  | 0, _ => some false
  | n + 1, i => do
    let w ← readCell data i
    if w = offset then some true else search data offset n (i + 1)

/-- Set the bit for each existing entry. -/
def convert (data : List (Option ℕ)) : ℕ → ℕ → List (Option ℕ) → Option (List (Option ℕ))
  | 0, _, newchunk => some newchunk
  | n + 1, j, newchunk => do
    let coff ← readCell data j
    let newchunk ← setBit newchunk coff
    convert data n (j + 1) newchunk

def enlarge (chunk : Chunk) : Chunk :=
  if chunk.usage = chunk.size then
    { chunk with
      size := chunk.size * 2
      data := chunk.data ++ List.replicate chunk.size none }
  else chunk

/-- Add an offset that the array does not hold. -/
def add (chunk : Chunk) (offset : ℕ) : Option Chunk :=
  if chunk.usage = maxEntriesPerChunk - 1 then do
    let newchunk ← convert chunk.data chunk.usage 0 (List.replicate maxEntriesPerChunk (some 0))
    let newchunk ← setBit newchunk offset
    some ⟨maxEntriesPerChunk, maxEntriesPerChunk, newchunk⟩
  else do
    let chunk := chunk.enlarge
    let data ← writeCell chunk.data chunk.usage offset
    some { chunk with usage := chunk.usage + 1, data := data }

def mark (chunk : Chunk) (offset : ℕ) : Option Chunk :=
  if chunk.size = 0 then
    some ⟨initialEntriesPerChunk, 1, some offset :: List.replicate (initialEntriesPerChunk - 1) none⟩
  else if chunk.isBitmap then do
    let data ← setBit chunk.data offset
    some { chunk with data := data }
  else do
    let found ← search chunk.data offset chunk.usage 0
    if found then some chunk else chunk.add offset

end Chunk

namespace Entry

/-- Double the number of chunks until it suffices. -/
def growChunks (wanted : ℕ) : ℕ → ℕ → ℕ
  | 0, maxChunks => maxChunks
  | fuel + 1, maxChunks =>
    if maxChunks < wanted then growChunks wanted fuel (maxChunks * 2) else maxChunks

/-- `BlockRefTableEntryMarkBlockModified`. -/
def markBlockModified (entry : Entry) (blknum : ℕ) : Option Entry := do
  let chunkno := blknum / blocksPerChunk
  let chunks :=
    if entry.nchunks ≤ chunkno then
      let maxChunks := growChunks (chunkno + 1) (chunkno + 1) (max 16 entry.nchunks)
      entry.chunks ++ List.replicate (maxChunks - entry.nchunks) Chunk.fresh
    else entry.chunks
  let chunk ← chunks[chunkno]?
  let chunk ← chunk.mark (blknum % blocksPerChunk)
  some { entry with chunks := chunks.set chunkno chunk }

/-- `BlockRefTableEntrySetLimitBlock`. -/
def setLimitBlock (entry : Entry) (limitBlock : ℕ) : Option Entry :=
  if entry.limitBlock ≤ limitBlock then some entry
  else
    let limitChunkno := limitBlock / blocksPerChunk
    if entry.nchunks ≤ limitChunkno then some { entry with limitBlock := limitBlock }
    else do
      let chunks := entry.chunks.take (limitChunkno + 1) ++
        (entry.chunks.drop (limitChunkno + 1)).map fun chunk => { chunk with usage := 0 }
      let chunk ← chunks[limitChunkno]?
      let chunk ← chunk.setLimit (limitBlock % blocksPerChunk)
      some ⟨limitBlock, chunks.set limitChunkno chunk⟩

/-! ## Getting blocks -/

/-- Put a block into the output. The flag tells that there is no more space. -/
def emit (nblocks blkno : ℕ) (blocks : List ℕ) : List ℕ × Bool :=
  (blocks ++ [blkno], (blocks ++ [blkno]).length = nblocks)

/-- Test `n` bits from `i` on. -/
def scanBitmap (data : List (Option ℕ)) (base nblocks : ℕ) :
    ℕ → ℕ → List ℕ → Option (List ℕ × Bool)
  | 0, _, blocks => some (blocks, false)
  | n + 1, i, blocks => do
    let w ← readCell data (i / blocksPerEntry)
    if w &&& 1 <<< (i % blocksPerEntry) ≠ 0 then
      let (blocks, full) := emit nblocks (base + i) blocks
      if full then some (blocks, true) else scanBitmap data base nblocks n (i + 1) blocks
    else scanBitmap data base nblocks n (i + 1) blocks

/-- Check `n` offsets from index `i` on. -/
def scanArray (data : List (Option ℕ)) (base nblocks startOffset stopOffset : ℕ) :
    ℕ → ℕ → List ℕ → Option (List ℕ × Bool)
  | 0, _, blocks => some (blocks, false)
  | n + 1, i, blocks => do
    let offset ← readCell data i
    if startOffset ≤ offset ∧ offset < stopOffset then
      let (blocks, full) := emit nblocks (base + offset) blocks
      if full then some (blocks, true)
      else scanArray data base nblocks startOffset stopOffset n (i + 1) blocks
    else scanArray data base nblocks startOffset stopOffset n (i + 1) blocks

def scanChunk (chunk : Chunk) (base nblocks startOffset stopOffset : ℕ) (blocks : List ℕ) :
    Option (List ℕ × Bool) :=
  if chunk.isBitmap then
    scanBitmap chunk.data base nblocks (stopOffset - startOffset) startOffset blocks
  else scanArray chunk.data base nblocks startOffset stopOffset chunk.usage 0 blocks

/-- The loop over `n` chunks from `chunkno` on. -/
def getBlocksLoop (entry : Entry) (startBlkno stopBlkno stopChunkno nblocks : ℕ) :
    ℕ → ℕ → List ℕ → Option (List ℕ)
  | 0, _, blocks => some blocks
  | n + 1, chunkno, blocks => do
    let chunk ← entry.chunks[chunkno]?
    let startOffset :=
      if chunkno = startBlkno / blocksPerChunk then startBlkno % blocksPerChunk else 0
    let stopOffset :=
      if chunkno = stopChunkno - 1 then stopBlkno - chunkno * blocksPerChunk else blocksPerChunk
    let (blocks, full) ←
      scanChunk chunk (chunkno * blocksPerChunk) nblocks startOffset stopOffset blocks
    if full then some blocks
    else getBlocksLoop entry startBlkno stopBlkno stopChunkno nblocks n (chunkno + 1) blocks

/-- `BlockRefTableEntryGetBlocks`. -/
def getBlocks (entry : Entry) (startBlkno stopBlkno nblocks : ℕ) : Option (List ℕ) :=
  let startChunkno := startBlkno / blocksPerChunk
  let stopChunkno := stopBlkno / blocksPerChunk
  let stopChunkno := if stopBlkno % blocksPerChunk ≠ 0 then stopChunkno + 1 else stopChunkno
  let stopChunkno := if entry.nchunks < stopChunkno then entry.nchunks else stopChunkno
  getBlocksLoop entry startBlkno stopBlkno stopChunkno nblocks (stopChunkno - startChunkno)
    startChunkno []

end Entry

end PostgreSieve.BlockRef
