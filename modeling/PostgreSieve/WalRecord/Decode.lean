import PostgreSieve.Runs.Checked
import PostgreSieve.Wal.Position

/-! # Decoding a WAL record

`DecodeXLogRecord` reads the headers of a record, then copies the images and data that follow them
to an area of memory that the caller provides, and `RestoreBlockImage` makes a page of an image.
Memory is accessed through checked reads and writes that fault outside of the record, the area or
the page. Numbers are stored in little-endian order.
-/

namespace PostgreSieve.WalRecord

open Wal (maxAlign sizeOfXLogRecord)

def xlrMaxBlockId : ℕ := 32
def blcksz : ℕ := 8192

/-- `offsetof(DecodedXLogRecord, blocks)`. -/
def offsetOfBlocks : ℕ := 88

/-- `sizeof(DecodedBkpBlock)`. -/
def sizeOfDecodedBkpBlock : ℕ := 64

/-- The errors reported, with the numbers that stand in their texts. -/
inductive Message where
  | invalidLength
  | outOfOrder (blockId : ℕ)
  | hasDataWithoutData
  | dataWithoutHasData (dataLen : ℕ)
  | hasHole (holeOffset holeLength bimgLen : ℕ)
  | hasNoHole (holeOffset holeLength : ℕ)
  | compressedLength (bimgLen : ℕ)
  | wholeLength (dataLen : ℕ)
  | sameRelWithoutRel
  | invalidBlockId (blockId : ℕ)
  | noSuchBlock (blockId : ℕ)
  | noImage (blockId : ℕ)
  | notSupported (blockId : ℕ)
  | notDecompressed (blockId : ℕ)
  deriving DecidableEq

/-- A block reference in use. -/
structure DecodedBkpBlock where
  id : ℕ
  flags : ℕ := 0
  rlocator : List UInt8 := []
  blkno : ℕ := 0
  applyImage : Bool := false
  bkpImage : List UInt8 := []
  holeOffset : ℕ := 0
  holeLength : ℕ := 0
  bimgLen : ℕ := 0
  bimgInfo : ℕ := 0
  data : List UInt8 := []
  dataLen : ℕ := 0
  deriving DecidableEq

namespace DecodedBkpBlock

def forknum (blk : DecodedBkpBlock) : ℕ := blk.flags % 16

/-- `BKPBLOCK_HAS_IMAGE`. -/
def hasImage (blk : DecodedBkpBlock) : Bool := blk.flags.testBit 4

/-- `BKPBLOCK_HAS_DATA`. -/
def hasData (blk : DecodedBkpBlock) : Bool := blk.flags.testBit 5

/-- `BKPBLOCK_SAME_REL`. -/
def sameRel (blk : DecodedBkpBlock) : Bool := blk.flags.testBit 7

/-- `BKPIMAGE_HAS_HOLE`. -/
def hasHole (blk : DecodedBkpBlock) : Bool := blk.bimgInfo.testBit 0

/-- `BKPIMAGE_COMPRESSED`, by pglz, LZ4 or zstd. -/
def compressed (blk : DecodedBkpBlock) : Bool :=
  blk.bimgInfo.testBit 2 || blk.bimgInfo.testBit 3 || blk.bimgInfo.testBit 4

end DecodedBkpBlock

/-- The blocks in use stand in a list, in the order of their numbers; `nblocks` is
`max_block_id + 1`. -/
structure DecodedXLogRecord where
  recordOrigin : ℕ := 0
  toplevelXid : ℕ := 0
  mainData : List UInt8 := []
  mainDataLen : ℕ := 0
  nblocks : ℕ := 0
  blocks : List DecodedBkpBlock := []
  size : ℕ := 0
  deriving DecidableEq

def decodeXLogRecordRequiredSpace (xlTotLen : ℕ) : ℕ :=
  offsetOfBlocks + sizeOfDecodedBkpBlock * (xlrMaxBlockId + 1) + xlTotLen + 7
    + 7 * (xlrMaxBlockId + 1) + 7

def littleEndian (bytes : List UInt8) : ℕ := bytes.foldr (fun byte n => byte.toNat + 256 * n) 0

def readBytes (record : List UInt8) (ptr size : ℕ) : Checked Message (List UInt8) :=
  if ptr + size ≤ record.length then .ok ((record.drop ptr).take size) else .error .fault

def writeBytes (capacity out size : ℕ) : Checked Message Unit :=
  if out + size ≤ capacity then .ok () else .error .fault

/-! ## The headers -/

structure Headers where
  ptr : ℕ
  remaining : ℕ
  datatotal : ℕ := 0
  rlocator : Option (List UInt8) := none
  decoded : DecodedXLogRecord := {}
  deriving DecidableEq

section Headers

variable (record : List UInt8) (capacity : ℕ)

/-- `COPY_HEADER_FIELD`. -/
def copyHeaderField (size : ℕ) (h : Headers) : Checked Message (List UInt8 × Headers) :=
  if h.remaining < size then .error (.report .invalidLength)
  else do
    let bytes ← readBytes record h.ptr size
    .ok (bytes, { h with ptr := h.ptr + size, remaining := h.remaining - size })

/-- The total of the data lengths is a `uint32`. -/
def Headers.addData (h : Headers) (length : ℕ) : Headers :=
  { h with datatotal := (h.datatotal + length) % 2 ^ 32 }

/-- The length of the hole; one that is not stored is computed as a `uint16`. -/
def decodeHoleLength (blk : DecodedBkpBlock) (h : Headers) : Checked Message (ℕ × Headers) :=
  if blk.compressed then
    if blk.hasHole then do
      let (bytes, h) ← copyHeaderField record 2 h
      .ok (littleEndian bytes, h)
    else .ok (0, h)
  else .ok ((blcksz + 2 ^ 16 - blk.bimgLen) % 2 ^ 16, h)

/-- The cross-checks of an image header. -/
def checkImageHeader (blk : DecodedBkpBlock) : Checked Message Unit :=
  if blk.hasHole && (blk.holeOffset = 0 || blk.holeLength = 0 || blk.bimgLen = blcksz) then
    .error (.report (.hasHole blk.holeOffset blk.holeLength blk.bimgLen))
  else if !blk.hasHole && (blk.holeOffset ≠ 0 || blk.holeLength ≠ 0) then
    .error (.report (.hasNoHole blk.holeOffset blk.holeLength))
  else if blk.compressed && blk.bimgLen = blcksz then
    .error (.report (.compressedLength blk.bimgLen))
  else if !blk.hasHole && !blk.compressed && blk.bimgLen ≠ blcksz then
    .error (.report (.wholeLength blk.dataLen))
  else .ok ()

def decodeImageHeader (blk : DecodedBkpBlock) (h : Headers) :
    Checked Message (DecodedBkpBlock × Headers) := do
  let (bimgLen, h) ← copyHeaderField record 2 h
  let (holeOffset, h) ← copyHeaderField record 2 h
  let (bimgInfo, h) ← copyHeaderField record 1 h
  let blk := { blk with
    bimgLen := littleEndian bimgLen
    holeOffset := littleEndian holeOffset
    bimgInfo := littleEndian bimgInfo
    applyImage := (littleEndian bimgInfo).testBit 1 }
  let (holeLength, h) ← decodeHoleLength record blk h
  let blk := { blk with holeLength }
  checkImageHeader blk
  .ok (blk, h.addData blk.bimgLen)

def decodeImage (blk : DecodedBkpBlock) (h : Headers) :
    Checked Message (DecodedBkpBlock × Headers) :=
  if blk.hasImage then decodeImageHeader record blk h else .ok (blk, h)

/-- The locator of the relation, which is that of the previous block reference or follows. -/
def decodeLocator (blk : DecodedBkpBlock) (h : Headers) :
    Checked Message (DecodedBkpBlock × Headers) :=
  if blk.sameRel then
    match h.rlocator with
    | none => .error (.report .sameRelWithoutRel)
    | some rlocator => .ok ({ blk with rlocator }, h)
  else do
    let (rlocator, h) ← copyHeaderField record 12 h
    .ok ({ blk with rlocator }, { h with rlocator := some rlocator })

/-- A block reference. -/
def decodeBlock (blockId : ℕ) (h : Headers) : Checked Message Headers :=
  if blockId < h.decoded.nblocks then .error (.report (.outOfOrder blockId))
  else do
    writeBytes capacity (offsetOfBlocks + sizeOfDecodedBkpBlock * blockId) sizeOfDecodedBkpBlock
    let (flags, h) ← copyHeaderField record 1 h
    let (dataLen, h) ← copyHeaderField record 2 h
    let blk : DecodedBkpBlock :=
      { id := blockId, flags := littleEndian flags, dataLen := littleEndian dataLen }
    if blk.hasData && blk.dataLen = 0 then .error (.report .hasDataWithoutData)
    else if !blk.hasData && blk.dataLen ≠ 0 then
      .error (.report (.dataWithoutHasData blk.dataLen))
    else
      let (blk, h) ← decodeImage record blk (h.addData blk.dataLen)
      let (blk, h) ← decodeLocator record blk h
      let (blkno, h) ← copyHeaderField record 4 h
      let blk := { blk with blkno := littleEndian blkno }
      .ok { h with decoded := { h.decoded with
        nblocks := blockId + 1, blocks := h.decoded.blocks ++ [blk] } }

def setMainDataLen (bytes : List UInt8) (h : Headers) : Headers :=
  { h with decoded := { h.decoded with mainDataLen := littleEndian bytes } }.addData
    (littleEndian bytes)

/-- The loop over the headers. It is left after the header of the main data, and `fuel` bounds the
number of headers. -/
def decodeHeaders : ℕ → Headers → Checked Message Headers
  | 0, _ => .error .fault
  | fuel + 1, h =>
    if h.remaining > h.datatotal then do
      let (id, h) ← copyHeaderField record 1 h
      let blockId := littleEndian id
      if blockId = 255 then do
        let (bytes, h) ← copyHeaderField record 1 h
        .ok (setMainDataLen bytes h)
      else if blockId = 254 then do
        let (bytes, h) ← copyHeaderField record 4 h
        .ok (setMainDataLen bytes h)
      else if blockId = 253 then do
        let (bytes, h) ← copyHeaderField record 2 h
        decodeHeaders fuel
          { h with decoded := { h.decoded with recordOrigin := littleEndian bytes } }
      else if blockId = 252 then do
        let (bytes, h) ← copyHeaderField record 4 h
        decodeHeaders fuel
          { h with decoded := { h.decoded with toplevelXid := littleEndian bytes } }
      else if blockId ≤ xlrMaxBlockId then do
        let h ← decodeBlock record capacity blockId h
        decodeHeaders fuel h
      else .error (.report (.invalidBlockId blockId))
    else .ok h

/-! ## The data -/

structure Cursor where
  ptr : ℕ
  out : ℕ

/-- `memcpy` from the record to the area. -/
def copyData (length : ℕ) (c : Cursor) : Checked Message (List UInt8 × Cursor) := do
  let bytes ← readBytes record c.ptr length
  writeBytes capacity c.out length
  .ok (bytes, ⟨c.ptr + length, c.out + length⟩)

def copyImage (blk : DecodedBkpBlock) (c : Cursor) :
    Checked Message (DecodedBkpBlock × Cursor) :=
  if blk.hasImage then do
    let (bkpImage, c) ← copyData record capacity blk.bimgLen c
    .ok ({ blk with bkpImage }, c)
  else .ok (blk, c)

def copyBlock (blk : DecodedBkpBlock) (c : Cursor) :
    Checked Message (DecodedBkpBlock × Cursor) := do
  let (blk, c) ← copyImage record capacity blk c
  if blk.hasData then do
    let (data, c) ← copyData record capacity blk.dataLen { c with out := maxAlign c.out }
    .ok ({ blk with data }, c)
  else .ok (blk, c)

def copyBlocks : List DecodedBkpBlock → Cursor → Checked Message (List DecodedBkpBlock × Cursor)
  | [], c => .ok ([], c)
  | blk :: blks, c => do
    let (blk, c) ← copyBlock record capacity blk c
    let (blks, c) ← copyBlocks blks c
    .ok (blk :: blks, c)

def copyMainData (decoded : DecodedXLogRecord) (c : Cursor) :
    Checked Message (DecodedXLogRecord × Cursor) :=
  if decoded.mainDataLen > 0 then do
    let (mainData, c) ← copyData record capacity decoded.mainDataLen { c with out := maxAlign c.out }
    .ok ({ decoded with mainData }, c)
  else .ok (decoded, c)

/-- The headers of a record, as far as the test of their lengths. -/
def parseHeaders : Checked Message Headers := do
  writeBytes capacity 0 offsetOfBlocks
  let header ← readBytes record 0 sizeOfXLogRecord
  let remaining := littleEndian (header.take 4) - sizeOfXLogRecord
  let h ← decodeHeaders record capacity (remaining + 1) { ptr := sizeOfXLogRecord, remaining }
  if h.remaining ≠ h.datatotal then .error (.report .invalidLength) else .ok h

/-- `DecodeXLogRecord` with an area of `capacity` bytes. -/
def decodeXLogRecord : Checked Message DecodedXLogRecord := do
  let h ← parseHeaders record capacity
  let out := offsetOfBlocks + sizeOfDecodedBkpBlock * h.decoded.nblocks
  let (blocks, c) ← copyBlocks record capacity h.decoded.blocks ⟨h.ptr, out⟩
  let (decoded, c) ← copyMainData record capacity { h.decoded with blocks } c
  let size := maxAlign c.out
  if size ≤ decodeXLogRecordRequiredSpace record.length then .ok { decoded with size }
  else .error .fault

end Headers

/-! ## Restoring a page -/

inductive Compression where
  | pglz
  | lz4
  | zstd

/-- The decompressors of a build, and what the temporary page on the stack contains. A decompressor
is given the space for its output. -/
structure Build where
  supports : Compression → Bool
  decompress : Compression → List UInt8 → ℕ → Option (List UInt8)
  stack : List UInt8
  stack_length : stack.length = blcksz
  decompress_le : ∀ method bytes space output,
    decompress method bytes space = some output → output.length ≤ space

/-- The method in the order of the tests of `RestoreBlockImage`. -/
def DecodedBkpBlock.method (blk : DecodedBkpBlock) : Compression :=
  if blk.bimgInfo.testBit 2 then .pglz else if blk.bimgInfo.testBit 3 then .lz4 else .zstd

/-- The space for the output, `BLCKSZ - hole_length`. pglz and LZ4 take an `int` and fail on a
negative one; zstd takes a `size_t`. -/
def outputSpace (method : Compression) (holeLength : ℕ) : Option ℕ :=
  if holeLength ≤ blcksz then some (blcksz - holeLength)
  else match method with
    | .zstd => some (2 ^ 64 + blcksz - holeLength)
    | _ => none

/-- The bytes of an image without its hole: the image itself or the temporary page. -/
def imageBytes (build : Build) (blk : DecodedBkpBlock) : Checked Message (List UInt8) :=
  if blk.compressed then
    if build.supports blk.method then
      match (outputSpace blk.method blk.holeLength).bind
          (build.decompress blk.method blk.bkpImage) with
      | none => .error (.report (.notDecompressed blk.id))
      | some output =>
        if output.length ≤ blcksz then .ok (output ++ build.stack.drop output.length)
        else .error .fault
    else .error (.report (.notSupported blk.id))
  else .ok blk.bkpImage

/-- The page is written from its start to its end. -/
def restorePage (blk : DecodedBkpBlock) (bytes : List UInt8) : Checked Message (List UInt8) :=
  if blk.holeLength = 0 then readBytes bytes 0 blcksz
  else do
    writeBytes blcksz 0 blk.holeOffset
    let before ← readBytes bytes 0 blk.holeOffset
    writeBytes blcksz blk.holeOffset blk.holeLength
    let after ← readBytes bytes blk.holeOffset (blcksz - (blk.holeOffset + blk.holeLength))
    .ok (before ++ List.replicate blk.holeLength 0 ++ after)

/-- `RestoreBlockImage`: what it writes to the page. -/
def restoreBlockImage (build : Build) (decoded : DecodedXLogRecord) (blockId : ℕ) :
    Checked Message (List UInt8) :=
  match decoded.blocks.find? (·.id = blockId) with
  | none => .error (.report (.noSuchBlock blockId))
  | some blk =>
    if blk.hasImage then do
      let bytes ← imageBytes build blk
      restorePage blk bytes
    else .error (.report (.noImage blockId))

end PostgreSieve.WalRecord
