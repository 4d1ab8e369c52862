import Mathlib.Data.Nat.Log
import Mathlib.Data.Rat.Floor

/-! # Addressing in a hash index

The pages of a hash index are the metapage, the buckets and the overflow pages. Buckets are allocated in
batches, one for each splitpoint phase, and the overflow pages that were needed meanwhile lie between
two batches.
-/

namespace PostgreSieve.HashIndex

def invalidBlockNumber : ℕ := 0xFFFFFFFF

/-- Arithmetic of `uint32`. -/
def uint32 (n : ℕ) : ℕ := n % 2 ^ 32

/-! ## Bit utilities -/

/-- The position of the most significant bit of a word that is not zero. -/
def leftmostOnePos32 (word : ℕ) : ℕ := Nat.log2 word

def ceilLog2 (num : ℕ) : ℕ := if num < 2 then 0 else leftmostOnePos32 (num - 1) + 1

def nextpower2 (num : ℕ) : ℕ :=
  if num &&& (num - 1) = 0 then num else 1 <<< (leftmostOnePos32 num + 1)

/-! ## Splitpoints -/

def splitpointPhaseBits : ℕ := 2

def splitpointPhaseMask : ℕ := 1 <<< splitpointPhaseBits - 1

def splitpointGroupsWithOnePhase : ℕ := 10

def maxSplitpointGroup : ℕ := 32

def maxSplitpoints : ℕ :=
  (maxSplitpointGroup - splitpointGroupsWithOnePhase) * (1 <<< splitpointPhaseBits) +
    splitpointGroupsWithOnePhase

/-- The splitpoint phase of the bucket with a 1-based number. -/
def spareindex (numBucket : ℕ) : ℕ :=
  let splitpointGroup := ceilLog2 numBucket
  if splitpointGroup < splitpointGroupsWithOnePhase then splitpointGroup
  else splitpointGroupsWithOnePhase +
    ((splitpointGroup - splitpointGroupsWithOnePhase) <<< splitpointPhaseBits) +
    (((numBucket - 1) >>> (splitpointGroup - (splitpointPhaseBits + 1))) &&& splitpointPhaseMask)

/-- The number of buckets allocated up to a splitpoint phase. -/
def getTotalbuckets (splitpointPhase : ℕ) : ℕ :=
  if splitpointPhase < splitpointGroupsWithOnePhase then 1 <<< splitpointPhase
  else
    let splitpointGroup := splitpointGroupsWithOnePhase +
      ((splitpointPhase - splitpointGroupsWithOnePhase) >>> splitpointPhaseBits)
    let phasesWithinSplitpointGroup :=
      ((splitpointPhase - splitpointGroupsWithOnePhase) &&& splitpointPhaseMask) + 1
    1 <<< (splitpointGroup - 1) +
      ((1 <<< (splitpointGroup - 1)) >>> splitpointPhaseBits) * phasesWithinSplitpointGroup

/-! ## The metapage -/

/-- The fields of `HashMetaPageData` that take part in addressing. -/
structure HashMeta where
  bmshift : ℕ
  maxbucket : ℕ
  highmask : ℕ
  lowmask : ℕ
  ovflpoint : ℕ
  nmaps : ℕ
  /-- The number of overflow pages at or before each splitpoint phase. -/
  spares : ℕ → ℕ

def maxBitmaps : ℕ := 1024

/-- The initial number of buckets, for the quotient of the number of tuples and the fill factor. -/
def initialBuckets (dnumbuckets : ℚ) : ℕ :=
  if dnumbuckets ≤ 2 then 2
  else if 0x40000000 ≤ dnumbuckets then 0x40000000
  else getTotalbuckets (spareindex ⌊dnumbuckets⌋₊)

/-- `_hash_init_metabuffer`. -/
def initMetabuffer (dnumbuckets : ℚ) (bmshift : ℕ) : HashMeta :=
  let numBuckets := initialBuckets dnumbuckets
  let spareIndex := spareindex numBuckets
  let highmask := nextpower2 (numBuckets + 1) - 1
  { bmshift := bmshift
    maxbucket := numBuckets - 1
    highmask := highmask
    lowmask := highmask >>> 1
    ovflpoint := spareIndex
    nmaps := 0
    spares := Function.update (fun _ => 0) spareIndex 1 }

namespace HashMeta

/-- The block of a bucket's first page. -/
def bucketToBlkno (metap : HashMeta) (bucket : ℕ) : ℕ :=
  uint32 (uint32 (bucket + if bucket ≠ 0 then metap.spares (spareindex (bucket + 1) - 1) else 0) + 1)

/-- The loop of `bitno_to_blkno` from phase `i` on, with `fuel` phases left. -/
def bitnoPhase (metap : HashMeta) (ovflbitnum : ℕ) : ℕ → ℕ → ℕ
  | 0, i => i
  | fuel + 1, i =>
    if metap.spares i < ovflbitnum then bitnoPhase metap ovflbitnum fuel (i + 1) else i

/-- The block of an overflow page, by its index in the free-page bitmaps. -/
def bitnoToBlkno (metap : HashMeta) (ovflbitnum : ℕ) : ℕ :=
  let ovflbitnum := uint32 (ovflbitnum + 1)
  let i := bitnoPhase metap ovflbitnum (metap.ovflpoint - 1) 1
  uint32 (getTotalbuckets i + ovflbitnum)

/-- The loop of `_hash_ovflblkno_to_bitno` from phase `i` on, with `fuel` phases left. -/
def ovflblknoLoop (metap : HashMeta) (ovflblkno : ℕ) : ℕ → ℕ → Option ℕ
  | 0, _ => none
  | fuel + 1, i =>
    if ovflblkno ≤ getTotalbuckets i then none
    else
      let bitnum := ovflblkno - getTotalbuckets i
      if metap.spares (i - 1) < bitnum ∧ bitnum ≤ metap.spares i then some (bitnum - 1)
      else ovflblknoLoop metap ovflblkno fuel (i + 1)

/-- The inverse of `bitnoToBlkno`, an error for a block that is not an overflow page. -/
def ovflblknoToBitno (metap : HashMeta) (ovflblkno : ℕ) : Option ℕ :=
  ovflblknoLoop metap ovflblkno metap.ovflpoint 1

/-- `_hash_alloc_buckets` fails if a block number overflows. -/
def allocBuckets (firstblock nblocks : ℕ) : Bool :=
  let lastblock := uint32 (uint32 (firstblock + nblocks) + (2 ^ 32 - 1))
  !(lastblock < firstblock || lastblock = invalidBlockNumber)

/-- The updates of `_hash_expandtable`, unless it fails. -/
def expandtable (metap : HashMeta) : Option HashMeta :=
  if 0x7FFFFFFE ≤ metap.maxbucket then none
  else
    let newBucket := metap.maxbucket + 1
    let startNblkno := metap.bucketToBlkno newBucket
    let spareNdx := spareindex (newBucket + 1)
    if metap.ovflpoint < spareNdx ∧
        !allocBuckets startNblkno (getTotalbuckets spareNdx - newBucket) then none
    else
      let metap := { metap with maxbucket := newBucket }
      let metap :=
        if metap.highmask < newBucket then
          { metap with lowmask := metap.highmask, highmask := newBucket ||| metap.highmask }
        else metap
      some (
        if metap.ovflpoint < spareNdx then
          { metap with
            spares := Function.update metap.spares spareNdx (metap.spares metap.ovflpoint)
            ovflpoint := spareNdx }
        else metap)

/-- Whether the last bitmap page is full. -/
def needsBitmap (metap : HashMeta) : Bool :=
  (metap.spares metap.ovflpoint - 1) &&& (1 <<< metap.bmshift - 1) = 1 <<< metap.bmshift - 1

/-- The updates of `_hash_addovflpage` if no page can be recycled. There may be too many bitmap pages. -/
def addovflpage (metap : HashMeta) : Option HashMeta :=
  let splitnum := metap.ovflpoint
  if metap.needsBitmap then
    if maxBitmaps ≤ metap.nmaps then none
    else some
      { metap with
        spares := Function.update metap.spares splitnum (uint32 (metap.spares splitnum + 2))
        nmaps := metap.nmaps + 1 }
  else some
    { metap with
      spares := Function.update metap.spares splitnum (uint32 (metap.spares splitnum + 1)) }

/-- The last block in use. -/
def lastBlkno (metap : HashMeta) : ℕ :=
  getTotalbuckets metap.ovflpoint + metap.spares metap.ovflpoint

/-- The changes of a metapage. The blocks of new overflow pages must be valid. -/
inductive Step (metap : HashMeta) : HashMeta → Prop
  | expand {metap'} : expandtable metap = some metap' → Step metap metap'
  | addovfl {metap'} : addovflpage metap = some metap' →
      metap.lastBlkno + (if metap.needsBitmap then 2 else 1) < invalidBlockNumber → Step metap metap'

end HashMeta

end PostgreSieve.HashIndex
