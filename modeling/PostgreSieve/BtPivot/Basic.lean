import Mathlib.Order.Compare
import Mathlib.Order.Lattice
import Mathlib.Order.Nat
import Mathlib.Tactic.Common

/-! # Pivot tuples of a B-tree

When a leaf page is split, its high key becomes the separator in the parent. Key attributes that are
not needed to tell the two halves apart are truncated; a search takes them for minus infinity. The
index has heap TIDs as its last key column (`heapkeyspace`). The sign of a comparison result is an
`Ordering`.
-/

namespace PostgreSieve.BtPivot

/-- A column with its comparison function, and how a datum is stored: its alignment (none for a
short varlena) and its length. -/
structure Column (α : Type) where
  cmp : α → α → Ordering
  cmp_trans : Std.TransCmp cmp
  desc : Bool
  nullsFirst : Bool
  alignBy : α → ℕ
  alignBy_pos : ∀ datum, 0 < alignBy datum
  length : α → ℕ

/-- The columns from `nkeyatts` on are included columns. -/
structure Index (α : Type) where
  columns : ℕ → Column α
  nkeyatts : ℕ
  natts : ℕ
  nkeyatts_pos : 0 < nkeyatts
  nkeyatts_le : nkeyatts ≤ natts

variable {α τ : Type}

/-! ## Sizes -/

def alignUp (a n : ℕ) : ℕ := (n + (a - 1)) / a * a

def maxAlign (n : ℕ) : ℕ := alignUp 8 n

/-- `heap_compute_data_size` of the first attributes. -/
def Index.dataSize (index : Index α) (values : ℕ → Option α) : ℕ → ℕ
  | 0 => 0
  | i + 1 =>
    match values i with
    | none => index.dataSize values i
    | some datum =>
      alignUp ((index.columns i).alignBy datum) (index.dataSize values i)
        + (index.columns i).length datum

/-- `IndexInfoFindDataOffset`. -/
def dataOffset (hasnull : Bool) : ℕ := if hasnull then maxAlign (8 + 4) else maxAlign 8

/-- The size of the tuple that `index_form_tuple` makes of the first attributes. -/
def Index.formSize (index : Index α) (values : ℕ → Option α) (natts : ℕ) : ℕ :=
  maxAlign (dataOffset ((List.range natts).any fun i => (values i).isNone)
    + index.dataSize values natts)

def sizeofItemPointerData : ℕ := 6

/-! ## Tuples -/

/-- A tuple as a search sees it. `values` matters for the first `natts` attributes; a pivot tuple
need not have a heap TID. -/
structure IndexTuple (α τ : Type) where
  natts : ℕ
  values : ℕ → Option α
  heapTid : Option τ
  maxHeapTid : Option τ
  posting : Bool
  size : ℕ

variable [LinearOrder τ]

/-- A tuple of a leaf page, with one heap TID or a posting list. -/
structure LeafTuple (index : Index α) (τ : Type) [LinearOrder τ] where
  values : ℕ → Option α
  heapTid : τ
  maxHeapTid : τ
  heapTid_le : heapTid ≤ maxHeapTid
  posting : Bool
  size : ℕ
  postingOffset : ℕ
  plain_heapTid : posting = false → heapTid = maxHeapTid
  plain_size : posting = false → size = index.formSize values index.natts
  posting_offset : posting = true → postingOffset = index.formSize values index.natts
  posting_natts : posting = true → index.natts = index.nkeyatts

variable {index : Index α}

def LeafTuple.toIndexTuple (t : LeafTuple index τ) : IndexTuple α τ :=
  ⟨index.natts, t.values, some t.heapTid, some t.maxHeapTid, t.posting, t.size⟩

/-! ## Searching -/

/-- An insertion scan key on the first `keysz` columns. -/
structure ScanInsert (α τ : Type) where
  keysz : ℕ
  arguments : ℕ → Option α
  scantid : Option τ
  nextkey : Bool
  backward : Bool

/-- The scan key entry of a column against the attribute of a tuple. -/
def Column.compare (column : Column α) : Option α → Option α → Ordering
  | none, none => .eq
  | none, some _ => if column.nullsFirst then .lt else .gt
  | some _, none => if column.nullsFirst then .gt else .lt
  | some argument, some datum =>
    if column.desc then column.cmp datum argument else (column.cmp datum argument).swap

/-- The loop of `_bt_compare` over the first `n` attributes: the first difference. -/
def Index.compareAtts (index : Index α) : ℕ → (ℕ → Option α) → (ℕ → Option α) → Ordering
  | 0, _, _ => .eq
  | n + 1, arguments, values =>
    (index.compareAtts n arguments values).then
      ((index.columns n).compare (arguments n) (values n))

def btCompare (index : Index α) (key : ScanInsert α τ) (itup : IndexTuple α τ) : Ordering :=
  (index.compareAtts (min itup.natts key.keysz) key.arguments itup.values).then <|
    if key.keysz > itup.natts then .gt
    else match key.scantid with
      | none =>
        if !key.backward && key.keysz = itup.natts && itup.heapTid = none then .gt else .eq
      | some scantid =>
        match itup.heapTid with
        | none => .gt
        | some heapTid =>
          if compare scantid heapTid ≠ .gt || !itup.posting then compare scantid heapTid
          else if itup.maxHeapTid.any fun maxHeapTid => compare scantid maxHeapTid = .gt then .gt
          else .eq

/-- The test of `_bt_binsrch`, `result >= cmpval`. On a leaf page a forward scan starts at the first
tuple that does not pass it, and a backward scan at the last one that does. -/
def ScanInsert.passes (index : Index α) (key : ScanInsert α τ) (itup : IndexTuple α τ) : Bool :=
  if key.nextkey then btCompare index key itup ≠ .lt else btCompare index key itup = .gt

/-- The loop of `_bt_binsrch`. -/
def binsrchLoop (test : ℕ → Bool) (low high : ℕ) : ℕ :=
  if high > low then
    let mid := low + (high - low) / 2
    if test mid then binsrchLoop test (mid + 1) high else binsrchLoop test low mid
  else low
termination_by high - low

/-- `_bt_binsrch` on an internal page, whose first data item counts as minus infinity: the slot of
the child to go to. -/
def binsrch (index : Index α) (key : ScanInsert α τ) (page : ℕ → IndexTuple α τ)
    (firstDataKey maxOffset : ℕ) : ℕ :=
  binsrchLoop (fun offnum => offnum = firstDataKey || key.passes index (page offnum))
    firstDataKey (maxOffset + 1) - 1

/-- `_bt_mkscankey` for a tuple, with one of its heap TIDs. -/
def LeafTuple.scanInsert (t : LeafTuple index τ) (tid : τ) : ScanInsert α τ :=
  ⟨index.nkeyatts, t.values, some tid, false, false⟩

/-! ## Truncation -/

/-- The loop of `_bt_keep_natts` from attribute `i` on, with `n` attributes left. -/
def Index.keepNattsFrom (index : Index α) (lastleft firstright : ℕ → Option α) : ℕ → ℕ → ℕ
  | 0, i => i + 1
  | n + 1, i =>
    match lastleft i, firstright i with
    | none, none => index.keepNattsFrom lastleft firstright n (i + 1)
    | some datum1, some datum2 =>
      if (index.columns i).cmp datum1 datum2 ≠ .eq then i + 1
      else index.keepNattsFrom lastleft firstright n (i + 1)
    | _, _ => i + 1

def keepNatts (lastleft firstright : LeafTuple index τ) : ℕ :=
  index.keepNattsFrom lastleft.values firstright.values index.nkeyatts 0

def indexTruncateTuple (source : LeafTuple index τ) (leavenatts : ℕ) : IndexTuple α τ :=
  if leavenatts = index.natts then source.toIndexTuple
  else
    { source.toIndexTuple with
      natts := leavenatts
      posting := false
      size := index.formSize source.values leavenatts }

/-- The copy of `firstright` in `_bt_truncate`, with the posting list of an untruncated tuple cut
off. -/
def truncatedCopy (firstright : LeafTuple index τ) (leavenatts : ℕ) : IndexTuple α τ :=
  let pivot := indexTruncateTuple firstright leavenatts
  if pivot.posting then { pivot with size := maxAlign firstright.postingOffset } else pivot

def btTruncate (lastleft firstright : LeafTuple index τ) : IndexTuple α τ :=
  let keepnatts := keepNatts lastleft firstright
  let pivot := truncatedCopy firstright (min keepnatts index.nkeyatts)
  if keepnatts ≤ index.nkeyatts then
    { pivot with natts := keepnatts, heapTid := none, maxHeapTid := none, posting := false }
  else
    { pivot with
      natts := index.nkeyatts
      heapTid := some lastleft.maxHeapTid
      maxHeapTid := some lastleft.maxHeapTid
      posting := false
      size := maxAlign pivot.size + maxAlign sizeofItemPointerData }

end PostgreSieve.BtPivot
