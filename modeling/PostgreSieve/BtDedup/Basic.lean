import Mathlib.Data.List.Basic
import Mathlib.Data.Prod.Lex
import Mathlib.Tactic.Common

/-! # Deduplication of B-tree leaf pages

Adjacent leaf tuples with equal keys are merged to posting lists, on the primary while the page is
read and during recovery by the logged intervals. A failed assertion, an item that does not fit and
an error are `none`.
-/

namespace PostgreSieve.BtDedup

/-! ## Tuples -/

def maxAlign (n : ℕ) : ℕ := (n + 7) / 8 * 8

def sizeOfPageHeaderData : ℕ := 24
def sizeOfItemIdData : ℕ := 4
def sizeOfItemPointerData : ℕ := 6
def sizeOfBTPageOpaqueData : ℕ := 16
def indexSizeMask : ℕ := 0x1fff
def btOffsetMask : ℕ := 0x0fff

def btMaxItemSize (blcksz : ℕ) : ℕ :=
  (blcksz - maxAlign (sizeOfPageHeaderData + 3 * sizeOfItemIdData) -
    maxAlign sizeOfBTPageOpaqueData) / 3 / 8 * 8 - maxAlign sizeOfItemPointerData

/-- A block and an offset in it, compared in this order. -/
abbrev ItemPointer := ℕ ×ₗ ℕ

def ItemPointer.isValid (tid : ItemPointer) : Prop := (ofLex tid).2 ≠ 0

instance (tid : ItemPointer) : Decidable tid.isValid := inferInstanceAs (Decidable (_ ≠ _))

/-- What the field `t_tid` stands for, by the status bits. -/
inductive TupleTid where
  | plain (tid : ItemPointer)
  | posting (htids : List ItemPointer)
  | pivot (tid : ItemPointer)
  deriving DecidableEq

/-- An index tuple; `tInfo` without the size, `key` up to the posting list. -/
structure IndexTuple (β : Type) where
  tInfo : ℕ
  key : List β
  tid : TupleTid
  deriving DecidableEq

variable {β ι : Type}

def IndexTuple.keysize (t : IndexTuple β) : ℕ := 8 + t.key.length

def IndexTuple.size (t : IndexTuple β) : ℕ :=
  match t.tid with
  | .plain _ | .pivot _ => t.keysize
  | .posting htids => maxAlign (t.keysize + htids.length * sizeOfItemPointerData)

def IndexTuple.htids (t : IndexTuple β) : List ItemPointer :=
  match t.tid with
  | .plain tid => [tid]
  | .posting htids => htids
  | .pivot _ => []

def IndexTuple.isPivot (t : IndexTuple β) : Bool :=
  match t.tid with
  | .pivot _ => true
  | _ => false

/-- An index; an attribute is its image, or `none` for a null. The keys are in the order of the
operator class. -/
structure Rel (β ι : Type) where
  nkeyatts : ℕ
  getattr : ℕ → List β → ℕ → Option ι
  keyLe : List (Option ι) → List (Option ι) → Prop
  keyLe_refl : ∀ key, keyLe key key

def keepNattsLoop [DecidableEq ι] (rel : Rel β ι) (lastleft firstright : IndexTuple β) :
    ℕ → ℕ → ℕ
  | 0, attnum => attnum
  | n + 1, attnum =>
    if rel.getattr lastleft.tInfo lastleft.key attnum
        = rel.getattr firstright.tInfo firstright.key attnum then
      keepNattsLoop rel lastleft firstright n (attnum + 1)
    else attnum

def keepNattsFast [DecidableEq ι] (rel : Rel β ι) (lastleft firstright : IndexTuple β) : ℕ :=
  keepNattsLoop rel lastleft firstright rel.nkeyatts 1

/-! ## Pages -/

structure BTPageOpaque where
  btpoPrev : ℕ
  btpoNext : ℕ
  btpoLevel : ℕ
  btpoFlags : BitVec 16
  btpoCycleid : ℕ
  deriving DecidableEq

def btpHasGarbage : BitVec 16 := 1 <<< 6

def BTPageOpaque.rightmost (btpo : BTPageOpaque) : Bool := btpo.btpoNext = 0

def BTPageOpaque.hasGarbage (btpo : BTPageOpaque) : Bool := btpo.btpoFlags &&& btpHasGarbage ≠ 0

def BTPageOpaque.clearGarbage (btpo : BTPageOpaque) : BTPageOpaque :=
  { btpo with btpoFlags := btpo.btpoFlags &&& ~~~btpHasGarbage }

/-- An item of a page, and whether its line pointer is `LP_DEAD`. -/
structure Item (β : Type) where
  tuple : IndexTuple β
  dead : Bool
  deriving DecidableEq

/-- A page with its items in the order of line pointers. -/
structure Page (β : Type) where
  upper : ℕ
  items : List (Item β)
  btpo : BTPageOpaque
  deriving DecidableEq

def Page.lower (page : Page β) : ℕ :=
  sizeOfPageHeaderData + page.items.length * sizeOfItemIdData

def Page.exactFreeSpace (page : Page β) : ℕ := page.upper - page.lower

def specialOffset (blcksz : ℕ) : ℕ := blcksz - maxAlign sizeOfBTPageOpaqueData

def pageGetTempPageCopySpecial (blcksz : ℕ) (page : Page β) : Page β :=
  ⟨specialOffset blcksz, [], page.btpo⟩

def pageAddItem (page : Page β) (item : IndexTuple β) (size offsetNumber : ℕ) : Option (Page β) :=
  if offsetNumber > page.items.length + 1 then none
  else if page.lower + sizeOfItemIdData + maxAlign size > page.upper then none
  else
    some { page with
      upper := page.upper - maxAlign size
      items := page.items.insertIdx (offsetNumber - 1) ⟨item, false⟩ }

def Page.firstDataKey (page : Page β) : ℕ := if page.btpo.rightmost then 1 else 2

/-! ## Pending posting lists -/

structure Interval where
  baseoff : ℕ
  nitems : ℕ
  deriving DecidableEq

/-- The working state; `htids` up to `nhtids` and `intervals` up to `nintervals`. -/
structure DedupState (β : Type) where
  deduplicate : Bool
  nmaxitems : ℕ
  maxpostingsize : ℕ
  base : Option (IndexTuple β)
  baseoff : ℕ
  basetupsize : ℕ
  htids : List ItemPointer
  nitems : ℕ
  phystupsize : ℕ
  intervals : List Interval

def DedupState.init (maxpostingsize : ℕ) : DedupState β :=
  ⟨true, 0, maxpostingsize, none, 0, 0, [], 0, 0, []⟩

def dedupStartPending (state : DedupState β) (base : IndexTuple β) (baseoff : ℕ) :
    Option (DedupState β) :=
  if state.htids = [] ∧ state.nitems = 0 ∧ base.isPivot = false then
    some { state with
      htids := base.htids
      basetupsize := base.keysize
      nitems := 1
      base := some base
      baseoff := baseoff
      phystupsize := maxAlign base.size + sizeOfItemIdData }
  else none

/-- Also whether the tuple was merged. -/
def dedupSaveHtid (state : DedupState β) (itup : IndexTuple β) : Option (Bool × DedupState β) :=
  if itup.isPivot then none
  else if maxAlign (state.basetupsize +
      (state.htids.length + itup.htids.length) * sizeOfItemPointerData) > state.maxpostingsize then
    some (false, if state.htids.length > 50 then { state with nmaxitems := state.nmaxitems + 1 }
      else state)
  else
    some (true, { state with
      nitems := state.nitems + 1
      htids := state.htids ++ itup.htids
      phystupsize := state.phystupsize + (maxAlign itup.size + sizeOfItemIdData) })

/-- `_bt_posting_valid`, for the posting list. -/
def postingValid (htids : List ItemPointer) : Prop :=
  2 ≤ htids.length ∧ (∀ tid ∈ htids, tid.isValid) ∧ htids.IsChain (· < ·)

instance (htids : List ItemPointer) : Decidable (postingValid htids) :=
  inferInstanceAs (Decidable (_ ∧ _ ∧ _))

/-- The assertions of `_bt_form_posting`, and of `BTreeTupleSetPosting`. -/
def postingAsserts (keysize newsize : ℕ) (htids : List ItemPointer) : Prop :=
  0 < htids.length ∧ htids.length ≤ 0xffff ∧ keysize = maxAlign keysize ∧ newsize ≤ indexSizeMask ∧
    newsize = maxAlign newsize ∧ (1 < htids.length → htids.length ≤ btOffsetMask ∧
      keysize < indexSizeMask ∧ postingValid htids) ∧
    (htids.length = 1 → ∀ tid ∈ htids, tid.isValid)

instance (keysize newsize : ℕ) (htids : List ItemPointer) :
    Decidable (postingAsserts keysize newsize htids) := by
  unfold postingAsserts
  infer_instance

def formPosting (base : IndexTuple β) (htids : List ItemPointer) : Option (IndexTuple β) :=
  let newsize :=
    if htids.length > 1 then maxAlign (base.keysize + htids.length * sizeOfItemPointerData)
    else base.keysize
  if base.isPivot = false ∧ postingAsserts base.keysize newsize htids then
    match htids with
    | [tid] => some { base with tid := .plain tid }
    | htids => some { base with tid := .posting htids }
  else none

/-- The item is added after the others, and the state is reset. Also the space that is saved. -/
def dedupFinishPending (blcksz : ℕ) (newpage : Page β) (state : DedupState β) :
    Option (Page β × DedupState β × ℕ) :=
  let tupoff := newpage.items.length + 1
  let reset := { state with htids := [], nitems := 0, phystupsize := 0 }
  if 0 < state.nitems ∧ state.nitems ≤ state.htids.length then
    match state.base with
    | none => none
    | some base =>
      if state.nitems = 1 then
        if base.size = maxAlign base.size ∧ base.size ≤ btMaxItemSize blcksz then
          (pageAddItem newpage base base.size tupoff).map fun page => (page, reset, 0)
        else none
      else
        match formPosting base state.htids with
        | none => none
        | some final =>
          let spacesaving := state.phystupsize - (final.size + sizeOfItemIdData)
          if final.size ≤ state.maxpostingsize ∧ final.size = maxAlign final.size ∧
              final.size ≤ btMaxItemSize blcksz ∧ 0 < spacesaving ∧ spacesaving < blcksz then
            (pageAddItem newpage final final.size tupoff).map fun page =>
              (page, { reset with intervals := state.intervals ++ [⟨state.baseoff, state.nitems⟩] },
                spacesaving)
          else none
  else none

/-! ## The pass -/

/-- Whether the page is full of the value of the new item. -/
def doSingleval [DecidableEq ι] (rel : Rel β ι) (page : Page β) (newitem : IndexTuple β) :
    Option Bool :=
  match page.items[page.firstDataKey - 1]?, page.items.getLast? with
  | some first, some last =>
    some (decide (keepNattsFast rel newitem first.tuple > rel.nkeyatts ∧
      keepNattsFast rel newitem last.tuple > rel.nkeyatts))
  | _, _ => none

def singlevalFillfactor (blcksz : ℕ) (state : DedupState β) (newitemsz : ℕ) : DedupState β :=
  let leftfree := blcksz - sizeOfPageHeaderData - maxAlign sizeOfBTPageOpaqueData -
    (newitemsz + maxAlign sizeOfItemPointerData)
  let reduction := leftfree * (100 - 96) / 100
  { state with maxpostingsize := state.maxpostingsize - reduction }

/-- The variables of the loop. -/
structure Loop (β : Type) where
  state : DedupState β
  newpage : Page β
  pagesaving : ℕ
  singlevalstrat : Bool

/-- What the strategy for a single value changes between two posting lists. -/
def singlevalSteps (blcksz newitemsz : ℕ) (state : DedupState β) (singlevalstrat : Bool) :
    DedupState β × Bool :=
  if singlevalstrat then
    if state.nmaxitems = 5 then (singlevalFillfactor blcksz state newitemsz, true)
    else if state.nmaxitems = 6 then ({ state with deduplicate := false }, false)
    else (state, true)
  else (state, false)

/-- The pending posting list is finished, and the tuple starts the next one. -/
def dedupNext (blcksz newitemsz : ℕ) (l : Loop β) (itup : IndexTuple β) (offnum : ℕ) :
    Option (Loop β) :=
  match dedupFinishPending blcksz l.newpage l.state with
  | none => none
  | some (newpage, state, saving) =>
    let (state, singlevalstrat) := singlevalSteps blcksz newitemsz state l.singlevalstrat
    (dedupStartPending state itup offnum).map fun state =>
      ⟨state, newpage, l.pagesaving + saving, singlevalstrat⟩

/-- A tuple after the first one. -/
def dedupItem [DecidableEq ι] (rel : Rel β ι) (blcksz newitemsz : ℕ) (l : Loop β)
    (itup : IndexTuple β) (offnum : ℕ) : Option (Loop β) :=
  match l.state.base with
  | none => none
  | some base =>
    if l.state.deduplicate = true ∧ keepNattsFast rel base itup > rel.nkeyatts then
      match dedupSaveHtid l.state itup with
      | none => none
      | some (true, state) => some { l with state := state }
      | some (false, state) => dedupNext blcksz newitemsz { l with state := state } itup offnum
    else dedupNext blcksz newitemsz l itup offnum

def dedupLoop [DecidableEq ι] (rel : Rel β ι) (blcksz newitemsz : ℕ) :
    List (Item β) → ℕ → Loop β → Option (Loop β)
  | [], _, l => some l
  | item :: items, offnum, l =>
    match dedupItem rel blcksz newitemsz l item.tuple offnum with
    | none => none
    | some l => dedupLoop rel blcksz newitemsz items (offnum + 1) l

/-- The new page with the high key, if there is one. -/
def copyHighKey (blcksz : ℕ) (page : Page β) : Option (Page β) :=
  let newpage := pageGetTempPageCopySpecial blcksz page
  if page.btpo.rightmost then some newpage
  else
    match page.items with
    | [] => none
    | hikey :: _ => pageAddItem newpage hikey.tuple hikey.tuple.size 1

def clearPageGarbage (page : Page β) : Page β :=
  if page.btpo.hasGarbage then { page with btpo := page.btpo.clearGarbage } else page

/-- The page afterwards and the intervals that are logged. -/
def dedupPass [DecidableEq ι] (rel : Rel β ι) (blcksz : ℕ) (page : Page β) (newitem : IndexTuple β)
    (newitemsz : ℕ) (bottomupdedup : Bool) : Option (Page β × List Interval) :=
  let newitemsz := newitemsz + sizeOfItemIdData
  let maxpostingsize := min (btMaxItemSize blcksz / 2) indexSizeMask
  let minoff := page.firstDataKey
  match (if bottomupdedup then some false else doSingleval rel page newitem),
      copyHighKey blcksz page, page.items.drop (minoff - 1) with
  | some singlevalstrat, some newpage, first :: rest =>
    match dedupStartPending (DedupState.init maxpostingsize) first.tuple minoff with
    | none => none
    | some state =>
      match dedupLoop rel blcksz newitemsz rest (minoff + 1) ⟨state, newpage, 0, singlevalstrat⟩ with
      | none => none
      | some l =>
        match dedupFinishPending blcksz l.newpage l.state with
        | none => none
        | some (newpage, state, saving) =>
          if state.intervals = [] then some (page, [])
          else if l.pagesaving + saving < newitemsz ∨ newitemsz ≤ newpage.exactFreeSpace then
            some (clearPageGarbage newpage, state.intervals)
          else none
  -- nothing is pending, and there is no base tuple
  | _, _, _ => none

/-! ## Recovery -/

/-- Whether the next tuple belongs to the pending posting list. -/
def mergeNext (intervals : List Interval) (state : DedupState β) : Bool :=
  match intervals[state.intervals.length]? with
  | some interval => state.baseoff = interval.baseoff ∧ state.nitems < interval.nitems
  | none => false

def replayItem (blcksz : ℕ) (intervals : List Interval) (newpage : Page β) (state : DedupState β)
    (itup : IndexTuple β) (offnum : ℕ) : Option (Page β × DedupState β) :=
  if mergeNext intervals state then
    match dedupSaveHtid state itup with
    | some (true, state) => some (newpage, state)
    | _ => none
  else
    match dedupFinishPending blcksz newpage state with
    | none => none
    | some (newpage, state, _) =>
      (dedupStartPending state itup offnum).map fun state => (newpage, state)

def replayLoop (blcksz : ℕ) (intervals : List Interval) :
    List (Item β) → ℕ → Page β → DedupState β → Option (Page β × DedupState β)
  | [], _, newpage, state => some (newpage, state)
  | item :: items, offnum, newpage, state =>
    match replayItem blcksz intervals newpage state item.tuple offnum with
    | none => none
    | some (newpage, state) => replayLoop blcksz intervals items (offnum + 1) newpage state

def xlogDedup (blcksz : ℕ) (page : Page β) (intervals : List Interval) : Option (Page β) :=
  let minoff := page.firstDataKey
  match copyHighKey blcksz page, page.items.drop (minoff - 1) with
  | some newpage, first :: rest =>
    match dedupStartPending (DedupState.init (btMaxItemSize blcksz)) first.tuple minoff with
    | none => none
    | some state =>
      match replayLoop blcksz intervals rest (minoff + 1) newpage state with
      | none => none
      | some (newpage, state) =>
        match dedupFinishPending blcksz newpage state with
        | none => none
        | some (newpage, state, _) =>
          if state.intervals = intervals then some (clearPageGarbage newpage) else none
  | _, _ => none

/-! ## Splits of posting lists -/

def binsrchPostingLoop (scantid : ItemPointer) (htids : List ItemPointer) (low high : ℕ) : ℕ :=
  if high > low then
    let mid := low + (high - low) / 2
    match htids[mid]? with
    | none => low
    | some htid =>
      if scantid > htid then binsrchPostingLoop scantid htids (mid + 1) high
      else if scantid < htid then binsrchPostingLoop scantid htids low mid
      else mid
  else low
  termination_by high - low

/-- The place of a tuple identifier in a posting list. -/
def binsrchPosting (scantid : ItemPointer) (htids : List ItemPointer) : ℕ :=
  binsrchPostingLoop scantid htids 0 htids.length

/-- The posting list and the new item after the swap. -/
def swapPosting (newitem oposting : IndexTuple β) (postingoff : ℕ) :
    Option (IndexTuple β × IndexTuple β) :=
  match oposting.tid, newitem.tid with
  | .posting htids, .plain tid =>
    if 0 < postingoff ∧ postingoff < htids.length then
      let moved := htids.take (postingoff + 1) ++
        (htids.drop postingoff).take (htids.length - postingoff - 1)
      let replaced := moved.set postingoff tid
      match htids.getLast?, replaced.getLast? with
      | some max, some nmax =>
        if nmax < max ∧ postingValid htids ∧ postingValid replaced then
          some ({ oposting with tid := .posting replaced }, { newitem with tid := .plain max })
        else none
      | _, _ => none
    else none
  | _, _ => none

end PostgreSieve.BtDedup
