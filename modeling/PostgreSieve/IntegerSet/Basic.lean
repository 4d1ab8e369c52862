import PostgreSieve.IntegerSet.Simple8b
import PostgreSieve.Runs.Basic

/-! # Integer sets

`integerset.c`: values are added in increasing order to a buffer, and packed from there into the
leaf items of a B-tree. Nodes are allocated one after the other and never freed; a pointer is the
number of a node.
-/

namespace PostgreSieve

open Simple8b

def maxInternalItems : ℕ := 64

def maxLeafItems : ℕ := 64

def maxTreeLevels : ℕ := 11

def maxValuesPerLeafItem : ℕ := 1 + maxValuesPerCodeword

def maxBufferedValues : ℕ := maxValuesPerLeafItem * 2

structure LeafItem where
  first : ℕ
  codeword : ℕ
  deriving DecidableEq, Inhabited

/-- The entries of an internal node are its key values with their downlinks. -/
inductive IntsetNode where
  | leaf (items : List LeafItem) (next : Option ℕ)
  | internal (level : ℕ) (entries : List (ℕ × ℕ))
  deriving Inhabited

namespace IntsetNode

def items : IntsetNode → List LeafItem
  | leaf items _ => items
  | internal .. => []

def next : IntsetNode → Option ℕ
  | leaf _ next => next
  | internal .. => none

def entries : IntsetNode → List (ℕ × ℕ)
  | leaf .. => []
  | internal _ entries => entries

end IntsetNode

/-- What `iter_values` points to. -/
inductive IterValues where
  | null
  | iterValuesBuf
  | bufferedValues
  deriving DecidableEq

structure IntegerSet where
  numEntries : ℕ
  highestValue : ℕ
  numLevels : ℕ
  root : Option ℕ
  rightmostNodes : ℕ → Option ℕ
  leftmostLeaf : Option ℕ
  bufferedValues : List ℕ
  iterActive : Bool
  iterValues : IterValues
  iterNumValues : ℕ
  iterValueno : ℕ
  iterNode : Option ℕ
  iterItemno : ℕ
  iterValuesBuf : List ℕ
  nodes : ℕ → IntsetNode
  /-- The number of nodes allocated so far. -/
  numNodes : ℕ

namespace IntegerSet

def intsetCreate : IntegerSet where
  numEntries := 0
  highestValue := 0
  numLevels := 0
  root := none
  rightmostNodes := fun _ => none
  leftmostLeaf := none
  bufferedValues := []
  iterActive := false
  iterValues := .null
  iterNumValues := 0
  iterValueno := 0
  iterNode := none
  iterItemno := 0
  iterValuesBuf := []
  nodes := default
  numNodes := 0

/-- The node that a pointer to it stands for. -/
def deref (s : IntegerSet) : Option ℕ → IntsetNode
  | some id => s.nodes id
  | none => default

def setNode (s : IntegerSet) (id : ℕ) (n : IntsetNode) : IntegerSet :=
  { s with nodes := Function.update s.nodes id n }

/-- Allocate a node, which gets the number `s.numNodes`. -/
def newNode (s : IntegerSet) (n : IntsetNode) : IntegerSet :=
  { s.setNode s.numNodes n with numNodes := s.numNodes + 1 }

def setRightmost (s : IntegerSet) (level id : ℕ) : IntegerSet :=
  { s with rightmostNodes := Function.update s.rightmostNodes level (some id) }

/-! ## Adding values -/

/-- The first value on a page. -/
def downlinkKey : IntsetNode → ℕ
  | .leaf items _ => (items.getD 0 default).first
  | .internal _ entries => (entries.getD 0 default).1

/-- Create a new root node, with the old one as its first child. -/
def newRoot (s : IntegerSet) (level : ℕ) : IntegerSet :=
  let oldroot := s.root.getD 0
  { (s.newNode (.internal level [(downlinkKey (s.nodes oldroot), oldroot)])).setRightmost level
      s.numNodes with
    numLevels := s.numLevels + 1
    root := some s.numNodes }

/-- Place the downlink on the parent page. -/
def addDownlink (s : IntegerSet) (level child childKey : ℕ) : IntegerSet :=
  match s.rightmostNodes level with
  | some parent =>
    s.setNode parent (.internal level ((s.nodes parent).entries ++ [(childKey, child)]))
  | none => s

/-- Allocate a new parent, with the downlink as the first item on it. -/
def newParent (s : IntegerSet) (level child childKey : ℕ) : IntegerSet :=
  (s.newNode (.internal level [(childKey, child)])).setRightmost level s.numNodes

/-- `intset_update_upper`, and the error it raises. A new root has room for the downlink. -/
def intsetUpdateUpper (s : IntegerSet) (level child childKey : ℕ) : IntegerSet × Option String :=
  if s.numLevels ≤ level then
    if s.numLevels = maxTreeLevels then
      (s, some "could not expand integer set, maximum number of levels reached")
    else ((s.newRoot level).addDownlink level child childKey, none)
  else if (s.deref (s.rightmostNodes level)).entries.length < maxInternalItems then
    (s.addDownlink level child childKey, none)
  else
    intsetUpdateUpper (s.newParent level child childKey) (level + 1) s.numNodes childKey
termination_by s.numLevels - level
decreasing_by
  have hn : (s.newParent level child childKey).numLevels = s.numLevels := rfl
  omega

/-- Append an item to the rightmost leaf. -/
def pushItem (s : IntegerSet) (item : LeafItem) : IntegerSet :=
  match s.rightmostNodes 0 with
  | some leaf =>
    s.setNode leaf (.leaf ((s.nodes leaf).items ++ [item]) (s.nodes leaf).next)
  | none => s

/-- Allocate a new leaf and link it to the old one. -/
def newLeaf (s : IntegerSet) : IntegerSet :=
  let t := (s.newNode (.leaf [] none)).setRightmost 0 s.numNodes
  match s.rightmostNodes 0 with
  | some old => t.setNode old (.leaf (s.nodes old).items (some s.numNodes))
  | none => t

/-- Add the item to the node, allocating a new node if the old one is full. -/
def addItem (s : IntegerSet) (item : LeafItem) : IntegerSet × Option String :=
  if maxLeafItems ≤ (s.deref (s.rightmostNodes 0)).items.length then
    match s.newLeaf.intsetUpdateUpper 1 s.numNodes item.first with
    | (t, none) => (t.pushItem item, none)
    | (t, some e) => (t, some e)
  else (s.pushItem item, none)

/-- The loop of `intset_flush_buffered_values`, with the values that are not packed yet. -/
def packValues (s : IntegerSet) (values : List ℕ) : IntegerSet × List ℕ × Option String :=
  if maxValuesPerLeafItem ≤ values.length then
    let first := values.getD 0 0
    let (codeword, numEncoded) := simple8bEncode (values.drop 1) first
    match s.addItem ⟨first, codeword⟩ with
    | (t, none) => packValues t (values.drop (1 + numEncoded))
    | (t, some e) => (t, values, some e)
  else (s, values, none)
termination_by values.length
decreasing_by
  simp only [List.length_drop, maxValuesPerLeafItem] at *
  omega

/-- Create the first leaf page, which is also the root. -/
def newTree (s : IntegerSet) : IntegerSet :=
  { (s.newNode (.leaf [] none)).setRightmost 0 s.numNodes with
    root := some s.numNodes
    leftmostLeaf := some s.numNodes
    numLevels := 1 }

def intsetFlushBufferedValues (s : IntegerSet) : IntegerSet × Option String :=
  let s := if s.rightmostNodes 0 = none then s.newTree else s
  match s.packValues s.bufferedValues with
  | (t, values, none) => ({ t with bufferedValues := values }, none)
  | (t, _, some e) => (t, some e)

/-- The set after the call, and the error that it raises. -/
def intsetAddMember (s : IntegerSet) (x : ℕ) : IntegerSet × Option String :=
  if s.iterActive then
    (s, some "cannot add new values to integer set while iteration is in progress")
  else if x ≤ s.highestValue ∧ 0 < s.numEntries then
    (s, some "cannot add value to integer set out of order")
  else
    let r := if maxBufferedValues ≤ s.bufferedValues.length then s.intsetFlushBufferedValues
      else (s, none)
    match r with
    | (t, none) =>
      ({ t with
        bufferedValues := t.bufferedValues ++ [x]
        numEntries := (t.numEntries + 1) % 2 ^ 64
        highestValue := x }, none)
    | (t, some e) => (t, some e)

def intsetNumEntries (s : IntegerSet) : ℕ := s.numEntries

/-! ## Searching -/

/-- The comparison of the two search functions. -/
def goesRight (item key : ℕ) (nextkey : Bool) : Bool :=
  if nextkey then key ≤ item else key < item

def intsetBinsrchUint64 (item : ℕ) (arr : List ℕ) (nextkey : Bool) : ℕ :=
  binsrch (fun mid => goesRight item (arr.getD mid 0) nextkey) 0 arr.length

def intsetBinsrchLeaf (item : ℕ) (arr : List LeafItem) (nextkey : Bool) : ℕ :=
  binsrch (fun mid => goesRight item (arr.getD mid default).first nextkey) 0 arr.length

/-- Walk down the B-tree to find the right leaf node. -/
def descend (s : IntegerSet) (x : ℕ) : ℕ → ℕ → Option ℕ
  | 0, node => some node
  | level + 1, node =>
    let entries := (s.nodes node).entries
    let itemno := intsetBinsrchUint64 x (entries.map Prod.fst) true
    if itemno = 0 then none else s.descend x level (entries.getD (itemno - 1) default).2

def leafContains (x : ℕ) (items : List LeafItem) : Bool :=
  let itemno := intsetBinsrchLeaf x items true
  if itemno = 0 then false
  else
    let item := items.getD (itemno - 1) default
    if item.first = x then true else simple8bContains item.codeword x item.first

def intsetIsMember (s : IntegerSet) (x : ℕ) : Bool :=
  -- the value might be in the buffer of newly-added values
  if 0 < s.bufferedValues.length ∧ s.bufferedValues.getD 0 0 ≤ x then
    let itemno := intsetBinsrchUint64 x s.bufferedValues false
    if s.bufferedValues.length ≤ itemno then false else s.bufferedValues.getD itemno 0 = x
  else
    match s.root with
    | none => false
    | some root =>
      match s.descend x (s.numLevels - 1) root with
      | none => false
      | some leaf => leafContains x (s.nodes leaf).items

/-! ## Iterating -/

def intsetBeginIterate (s : IntegerSet) : IntegerSet :=
  { s with
    iterActive := true
    iterNode := s.leftmostLeaf
    iterItemno := 0
    iterValueno := 0
    iterNumValues := 0
    iterValues := .iterValuesBuf }

/-- The array that `iter_values` points to. -/
def iterArray (s : IntegerSet) : List ℕ :=
  match s.iterValues with
  | .null => []
  | .iterValuesBuf => s.iterValuesBuf
  | .bufferedValues => s.bufferedValues

/-- A round of the loop of `intset_iterate_next`. The result is the next value, if any. -/
def iterateStep (s : IntegerSet) : IntegerSet ⊕ (IntegerSet × Option ℕ) :=
  if s.iterValueno < s.iterNumValues then
    .inr ({ s with iterValueno := s.iterValueno + 1 }, some (s.iterArray.getD s.iterValueno 0))
  else
    match s.iterNode with
    | some node =>
      if s.iterItemno < (s.nodes node).items.length then
        let item := (s.nodes node).items.getD s.iterItemno default
        let decoded := simple8bDecode item.codeword item.first
        .inl { s with
          iterItemno := s.iterItemno + 1
          iterValuesBuf := item.first :: decoded
          iterNumValues := decoded.length + 1
          iterValueno := 0 }
      else .inl { s with iterNode := (s.nodes node).next, iterItemno := 0 }
    | none =>
      if s.iterValues = .iterValuesBuf then
        .inl { s with
          iterValues := .bufferedValues
          iterNumValues := s.bufferedValues.length
          iterValueno := 0 }
      else .inr ({ s with iterActive := false }, none)

/-- `intset_iterate_next`, with at most `fuel` rounds of its loop. -/
def intsetIterateNext (fuel : ℕ) (s : IntegerSet) : Option (IntegerSet × Option ℕ) :=
  iterate iterateStep fuel s

end IntegerSet

end PostgreSieve
