import Mathlib.Data.List.Sort
import Mathlib.Order.Compare

/-! # Ranges and multiranges

The functions of `rangetypes.c` and `multirangetypes.c` that sort, merge, subtract and intersect
ranges over a subtype with a total order. An error is the message that is raised. Arrays of ranges
are lists; a position in an array of ranges is what remains of the list.
-/

namespace PostgreSieve.Ranges

/-- An infinite bound has no value. -/
structure RangeBound (α : Type) where
  val : Option α
  inclusive : Bool
  lower : Bool

inductive RangeType (α : Type) where
  | empty
  | bounds (lower upper : RangeBound α)

/-- The canonicalization function of a discrete range type. -/
structure TypeCache (α : Type) where
  canonical : Option (RangeType α → Except String (RangeType α))

variable {α : Type} [LinearOrder α]

/-! ## Bounds -/

def rangeCmpBounds (b1 b2 : RangeBound α) : Ordering :=
  match b1.val, b2.val with
  | none, none => if b1.lower = b2.lower then .eq else if b1.lower then .lt else .gt
  | none, some _ => if b1.lower then .lt else .gt
  | some _, none => if b2.lower then .gt else .lt
  | some v1, some v2 =>
    match cmp v1 v2 with
    | .eq =>
      if !b1.inclusive && !b2.inclusive then
        if b1.lower = b2.lower then .eq else if b1.lower then .gt else .lt
      else if !b1.inclusive then if b1.lower then .gt else .lt
      else if !b2.inclusive then if b2.lower then .lt else .gt
      else .eq
    | result => result

def rangeCmpBoundValues (b1 b2 : RangeBound α) : Ordering :=
  match b1.val, b2.val with
  | none, none => if b1.lower = b2.lower then .eq else if b1.lower then .lt else .gt
  | none, some _ => if b1.lower then .lt else .gt
  | some _, none => if b2.lower then .gt else .lt
  | some v1, some v2 => cmp v1 v2

/-- The flags of an infinite bound are those of an exclusive one. -/
def RangeBound.flags (b : RangeBound α) : RangeBound α :=
  { b with inclusive := b.val.isSome && b.inclusive }

def rangeSerialize (lower upper : RangeBound α) (empty : Bool) : Except String (RangeType α) :=
  if empty then .ok .empty
  else
    match rangeCmpBoundValues lower upper with
    | .gt => .error "range lower bound must be less than or equal to range upper bound"
    | .eq =>
      if !(lower.inclusive && upper.inclusive) then .ok .empty
      else .ok (.bounds lower.flags upper.flags)
    | .lt => .ok (.bounds lower.flags upper.flags)

def makeRange (typcache : TypeCache α) (lower upper : RangeBound α) :
    Except String (RangeType α) := do
  match ← rangeSerialize lower upper false with
  | .empty => pure .empty
  | .bounds lower upper =>
    match typcache.canonical with
    | none => pure (.bounds lower upper)
    | some canonical => canonical (.bounds lower upper)

def pgInt32Max : ℤ := 2147483647

/-- Move a bound to the next integer. -/
def nextInteger (b : RangeBound ℤ) (bnd : ℤ) : Except String (RangeBound ℤ) :=
  if bnd = pgInt32Max then .error "integer out of range"
  else .ok { b with val := some (bnd + 1), inclusive := !b.inclusive }

/-- An exclusive lower bound is moved on. -/
def canonicalLower (lower : RangeBound ℤ) : Except String (RangeBound ℤ) :=
  match lower.val with
  | some bnd => if !lower.inclusive then nextInteger lower bnd else pure lower
  | none => pure lower

/-- An inclusive upper bound is moved on. -/
def canonicalUpper (upper : RangeBound ℤ) : Except String (RangeBound ℤ) :=
  match upper.val with
  | some bnd => if upper.inclusive then nextInteger upper bnd else pure upper
  | none => pure upper

def int4rangeCanonical : RangeType ℤ → Except String (RangeType ℤ)
  | .empty => .ok .empty
  | .bounds lower upper => do
    let lower ← canonicalLower lower
    let upper ← canonicalUpper upper
    rangeSerialize lower upper false

def boundsAdjacent (typcache : TypeCache α) (boundA boundB : RangeBound α) : Except String Bool :=
  match rangeCmpBoundValues boundA boundB with
  | .lt =>
    if typcache.canonical.isNone then .ok false
    else do
      let r ← makeRange typcache { boundA with inclusive := !boundA.inclusive, lower := true }
        { boundB with inclusive := !boundB.inclusive, lower := false }
      match r with
      | .empty => pure true
      | .bounds .. => pure false
  | .eq => .ok (boundA.inclusive != boundB.inclusive)
  | .gt => .ok false

/-! ## Ranges -/

def RangeType.isEmpty : RangeType α → Bool
  | .empty => true
  | .bounds .. => false

def rangeBeforeInternal : RangeType α → RangeType α → Bool
  | .bounds _ upper1, .bounds lower2 _ => rangeCmpBounds upper1 lower2 = .lt
  | _, _ => false

def rangeAdjacentInternal (typcache : TypeCache α) : RangeType α → RangeType α → Except String Bool
  | .bounds lower1 upper1, .bounds lower2 upper2 => do
    if ← boundsAdjacent typcache upper1 lower2 then pure true
    else boundsAdjacent typcache upper2 lower1
  | _, _ => .ok false

def rangeOverlapsInternal : RangeType α → RangeType α → Bool
  | .bounds lower1 upper1, .bounds lower2 upper2 =>
    (rangeCmpBounds lower1 lower2 ≠ .lt && rangeCmpBounds lower1 upper2 ≠ .gt) ||
      (rangeCmpBounds lower2 lower1 ≠ .lt && rangeCmpBounds lower2 upper1 ≠ .gt)
  | _, _ => false

def rangeOverleftInternal : RangeType α → RangeType α → Bool
  | .bounds _ upper1, .bounds _ upper2 => rangeCmpBounds upper1 upper2 ≠ .gt
  | _, _ => false

/-- The bound on the other side of a bound. -/
def RangeBound.flip (b : RangeBound α) : RangeBound α :=
  { b with inclusive := !b.inclusive, lower := !b.lower }

def rangeMinusInternal (typcache : TypeCache α) (r1 r2 : RangeType α) :
    Except String (RangeType α) :=
  match r1, r2 with
  | .bounds lower1 upper1, .bounds lower2 upper2 =>
    let cmpL1l2 := rangeCmpBounds lower1 lower2
    let cmpL1u2 := rangeCmpBounds lower1 upper2
    let cmpU1l2 := rangeCmpBounds upper1 lower2
    let cmpU1u2 := rangeCmpBounds upper1 upper2
    if cmpL1l2 = .lt ∧ cmpU1u2 = .gt then
      .error "result of range difference would not be contiguous"
    else if cmpL1u2 = .gt ∨ cmpU1l2 = .lt then .ok r1
    else if cmpL1l2 ≠ .lt ∧ cmpU1u2 ≠ .gt then .ok .empty
    else if cmpL1l2 ≠ .gt ∧ cmpU1l2 ≠ .lt ∧ cmpU1u2 ≠ .gt then
      makeRange typcache lower1 lower2.flip
    else if cmpL1l2 ≠ .lt ∧ cmpU1u2 ≠ .lt ∧ cmpL1u2 ≠ .gt then
      makeRange typcache upper2.flip upper1
    else .error "unexpected case in range_minus"
  | _, _ => .ok r1

def rangeUnionInternal (typcache : TypeCache α) (r1 r2 : RangeType α) (strict : Bool) :
    Except String (RangeType α) :=
  match r1, r2 with
  | .empty, _ => .ok r2
  | .bounds .., .empty => .ok r1
  | .bounds lower1 upper1, .bounds lower2 upper2 => do
    if strict && !rangeOverlapsInternal r1 r2 then
      if !(← rangeAdjacentInternal typcache r1 r2) then
        throw "result of range union would not be contiguous"
    makeRange typcache (if rangeCmpBounds lower1 lower2 = .lt then lower1 else lower2)
      (if rangeCmpBounds upper1 upper2 = .gt then upper1 else upper2)

def rangeIntersectInternal (typcache : TypeCache α) (r1 r2 : RangeType α) :
    Except String (RangeType α) :=
  match r1, r2 with
  | .bounds lower1 upper1, .bounds lower2 upper2 =>
    if !rangeOverlapsInternal r1 r2 then .ok .empty
    else makeRange typcache (if rangeCmpBounds lower1 lower2 ≠ .lt then lower1 else lower2)
      (if rangeCmpBounds upper1 upper2 ≠ .gt then upper1 else upper2)
  | _, _ => .ok .empty

/-- Neither range should be empty. -/
def rangeSplitInternal (typcache : TypeCache α) (r1 r2 : RangeType α) :
    Except String (Option (RangeType α × RangeType α)) :=
  match r1, r2 with
  | .bounds lower1 upper1, .bounds lower2 upper2 =>
    if rangeCmpBounds lower1 lower2 = .lt ∧ rangeCmpBounds upper1 upper2 = .gt then do
      let output1 ← makeRange typcache lower1 lower2.flip
      let output2 ← makeRange typcache upper2.flip upper1
      pure (some (output1, output2))
    else .ok none
  | _, _ => .error "empty range"

def rangeCompare (r1 r2 : RangeType α) : Ordering :=
  match r1, r2 with
  | .empty, .empty => .eq
  | .empty, .bounds .. => .lt
  | .bounds .., .empty => .gt
  | .bounds lower1 upper1, .bounds lower2 upper2 =>
    match rangeCmpBounds lower1 lower2 with
    | .eq => rangeCmpBounds upper1 upper2
    | c => c

/-! ## Multiranges -/

/-- A round of the merging loop of `multirange_canonicalize`, with the output so far in reverse. -/
def mergeRange (typcache : TypeCache α) (output : List (RangeType α)) (currentRange : RangeType α) :
    Except String (List (RangeType α)) :=
  if currentRange.isEmpty then .ok output
  else
    match output with
    | [] => .ok [currentRange]
    | lastRange :: rest => do
      if ← rangeAdjacentInternal typcache lastRange currentRange then
        let r ← rangeUnionInternal typcache lastRange currentRange false
        pure (r :: rest)
      else if rangeBeforeInternal lastRange currentRange then
        pure (currentRange :: lastRange :: rest)
      else
        let r ← rangeUnionInternal typcache lastRange currentRange true
        pure (r :: rest)

/-- The order of ranges that compare equal does not matter, as they have the same bounds. -/
def multirangeCanonicalize (typcache : TypeCache α) (ranges : List (RangeType α)) :
    Except String (List (RangeType α)) := do
  let sorted := ranges.mergeSort fun r1 r2 => rangeCompare r1 r2 ≠ .gt
  let output ← sorted.foldlM (mergeRange typcache) []
  pure output.reverse

def makeMultirange (typcache : TypeCache α) (ranges : List (RangeType α)) :
    Except String (List (RangeType α)) := multirangeCanonicalize typcache ranges

def multirangeUnion (typcache : TypeCache α) (mr1 mr2 : List (RangeType α)) :
    Except String (List (RangeType α)) :=
  if mr1.isEmpty then .ok mr2
  else if mr2.isEmpty then .ok mr1
  else makeMultirange typcache (mr1 ++ mr2)

/-- Keep subtracting from `r1` until it is gone or the ranges of the second list have passed it. -/
def subtractRanges (typcache : TypeCache α) (r1 : RangeType α) (ranges3 : List (RangeType α)) :
    List (RangeType α) → Except String (RangeType α × List (RangeType α) × List (RangeType α))
  | [] => .ok (r1, ranges3, [])
  | r2 :: ranges2 => do
    match ← rangeSplitInternal typcache r1 r2 with
    | some (output1, output2) => subtractRanges typcache output2 (ranges3 ++ [output1]) ranges2
    | none =>
      if rangeOverlapsInternal r1 r2 then
        let r1 ← rangeMinusInternal typcache r1 r2
        if r1.isEmpty || rangeBeforeInternal r1 r2 then pure (r1, ranges3, r2 :: ranges2)
        else subtractRanges typcache r1 ranges3 ranges2
      else pure (r1, ranges3, r2 :: ranges2)

/-- The loop of `multirange_minus_internal`. -/
def minusRanges (typcache : TypeCache α) (ranges3 ranges2 : List (RangeType α)) :
    List (RangeType α) → Except String (List (RangeType α))
  | [] => .ok ranges3
  | r1 :: ranges1 => do
    let (r1, ranges3, ranges2) ← subtractRanges typcache r1 ranges3
      (ranges2.dropWhile fun r2 => rangeBeforeInternal r2 r1)
    minusRanges typcache (ranges3 ++ [r1]) ranges2 ranges1

/-- The second list must not be empty, as its first range is read. -/
def multirangeMinusInternal (typcache : TypeCache α) (ranges1 ranges2 : List (RangeType α)) :
    Except String (List (RangeType α)) := do
  if ranges2.isEmpty then throw "no range"
  let ranges3 ← minusRanges typcache [] ranges2 ranges1
  makeMultirange typcache ranges3

def multirangeMinus (typcache : TypeCache α) (mr1 mr2 : List (RangeType α)) :
    Except String (List (RangeType α)) :=
  if mr1.isEmpty || mr2.isEmpty then .ok mr1 else multirangeMinusInternal typcache mr1 mr2

/-- Keep intersecting until the ranges of the second list have passed `r1`. -/
def overlapRanges (typcache : TypeCache α) (r1 : RangeType α) (ranges3 : List (RangeType α)) :
    List (RangeType α) → Except String (List (RangeType α) × List (RangeType α))
  | [] => .ok (ranges3, [])
  | r2 :: ranges2 =>
    if rangeOverlapsInternal r1 r2 then do
      let r ← rangeIntersectInternal typcache r1 r2
      if rangeOverleftInternal r2 r1 then overlapRanges typcache r1 (ranges3 ++ [r]) ranges2
      else pure (ranges3 ++ [r], r2 :: ranges2)
    else .ok (ranges3, r2 :: ranges2)

/-- The loop of `multirange_intersect_internal`. -/
def intersectRanges (typcache : TypeCache α) (ranges3 ranges2 : List (RangeType α)) :
    List (RangeType α) → Except String (List (RangeType α))
  | [] => .ok ranges3
  | r1 :: ranges1 => do
    let (ranges3, ranges2) ← overlapRanges typcache r1 ranges3
      (ranges2.dropWhile fun r2 => rangeBeforeInternal r2 r1)
    if ranges2.isEmpty then pure ranges3
    else intersectRanges typcache ranges3 ranges2 ranges1

def multirangeIntersectInternal (typcache : TypeCache α) (ranges1 ranges2 : List (RangeType α)) :
    Except String (List (RangeType α)) := do
  if ranges1.isEmpty || ranges2.isEmpty then makeMultirange typcache []
  else
    let ranges3 ← intersectRanges typcache [] ranges2 ranges1
    makeMultirange typcache ranges3

def multirangeIntersect (typcache : TypeCache α) (mr1 mr2 : List (RangeType α)) :
    Except String (List (RangeType α)) :=
  if mr1.isEmpty || mr2.isEmpty then makeMultirange typcache []
  else multirangeIntersectInternal typcache mr1 mr2

end PostgreSieve.Ranges
