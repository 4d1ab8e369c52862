import Mathlib.Algebra.BigOperators.Group.Multiset.Basic
import PostgreSieve.Numeric.Arith

/-! # The sum accumulator

Values are added digit by digit into counters of 32 bits, positive and negative ones apart, and carries
are propagated only now and then. A counter that overflows, a carry out of the first digit and an
index outside of the arrays make a call fail here.
-/

namespace PostgreSieve.Numeric

open Function Numeral

/-- The arrays are of the same size, which is `ndigits`. -/
structure NumericSumAccum where
  weight : ℤ
  dscale : ℤ
  numUncarried : ℤ
  haveCarrySpace : Bool
  posDigits : List ℤ
  negDigits : List ℤ

namespace NumericSumAccum

open NumericVar

/-- A new accumulator has all fields reset to zeros. -/
def fresh : NumericSumAccum := ⟨0, 0, 0, false, [], []⟩

def ndigits (accum : NumericSumAccum) : ℤ := accum.posDigits.length

def fitsInt32 (x : ℤ) : Bool := -2 ^ 31 ≤ x && x < 2 ^ 31

def carryStep (newdig : ℤ) : ℤ × ℤ :=
  if nbase ≤ newdig then (newdig / nbase, newdig - newdig / nbase * nbase) else (0, newdig)

/-- Propagate the carry in one of the sums. -/
def carryDigits (dig : List ℤ) : Option (List ℤ) := do
  let (carry, dig) ← carryPass fitsInt32 carryStep dig
  if carry = 0 then some dig else none

def accumSumCarry (accum : NumericSumAccum) : Option NumericSumAccum :=
  if accum.numUncarried = 0 then some accum
  else do
    let pos ← carryDigits accum.posDigits
    let neg ← carryDigits accum.negDigits
    -- did we use up the digit reserved for carry propagation?
    let usedUp := 0 < pos.headD 0 || 0 < neg.headD 0
    some { accum with
      numUncarried := 0
      haveCarrySpace := accum.haveCarrySpace && !usedUp
      posDigits := pos
      negDigits := neg }

/-- Copy an array into a larger one of zeros. -/
def relocate (weightdiff ndigits : ℤ) (digits : List ℤ) : List ℤ :=
  List.replicate weightdiff.toNat 0 ++ digits ++
    List.replicate (ndigits - weightdiff - digits.length).toNat 0

/-- Make room to the left. -/
def rescaleWeight (accum : NumericSumAccum) (val : NumericVar) : ℤ × ℤ :=
  if accum.weight ≤ val.weight then
    (val.weight + 1, accum.ndigits + (val.weight + 1 - accum.weight))
  else if !accum.haveCarrySpace then (accum.weight + 1, accum.ndigits + 1)
  else (accum.weight, accum.ndigits)

def accumSumRescale (accum : NumericSumAccum) (val : NumericVar) : NumericSumAccum :=
  let (accumWeight, accumNdigits) := accum.rescaleWeight val
  let accumRscale := accumNdigits - accumWeight - 1
  let valRscale := val.ndigits - val.weight - 1
  let accumNdigits :=
    if accumRscale < valRscale then accumNdigits + (valRscale - accumRscale) else accumNdigits
  let accum :=
    if accumNdigits ≠ accum.ndigits ∨ accumWeight ≠ accum.weight then
      { accum with
        weight := accumWeight
        haveCarrySpace := true
        posDigits := relocate (accumWeight - accum.weight) accumNdigits accum.posDigits
        negDigits := relocate (accumWeight - accum.weight) accumNdigits accum.negDigits }
    else accum
  if accum.dscale < val.dscale then { accum with dscale := val.dscale } else accum

/-- Add the digits of a value to the counters from an index on. -/
def addDigits : ℕ → List ℤ → List ℤ → Option (List ℤ)
  | _, [], dig => some dig
  | _, _ :: _, [] => none
  | i + 1, vals, d :: dig => do
    let dig ← addDigits i vals dig
    some (d :: dig)
  | 0, v :: vals, d :: dig =>
    if fitsInt32 (d + v) then do
      let dig ← addDigits 0 vals dig
      some ((d + v) :: dig)
    else none

/-- Propagate carries if too many values have been accumulated since the last time. -/
def carryIfFull (accum : NumericSumAccum) : Option NumericSumAccum :=
  if accum.numUncarried = nbase - 1 then accum.accumSumCarry else some accum

def accumSumAdd (accum : NumericSumAccum) (val : NumericVar) : Option NumericSumAccum := do
  let accum ← accum.carryIfFull
  let accum := accum.accumSumRescale val
  let i := accum.weight - val.weight
  if i < 0 ∧ val.digits ≠ [] then none
  else
    match val.sign with
    | .pos => do
      let dig ← addDigits i.toNat val.digits accum.posDigits
      some { accum with posDigits := dig, numUncarried := accum.numUncarried + 1 }
    | .neg => do
      let dig ← addDigits i.toNat val.digits accum.negDigits
      some { accum with negDigits := dig, numUncarried := accum.numUncarried + 1 }

/-- The accumulator with its carries propagated, and its value. -/
def accumSumFinal (accum : NumericSumAccum) : Option (NumericSumAccum × NumericVar) :=
  if accum.ndigits = 0 then some (accum, zeroVar 0)
  else do
    let accum ← accum.accumSumCarry
    let posVar := ⟨accum.posDigits, accum.weight, .pos, accum.dscale⟩
    let negVar := ⟨accum.negDigits, accum.weight, .neg, accum.dscale⟩
    some (accum, stripVar (addVar posVar negVar))

/-- The flag of the destination is left as it is. -/
def accumSumCopy (dst src : NumericSumAccum) : NumericSumAccum :=
  { dst with
    posDigits := src.posDigits
    negDigits := src.negDigits
    numUncarried := src.numUncarried
    weight := src.weight
    dscale := src.dscale }

end NumericSumAccum

/-! ## Calls on several accumulators -/

inductive SumCall (ι : Type) where
  | add (k : ι) (val : NumericVar)
  | carry (k : ι)
  | final (k : ι)
  | copy (dst src : ι)
  | combine (k k2 : ι)

section

variable {ι : Type} [DecidableEq ι]

open NumericSumAccum

/-- The value of the second accumulator goes into the first, which may be the same one. -/
def accumSumCombine (s : ι → NumericSumAccum) (k k2 : ι) : Option (ι → NumericSumAccum) := do
  let (accum2, tmpVar) ← (s k2).accumSumFinal
  let s := update s k2 accum2
  let accum ← (s k).accumSumAdd tmpVar
  some (update s k accum)

/-- A call in a state of the accumulators. Copies go into fresh accumulators. -/
def SumCall.step (s : ι → NumericSumAccum) : SumCall ι → Option (ι → NumericSumAccum)
  | .add k val => do
    let accum ← (s k).accumSumAdd val
    some (update s k accum)
  | .carry k => do
    let accum ← (s k).accumSumCarry
    some (update s k accum)
  | .final k => do
    let (accum, _) ← (s k).accumSumFinal
    some (update s k accum)
  | .copy dst src => some (update s dst (fresh.accumSumCopy (s src)))
  | .combine k k2 => accumSumCombine s k k2

def runSumCalls (s : ι → NumericSumAccum) : List (SumCall ι) → Option (ι → NumericSumAccum)
  | [] => some s
  | c :: calls => do
    let s ← c.step s
    runSumCalls s calls

/-- The values that each accumulator has been given, directly or by way of others. -/
def SumCall.contents (s : ι → Multiset NumericVar) : SumCall ι → ι → Multiset NumericVar
  | .add k val => update s k (val ::ₘ s k)
  | .carry _ => s
  | .final _ => s
  | .copy dst src => update s dst (s src)
  | .combine k k2 => update s k (s k2 + s k)

def contentsAfter (calls : List (SumCall ι)) : ι → Multiset NumericVar :=
  calls.foldl SumCall.contents fun _ => 0

end

end PostgreSieve.Numeric
