import PostgreSieve.Numeric.Var

/-! # Multiplication

`mul_var` and the faster `mul_var_short`. The arithmetic on words is checked: a word that overflows, a
carry out of the first digit and an entry of the accumulator that was never set make the
multiplication fail here.
-/

namespace PostgreSieve.Numeric

open Numeral

def nbaseSqr : ℤ := 100000000

def mulGuardDigits : ℤ := 2

def pgUint64Max : ℤ := 2 ^ 64 - 1

def fitsUInt32 (x : ℤ) : Bool := 0 ≤ x && x < 2 ^ 32

def fitsUInt64 (x : ℤ) : Bool := 0 ≤ x && x ≤ pgUint64Max

namespace NumericVar

def productSign (var1 var2 : NumericVar) : NumericSign :=
  if var1.sign = var2.sign then .pos else .neg

/-! ## Short multiplication -/

/-- The macros `PRODSUM1` to `PRODSUM6`. -/
def prodsum (v1 : List ℤ) (i1 : ℕ) (v2 : List ℤ) (i2 : ℕ) : ℕ → ℤ
  | 0 => 0
  | k + 1 => prodsum v1 i1 v2 i2 k + v1.getD (i1 + k) 0 * v2.getD (i2 - k) 0

/-- A loop for `i` from the last digit of `v2` down to `stop`. -/
def prodsumLoop (v1 v2 : List ℤ) (stop k : ℕ) : List ℤ :=
  (List.range (v2.length - stop)).map fun j => prodsum v1 0 v2 (v2.length - 1 - j) k

/-- The sums for all result digits except for those of `firstTerms`, last digit first. -/
def lastTerms (v1 v2 : List ℤ) : List ℤ :=
  let last := v2.length - 1
  match v1.length with
  | 1 => prodsumLoop v1 v2 0 1
  | 2 => prodsum v1 1 v2 last 1 :: prodsumLoop v1 v2 1 2
  | 3 => prodsum v1 2 v2 last 1 :: prodsum v1 1 v2 last 2 :: prodsumLoop v1 v2 2 3
  | 4 =>
    prodsum v1 3 v2 last 1 :: prodsum v1 2 v2 last 2 :: prodsum v1 1 v2 last 3 ::
      prodsumLoop v1 v2 3 4
  | 5 =>
    prodsum v1 4 v2 last 1 :: prodsum v1 3 v2 last 2 :: prodsum v1 2 v2 last 3 ::
      prodsum v1 1 v2 last 4 :: prodsumLoop v1 v2 4 5
  | 6 =>
    prodsum v1 5 v2 last 1 :: prodsum v1 4 v2 last 2 :: prodsum v1 3 v2 last 3 ::
      prodsum v1 2 v2 last 4 :: prodsum v1 1 v2 last 5 :: prodsumLoop v1 v2 5 6
  | _ => []

/-- The sums for the most significant digits, in the order of the cases that fall through. -/
def firstTerms (v1 v2 : List ℤ) : List ℤ :=
  let terms := [prodsum v1 0 v2 4 5, prodsum v1 0 v2 3 4, prodsum v1 0 v2 2 3,
    prodsum v1 0 v2 1 2, prodsum v1 0 v2 0 1]
  match v1.length with
  | 6 => terms
  | 5 => terms.drop 1
  | 4 => terms.drop 2
  | 3 => terms.drop 3
  | 2 => terms.drop 4
  | _ => []

def mulVarShort (var1 var2 : NumericVar) : Option NumericVar := do
  let terms := lastTerms var1.digits var2.digits ++ firstTerms var1.digits var2.digits
  let (carry, digits) ← carryPass fitsUInt32 (fun term => (term / nbase, term % nbase)) terms.reverse
  some (stripVar
    { digits := carry :: digits
      weight := var1.weight + var2.weight + 1
      sign := productSign var1 var2
      dscale := var1.dscale + var2.dscale })

/-! ## Multiplication with accumulators -/

/-- The digits to base `nbaseSqr`, shifted up if their number is odd. -/
def digitPairs : List ℤ → List ℤ
  | a :: b :: ds => (a * nbase + b) :: digitPairs ds
  | [a] => [a * nbase]
  | [] => []

def checkUInt64 (x : ℤ) : Option ℤ := if fitsUInt64 x then some x else none

/-- Add multiples of the digits of the second number to the entries from an index on, as far as there
are entries. -/
def addRow (p : ℤ) : ℕ → List ℤ → List ℤ → Option (List ℤ)
  | i + 1, vs, d :: dig => do
    let dig ← addRow p i vs dig
    some (d :: dig)
  | 0, v :: vs, d :: dig => do
    let newdig ← checkUInt64 (d + p * v)
    let dig ← addRow p 0 vs dig
    some (newdig :: dig)
  | _, _, dig => some dig

def mulCarryStep (newdig : ℤ) : ℤ × ℤ :=
  if nbaseSqr ≤ newdig then (newdig / nbaseSqr, newdig - newdig / nbaseSqr * nbaseSqr)
  else (0, newdig)

/-- Normalize the accumulator. -/
def mulCarry (dig : List ℤ) : Option (List ℤ) := do
  let (carry, dig) ← carryPass fitsUInt64 mulCarryStep dig
  if carry = 0 then some dig else none

def maxdigLimit : ℤ := (pgUint64Max - pgUint64Max / nbaseSqr) / (nbaseSqr - 1)

/-- Normalize if an entry might overflow otherwise. -/
def mulNormalize (maxdig var1digitpair : ℤ) (dig : List ℤ) : Option (ℤ × List ℤ) := do
  let maxdig ← checkUInt64 (maxdig + var1digitpair)
  if maxdigLimit < maxdig then do
    let dig ← mulCarry dig
    some (1 + var1digitpair, dig)
  else some (maxdig, dig)

/-- The loop over the digit pairs of the first number below `i1`, from right to left. -/
def mulLoop (pairs1 pairs2 : List ℤ) (pairOffset : ℕ) : ℕ → ℤ → List ℤ → Option (List ℤ)
  | 0, _, dig => some dig
  | i1 + 1, maxdig, dig => do
    let var1digitpair := pairs1.getD i1 0
    if var1digitpair = 0 then mulLoop pairs1 pairs2 pairOffset i1 maxdig dig
    else do
      let (maxdig, dig) ← mulNormalize maxdig var1digitpair dig
      let dig ← addRow var1digitpair (i1 + pairOffset) pairs2 dig
      mulLoop pairs1 pairs2 pairOffset i1 maxdig dig

/-- The accumulator after all multiplications. -/
def mulAccumulate (pairs1 pairs2 : List ℤ) (pairOffset resNdigitpairs : ℕ) : Option (List ℤ) := do
  let i1 := pairs1.length - 1
  let var1digitpair := pairs1.getD i1 0
  let i2limit := min pairs2.length (resNdigitpairs - i1 - pairOffset)
  let dig := List.replicate (i1 + pairOffset) 0 ++ (pairs2.take i2limit).map (var1digitpair * ·)
  if dig.length ≠ resNdigitpairs ∨ dig.any (!fitsUInt64 ·) then none
  else mulLoop pairs1 pairs2 pairOffset i1 var1digitpair dig

def mulVarLong (var1 var2 : NumericVar) (rscale : ℤ) : Option NumericVar :=
  let var1ndigitpairs := (var1.ndigits + 1) / 2
  let var2ndigitpairs := (var2.ndigits + 1) / 2
  let resNdigits := var1.ndigits + var2.ndigits
  let resNdigitpairs := resNdigits / 2 + 1
  let pairOffset := resNdigitpairs - var1ndigitpairs - var2ndigitpairs + 1
  let resWeight := var1.weight + var2.weight + 1 + 2 * resNdigitpairs - resNdigits -
    var1.ndigits % 2 - var2.ndigits % 2
  -- the division is that of C
  let maxdigits := resWeight + 1 + (rscale + decDigits - 1).tdiv decDigits + mulGuardDigits
  let maxdigitpairs := maxdigits.tdiv 2 + 1
  let resNdigitpairs := min resNdigitpairs maxdigitpairs
  if resNdigitpairs ≤ pairOffset then some (zeroVar rscale)
  else do
    let var1ndigitpairs := min var1ndigitpairs (resNdigitpairs - pairOffset)
    let var2ndigitpairs := min var2ndigitpairs (resNdigitpairs - pairOffset)
    let dig ← mulAccumulate ((digitPairs var1.digits).take var1ndigitpairs.toNat)
      ((digitPairs var2.digits).take var2ndigitpairs.toNat) pairOffset.toNat resNdigitpairs.toNat
    let dig ← mulCarry dig
    some (stripVar (roundVar
      { digits := dig.flatMap fun newdig => [newdig / nbase, newdig % nbase]
        weight := resWeight
        sign := productSign var1 var2
        dscale := 0 } rscale))

/-- Arrange for the first number to be the shorter one. -/
def mulVar (var1 var2 : NumericVar) (rscale : ℤ) : Option NumericVar :=
  let (var1, var2) := if var2.ndigits < var1.ndigits then (var2, var1) else (var1, var2)
  if var1.ndigits = 0 then some (zeroVar rscale)
  else if var1.ndigits ≤ 6 ∧ rscale = var1.dscale + var2.dscale then mulVarShort var1 var2
  else mulVarLong var1 var2 rscale

end NumericVar

end PostgreSieve.Numeric
