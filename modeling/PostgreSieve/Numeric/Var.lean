import Mathlib.Data.List.DropRight
import PostgreSieve.Numeral.Basic

/-! # Numeric variables

The arithmetic on the variables of `numeric.c`. The digit arrays have a spare zero in front of them,
which is where a carry out of the first digit goes. Weights and scales are integers without a bound.
-/

namespace PostgreSieve.Numeric

open Numeral

def nbase : ℤ := 10000

def halfNbase : ℤ := 5000

def decDigits : ℤ := 4

inductive NumericSign where
  | pos
  | neg
  deriving DecidableEq

/-- The number is that of the digits to base `nbase`, the first of which has the given weight. -/
structure NumericVar where
  digits : List ℤ
  weight : ℤ
  sign : NumericSign
  dscale : ℤ
  deriving DecidableEq

namespace NumericVar

def ndigits (var : NumericVar) : ℤ := var.digits.length

/-- `zero_var`, with the display scale that callers set next. -/
def zeroVar (dscale : ℤ) : NumericVar := ⟨[], 0, .pos, dscale⟩

/-! ## Stripping and rounding -/

def stripLeading : List ℤ → ℤ → List ℤ × ℤ
  | [], weight => ([], weight)
  | d :: ds, weight => if d = 0 then stripLeading ds (weight - 1) else (d :: ds, weight)

def stripVar (var : NumericVar) : NumericVar :=
  let (digits, weight) := stripLeading var.digits var.weight
  let digits := digits.rdropWhile (· = 0)
  if digits = [] then { var with digits := [], weight := 0, sign := .pos }
  else { var with digits := digits, weight := weight }

def roundPowers (di : ℤ) : ℤ := [0, 1000, 100, 10].getD di.toNat 0

/-- The loop that propagates a carry to the left as far as needed. -/
def propagateCarry (carry : ℤ) : List ℤ → ℤ × List ℤ
  | [] => (carry, [])
  | d :: ds =>
    let (carry, out) := propagateCarry carry ds
    if carry = 0 then (0, d :: out)
    else if nbase ≤ carry + d then (1, (carry + d - nbase) :: out)
    else (0, (carry + d) :: out)

/-- Round within the last digit, of which `di` decimal digits are kept. -/
def roundLast (di digit : ℤ) : ℤ × ℤ :=
  let pow10 := roundPowers di
  let extra := digit % pow10
  let digit := digit - extra
  if pow10 / 2 ≤ extra then
    let pow10 := pow10 + digit
    if nbase ≤ pow10 then (pow10 - nbase, 1) else (pow10, 0)
  else (digit, 0)

/-- The kept digits, those that a carry may go to apart from the one that is rounded itself. -/
def roundKept (digits : List ℤ) (ndigits : ℕ) (di : ℤ) : List ℤ × List ℤ × ℤ :=
  let kept := digits.take ndigits
  if di = 0 then (kept, [], if halfNbase ≤ digits.getD ndigits 0 then 1 else 0)
  else
    let (digit, carry) := roundLast di (kept.getLastD 0)
    (kept.dropLast, [digit], carry)

def roundVar (var : NumericVar) (rscale : ℤ) : NumericVar :=
  let di := (var.weight + 1) * decDigits + rscale
  if di < 0 then zeroVar rscale
  else
    let ndigits := (di + decDigits - 1) / decDigits
    let di := di % decDigits
    if ndigits < var.ndigits ∨ ndigits = var.ndigits ∧ 0 < di then
      let (high, low, carry) := roundKept var.digits ndigits.toNat di
      let (carry, high) := propagateCarry carry high
      -- the carry goes to the spare digit
      if carry = 0 then { var with digits := high ++ low, dscale := rscale }
      else
        { var with
          digits := carry :: (high ++ low)
          weight := var.weight + 1
          dscale := rscale }
    else { var with dscale := rscale }

/-! ## Comparison of absolute values -/

/-- Check any digits before the first common one: `none` if there is a nonzero one. -/
def checkLeading (other : ℤ) : List ℤ → ℤ → Option (List ℤ × ℤ)
  | [], weight => some ([], weight)
  | d :: ds, weight =>
    if other < weight then if d ≠ 0 then none else checkLeading other ds (weight - 1)
    else some (d :: ds, weight)

/-- Compare digits of the same weight up to the end of either number. -/
def compareCommon : List ℤ → List ℤ → Ordering ⊕ (List ℤ × List ℤ)
  | d1 :: ds1, d2 :: ds2 =>
    if d1 - d2 ≠ 0 then .inl (if 0 < d1 - d2 then .gt else .lt) else compareCommon ds1 ds2
  | ds1, ds2 => .inr (ds1, ds2)

/-- Any remaining nonzero digits imply that the side is larger. -/
def compareRest (digits1 digits2 : List ℤ) : Ordering :=
  if digits1.any (· ≠ 0) then .gt else if digits2.any (· ≠ 0) then .lt else .eq

def cmpAbsCommon (digits1 : List ℤ) (weight1 : ℤ) (digits2 : List ℤ) (weight2 : ℤ) : Ordering :=
  match checkLeading weight2 digits1 weight1 with
  | none => .gt
  | some (digits1, weight1) =>
    match checkLeading weight1 digits2 weight2 with
    | none => .lt
    | some (digits2, weight2) =>
      if weight1 = weight2 then
        match compareCommon digits1 digits2 with
        | .inl result => result
        | .inr (digits1, digits2) => compareRest digits1 digits2
      else compareRest digits1 digits2

def cmpAbs (var1 var2 : NumericVar) : Ordering :=
  cmpAbsCommon var1.digits var1.weight var2.digits var2.weight

/-! ## Addition and subtraction -/

/-- The number of digits behind the point. -/
def rscaleDigits (var : NumericVar) : ℤ := var.ndigits - var.weight - 1

def addStep (carry : ℤ) : ℤ × ℤ := if nbase ≤ carry then (1, carry - nbase) else (0, carry)

def subStep (borrow : ℤ) : ℤ × ℤ := if borrow < 0 then (-1, borrow + nbase) else (0, borrow)

/-- The loop over the columns, from right to left. -/
def columnPass (step : ℤ → ℤ × ℤ) : List ℤ → ℤ × List ℤ
  | [] => (0, [])
  | d :: ds =>
    let (carry, out) := columnPass step ds
    let (carry, digit) := step (carry + d)
    (carry, digit :: out)

/-- Align the digits of two variables and go over their columns. -/
def combineAbs (column : ℤ → ℤ → ℤ) (step : ℤ → ℤ × ℤ) (resWeight : ℤ) (var1 var2 : NumericVar) :
    NumericVar :=
  let resRscale := max var1.rscaleDigits var2.rscaleDigits
  let resNdigits := if resRscale + resWeight + 1 ≤ 0 then 1 else resRscale + resWeight + 1
  let offset1 := resRscale + var1.weight + 1 - resNdigits
  let offset2 := resRscale + var2.weight + 1 - resNdigits
  let columns := (List.range resNdigits.toNat).map fun i : ℕ =>
    column (digitAt var1.digits (offset1 + i)) (digitAt var2.digits (offset2 + i))
  stripVar
    { digits := (columnPass step columns).2
      weight := resWeight
      sign := .pos
      dscale := max var1.dscale var2.dscale }

def addAbs (var1 var2 : NumericVar) : NumericVar :=
  combineAbs (· + ·) addStep (max var1.weight var2.weight + 1) var1 var2

/-- The absolute value of the first variable must not be the smaller one. -/
def subAbs (var1 var2 : NumericVar) : NumericVar :=
  combineAbs (· - ·) subStep var1.weight var1 var2

/-- The difference of absolute values, with the sign it has if the first one is the larger. -/
def diffAbs (sign sign' : NumericSign) (var1 var2 : NumericVar) : NumericVar :=
  match cmpAbs var1 var2 with
  | .eq => zeroVar (max var1.dscale var2.dscale)
  | .gt => { subAbs var1 var2 with sign := sign }
  | .lt => { subAbs var2 var1 with sign := sign' }

def addVar (var1 var2 : NumericVar) : NumericVar :=
  match var1.sign, var2.sign with
  | .pos, .pos => { addAbs var1 var2 with sign := .pos }
  | .pos, .neg => diffAbs .pos .neg var1 var2
  | .neg, .pos => diffAbs .neg .pos var1 var2
  | .neg, .neg => { addAbs var1 var2 with sign := .neg }

end NumericVar

end PostgreSieve.Numeric
