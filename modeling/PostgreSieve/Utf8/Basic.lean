import Mathlib.Data.List.Basic
import Mathlib.Data.Nat.Digits.Defs

/-! # UTF-8

The functions of `wchar.c` and `pg_wchar.h` for UTF-8. A byte string is a list of bytes, so that its
length is the length of the list. Pointers into the string are offsets.
-/

namespace PostgreSieve.Utf8

/-! ## Characters -/

/-- The length of the character that starts with the byte. -/
def pgUtfMblen (s : UInt8) : ℕ :=
  if s &&& 0x80 = 0 then 1
  else if s &&& 0xe0 = 0xc0 then 2
  else if s &&& 0xf0 = 0xe0 then 3
  else if s &&& 0xf8 = 0xf0 then 4
  else 1

def legalTrail (a : UInt8) : Bool := !(a < 0x80 || a > 0xBF)

/-- The rules for the second byte exclude overlong sequences, surrogates and too large code points. -/
def legalSecond (lead a : UInt8) : Bool :=
  if lead = 0xE0 then !(a < 0xA0 || a > 0xBF)
  else if lead = 0xED then !(a < 0x80 || a > 0x9F)
  else if lead = 0xF0 then !(a < 0x90 || a > 0xBF)
  else if lead = 0xF4 then !(a < 0x80 || a > 0x8F)
  else !(a < 0x80 || a > 0xBF)

def legalLead (a : UInt8) : Bool := !(a ≥ 0x80 && a < 0xC2) && !(a > 0xF4)

/-- The cases of the switch fall through to the shorter lengths. -/
def pgUtf8Islegal (source : List UInt8) (length : ℕ) : Bool :=
  match length with
  | 1 => legalLead (source.getD 0 0)
  | 2 => legalSecond (source.getD 0 0) (source.getD 1 0) && legalLead (source.getD 0 0)
  | 3 => legalTrail (source.getD 2 0) && legalSecond (source.getD 0 0) (source.getD 1 0) &&
      legalLead (source.getD 0 0)
  | 4 => legalTrail (source.getD 3 0) && legalTrail (source.getD 2 0) &&
      legalSecond (source.getD 0 0) (source.getD 1 0) && legalLead (source.getD 0 0)
  | _ => false

/-- The length of the character at the start of a string that is not empty, `none` for `-1`. -/
def pgUtf8Verifychar (s : List UInt8) : Option ℕ :=
  let c := s.getD 0 0
  if c &&& 0x80 = 0 then
    if c = 0 then none else some 1
  else
    let l := if c &&& 0xe0 = 0xc0 then 2
      else if c &&& 0xf0 = 0xe0 then 3
      else if c &&& 0xf8 = 0xf0 then 4
      else 1
    if l > s.length then none
    else if !pgUtf8Islegal s l then none
    else some l

def utf8ToUnicode (c : List UInt8) : ℕ :=
  let b := fun i => (c.getD i 0).toNat
  if b 0 &&& 0x80 = 0 then b 0
  else if b 0 &&& 0xe0 = 0xc0 then (b 0 &&& 0x1f) <<< 6 ||| b 1 &&& 0x3f
  else if b 0 &&& 0xf0 = 0xe0 then
    (b 0 &&& 0x0f) <<< 12 ||| (b 1 &&& 0x3f) <<< 6 ||| b 2 &&& 0x3f
  else if b 0 &&& 0xf8 = 0xf0 then
    (b 0 &&& 0x07) <<< 18 ||| (b 1 &&& 0x3f) <<< 12 ||| (b 2 &&& 0x3f) <<< 6 ||| b 3 &&& 0x3f
  else 0xffffffff

/-- The bytes that `unicode_to_utf8` stores. -/
def unicodeToUtf8 (c : ℕ) : List UInt8 :=
  if c ≤ 0x7F then [.ofNat c]
  else if c ≤ 0x7FF then [.ofNat (0xC0 ||| c >>> 6 &&& 0x1F), .ofNat (0x80 ||| c &&& 0x3F)]
  else if c ≤ 0xFFFF then
    [.ofNat (0xE0 ||| c >>> 12 &&& 0x0F), .ofNat (0x80 ||| c >>> 6 &&& 0x3F),
      .ofNat (0x80 ||| c &&& 0x3F)]
  else
    [.ofNat (0xF0 ||| c >>> 18 &&& 0x07), .ofNat (0x80 ||| c >>> 12 &&& 0x3F),
      .ofNat (0x80 ||| c >>> 6 &&& 0x3F), .ofNat (0x80 ||| c &&& 0x3F)]

def isUtf16SurrogateFirst (c : ℕ) : Bool := c ≥ 0xD800 && c ≤ 0xDBFF

def isUtf16SurrogateSecond (c : ℕ) : Bool := c ≥ 0xDC00 && c ≤ 0xDFFF

/-! ## The automaton -/

def stateErr : ℕ := 0
def stateBgn : ℕ := 11
/-- Continuation states, which expect one, two or three continuation bytes. -/
def stateCs1 : ℕ := 16
def stateCs2 : ℕ := 1
def stateCs3 : ℕ := 5
/-- Partial states, in which the first continuation byte has a restricted range. -/
def stateP3a : ℕ := 6
def stateP3b : ℕ := 20
def stateP4a : ℕ := 25
def stateP4b : ℕ := 30
def stateEnd : ℕ := stateBgn

def asc : ℕ := stateEnd <<< stateBgn
def l2a : ℕ := stateCs1 <<< stateBgn
def l3a : ℕ := stateP3a <<< stateBgn
def l3b : ℕ := stateCs2 <<< stateBgn
def l3c : ℕ := stateP3b <<< stateBgn
def l4a : ℕ := stateP4a <<< stateBgn
def l4b : ℕ := stateCs3 <<< stateBgn
def l4c : ℕ := stateP4b <<< stateBgn
def cr1 : ℕ := stateEnd <<< stateCs1 ||| stateCs1 <<< stateCs2 ||| stateCs2 <<< stateCs3 |||
  stateCs1 <<< stateP3b ||| stateCs2 <<< stateP4b
def cr2 : ℕ := stateEnd <<< stateCs1 ||| stateCs1 <<< stateCs2 ||| stateCs2 <<< stateCs3 |||
  stateCs1 <<< stateP3b ||| stateCs2 <<< stateP4a
def cr3 : ℕ := stateEnd <<< stateCs1 ||| stateCs1 <<< stateCs2 ||| stateCs2 <<< stateCs3 |||
  stateCs1 <<< stateP3a ||| stateCs2 <<< stateP4a
def ill : ℕ := stateErr

def utf8Transition : List ℕ := List.flatten [
  -- ASCII
  [ill], .replicate 127 asc,
  -- continuation bytes 80..8F, 90..9F, A0..BF
  .replicate 16 cr1, .replicate 16 cr2, .replicate 32 cr3,
  -- leading bytes C0..DF
  [ill, ill], .replicate 30 l2a,
  -- E0..EF
  [l3a], .replicate 12 l3b, [l3c], .replicate 2 l3b,
  -- F0..FF
  [l4a], .replicate 3 l4b, [l4c], .replicate 11 ill]

/-- The state is masked only when it is used to shift and at the end. -/
def utf8Advance (s : List UInt8) (state : ℕ) : ℕ :=
  s.foldl (fun state b => utf8Transition.getD b.toNat 0 >>> (state &&& 31)) state &&& 31

/-! ## Vectors of bytes -/

/-- `Vector8` has lanes of bytes, or is a 64-bit word where there are no vector instructions. -/
inductive Vector8 where
  | lanes (size : ℕ) (pos : 0 < size)
  | word (bigEndian : Bool)

namespace Vector8

def size : Vector8 → ℕ
  | lanes size _ => size
  | word _ => 8

def strideLength (v : Vector8) : ℕ := 2 * v.size

theorem size_pos (v : Vector8) : 0 < v.size := by
  cases v with
  | lanes size pos => exact pos
  | word => exact Nat.succ_pos 7

/-- The chunks that the loop of `is_valid_ascii` loads. -/
def chunks (v : Vector8) (s : List UInt8) : List (List UInt8) :=
  (List.range (s.length / v.size)).map fun i => (s.drop (i * v.size)).take v.size

def loadWord (bigEndian : Bool) (chunk : List UInt8) : ℕ :=
  Nat.ofDigits 256 ((if bigEndian then chunk.reverse else chunk).map UInt8.toNat)

def broadcastWord (c : ℕ) : ℕ := Nat.ofDigits 256 (List.replicate 8 c)

def isValidAscii (v : Vector8) (s : List UInt8) : Bool :=
  match v with
  | lanes size _ =>
    let highbitCum := (v.chunks s).foldl (fun cum chunk =>
      let cum := List.zipWith (· ||| ·) cum (chunk.map fun b => if b = 0 then 0xFF else 0)
      List.zipWith (· ||| ·) cum chunk) (List.replicate size 0)
    !highbitCum.any fun b => b &&& 0x80 ≠ 0
  | word bigEndian =>
    let cums := (v.chunks s).foldl (fun (cums : ℕ × ℕ) chunk =>
      let chunk := loadWord bigEndian chunk
      (cums.1 &&& (chunk + broadcastWord 0x7F) % 2 ^ 64, cums.2 ||| chunk)) (broadcastWord 0x80, 0)
    if cums.2 &&& broadcastWord 0x80 ≠ 0 then false
    else if cums.1 ≠ broadcastWord 0x80 then false
    else true

end Vector8

/-! ## Strings -/

/-- The loop over strides, with the rest of the string and the state. -/
def verifyStrides (v : Vector8) (s : List UInt8) (state : ℕ) : List UInt8 × ℕ :=
  if h : v.strideLength ≤ s.length then
    verifyStrides v (s.drop v.strideLength)
      (if state ≠ stateEnd ∨ !v.isValidAscii (s.take v.strideLength) then
        utf8Advance (s.take v.strideLength) state else state)
  else (s, state)
termination_by s.length
decreasing_by
  have := v.size_pos
  simp only [Vector8.strideLength, List.length_drop] at *
  omega

/-- Walk backwards to the leading byte. -/
def walkBack (start : List UInt8) : ℕ → ℕ
  | 0 => 0
  | s + 1 => if pgUtfMblen (start.getD s 0) ≤ 1 then walkBack start s else s

theorem pgUtf8Verifychar_pos {s : List UInt8} {l : ℕ} (h : pgUtf8Verifychar s = some l) : 0 < l := by
  grind [pgUtf8Verifychar]

/-- The byte-wise loop at the end. -/
def verifyRest (s : List UInt8) : ℕ :=
  if hs : s = [] then 0
  else if s.getD 0 0 &&& 0x80 = 0 then
    if s.getD 0 0 = 0 then 0 else 1 + verifyRest (s.drop 1)
  else
    match h : pgUtf8Verifychar s with
    | none => 0
    | some l => l + verifyRest (s.drop l)
termination_by s.length
decreasing_by
  · have := List.length_pos_of_ne_nil hs
    rw [List.length_drop]
    omega
  · have := List.length_pos_of_ne_nil hs
    have := pgUtf8Verifychar_pos h
    rw [List.length_drop]
    omega

/-- The number of bytes that are valid. -/
def pgUtf8Verifystr (v : Vector8) (start : List UInt8) : ℕ :=
  if v.strideLength ≤ start.length then
    let r := verifyStrides v start stateBgn
    let s := start.length - r.1.length
    let s := if r.2 = stateErr then 0 else if r.2 ≠ stateEnd then walkBack start s else s
    s + verifyRest (start.drop s)
  else verifyRest start

end PostgreSieve.Utf8
