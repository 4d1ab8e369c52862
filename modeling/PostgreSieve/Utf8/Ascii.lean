import Mathlib.Data.Nat.Digits.Lemmas
import PostgreSieve.Utf8.Basic

/-! # Chunks of ASCII

`is_valid_ascii` accepts only chunks without zero bytes and without bytes that have the high bit set,
both on vectors with lanes and on words, where an addition to all bytes at once must not carry.
-/

namespace PostgreSieve.Utf8

open List Nat

/-- The byte is an ASCII character other than NUL. -/
def IsAscii (b : UInt8) : Prop := b ≠ 0 ∧ b &&& 0x80 = 0

namespace Vector8

variable {v : Vector8} {s : List UInt8}

theorem mem_chunks (h : v.size ∣ s.length) {b : UInt8} (hb : b ∈ s) :
    ∃ chunk ∈ v.chunks s, chunk.length = v.size ∧ b ∈ chunk := by
  obtain ⟨i, hi, rfl⟩ := getElem_of_mem hb
  obtain ⟨k, hk⟩ := h
  have hpos := v.size_pos
  have hdiv : i / v.size < k := Nat.div_lt_of_lt_mul (hk ▸ hi)
  have hmod := mod_lt i hpos
  have hrest : (i / v.size + 1) * v.size ≤ s.length := by
    rw [hk, mul_comm]
    exact mul_le_mul_left _ hdiv
  rw [succ_mul] at hrest
  have hi' : i / v.size * v.size + i % v.size = i := div_add_mod' i v.size
  refine ⟨(s.drop (i / v.size * v.size)).take v.size, ?_, ?_, ?_⟩
  · refine mem_map.mpr ⟨i / v.size, mem_range.mpr ?_, rfl⟩
    rwa [hk, Nat.mul_div_cancel_left _ hpos]
  · rw [length_take, length_drop]
    omega
  · refine mem_take_iff_getElem.mpr ⟨i % v.size, ?_, ?_⟩
    · rw [length_drop]
      omega
    · simp only [getElem_drop, hi']

theorem length_of_mem_chunks {chunk : List UInt8} (hc : chunk ∈ v.chunks s) :
    chunk.length = v.size := by
  obtain ⟨i, hi, rfl⟩ := mem_map.mp hc
  have := Nat.mul_le_of_le_div _ _ _ (Nat.succ_le_of_lt (mem_range.mp hi))
  rw [succ_mul] at this
  rw [length_take, length_drop]
  omega

/-! ## Lanes -/

def highbit (b : UInt8) : Bool := b &&& 0x80 ≠ 0

theorem highbit_or (a b : UInt8) : highbit (a ||| b) = (highbit a || highbit b) := by
  have h : (a ||| b) &&& 0x80 = a &&& 0x80 ||| b &&& 0x80 := by
    simp only [← UInt8.toBitVec_inj, UInt8.toBitVec_and, UInt8.toBitVec_or,
      BitVec.and_or_distrib_right]
  simp only [highbit, h, ne_eq, UInt8.or_eq_zero_iff, Bool.decide_and, decide_not, Bool.not_and]

theorem any_highbit_or {l l' : List UInt8} (h : l.length = l'.length) :
    (List.zipWith (· ||| ·) l l').any highbit = (l.any highbit || l'.any highbit) := by
  induction l generalizing l' with
  | nil => cases l' with
    | nil => rfl
    | cons => cases h
  | cons a l ih => cases l' with
    | nil => cases h
    | cons b l' =>
      simp only [zipWith_cons_cons, any_cons, highbit_or, ih (succ.inj h)]
      cases highbit a <;> cases highbit b <;> cases l.any highbit <;> rfl

/-- The accumulator has a high bit as soon as a lane has had one, or has been zero. -/
theorem any_highbit_foldl {n : ℕ} {cs : List (List UInt8)} {cum : List UInt8}
    (hcs : ∀ c ∈ cs, c.length = n) (hcum : cum.length = n)
    (h : (cs.foldl (fun cum chunk => List.zipWith (· ||| ·)
      (List.zipWith (· ||| ·) cum (chunk.map fun b => if b = 0 then 0xFF else 0)) chunk)
        cum).any highbit = false) :
    cum.any highbit = false ∧ ∀ c ∈ cs, ∀ b ∈ c, IsAscii b := by
  induction cs generalizing cum with
  | nil => exact ⟨h, fun c hc => absurd hc not_mem_nil⟩
  | cons c cs ih =>
    have hc := hcs c mem_cons_self
    obtain ⟨h1, h2⟩ := ih (fun c hc => hcs c (mem_cons_of_mem _ hc)) (by simp [hcum, hc]) h
    rw [any_highbit_or (by simp [hcum, hc]), any_highbit_or (by simp [hcum, hc]),
      Bool.or_eq_false_iff, Bool.or_eq_false_iff] at h1
    obtain ⟨⟨h0, hz⟩, hb⟩ := h1
    refine ⟨h0, fun d hd b hbd => ?_⟩
    rcases mem_cons.mp hd with rfl | hd
    · rw [any_eq_false] at hz hb
      refine ⟨fun h0 => ?_, by simpa [highbit] using hb b hbd⟩
      refine absurd (hz 0xFF ?_) (by decide)
      exact mem_map.mpr ⟨b, hbd, if_pos h0⟩
    · exact h2 d hd b hbd

/-! ## Words -/

theorem and_digit {a b : ℕ} (x y : ℕ) (ha : a < 256) (hb : b < 256) :
    (a + 256 * x) &&& (b + 256 * y) = (a &&& b) + 256 * (x &&& y) := by
  have hab : a &&& b < 2 ^ 8 := and_le_left.trans_lt ha
  rw [add_comm a, add_comm b, add_comm (a &&& b)]
  refine eq_of_testBit_eq fun j => ?_
  rw [testBit_and, testBit_two_pow_mul_add (i := 8) x ha,
    testBit_two_pow_mul_add (i := 8) y hb, testBit_two_pow_mul_add (i := 8) _ hab,
    testBit_and, testBit_and]
  split <;> rfl

/-- No byte of the word has its high bit set. -/
theorem lt_of_and_eq_zero {l : List ℕ} (hl : ∀ d ∈ l, d < 256)
    (h : ofDigits 256 l &&& ofDigits 256 (List.replicate l.length 0x80) = 0) :
    ∀ d ∈ l, d < 0x80 := by
  induction l with
  | nil => exact fun d hd => absurd hd not_mem_nil
  | cons d l ih =>
    have hd := hl d mem_cons_self
    rw [length_cons, replicate_succ, ofDigits_cons, ofDigits_cons,
      and_digit _ _ hd (by decide)] at h
    intro e he
    rcases mem_cons.mp he with rfl | he
    · have hbit : ∀ n : Fin 256, (n : ℕ) &&& 0x80 = 0 → (n : ℕ) < 0x80 := by decide +kernel
      exact hbit ⟨e, hd⟩ (show e &&& 0x80 = 0 by omega)
    · exact ih (fun d hd => hl d (mem_cons_of_mem _ hd)) (by omega) e he

theorem add_broadcast_lt {l : List ℕ} (hl : ∀ d ∈ l, d < 0x80) :
    ofDigits 256 l + ofDigits 256 (List.replicate l.length 0x7F) < 256 ^ l.length := by
  induction l with
  | nil => decide
  | cons d l ih =>
    have hd := hl d mem_cons_self
    have := ih fun d hd => hl d (mem_cons_of_mem _ hd)
    rw [length_cons, replicate_succ, ofDigits_cons, ofDigits_cons, pow_succ]
    omega

/-- No byte of the word is zero if the addition sets all high bits. -/
theorem ne_zero_of_and_eq {l : List ℕ} (hl : ∀ d ∈ l, d < 0x80)
    (h : ofDigits 256 (List.replicate l.length 0x80) &&&
      (ofDigits 256 l + ofDigits 256 (List.replicate l.length 0x7F)) =
        ofDigits 256 (List.replicate l.length 0x80)) : ∀ d ∈ l, d ≠ 0 := by
  induction l with
  | nil => exact fun d hd => absurd hd not_mem_nil
  | cons d l ih =>
    have hd := hl d mem_cons_self
    have hadd : ∀ x y : ℕ, d + 256 * x + (0x7F + 256 * y) = d + 0x7F + 256 * (x + y) := by omega
    rw [length_cons, replicate_succ, replicate_succ, ofDigits_cons,
      ofDigits_cons, ofDigits_cons, hadd, and_digit _ _ (by decide) (by omega)] at h
    have hlt : 0x80 &&& (d + 0x7F) < 256 := and_le_left.trans_lt (by decide)
    intro e he
    rcases mem_cons.mp he with rfl | he
    · rintro rfl
      have h0 : 0x80 &&& (0 + 0x7F) = 0 := by decide
      omega
    · exact ih (fun d hd => hl d (mem_cons_of_mem _ hd)) (by omega) e he

theorem foldl_word {f : List UInt8 → ℕ} {k : ℕ} (cs : List (List UInt8)) (cums : ℕ × ℕ) :
    let r := cs.foldl (fun (cums : ℕ × ℕ) c => (cums.1 &&& (f c + k) % 2 ^ 64, cums.2 ||| f c)) cums
    (r.1 &&& cums.1 = r.1 ∧ cums.2 ||| r.2 = r.2) ∧
      ∀ c ∈ cs, r.1 &&& (f c + k) % 2 ^ 64 = r.1 ∧ f c ||| r.2 = r.2 := by
  induction cs generalizing cums with
  | nil => exact ⟨⟨Nat.and_self _, Nat.or_self _⟩, fun c hc => absurd hc not_mem_nil⟩
  | cons c cs ih =>
    obtain ⟨⟨h1, h2⟩, h3⟩ := ih (cums.1 &&& (f c + k) % 2 ^ 64, cums.2 ||| f c)
    rw [foldl_cons]
    generalize cs.foldl _ _ = r at h1 h2 h3 ⊢
    have hand : ∀ x y z : ℕ, z &&& (x &&& y) = z → z &&& x = z ∧ z &&& y = z := by
      intro x y z h
      refine ⟨eq_of_testBit_eq fun i => ?_, eq_of_testBit_eq fun i => ?_⟩ <;>
      · have := congrArg (testBit · i) h
        simp only [testBit_and] at this ⊢
        revert this
        cases z.testBit i <;> cases x.testBit i <;> cases y.testBit i <;> decide
    have hor : ∀ x y z : ℕ, x ||| y ||| z = z → x ||| z = z ∧ y ||| z = z := by
      intro x y z h
      refine ⟨eq_of_testBit_eq fun i => ?_, eq_of_testBit_eq fun i => ?_⟩ <;>
      · have := congrArg (testBit · i) h
        simp only [testBit_or] at this ⊢
        revert this
        cases z.testBit i <;> cases x.testBit i <;> cases y.testBit i <;> decide
    obtain ⟨a1, a2⟩ := hand _ _ _ h1
    obtain ⟨o1, o2⟩ := hor _ _ _ h2
    refine ⟨⟨a1, o1⟩, fun d hd => ?_⟩
    rcases mem_cons.mp hd with rfl | hd
    · exact ⟨a2, o2⟩
    · exact h3 d hd

theorem loadWord_eq (bigEndian : Bool) (chunk : List UInt8) : ∃ l : List ℕ,
    loadWord bigEndian chunk = ofDigits 256 l ∧ l.length = chunk.length ∧
      (∀ d ∈ l, d < 256) ∧ ∀ b ∈ chunk, b.toNat ∈ l := by
  refine ⟨_, rfl, ?_, ?_, ?_⟩
  · cases bigEndian <;> simp
  · intro d hd
    obtain ⟨b, -, rfl⟩ := mem_map.mp hd
    exact b.toNat_lt
  · intro b hb
    exact mem_map_of_mem (by cases bigEndian <;> simpa using hb)

/-- A chunk that is accepted has only ASCII characters. -/
theorem isAscii_of_isValidAscii (hlen : v.size ∣ s.length) (h : v.isValidAscii s = true) :
    ∀ b ∈ s, IsAscii b := by
  intro b hb
  obtain ⟨chunk, hc, hsize, hbc⟩ := mem_chunks hlen hb
  cases v with
  | lanes size pos =>
    simp only [isValidAscii, Bool.not_eq_true'] at h
    have hsizes : ∀ c ∈ chunks (lanes size pos) s, c.length = size := fun c hc =>
      length_of_mem_chunks hc
    exact (any_highbit_foldl hsizes length_replicate h).2 chunk hc b hbc
  | word bigEndian =>
    obtain ⟨-, hall⟩ := foldl_word (f := loadWord bigEndian) (k := broadcastWord 0x7F)
      (chunks (word bigEndian) s) (broadcastWord 0x80, 0)
    obtain ⟨hzero, hhigh⟩ := hall chunk hc
    simp only [isValidAscii] at h
    generalize (chunks (word bigEndian) s).foldl _ _ = r at h hzero hhigh
    split_ifs at h with h1 h2
    rw [not_not] at h1 h2
    obtain ⟨l, hl, hlen, hdig, hmem⟩ := loadWord_eq bigEndian chunk
    have hlen8 : l.length = 8 := hlen.trans hsize
    rw [h2, hl] at hzero
    rw [hl] at hhigh
    have hlow : ∀ d ∈ l, d < 0x80 := by
      refine lt_of_and_eq_zero hdig ?_
      rw [← hhigh, and_or_distrib_right, or_eq_zero_iff] at h1
      rw [hlen8]
      exact h1.1
    have hlt := add_broadcast_lt hlow
    have hne : ∀ d ∈ l, d ≠ 0 := by
      refine ne_zero_of_and_eq hlow ?_
      rw [hlen8] at hlt ⊢
      rwa [mod_eq_of_lt (by exact hlt)] at hzero
    have hb := hmem b hbc
    refine ⟨fun h0 => hne _ hb (h0 ▸ rfl), ?_⟩
    have hbit : ∀ n : Fin 256, (n : ℕ) < 0x80 → (UInt8.ofNat n) &&& 0x80 = 0 := by decide +kernel
    have := hbit ⟨b.toNat, b.toNat_lt⟩ (hlow _ hb)
    rwa [UInt8.ofNat_toNat] at this

end Vector8

end PostgreSieve.Utf8
