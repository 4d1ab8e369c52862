import Mathlib.Data.List.GetD
import PostgreSieve.Utf8.Basic

/-! # Legal characters and code points

The byte sequences that `pg_utf8_islegal` accepts are the encodings of the code points outside the
surrogates.
-/

namespace PostgreSieve.Utf8

open List

/-- The sequence has the length that its first byte tells, and is legal. -/
def LegalChar (c : List UInt8) : Prop :=
  c.length = pgUtfMblen (c.getD 0 0) ∧ pgUtf8Islegal c c.length = true

instance (c : List UInt8) : Decidable (LegalChar c) := inferInstanceAs (Decidable (_ ∧ _))

def IsCodePoint (c : ℕ) : Prop :=
  c ≤ 0x10FFFF ∧ isUtf16SurrogateFirst c = false ∧ isUtf16SurrogateSecond c = false

/-! ## Bytes -/

theorem forall_byte {P : UInt8 → Prop} (h : ∀ n : Fin 256, P (UInt8.ofNat n)) (b : UInt8) : P b := by
  have := h ⟨b.toNat, b.toNat_lt⟩
  rwa [UInt8.ofNat_toNat] at this

theorem pgUtfMblen_eq_iff (b : UInt8) : (pgUtfMblen b = 1 ↔ b.toNat < 0xC0 ∨ 0xF8 ≤ b.toNat) ∧
    (pgUtfMblen b = 2 ↔ 0xC0 ≤ b.toNat ∧ b.toNat < 0xE0) ∧
    (pgUtfMblen b = 3 ↔ 0xE0 ≤ b.toNat ∧ b.toNat < 0xF0) ∧
    (pgUtfMblen b = 4 ↔ 0xF0 ≤ b.toNat ∧ b.toNat < 0xF8) := by
  revert b
  exact forall_byte (by decide +kernel)

theorem legalTrail_iff (b : UInt8) : legalTrail b = true ↔ 0x80 ≤ b.toNat ∧ b.toNat < 0xC0 := by
  revert b
  exact forall_byte (by decide +kernel)

theorem legalLead_iff (b : UInt8) :
    legalLead b = true ↔ b.toNat < 0x80 ∨ 0xC2 ≤ b.toNat ∧ b.toNat < 0xF5 := by
  revert b
  exact forall_byte (by decide +kernel)

/-- What the second byte has to satisfy. -/
def Second (a b : ℕ) : Prop :=
  0x80 ≤ b ∧ b < 0xC0 ∧ (a = 0xE0 → 0xA0 ≤ b) ∧ (a = 0xED → b < 0xA0) ∧ (a = 0xF0 → 0x90 ≤ b) ∧
    (a = 0xF4 → b < 0x90)

theorem legalSecond_iff (a b : UInt8) : legalSecond a b = true ↔ Second a.toNat b.toNat := by
  have hval : ∀ n : ℕ, n < 256 → (a = UInt8.ofNat n ↔ a.toNat = n) := by
    intro n hn
    rw [← UInt8.toNat_inj, UInt8.toNat_ofNat', Nat.mod_eq_of_lt hn]
  have h1 : a = 0xE0 ↔ a.toNat = 0xE0 := hval 0xE0 (by decide)
  have h2 : a = 0xED ↔ a.toNat = 0xED := hval 0xED (by decide)
  have h3 : a = 0xF0 ↔ a.toNat = 0xF0 := hval 0xF0 (by decide)
  have h4 : a = 0xF4 ↔ a.toNat = 0xF4 := hval 0xF4 (by decide)
  simp only [legalSecond, Second, h1, h2, h3, h4, UInt8.lt_iff_toNat_lt, GT.gt]
  split_ifs <;> simp <;> omega

theorem legalChar_iff {c : List UInt8} : LegalChar c ↔
    (∃ a, c = [a] ∧ a.toNat < 0x80) ∨
    (∃ a b, c = [a, b] ∧ 0xC2 ≤ a.toNat ∧ a.toNat < 0xE0 ∧ Second a.toNat b.toNat) ∨
    (∃ a b d, c = [a, b, d] ∧ 0xE0 ≤ a.toNat ∧ a.toNat < 0xF0 ∧ Second a.toNat b.toNat ∧
      0x80 ≤ d.toNat ∧ d.toNat < 0xC0) ∨
    (∃ a b d e, c = [a, b, d, e] ∧ 0xF0 ≤ a.toNat ∧ a.toNat < 0xF5 ∧ Second a.toNat b.toNat ∧
      0x80 ≤ d.toNat ∧ d.toNat < 0xC0 ∧ 0x80 ≤ e.toNat ∧ e.toNat < 0xC0) := by
  constructor
  · rintro ⟨hlen, hlegal⟩
    match c, hlen, hlegal with
    | [], hlen, hlegal => cases hlegal
    | [a], hlen, hlegal =>
      have hlead := (legalLead_iff a).mp hlegal
      have hlen := (pgUtfMblen_eq_iff a).1.mp hlen.symm
      exact .inl ⟨a, rfl, by omega⟩
    | [a, b], hlen, hlegal =>
      have hlen := (pgUtfMblen_eq_iff a).2.1.mp hlen.symm
      obtain ⟨hb, hlead⟩ := Bool.and_eq_true_iff.mp hlegal
      have hlead := (legalLead_iff a).mp hlead
      exact .inr (.inl ⟨a, b, rfl, by omega, hlen.2, (legalSecond_iff a b).mp hb⟩)
    | [a, b, d], hlen, hlegal =>
      have hlen := (pgUtfMblen_eq_iff a).2.2.1.mp hlen.symm
      obtain ⟨hlegal, -⟩ := Bool.and_eq_true_iff.mp hlegal
      obtain ⟨hd, hb⟩ := Bool.and_eq_true_iff.mp hlegal
      exact .inr (.inr (.inl ⟨a, b, d, rfl, hlen.1, hlen.2, (legalSecond_iff a b).mp hb,
        (legalTrail_iff d).mp hd⟩))
    | [a, b, d, e], hlen, hlegal =>
      have hlen := (pgUtfMblen_eq_iff a).2.2.2.mp hlen.symm
      obtain ⟨hlegal, hlead⟩ := Bool.and_eq_true_iff.mp hlegal
      obtain ⟨hlegal, hb⟩ := Bool.and_eq_true_iff.mp hlegal
      obtain ⟨he, hd⟩ := Bool.and_eq_true_iff.mp hlegal
      have hlead := (legalLead_iff a).mp hlead
      have hd := (legalTrail_iff d).mp hd
      exact .inr (.inr (.inr ⟨a, b, d, e, rfl, hlen.1, by omega, (legalSecond_iff a b).mp hb, hd.1,
        hd.2, (legalTrail_iff e).mp he⟩))
    | _ :: _ :: _ :: _ :: _ :: _, hlen, hlegal => cases hlegal
  · rintro (⟨a, rfl, ha⟩ | ⟨a, b, rfl, ha, ha', hb⟩ | ⟨a, b, d, rfl, ha, ha', hb, hd⟩ |
      ⟨a, b, d, e, rfl, ha, ha', hb, hd, hd', he⟩)
    · exact ⟨((pgUtfMblen_eq_iff a).1.mpr (by omega)).symm, (legalLead_iff a).mpr (.inl ha)⟩
    · refine ⟨((pgUtfMblen_eq_iff a).2.1.mpr (by omega)).symm, ?_⟩
      exact Bool.and_eq_true_iff.mpr ⟨(legalSecond_iff a b).mpr hb, (legalLead_iff a).mpr (by omega)⟩
    · refine ⟨((pgUtfMblen_eq_iff a).2.2.1.mpr ⟨ha, ha'⟩).symm, ?_⟩
      exact Bool.and_eq_true_iff.mpr ⟨Bool.and_eq_true_iff.mpr ⟨(legalTrail_iff d).mpr hd,
        (legalSecond_iff a b).mpr hb⟩, (legalLead_iff a).mpr (by omega)⟩
    · refine ⟨((pgUtfMblen_eq_iff a).2.2.2.mpr (by omega)).symm, ?_⟩
      exact Bool.and_eq_true_iff.mpr ⟨Bool.and_eq_true_iff.mpr ⟨Bool.and_eq_true_iff.mpr
        ⟨(legalTrail_iff e).mpr he, (legalTrail_iff d).mpr ⟨hd, hd'⟩⟩, (legalSecond_iff a b).mpr hb⟩,
        (legalLead_iff a).mpr (by omega)⟩

/-! ## Encoding and decoding -/

theorem or_and_eq_add (hi k x : ℕ) : 2 ^ k * hi ||| x &&& 2 ^ k - 1 = 2 ^ k * hi + x % 2 ^ k := by
  rw [Nat.and_two_pow_sub_one_eq_mod]
  exact (Nat.two_pow_add_eq_or_of_lt (Nat.mod_lt x (Nat.two_pow_pos k)) hi).symm

theorem unicodeToUtf8_eq {c : ℕ} (h : c ≤ 0x10FFFF) : (unicodeToUtf8 c).map UInt8.toNat =
    if c ≤ 0x7F then [c]
    else if c ≤ 0x7FF then [0xC0 + c / 64, 0x80 + c % 64]
    else if c ≤ 0xFFFF then [0xE0 + c / 4096, 0x80 + c / 64 % 64, 0x80 + c % 64]
    else [0xF0 + c / 262144, 0x80 + c / 4096 % 64, 0x80 + c / 64 % 64, 0x80 + c % 64] := by
  have h5 : ∀ x, 0xC0 ||| x &&& 0x1F = 0xC0 + x % 32 := or_and_eq_add 6 5
  have h4 : ∀ x, 0xE0 ||| x &&& 0x0F = 0xE0 + x % 16 := or_and_eq_add 14 4
  have h3 : ∀ x, 0xF0 ||| x &&& 0x07 = 0xF0 + x % 8 := or_and_eq_add 30 3
  have h6 : ∀ x, 0x80 ||| x &&& 0x3F = 0x80 + x % 64 := or_and_eq_add 2 6
  simp only [unicodeToUtf8, h3, h4, h5, h6, Nat.shiftRight_eq_div_pow]
  split_ifs <;> simp only [map_cons, map_nil, UInt8.toNat_ofNat', List.cons.injEq, and_true]
  all_goals omega

theorem utf8ToUnicode_eq (c : List UInt8) : utf8ToUnicode c =
    let b := fun i => (c.getD i 0).toNat
    if b 0 < 0x80 then b 0
    else if b 0 < 0xC0 then 0xffffffff
    else if b 0 < 0xE0 then b 0 % 32 * 64 + b 1 % 64
    else if b 0 < 0xF0 then b 0 % 16 * 4096 + b 1 % 64 * 64 + b 2 % 64
    else if b 0 < 0xF8 then b 0 % 8 * 262144 + b 1 % 64 * 4096 + b 2 % 64 * 64 + b 3 % 64
    else 0xffffffff := by
  have hlead : ∀ n : Fin 256, ((n : ℕ) &&& 0x80 = 0 ↔ (n : ℕ) < 0x80) ∧
      ((n : ℕ) &&& 0xe0 = 0xc0 ↔ 0xC0 ≤ (n : ℕ) ∧ (n : ℕ) < 0xE0) ∧
      ((n : ℕ) &&& 0xf0 = 0xe0 ↔ 0xE0 ≤ (n : ℕ) ∧ (n : ℕ) < 0xF0) ∧
      ((n : ℕ) &&& 0xf8 = 0xf0 ↔ 0xF0 ≤ (n : ℕ) ∧ (n : ℕ) < 0xF8) := by
    decide +kernel
  obtain ⟨h1, h2, h3, h4⟩ := hlead ⟨(c.getD 0 0).toNat, UInt8.toNat_lt _⟩
  have h6 : ∀ x, x &&& 0x3f = x % 64 := fun x => Nat.and_two_pow_sub_one_eq_mod x 6
  have hmod : ∀ x, x % 64 < 64 := fun x => Nat.mod_lt x (by decide)
  have hshift : ∀ x y k, y < 2 ^ k → x <<< k ||| y = x * 2 ^ k + y := fun x y k hy => by
    rw [Nat.shiftLeft_eq, Nat.mul_comm, ← Nat.two_pow_add_eq_or_of_lt hy]
  have s6 : ∀ x y, x <<< 6 ||| y % 64 = x * 64 + y % 64 := fun x y => hshift x _ 6 (hmod y)
  have s12 : ∀ x y z, x <<< 12 ||| (y % 64 * 64 + z % 64) = x * 4096 + (y % 64 * 64 + z % 64) :=
    fun x y z => hshift x _ 12 (by omega)
  have s18 : ∀ x y z w, x <<< 18 ||| (y % 64 * 4096 + (z % 64 * 64 + w % 64)) =
      x * 262144 + (y % 64 * 4096 + (z % 64 * 64 + w % 64)) :=
    fun x y z w => hshift x _ 18 (by omega)
  simp only [utf8ToUnicode, h1, h2, h3, h4, h6, Nat.and_two_pow_sub_one_eq_mod _ 5,
    Nat.and_two_pow_sub_one_eq_mod _ 4, Nat.and_two_pow_sub_one_eq_mod _ 3, Nat.or_assoc, s6, s12, s18]
  clear h1 h2 h3 h4 h6 hmod hshift s6 s12 s18 hlead
  generalize (c.getD 0 0).toNat = b
  rcases Nat.lt_or_ge b 0x80 with c1 | c1
  · rw [if_pos c1, if_pos c1]
  rw [if_neg (Nat.not_lt.mpr c1), if_neg (Nat.not_lt.mpr c1)]
  rcases Nat.lt_or_ge b 0xC0 with c2 | c2
  · rw [if_neg (by omega), if_neg (by omega), if_neg (by omega), if_pos c2]
  rw [if_neg (Nat.not_lt.mpr c2)]
  rcases Nat.lt_or_ge b 0xE0 with c3 | c3
  · rw [if_pos ⟨c2, c3⟩, if_pos c3]
  rw [if_neg (by omega), if_neg (Nat.not_lt.mpr c3)]
  rcases Nat.lt_or_ge b 0xF0 with c4 | c4
  · rw [if_pos ⟨c3, c4⟩, if_pos c4, Nat.add_assoc]
  rw [if_neg (by omega), if_neg (Nat.not_lt.mpr c4)]
  rcases Nat.lt_or_ge b 0xF8 with c5 | c5
  · rw [if_pos ⟨c4, c5⟩, if_pos c5, Nat.add_assoc, Nat.add_assoc]
  · rw [if_neg (by omega), if_neg (Nat.not_lt.mpr c5)]

theorem utf8ToUnicode_unicodeToUtf8 {c : ℕ} (h : c ≤ 0x10FFFF) :
    utf8ToUnicode (unicodeToUtf8 c) = c := by
  have hb : ∀ i, ((unicodeToUtf8 c).getD i 0).toNat =
      ((unicodeToUtf8 c).map UInt8.toNat).getD i 0 := fun i => (getD_map ..).symm
  have hbytes := unicodeToUtf8_eq h
  rw [utf8ToUnicode_eq]
  simp only [hb]
  split_ifs at hbytes with h1 h2 h3 <;>
    simp only [hbytes, getD_cons_zero, getD_cons_succ]
  · rw [if_pos (by omega)]
  · rw [if_neg (by omega), if_neg (by omega), if_pos (by omega)]
    omega
  · rw [if_neg (by omega), if_neg (by omega), if_neg (by omega), if_pos (by omega)]
    omega
  · rw [if_neg (by omega), if_neg (by omega), if_neg (by omega), if_neg (by omega),
      if_pos (by omega)]
    omega

theorem list_eq_of_toNat {l l' : List UInt8} (h : l.map UInt8.toNat = l'.map UInt8.toNat) : l = l' :=
  map_injective_iff.mpr (fun _ _ => UInt8.toNat_inj.mp) h

/-- The legal characters are the encodings of code points. -/
theorem legalChar_iff_codePoint {s : List UInt8} :
    LegalChar s ↔ ∃ c, IsCodePoint c ∧ unicodeToUtf8 c = s := by
  have hpoint : ∀ c, IsCodePoint c ↔ c ≤ 0x10FFFF ∧ ¬ (0xD800 ≤ c ∧ c ≤ 0xDFFF) := by
    intro c
    simp only [IsCodePoint, isUtf16SurrogateFirst, isUtf16SurrogateSecond, Bool.and_eq_false_iff,
      decide_eq_false_iff_not]
    omega
  rw [legalChar_iff]
  constructor
  · rintro (⟨a, rfl, ha⟩ | ⟨a, b, rfl, ha, ha', hb⟩ | ⟨a, b, d, rfl, ha, ha', hb, hd, hd'⟩ |
      ⟨a, b, d, e, rfl, ha, ha', hb, hd, hd', he, he'⟩)
    · refine ⟨a.toNat, (hpoint _).mpr (by omega), list_eq_of_toNat ?_⟩
      rw [unicodeToUtf8_eq (by omega), if_pos (by omega)]
      rfl
    · obtain ⟨h1, h2, -⟩ := hb
      refine ⟨(a.toNat - 0xC0) * 64 + (b.toNat - 0x80), (hpoint _).mpr (by omega),
        list_eq_of_toNat ?_⟩
      rw [unicodeToUtf8_eq (by omega), if_neg (by omega), if_pos (by omega)]
      simp only [map_cons, map_nil, List.cons.injEq, and_true]
      omega
    · obtain ⟨h1, h2, h3, h4, -⟩ := hb
      refine ⟨(a.toNat - 0xE0) * 4096 + (b.toNat - 0x80) * 64 + (d.toNat - 0x80),
        (hpoint _).mpr (by omega), list_eq_of_toNat ?_⟩
      rw [unicodeToUtf8_eq (by omega), if_neg (by omega), if_neg (by omega), if_pos (by omega)]
      simp only [map_cons, map_nil, List.cons.injEq, and_true]
      omega
    · obtain ⟨h1, h2, -, -, h3, h4⟩ := hb
      refine ⟨(a.toNat - 0xF0) * 262144 + (b.toNat - 0x80) * 4096 + (d.toNat - 0x80) * 64 +
        (e.toNat - 0x80), (hpoint _).mpr (by omega), list_eq_of_toNat ?_⟩
      rw [unicodeToUtf8_eq (by omega), if_neg (by omega), if_neg (by omega), if_neg (by omega)]
      simp only [map_cons, map_nil, List.cons.injEq, and_true]
      omega
  · rintro ⟨c, hc, rfl⟩
    obtain ⟨hle, hsur⟩ := (hpoint c).mp hc
    have hbytes := unicodeToUtf8_eq hle
    generalize unicodeToUtf8 c = s at hbytes
    split_ifs at hbytes with h1 h2 h3 <;>
      simp only [map_eq_cons_iff, map_eq_nil_iff] at hbytes
    · obtain ⟨a, -, rfl, ha, rfl⟩ := hbytes
      exact .inl ⟨a, rfl, by omega⟩
    · obtain ⟨a, -, rfl, ha, b, -, rfl, hb, rfl⟩ := hbytes
      refine .inr (.inl ⟨a, b, rfl, by omega, by omega, ?_⟩)
      unfold Second
      omega
    · obtain ⟨a, -, rfl, ha, b, -, rfl, hb, d, -, rfl, hd, rfl⟩ := hbytes
      refine .inr (.inr (.inl ⟨a, b, d, rfl, by omega, by omega, ?_, by omega, by omega⟩))
      unfold Second
      omega
    · obtain ⟨a, -, rfl, ha, b, -, rfl, hb, d, -, rfl, hd, e, -, rfl, he, rfl⟩ := hbytes
      refine .inr (.inr (.inr ⟨a, b, d, e, rfl, by omega, by omega, ?_, by omega, by omega, by omega,
        by omega⟩))
      unfold Second
      omega

end PostgreSieve.Utf8
