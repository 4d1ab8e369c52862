import Mathlib.Order.Basic
import Mathlib.Tactic.Ring
import PostgreSieve.Lists.Memory
import PostgreSieve.Pglz.Basic

/-! # The compressed format

Compressed data is a sequence of literal bytes and tags, in groups of up to eight behind a control
byte. Items that describe a byte string are turned into it by the decompressor.
-/

namespace PostgreSieve.Pglz

open List Nat

inductive Item where
  | literal (byte : UInt8)
  | tag (len off : ℕ)

namespace Item

/-- The control bit. -/
def bit : Item → Bool
  | literal _ => false
  | tag .. => true

/-- The number of bytes that the item stands for. -/
def size : Item → ℕ
  | literal _ => 1
  | tag len _ => len

def bytes : Item → List UInt8
  | literal byte => [byte]
  | tag len off =>
    if 17 < len then
      [.ofNat (((off &&& 0xf00) >>> 4) ||| 0x0f), .ofNat (off &&& 0xff), .ofNat (len - 18)]
    else [.ofNat (((off &&& 0xf00) >>> 4) ||| (len - 3)), .ofNat (off &&& 0xff)]

/-- The item stands for the bytes of `src` at `dp`. -/
def Fits (src : ℕ → UInt8) (dp : ℕ) : Item → Prop
  | literal byte => src dp = byte
  | tag len off => 3 ≤ len ∧ len ≤ pglzMaxMatch ∧ 0 < off ∧ off < 0x1000 ∧ off ≤ dp ∧
    ∀ j < len, src (dp + j) = src (dp + j - off)

end Item

/-- The items stand for the bytes of `src` from `dp` to `dp'`. -/
def Parses (src : ℕ → UInt8) : ℕ → List Item → ℕ → Prop
  | dp, [], dp' => dp = dp'
  | dp, it :: its, dp' => it.Fits src dp ∧ Parses src (dp + it.size) its dp'

/-- The control byte of a group. -/
def ctrlBits : List Item → ℕ
  | [] => 0
  | it :: its => it.bit.toNat + 2 * ctrlBits its

def groupBytes (g : List Item) : List UInt8 := .ofNat (ctrlBits g) :: g.flatMap Item.bytes

/-- Every group but the last one has eight items. -/
def Grouped : List (List Item) → Prop
  | [] => True
  | [g] => g ≠ [] ∧ g.length ≤ 8
  | g :: gs => g.length = 8 ∧ Grouped gs

variable {src source dest : ℕ → UInt8} {dp dp' srcend destend : ℕ} {it : Item}
  {its its' g : List Item} {gs : List (List Item)}
variable {m₀ : ℕ → UInt8} {ctrl : UInt8} {d : Decompressor}

variable {e off a p n len : ℕ}

theorem Parses.append (h : Parses src dp its dp') (h' : Parses src dp' its' e) :
    Parses src dp (its ++ its') e := by
  induction its generalizing dp with
  | nil => exact h ▸ h'
  | cons it its ih => exact ⟨h.1, ih h.2⟩

theorem parses_append_iff : Parses src dp (its ++ its') e ↔
    ∃ m, Parses src dp its m ∧ Parses src m its' e := by
  induction its generalizing dp with
  | nil => simp [Parses]
  | cons it its ih => simp [Parses, ih, and_assoc]

theorem Parses.le (h : Parses src dp its dp') : dp ≤ dp' := by
  induction its generalizing dp with
  | nil => exact h.le
  | cons it its ih => exact Nat.le_trans (Nat.le_add_right ..) (ih h.2)

theorem Item.Fits.size_pos (h : it.Fits src dp) : 0 < it.size := by
  cases it with
  | literal byte => exact one_pos
  | tag len off => exact lt_of_lt_of_le (by decide) h.1

theorem ctrlBits_lt (its : List Item) : ctrlBits its < 2 ^ its.length := by
  induction its with
  | nil => exact one_pos
  | cons it its ih =>
    have hbit : it.bit.toNat ≤ 1 := Bool.toNat_le _
    rw [ctrlBits, length_cons, pow_succ]
    omega

theorem ctrlBits_concat (its : List Item) (it : Item) :
    ctrlBits (its ++ [it]) = ctrlBits its + it.bit.toNat * 2 ^ its.length := by
  induction its with
  | nil => simp [ctrlBits]
  | cons it' its ih =>
    rw [cons_append, ctrlBits, ctrlBits, ih, length_cons, pow_succ]
    ring

/-! ## Tags -/

theorem high_nibble (h : off < 0x1000) : (off &&& 0xf00) >>> 4 = 16 * (off / 256) := by
  have hall : ∀ (i : Fin 16) (j : Fin 256), ((256 * i.1 + j.1) &&& 0xf00) >>> 4 = 16 * i.1 := by
    decide +kernel
  have hoff := hall ⟨off / 256, by omega⟩ ⟨off % 256, by omega⟩
  rwa [div_add_mod] at hoff

theorem low_byte (off : ℕ) : off &&& 0xff = off % 256 := and_two_pow_sub_one_eq_mod off 8

theorem or_nibble {h l : ℕ} (hh : h < 16) (hl : l < 16) : 16 * h ||| l = 16 * h + l := by
  have hall : ∀ i j : Fin 16, 16 * i.1 ||| j.1 = 16 * i.1 + j.1 := by decide
  exact hall ⟨h, hh⟩ ⟨l, hl⟩

theorem read_tag {low : ℕ} (ho : off < 0x1000) (hl : low < 16) :
    let b := (UInt8.ofNat (((off &&& 0xf00) >>> 4) ||| low)).toNat
    (b &&& 0x0f) = low ∧ ((b &&& 0xf0) <<< 4) ||| (UInt8.ofNat (off &&& 0xff)).toNat = off := by
  have hhi : off / 256 < 16 := by omega
  have hlo : off % 256 < 256 := by omega
  have h1 : ∀ i j : Fin 16, (16 * i.1 + j.1) % 256 &&& 0x0f = j.1 ∧
      (16 * i.1 + j.1) % 256 &&& 0xf0 = 16 * i.1 := by decide
  have h2 : ∀ (i : Fin 16) (j : Fin 256), (16 * i.1) <<< 4 ||| j.1 % 256 = 256 * i.1 + j.1 := by
    decide +kernel
  obtain ⟨h3, h4⟩ := h1 ⟨off / 256, hhi⟩ ⟨low, hl⟩
  have h5 := h2 ⟨off / 256, hhi⟩ ⟨off % 256, hlo⟩
  simp only [high_nibble ho, or_nibble hhi hl, low_byte, UInt8.toNat_ofNat'] at *
  exact ⟨h3, by rw [h4, h5]; omega⟩

/-! ## Decompression of items -/

/-- What a repeated copy from `a` on gives, for a pattern of `p` bytes. -/
def Repeats (m : ℕ → UInt8) (a p : ℕ) (m₀ : ℕ → UInt8) (e : ℕ) : Prop :=
  ∀ i, a ≤ i → i < e → m i = m₀ (a + (i - a) % p)

theorem repeats_memcpy (hdp : dp = a + off) (hp : p ∣ off) (hrep : Repeats dest a p m₀ dp)
    (hn : n ≤ off) :
    Repeats (memcpy dest dp (dp - off) n) a p m₀ (dp + n) := by
  intro i hai hi
  unfold memcpy
  split
  · have hmod : (i - a) % p = (i - dp) % p := by
      obtain ⟨k, rfl⟩ := hp
      rw [show i - a = i - dp + p * k by omega, add_mul_mod_self_left]
    rw [hrep _ (by omega) (by omega), hmod, show dp - off + (i - dp) - a = i - dp by omega]
  · exact hrep i hai (by omega)

theorem memcpy_of_not_mem {i dst : ℕ} (h : i < dst ∨ dst + n ≤ i) (s : ℕ) :
    memcpy dest dst s n i = dest i :=
  if_neg (by omega)

/-- The pieces that are copied are repetitions of the first `p` bytes. -/
theorem copyMatch_spec (len : ℕ) (hoff : 0 < off) (hdp : dp = a + off) (hp : p ∣ off)
    (hrep : Repeats dest a p m₀ dp) :
    Repeats (copyMatch dest dp off len hoff) a p m₀ (dp + len) ∧
      ∀ i, i < dp ∨ dp + len ≤ i → copyMatch dest dp off len hoff i = dest i := by
  fun_induction copyMatch dest dp off len hoff with
  | case1 dest dp off len hoff hlt ih =>
    obtain ⟨h1, h2⟩ := ih (by omega) (Nat.dvd_add hp hp) (repeats_memcpy hdp hp hrep le_rfl)
    rw [show dp + off + (len - off) = dp + len by omega] at h1 h2
    exact ⟨h1, fun i hi => (h2 i (by omega)).trans (memcpy_of_not_mem (by omega) _)⟩
  | case2 dest dp off len hoff hlt =>
    exact ⟨repeats_memcpy hdp hp hrep (by omega), fun i hi => memcpy_of_not_mem hi _⟩

/-- Bytes that equal those `off` before them repeat the `off` bytes before the first of them. -/
theorem repeats_of_fits (h0 : 0 < off) (hle : off ≤ dp)
    (h : ∀ j < len, src (dp + j) = src (dp + j - off)) :
    Repeats src (dp - off) off src (dp + len) := by
  intro i
  induction i using Nat.strong_induction_on with
  | _ i ih =>
    intro hai hi
    rcases lt_or_ge i dp with hlt | hge
    · rw [Nat.mod_eq_of_lt (by omega), Nat.add_sub_cancel' hai]
    · have hj := h (i - dp) (by omega)
      rw [Nat.add_sub_cancel' hge] at hj
      rw [hj, ih (i - off) (by omega) (by omega) (by omega)]
      rw [show i - (dp - off) = i - off - (dp - off) + off by omega, add_mod_right]

theorem copyMatch_fits (h0 : 0 < off) (hle : off ≤ dp)
    (hj : ∀ j < n, src (dp + j) = src (dp + j - off)) (hdest : ∀ i < dp, dest i = src i) (i : ℕ) :
    copyMatch dest dp off n h0 i = if i < dp + n then src i else dest i := by
  have hrep : Repeats dest (dp - off) off src dp := by
    intro i hai hi
    rw [hdest i hi, Nat.mod_eq_of_lt (by omega), Nat.add_sub_cancel' hai]
  obtain ⟨h1, h2⟩ := copyMatch_spec n h0 (by omega) dvd_rfl hrep
  split
  · rcases Nat.lt_or_ge i dp with hlt | hge
    · rw [h2 i (.inl hlt), hdest i hlt]
    · rw [h1 i (by omega) (by assumption), repeats_of_fits h0 hle hj i (by omega) (by assumption)]
  · exact h2 i (.inr (by omega))

theorem readTag_bytes {sp : ℕ} (hfit : (Item.tag len off).Fits src dp)
    (hst : Stored source sp (Item.tag len off).bytes) :
    readTag source sp = (len, off, sp + (Item.tag len off).bytes.length) := by
  obtain ⟨hmin, hmax, -, hoff, -⟩ := hfit
  rw [pglzMaxMatch] at hmax
  rcases lt_or_ge 17 len with hlong | hshort
  · simp only [Item.bytes, if_pos hlong] at hst ⊢
    obtain ⟨hb0, hb1, hb2, -⟩ := hst
    obtain ⟨hlow, hread⟩ := read_tag hoff (show 0x0f < 16 by decide)
    have hlen : (UInt8.ofNat (len - 18)).toNat = len - 18 := by
      rw [UInt8.toNat_ofNat', Nat.mod_eq_of_lt (by omega)]
    simp only [readTag, hb0, hb1, hlow, hread, hb2, hlen, if_true, length_cons,
      length_nil, Prod.mk.injEq, and_true]
    omega
  · have hnot : ¬ 17 < len := by omega
    simp only [Item.bytes, if_neg hnot] at hst ⊢
    obtain ⟨hb0, hb1, -⟩ := hst
    obtain ⟨hlow, hread⟩ := read_tag hoff (show len - 3 < 16 by omega)
    simp only [readTag, hb0, hb1, hlow, hread]
    rw [if_neg (by omega), Nat.sub_add_cancel hmin]
    rfl

/-- The decompressor has written the first `d.dp` bytes of `src`. -/
def Written (src : ℕ → UInt8) (d : Decompressor) : Prop := ∀ i < d.dp, d.dest i = src i

/-- Processing an item gives the bytes that it stands for, as far as they are asked for. -/
theorem readItem_spec (hctrl : ctrl &&& 1 ≠ 0 ↔ it.bit = true)
    (hfit : it.Fits src d.dp) (hw : Written src d) (hst : Stored source d.sp it.bytes)
    (hsrc : d.sp + it.bytes.length ≤ srcend) (hdst : d.dp < destend) :
    ∃ dest', readItem source srcend destend ctrl d =
        some ⟨d.sp + it.bytes.length, min (d.dp + it.size) destend, dest'⟩ ∧
      Written src ⟨d.sp + it.bytes.length, min (d.dp + it.size) destend, dest'⟩ := by
  cases it with
  | literal byte =>
    have hbit : ¬ ctrl &&& 1 ≠ 0 := fun h => Bool.false_ne_true (hctrl.mp h)
    have hmin : min (d.dp + 1) destend = d.dp + 1 := min_eq_left hdst
    refine ⟨Function.update d.dest d.dp byte, ?_, fun i hi => ?_⟩
    · rw [readItem, if_neg hbit, hst.1, Item.size, hmin]
      rfl
    · rcases Nat.lt_succ_iff_lt_or_eq.mp (hmin ▸ hi) with hlt | rfl
      · exact (Function.update_of_ne hlt.ne ..).trans (hw i hlt)
      · exact (Function.update_self ..).trans hfit.symm
  | tag len off =>
    obtain ⟨-, -, h0, -, hle, hj⟩ := id hfit
    have hnot : ¬ (srcend < d.sp + (Item.tag len off).bytes.length ∨ off = 0 ∨ d.dp < off) := by
      omega
    have hmin : min (d.dp + len) destend = d.dp + min len (destend - d.dp) := by omega
    have hread := readTag_bytes hfit hst
    rw [Item.size, hmin]
    refine ⟨_, ?_, fun i hi =>
      (copyMatch_fits h0 hle (fun j hjl => hj j (by omega)) hw i).trans (if_pos hi)⟩
    rw [readItem, if_pos (hctrl.mpr rfl)]
    generalize readTag source d.sp = r at hread ⊢
    subst hread
    simp only [dif_neg hnot]

theorem ctrl_shift (h : ctrl.toNat = ctrlBits (it :: g)) :
    (ctrl &&& 1 ≠ 0 ↔ it.bit = true) ∧ (ctrl >>> 1).toNat = ctrlBits g := by
  have hand : (ctrl &&& 1).toNat = ctrl.toNat % 2 := by
    exact and_one_is_mod _
  have hshift : (ctrl >>> 1).toNat = ctrl.toNat / 2 := by
    exact shiftRight_one _
  rw [ctrlBits] at h
  refine ⟨?_, ?_⟩
  · rw [ne_eq, ← UInt8.toNat_inj, hand, h, add_mul_mod_self_left]
    cases it.bit <;> simp
  · rw [hshift, h]
    cases it.bit <;> simp
    omega

theorem Item.bytes_pos (it : Item) : 0 < it.bytes.length := by
  cases it with
  | literal byte => exact one_pos
  | tag len off =>
    rw [Item.bytes]
    split <;> exact succ_pos _

theorem Item.bytes_length_le (it : Item) : it.bytes.length ≤ 3 := by
  cases it with
  | literal byte => exact succ_le_succ (Nat.zero_le 2)
  | tag len off =>
    rw [Item.bytes]
    split
    · exact le_rfl
    · exact Nat.le_succ 2

theorem Item.Fits.bytes_le_size (h : it.Fits src dp) : it.bytes.length ≤ it.size := by
  cases it with
  | literal byte => exact le_rfl
  | tag len off => exact (Item.bytes_length_le _).trans h.1

section Slice

variable {total : ℕ} (hcut : total = srcend ∨ destend + (destend + 7) / 8 + 2 ≤ srcend)
include hcut

/-- The items of a control byte, of which `n` are left. Up to there the data is at most one byte longer
than what it stands for, and one more for eight bytes of that. -/
theorem readItems_spec {n : ℕ} (hctrl : ctrl.toNat = ctrlBits g) (hn : g.length ≤ n) (hn8 : n ≤ 8)
    (hp : Parses src d.dp g dp') (hw : Written src d)
    (hst : Stored source d.sp (g.flatMap Item.bytes))
    (hsrc : d.sp + (g.flatMap Item.bytes).length ≤ total) (hdst : d.dp ≤ destend)
    (hend : g.length = n ∨ destend ≤ dp') (hshort : d.sp ≤ d.dp + (d.dp + n) / 8) :
    ∃ d', readItems source srcend destend n ctrl d = some d' ∧ Written src d' ∧
      d'.dp = min dp' destend ∧ (dp' ≤ destend → d'.sp = d.sp + (g.flatMap Item.bytes).length ∧
        d'.sp ≤ dp' + (dp' + (n - g.length)) / 8) := by
  induction g generalizing n ctrl d with
  | nil =>
    obtain rfl : d.dp = dp' := hp
    refine ⟨d, ?_, hw, (min_eq_left hdst).symm, fun _ => ⟨rfl, hshort⟩⟩
    cases n with
    | zero => rfl
    | succ n => rw [readItems, if_neg (by simp at hend; omega)]
  | cons it g ih =>
    obtain ⟨n, rfl⟩ : ∃ k, n = k + 1 := ⟨n - 1, by simp at hn; omega⟩
    obtain ⟨hfit, hp⟩ := hp
    rw [flatMap_cons, stored_append] at hst
    rw [flatMap_cons, length_append] at hsrc ⊢
    have hle := hp.le
    have hbytes := it.bytes_pos
    have hbytes' := it.bytes_length_le
    have hsize := hfit.bytes_le_size
    obtain ⟨hbit, hshift⟩ := ctrl_shift hctrl
    rw [readItems]
    rcases Nat.lt_or_ge d.dp destend with hlt | hge
    · have hsrc1 : d.sp + it.bytes.length ≤ srcend := by omega
      obtain ⟨dest', hread, hw'⟩ := readItem_spec hbit hfit hw hst.1 hsrc1 hlt
      rw [if_pos (by omega), hread, Option.bind_some]
      rcases Nat.lt_or_ge destend (d.dp + it.size) with hover | hfull
      · -- the item is cut off
        rw [min_eq_right hover.le] at hw' ⊢
        have hend' : destend ≤ dp' := by omega
        refine ⟨_, ?_, hw', (min_eq_right hend').symm, fun h => absurd h (by omega)⟩
        cases n with
        | zero => rfl
        | succ n => rw [readItems, if_neg (by simp)]
      · rw [min_eq_left hfull] at hw' ⊢
        obtain ⟨d', hrest, hw'', hdp, hsp⟩ := ih (n := n) hshift (by simpa using hn) (by omega) hp hw'
          hst.2 (show d.sp + it.bytes.length + _ ≤ total by omega) hfull (by simpa using hend)
          (show d.sp + it.bytes.length ≤ d.dp + it.size + (d.dp + it.size + n) / 8 by omega)
        refine ⟨d', hrest, hw'', hdp, fun h => ?_⟩
        rw [length_cons, Nat.add_sub_add_right, ← Nat.add_assoc]
        exact hsp h
    · rw [if_neg (by omega)]
      exact ⟨d, rfl, hw, by omega, fun h => by omega⟩

theorem decompressLoop_spec {e : ℕ} (hg : Grouped gs) (hp : Parses src d.dp gs.flatten e)
    (hw : Written src d) (hst : Stored source d.sp (gs.flatMap groupBytes))
    (hsrc : d.sp + (gs.flatMap groupBytes).length = total) (hdst : d.dp ≤ destend)
    (hend : destend ≤ e) (hshort : d.dp < destend → d.sp ≤ d.dp + d.dp / 8) :
    ∃ d', decompressLoop source srcend destend d = some d' ∧ Written src d' ∧ d'.dp = destend ∧
      (e = destend → d'.sp = total) := by
  induction gs generalizing d with
  | nil =>
    obtain rfl : d.dp = e := hp
    obtain rfl : d.sp = total := hsrc
    refine ⟨d, ?_, hw, le_antisymm hdst hend, fun _ => rfl⟩
    rw [decompressLoop, if_neg (by omega)]
  | cons g gs ih =>
    obtain ⟨dp', hp1, hp2⟩ := parses_append_iff.mp hp
    rw [flatMap_cons, stored_append] at hst
    obtain ⟨⟨hctrl, hbytes⟩, hst2⟩ := hst
    rw [flatMap_cons, length_append] at hsrc
    have hlen : (groupBytes g).length = (g.flatMap Item.bytes).length + 1 := rfl
    have hg' : g ≠ [] ∧ g.length ≤ 8 ∧ Grouped gs ∧ (g.length = 8 ∨ gs = []) := by
      cases gs with
      | nil => exact ⟨hg.1, hg.2, trivial, .inr rfl⟩
      | cons g' gs =>
        exact ⟨ne_nil_of_length_pos (by rw [hg.1]; decide), hg.1.le, hg.2, .inl hg.1⟩
    obtain ⟨hne, hle, hg, hlast⟩ := hg'
    have hbits : (source d.sp).toNat = ctrlBits g := by
      have hlt : ctrlBits g < 2 ^ 8 :=
        (ctrlBits_lt g).trans_le (Nat.pow_le_pow_right (by decide) hle)
      rw [hctrl, UInt8.toNat_ofNat', Nat.mod_eq_of_lt hlt]
    have hend' : g.length = 8 ∨ destend ≤ dp' := hlast.imp_right fun h => by
      rw [h] at hp2
      exact hend.trans hp2.ge
    have hlt : d.dp < dp' := by
      cases g with
      | nil => exact absurd rfl hne
      | cons it g =>
        have := hp1.1.size_pos
        have := hp1.2.le
        omega
    have hle' := hp2.le
    rw [decompressLoop_eq]
    rcases Nat.lt_or_ge d.dp destend with hdlt | hge
    · obtain ⟨d', hread, hw', hdp, hsp⟩ := readItems_spec hcut (d := { d with sp := d.sp + 1 })
        hbits hle le_rfl hp1 hw hbytes (show d.sp + 1 + _ ≤ total by omega) hdst hend'
        (show d.sp + 1 ≤ d.dp + (d.dp + 8) / 8 by specialize hshort hdlt; omega)
      rw [if_pos (by omega), hread, Option.bind_some]
      rcases Nat.lt_or_ge destend dp' with hover | hfull
      · refine ⟨d', ?_, hw', by omega, fun h => by omega⟩
        rw [decompressLoop, if_neg (by omega)]
      · obtain ⟨hsp, hshort'⟩ := hsp hfull
        rw [min_eq_left hfull] at hdp
        change d'.sp = d.sp + 1 + _ at hsp
        refine ih hg (hdp ▸ hp2) hw' ?_ (by omega) (by omega) fun h => ?_
        · rwa [hlen, ← Nat.add_assoc, Nat.add_right_comm, ← hsp] at hst2
        · have h8 : g.length = 8 := hend'.resolve_right (by omega)
          rwa [h8, Nat.sub_self, Nat.add_zero, ← hdp] at hshort'
    · rw [if_neg (by omega)]
      exact ⟨d, rfl, hw, by omega, fun h => by omega⟩

theorem pglzDecompress_spec {slen : ℕ} (hg : Grouped gs)
    (hp : Parses src 0 gs.flatten slen) (hst : Stored source 0 (gs.flatMap groupBytes))
    (hn : total = (gs.flatMap groupBytes).length) (hr : destend ≤ slen) (dest : ℕ → UInt8)
    {checkComplete : Bool} (hc : checkComplete = true → total = srcend ∧ slen = destend) :
    ∃ dest', pglzDecompress source srcend dest destend checkComplete = some (destend, dest') ∧
      ∀ i < destend, dest' i = src i := by
  obtain ⟨d, hrun, hw, hdp, hsp⟩ := decompressLoop_spec hcut (d := ⟨0, 0, dest⟩) hg hp nofun hst
    ((Nat.zero_add _).trans hn.symm) (Nat.zero_le _) hr fun _ => Nat.zero_le _
  refine ⟨d.dest, ?_, fun i hi => hw i (by rwa [hdp])⟩
  rw [pglzDecompress, hrun, Option.bind_some, if_neg, hdp]
  rintro ⟨hcheck, hne⟩
  obtain ⟨htotal, hlen⟩ := hc hcheck
  exact hne.elim (absurd hdp) (absurd ((hsp hlen).trans htotal))

end Slice

end PostgreSieve.Pglz
