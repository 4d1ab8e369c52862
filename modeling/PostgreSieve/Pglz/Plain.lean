import Mathlib.Logic.Relation
import PostgreSieve.Pglz.Format

/-! # A plain decoder

`pglz_decompress` gives on every input, corrupt or not, what a decoder gives that reads a list of
bytes and copies matches one byte at a time.
-/

namespace PostgreSieve.Pglz

open Function Relation

/-- Copy a match one byte at a time, up to the size of the output. -/
def copyBytes (rawsize off : ℕ) : ℕ → ℕ × (ℕ → UInt8) → ℕ × (ℕ → UInt8)
  | 0, out => out
  | n + 1, (dp, dest) =>
    if dp < rawsize then copyBytes rawsize off n (dp + 1, update dest dp (dest (dp - off)))
    else (dp, dest)

/-- The length and the offset of a tag that starts with the byte `b`, and the bytes behind it. -/
def plainTag (b : UInt8) : List UInt8 → Option (ℕ × ℕ × List UInt8)
  | [] => none
  | c :: bytes =>
    let len := (b.toNat &&& 0x0f) + 3
    let off := ((b.toNat &&& 0xf0) <<< 4) ||| c.toNat
    if len = 18 then
      match bytes with
      | [] => none
      | e :: bytes => some (len + e.toNat, off, bytes)
    else some (len, off, bytes)

theorem plainTag_length {b : UInt8} {bytes rest : List UInt8} {len off : ℕ}
    (h : plainTag b bytes = some (len, off, rest)) : rest.length < bytes.length := by
  unfold plainTag at h
  grind

/-- The result of the decoder when the bytes `rest` were not read. -/
def plainResult (rawsize : ℕ) (checkComplete : Bool) (rest : List UInt8) (out : ℕ × (ℕ → UInt8)) :
    Option (ℕ × (ℕ → UInt8)) :=
  if checkComplete = true ∧ (out.1 ≠ rawsize ∨ rest ≠ []) then none else some out

/-- Decode the bytes, where `n` items are left for the control byte `ctrl`. -/
def plainDecode (rawsize : ℕ) (checkComplete : Bool) (n : ℕ) (ctrl : UInt8) (bytes : List UInt8)
    (out : ℕ × (ℕ → UInt8)) : Option (ℕ × (ℕ → UInt8)) :=
  match bytes with
  | [] => plainResult rawsize checkComplete [] out
  | b :: bytes =>
    if out.1 < rawsize then
      match n with
      | 0 => plainDecode rawsize checkComplete 8 b bytes out
      | n + 1 =>
        if ctrl &&& 1 ≠ 0 then
          match _h : plainTag b bytes with
          | none => none
          | some (len, off, bytes') =>
            if off = 0 ∨ out.1 < off then none
            else plainDecode rawsize checkComplete n (ctrl >>> 1) bytes'
              (copyBytes rawsize off len out)
        else plainDecode rawsize checkComplete n (ctrl >>> 1) bytes
          (out.1 + 1, update out.2 out.1 b)
    else plainResult rawsize checkComplete (b :: bytes) out
termination_by bytes.length
decreasing_by
  · exact Nat.lt_succ_self _
  · exact (plainTag_length _h).trans (Nat.lt_succ_self _)
  · exact Nat.lt_succ_self _

def plainDecompress (bytes : List UInt8) (dest : ℕ → UInt8) (rawsize : ℕ) (checkComplete : Bool) :
    Option (ℕ × (ℕ → UInt8)) :=
  plainDecode rawsize checkComplete 0 0 bytes (0, dest)

variable {source dest : ℕ → UInt8} {rawsize srcend dp off n sp : ℕ} {ctrl b : UInt8}
  {bytes : List UInt8} {d d' : Decompressor} {checkComplete : Bool}

theorem copyBytes_spec (dest : ℕ → UInt8) (rawsize : ℕ) (h0 : 0 < off) (hle : off ≤ dp) (n : ℕ) :
    let out := copyBytes rawsize off n (dp, dest)
    out.1 = dp + min n (rawsize - dp) ∧ (∀ i, i < dp ∨ out.1 ≤ i → out.2 i = dest i) ∧
      ∀ i, dp ≤ i → i < out.1 → out.2 i = out.2 (i - off) := by
  induction n generalizing dp dest with
  | zero => exact ⟨by simp [copyBytes], fun _ _ => rfl, fun i hge hlt => absurd hge hlt.not_ge⟩
  | succ n ih =>
    rw [copyBytes]
    split
    · obtain ⟨h1, h2, h3⟩ := ih (update dest dp (dest (dp - off))) (show off ≤ dp + 1 by omega)
      refine ⟨by omega, fun i hi => ?_, fun i hge hlt => ?_⟩
      · rw [h2 i (by omega), update_of_ne (by omega)]
      · rcases hge.eq_or_lt with rfl | hgt
        · rw [h2 dp (by omega), h2 (dp - off) (by omega), update_self, update_of_ne (by omega)]
        · exact h3 i hgt hlt
    · refine ⟨by simp; omega, fun _ _ => rfl, fun i hge hlt => ?_⟩
      omega

/-- The copy in pieces is the copy of one byte after another. -/
theorem copyMatch_eq_copyBytes (h0 : 0 < off) (hle : off ≤ dp) (n : ℕ) :
    (dp + min n (rawsize - dp), copyMatch dest dp off (min n (rawsize - dp)) h0) =
      copyBytes rawsize off n (dp, dest) := by
  obtain ⟨h1, h2, h3⟩ := copyBytes_spec dest rawsize h0 hle n
  refine Prod.ext h1.symm (funext fun i => ?_)
  refine (copyMatch_fits h0 hle (fun j hj => h3 _ (by omega) (by omega))
    (fun i hi => (h2 i (.inl hi)).symm) i).trans ?_
  split
  · rfl
  · exact (h2 i (by omega)).symm

theorem readTag_plain (hst : Stored source sp (b :: bytes)) :
    match plainTag b bytes with
    | none => sp + (b :: bytes).length < (readTag source sp).2.2
    | some (len, off, rest) => ∃ sp', readTag source sp = (len, off, sp') ∧
        Stored source sp' rest ∧ sp' + rest.length = sp + (b :: bytes).length := by
  obtain ⟨rfl, hst⟩ := hst
  unfold plainTag readTag
  by_cases h18 : ((source sp).toNat &&& 0x0f) + 3 = 18
  · match bytes, hst with
    | [], _ => simp [h18]
    | [c], _ => simp [h18]
    | c :: e :: bytes, ⟨hc, he, hst⟩ =>
      simp only [if_pos h18, hc, he]
      exact ⟨_, rfl, hst, by simp; omega⟩
  · match bytes, hst with
    | [], _ => simp [h18]
    | c :: bytes, ⟨hc, hst⟩ =>
      simp only [if_neg h18, hc]
      exact ⟨_, rfl, hst, by simp; omega⟩

section

variable (hst : Stored source d.sp bytes) (hend : d.sp + bytes.length = srcend)
include hend

theorem plainResult_eq (hstop : ¬ (d.sp < srcend ∧ d.dp < rawsize)) :
    plainResult rawsize checkComplete bytes (d.dp, d.dest) =
      (readItems source srcend rawsize n ctrl d).bind fun d =>
        (decompressLoop source srcend rawsize d).bind fun d =>
          if checkComplete = true ∧ (d.dp ≠ rawsize ∨ d.sp ≠ srcend) then none
          else some (d.dp, d.dest) := by
  have hitems : readItems source srcend rawsize n ctrl d = some d := by
    cases n with
    | zero => rfl
    | succ n => exact if_neg hstop
  rw [hitems, Option.bind_some, decompressLoop, if_neg hstop, Option.bind_some]
  simp [plainResult, ← hend]

include hst

/-- The loops of `pglz_decompress` do what the plain decoder does. -/
theorem plainDecode_eq : plainDecode rawsize checkComplete n ctrl bytes (d.dp, d.dest) =
    (readItems source srcend rawsize n ctrl d).bind fun d =>
      (decompressLoop source srcend rawsize d).bind fun d =>
        if checkComplete = true ∧ (d.dp ≠ rawsize ∨ d.sp ≠ srcend) then none
        else some (d.dp, d.dest) := by
  generalize hout : (d.dp, d.dest) = out
  fun_induction plainDecode rawsize checkComplete n ctrl bytes out generalizing d with
  | case1 n ctrl out =>
    rw [← hout]
    exact plainResult_eq hend (by simp at hend; omega)
  | case2 ctrl out b bytes hlt ih =>
    obtain ⟨rfl, hst⟩ := hst
    subst hout
    rw [readItems, Option.bind_some, decompressLoop_eq, if_pos (by simp at hend; omega),
      Option.bind_assoc]
    exact ih hst (by simp at hend ⊢; omega) rfl
  | case3 ctrl out b bytes hlt n hctrl htag =>
    subst hout
    have hread := readTag_plain hst
    rw [htag] at hread
    rw [readItems, if_pos (by simp at hend; omega), readItem, if_pos hctrl]
    simp only
    rw [dif_pos (.inl (hend ▸ hread))]
    rfl
  | case4 ctrl out b bytes hlt n hctrl len off bytes' htag hbad =>
    subst hout
    have hread := readTag_plain hst
    rw [htag] at hread
    obtain ⟨sp', hread, -⟩ := hread
    rw [readItems, if_pos (by simp at hend; omega), readItem, if_pos hctrl, hread]
    simp only
    rw [dif_pos (.inr hbad)]
    rfl
  | case5 ctrl out b bytes hlt n hctrl len off bytes' htag hok ih =>
    subst hout
    have hread := readTag_plain hst
    rw [htag] at hread
    obtain ⟨sp', hread, hst', hend'⟩ := hread
    have hnot : ¬ (srcend < sp' ∨ off = 0 ∨ d.dp < off) := by simp at hend hend' hok; omega
    rw [readItems, if_pos (by simp at hend; omega), readItem, if_pos hctrl, hread]
    simp only
    rw [dif_neg hnot, Option.bind_some]
    exact ih (d := ⟨sp', _, _⟩) hst' (hend'.trans hend)
      (copyMatch_eq_copyBytes (by omega) (by omega) len)
  | case6 ctrl out b bytes hlt n hctrl ih =>
    obtain ⟨rfl, hst⟩ := hst
    subst hout
    rw [readItems, if_pos (by simp at hend; omega), readItem, if_neg hctrl]
    exact ih (d := ⟨d.sp + 1, _, _⟩) hst (by simp at hend ⊢; omega) rfl
  | case7 n ctrl out b bytes hge =>
    rw [← hout] at hge ⊢
    exact plainResult_eq hend (fun h => hge h.2)

end

/-- A step of the loops: a control byte or an item is read. Nothing is written for an item that is
found to be corrupt. -/
def Step (source : ℕ → UInt8) (srcend destend : ℕ) (d d' : Decompressor) : Prop :=
  (d.sp < srcend ∧ d.dp < destend) ∧ (d' = { d with sp := d.sp + 1 } ∨
    ∃ ctrl, readItem source srcend destend ctrl d = some d')

theorem Step.beyond (h : Step source srcend rawsize d d') :
    d'.dp ≤ rawsize ∧ ∀ i, rawsize ≤ i → d'.dest i = d.dest i := by
  obtain ⟨⟨hsp, hdp⟩, rfl | ⟨ctrl, hread⟩⟩ := h
  · exact ⟨hdp.le, fun _ _ => rfl⟩
  unfold readItem at hread
  split at hread
  · generalize readTag source d.sp = tag at hread
    obtain ⟨len, off, sp⟩ := tag
    obtain ⟨hok, hread⟩ := Option.dite_none_left_eq_some.mp hread
    obtain rfl := Option.some.inj hread
    have h0 : 0 < off := by omega
    have hle : off ≤ d.dp := by omega
    have hspec := copyBytes_spec d.dest rawsize h0 hle len
    rw [← copyMatch_eq_copyBytes h0 hle len] at hspec
    exact ⟨by simp; omega, fun i hi => hspec.2.1 i (.inr (by simp; omega))⟩
  · obtain rfl := Option.some.inj hread
    exact ⟨hdp, fun i hi => update_of_ne (by omega) ..⟩

theorem readItems_steps (h : readItems source srcend rawsize n ctrl d = some d') :
    ReflTransGen (Step source srcend rawsize) d d' := by
  induction n generalizing ctrl d with
  | zero => exact Option.some.inj h ▸ .refl
  | succ n ih =>
    rw [readItems] at h
    split at h
    · rename_i hgo
      obtain ⟨d₁, h₁, h₂⟩ := Option.bind_eq_some_iff.mp h
      exact .head ⟨hgo, .inr ⟨ctrl, h₁⟩⟩ (ih h₂)
    · exact Option.some.inj h ▸ .refl

theorem decompressLoop_steps (h : decompressLoop source srcend rawsize d = some d') :
    ReflTransGen (Step source srcend rawsize) d d' := by
  fun_induction decompressLoop source srcend rawsize d with
  | case1 => cases h
  | case2 d hgo d₁ h₁ ih => exact .head ⟨hgo, .inl rfl⟩ ((readItems_steps h₁).trans (ih h))
  | case3 => exact Option.some.inj h ▸ .refl

theorem steps_beyond (h : ReflTransGen (Step source srcend rawsize) ⟨0, 0, dest⟩ d) :
    d.dp ≤ rawsize ∧ ∀ i, rawsize ≤ i → d.dest i = dest i := by
  induction h with
  | refl => exact ⟨Nat.zero_le _, fun _ _ => rfl⟩
  | tail _ hstep ih =>
    obtain ⟨hdp, hbeyond⟩ := hstep.beyond
    exact ⟨hdp, fun i hi => (hbeyond i hi).trans (ih.2 i hi)⟩

/-- On every input `pglz_decompress` gives what the plain decoder gives, which does not see the bytes
behind the input. No state on the way, to a result or to corrupt data, has written behind the size
that was asked for. -/
theorem pglz_decompress_eq_plain (hst : Stored source 0 bytes) (dest : ℕ → UInt8) (rawsize : ℕ)
    (checkComplete : Bool) :
    pglzDecompress source bytes.length dest rawsize checkComplete =
        plainDecompress bytes dest rawsize checkComplete ∧
      (∀ size raw, pglzDecompress source bytes.length dest rawsize checkComplete =
        some (size, raw) → size ≤ rawsize ∧ ∀ i, rawsize ≤ i → raw i = dest i) ∧
      ∀ d, ReflTransGen (Step source bytes.length rawsize) ⟨0, 0, dest⟩ d →
        d.dp ≤ rawsize ∧ ∀ i, rawsize ≤ i → d.dest i = dest i := by
  refine ⟨?_, fun size raw h => ?_, fun d => steps_beyond⟩
  · rw [plainDecompress, plainDecode_eq (d := ⟨0, 0, dest⟩) hst (Nat.zero_add _)]
    rfl
  · obtain ⟨d, hrun, hd⟩ := Option.bind_eq_some_iff.mp h
    obtain ⟨rfl, rfl⟩ := Prod.mk.inj (Option.some.inj (Option.ite_none_left_eq_some.mp hd).2)
    exact steps_beyond (decompressLoop_steps hrun)

/-- A literal, then a match that is longer than asked for. -/
theorem pglz_decompress_eq_plain_tag :
    pglzDecompress (fun i => [2, 65, 15, 1, 0, 66].getD i 67) 6 (fun _ => 0) 4 false =
      plainDecompress [2, 65, 15, 1, 0, 66] (fun _ => 0) 4 false := by
  have hst : Stored (fun i => [2, 65, 15, 1, 0, 66].getD i (67 : UInt8)) 0 [2, 65, 15, 1, 0, 66] :=
    ⟨rfl, rfl, rfl, rfl, rfl, rfl, trivial⟩
  exact (pglz_decompress_eq_plain hst (fun _ => 0) 4 false).1

end PostgreSieve.Pglz
