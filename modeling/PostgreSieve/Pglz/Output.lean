import Mathlib.Data.List.Induction
import PostgreSieve.Pglz.Format

/-! # The output of the compressor

The output macros write one item after the other. The control byte of the last group is kept aside
until the group is full or the input is used up.
-/

namespace PostgreSieve.Pglz

open List Nat

variable {o : Output} {its cur : List Item} {gs : List (List Item)} {it : Item}

def Output.puts (o : Output) (l : List UInt8) : Output := l.foldl Output.put o

theorem puts_spec (o : Output) (l : List UInt8) :
    (o.puts l).bp = o.bp + l.length ∧ (o.puts l).ctrlp = o.ctrlp ∧ (o.puts l).ctrlb = o.ctrlb ∧
      (o.puts l).ctrl = o.ctrl ∧ Stored (o.puts l).dest o.bp l ∧
      ∀ i, i < o.bp ∨ o.bp + l.length ≤ i → (o.puts l).dest i = o.dest i := by
  induction l using List.reverseRecOn with
  | nil => exact ⟨rfl, rfl, rfl, rfl, trivial, fun _ _ => rfl⟩
  | append_singleton l x ih =>
    obtain ⟨hbp, hctrlp, hctrlb, hctrl, hst, hkeep⟩ := ih
    have hputs : o.puts (l ++ [x]) = (o.puts l).put x := by
      rw [Output.puts, foldl_append]
      rfl
    rw [hputs, length_append, length_singleton]
    refine ⟨congrArg (· + 1) hbp, hctrlp, hctrlb, hctrl, hst.push x hbp, fun i hi => ?_⟩
    exact (Function.update_of_ne (by omega) ..).trans (hkeep i (by omega))

/-- The output of an item. -/
def outItem (o : Output) (it : Item) : Output :=
  let o := pglzOutCtrl o
  ({ o with
    ctrlb := if it.bit then o.ctrlb ||| o.ctrl else o.ctrlb
    ctrl := o.ctrl <<< 1 } : Output).puts it.bytes

theorem pglzOutTag_eq (o : Output) (len off : ℕ) :
    pglzOutTag o len off = outItem o (.tag len off) := by
  unfold pglzOutTag outItem Item.bytes
  simp only
  split <;> rfl

/-- Full groups were written, and a group that waits for its control byte. -/
structure Emitted (o : Output) (gs : List (List Item)) (cur : List Item) : Prop where
  full : ∀ g ∈ gs, g.length = 8
  groups : Stored o.dest 0 (gs.flatMap groupBytes)
  ctrlp : o.ctrlp = some (gs.flatMap groupBytes).length
  items : Stored o.dest ((gs.flatMap groupBytes).length + 1) (cur.flatMap Item.bytes)
  bp : o.bp = (gs.flatMap groupBytes).length + 1 + (cur.flatMap Item.bytes).length
  le : cur.length ≤ 8
  ctrlb : o.ctrlb.toNat = ctrlBits cur
  ctrl : o.ctrl.toNat = 2 ^ cur.length % 256

/-- The listed items were written. -/
def Emits (o : Output) (its : List Item) : Prop :=
  (its = [] ∧ o.bp = 0 ∧ o.ctrlp = none ∧ o.ctrl = 0) ∨
    ∃ gs cur, Emitted o gs cur ∧ cur ≠ [] ∧ gs.flatten ++ cur = its

/-- The memory behind the output is not written. -/
def Beyond (o o' : Output) : Prop := o.bp ≤ o'.bp ∧ ∀ i, o'.bp ≤ i → o'.dest i = o.dest i

theorem Beyond.trans {o₁ o₂ o₃ : Output} (h : Beyond o₁ o₂) (h' : Beyond o₂ o₃) : Beyond o₁ o₃ :=
  ⟨h.1.trans h'.1, fun i hi => (h'.2 i hi).trans (h.2 i (h'.1.trans hi))⟩

theorem writeCtrl_bp (o : Output) : o.writeCtrl.bp = o.bp := by
  rw [Output.writeCtrl]
  split <;> rfl

theorem Emitted.writeCtrl_dest (h : Emitted o gs cur) : o.writeCtrl.dest =
    Function.update o.dest (gs.flatMap groupBytes).length o.ctrlb := by
  rw [Output.writeCtrl, h.ctrlp]

theorem Emitted.writeCtrl (h : Emitted o gs cur) :
    Stored o.writeCtrl.dest 0 ((gs ++ [cur]).flatMap groupBytes) ∧
      ((gs ++ [cur]).flatMap groupBytes).length = o.bp := by
  have hbits : UInt8.ofNat (ctrlBits cur) = o.ctrlb := by
    rw [← h.ctrlb, UInt8.ofNat_toNat]
  rw [h.writeCtrl_dest, flatMap_append, flatMap_singleton, length_append]
  refine ⟨?_, ?_⟩
  · rw [stored_append, zero_add]
    refine ⟨h.groups.update (.inr (zero_add _).le), ?_, h.items.update (.inl (lt_succ_self _))⟩
    rw [Function.update_self, hbits]
  · rw [h.bp, groupBytes, length_cons]
    omega

theorem Emits.beyond_writeCtrl (h : Emits o its) : Beyond o o.writeCtrl := by
  refine ⟨(writeCtrl_bp o).ge, fun i hi => ?_⟩
  rw [writeCtrl_bp] at hi
  rcases h with ⟨-, -, hnone, -⟩ | ⟨gs, cur, h, -, -⟩
  · rw [Output.writeCtrl, hnone]
  · rw [h.writeCtrl_dest]
    have hbp := h.bp
    exact Function.update_of_ne (by omega) ..

theorem ctrl_ne_zero (h : Emitted o gs cur) (hlt : cur.length < 8) : ¬ o.ctrl &&& 0xff = 0 := by
  have hpow : 2 ^ cur.length < 256 := Nat.pow_lt_pow_right (by decide : 1 < 2) hlt
  have hpos : 0 < 2 ^ cur.length := Nat.two_pow_pos _
  have hctrl := h.ctrl
  rw [mod_eq_of_lt hpow] at hctrl
  have hand : (o.ctrl &&& 0xff).toNat = o.ctrl.toNat % 256 := by
    exact and_two_pow_sub_one_eq_mod _ 8
  rw [← UInt8.toNat_inj, hand, hctrl, mod_eq_of_lt hpow]
  exact hpos.ne'

theorem Emits.outCtrl (h : Emits o its) :
    (∃ gs cur, Emitted (pglzOutCtrl o) gs cur ∧ cur.length < 8 ∧ gs.flatten ++ cur = its) ∧
      Beyond o (pglzOutCtrl o) ∧ (pglzOutCtrl o).bp ≤ o.bp + 1 := by
  have hbeyond := h.beyond_writeCtrl
  have hopen : ∀ hc : o.ctrl = 0, pglzOutCtrl o =
      { o.writeCtrl with ctrlp := some o.bp, bp := o.bp + 1, ctrlb := 0, ctrl := 1 } := by
    intro hc
    rw [pglzOutCtrl, if_pos (by rw [hc]; rfl)]
  have hopened : o.ctrl = 0 → Beyond o (pglzOutCtrl o) ∧ (pglzOutCtrl o).bp ≤ o.bp + 1 := by
    intro hc
    rw [hopen hc]
    refine ⟨⟨le_succ _, fun i hi => hbeyond.2 i ?_⟩, le_rfl⟩
    rw [writeCtrl_bp]
    exact le_of_succ_le hi
  rcases h with ⟨rfl, hbp, hnone, hc⟩ | ⟨gs, cur, h, hne, rfl⟩
  · refine ⟨⟨[], [], ?_, by decide, rfl⟩, hopened hc⟩
    rw [hopen hc, hbp]
    exact ⟨nofun, trivial, rfl, trivial, rfl, by decide, rfl, rfl⟩
  · rcases lt_or_ge cur.length 8 with hlt | hge
    · rw [pglzOutCtrl, if_neg (ctrl_ne_zero h hlt)]
      exact ⟨⟨gs, cur, h, hlt, rfl⟩, ⟨le_rfl, fun _ _ => rfl⟩, le_succ _⟩
    · have hlen : cur.length = 8 := le_antisymm h.le hge
      have hc : o.ctrl = 0 := by
        rw [← UInt8.toNat_inj, h.ctrl, hlen]
        rfl
      refine ⟨⟨gs ++ [cur], [], ?_, by decide, by simp⟩, hopened hc⟩
      obtain ⟨hst, hlength⟩ := h.writeCtrl
      rw [hopen hc]
      refine ⟨?_, hst, by rw [hlength], trivial, by rw [hlength]; rfl, by decide, rfl, rfl⟩
      exact forall_mem_append.mpr ⟨h.full, forall_mem_singleton.mpr hlen⟩

theorem ctrl_concat (h : Emitted o gs cur) (hlt : cur.length < 8) (it : Item) :
    (if it.bit then o.ctrlb ||| o.ctrl else o.ctrlb).toNat = ctrlBits (cur ++ [it]) ∧
      (o.ctrl <<< 1).toNat = 2 ^ (cur ++ [it]).length % 256 := by
  have hpow : 2 ^ cur.length < 256 := Nat.pow_lt_pow_right (by decide : 1 < 2) hlt
  have hctrl := h.ctrl
  rw [mod_eq_of_lt hpow] at hctrl
  rw [ctrlBits_concat, length_append, length_singleton]
  refine ⟨?_, ?_⟩
  · cases it.bit with
    | false => simpa using h.ctrlb
    | true =>
      have hor := two_pow_add_eq_or_of_lt (ctrlBits_lt cur) 1
      rw [mul_one] at hor
      rw [if_pos rfl, UInt8.toNat_or, h.ctrlb, hctrl, Nat.or_comm, ← hor, Bool.toNat_true,
        one_mul, add_comm]
  · rw [UInt8.toNat_shiftLeft, hctrl, show (1 : UInt8).toNat % 8 = 1 from rfl, shiftLeft_eq,
      ← pow_add]

theorem Emits.outItem (h : Emits o its) (it : Item) :
    Emits (outItem o it) (its ++ [it]) ∧ Beyond o (Pglz.outItem o it) ∧
      (Pglz.outItem o it).bp ≤ o.bp + 1 + it.bytes.length := by
  obtain ⟨⟨gs, cur, he, hlt, rfl⟩, hbeyond, hbp⟩ := h.outCtrl
  clear h
  obtain ⟨hctrlb', hctrl'⟩ := ctrl_concat he hlt it
  unfold Pglz.outItem
  generalize pglzOutCtrl o = o' at *
  simp only
  generalize heq : ({ o' with
    ctrlb := if it.bit then o'.ctrlb ||| o'.ctrl else o'.ctrlb
    ctrl := o'.ctrl <<< 1 } : Output) = o₁
  have h1 : o₁.bp = o'.bp ∧ o₁.dest = o'.dest ∧ o₁.ctrlp = o'.ctrlp := by
    subst heq
    exact ⟨rfl, rfl, rfl⟩
  obtain ⟨pbp, pctrlp, pctrlb, pctrl, pst, pkeep⟩ := puts_spec o₁ it.bytes
  rw [h1.1] at pbp pst pkeep
  rw [h1.2.1] at pkeep
  have hobp := he.bp
  refine ⟨.inr ⟨gs, cur ++ [it], ⟨he.full, ?_, ?_, ?_, ?_, ?_, ?_, ?_⟩, by simp, by simp⟩, ?_, ?_⟩
  · exact he.groups.congr fun i _ hi => pkeep i (.inl (by omega))
  · rw [pctrlp, h1.2.2, he.ctrlp]
  · rw [flatMap_append, flatMap_singleton, stored_append]
    refine ⟨he.items.congr fun i _ hi => pkeep i (.inl (by omega)), ?_⟩
    rwa [hobp] at pst
  · rw [pbp, hobp, flatMap_append, flatMap_singleton, length_append]
    omega
  · rw [length_append, length_singleton]
    exact hlt
  · rw [pctrlb, ← heq]
    exact hctrlb'
  · rw [pctrl, ← heq]
    exact hctrl'
  · refine hbeyond.trans ⟨by omega, fun i hi => pkeep i (.inr (by omega))⟩
  · omega

/-- At the end of the input, the output is that of the items. -/
theorem Emits.finish (h : Emits o its) : ∃ gs, Grouped gs ∧ gs.flatten = its ∧
    Stored o.writeCtrl.dest 0 (gs.flatMap groupBytes) ∧
      o.writeCtrl.bp = (gs.flatMap groupBytes).length := by
  rw [writeCtrl_bp]
  rcases h with ⟨rfl, hbp, -, -⟩ | ⟨gs, cur, h, hne, rfl⟩
  · exact ⟨[], trivial, rfl, trivial, hbp⟩
  · obtain ⟨hst, hlen⟩ := h.writeCtrl
    refine ⟨gs ++ [cur], ?_, by simp, hst, hlen.symm⟩
    have hfull := h.full
    have hle := h.le
    clear h hst hlen
    induction gs with
    | nil => exact ⟨hne, hle⟩
    | cons g gs ih =>
      have hrest := ih fun g hg => hfull g (mem_cons_of_mem _ hg)
      have hg := hfull g mem_cons_self
      rw [cons_append]
      cases hgs : gs ++ [cur] with
      | nil => simp at hgs
      | cons g' gs' =>
        rw [hgs] at hrest
        exact ⟨hg, hrest⟩

end PostgreSieve.Pglz
