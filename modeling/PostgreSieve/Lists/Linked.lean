import Mathlib.Data.List.Chain
import Mathlib.Data.List.Nodup
import Mathlib.Data.List.Perm.Subperm
import Mathlib.Data.List.Range
import Mathlib.Logic.Function.Basic

/-! # Doubly linked lists in two arrays

A list hangs between the entries of an anchor: `prev` of the anchor is the
oldest element, `next` of the anchor the newest, and every element points to its
newer and older neighbour or back to the anchor. Several lists with different
anchors may share the arrays.
-/

namespace PostgreSieve

open Function List

/-- Two link arrays over one index type. -/
structure Links (ι : Type*) where
  next : ι → ι
  prev : ι → ι

namespace Links

variable {ι : Type*} [DecidableEq ι]

def setNext (k : Links ι) (i v : ι) : Links ι := { k with next := update k.next i v }

def setPrev (k : Links ι) (i v : ι) : Links ι := { k with prev := update k.prev i v }

/-- Stitch the neighbours of `x` together and mark both its links with `m`. -/
def unlink (k : Links ι) (s m x : ι) : Links ι :=
  let newer := k.next x
  let older := k.prev x
  let k := if newer = s then k.setNext s older else k.setPrev newer older
  let k := if older = s then k.setPrev s newer else k.setNext older newer
  (k.setNext x m).setPrev x m

/-- Link `x` between the newest element and the anchor. -/
def insertNewest (k : Links ι) (s x : ι) : Links ι :=
  let newest := k.next s
  let k := (k.setNext x s).setPrev x newest
  let k := if newest = s then k.setPrev s x else k.setNext newest x
  k.setNext s x

/-- Follow `next` from `i` to the anchor, for at most the given number of elements. -/
def walk (k : Links ι) (s : ι) : ℕ → ι → List ι
  | 0, _ => []
  | n + 1, i => if i = s then [] else i :: k.walk s n (k.next i)

/-- The neighbour towards the newest element, from the anchor the oldest element. -/
def succ (k : Links ι) (s i : ι) : ι := if i = s then k.prev s else k.next i

/-- The neighbour towards the oldest element, from the anchor the newest element. -/
def pred (k : Links ι) (s i : ι) : ι := if i = s then k.next s else k.prev i

def Adj (k : Links ι) (s a b : ι) : Prop := k.succ s a = b ∧ k.pred s b = a

/-- The arrays hold the list `l`, oldest element first, between the entries of `s`. -/
structure Holds (k : Links ι) (s : ι) (l : List ι) : Prop where
  nodup : (s :: l).Nodup
  chain : (s :: (l ++ [s])).IsChain (k.Adj s)

/-- Following `f` from `i` passes the elements of the list and comes to `j`. -/
def Follows (f : ι → ι) (i j : ι) : List ι → Prop
  | [] => i = j
  | x :: l => i = x ∧ Follows f (f x) j l

/-- The links the other way round. -/
def flip (k : Links ι) : Links ι := ⟨k.prev, k.next⟩

variable {k k' : Links ι} {s m x y i : ι} {l l₁ l₂ : List ι}

theorem succ_of_ne (h : i ≠ s) : k.succ s i = k.next i := if_neg h

theorem pred_of_ne (h : i ≠ s) : k.pred s i = k.prev i := if_neg h

@[simp] theorem succ_anchor : k.succ s s = k.prev s := if_pos rfl

@[simp] theorem pred_anchor : k.pred s s = k.next s := if_pos rfl

theorem succ_unlink (hx : x ≠ s) : (k.unlink s m x).succ s =
    update (update (k.succ s) (k.pred s x) (k.succ s x)) x m := by
  funext i
  simp only [succ_of_ne hx, pred_of_ne hx, unlink]
  by_cases hn : k.next x = s <;> by_cases hp : k.prev x = s <;>
    simp only [hn, hp, if_true, if_false, succ, setNext, setPrev, update_apply] <;>
    grind

theorem pred_unlink (hx : x ≠ s) : (k.unlink s m x).pred s =
    update (update (k.pred s) (k.succ s x) (k.pred s x)) x m := by
  funext i
  simp only [succ_of_ne hx, pred_of_ne hx, unlink]
  by_cases hn : k.next x = s <;> by_cases hp : k.prev x = s <;>
    simp only [hn, hp, if_true, if_false, pred, setNext, setPrev, update_apply] <;>
    grind

theorem succ_insertNewest (hx : x ≠ s) : (k.insertNewest s x).succ s =
    update (update (k.succ s) x s) (k.pred s s) x := by
  funext i
  by_cases hn : k.next s = s <;>
    simp only [insertNewest, pred_anchor, hn, if_true, if_false, succ, setNext, setPrev,
      update_apply] <;> grind

theorem pred_insertNewest : (k.insertNewest s x).pred s =
    update (update (k.pred s) x (k.pred s s)) s x := by
  funext i
  by_cases hn : k.next s = s <;>
    simp only [insertNewest, hn, if_true, if_false, pred, setNext, setPrev,
      update_apply] <;> grind

theorem adj_unlink {a b u v : ι} (hx : x ≠ s) (ha : k.Adj s a x) (hb : k.Adj s x b)
    (hu : u ≠ x) (hv : v ≠ x) (h : k.Adj s u v) : (k.unlink s m x).Adj s u v := by
  have hua : u ≠ a := fun he => hv (h.1.symm.trans (he ▸ ha.1))
  have hvb : v ≠ b := fun he => hu (h.2.symm.trans (he ▸ hb.2))
  simp only [Adj, succ_unlink hx, pred_unlink hx, ha.2, hb.1, update_of_ne hu,
    update_of_ne hv, update_of_ne hua, update_of_ne hvb]
  exact h

theorem adj_insertNewest {a u v : ι} (hx : x ≠ s) (ha : k.Adj s a s)
    (hu : u ≠ x) (hv : v ≠ x) (hs : v ≠ s) (h : k.Adj s u v) :
    (k.insertNewest s x).Adj s u v := by
  have hua : u ≠ a := fun he => hs (h.1.symm.trans (he ▸ ha.1))
  simp only [Adj, succ_insertNewest hx, pred_insertNewest, ha.2, update_of_ne hu,
    update_of_ne hv, update_of_ne hua, update_of_ne hs]
  exact h

namespace Holds

section

variable (h : k.Holds s l)
include h

theorem anchor_not_mem : s ∉ l := (nodup_cons.mp h.nodup).1

theorem nodup_list : l.Nodup := (nodup_cons.mp h.nodup).2

theorem ne_anchor (hx : x ∈ l) : x ≠ s :=
  fun he => h.anchor_not_mem (he ▸ hx)

theorem exists_adj (hi : i ∈ s :: l) : ∃ b ∈ s :: l, k.Adj s i b := by
  obtain ⟨l₁, l₂, he⟩ := append_of_mem hi
  have hc := h.chain
  rw [← cons_append, he, append_assoc, cons_append] at hc
  cases l₂ with
  | nil => exact ⟨s, mem_cons_self, (isChain_append_cons_cons.mp hc).2.1⟩
  | cons b l₂ =>
    exact ⟨b, by rw [he]; simp, (isChain_append_cons_cons.mp hc).2.1⟩

theorem succ_mem (hi : i ∈ s :: l) : k.succ s i ∈ s :: l := by
  obtain ⟨b, hb, ha⟩ := h.exists_adj hi
  exact ha.1 ▸ hb

theorem pred_succ (hi : i ∈ s :: l) : k.pred s (k.succ s i) = i := by
  obtain ⟨b, _, ha⟩ := h.exists_adj hi
  rw [ha.1, ha.2]

end

theorem adj_middle (h : k.Holds s (l₁ ++ x :: y :: l₂)) : k.Adj s x y := by
  have hc := h.chain
  rw [← cons_append, ← cons_append, append_assoc] at hc
  exact (isChain_append_cons_cons.mp hc).2.1

theorem adj_oldest (h : k.Holds s (x :: l)) : k.Adj s s x := by
  have hc := h.chain
  simp only [cons_append, isChain_cons_cons] at hc
  exact hc.1

theorem adj_newest (h : k.Holds s (l ++ [x])) : k.Adj s x s := by
  have hc := h.chain
  rw [← cons_append, ← cons_append, append_assoc] at hc
  exact (isChain_append_cons_cons.mp hc).2.1

theorem adj_empty (h : k.Holds s []) : k.Adj s s s := by
  simpa using h.chain

theorem flip (h : k.Holds s l) : k.flip.Holds s l.reverse := by
  refine ⟨?_, ?_⟩
  · rw [nodup_cons, mem_reverse, nodup_reverse]
    exact nodup_cons.mp h.nodup
  · have hr : s :: (l.reverse ++ [s]) = (s :: (l ++ [s])).reverse := by simp
    rw [hr, isChain_reverse]
    exact h.chain.imp fun _ _ hab => ⟨hab.2, hab.1⟩

theorem pred_mem (h : k.Holds s l) (hi : i ∈ s :: l) : k.pred s i ∈ s :: l := by
  have hm : k.flip.succ s i ∈ s :: l.reverse := h.flip.succ_mem (by simpa using hi)
  rwa [mem_cons, mem_reverse, ← mem_cons] at hm

theorem unlink (h : k.Holds s (l₁ ++ x :: l₂)) : (k.unlink s m x).Holds s (l₁ ++ l₂) := by
  have hxs : x ≠ s := h.ne_anchor (by simp)
  have hnd := h.nodup
  have hx₁ : x ∉ s :: l₁ := by
    rw [← cons_append, nodup_middle, nodup_cons] at hnd
    exact fun hm => hnd.1 (mem_append_left _ hm)
  have hx₂ : x ∉ l₂ ++ [s] := by
    rw [← cons_append, nodup_middle, nodup_cons] at hnd
    intro hm
    rcases mem_append.mp hm with hm | hm
    · exact hnd.1 (mem_append_right _ hm)
    · exact hxs (mem_singleton.mp hm)
  refine ⟨hnd.sublist (by simp), ?_⟩
  obtain ⟨pre, a, hpre⟩ : ∃ pre a, s :: l₁ = pre ++ [a] :=
    ⟨_, _, (dropLast_concat_getLast (cons_ne_nil s l₁)).symm⟩
  obtain ⟨b, suf, hsuf⟩ : ∃ b suf, l₂ ++ [s] = b :: suf :=
    exists_cons_of_ne_nil (by simp)
  have hc := h.chain
  have he : s :: (l₁ ++ x :: l₂ ++ [s]) = pre ++ a :: x :: b :: suf := by
    rw [append_assoc, cons_append, hsuf, ← cons_append, hpre]; simp
  have he' : s :: (l₁ ++ l₂ ++ [s]) = pre ++ a :: b :: suf := by
    rw [append_assoc, hsuf, ← cons_append, hpre]; simp
  rw [he, isChain_append_cons_cons, isChain_cons_cons] at hc
  obtain ⟨hc₁, ha, hb, hc₂⟩ := hc
  rw [he', isChain_append_cons_cons]
  have hax : a ≠ x := fun e => hx₁ (by rw [hpre]; simp [e])
  have hbx : b ≠ x := fun e => hx₂ (by rw [hsuf]; simp [e])
  refine ⟨?_, ?_, ?_⟩
  · rw [← hpre] at hc₁ ⊢
    exact hc₁.imp_of_mem_tail_imp fun u v hu hv huv => adj_unlink hxs ha hb
      (fun e => hx₁ (e ▸ hu)) (fun e => hx₁ (e ▸ mem_of_mem_tail hv)) huv
  · simp only [Adj, succ_unlink hxs, pred_unlink hxs, ha.2, hb.1, update_of_ne hax,
      update_of_ne hbx, update_self, and_self]
  · rw [← hsuf] at hc₂ ⊢
    exact hc₂.imp_of_mem_tail_imp fun u v hu hv huv => adj_unlink hxs ha hb
      (fun e => hx₂ (e ▸ hu)) (fun e => hx₂ (e ▸ mem_of_mem_tail hv)) huv

theorem insertNewest (h : k.Holds s l) (hx : x ∉ s :: l) :
    (k.insertNewest s x).Holds s (l ++ [x]) := by
  have hxs : x ≠ s := fun e => hx (by simp [e])
  refine ⟨?_, ?_⟩
  · rw [← cons_append, nodup_append]
    refine ⟨h.nodup, nodup_singleton x, ?_⟩
    intro u hu v hv e
    rw [mem_singleton.mp hv] at e
    exact hx (e ▸ hu)
  obtain ⟨pre, a, hpre⟩ : ∃ pre a, s :: l = pre ++ [a] :=
    ⟨_, _, (dropLast_concat_getLast (cons_ne_nil s l)).symm⟩
  have hc := h.chain
  have he : s :: (l ++ [s]) = pre ++ a :: s :: [] := by
    rw [← cons_append, hpre]; simp
  have he' : s :: (l ++ [x] ++ [s]) = pre ++ a :: x :: s :: [] := by
    rw [append_assoc, ← cons_append, hpre]; simp
  rw [he, isChain_append_cons_cons] at hc
  obtain ⟨hc, ha, _⟩ := hc
  have hax : a ≠ x := fun e => hx (by rw [hpre]; simp [e])
  rw [he', isChain_append_cons_cons, isChain_cons_cons]
  refine ⟨?_, ?_, ?_, isChain_singleton _⟩
  · rw [← hpre] at hc ⊢
    exact hc.imp_of_mem_tail_imp fun u v hu hv huv => adj_insertNewest hxs ha
      (fun e => hx (e ▸ hu)) (fun e => hx (e ▸ mem_of_mem_tail hv))
      (fun e => h.anchor_not_mem (e ▸ hv)) huv
  · simp only [Adj, succ_insertNewest hxs, pred_insertNewest, ha.2, update_self,
      update_of_ne hxs, and_self]
  · simp only [Adj, succ_insertNewest hxs, pred_insertNewest, ha.2, update_self,
      update_of_ne hax.symm, and_self]

theorem congr (h : k.Holds s l) (hn : ∀ i ∈ s :: l, k'.next i = k.next i)
    (hp : ∀ i ∈ s :: l, k'.prev i = k.prev i) : k'.Holds s l := by
  refine ⟨h.nodup, h.chain.imp_of_mem_imp fun u v hu hv huv => ?_⟩
  have hm : ∀ w, w ∈ s :: (l ++ [s]) → w ∈ s :: l := by
    intro w hw
    simp only [mem_cons, mem_append, not_mem_nil, or_false] at hw ⊢
    tauto
  simp only [Adj, succ, pred, hn _ (hm u hu), hp _ (hm v hv), hn s mem_cons_self,
    hp s mem_cons_self]
  exact huv

theorem unlink_frame (h : k.Holds s l) (hx : x ∈ l) (hi : i ∉ s :: l) :
    (k.unlink s m x).next i = k.next i ∧ (k.unlink s m x).prev i = k.prev i := by
  have hxs := h.ne_anchor hx
  have his : i ≠ s := fun e => hi (by simp [e])
  have hix : i ≠ x := fun e => hi (by simp [e, hx])
  have hn : i ≠ k.succ s x := fun e => hi (e ▸ h.succ_mem (mem_cons_of_mem _ hx))
  have hp : i ≠ k.pred s x := fun e => hi (e ▸ h.pred_mem (mem_cons_of_mem _ hx))
  rw [← succ_of_ne his, ← pred_of_ne his, succ_unlink hxs, pred_unlink hxs]
  simp only [update_of_ne hix, update_of_ne hn, update_of_ne hp,
    succ_of_ne his, pred_of_ne his, and_self]

theorem insertNewest_frame (h : k.Holds s l) (hx : x ∉ s :: l) (hi : i ∉ s :: l) (hix : i ≠ x) :
    (k.insertNewest s x).next i = k.next i ∧ (k.insertNewest s x).prev i = k.prev i := by
  have hxs : x ≠ s := fun e => hx (by simp [e])
  have his : i ≠ s := fun e => hi (by simp [e])
  have hp : i ≠ k.pred s s := fun e => hi (e ▸ h.pred_mem mem_cons_self)
  rw [← succ_of_ne his, ← pred_of_ne his, succ_insertNewest hxs, pred_insertNewest]
  simp only [update_of_ne hix, update_of_ne his, update_of_ne hp,
    succ_of_ne his, pred_of_ne his, and_self]

theorem walk_succ {n : ℕ} (hs : s ∉ l) (hc : (x :: (l ++ [s])).IsChain (k.Adj s))
    (hn : l.length ≤ n) : k.walk s n (k.succ s x) = l := by
  induction l generalizing x n with
  | nil =>
    have he : k.succ s x = s := (by simpa using hc : k.Adj s x s).1
    cases n <;> simp [walk, he]
  | cons y l ih =>
    rw [cons_append, isChain_cons_cons] at hc
    have hy : y ≠ s := fun e => hs (by simp [e])
    cases n with
    | zero => simp at hn
    | succ n =>
      rw [hc.1.1, walk, if_neg hy, ← succ_of_ne hy,
        ih (fun hm => hs (mem_cons_of_mem _ hm)) hc.2 (by simpa using hn)]

/-- Following `next` from the oldest element reads the list back. -/
theorem walk_eq {n : ℕ} (h : k.Holds s l) (hn : l.length ≤ n) : k.walk s n (k.prev s) = l := by
  rw [← succ_anchor, walk_succ h.anchor_not_mem h.chain hn]

theorem follows_succ (hs : s ∉ l) (hc : (x :: (l ++ [s])).IsChain (k.Adj s)) :
    Follows k.next (k.succ s x) s l := by
  induction l generalizing x with
  | nil => exact (by simpa using hc : k.Adj s x s).1
  | cons y l ih =>
    rw [cons_append, isChain_cons_cons] at hc
    have hy : y ≠ s := fun e => hs (by simp [e])
    refine ⟨hc.1.1, ?_⟩
    rw [← succ_of_ne hy]
    exact ih (fun hm => hs (mem_cons_of_mem _ hm)) hc.2

theorem follows_next (h : k.Holds s l) : Follows k.next (k.prev s) s l := by
  rw [← succ_anchor]
  exact follows_succ h.anchor_not_mem h.chain

theorem follows_prev (h : k.Holds s l) : Follows k.prev (k.next s) s l.reverse := h.flip.follows_next

theorem unlink_erase (h : k.Holds s l) (hx : x ∈ l) :
    (k.unlink s m x).Holds s (l.erase x) := by
  obtain ⟨l₁, l₂, rfl⟩ := append_of_mem hx
  have hx₁ : x ∉ l₁ := by
    have hnd := h.nodup_list
    rw [nodup_middle, nodup_cons] at hnd
    exact fun hm => hnd.1 (mem_append_left _ hm)
  rw [erase_append_right _ hx₁, erase_cons_head]
  exact h.unlink

theorem prev_oldest (h : k.Holds s (x :: l)) : k.prev s = x := by
  simpa using h.adj_oldest.1

theorem next_eq (h : k.Holds s (l₁ ++ x :: l₂)) : k.next x = l₂.head?.getD s := by
  have hx : x ≠ s := h.ne_anchor (by simp)
  rw [← succ_of_ne hx]
  cases l₂ with
  | nil => exact h.adj_newest.1
  | cons y l₂ => exact h.adj_middle.1

theorem prev_eq (h : k.Holds s (l₁ ++ x :: l₂)) : k.prev x = l₁.getLast?.getD s := by
  have hf : k.flip.Holds s (l₂.reverse ++ x :: l₁.reverse) := by simpa using h.flip
  rw [← head?_reverse]
  exact hf.next_eq

theorem prev_anchor_eq_iff (h : k.Holds s l) : k.prev s = s ↔ l = [] := by
  cases l with
  | nil => simpa using h.adj_empty.1
  | cons x l => simpa [h.prev_oldest] using h.ne_anchor (x := x) (by simp)

theorem next_anchor_eq_iff (h : k.Holds s l) : k.next s = s ↔ l = [] :=
  h.flip.prev_anchor_eq_iff.trans reverse_eq_nil_iff

theorem prev_anchor_mem (h : k.Holds s l) (hl : l ≠ []) : k.prev s ∈ l := by
  have hm := h.succ_mem (mem_cons_self (a := s))
  rw [succ_anchor, mem_cons] at hm
  exact hm.resolve_left fun he => hl (h.prev_anchor_eq_iff.mp he)

theorem next_mem (h : k.Holds s l) (hx : x ∈ l) (hn : k.next x ≠ s) : k.next x ∈ l := by
  have hm := h.succ_mem (mem_cons_of_mem s hx)
  rw [succ_of_ne (h.ne_anchor hx), mem_cons] at hm
  exact hm.resolve_left hn

end Holds

/-! ## Lists that mark what they do not hold -/

/-- The three comparisons that tell a linked element from one marked with the anchor. -/
def inList (k : Links ι) (s x : ι) : Bool := k.next x ≠ s || k.prev x ≠ s || k.next s = x

/-- The arrays hold `l`, and everything else points to the anchor twice. -/
structure Marked (k : Links ι) (s : ι) (l : List ι) : Prop extends k.Holds s l where
  off : ∀ x, x ≠ s → x ∉ l → k.next x = s ∧ k.prev x = s

namespace Marked

section

variable (h : k.Marked s l)
include h

theorem inList_iff (hx : x ≠ s) : k.inList s x = true ↔ x ∈ l := by
  simp only [inList, Bool.or_eq_true, decide_eq_true_eq]
  constructor
  · intro ht
    by_contra hm
    obtain ⟨hn, hp⟩ := h.off x hx hm
    have he : k.pred s s = x := by simpa [hn, hp] using ht
    have := h.pred_mem (mem_cons_self (a := s))
    rw [he] at this
    simp [hx, hm] at this
  · intro hm
    by_cases hn : k.next x = s
    · have he := h.pred_succ (mem_cons_of_mem _ hm)
      rw [succ_of_ne hx, hn, pred_anchor] at he
      exact Or.inr he
    · exact Or.inl (Or.inl hn)

theorem unlink (hx : x ∈ l) : (k.unlink s s x).Marked s (l.erase x) := by
  refine ⟨h.toHolds.unlink_erase hx, fun y hy hm => ?_⟩
  by_cases hyx : y = x
  · subst hyx
    rw [← succ_of_ne hy, ← pred_of_ne hy, succ_unlink hy, pred_unlink hy]
    simp
  · have hyl : y ∉ l := fun hl => hm ((mem_erase_of_ne hyx).mpr hl)
    have hf := h.toHolds.unlink_frame (m := s) hx (i := y) (by simp [hy, hyl])
    rw [hf.1, hf.2]
    exact h.off y hy hyl

theorem insertNewest (hx : x ≠ s) (hl : x ∉ l) :
    (k.insertNewest s x).Marked s (l ++ [x]) := by
  have hx' : x ∉ s :: l := by simp [hx, hl]
  refine ⟨h.toHolds.insertNewest hx', fun y hy hm => ?_⟩
  simp only [mem_append, mem_singleton, not_or] at hm
  have hf := h.toHolds.insertNewest_frame hx' (i := y) (by simp [hy, hm.1]) hm.2
  rw [hf.1, hf.2]
  exact h.off y hy hm.1

theorem moveNewest (hx : x ≠ s) :
    (Links.insertNewest (if k.inList s x then k.unlink s s x else k) s x).Marked s
      (l.erase x ++ [x]) := by
  by_cases hm : x ∈ l
  · rw [if_pos ((h.inList_iff hx).mpr hm)]
    exact (h.unlink hm).insertNewest hx h.nodup_list.not_mem_erase
  · rw [if_neg (fun ht => hm ((h.inList_iff hx).mp ht)), erase_of_not_mem hm]
    exact h.insertNewest hx hm

end

theorem mem_moveNewest (y : ι) (hy : y ∈ l) : y ∈ l.erase x ++ [x] := by
  by_cases hyx : y = x
  · simp [hyx]
  · exact mem_append_left _ ((mem_erase_of_ne hyx).mpr hy)

end Marked

/-! ## Consecutive numbers in a list -/

/-- The list `0, …, N - 1` anchored at `s`; `rest` gives the links outside it. -/
def ofRange (N s : ℕ) (rest : ℕ → ℕ) : Links ℕ where
  next i := if i < N then (if i < N - 1 then i + 1 else s) else if i = s then N - 1 else rest i
  prev i := if i < N then (if 0 < i then i - 1 else s) else if i = s then 0 else rest i

theorem ofRange_holds {N s : ℕ} {rest : ℕ → ℕ} (hN : 0 < N) (hs : N ≤ s) :
    (ofRange N s rest).Holds s (List.range N) := by
  refine ⟨nodup_cons.mpr ⟨by simp; omega, nodup_range⟩, ?_⟩
  obtain ⟨n, rfl⟩ : ∃ n, N = n + 1 := ⟨N - 1, by omega⟩
  have hadj : ∀ i < n, (ofRange (n + 1) s rest).Adj s i (i + 1) := by
    simp only [Adj, succ, pred, ofRange]
    grind
  rw [isChain_cons, isChain_append]
  refine ⟨?_, ?_, isChain_singleton _, ?_⟩
  · rw [range_succ_eq_map]
    simp only [Adj, succ, pred, ofRange]
    grind
  · rw [isChain_range_succ]
    exact hadj
  · rw [List.getLast?_range, if_neg (Nat.succ_ne_zero n)]
    simp only [Adj, succ, pred, ofRange]
    grind

theorem Holds.length_le {k : Links ℕ} {s N : ℕ} {l : List ℕ} (h : k.Holds s l)
    (hl : ∀ b ∈ l, b < N) : l.length ≤ N := by
  have hs : l ⊆ List.range N := fun b hb => mem_range.mpr (hl b hb)
  simpa using (h.nodup_list.subperm hs).length_le

theorem ofRange_marked {N s : ℕ} (hN : 0 < N) (hs : N ≤ s) :
    (ofRange N s fun _ => s).Marked s (List.range N) := by
  refine ⟨ofRange_holds hN hs, fun x hx hm => ?_⟩
  have : ¬ x < N := by simpa using hm
  simp [ofRange, this, hx]

end Links

end PostgreSieve
