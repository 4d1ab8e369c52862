import PostgreSieve.BtDedup.Basic

/-! # Splits of posting lists

A tuple identifier inside of the range of a posting list takes its place there, and the last one goes
to the new item.
-/

namespace PostgreSieve.BtDedup

open List

variable {β : Type} {tid : ItemPointer} {htids : List ItemPointer} {low high k : ℕ}

/-! ## The place in the list -/

/-- All entries before a place are less, and all from it on are greater. -/
def SplitsAt (tid : ItemPointer) (htids : List ItemPointer) (low high : ℕ) : Prop :=
  (∀ i t, htids[i]? = some t → i < low → t < tid) ∧ ∀ i t, htids[i]? = some t → high ≤ i → tid < t

section

variable (hsorted : htids.Pairwise (· < ·))
include hsorted

theorem getElem?_lt_of_pairwise {i j : ℕ} {a b : ItemPointer} (ha : htids[i]? = some a)
    (hb : htids[j]? = some b) (hij : i < j) : a < b := by
  obtain ⟨hi, rfl⟩ := List.getElem?_eq_some_iff.1 ha
  obtain ⟨hj, rfl⟩ := List.getElem?_eq_some_iff.1 hb
  exact pairwise_iff_getElem.1 hsorted i j hi hj hij

theorem binsrchPostingLoop_spec (hnew : tid ∉ htids) (hle : low ≤ high)
    (hhigh : high ≤ htids.length) (hsplit : SplitsAt tid htids low high) :
    binsrchPostingLoop tid htids low high ≤ htids.length ∧
      SplitsAt tid htids (binsrchPostingLoop tid htids low high)
        (binsrchPostingLoop tid htids low high) := by
  fun_induction binsrchPostingLoop tid htids low high with
  | case1 low high hlt mid hnone =>
    rw [List.getElem?_eq_none_iff] at hnone
    omega
  | case2 low high hlt mid htid hmid hgt ih =>
    refine ih (by omega) hhigh ⟨fun i t ht hi => ?_, hsplit.2⟩
    rcases Nat.lt_succ_iff_lt_or_eq.1 hi with hi | rfl
    · exact (getElem?_lt_of_pairwise hsorted ht hmid hi).trans hgt
    · cases ht.symm.trans hmid
      exact hgt
  | case3 low high hlt mid htid hmid hgt hlt' ih =>
    refine ih (by omega) (by omega) ⟨hsplit.1, fun i t ht hi => ?_⟩
    rcases Nat.lt_or_eq_of_le hi with hi | rfl
    · exact hlt'.trans (getElem?_lt_of_pairwise hsorted hmid ht hi)
    · cases ht.symm.trans hmid
      exact hlt'
  | case4 low high hlt mid htid hmid hgt hlt' =>
    have heq : tid = htid := le_antisymm (not_lt.1 hgt) (not_lt.1 hlt')
    exact absurd (heq ▸ mem_of_getElem? hmid) hnew
  | case5 low high hge =>
    have heq : low = high := by omega
    subst heq
    exact ⟨hhigh, hsplit⟩

theorem binsrchPosting_spec (hnew : tid ∉ htids) :
    binsrchPosting tid htids ≤ htids.length ∧
      SplitsAt tid htids (binsrchPosting tid htids) (binsrchPosting tid htids) := by
  apply binsrchPostingLoop_spec hsorted hnew (Nat.zero_le _) le_rfl
  refine ⟨fun i t _ hi => absurd hi (Nat.not_lt_zero i), fun i t ht hi => ?_⟩
  obtain ⟨hlt, -⟩ := List.getElem?_eq_some_iff.1 ht
  omega

end

/-! ## The swap -/

section

variable (h : SplitsAt tid htids k k)
include h

theorem SplitsAt.take {t : ItemPointer} (ht : t ∈ htids.take k) :
    t < tid := by
  obtain ⟨i, hi⟩ := mem_iff_getElem?.1 ht
  rw [List.getElem?_take] at hi
  split_ifs at hi with hlt
  exact h.1 i t hi hlt

theorem SplitsAt.drop {t : ItemPointer} (ht : t ∈ htids.drop k) :
    tid < t := by
  obtain ⟨i, hi⟩ := mem_iff_getElem?.1 ht
  rw [List.getElem?_drop] at hi
  exact h.2 (k + i) t hi (Nat.le_add_right _ _)

theorem SplitsAt.pairwise (hsorted : htids.Pairwise (· < ·)) :
    (htids.take k ++ tid :: htids.drop k).Pairwise (· < ·) := by
  rw [pairwise_append, pairwise_cons]
  refine ⟨hsorted.sublist (take_sublist _ _), ⟨fun t ht => h.drop ht,
    hsorted.sublist (drop_sublist _ _)⟩, fun a ha b hb => ?_⟩
  rcases mem_cons.1 hb with rfl | hb
  · exact h.take ha
  · exact (h.take ha).trans (h.drop hb)

end

theorem moved_eq (tid : ItemPointer) (hlt : k < htids.length) :
    (htids.take (k + 1) ++ (htids.drop k).take (htids.length - k - 1)).set k tid
      = htids.take k ++ tid :: (htids.drop k).dropLast := by
  have htake : htids.take (k + 1) = htids.take k ++ [htids.get ⟨k, hlt⟩] :=
    take_succ_eq_append_getElem hlt
  have hlength : (htids.take k).length = k := by
    rw [length_take]
    omega
  have hdrop : (htids.drop k).take (htids.length - k - 1) = (htids.drop k).dropLast := by
    rw [dropLast_eq_take, length_drop]
  rw [htake, hdrop, append_assoc, set_append_right _ _ (by omega), hlength, Nat.sub_self]
  rfl

theorem swapPosting_spec {newitem oposting : IndexTuple β} (hnewitem : newitem.tid = .plain tid)
    (hoposting : oposting.tid = .posting htids) (hposting : postingValid htids)
    (hvalid : tid.isValid) (hnew : tid ∉ htids) (hlow : ∃ t ∈ htids, t < tid)
    (hhigh : ∃ t ∈ htids, tid < t) :
    ∃ nposting newitem', swapPosting newitem oposting (binsrchPosting tid htids)
        = some (nposting, newitem') ∧
      nposting.size = oposting.size ∧ nposting.key = oposting.key ∧ newitem'.key = newitem.key ∧
      (nposting.htids ++ newitem'.htids).Pairwise (· < ·) ∧
      (nposting.htids ++ newitem'.htids).Perm (tid :: htids) := by
  obtain ⟨htwo, hvalids, hchain⟩ := hposting
  have hsorted : htids.Pairwise (· < ·) := hchain.pairwise
  obtain ⟨hle, hsplit⟩ := binsrchPosting_spec hsorted hnew
  generalize binsrchPosting tid htids = k at hle hsplit
  have hk : 0 < k := by
    obtain ⟨t, ht, hlt⟩ := hlow
    by_contra hzero
    rw [show k = 0 by omega] at hsplit
    exact lt_asymm hlt (hsplit.drop (by rwa [drop_zero]))
  have hk' : k < htids.length := by
    obtain ⟨t, ht, hlt⟩ := hhigh
    by_contra hge
    exact lt_asymm hlt (hsplit.take (by rwa [take_of_length_le (not_lt.1 hge)]))
  have hne : htids.drop k ≠ [] := by
    rw [Ne, drop_eq_nil_iff]
    omega
  have hlast : htids.getLast? = some ((htids.drop k).getLast hne) := by
    rw [getLast_drop, List.getLast?_eq_getLast_of_ne_nil]
  generalize hmax : (htids.drop k).getLast hne = max at hlast
  have hdrop : (htids.drop k).dropLast ++ [max] = htids.drop k := by
    rw [← hmax, dropLast_append_getLast]
  have hmoved := moved_eq tid hk'
  generalize hreplaced : htids.take k ++ tid :: (htids.drop k).dropLast = replaced at hmoved
  have hfull : replaced ++ [max] = htids.take k ++ tid :: htids.drop k := by
    rw [← hreplaced, append_assoc, cons_append, hdrop]
  have hpairwise := hsplit.pairwise hsorted
  rw [← hfull] at hpairwise
  obtain ⟨hsorted', -, hmax'⟩ := pairwise_append.1 hpairwise
  have hlength : replaced.length = htids.length := by
    have := congrArg List.length hfull
    simp only [length_append, length_cons, length_nil, length_take,
      length_drop] at this
    omega
  have hperm : (replaced ++ [max]).Perm (tid :: htids) := by
    rw [hfull]
    have hmiddle : (htids.take k ++ tid :: htids.drop k).Perm (tid :: (htids.take k ++ htids.drop k)) :=
      perm_middle
    rwa [take_append_drop] at hmiddle
  have hvalids' : ∀ t ∈ replaced, t.isValid := by
    intro t ht
    rcases mem_cons.1 (hperm.subset (mem_append_left _ ht)) with rfl | ht
    · exact hvalid
    · exact hvalids t ht
  have hne' : replaced ≠ [] := ne_nil_of_length_pos (by omega)
  have hlt : replaced.getLast hne' < max :=
    hmax' _ (getLast_mem hne') max (mem_singleton_self max)
  refine ⟨{ oposting with tid := .posting replaced }, { newitem with tid := .plain max }, ?_, ?_,
    rfl, rfl, hpairwise, hperm⟩
  · unfold swapPosting
    simp only [hnewitem, hoposting]
    rw [if_pos ⟨hk, hk'⟩, hmoved, hlast, List.getLast?_eq_getLast_of_ne_nil hne']
    dsimp only
    rw [if_pos ⟨hlt, ⟨htwo, hvalids, hchain⟩, by omega, hvalids', hsorted'.isChain⟩]
  · simp only [IndexTuple.size, hoposting, hlength]
    rfl

end PostgreSieve.BtDedup
