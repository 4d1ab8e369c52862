import Mathlib.Data.List.Perm.Subperm
import PostgreSieve.IntegerSet.Lookup

/-! # The content of an integer set

Adding values keeps the set in a state that stands for the sequence of added values: the values on
the leaves, followed by the buffered ones.
-/

namespace PostgreSieve

open List

open Simple8b

namespace IntegerSet

variable {s t : IntegerSet} {E : ℕ → List (ℕ × ℕ)} {m x : ℕ} {vs vals l : List ℕ}

/-! ## Packing values -/

/-- What changes to the tree leave alone. -/
def Kept (s t : IntegerSet) : Prop :=
  t.bufferedValues = s.bufferedValues ∧ t.numEntries = s.numEntries ∧
    t.highestValue = s.highestValue ∧ t.iterActive = s.iterActive

theorem Kept.trans {u : IntegerSet} (h : Kept s t) (h' : Kept t u) : Kept s u :=
  ⟨h'.1.trans h.1, h'.2.1.trans h.2.1, h'.2.2.1.trans h.2.2.1, h'.2.2.2.trans h.2.2.2⟩

theorem kept_addDownlink (s : IntegerSet) (level child key : ℕ) :
    Kept s (s.addDownlink level child key) := by
  unfold addDownlink
  split <;> exact ⟨rfl, rfl, rfl, rfl⟩

theorem kept_updateUpper (s : IntegerSet) (level child key : ℕ) :
    Kept s (s.intsetUpdateUpper level child key).1 := by
  fun_induction intsetUpdateUpper s level child key with
  | case1 s level child => exact ⟨rfl, rfl, rfl, rfl⟩
  | case2 s level child =>
    have hroot : Kept s (s.newRoot level) := ⟨rfl, rfl, rfl, rfl⟩
    exact hroot.trans (kept_addDownlink ..)
  | case3 s level child => exact kept_addDownlink ..
  | case4 s level child _ _ ih =>
    have hparent : Kept s (s.newParent level child key) := ⟨rfl, rfl, rfl, rfl⟩
    exact hparent.trans ih

theorem kept_pushItem (s : IntegerSet) (item : LeafItem) : Kept s (s.pushItem item) := by
  unfold pushItem
  split <;> exact ⟨rfl, rfl, rfl, rfl⟩

theorem kept_addItem (s : IntegerSet) (item : LeafItem) : Kept s (s.addItem item).1 := by
  have hleaf : Kept s s.newLeaf := by
    unfold newLeaf
    split <;> exact ⟨rfl, rfl, rfl, rfl⟩
  have hupper := hleaf.trans (kept_updateUpper s.newLeaf 1 s.numNodes item.first)
  unfold addItem
  split
  · split
    · rename_i he
      rw [he] at hupper
      exact hupper.trans (kept_pushItem ..)
    · rename_i he
      rw [he] at hupper
      exact hupper
  · exact kept_pushItem ..

theorem encode_item {first : ℕ} {ints : List ℕ} (h : Ascending first ints)
    (hlen : maxValuesPerCodeword ≤ ints.length) :
    let r := simple8bEncode ints first
    LeafItem.Valid ⟨first, r.1⟩ ∧ LeafItem.values ⟨first, r.1⟩ = (first :: ints).take (1 + r.2) := by
  intro r
  rcases simple8bEncode_cases first hlen with hr | ⟨selector, he⟩
  · change r = _ at hr
    rw [hr]
    exact ⟨fun key _ _ => by simp [simple8bContains, simple8bDecode], by
      simp [LeafItem.values, simple8bDecode]⟩
  · have hdec := he.decode (h.take r.2)
    refine ⟨fun key hk hlt => ?_, ?_⟩
    · rw [hdec]
      exact he.contains_iff (h.take r.2) hk hlt
    · rw [LeafItem.values, hdec, Nat.add_comm, take_succ_cons]

theorem length_le_of_sorted {l : List ℕ} {n : ℕ} (hs : l.Pairwise (· < ·)) (hl : ∀ x ∈ l, x < n) :
    l.length ≤ n := by
  have hnd : l.Nodup := hs.imp fun h => Nat.ne_of_lt h
  have hsub := subperm_of_subset hnd fun x hx => mem_range.mpr (hl x hx)
  simpa using hsub.length_le

theorem items_length_lt (hs : (Tree.values s E).Pairwise (· < ·))
    (hlt : ∀ x ∈ Tree.values s E, x < 2 ^ 64) : (Tree.items s E).length <
      maxLeafItems * maxInternalItems ^ (maxTreeLevels - 1) := by
  have hle := Tree.mul_length_le (c := 1) (l := Tree.items s E) (f := LeafItem.values)
    fun item _ => by simp [LeafItem.values]
  have hlen := length_le_of_sorted hs hlt
  have hcap : 2 ^ 64 < maxLeafItems * maxInternalItems ^ (maxTreeLevels - 1) := by decide
  rw [Nat.one_mul] at hle
  exact (hle.trans hlen).trans_lt hcap

/-- The state of the tree between two rounds of packing. -/
structure Packs (s : IntegerSet) (E : ℕ → List (ℕ × ℕ)) (vals : List ℕ) : Prop where
  valid : ∀ item ∈ Tree.items s E, item.Valid
  key : ∀ e ∈ (E 0).getLast?, (s.nodes e.2).items = [] → vals.getD 0 0 = e.1
  sorted : (Tree.values s E ++ vals).Pairwise (· < ·)
  lt : ∀ x ∈ Tree.values s E ++ vals, x < 2 ^ 64

theorem Packs.addItem (hp : Packs s E vals) (h : Tree s E m [])
    (hlen : maxValuesPerLeafItem ≤ vals.length) {codeword n : ℕ}
    (hr : simple8bEncode (vals.drop 1) (vals.getD 0 0) = (codeword, n)) :
    (s.addItem ⟨vals.getD 0 0, codeword⟩).2 = none ∧ ∃ E' m',
      Tree (s.addItem ⟨vals.getD 0 0, codeword⟩).1 E' m' [] ∧
      Packs (s.addItem ⟨vals.getD 0 0, codeword⟩).1 E' (vals.drop (1 + n)) ∧
      Tree.values (s.addItem ⟨vals.getD 0 0, codeword⟩).1 E' ++ vals.drop (1 + n) =
        Tree.values s E ++ vals ∧
      ∀ e ∈ (E' 0).getLast?, ((s.addItem ⟨vals.getD 0 0, codeword⟩).1.nodes e.2).items ≠ [] := by
  obtain ⟨first, ints, rfl⟩ := exists_cons_of_ne_nil
    (ne_nil_of_length_pos ((by decide : 0 < maxValuesPerLeafItem).trans_le hlen))
  simp only [drop_one, tail_cons, getD_cons_zero] at hr ⊢
  have hsorted := pairwise_append.mp hp.sorted
  have hasc : Ascending first ints := ⟨hsorted.2.1, fun x hx => hp.lt x (by simp [hx])⟩
  have hlen' : maxValuesPerCodeword ≤ ints.length := by
    simpa [maxValuesPerLeafItem, Nat.add_comm] using hlen
  obtain ⟨hvalid, hvalues⟩ := encode_item hasc hlen'
  rw [hr] at hvalid hvalues
  obtain ⟨herr, E', m', ht, hitems, hlast⟩ := h.addItem ⟨first, codeword⟩ hp.key
    (items_length_lt hsorted.1 fun x hx => hp.lt x (mem_append_left _ hx))
  have hvals : Tree.values (s.addItem ⟨first, codeword⟩).1 E' ++ (first :: ints).drop (1 + n) =
      Tree.values s E ++ first :: ints := by
    rw [Tree.values, hitems, flatMap_append, flatMap_singleton, hvalues, append_assoc,
      take_append_drop]
    rfl
  refine ⟨herr, E', m', ht, ⟨?_, fun e he hnil => absurd hnil (hlast e he), hvals ▸ hp.sorted,
    hvals ▸ hp.lt⟩, hvals, hlast⟩
  intro item hitem
  rw [hitems, mem_append, mem_singleton] at hitem
  rcases hitem with hitem | rfl
  · exact hp.valid item hitem
  · exact hvalid

/-- Packing values moves them from the buffer to the leaves. -/
theorem packValues_spec (h : Tree s E m []) (hp : Packs s E vals) :
    (s.packValues vals).2.2 = none ∧ Kept s (s.packValues vals).1 ∧
    (s.packValues vals).2.1.length < maxValuesPerLeafItem ∧ ∃ E' m',
      Tree (s.packValues vals).1 E' m' [] ∧
      Packs (s.packValues vals).1 E' (s.packValues vals).2.1 ∧
      Tree.values (s.packValues vals).1 E' ++ (s.packValues vals).2.1 =
        Tree.values s E ++ vals ∧
      ((∀ e ∈ (E 0).getLast?, (s.nodes e.2).items ≠ []) ∨ maxValuesPerLeafItem ≤ vals.length →
        ∀ e ∈ (E' 0).getLast?, ((s.packValues vals).1.nodes e.2).items ≠ []) := by
  fun_induction packValues s vals generalizing E m with
  | case1 s vals hlen first codeword n hr t ha =>
    rename_i ih
    obtain ⟨-, E', m', ht, hp', hvals, hlast⟩ := hp.addItem h hlen hr
    have hkept := kept_addItem s ⟨first, codeword⟩
    rw [ha] at ht hp' hvals hlast hkept
    obtain ⟨herr, hk, hshort, E'', m'', ht'', hp'', hvals'', hlast''⟩ := ih ht hp'
    exact ⟨herr, hkept.trans hk, hshort, E'', m'', ht'', hp'', hvals''.trans hvals,
      fun _ => hlast'' (.inl hlast)⟩
  | case2 s vals hlen first codeword n hr t e =>
    rename_i ha
    obtain ⟨herr, -⟩ := hp.addItem h hlen hr
    rw [ha] at herr
    cases herr
  | case3 s vals hlen =>
    refine ⟨rfl, ⟨rfl, rfl, rfl, rfl⟩, Nat.lt_of_not_le hlen, E, m, h, hp, rfl, ?_⟩
    rintro (hne | hge)
    · exact hne
    · exact absurd hge hlen

/-! ## Adding members -/

/-- The values on the leaves. -/
def Packed (s : IntegerSet) (vs : List ℕ) : Prop :=
  (s.root = none ∧ s.rightmostNodes 0 = none ∧ s.leftmostLeaf = none ∧ vs = []) ∨
    ∃ E m, Tree s E m [] ∧ Tree.Ordered s E ∧ Tree.values s E = vs

theorem Packed.congr (h : Packed s vs) (hnodes : t.nodes = s.nodes)
    (hnum : t.numNodes = s.numNodes) (hlevels : t.numLevels = s.numLevels)
    (hroot : t.root = s.root) (hright : t.rightmostNodes = s.rightmostNodes)
    (hleft : t.leftmostLeaf = s.leftmostLeaf) : Packed t vs := by
  rcases h with hempty | ⟨E, m, htree, ho, rfl⟩
  · exact .inl (by rwa [hroot, hright, hleft])
  · have hchain : Chain t (E 0) ↔ Chain s (E 0) :=
      iff_of_true (htree.chain.congr fun e _ => by rw [hnodes]) htree.chain
    have hitems : Tree.items t E = Tree.items s E := by simp only [Tree.items, hnodes]
    refine .inr ⟨E, m, ?_, ⟨?_, ?_, ?_⟩, ?_⟩
    · rw [tree_iff] at htree ⊢
      simp only [hnodes, hnum, hlevels, hroot, hright, hleft, hchain]
      exact htree
    · rw [Tree.values, hitems]
      exact ho.sorted
    · rw [hitems]
      exact ho.valid
    · rw [hnodes]
      exact ho.last
    · rw [Tree.values, hitems, Tree.values]

/-- The set stands for the sequence of added values. -/
structure Represents (s : IntegerSet) (l : List ℕ) : Prop where
  sorted : l.Pairwise (· < ·)
  lt : ∀ x ∈ l, x < 2 ^ 64
  numEntries : s.numEntries = l.length % 2 ^ 64
  highest : ∀ x ∈ l.getLast?, s.highestValue = x
  packed : ∃ vs, Packed s vs ∧ vs ++ s.bufferedValues = l

theorem represents_create : Represents intsetCreate [] :=
  ⟨List.Pairwise.nil, nofun, rfl, nofun, [], .inl ⟨rfl, rfl, rfl, rfl⟩, rfl⟩

section

variable (h : Represents s l)
include h

theorem Represents.packs (ht : t = if s.rightmostNodes 0 = none then s.newTree else s) :
    Kept s t ∧ ∃ E m, Tree t E m [] ∧ Packs t E s.bufferedValues ∧
      Tree.values t E ++ s.bufferedValues = l := by
  obtain ⟨vs, hpacked, hl⟩ := h.packed
  rcases hpacked with ⟨-, hnone, -, rfl⟩ | ⟨E, m, htree, ho, rfl⟩
  · -- the first leaf gets the first buffered value as its key
    rw [if_pos hnone] at ht
    obtain ⟨htree, hitems⟩ := Tree.newTree s (s.bufferedValues.getD 0 0)
    rw [← ht] at htree hitems
    have hvalues : Tree.values t (fun _ => [(s.bufferedValues.getD 0 0, s.numNodes)]) = [] := by
      rw [Tree.values, hitems, flatMap_nil]
    refine ⟨ht ▸ ⟨rfl, rfl, rfl, rfl⟩, _, 0, htree, ⟨?_, ?_, ?_, ?_⟩, ?_⟩
    · rw [hitems]
      simp
    · rintro e he -
      rw [List.getLast?_singleton, Option.mem_some_iff] at he
      rw [← he]
    · rw [hvalues, hl]
      exact h.sorted
    · rw [hvalues, hl]
      exact h.lt
    · rw [hvalues, hl]
  · obtain ⟨es, e, hE, -, -⟩ := htree.exists_last htree.pos
    have hsome : s.rightmostNodes 0 ≠ none := by
      rw [htree.rightmost 0 htree.pos, hE]
      simp
    rw [if_neg hsome] at ht
    subst ht
    exact ⟨⟨rfl, rfl, rfl, rfl⟩, E, m, htree, ⟨ho.valid,
      fun e he hnil => absurd hnil (ho.last e he), hl ▸ h.sorted, hl ▸ h.lt⟩, hl⟩

/-- Flushing the buffer changes where the values are. -/
theorem Represents.flush (hfull : maxValuesPerLeafItem ≤ s.bufferedValues.length) :
    s.intsetFlushBufferedValues.2 = none ∧ Represents s.intsetFlushBufferedValues.1 l ∧
      s.intsetFlushBufferedValues.1.iterActive = s.iterActive := by
  unfold intsetFlushBufferedValues
  generalize ht : (if s.rightmostNodes 0 = none then s.newTree else s) = t
  obtain ⟨hkept, E, m, htree, hp, hl⟩ := h.packs ht.symm
  simp only [hkept.1]
  obtain ⟨herr, hk, -, E', m', htree', hp', hvals, hlast⟩ := packValues_spec htree hp
  generalize t.packValues s.bufferedValues = r at *
  obtain ⟨u, values, e⟩ := r
  subst herr
  have hk := hkept.trans hk
  rw [hl] at hvals
  refine ⟨rfl, ⟨h.sorted, h.lt, hk.2.1.trans h.numEntries,
    fun x hx => hk.2.2.1.trans (h.highest x hx), Tree.values u E', ?_, hvals⟩, hk.2.2.2⟩
  have hpacked : Packed u (Tree.values u E') := .inr ⟨E', m', htree',
    ⟨(pairwise_append.mp hp'.sorted).1, hp'.valid, hlast (.inr hfull)⟩, rfl⟩
  exact hpacked.congr rfl rfl rfl rfl rfl rfl

theorem Represents.makeRoom :
    ∃ t, (if maxBufferedValues ≤ s.bufferedValues.length then s.intsetFlushBufferedValues
      else (s, none)) = (t, none) ∧ Represents t l ∧ t.iterActive = s.iterActive := by
  split
  · rename_i hfull
    obtain ⟨herr, hrep, hact⟩ := h.flush
      ((by decide : maxValuesPerLeafItem ≤ maxBufferedValues).trans hfull)
    exact ⟨_, Prod.ext rfl herr, hrep, hact⟩
  · exact ⟨s, rfl, h, rfl⟩

theorem Represents.addMember (hx : x < 2 ^ 64) (hgt : ∀ y ∈ l, y < x)
    (hiter : s.iterActive = false) :
    (s.intsetAddMember x).2 = none ∧ Represents (s.intsetAddMember x).1 (l ++ [x]) ∧
      (s.intsetAddMember x).1.iterActive = false := by
  have horder : ¬ (x ≤ s.highestValue ∧ 0 < s.numEntries) := by
    rintro ⟨hle, hpos⟩
    cases hlast : l.getLast? with
    | none =>
      rw [h.numEntries, List.getLast?_eq_none_iff.mp hlast] at hpos
      simp at hpos
    | some y =>
      have hy := hgt y (mem_of_getLast? hlast)
      rw [h.highest y hlast] at hle
      omega
  obtain ⟨t, ht, hrep, hact⟩ := h.makeRoom
  rw [intsetAddMember, if_neg (by simp [hiter]), if_neg horder, ht]
  refine ⟨rfl, ⟨?_, ?_, ?_, ?_, ?_⟩, hact.trans hiter⟩
  · rw [pairwise_append]
    exact ⟨h.sorted, pairwise_singleton .., fun y hy z hz => mem_singleton.mp hz ▸ hgt y hy⟩
  · exact forall_mem_append.mpr ⟨h.lt, forall_mem_singleton.mpr hx⟩
  · simp [hrep.numEntries]
  · simp
  · obtain ⟨vs, hpacked, hl⟩ := hrep.packed
    exact ⟨vs, hpacked.congr rfl rfl rfl rfl rfl rfl, by rw [← append_assoc, hl]⟩

end

/-! ## Membership -/

theorem binsrchUint64_mem_iff {arr : List ℕ} (hs : arr.Pairwise (· < ·)) :
    (if arr.length ≤ intsetBinsrchUint64 x arr false then false
      else decide (arr.getD (intsetBinsrchUint64 x arr false) 0 = x)) = true ↔ x ∈ arr := by
  have hq : arr.Pairwise fun a b => goesRight x b false = true → goesRight x a false = true :=
    hs.imp fun hab hb => by
      rw [goesRight_false] at hb ⊢
      omega
  obtain ⟨-, htake, hdrop⟩ := binsrch_list hq 0
  change ∀ a ∈ arr.take (intsetBinsrchUint64 x arr false), _ at htake
  change ∀ a ∈ arr.drop (intsetBinsrchUint64 x arr false), _ at hdrop
  simp only [goesRight_false] at htake
  simp only [Bool.eq_false_iff, ne_eq, goesRight_false, Nat.not_lt] at hdrop
  generalize intsetBinsrchUint64 x arr false = i at *
  split
  · rename_i hle
    rw [take_of_length_le hle] at htake
    exact iff_of_false Bool.false_ne_true fun hx => Nat.lt_irrefl x (htake x hx)
  · rename_i hlt
    have hcons := drop_eq_getElem_cons (Nat.lt_of_not_le hlt)
    have hget : arr.getD i 0 = arr[i] := by simp [Nat.lt_of_not_le hlt]
    rw [decide_eq_true_iff, hget]
    constructor
    · rintro rfl
      exact getElem_mem _
    · intro hx
      rw [← take_append_drop i arr, mem_append] at hx
      rcases hx with hx | hx
      · exact absurd (htake x hx) (Nat.lt_irrefl x)
      · have hsort : (arr.drop i).Pairwise (· < ·) := hs.sublist (drop_sublist ..)
        rw [hcons] at hx hdrop hsort
        rcases mem_cons.mp hx with hx | hx
        · exact hx.symm
        · have hlt := (pairwise_cons.mp hsort).1 x hx
          have hge := hdrop _ mem_cons_self
          omega

theorem Packed.lookup_iff (h : Packed s vs) (hx : x < 2 ^ 64) :
    Tree.lookup s x = true ↔ x ∈ vs := by
  rcases h with ⟨hroot, -, -, rfl⟩ | ⟨E, m, htree, ho, rfl⟩
  · simp [Tree.lookup, hroot]
  · exact htree.lookup_iff ho hx

theorem Represents.isMember_iff (h : Represents s l) (hx : x < 2 ^ 64) :
    s.intsetIsMember x = true ↔ x ∈ l := by
  obtain ⟨vs, hpacked, rfl⟩ := h.packed
  obtain ⟨-, hbuf, hlt⟩ := pairwise_append.mp h.sorted
  rw [mem_append, intsetIsMember]
  split
  · rename_i hcond
    obtain ⟨hpos, hle⟩ := hcond
    have hfirst : s.bufferedValues.getD 0 0 ∈ s.bufferedValues := by
      rw [getD_eq_getElem _ _ hpos]
      exact getElem_mem _
    have hvs : x ∉ vs := fun hmem => by
      have := hlt x hmem _ hfirst
      omega
    simp only [hvs, false_or]
    exact binsrchUint64_mem_iff hbuf
  · rename_i hcond
    have hnot : x ∉ s.bufferedValues := by
      intro hmem
      cases hb : s.bufferedValues with
      | nil => simp [hb] at hmem
      | cons y ys =>
        rw [hb] at hmem hbuf hcond
        have hgt : x < y := by simpa using hcond
        rcases mem_cons.mp hmem with rfl | hmem
        · exact Nat.lt_irrefl x hgt
        · exact Nat.lt_asymm hgt ((pairwise_cons.mp hbuf).1 x hmem)
    rw [or_iff_left hnot]
    exact hpacked.lookup_iff hx

end IntegerSet

end PostgreSieve
