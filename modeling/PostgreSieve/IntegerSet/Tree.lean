import Mathlib.Data.List.Flatten
import Mathlib.Tactic.Set
import PostgreSieve.IntegerSet.Basic

/-! # The B-tree of an integer set

Each level of the tree is a list of nodes with their keys, and the entries of the nodes of one level
are the nodes of the level below. A new node waits for its downlink while the levels above it are
updated.
-/

namespace PostgreSieve.IntegerSet

open Function List Nat

variable {s : IntegerSet} {E : ℕ → List (ℕ × ℕ)} {P : List (ℕ × ℕ)} {lvl k : ℕ}

/-- Each leaf points to the next one. -/
def Chain (s : IntegerSet) : List (ℕ × ℕ) → Prop
  | [] => True
  | e :: es => (s.nodes e.2).next = es.head?.map Prod.snd ∧ Chain s es

/-- The nodes of level `k`, with their keys, are `E k`. Those in `P` have no downlink on level `lvl`
yet. -/
@[mk_iff]
structure Tree (s : IntegerSet) (E : ℕ → List (ℕ × ℕ)) (lvl : ℕ) (P : List (ℕ × ℕ)) : Prop where
  pos : 0 < s.numLevels
  root : ∃ e, s.root = some e.2 ∧
    E (s.numLevels - 1) = e :: if lvl = s.numLevels then P else []
  rightmost : ∀ k < s.numLevels, s.rightmostNodes k = (E k).getLast?.map Prod.snd
  lt : ∀ k < s.numLevels, ∀ e ∈ E k, e.2 < s.numNodes
  nodup : ∀ k < s.numLevels, ((E k).map Prod.snd).Nodup
  leaf : ∀ e ∈ E 0, ∃ items next, s.nodes e.2 = .leaf items next ∧
    ∀ item ∈ items.head?, item.first = e.1
  internal : ∀ k, k + 1 < s.numLevels → ∀ e ∈ E (k + 1), ∃ entries,
    s.nodes e.2 = .internal (k + 1) entries ∧ entries.head?.map Prod.fst = some e.1
  links : ∀ k, k + 1 < s.numLevels → (E (k + 1)).flatMap (fun e => (s.nodes e.2).entries) ++
    (if lvl = k + 1 then P else []) = E k
  fullLeaf : ∀ e ∈ (E 0).dropLast, maxLeafItems ≤ (s.nodes e.2).items.length
  full : ∀ k, k + 1 < s.numLevels → ∀ e ∈ (E (k + 1)).dropLast,
    maxInternalItems ≤ (s.nodes e.2).entries.length
  leftmost : s.leftmostLeaf = (E 0).head?.map Prod.snd
  chain : Chain s (E 0)

theorem Chain.congr {t : IntegerSet} {es : List (ℕ × ℕ)} (h : Chain s es)
    (hn : ∀ e ∈ es, (t.nodes e.2).next = (s.nodes e.2).next) : Chain t es := by
  induction es with
  | nil => trivial
  | cons e es ih =>
    exact ⟨(hn e mem_cons_self).trans h.1, ih h.2 fun f hf => hn f (mem_cons_of_mem e hf)⟩

namespace Tree

section

variable (h : Tree s E lvl P)
include h

theorem ne_of_level {j : ℕ} (hk : k < s.numLevels) (hj : j < s.numLevels) (hkj : k ≠ j)
    {e f : ℕ × ℕ} (he : e ∈ E k) (hf : f ∈ E j) : e.2 ≠ f.2 := by
  intro hef
  cases k with
  | zero =>
    cases j with
    | zero => exact hkj rfl
    | succ j =>
      obtain ⟨items, next, hn, -⟩ := h.leaf e he
      obtain ⟨entries, hn', -⟩ := h.internal j hj f hf
      rw [hef, hn'] at hn
      cases hn
  | succ k =>
    obtain ⟨entries, hn, -⟩ := h.internal k hk e he
    cases j with
    | zero =>
      obtain ⟨items, next, hn', -⟩ := h.leaf f hf
      rw [hef, hn'] at hn
      cases hn
    | succ j =>
      obtain ⟨entries', hn', -⟩ := h.internal j hj f hf
      rw [hef, hn'] at hn
      cases hn
      exact hkj rfl

theorem entries_ne_nil (hk : k + 1 < s.numLevels) {e : ℕ × ℕ} (he : e ∈ E (k + 1)) :
    (s.nodes e.2).entries ≠ [] := by
  obtain ⟨entries, hn, hhead⟩ := h.internal k hk e he
  rw [hn]
  rintro rfl
  simp at hhead

theorem level_ne_nil (hk : k < s.numLevels) : E k ≠ [] := by
  obtain ⟨n, hn⟩ : ∃ n, s.numLevels = k + 1 + n := ⟨s.numLevels - (k + 1), by omega⟩
  induction n generalizing k with
  | zero =>
    obtain ⟨e, -, he⟩ := h.root
    have hk' : k = s.numLevels - 1 := by omega
    rw [hk', he]
    exact cons_ne_nil _ _
  | succ n ih =>
    have hk' : k + 1 < s.numLevels := by omega
    obtain ⟨e, he⟩ := exists_mem_of_ne_nil _ (ih hk' (by omega))
    obtain ⟨x, hx⟩ := exists_mem_of_ne_nil _ (h.entries_ne_nil hk' he)
    rw [← h.links k hk']
    exact ne_nil_of_mem (mem_append_left _ (mem_flatMap.mpr ⟨e, he, hx⟩))

theorem exists_last (hk : k < s.numLevels) :
    ∃ es e, E k = es ++ [e] ∧ s.rightmostNodes k = some e.2 ∧ ∀ f ∈ es, f.2 ≠ e.2 := by
  rcases eq_nil_or_concat (E k) with hnil | ⟨es, e, he⟩
  · exact absurd hnil (h.level_ne_nil hk)
  · rw [concat_eq_append] at he
    have hr := h.rightmost k hk
    have hnd := h.nodup k hk
    rw [he] at hr hnd
    refine ⟨es, e, he, by simpa using hr, fun f hf hfe => ?_⟩
    rw [map_append, nodup_append] at hnd
    exact hnd.2.2 f.2 (mem_map_of_mem hf) e.2 (by simp) hfe

end

section Update

variable {key child : ℕ}

theorem addDownlink (h : Tree s E lvl [(key, child)]) (h0 : 0 < lvl) (hlt : lvl < s.numLevels)
    (m : ℕ) : Tree (s.addDownlink lvl child key) E m [] := by
  obtain ⟨es, pe, hE, hr, hes⟩ := h.exists_last hlt
  have hpe : pe ∈ E lvl := by simp [hE]
  obtain ⟨j, rfl⟩ : ∃ j, lvl = j + 1 := ⟨lvl - 1, by omega⟩
  obtain ⟨entries, hn, hhead⟩ := h.internal j hlt pe hpe
  simp only [IntegerSet.addDownlink, hr, hn, IntsetNode.entries]
  set n := update s.nodes pe.2 (.internal (j + 1) (entries ++ [(key, child)])) with hdef
  have hself : n pe.2 = .internal (j + 1) (entries ++ [(key, child)]) := update_self ..
  have hold : ∀ f : ℕ × ℕ, f.2 ≠ pe.2 → n f.2 = s.nodes f.2 :=
    fun f hf => update_of_ne hf ..
  have hother : ∀ k < s.numLevels, k ≠ j + 1 → ∀ e ∈ E k, n e.2 = s.nodes e.2 :=
    fun k hk hne e he => hold e (h.ne_of_level hk hlt hne he hpe)
  have hzero : ∀ e ∈ E 0, n e.2 = s.nodes e.2 := hother 0 h.pos (by omega)
  obtain ⟨e, hroot, htop⟩ := h.root
  rw [if_neg (by omega)] at htop
  refine ⟨h.pos, ⟨e, hroot, by rw [ite_self]; exact htop⟩, h.rightmost, h.lt, h.nodup, fun e he => ?_,
    fun k hk e he => ?_, fun k hk => ?_, fun e he => ?_, fun k hk e he => ?_, h.leftmost,
    h.chain.congr fun e he => by simp only [setNode, ← hdef, hzero e he]⟩
  · simp only [setNode, ← hdef, hzero e he]
    exact h.leaf e he
  · simp only [setNode, ← hdef]
    by_cases hkj : k = j
    · subst hkj
      rw [hE, mem_append, mem_singleton] at he
      rcases he with he | rfl
      · rw [hold e (hes e he)]
        exact h.internal k hk e (hE ▸ mem_append_left _ he)
      · refine ⟨_, hself, ?_⟩
        cases entries with
        | nil => simp at hhead
        | cons x entries => simpa using hhead
    · rw [hother (k + 1) hk (by omega) e he]
      exact h.internal k hk e he
  · have hlinks := h.links k hk
    simp only [setNode, ← hdef, ite_self, append_nil]
    by_cases hkj : k = j
    · subst hkj
      rw [if_pos rfl, hE, flatMap_append, flatMap_singleton] at hlinks
      rw [hE, flatMap_append, flatMap_singleton, hself, ← hlinks, hn,
        flatMap_congr fun f hf => congrArg IntsetNode.entries (hold f (hes f hf))]
      simp [IntsetNode.entries]
    · rw [if_neg (by omega), append_nil] at hlinks
      rw [← hlinks]
      exact flatMap_congr fun f hf => congrArg IntsetNode.entries (hother (k + 1) hk (by omega) f hf)
  · simp only [setNode, ← hdef, hzero e (dropLast_subset _ he)]
    exact h.fullLeaf e he
  · simp only [setNode, ← hdef]
    by_cases hkj : k = j
    · subst hkj
      have he' : e ∈ es := by rwa [hE, dropLast_concat] at he
      rw [hold e (hes e he')]
      exact h.full k hk e he
    · rw [hother (k + 1) hk (by omega) e (dropLast_subset _ he)]
      exact h.full k hk e he

theorem appended (h : Tree s E lvl P) (j : ℕ) (hk : k < s.numLevels) :
    update s.rightmostNodes j (some s.numNodes) k =
        (update E j (E j ++ [(key, s.numNodes)]) k).getLast?.map Prod.snd ∧
      (∀ e ∈ update E j (E j ++ [(key, s.numNodes)]) k, e.2 < s.numNodes + 1) ∧
      ((update E j (E j ++ [(key, s.numNodes)]) k).map Prod.snd).Nodup := by
  have hlt : ∀ e ∈ E k, e.2 < s.numNodes + 1 := fun e he => (h.lt k hk e he).trans (lt_succ_self _)
  by_cases hkj : k = j
  · subst hkj
    rw [update_self, update_self, map_append, nodup_append]
    refine ⟨by simp, ?_, h.nodup k hk, by simp, fun a ha b hb => ?_⟩
    · exact forall_mem_append.mpr ⟨hlt, forall_mem_singleton.mpr (lt_succ_self _)⟩
    · obtain ⟨f, hf, rfl⟩ := mem_map.mp ha
      exact mem_singleton.mp hb ▸ (h.lt k hk f hf).ne
  · rw [update_of_ne hkj, update_of_ne hkj]
    exact ⟨h.rightmost k hk, hlt, h.nodup k hk⟩

/-- A full parent gets a right sibling with the downlink, which now waits for its own. -/
theorem newParent (h : Tree s E lvl [(key, child)]) (h0 : 0 < lvl) (hlt : lvl < s.numLevels)
    (hfull : maxInternalItems ≤ (s.deref (s.rightmostNodes lvl)).entries.length) :
    Tree (s.newParent lvl child key) (update E lvl (E lvl ++ [(key, s.numNodes)]))
      (lvl + 1) [(key, s.numNodes)] := by
  obtain ⟨es, pe, hE, hr, hes⟩ := h.exists_last hlt
  obtain ⟨j, rfl⟩ : ∃ j, lvl = j + 1 := ⟨lvl - 1, by omega⟩
  set id := s.numNodes with hid
  set n := update s.nodes id (.internal (j + 1) [(key, child)]) with hdef
  have hself : n id = .internal (j + 1) [(key, child)] := update_self ..
  have hold : ∀ k < s.numLevels, ∀ f ∈ E k, n f.2 = s.nodes f.2 :=
    fun k hk f hf => update_of_ne (h.lt k hk f hf).ne ..
  have hlvl : update E (j + 1) (E (j + 1) ++ [(key, id)]) (j + 1) =
      E (j + 1) ++ [(key, id)] := update_self ..
  have hne : ∀ k, k ≠ j + 1 → update E (j + 1) (E (j + 1) ++ [(key, id)]) k = E k :=
    fun k hk => update_of_ne hk ..
  have hzero := hne 0 (by omega)
  have hmem : ∀ k, ∀ e ∈ update E (j + 1) (E (j + 1) ++ [(key, id)]) k,
      e ∈ E k ∨ k = j + 1 ∧ e = (key, id) := by
    intro k e he
    by_cases hk : k = j + 1
    · subst hk
      rw [hlvl, mem_append, mem_singleton] at he
      exact he.imp_right fun h => ⟨rfl, h⟩
    · rw [hne k hk] at he
      exact .inl he
  obtain ⟨e, hroot, htop⟩ := h.root
  rw [if_neg (by omega)] at htop
  have ht : s.newParent (j + 1) child key = { s with
      nodes := n
      numNodes := id + 1
      rightmostNodes := update s.rightmostNodes (j + 1) (some id) } := rfl
  simp only [ht, tree_iff]
  refine ⟨h.pos, ⟨e, hroot, ?_⟩, fun k hk => (h.appended _ hk).1, fun k hk => (h.appended _ hk).2.1,
    fun k hk => (h.appended _ hk).2.2, fun e he => ?_, fun k hk e he => ?_, fun k hk => ?_,
    fun e he => ?_, fun k hk e he => ?_, ?_, ?_⟩
  · by_cases hk : s.numLevels - 1 = j + 1
    · rw [hk, hlvl, ← hk, htop, if_pos (by omega)]
      rfl
    · rw [hne _ hk, htop, if_neg (by omega)]
  · rw [hzero] at he
    rw [hold 0 h.pos e he]
    exact h.leaf e he
  · rcases hmem _ e he with he | ⟨hk', rfl⟩
    · rw [hold _ hk e he]
      exact h.internal k hk e he
    · obtain rfl : k = j := by omega
      exact ⟨_, hself, rfl⟩
  · have hlinks := h.links k hk
    by_cases hk' : k = j
    · subst hk'
      rw [hlvl, if_neg (by omega), append_nil, flatMap_append, flatMap_singleton,
        hne k (by omega), hself, flatMap_congr fun f hf =>
          congrArg IntsetNode.entries (hold _ hk f hf)]
      rw [if_pos rfl] at hlinks
      exact hlinks
    · rw [if_neg (by omega), append_nil] at hlinks
      rw [hne (k + 1) (by omega), flatMap_congr fun f hf =>
        congrArg IntsetNode.entries (hold _ hk f hf), hlinks]
      by_cases hk'' : k = j + 1
      · subst hk''
        rw [if_pos rfl, hlvl]
      · rw [if_neg (by omega), append_nil, hne k hk'']
  · rw [hzero] at he
    rw [hold 0 h.pos e (dropLast_subset _ he)]
    exact h.fullLeaf e he
  · by_cases hk' : k = j
    · subst hk'
      rw [hlvl, dropLast_concat] at he
      rw [hold _ hk e he]
      rw [hE, mem_append, mem_singleton] at he
      rcases he with he | rfl
      · exact h.full k hk e (by rwa [hE, dropLast_concat])
      · rw [hr] at hfull
        exact hfull
    · rw [hne (k + 1) (by omega)] at he
      rw [hold _ hk e (dropLast_subset _ he)]
      exact h.full k hk e he
  · rw [hzero]
    exact h.leftmost
  · rw [hzero]
    exact h.chain.congr fun e he => congrArg IntsetNode.next (hold 0 h.pos e he)

variable {e : ℕ × ℕ}

theorem downlinkKey_root (h : Tree s E s.numLevels [(key, child)])
    (he : E (s.numLevels - 1) = [e, (key, child)]) : downlinkKey (s.nodes e.2) = e.1 := by
  have hpos := h.pos
  have hmem : e ∈ E (s.numLevels - 1) := by simp [he]
  by_cases hl : s.numLevels = 1
  · rw [hl] at he hmem
    obtain ⟨items, next, hn, hhead⟩ := h.leaf e hmem
    have hfull := h.fullLeaf e (by rw [he]; simp)
    rw [hn] at hfull ⊢
    cases items with
    | nil => simp [IntsetNode.items, maxLeafItems] at hfull
    | cons item items => exact hhead item rfl
  · obtain ⟨k, hk⟩ : ∃ k, s.numLevels = k + 2 := ⟨s.numLevels - 2, by omega⟩
    rw [hk] at hmem
    obtain ⟨entries, hn, hhead⟩ := h.internal k (by omega) e hmem
    rw [hn]
    cases entries with
    | nil => simp at hhead
    | cons x entries => simpa [downlinkKey] using hhead

theorem newRoot (h : Tree s E s.numLevels [(key, child)]) :
    ∃ k₀, Tree (s.newRoot s.numLevels) (update E s.numLevels [(k₀, s.numNodes)])
      s.numLevels [(key, child)] := by
  have hpos := h.pos
  obtain ⟨e, hroot, htop⟩ := h.root
  rw [if_pos rfl] at htop
  have hkey := h.downlinkKey_root htop
  refine ⟨e.1, ?_⟩
  obtain ⟨j, hj⟩ : ∃ j, s.numLevels = j + 1 := ⟨s.numLevels - 1, by omega⟩
  set id := s.numNodes with hid
  set n := update s.nodes id (.internal (j + 1) [(e.1, e.2)]) with hdef
  have hself : n id = .internal (j + 1) [(e.1, e.2)] := update_self ..
  have hold : ∀ k < s.numLevels, ∀ f ∈ E k, n f.2 = s.nodes f.2 :=
    fun k hk f hf => update_of_ne (h.lt k hk f hf).ne ..
  have ht : s.newRoot s.numLevels = { s with
      nodes := n
      numNodes := id + 1
      numLevels := s.numLevels + 1
      rightmostNodes := update s.rightmostNodes s.numLevels (some id)
      root := some id } := by
    simp only [IntegerSet.newRoot, hroot, Option.getD_some, hkey, newNode, setRightmost, setNode, hj,
      ← hid, hdef]
  have hlvl : update E s.numLevels [(e.1, id)] s.numLevels = [(e.1, id)] :=
    update_self ..
  have hne : ∀ k < s.numLevels, update E s.numLevels [(e.1, id)] k = E k :=
    fun k hk => update_of_ne hk.ne ..
  have hzero := hne 0 hpos
  simp only [ht, tree_iff]
  refine ⟨succ_pos _, ⟨(e.1, id), rfl, ?_⟩, fun k hk => ?_, fun k hk f hf => ?_, fun k hk => ?_,
    fun f hf => ?_, fun k hk f hf => ?_, fun k hk => ?_, fun f hf => ?_, fun k hk f hf => ?_, ?_, ?_⟩
  · rw [Nat.add_sub_cancel, hlvl, if_neg (by omega)]
  · rcases Nat.lt_succ_iff_lt_or_eq.mp hk with hk | rfl
    · rw [hne k hk, update_of_ne hk.ne]
      exact h.rightmost k hk
    · rw [hlvl, update_self]
      rfl
  · rcases Nat.lt_succ_iff_lt_or_eq.mp hk with hk | rfl
    · rw [hne k hk] at hf
      exact (h.lt k hk f hf).trans (lt_succ_self _)
    · rw [hlvl, mem_singleton] at hf
      exact hf ▸ lt_succ_self _
  · rcases Nat.lt_succ_iff_lt_or_eq.mp hk with hk | rfl
    · rw [hne k hk]
      exact h.nodup k hk
    · rw [hlvl]
      simp
  · rw [hzero] at hf
    rw [hold 0 hpos f hf]
    exact h.leaf f hf
  · rcases Nat.lt_succ_iff_lt_or_eq.mp hk with hk | hk
    · rw [hne _ hk] at hf
      rw [hold _ hk f hf]
      exact h.internal k hk f hf
    · rw [hk, hlvl, mem_singleton] at hf
      obtain rfl : k = j := by omega
      subst hf
      exact ⟨_, hself, rfl⟩
  · rcases Nat.lt_succ_iff_lt_or_eq.mp hk with hk | hk
    · have hlinks := h.links k hk
      rw [hne _ hk, hne k (by omega), flatMap_congr fun f hf =>
        congrArg IntsetNode.entries (hold _ hk f hf)]
      exact hlinks
    · have hk' : k = s.numLevels - 1 := by omega
      rw [hk, hlvl, if_pos rfl, hne k (by omega), flatMap_singleton, hself, hk', htop]
      rfl
  · rw [hzero] at hf
    rw [hold 0 hpos f (dropLast_subset _ hf)]
    exact h.fullLeaf f hf
  · rcases Nat.lt_succ_iff_lt_or_eq.mp hk with hk | hk
    · rw [hne _ hk] at hf
      rw [hold _ hk f (dropLast_subset _ hf)]
      exact h.full k hk f hf
    · rw [hk, hlvl] at hf
      simp at hf
  · rw [hzero]
    exact h.leftmost
  · rw [hzero]
    exact h.chain.congr fun f hf => congrArg IntsetNode.next (hold 0 hpos f hf)

/-! ### How many items a tree has -/

theorem mul_length_le {α β : Type*} {l : List α} {f : α → List β} {c : ℕ}
    (h : ∀ a ∈ l, c ≤ (f a).length) : c * l.length ≤ (l.flatMap f).length := by
  induction l with
  | nil => simp
  | cons a l ih =>
    have ha := h a mem_cons_self
    have hl := ih fun b hb => h b (mem_cons_of_mem a hb)
    rw [flatMap_cons, length_append, length_cons, mul_succ]
    omega

/-- Only the last node of a level may have room. -/
theorem length_level (h : Tree s E lvl P) (hk : k + 1 < s.numLevels) :
    maxInternalItems * ((E (k + 1)).length - 1) ≤ (E k).length - 1 := by
  obtain ⟨es, e, hE, -, -⟩ := h.exists_last hk
  have hfull := h.full k hk
  have hlinks := h.links k hk
  have hlast : (s.nodes e.2).entries ≠ [] := h.entries_ne_nil hk (by simp [hE])
  have hpos := length_pos_of_ne_nil hlast
  rw [hE, dropLast_concat] at hfull
  have hle := mul_length_le (f := fun e : ℕ × ℕ => (s.nodes e.2).entries) hfull
  rw [hE, flatMap_append, flatMap_singleton] at hlinks
  have hlen := congrArg List.length hlinks
  rw [hE]
  simp only [length_append, length_singleton, Nat.add_sub_cancel] at hlen ⊢
  omega

theorem pow_mul_length_le (h : Tree s E lvl P) (hk : k < s.numLevels) :
    maxInternalItems ^ k * ((E k).length - 1) ≤ (E 0).length - 1 := by
  induction k with
  | zero => simp
  | succ k ih =>
    calc maxInternalItems ^ (k + 1) * ((E (k + 1)).length - 1)
        = maxInternalItems ^ k * (maxInternalItems * ((E (k + 1)).length - 1)) := by ring
      _ ≤ maxInternalItems ^ k * ((E k).length - 1) :=
          mul_le_mul_left _ (h.length_level hk)
      _ ≤ (E 0).length - 1 := ih (by omega)

/-- The items on the leaves. -/
def items (s : IntegerSet) (E : ℕ → List (ℕ × ℕ)) : List LeafItem :=
  (E 0).flatMap fun e => (s.nodes e.2).items

theorem mul_length_le_items (h : Tree s E lvl P) :
    maxLeafItems * ((E 0).length - 1) ≤ (items s E).length := by
  obtain ⟨es, e, hE, -, -⟩ := h.exists_last h.pos
  have hfull := h.fullLeaf
  rw [hE, dropLast_concat] at hfull
  have hle := mul_length_le (f := fun e : ℕ × ℕ => (s.nodes e.2).items) hfull
  rw [items, hE, flatMap_append, length_append, length_append, length_singleton,
    Nat.add_sub_cancel]
  omega

/-- A tree that has to grow beyond its height has full leaves below a full root. -/
theorem pow_le_items (h : Tree s E s.numLevels [(key, child)]) :
    maxLeafItems * maxInternalItems ^ (s.numLevels - 1) ≤ (items s E).length := by
  have hpos := h.pos
  obtain ⟨e, -, htop⟩ := h.root
  rw [if_pos rfl] at htop
  have hlen := h.pow_mul_length_le (k := s.numLevels - 1) (by omega)
  rw [htop, length_cons, length_singleton, Nat.add_sub_cancel, Nat.mul_one] at hlen
  exact (mul_le_mul_left _ hlen).trans h.mul_length_le_items

/-! ### The upper levels -/

theorem addDownlink_leaf (h : Tree s E lvl P) (h0 : 0 < lvl) (hlt : lvl < s.numLevels)
    (he : e ∈ E 0) : (s.addDownlink lvl child key).nodes e.2 = s.nodes e.2 := by
  obtain ⟨es, pe, hE, hr, -⟩ := h.exists_last hlt
  simp only [IntegerSet.addDownlink, hr]
  exact update_of_ne (h.ne_of_level h.pos hlt h0.ne he (by simp [hE])) ..

theorem newNode_leaf (h : Tree s E lvl P) (n : IntsetNode) (he : e ∈ E 0) :
    (s.newNode n).nodes e.2 = s.nodes e.2 :=
  update_of_ne (h.lt 0 h.pos e he).ne ..

/-- The update reaches a level with room, unless there are more items than values. -/
theorem updateUpper (h : Tree s E lvl [(key, child)]) (h0 : 0 < lvl) (hle : lvl ≤ s.numLevels)
    (hitems : (items s E).length < maxLeafItems * maxInternalItems ^ (maxTreeLevels - 1)) :
    (s.intsetUpdateUpper lvl child key).2 = none ∧ ∃ E' m,
      Tree (s.intsetUpdateUpper lvl child key).1 E' m [] ∧ E' 0 = E 0 ∧
      ∀ e ∈ E 0, (s.intsetUpdateUpper lvl child key).1.nodes e.2 = s.nodes e.2 := by
  fun_induction intsetUpdateUpper s lvl child key generalizing E with
  | case1 s lvl child hge hmax =>
    obtain rfl : lvl = s.numLevels := by omega
    have := h.pow_le_items
    rw [hmax] at this
    omega
  | case2 s lvl child hge hmax =>
    obtain rfl : lvl = s.numLevels := by omega
    obtain ⟨k₀, hroot⟩ := h.newRoot
    have hzero : update E s.numLevels [(k₀, s.numNodes)] 0 = E 0 :=
      update_of_ne h0.ne ..
    refine ⟨rfl, _, 0, hroot.addDownlink h0 (lt_succ_self _) 0, hzero, fun e he => ?_⟩
    rw [hroot.addDownlink_leaf h0 (lt_succ_self _) (hzero ▸ he)]
    exact h.newNode_leaf _ he
  | case3 s lvl child hlt hroom =>
    exact ⟨rfl, E, 0, h.addDownlink h0 (by omega) 0, rfl,
      fun e he => h.addDownlink_leaf h0 (by omega) he⟩
  | case4 s lvl child hlt hfull ih =>
    have hparent := h.newParent h0 (by omega) (by omega)
    have hzero : update E lvl (E lvl ++ [(key, s.numNodes)]) 0 = E 0 :=
      update_of_ne h0.ne ..
    have hsame : ∀ e ∈ E 0, (s.newParent lvl child key).nodes e.2 = s.nodes e.2 :=
      fun e he => h.newNode_leaf _ he
    have hlen : items (s.newParent lvl child key)
        (update E lvl (E lvl ++ [(key, s.numNodes)])) = items s E := by
      rw [items, hzero]
      exact flatMap_congr fun e he => congrArg IntsetNode.items (hsame e he)
    obtain ⟨herr, E', m, ht, hE', hn⟩ := ih hparent (succ_pos _) (by
      have : (s.newParent lvl child key).numLevels = s.numLevels := rfl
      omega) (by rwa [hlen])
    rw [hzero] at hE' hn
    exact ⟨herr, E', m, ht, hE', fun e he => (hn e he).trans (hsame e he)⟩

end Update

/-! ### The leaves -/

section Leaves

variable {item : LeafItem} {key : ℕ}

theorem pushItem (item : LeafItem) (h : Tree s E lvl P)
    (hkey : ∀ e ∈ (E 0).getLast?, (s.nodes e.2).items = [] → item.first = e.1) :
    Tree (s.pushItem item) E lvl P ∧ items (s.pushItem item) E = items s E ++ [item] ∧
      ∀ e ∈ (E 0).getLast?, ((s.pushItem item).nodes e.2).items ≠ [] := by
  obtain ⟨es, le, hE, hr, hes⟩ := h.exists_last h.pos
  have hle : le ∈ E 0 := by simp [hE]
  obtain ⟨items', next, hn, hhead⟩ := h.leaf le hle
  set n := update s.nodes le.2 (.leaf (items' ++ [item]) next) with hdef
  have hself : n le.2 = .leaf (items' ++ [item]) next := update_self ..
  have hold : ∀ e ∈ es, n e.2 = s.nodes e.2 := fun e he => update_of_ne (hes e he) ..
  have hother : ∀ k, k + 1 < s.numLevels → ∀ e ∈ E (k + 1), n e.2 = s.nodes e.2 :=
    fun k hk e he => update_of_ne (h.ne_of_level hk h.pos (succ_ne_zero k) he hle) ..
  have hnext : ∀ e ∈ E 0, (n e.2).next = (s.nodes e.2).next := by
    intro e he
    rw [hE, mem_append, mem_singleton] at he
    rcases he with he | rfl
    · rw [hold e he]
    · rw [hself, hn]
      rfl
  have ht : s.pushItem item = { s with nodes := n } := by
    simp only [IntegerSet.pushItem, hr, hn, IntsetNode.items, IntsetNode.next, setNode, hdef]
  rw [ht]
  refine ⟨⟨h.pos, h.root, h.rightmost, h.lt, h.nodup, fun e he => ?_, fun k hk e he => ?_,
    fun k hk => ?_, fun e he => ?_, fun k hk e he => ?_, h.leftmost, h.chain.congr hnext⟩, ?_, ?_⟩
  · rw [hE, mem_append, mem_singleton] at he
    rcases he with he | rfl
    · obtain ⟨items', next, hn, hhead⟩ := h.leaf e (by simp [hE, he])
      exact ⟨items', next, (hold e he).trans hn, hhead⟩
    · refine ⟨_, _, hself, fun i hi => ?_⟩
      cases items' with
      | nil =>
        obtain rfl : item = i := by simpa using hi
        exact hkey e (by simp [hE]) (by rw [hn]; rfl)
      | cons i' items' => exact hhead i (by simpa using hi)
  · obtain ⟨entries, hn, hhead⟩ := h.internal k hk e he
    exact ⟨entries, (hother k hk e he).trans hn, hhead⟩
  · rw [← h.links k hk]
    congr 1
    exact flatMap_congr fun e he => congrArg IntsetNode.entries (hother k hk e he)
  · have he' : e ∈ es := by rwa [hE, dropLast_concat] at he
    exact (congrArg (fun n => n.items.length) (hold e he')).symm ▸ h.fullLeaf e he
  · have hfull := h.full k hk e he
    rw [← hother k hk e (dropLast_subset _ he)] at hfull
    exact hfull
  · simp only [items]
    rw [hE, flatMap_append, flatMap_append, flatMap_singleton, flatMap_singleton,
      hself, hn, flatMap_congr fun e he => congrArg IntsetNode.items (hold e he)]
    simp [IntsetNode.items]
  · intro e he
    obtain rfl : le = e := by simpa [hE] using he
    simp [hself, IntsetNode.items]

theorem chain_concat {t : IntegerSet} {es : List (ℕ × ℕ)} {e f : ℕ × ℕ} (h : Chain s (es ++ [e]))
    (hes : ∀ e ∈ es, (t.nodes e.2).next = (s.nodes e.2).next) (he : (t.nodes e.2).next = some f.2)
    (hf : (t.nodes f.2).next = none) : Chain t (es ++ [e] ++ [f]) := by
  induction es with
  | nil => exact ⟨he, hf, trivial⟩
  | cons x es ih =>
    refine ⟨?_, ih h.2 fun e he => hes e (mem_cons_of_mem x he)⟩
    rw [hes x mem_cons_self, h.1]
    cases es <;> rfl

theorem newLeaf (h : Tree s E lvl []) (key : ℕ)
    (hfull : maxLeafItems ≤ (s.deref (s.rightmostNodes 0)).items.length) :
    Tree s.newLeaf (update E 0 (E 0 ++ [(key, s.numNodes)])) 1 [(key, s.numNodes)] ∧
      items s.newLeaf (update E 0 (E 0 ++ [(key, s.numNodes)])) = items s E := by
  obtain ⟨es, le, hE, hr, hes⟩ := h.exists_last h.pos
  have hle : le ∈ E 0 := by simp [hE]
  obtain ⟨items', next, hn, hhead⟩ := h.leaf le hle
  set id := s.numNodes with hid
  set n := update (update s.nodes id (.leaf [] none)) le.2
    (.leaf items' (some id)) with hdef
  have hltid := h.lt 0 h.pos le hle
  have hself : n le.2 = .leaf items' (some id) := update_self ..
  have hnew : n id = .leaf [] none := by
    rw [hdef, update_of_ne hltid.ne', update_self]
  have hold : ∀ e : ℕ × ℕ, e.2 < id → e.2 ≠ le.2 → n e.2 = s.nodes e.2 := fun e he hne => by
    rw [hdef, update_of_ne hne, update_of_ne he.ne]
  have hes' : ∀ e ∈ es, n e.2 = s.nodes e.2 :=
    fun e he => hold e (h.lt 0 h.pos e (by simp [hE, he])) (hes e he)
  have hother : ∀ k, k + 1 < s.numLevels → ∀ e ∈ E (k + 1), n e.2 = s.nodes e.2 :=
    fun k hk e he => hold e (h.lt _ hk e he) (h.ne_of_level hk h.pos (succ_ne_zero k) he hle)
  have ht : s.newLeaf = { s with
      nodes := n
      numNodes := id + 1
      rightmostNodes := update s.rightmostNodes 0 (some id) } := by
    simp only [IntegerSet.newLeaf, hr, hn, IntsetNode.items, setNode, setRightmost, newNode, hdef, hid]
  have hzero : update E 0 (E 0 ++ [(key, id)]) 0 = E 0 ++ [(key, id)] :=
    update_self ..
  have hne : ∀ k, update E 0 (E 0 ++ [(key, id)]) (k + 1) = E (k + 1) :=
    fun k => update_of_ne (succ_ne_zero k) ..
  obtain ⟨e, hroot, htop⟩ := h.root
  rw [ite_self] at htop
  refine ⟨?_, ?_⟩
  · simp only [ht, tree_iff]
    refine ⟨h.pos, ⟨e, hroot, ?_⟩, fun k hk => (h.appended 0 hk).1,
      fun k hk => (h.appended 0 hk).2.1, fun k hk => (h.appended 0 hk).2.2, fun f hf => ?_,
      fun k hk f hf => ?_, fun k hk => ?_, fun f hf => ?_, fun k hk f hf => ?_, ?_, ?_⟩
    · by_cases hl : s.numLevels = 1
      · rw [hl] at htop ⊢
        rw [hzero, htop, if_pos rfl]
        rfl
      · have hpos := h.pos
        obtain ⟨k, hk⟩ : ∃ k, s.numLevels - 1 = k + 1 := ⟨s.numLevels - 2, by omega⟩
        rw [hk] at htop ⊢
        rw [hne, htop, if_neg (Ne.symm hl)]
    · rw [hzero, hE, mem_append, mem_append, mem_singleton, mem_singleton] at hf
      rcases hf with (hf | rfl) | rfl
      · rw [hes' f hf]
        exact h.leaf f (by simp [hE, hf])
      · exact ⟨_, _, hself, hhead⟩
      · exact ⟨_, _, hnew, nofun⟩
    · rw [hne] at hf
      rw [hother k hk f hf]
      exact h.internal k hk f hf
    · have hlinks := h.links k hk
      rw [ite_self, append_nil] at hlinks
      rw [hne, flatMap_congr fun f hf => congrArg IntsetNode.entries (hother k hk f hf), hlinks]
      cases k with
      | zero => rw [if_pos rfl, hzero]
      | succ k => rw [if_neg (by omega), append_nil, hne]
    · rw [hzero, dropLast_concat, hE, mem_append, mem_singleton] at hf
      rcases hf with hf | rfl
      · rw [hes' f hf]
        exact h.fullLeaf f (by rwa [hE, dropLast_concat])
      · rw [hr, deref, hn] at hfull
        rw [hself]
        exact hfull
    · rw [hne] at hf
      rw [hother k hk f (dropLast_subset _ hf)]
      exact h.full k hk f hf
    · rw [hzero, h.leftmost, hE]
      cases es <;> rfl
    · have hchain := h.chain
      rw [hE] at hchain
      rw [hzero, hE]
      exact chain_concat hchain (fun f hf => congrArg IntsetNode.next (hes' f hf))
        (congrArg IntsetNode.next hself) (congrArg IntsetNode.next hnew)
  · simp only [items, ht, hzero, flatMap_append, flatMap_singleton, hnew]
    rw [hE, flatMap_append, flatMap_append, flatMap_singleton, flatMap_singleton,
      hself, hn, flatMap_congr fun e he => congrArg IntsetNode.items (hes' e he)]
    simp [IntsetNode.items]

theorem addItem (item : LeafItem) (h : Tree s E lvl [])
    (hkey : ∀ e ∈ (E 0).getLast?, (s.nodes e.2).items = [] → item.first = e.1)
    (hitems : (items s E).length < maxLeafItems * maxInternalItems ^ (maxTreeLevels - 1)) :
    (s.addItem item).2 = none ∧ ∃ E' m, Tree (s.addItem item).1 E' m [] ∧
      items (s.addItem item).1 E' = items s E ++ [item] ∧
      ∀ e ∈ (E' 0).getLast?, ((s.addItem item).1.nodes e.2).items ≠ [] := by
  unfold IntegerSet.addItem
  split
  · rename_i hfull
    obtain ⟨hleaf, hlen⟩ := h.newLeaf item.first hfull
    have hpos : 1 ≤ s.newLeaf.numLevels := hleaf.pos
    obtain ⟨herr, E', m, htree, hE', hnodes⟩ := hleaf.updateUpper one_pos hpos (by rwa [hlen])
    generalize hu : s.newLeaf.intsetUpdateUpper 1 s.numNodes item.first = u at *
    obtain ⟨t, err⟩ := u
    subst herr
    have hsame : items t E' = items s E := by
      rw [← hlen, items, items, hE', update_self]
      refine flatMap_congr fun e he => congrArg IntsetNode.items (hnodes e ?_)
      rwa [update_self]
    obtain ⟨h1, h2, h3⟩ := htree.pushItem item (fun e he _ => by
      rw [hE'] at he
      obtain rfl : (item.first, s.numNodes) = e := by simpa using he
      rfl)
    exact ⟨rfl, E', m, h1, h2.trans (by rw [hsame]), h3⟩
  · obtain ⟨h1, h2, h3⟩ := h.pushItem item hkey
    exact ⟨rfl, E, lvl, h1, h2, h3⟩

theorem newTree (s : IntegerSet) (key : ℕ) :
    Tree s.newTree (fun _ => [(key, s.numNodes)]) 0 [] ∧
      items s.newTree (fun _ => [(key, s.numNodes)]) = [] := by
  have hn : s.newTree.nodes s.numNodes = .leaf [] none := update_self ..
  refine ⟨⟨one_pos, ⟨(key, s.numNodes), rfl, by simp⟩, fun k hk => ?_, ?_, by simp, ?_, ?_, ?_,
    by simp, ?_, rfl, ⟨by simp [hn, IntsetNode.next], trivial⟩⟩, by simp [items, hn, IntsetNode.items]⟩
  · obtain rfl : k = 0 := lt_one_iff.mp hk
    simp [IntegerSet.newTree, setRightmost]
  · intro k _ e he
    rw [mem_singleton.mp he]
    exact lt_succ_self _
  · intro e he
    rw [mem_singleton.mp he]
    exact ⟨[], none, hn, nofun⟩
  all_goals
    intro k hk
    exact absurd (show k + 1 < 1 from hk) (by omega)

end Leaves

end Tree

end PostgreSieve.IntegerSet
