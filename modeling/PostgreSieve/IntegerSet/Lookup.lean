import Mathlib.Data.List.GetD
import Mathlib.Order.Defs.LinearOrder
import PostgreSieve.IntegerSet.Tree
import PostgreSieve.Lists.Blocks

/-! # Searching an integer set

Every level of the tree cuts the packed values into blocks, and the walk from the root follows the
last block whose key is not above the value.
-/

namespace PostgreSieve

open List

open Simple8b

/-- The integers that an item holds. -/
def LeafItem.values (item : LeafItem) : List ℕ :=
  item.first :: simple8bDecode item.codeword item.first

/-- Looking into the codeword agrees with decoding it. -/
def LeafItem.Valid (item : LeafItem) : Prop :=
  ∀ key, item.first < key → key < 2 ^ 64 →
    (simple8bContains item.codeword key item.first = true ↔
      key ∈ simple8bDecode item.codeword item.first)

namespace IntegerSet

variable {s : IntegerSet} {E : ℕ → List (ℕ × ℕ)} {m k x : ℕ}
variable {item key : ℕ}

@[simp] theorem goesRight_true : goesRight item key true = true ↔ key ≤ item := by
  simp [goesRight]

@[simp] theorem goesRight_false : goesRight item key false = true ↔ key < item := by
  simp [goesRight]

theorem goesRight_eq_false : goesRight item key true = false ↔ item < key := by
  rw [← Bool.not_eq_true, goesRight_true, Nat.not_le]

theorem binsrch_key {α : Type*} {l : List α} {key : α → ℕ} (hs : (l.map key).Pairwise (· < ·))
    (x : ℕ) (d : α) :
    let i := binsrch (fun mid => goesRight x (key (l.getD mid d)) true) 0 l.length
    (i = 0 ∧ ∀ a ∈ l, x < key a) ∨ (i ≠ 0 ∧ ∃ l₁ a l₂, l = l₁ ++ a :: l₂ ∧
      l.getD (i - 1) d = a ∧ key a ≤ x ∧ ∀ c ∈ l₂, x < key c) := by
  have hq : l.Pairwise fun a b => goesRight x (key b) true = true →
      goesRight x (key a) true = true := by
    rw [pairwise_map] at hs
    exact hs.imp fun hab hb => by
      rw [goesRight_true] at hb ⊢
      omega
  simpa only [goesRight_true, goesRight_eq_false] using
    binsrch_cases (q := fun a => goesRight x (key a) true) hq d

theorem leafContains_iff {items : List LeafItem}
    (hs : (items.flatMap LeafItem.values).Pairwise (· < ·)) (hv : ∀ item ∈ items, item.Valid)
    (hx : x < 2 ^ 64) : leafContains x items = true ↔ x ∈ items.flatMap LeafItem.values := by
  have hhead : ∀ item ∈ items, item.values.head? = some item.first := fun item _ => rfl
  rcases binsrch_key (hs.sublist (Blocks.keys_sublist hhead)) x default with
    ⟨hi, hall⟩ | ⟨hi, l₁, item, l₂, rfl, hget, hle, hgt⟩
  · change intsetBinsrchLeaf x items true = 0 at hi
    have hnot := Blocks.not_mem hs hhead hall
    simp [leafContains, hi, hnot]
  · change intsetBinsrchLeaf x _ true ≠ 0 at hi
    rw [Blocks.mem_iff hs hhead hle hgt, leafContains, if_neg hi]
    change (l₁ ++ item :: l₂).getD (intsetBinsrchLeaf x _ true - 1) default = item at hget
    simp only [hget]
    split
    · rename_i hfirst
      simp [LeafItem.values, hfirst]
    · rename_i hfirst
      rw [hv item (by simp) x (by omega) hx, LeafItem.values, mem_cons,
        or_iff_right (Ne.symm hfirst)]

/-! ## The walk from the root -/

/-- The last entry whose key is not above `x`. -/
def Hits (x : ℕ) (l : List (ℕ × ℕ)) (e : ℕ × ℕ) : Prop :=
  ∃ l₁ l₂, l = l₁ ++ e :: l₂ ∧ e.1 ≤ x ∧ ∀ f ∈ l₂, x < f.1

namespace Tree

variable {e : ℕ × ℕ}

theorem entries_head (h : Tree s E m []) (hk : k + 1 < s.numLevels)
    (he : e ∈ E (k + 1)) : ((s.nodes e.2).entries.map Prod.fst).head? = some e.1 := by
  obtain ⟨entries, hn, hhead⟩ := h.internal k hk e he
  rw [hn, List.head?_map]
  exact hhead

theorem keys_eq (h : Tree s E m []) (hk : k + 1 < s.numLevels) :
    (E (k + 1)).flatMap (fun e => (s.nodes e.2).entries.map Prod.fst) = (E k).map Prod.fst := by
  have hl := h.links k hk
  rw [ite_self, append_nil] at hl
  rw [← hl, map_flatMap]

theorem keys_sorted (h : Tree s E m []) (hs : ((E 0).map Prod.fst).Pairwise (· < ·))
    (hk : k < s.numLevels) : ((E k).map Prod.fst).Pairwise (· < ·) := by
  induction k with
  | zero => exact hs
  | succ k ih =>
    have hkeys : ((E (k + 1)).map Prod.fst).Sublist _ :=
      Blocks.keys_sublist fun e he => h.entries_head hk he
    rw [h.keys_eq hk] at hkeys
    exact (ih (by omega)).sublist hkeys

theorem binsrchUint64_entries (x : ℕ) (entries : List (ℕ × ℕ)) :
    intsetBinsrchUint64 x (entries.map Prod.fst) true =
      binsrch (fun mid => goesRight x (entries.getD mid default).1 true) 0 entries.length := by
  rw [intsetBinsrchUint64, length_map]
  congr 1
  funext mid
  rw [show (0 : ℕ) = (default : ℕ × ℕ).1 from rfl, getD_map]

section

variable (h : Tree s E m []) (hs : ((E 0).map Prod.fst).Pairwise (· < ·))
variable {e : ℕ × ℕ}
include h hs

theorem entries_sorted (hk : k + 1 < s.numLevels) (he : e ∈ E (k + 1)) :
    ((s.nodes e.2).entries.map Prod.fst).Pairwise (· < ·) := by
  have hsorted := h.keys_sorted hs (Nat.lt_of_succ_lt hk)
  rw [← h.keys_eq hk, flatMap_def] at hsorted
  exact hsorted.sublist (sublist_flatten_of_mem
    (mem_map_of_mem (f := fun e => (s.nodes e.2).entries.map Prod.fst) he))

theorem descend_succ (hk : k + 1 < s.numLevels) (he : Hits x (E (k + 1)) e) :
    ∃ f, s.descend x (k + 1) e.2 = s.descend x k f.2 ∧ Hits x (E k) f := by
  obtain ⟨l₁, l₂, hE, hle, hgt⟩ := he
  have hhead := fun f hf => h.entries_head (e := f) hk hf
  have hsorted := h.keys_sorted hs (Nat.lt_of_succ_lt hk)
  rw [← h.keys_eq hk] at hsorted
  have hmem : e ∈ E (k + 1) := by simp [hE]
  rcases binsrch_key (h.entries_sorted hs hk hmem) x default with
    ⟨-, hall⟩ | ⟨hi, b₁, f, b₂, hsplit, hget, hfle, hfgt⟩
  · -- the key of the node is the key of its first entry
    have hfirst := mem_of_head? (hhead e hmem)
    obtain ⟨f, hf, hfe⟩ := mem_map.mp hfirst
    have := hall f hf
    omega
  · rw [← binsrchUint64_entries] at hi hget
    refine ⟨f, ?_, ?_⟩
    · simp only [IntegerSet.descend, if_neg hi, hget]
    · have hl := h.links k hk
      rw [ite_self, append_nil, hE, flatMap_append, flatMap_cons, hsplit] at hl
      refine ⟨l₁.flatMap (fun e => (s.nodes e.2).entries) ++ b₁,
        b₂ ++ l₂.flatMap fun e => (s.nodes e.2).entries, by simp [← hl], hfle, fun c hc => ?_⟩
      rcases mem_append.mp hc with hc | hc
      · exact hfgt c hc
      · obtain ⟨d, hd, hcd⟩ := mem_flatMap.mp hc
        have hdle : d.1 ≤ c.1 := Blocks.key_le hsorted hhead
          (show d ∈ E (k + 1) by simp [hE, hd]) (mem_map_of_mem hcd)
        exact (hgt d hd).trans_le hdle

/-- The walk ends at the last leaf whose key is not above `x`. -/
theorem descend (hk : k < s.numLevels) (he : Hits x (E k) e) :
    ∃ leaf, s.descend x k e.2 = some leaf.2 ∧ Hits x (E 0) leaf := by
  induction k generalizing e with
  | zero => exact ⟨e, rfl, he⟩
  | succ k ih =>
    obtain ⟨f, hf, hhits⟩ := h.descend_succ hs hk he
    obtain ⟨leaf, hleaf, hhits'⟩ := ih (by omega) hhits
    exact ⟨leaf, hf.trans hleaf, hhits'⟩

theorem root_le {r : ℕ × ℕ} (hr : E (s.numLevels - 1) = [r]) (hk : k < s.numLevels) (he : e ∈ E k) :
    r.1 ≤ e.1 := by
  obtain ⟨n, hn⟩ : ∃ n, s.numLevels = k + 1 + n := ⟨s.numLevels - (k + 1), by omega⟩
  induction n generalizing k e with
  | zero =>
    have hk' : k = s.numLevels - 1 := by omega
    rw [hk', hr, mem_singleton] at he
    exact he ▸ le_rfl
  | succ n ih =>
    have hk' : k + 1 < s.numLevels := by omega
    have hsorted := h.keys_sorted hs hk
    have hmem := mem_map_of_mem (f := Prod.fst) he
    rw [← h.keys_eq hk'] at hsorted hmem
    obtain ⟨f, hf, hef⟩ := mem_flatMap.mp hmem
    exact (ih hk' hf (by omega)).trans
      (Blocks.key_le hsorted (fun f hf => h.entries_head hk' hf) hf hef)

end

/-- The walk from the root and the search in the leaf. -/
def lookup (s : IntegerSet) (x : ℕ) : Bool :=
  match s.root with
  | none => false
  | some root =>
    match s.descend x (s.numLevels - 1) root with
    | none => false
    | some leaf => leafContains x (s.nodes leaf).items

/-- The values on the leaves. -/
def values (s : IntegerSet) (E : ℕ → List (ℕ × ℕ)) : List ℕ := (items s E).flatMap LeafItem.values

theorem values_eq : values s E = (E 0).flatMap fun e =>
    (s.nodes e.2).items.flatMap LeafItem.values := by
  rw [values, items, flatMap_assoc]

/-- The tree is in order, and no leaf is empty. -/
structure Ordered (s : IntegerSet) (E : ℕ → List (ℕ × ℕ)) : Prop where
  sorted : (values s E).Pairwise (· < ·)
  valid : ∀ item ∈ items s E, item.Valid
  last : ∀ e ∈ (E 0).getLast?, (s.nodes e.2).items ≠ []

theorem Ordered.items_ne_nil (ho : Ordered s E) (h : Tree s E m []) (he : e ∈ E 0) :
    (s.nodes e.2).items ≠ [] := by
  obtain ⟨es, le, hE, -, -⟩ := h.exists_last h.pos
  rw [hE, mem_append, mem_singleton] at he
  rcases he with he | rfl
  · have hfull := h.fullLeaf e (by rwa [hE, dropLast_concat])
    exact ne_nil_of_length_pos ((by decide : 0 < maxLeafItems).trans_le hfull)
  · exact ho.last e (by simp [hE])

theorem Ordered.leaf_head (ho : Ordered s E) (h : Tree s E m []) (he : e ∈ E 0) :
    ((s.nodes e.2).items.flatMap LeafItem.values).head? = some e.1 := by
  have hne := ho.items_ne_nil h he
  obtain ⟨items, next, hn, hhead⟩ := h.leaf e he
  rw [hn] at hne ⊢
  cases items with
  | nil => exact absurd rfl hne
  | cons item items =>
    rw [← hhead item rfl]
    rfl

theorem descend_none (h : Tree s E m []) (hs : ((E 0).map Prod.fst).Pairwise (· < ·))
    (hk : k + 1 < s.numLevels) (he : e ∈ E (k + 1)) (hgt : ∀ f ∈ E k, x < f.1) :
    s.descend x (k + 1) e.2 = none := by
  have hsub : ∀ f ∈ (s.nodes e.2).entries, f ∈ E k := by
    intro f hf
    have hl := h.links k hk
    rw [ite_self, append_nil] at hl
    exact hl ▸ mem_flatMap.mpr ⟨e, he, hf⟩
  have hblock := h.entries_sorted hs hk he
  rcases binsrch_key hblock x default with ⟨hi, -⟩ | ⟨-, b₁, f, b₂, hsplit, -, hfle, -⟩
  · rw [← binsrchUint64_entries] at hi
    simp [IntegerSet.descend, hi]
  · have := hgt f (hsub f (by simp [hsplit]))
    omega

theorem lookup_iff (h : Tree s E m []) (ho : Ordered s E) (hx : x < 2 ^ 64) :
    lookup s x = true ↔ x ∈ values s E := by
  have hsorted := ho.sorted
  rw [values_eq] at hsorted ⊢
  have hhead := fun e he => ho.leaf_head h (e := e) he
  have hs : ((E 0).map Prod.fst).Pairwise (· < ·) := hsorted.sublist (Blocks.keys_sublist hhead)
  obtain ⟨r, hroot, htop⟩ := h.root
  rw [ite_self] at htop
  have hpos := h.pos
  have hleaf : ∀ e ∈ E 0, leafContains x (s.nodes e.2).items = true ↔
      x ∈ (s.nodes e.2).items.flatMap LeafItem.values := by
    intro e he
    refine leafContains_iff ?_ (fun item hi => ho.valid item (mem_flatMap.mpr ⟨e, he, hi⟩)) hx
    exact hsorted.sublist (sublist_flatten_of_mem
      (mem_map_of_mem (f := fun e => (s.nodes e.2).items.flatMap LeafItem.values) he))
  rcases Nat.lt_or_ge x r.1 with hlt | hge
  · have hgt : ∀ k < s.numLevels, ∀ f ∈ E k, x < f.1 :=
      fun k hk f hf => hlt.trans_le (h.root_le hs htop hk hf)
    have hnot := Blocks.not_mem hsorted hhead (hgt 0 hpos)
    refine iff_of_false ?_ hnot
    have hr : r ∈ E (s.numLevels - 1) := by simp [htop]
    rcases Nat.eq_zero_or_pos (s.numLevels - 1) with h0 | h1
    · rw [h0] at hr
      simp only [lookup, hroot, h0, IntegerSet.descend]
      rw [hleaf r hr]
      exact fun hx => hnot (mem_flatMap.mpr ⟨r, hr, hx⟩)
    · obtain ⟨k, hk⟩ : ∃ k, s.numLevels - 1 = k + 1 := ⟨s.numLevels - 2, by omega⟩
      rw [hk] at hr
      simp [lookup, hroot, hk, h.descend_none hs (by omega) hr (hgt k (by omega))]
  · have hhits : Hits x (E (s.numLevels - 1)) r := ⟨[], [], htop, hge, nofun⟩
    obtain ⟨leaf, hd, l₁, l₂, hE, hle, hgt⟩ := h.descend hs (by omega) hhits
    simp only [lookup, hroot, hd]
    rw [hleaf leaf (by simp [hE]), hE, Blocks.mem_iff (hE ▸ hsorted) (hE ▸ hhead) hle hgt]

end Tree

end IntegerSet

end PostgreSieve
