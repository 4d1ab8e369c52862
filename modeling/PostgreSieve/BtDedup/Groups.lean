import Mathlib.Algebra.GroupWithZero.Nat
import Mathlib.Algebra.BigOperators.Group.List.Basic
import PostgreSieve.BtDedup.Basic

/-! # Groups of tuples

A pass is a division of the tuples of a page into groups, each of which becomes one tuple. What it
keeps and the space it needs can be told from the groups.
-/

namespace PostgreSieve.BtDedup

open List

variable {β ι : Type} {rel : Rel β ι} {blcksz : ℕ} {t : IndexTuple β} {ts : List (IndexTuple β)}

/-! ## Keys and entries -/

def image (rel : Rel β ι) (t : IndexTuple β) : List (Option ι) :=
  (List.range' 1 rel.nkeyatts).map (rel.getattr t.tInfo t.key)

variable (a b : IndexTuple β) (n : ℕ) (t : IndexTuple β) (g : Group β)

theorem keepNattsLoop_gt [DecidableEq ι] (attnum : ℕ) :
    keepNattsLoop rel a b n attnum ≥ attnum + n ↔
      (List.range' attnum n).map (rel.getattr a.tInfo a.key)
        = (List.range' attnum n).map (rel.getattr b.tInfo b.key) := by
  induction n generalizing attnum with
  | zero => simp [keepNattsLoop]
  | succ n ih =>
    rw [keepNattsLoop, List.range'_succ, map_cons, map_cons, List.cons.injEq]
    split_ifs with heq
    · rw [← ih, show attnum + (n + 1) = attnum + 1 + n by omega]
      simp only [heq, true_and]
    · simp only [heq, false_and, iff_false]
      omega

theorem keepNattsFast_gt [DecidableEq ι] :
    keepNattsFast rel a b > rel.nkeyatts ↔ image rel a = image rel b := by
  rw [image, image, ← keepNattsLoop_gt, keepNattsFast, gt_iff_lt, ge_iff_le, Nat.lt_iff_add_one_le,
    add_comm]

/-- What the tuple stands for in the index. -/
def entries (rel : Rel β ι) (t : IndexTuple β) : List (List (Option ι) × ItemPointer) :=
  t.htids.map fun tid => (image rel t, tid)

/-- The order of entries: by the key, and by the tuple identifier for equal keys. -/
def Before (rel : Rel β ι) (a b : List (Option ι) × ItemPointer) : Prop :=
  rel.keyLe a.1 b.1 ∧ (rel.keyLe b.1 a.1 → a.2 < b.2)

/-! ## Sizes -/

theorem maxAlign_maxAlign : maxAlign (maxAlign n) = maxAlign n := by
  unfold maxAlign
  omega

theorem le_maxAlign : n ≤ maxAlign n := by
  unfold maxAlign
  omega

theorem maxAlign_lt : maxAlign n < n + 8 := by
  unfold maxAlign
  omega

/-- The space of a tuple on a page, with its line pointer. -/
def used (t : IndexTuple β) : ℕ := maxAlign t.size + sizeOfItemIdData

def usedAll (ts : List (IndexTuple β)) : ℕ := (ts.map used).sum

theorem usedAll_append (ts us : List (IndexTuple β)) :
    usedAll (ts ++ us) = usedAll ts + usedAll us := by
  rw [usedAll, map_append, sum_append]
  rfl

theorem usedAll_cons (ts : List (IndexTuple β)) :
    usedAll (t :: ts) = used t + usedAll ts := sum_cons

/-- A leaf tuple as it is formed: the key is not empty and a posting list has two entries. -/
structure TupleOk (blcksz : ℕ) (t : IndexTuple β) : Prop where
  isPivot : t.isPivot = false
  key : t.key ≠ []
  aligned : maxAlign t.keysize = t.keysize
  posting : ∀ htids, t.tid = .posting htids → 2 ≤ htids.length
  valid : ∀ tid ∈ t.htids, tid.isValid
  size_le : t.size ≤ btMaxItemSize blcksz

theorem TupleOk.size_aligned (h : TupleOk blcksz t) : t.size = maxAlign t.size := by
  unfold IndexTuple.size
  split
  · exact h.aligned.symm
  · exact h.aligned.symm
  · exact (maxAlign_maxAlign _).symm

theorem TupleOk.keysize_ge (h : TupleOk blcksz t) : 16 ≤ t.keysize := by
  have hkey := length_pos_iff.2 h.key
  have haligned := h.aligned
  unfold maxAlign at haligned
  unfold IndexTuple.keysize at *
  omega

theorem TupleOk.htids_pos (h : TupleOk blcksz t) : 0 < t.htids.length := by
  unfold IndexTuple.htids
  split
  · exact Nat.one_pos
  · rename_i htids heq
    have := h.posting htids heq
    omega
  · rename_i tid heq
    have := h.isPivot
    simp [IndexTuple.isPivot, heq] at this

theorem keysize_add_htids_le :
    t.keysize + t.htids.length * sizeOfItemPointerData ≤ t.size + 6 := by
  unfold IndexTuple.size IndexTuple.htids
  cases t.tid with
  | plain tid => exact le_rfl
  | posting htids => exact (le_maxAlign _).trans (Nat.le_add_right _ _)
  | pivot tid => exact Nat.add_le_add_left (Nat.zero_le _) _

/-- A tuple takes more space than its identifiers do in the posting list of another one. -/
theorem TupleOk.used_ge (h : TupleOk blcksz t) :
    t.htids.length * sizeOfItemPointerData + 14 ≤ used t := by
  have hkey := h.keysize_ge
  have hsize := le_maxAlign t.size
  have hle := keysize_add_htids_le t
  unfold used sizeOfItemIdData
  omega

theorem usedAll_ge (h : ∀ t ∈ ts, TupleOk blcksz t) :
    (ts.flatMap IndexTuple.htids).length * sizeOfItemPointerData + 14 * ts.length ≤ usedAll ts := by
  induction ts with
  | nil => simp [usedAll]
  | cons t ts ih =>
    have ht := (h t mem_cons_self).used_ge
    have hts := ih fun t ht => h t (mem_cons_of_mem _ ht)
    rw [flatMap_cons, length_append, Nat.add_mul, usedAll_cons, length_cons]
    omega

/-! ## Merging -/

/-- Tuples that become one: a base tuple and those that are merged into it. -/
structure Group (β : Type) where
  base : IndexTuple β
  others : List (IndexTuple β)

def Group.members (g : Group β) : List (IndexTuple β) := g.base :: g.others

def Group.htids (g : Group β) : List ItemPointer := g.members.flatMap IndexTuple.htids

def Group.merge (g : Group β) : IndexTuple β :=
  match g.others with
  | [] => g.base
  | _ :: _ => { g.base with tid := .posting g.htids }

variable {g : Group β}

theorem merge_of_nil (h : g.others = []) : g.merge = g.base := by
  rw [Group.merge, h]

theorem merge_of_ne (h : g.others ≠ []) : g.merge = { g.base with tid := .posting g.htids } := by
  obtain ⟨t, ts, hothers⟩ := exists_cons_of_ne_nil h
  rw [Group.merge, hothers]

theorem size_merge (h : g.others ≠ []) :
    g.merge.size = maxAlign (g.base.keysize + g.htids.length * sizeOfItemPointerData) := by
  rw [merge_of_ne h]
  rfl

theorem used_merge_lt (h : ∀ t ∈ g.members, TupleOk blcksz t) (hothers : g.others ≠ []) :
    used g.merge < usedAll g.members := by
  have hbase := keysize_add_htids_le g.base
  have hsize := le_maxAlign g.base.size
  have hrest := usedAll_ge fun t ht => h t (mem_cons_of_mem _ ht)
  have hpos := length_pos_iff.2 hothers
  have hlt := maxAlign_lt (g.base.keysize + g.htids.length * sizeOfItemPointerData)
  have hlength : g.htids.length * sizeOfItemPointerData
      = g.base.htids.length * sizeOfItemPointerData +
        (g.others.flatMap IndexTuple.htids).length * sizeOfItemPointerData := by
    rw [Group.htids, Group.members, flatMap_cons, length_append, Nat.add_mul]
  rw [used, size_merge hothers, maxAlign_maxAlign, Group.members, usedAll_cons, used]
  omega

theorem used_merge_le (h : ∀ t ∈ g.members, TupleOk blcksz t) :
    used g.merge ≤ usedAll g.members := by
  by_cases hothers : g.others = []
  · rw [merge_of_nil hothers, Group.members, hothers, usedAll_cons]
    exact Nat.le_add_right _ _
  · exact (used_merge_lt h hothers).le

/-- The tuples of the group have the same key, and the merged tuple is not too large. -/
structure GroupOk (rel : Rel β ι) (maxpostingsize : ℕ) (g : Group β) : Prop where
  image : ∀ t ∈ g.others, image rel t = image rel g.base
  size_le : g.others ≠ [] → g.merge.size ≤ maxpostingsize

theorem GroupOk.mono {n n' : ℕ} (h : GroupOk rel n g) (hle : n ≤ n') : GroupOk rel n' g :=
  ⟨h.image, fun hne => (h.size_le hne).trans hle⟩

theorem image_merge : image rel g.merge = image rel g.base := by
  by_cases h : g.others = []
  · rw [merge_of_nil h]
  · rw [merge_of_ne h]
    rfl

theorem htids_merge : g.merge.htids = g.htids := by
  by_cases h : g.others = []
  · rw [merge_of_nil h, Group.htids, Group.members, h, flatMap_cons, flatMap_nil,
      append_nil]
  · rw [merge_of_ne h]
    rfl

theorem entries_merge {n : ℕ} (h : GroupOk rel n g) :
    entries rel g.merge = g.members.flatMap (entries rel) := by
  rw [entries, htids_merge, image_merge, Group.htids, map_flatMap]
  apply flatMap_congr
  intro t ht
  have himage : image rel t = image rel g.base := by
    rcases mem_cons.1 ht with rfl | ht
    · rfl
    · exact h.image t ht
  rw [entries, himage]

theorem GroupOk.pairwise {n : ℕ} (h : GroupOk rel n g)
    (hsorted : (g.members.flatMap (entries rel)).Pairwise (Before rel)) :
    g.htids.Pairwise (· < ·) := by
  rw [← entries_merge h, entries, pairwise_map, htids_merge] at hsorted
  exact hsorted.imp fun hbefore => hbefore.2 (rel.keyLe_refl _)

/-! ## Divisions of a page -/

variable {gs : List (Group β)}

/-- The intervals of the groups that are merged, from an offset on. -/
def intervalsOf (offnum : ℕ) : List (Group β) → List Interval
  | [] => []
  | g :: gs =>
    (if g.others = [] then [] else [⟨offnum, g.members.length⟩]) ++
      intervalsOf (offnum + g.members.length) gs

theorem intervalsOf_append (offnum : ℕ) (gs hs : List (Group β)) :
    intervalsOf offnum (gs ++ hs) = intervalsOf offnum gs ++
      intervalsOf (offnum + (gs.flatMap Group.members).length) hs := by
  induction gs generalizing offnum with
  | nil => rfl
  | cons g gs ih =>
    rw [cons_append, intervalsOf, intervalsOf, ih, append_assoc, flatMap_cons,
      length_append, add_assoc]

theorem usedAll_merge_le (h : ∀ t ∈ gs.flatMap Group.members, TupleOk blcksz t) :
    usedAll (gs.map Group.merge) ≤ usedAll (gs.flatMap Group.members) := by
  induction gs with
  | nil => exact le_rfl
  | cons g gs ih =>
    rw [flatMap_cons] at h ⊢
    have hg := used_merge_le fun t ht => h t (mem_append_left _ ht)
    have hgs := ih fun t ht => h t (mem_append_right _ ht)
    rw [map_cons, usedAll_cons, usedAll_append]
    omega

theorem entries_merge_all {n : ℕ} (h : ∀ g ∈ gs, GroupOk rel n g) :
    (gs.map Group.merge).flatMap (entries rel)
      = (gs.flatMap Group.members).flatMap (entries rel) := by
  induction gs with
  | nil => rfl
  | cons g gs ih =>
    rw [map_cons, flatMap_cons, flatMap_cons, flatMap_append,
      entries_merge (h g mem_cons_self), ih fun g hg => h g (mem_cons_of_mem _ hg)]

end PostgreSieve.BtDedup
