import PostgreSieve.BtPivot.Basic
import PostgreSieve.Lists.Search

/-! # A truncated pivot tuple separates

Comparing the first attributes is an order for every number of them. The first attribute in which
`lastleft` and `firstright` differ is the last one that a pivot tuple keeps.
-/

namespace PostgreSieve.BtPivot

variable {α τ : Type} {index : Index α} {a b c : ℕ → Option α} {k n : ℕ}

/-! ## The order of the first attributes -/

instance (column : Column α) : Std.TransCmp column.cmp := column.cmp_trans

theorem Column.compare_swap (column : Column α) (x y : Option α) :
    column.compare x y = (column.compare y x).swap := by
  cases x with
  | none => cases y <;> cases hn : column.nullsFirst <;> simp [Column.compare, hn]
  | some x =>
    cases y with
    | none => cases hn : column.nullsFirst <;> simp [Column.compare, hn]
    | some y =>
      have hswap : column.cmp y x = (column.cmp x y).swap := Std.OrientedCmp.eq_swap
      cases hd : column.desc <;> simp [Column.compare, hd, hswap]

theorem Column.compare_isLE_trans (column : Column α) {x y z : Option α}
    (hxy : (column.compare x y).isLE) (hyz : (column.compare y z).isLE) :
    (column.compare x z).isLE := by
  cases hn : column.nullsFirst <;> cases hd : column.desc <;>
    cases x <;> cases y <;> cases z <;> simp [Column.compare, hn, hd] at hxy hyz ⊢
  · exact Std.TransCmp.isGE_trans hyz hxy
  · exact Std.TransCmp.isLE_trans hyz hxy
  · exact Std.TransCmp.isGE_trans hyz hxy
  · exact Std.TransCmp.isLE_trans hyz hxy

instance (column : Column α) : Std.TransCmp column.compare where
  eq_swap := column.compare_swap _ _
  isLE_trans := column.compare_isLE_trans

instance : Std.TransCmp (index.compareAtts n) := by
  induction n with
  | zero => exact { eq_swap := rfl, isLE_trans := fun _ _ => rfl }
  | succ n ih =>
    have hcolumn : Std.TransCmp fun a b : ℕ → Option α =>
        (index.columns n).compare (a n) (b n) :=
      { eq_swap := Std.OrientedCmp.eq_swap, isLE_trans := Std.TransCmp.isLE_trans }
    exact inferInstanceAs (Std.TransCmp (compareLex (index.compareAtts n) _))

theorem compareAtts_of_ne_eq (hkn : k ≤ n) (hne : index.compareAtts k a b ≠ .eq) :
    index.compareAtts n a b = index.compareAtts k a b := by
  induction hkn with
  | refl => rfl
  | step _ ih =>
    rw [Index.compareAtts, ih]
    cases hk : index.compareAtts k a b with
    | eq => exact absurd hk hne
    | lt => rfl
    | gt => rfl

theorem isLE_compareAtts (hkn : k ≤ n) (hle : (index.compareAtts n a b).isLE) :
    (index.compareAtts k a b).isLE := by
  cases hk : index.compareAtts k a b with
  | lt => rfl
  | eq => rfl
  | gt =>
    rw [compareAtts_of_ne_eq hkn (by simp [hk]), hk] at hle
    exact hle

/-! ## The attributes that a pivot tuple keeps -/

theorem Column.compare_some_eq (column : Column α) (x y : α) :
    column.compare (some x) (some y) = .eq ↔ column.cmp x y = .eq := by
  rw [Std.OrientedCmp.eq_comm (b := y)]
  cases hd : column.desc <;> simp [Column.compare, hd]

theorem Index.keepNattsFrom_succ (index : Index α) (a b : ℕ → Option α) (n i : ℕ) :
    index.keepNattsFrom a b (n + 1) i =
      if (index.columns i).compare (a i) (b i) = .eq then index.keepNattsFrom a b n (i + 1)
      else i + 1 := by
  rw [Index.keepNattsFrom]
  cases ha : a i <;> cases hb : b i
  · simp [Column.compare]
  · cases hn : (index.columns i).nullsFirst <;> simp [Column.compare, hn]
  · cases hn : (index.columns i).nullsFirst <;> simp [Column.compare, hn]
  · simp only [Column.compare_some_eq, ne_eq, ite_not]

/-- The number `m` of attributes to keep when `n` attributes are compared. -/
structure Keeps (index : Index α) (a b : ℕ → Option α) (n m : ℕ) : Prop where
  pos : 0 < m
  le : m ≤ n + 1
  equal : index.compareAtts (m - 1) a b = .eq
  differ : m ≤ n → index.compareAtts m a b ≠ .eq

theorem keeps_keepNattsFrom (n i : ℕ) (heq : index.compareAtts i a b = .eq) :
    Keeps index a b (i + n) (index.keepNattsFrom a b n i) := by
  induction n generalizing i with
  | zero =>
    rw [Index.keepNattsFrom]
    exact ⟨i.succ_pos, le_rfl, heq, fun h => absurd h (by omega)⟩
  | succ n ih =>
    have hsucc : index.compareAtts (i + 1) a b = (index.columns i).compare (a i) (b i) := by
      rw [Index.compareAtts, heq]
      rfl
    rw [Index.keepNattsFrom_succ]
    split_ifs with hc
    · rw [show i + (n + 1) = i + 1 + n by omega]
      exact ih (i + 1) (hsucc.trans hc)
    · exact ⟨i.succ_pos, by omega, heq, fun _ => hsucc ▸ hc⟩

/-! ## Leaf tuples around a split point -/

variable [LinearOrder τ]

/-- The order of a leaf page: by key, then by heap TID. -/
instance : LT (LeafTuple index τ) where
  lt t u :=
    index.compareAtts index.nkeyatts t.values u.values = .lt ∨
      index.compareAtts index.nkeyatts t.values u.values = .eq ∧ t.maxHeapTid < u.heapTid

instance : LE (LeafTuple index τ) where
  le t u := t = u ∨ t < u

variable {lastleft firstright t u : LeafTuple index τ}

theorem LeafTuple.isLE_of_lt (h : t < u) (hk : k ≤ index.nkeyatts) :
    (index.compareAtts k t.values u.values).isLE := by
  apply isLE_compareAtts hk
  rcases h with h | ⟨h, -⟩ <;> rw [h] <;> rfl

theorem LeafTuple.isLE_of_le (h : t ≤ u) (hk : k ≤ index.nkeyatts) :
    (index.compareAtts k t.values u.values).isLE := by
  rcases h with rfl | h
  · exact Std.ReflCmp.isLE_rfl
  · exact isLE_of_lt h hk

theorem isLE_firstright (h : lastleft < firstright) (ht : t ≤ lastleft) (hk : k ≤ index.nkeyatts) :
    (index.compareAtts k t.values firstright.values).isLE :=
  Std.TransCmp.isLE_trans (LeafTuple.isLE_of_le ht hk) (LeafTuple.isLE_of_lt h hk)

theorem keeps_keepNatts (lastleft firstright : LeafTuple index τ) :
    Keeps index lastleft.values firstright.values index.nkeyatts (keepNatts lastleft firstright) := by
  have hkeeps : Keeps index lastleft.values firstright.values (0 + index.nkeyatts)
      (keepNatts lastleft firstright) := keeps_keepNattsFrom index.nkeyatts 0 rfl
  rwa [Nat.zero_add] at hkeeps

/-- The attributes of a truncated pivot tuple tell the left side from the right side. -/
theorem lt_firstright (h : lastleft < firstright) (ht : t ≤ lastleft)
    (hkeep : keepNatts lastleft firstright ≤ index.nkeyatts) :
    index.compareAtts (keepNatts lastleft firstright) t.values firstright.values = .lt := by
  have hle := Ordering.isLE_iff_eq_lt_or_eq_eq.mp (LeafTuple.isLE_of_lt h hkeep)
  have hlt := hle.resolve_right ((keeps_keepNatts lastleft firstright).differ hkeep)
  exact Std.TransCmp.lt_of_isLE_of_lt (LeafTuple.isLE_of_le ht hkeep) hlt

/-- When all key attributes are kept, heap TIDs tell the two sides apart. -/
theorem eq_of_keepNatts_gt (hkeep : index.nkeyatts < keepNatts lastleft firstright) :
    index.compareAtts index.nkeyatts lastleft.values firstright.values = .eq := by
  have hkeeps := keeps_keepNatts lastleft firstright
  have hm : keepNatts lastleft firstright - 1 = index.nkeyatts := by
    have := hkeeps.le
    omega
  exact hm ▸ hkeeps.equal

/-! ## The pivot tuple -/

theorem btTruncate_values (lastleft firstright : LeafTuple index τ) :
    (btTruncate lastleft firstright).values = firstright.values := by
  simp only [btTruncate, truncatedCopy, indexTruncateTuple]
  split_ifs <;> rfl

theorem btTruncate_of_le (hkeep : keepNatts lastleft firstright ≤ index.nkeyatts) :
    (btTruncate lastleft firstright).natts = keepNatts lastleft firstright ∧
      (btTruncate lastleft firstright).heapTid = none := by
  simp [btTruncate, hkeep]

theorem btTruncate_of_gt (hkeep : index.nkeyatts < keepNatts lastleft firstright) :
    (btTruncate lastleft firstright).natts = index.nkeyatts ∧
      (btTruncate lastleft firstright).heapTid = some lastleft.maxHeapTid ∧
      (btTruncate lastleft firstright).posting = false := by
  simp [btTruncate, hkeep.not_ge]

/-! ## Insertion keys with a heap TID -/

variable {tid : τ}

theorem btCompare_btTruncate_of_le (h : lastleft < firstright) (ht : t ≤ lastleft)
    (htid : tid ≤ t.maxHeapTid) :
    btCompare index (t.scanInsert tid) (btTruncate lastleft firstright) ≠ .gt := by
  rcases le_or_gt (keepNatts lastleft firstright) index.nkeyatts with hkeep | hkeep
  · obtain ⟨hnatts, -⟩ := btTruncate_of_le hkeep
    simp [btCompare, LeafTuple.scanInsert, hnatts, btTruncate_values, min_eq_left hkeep,
      lt_firstright h ht hkeep]
  · obtain ⟨hnatts, hheap, hposting⟩ := btTruncate_of_gt hkeep
    simp only [btCompare, LeafTuple.scanInsert, hnatts, hheap, hposting, btTruncate_values,
      min_self]
    have hle := isLE_firstright h ht le_rfl
    cases hc : index.compareAtts index.nkeyatts t.values firstright.values with
    | lt => simp
    | gt => simp [hc] at hle
    | eq =>
      -- with equal keys, all heap TIDs on the left are at most that of the pivot tuple
      have hmax : tid ≤ lastleft.maxHeapTid := by
        rcases ht with rfl | ht | ⟨-, ht⟩
        · exact htid
        · have := Std.TransCmp.lt_of_lt_of_eq ht (eq_of_keepNatts_gt hkeep)
          simp [hc] at this
        · exact htid.trans (ht.le.trans lastleft.heapTid_le)
      simpa [compare_gt_iff_gt] using hmax

theorem btCompare_btTruncate_of_ge (h : lastleft < firstright) (ht : firstright ≤ t)
    (htid : t.heapTid ≤ tid) :
    btCompare index (t.scanInsert tid) (btTruncate lastleft firstright) = .gt := by
  have hge : ∀ {k}, k ≤ index.nkeyatts →
      (index.compareAtts k t.values firstright.values).isGE := fun hk =>
    Std.OrientedCmp.isGE_of_isLE (LeafTuple.isLE_of_le ht hk)
  rcases le_or_gt (keepNatts lastleft firstright) index.nkeyatts with hkeep | hkeep
  · obtain ⟨hnatts, hheap⟩ := btTruncate_of_le hkeep
    have hge := hge hkeep
    cases hc : index.compareAtts (keepNatts lastleft firstright) t.values firstright.values with
    | lt => simp [hc] at hge
    | eq | gt =>
      simp [btCompare, LeafTuple.scanInsert, hnatts, hheap, btTruncate_values, min_eq_left hkeep,
        hc]
  · obtain ⟨hnatts, hheap, hposting⟩ := btTruncate_of_gt hkeep
    have hge := hge le_rfl
    simp only [btCompare, LeafTuple.scanInsert, hnatts, hheap, hposting, btTruncate_values,
      min_self]
    cases hc : index.compareAtts index.nkeyatts t.values firstright.values with
    | lt => simp [hc] at hge
    | gt => simp
    | eq =>
      have hfirst : firstright.heapTid ≤ tid := by
        rcases ht with rfl | ht | ⟨-, ht⟩
        · exact htid
        · simp [Std.OrientedCmp.gt_iff_lt.2 ht] at hc
        · exact (firstright.heapTid_le.trans ht.le).trans htid
      have hlast : lastleft.maxHeapTid < firstright.heapTid := by
        rcases h with h | ⟨-, h⟩
        · simp [eq_of_keepNatts_gt hkeep] at h
        · exact h
      simpa [compare_gt_iff_gt] using hlast.trans_le hfirst

/-! ## Scan keys on a prefix of the columns -/

variable {key : ScanInsert α τ}
variable {itup : IndexTuple α τ} {values : ℕ → Option α}

theorem btCompare_leaf (hscan : key.scantid = none) (hkeysz : key.keysz ≤ index.nkeyatts) :
    btCompare index key t.toIndexTuple
      = index.compareAtts key.keysz key.arguments t.values := by
  have hle := hkeysz.trans index.nkeyatts_le
  cases hc : index.compareAtts key.keysz key.arguments t.values <;>
    simp [btCompare, LeafTuple.toIndexTuple, hscan, min_eq_right hle, hle.not_gt, hc]

theorem btCompare_of_natts_lt (hlt : itup.natts < key.keysz) :
    btCompare index key itup
      = (index.compareAtts itup.natts key.arguments itup.values).then .gt := by
  simp [btCompare, min_eq_left hlt.le, hlt]

theorem btCompare_of_keysz_le (hscan : key.scantid = none) (hle : key.keysz ≤ itup.natts) :
    btCompare index key itup
      = (index.compareAtts key.keysz key.arguments itup.values).then
          (if !key.backward && key.keysz = itup.natts && itup.heapTid = none then .gt
            else .eq) := by
  simp [btCompare, min_eq_right hle, hle.not_gt, hscan]

theorem lt_btTruncate (h : lastleft < firstright) (ht : t ≤ lastleft)
    (htrunc : (btTruncate lastleft firstright).heapTid = none ∨
      (btTruncate lastleft firstright).natts < index.nkeyatts) :
    index.compareAtts (btTruncate lastleft firstright).natts t.values firstright.values = .lt := by
  rcases le_or_gt (keepNatts lastleft firstright) index.nkeyatts with hkeep | hkeep
  · rw [(btTruncate_of_le hkeep).1]
    exact lt_firstright h ht hkeep
  · obtain ⟨hnatts, hheap, -⟩ := btTruncate_of_gt hkeep
    simp [hnatts, hheap] at htrunc

/-- A scan that goes to the right of a pivot tuple leaves only tuples before its key on the left. -/
theorem passes_of_le (h : lastleft < firstright) (hscan : key.scantid = none)
    (hkeysz : key.keysz ≤ index.nkeyatts)
    (hpasses : key.passes index (btTruncate lastleft firstright)) (ht : t ≤ lastleft) :
    key.passes index t.toIndexTuple := by
  simp only [ScanInsert.passes, btCompare_leaf hscan hkeysz] at hpasses ⊢
  rcases le_or_gt key.keysz (btTruncate lastleft firstright).natts with hle | hgt
  · rw [btCompare_of_keysz_le hscan hle, btTruncate_values] at hpasses
    have hge := Std.OrientedCmp.isGE_of_isLE (isLE_firstright h ht hkeysz)
    cases hc : index.compareAtts key.keysz key.arguments firstright.values with
    | lt => simp [hc] at hpasses
    | gt => simp [Std.TransCmp.gt_of_gt_of_isGE hc hge]
    | eq =>
      rw [Std.TransCmp.congr_left hc]
      cases hnext : key.nextkey with
      | true => cases hr : index.compareAtts key.keysz firstright.values t.values <;> simp_all
      | false =>
        -- only a truncated pivot tuple with just the attributes of the key is before an equal key
        obtain ⟨-, hnatts, hheap⟩ : key.backward = false ∧
            key.keysz = (btTruncate lastleft firstright).natts ∧
            (btTruncate lastleft firstright).heapTid = none := by
          simpa [hc, hnext] using hpasses
        have hlt := lt_btTruncate h ht (.inl hheap)
        rw [← hnatts] at hlt
        simp [Std.OrientedCmp.gt_iff_lt.2 hlt]
  · rw [btCompare_of_natts_lt hgt, btTruncate_values] at hpasses
    have hlt := lt_btTruncate h ht (.inr (hgt.trans_le hkeysz))
    have hge : (index.compareAtts (btTruncate lastleft firstright).natts key.arguments
        firstright.values).isGE := by
      cases hc : index.compareAtts (btTruncate lastleft firstright).natts key.arguments
        firstright.values <;> simp_all
    have hgt' := Std.TransCmp.gt_of_isGE_of_gt hge (Std.OrientedCmp.gt_iff_lt.2 hlt)
    simp [compareAtts_of_ne_eq hgt.le, hgt']

/-- A scan that goes to the left of a pivot tuple leaves no tuple before its key on the right. -/
theorem not_passes_of_ge (hscan : key.scantid = none) (hkeysz : key.keysz ≤ index.nkeyatts)
    (hpasses : key.passes index (btTruncate lastleft firstright) = false) (ht : firstright ≤ t) :
    key.passes index t.toIndexTuple = false := by
  simp only [ScanInsert.passes, btCompare_leaf hscan hkeysz] at hpasses ⊢
  rcases le_or_gt key.keysz (btTruncate lastleft firstright).natts with hle | hgt
  · rw [btCompare_of_keysz_le hscan hle, btTruncate_values] at hpasses
    have hright := LeafTuple.isLE_of_le ht hkeysz
    cases hc : index.compareAtts key.keysz key.arguments firstright.values with
    | lt => simp [Std.TransCmp.lt_of_lt_of_isLE hc hright]
    | gt => simp [hc] at hpasses
    | eq =>
      rw [Std.TransCmp.congr_left hc]
      cases hnext : key.nextkey with
      | true => split_ifs at hpasses <;> simp_all
      | false => cases hr : index.compareAtts key.keysz firstright.values t.values <;> simp_all
  · rw [btCompare_of_natts_lt hgt, btTruncate_values] at hpasses
    have hright := LeafTuple.isLE_of_le ht (hgt.le.trans hkeysz)
    have hlt : index.compareAtts (btTruncate lastleft firstright).natts key.arguments
        firstright.values = .lt := by
      cases hc : index.compareAtts (btTruncate lastleft firstright).natts key.arguments
        firstright.values <;> simp_all
    simp [compareAtts_of_ne_eq hgt.le, Std.TransCmp.lt_of_lt_of_isLE hlt hright]

/-! ## The size -/

theorem le_alignUp {x m : ℕ} (hx : 0 < x) : m ≤ alignUp x m := by
  have := Nat.div_add_mod (m + (x - 1)) x
  have := Nat.mod_lt (m + (x - 1)) hx
  rw [alignUp, Nat.mul_comm]
  omega

theorem maxAlign_mono {m m' : ℕ} (h : m ≤ m') : maxAlign m ≤ maxAlign m' := by
  simp only [maxAlign, alignUp]
  omega

theorem maxAlign_maxAlign (m : ℕ) : maxAlign (maxAlign m) = maxAlign m := by
  simp only [maxAlign, alignUp]
  omega

theorem dataSize_mono (h : k ≤ n) :
    index.dataSize values k ≤ index.dataSize values n := by
  induction h with
  | refl => exact le_rfl
  | @step n _ ih =>
    apply ih.trans
    rw [Index.dataSize]
    cases values n with
    | none => exact le_rfl
    | some datum =>
      exact (le_alignUp ((index.columns n).alignBy_pos datum)).trans (Nat.le_add_right _ _)

theorem formSize_mono (h : k ≤ n) :
    index.formSize values k ≤ index.formSize values n := by
  apply maxAlign_mono (Nat.add_le_add _ (dataSize_mono h))
  by_cases hnull : (List.range k).any fun i => (values i).isNone
  · have hnull' : (List.range n).any fun i => (values i).isNone := by
      simp only [List.any_eq_true, List.mem_range] at hnull ⊢
      obtain ⟨i, hi, hi'⟩ := hnull
      exact ⟨i, hi.trans_le h, hi'⟩
    simp [hnull, hnull']
  · simp only [hnull, dataOffset, Bool.false_eq_true, if_false]
    split_ifs <;> decide

theorem maxAlign_formSize :
    maxAlign (index.formSize values n) = index.formSize values n :=
  maxAlign_maxAlign _

theorem size_truncatedCopy (hk : k ≤ index.natts) :
    (truncatedCopy t k).size ≤ index.formSize t.values index.natts := by
  by_cases hnatts : k = index.natts
  · cases hposting : t.posting with
    | false =>
      simp [truncatedCopy, indexTruncateTuple, LeafTuple.toIndexTuple, hnatts, hposting,
        t.plain_size hposting]
    | true =>
      simp [truncatedCopy, indexTruncateTuple, LeafTuple.toIndexTuple, hnatts, hposting,
        t.posting_offset hposting, maxAlign_formSize]
  · simpa [truncatedCopy, indexTruncateTuple, hnatts] using formSize_mono hk

theorem size_btTruncate (lastleft firstright : LeafTuple index τ) :
    (btTruncate lastleft firstright).size ≤
      index.formSize firstright.values index.natts + maxAlign sizeofItemPointerData := by
  have hk : min (keepNatts lastleft firstright) index.nkeyatts ≤ index.natts :=
    (min_le_right _ _).trans index.nkeyatts_le
  have hsize := size_truncatedCopy (t := firstright) hk
  rw [btTruncate]
  split_ifs
  · exact hsize.trans (Nat.le_add_right _ _)
  · have haligned := maxAlign_mono hsize
    rw [maxAlign_formSize] at haligned
    exact Nat.add_le_add_right haligned _

/-! ## The binary search -/

theorem binsrchLoop_eq (test : ℕ → Bool) (low high : ℕ) :
    binsrchLoop test low high = PostgreSieve.binsrch test low high := by
  fun_induction binsrchLoop test low high with
  | case1 low high hlt mid hmid ih =>
    rw [PostgreSieve.binsrch, if_pos hlt, ih]
    exact (if_pos hmid).symm
  | case2 low high hlt mid hmid ih =>
    rw [PostgreSieve.binsrch, if_pos hlt, ih]
    exact (if_neg hmid).symm
  | case3 low high hlt => rw [PostgreSieve.binsrch, if_neg hlt]

/-- The search goes to the child between two pivot tuples, of which the left one passes the test and
the right one does not. -/
theorem binsrch_spec (index : Index α) (key : ScanInsert α τ) (page : ℕ → IndexTuple α τ)
    {firstDataKey maxOffset : ℕ} (h : firstDataKey ≤ maxOffset) :
    let slot := binsrch index key page firstDataKey maxOffset
    (firstDataKey < slot → key.passes index (page slot)) ∧
      (slot < maxOffset → key.passes index (page (slot + 1)) = false) := by
  obtain ⟨hlow, -, hpasses, hfails⟩ := PostgreSieve.binsrch_spec
    (fun offnum => offnum = firstDataKey || key.passes index (page offnum))
    (show firstDataKey ≤ maxOffset + 1 by omega)
  rw [binsrch, binsrchLoop_eq]
  generalize PostgreSieve.binsrch _ firstDataKey (maxOffset + 1) = low at *
  have hfirst : firstDataKey < low := by
    rcases hlow.eq_or_lt with rfl | hlt
    · simpa using hfails (by omega)
    · exact hlt
  constructor
  · intro hslot
    simpa [hslot.ne'] using hpasses hfirst
  · intro hslot
    have hfails := hfails (by omega)
    rw [Nat.sub_add_cancel (by omega)]
    simp only [Bool.or_eq_false_iff] at hfails
    exact hfails.2

/-! ## The result -/

/-- A pivot tuple separates the two sides of the split for insertions, and for searches by a prefix
of the columns in both directions. A tuple that a scan is to start from is the first that does not
pass the test of `_bt_binsrch`, or the last that does. -/
theorem btTruncate_separates (lastleft firstright : LeafTuple index τ) (h : lastleft < firstright) :
    (∀ t ≤ lastleft, ∀ tid, t.heapTid ≤ tid → tid ≤ t.maxHeapTid →
      btCompare index (t.scanInsert tid) (btTruncate lastleft firstright) ≠ .gt) ∧
    (∀ t, firstright ≤ t → ∀ tid, t.heapTid ≤ tid → tid ≤ t.maxHeapTid →
      btCompare index (t.scanInsert tid) (btTruncate lastleft firstright) = .gt) ∧
    (∀ key : ScanInsert α τ, key.scantid = none → key.keysz ≤ index.nkeyatts →
      (key.passes index (btTruncate lastleft firstright) = true →
        ∀ t ≤ lastleft, key.passes index t.toIndexTuple = true) ∧
      (key.passes index (btTruncate lastleft firstright) = false →
        ∀ t, firstright ≤ t → key.passes index t.toIndexTuple = false) ∧
      ∀ (page : ℕ → IndexTuple α τ) (firstDataKey maxOffset offnum : ℕ),
        firstDataKey < offnum → offnum ≤ maxOffset →
        page offnum = btTruncate lastleft firstright →
          (binsrch index key page firstDataKey maxOffset = offnum →
            key.passes index (btTruncate lastleft firstright) = true) ∧
          (binsrch index key page firstDataKey maxOffset + 1 = offnum →
            key.passes index (btTruncate lastleft firstright) = false)) ∧
    (btTruncate lastleft firstright).size ≤
      index.formSize firstright.values index.natts + maxAlign sizeofItemPointerData := by
  refine ⟨fun t ht tid _ htid => btCompare_btTruncate_of_le h ht htid,
    fun t ht tid htid _ => btCompare_btTruncate_of_ge h ht htid, ?_,
    size_btTruncate lastleft firstright⟩
  intro key hscan hkeysz
  refine ⟨fun hpasses t ht => passes_of_le h hscan hkeysz hpasses ht,
    fun hpasses t ht => not_passes_of_ge hscan hkeysz hpasses ht, ?_⟩
  intro page firstDataKey maxOffset offnum hfirst hmax hpage
  obtain ⟨hpasses, hfails⟩ := binsrch_spec index key page (hfirst.le.trans hmax)
  constructor
  · rintro rfl
    exact hpage ▸ hpasses hfirst
  · rintro rfl
    exact hpage ▸ hfails hmax

/-- An index on one column of numbers of four bytes. -/
def numberIndex : Index ℕ where
  columns := fun _ =>
    ⟨compare, inferInstance, false, false, fun _ => 4, fun _ => by omega, fun _ => 4⟩
  nkeyatts := 1
  natts := 1
  nkeyatts_pos := by omega
  nkeyatts_le := le_rfl

def numberTuple (number tid : ℕ) : LeafTuple numberIndex ℕ where
  values := fun _ => some number
  heapTid := tid
  maxHeapTid := tid
  heapTid_le := le_rfl
  posting := false
  size := numberIndex.formSize (fun _ => some number) 1
  postingOffset := 0
  plain_heapTid := fun _ => rfl
  plain_size := fun _ => rfl
  posting_offset := nofun
  posting_natts := nofun

theorem btTruncate_separates_numbers :
    numberTuple 5 1 < numberTuple 5 2 ∧
      btCompare numberIndex ((numberTuple 5 1).scanInsert 1)
        (btTruncate (numberTuple 5 1) (numberTuple 5 2)) ≠ .gt :=
  have h : numberTuple 5 1 < numberTuple 5 2 := .inr ⟨by decide, by decide⟩
  ⟨h, (btTruncate_separates _ _ h).1 _ (.inl rfl) 1 le_rfl le_rfl⟩

end PostgreSieve.BtPivot
