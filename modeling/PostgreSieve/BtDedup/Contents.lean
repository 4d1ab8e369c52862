import PostgreSieve.BtDedup.Pass
import PostgreSieve.BtDedup.Swap

/-! # Deduplication keeps the contents of the index -/

namespace PostgreSieve.BtDedup

open List

variable {β ι : Type} {rel : Rel β ι} {blcksz : ℕ} {page : Page β} {gs : List (Group β)}
  {g : Group β} {limit : ℕ}

/-! ## The page afterwards -/

theorem clearGarbage_of_not (btpo : BTPageOpaque) (h : btpo.hasGarbage = false) :
    btpo.clearGarbage = btpo := by
  have hzero : btpo.btpoFlags &&& btpHasGarbage = 0 := by
    simpa [BTPageOpaque.hasGarbage] using h
  have hflags : btpo.btpoFlags &&& ~~~btpHasGarbage = btpo.btpoFlags := by
    ext i hi
    have hbit := congrArg (fun x : BitVec 16 => x.getLsbD i) hzero
    simp only [BitVec.getLsbD_and] at hbit
    simp_all
  rw [BTPageOpaque.clearGarbage, hflags]

theorem btpo_clearPageGarbage (page : Page β) :
    (clearPageGarbage page).btpo = page.btpo.clearGarbage := by
  unfold clearPageGarbage
  split_ifs with h
  · rfl
  · exact (clearGarbage_of_not _ (by simpa using h)).symm

theorem items_clearPageGarbage (page : Page β) : (clearPageGarbage page).items = page.items := by
  unfold clearPageGarbage
  split_ifs <;> rfl

theorem upper_clearPageGarbage (page : Page β) : (clearPageGarbage page).upper = page.upper := by
  unfold clearPageGarbage
  split_ifs <;> rfl

theorem firstDataKey_clearPageGarbage (page : Page β) :
    (clearPageGarbage page).firstDataKey = page.firstDataKey := by
  unfold clearPageGarbage
  split_ifs <;> rfl

theorem PageOk.length_highKey (h : PageOk rel blcksz page) :
    page.highKey.length = page.firstDataKey - 1 := by
  rw [Page.highKey, length_map, length_take]
  unfold Page.firstDataKey
  split_ifs with hrightmost
  · exact Nat.zero_min _
  · have := length_pos_iff.2 (h.hikey (by simpa using hrightmost))
    omega

section

variable (h : PageOk rel blcksz page) (ts : List (IndexTuple β))

theorem tuples_rewritten (blcksz : ℕ) (page : Page β) :
    (rewritten blcksz page ts).items.map Item.tuple = page.highKey ++ ts := by
  rw [rewritten, items_clearPageGarbage, pageOf, map_map]
  exact map_id _

include h

theorem PageOk.highKey_rewritten : (rewritten blcksz page ts).highKey = page.highKey := by
  rw [Page.highKey, map_take, tuples_rewritten, rewritten, firstDataKey_clearPageGarbage]
  exact take_left' h.length_highKey

theorem PageOk.dataItems_rewritten : (rewritten blcksz page ts).dataItems = ts := by
  rw [Page.dataItems, map_drop, tuples_rewritten, rewritten, firstDataKey_clearPageGarbage]
  exact drop_left' h.length_highKey

theorem PageOk.rewritten (htuples : ∀ t ∈ ts, TupleOk blcksz t)
    (hsorted : (ts.flatMap (entries rel)).Pairwise (Before rel))
    (hfits : Fits blcksz (page.highKey ++ ts)) : PageOk rel blcksz (rewritten blcksz page ts) where
  hikey := by
    intro hrightmost hnil
    have hkey : page.highKey ≠ [] := by
      have hnext : page.btpo.rightmost = false := by
        rwa [BtDedup.rewritten, btpo_clearPageGarbage] at hrightmost
      have hlength := h.length_highKey
      rw [Page.firstDataKey, hnext] at hlength
      exact ne_nil_of_length_pos (by rw [hlength]; decide)
    have htuples := tuples_rewritten ts blcksz page
    rw [hnil, map_nil] at htuples
    exact hkey (append_eq_nil_iff.1 htuples.symm).1
  tuples := by rwa [h.dataItems_rewritten ts]
  sorted := by rwa [h.dataItems_rewritten ts]
  lower_le := by
    have hlength : (BtDedup.rewritten blcksz page ts).items.length
        = (page.highKey ++ ts).length := by
      rw [← tuples_rewritten ts blcksz page, length_map]
    rw [Fits, usedAll_eq] at hfits
    rw [Page.lower, hlength, BtDedup.rewritten, upper_clearPageGarbage, pageOf]
    dsimp only
    omega
  upper_le := by
    rw [Fits, usedAll_eq] at hfits
    rw [tuples_rewritten, BtDedup.rewritten, upper_clearPageGarbage, pageOf]
    dsimp only
    omega

end

theorem Mergeable.tupleOk (h : Mergeable rel blcksz limit g) (hlimit : limit ≤ btMaxItemSize blcksz) :
    TupleOk blcksz g.merge := by
  have hbase := h.tuples g.base mem_cons_self
  by_cases hothers : g.others = []
  · rwa [merge_of_nil hothers]
  · have hsize := (h.group.size_le hothers).trans hlimit
    rw [merge_of_ne hothers] at hsize ⊢
    refine ⟨rfl, hbase.key, hbase.aligned, ?_, ?_, hsize⟩
    · rintro htids ⟨⟩
      exact h.two_le hothers
    · intro tid htid
      obtain ⟨t, ht, htid⟩ := mem_flatMap.1 htid
      exact (h.tuples t ht).valid tid htid

section

variable (h : PageOk rel blcksz page) (hdata : gs.flatMap Group.members = page.dataItems)
include h hdata

theorem PageOk.mergeable (hgroups : ∀ g ∈ gs, GroupOk rel limit g) (hg : g ∈ gs) :
    Mergeable rel blcksz limit g := by
  obtain ⟨ds, es, rfl⟩ := append_of_mem hg
  have hok : DataOk rel blcksz page.highKey page.dataItems := ⟨h.tuples, h.sorted, h.fits⟩
  have hsplit : ds.flatMap Group.members ++ g.members ++ es.flatMap Group.members
      = page.dataItems := by
    rw [← hdata, flatMap_append, flatMap_cons, append_assoc]
  exact hok.mergeable hsplit (hgroups g hg)

theorem PageOk.merged (hgroups : ∀ g ∈ gs, GroupOk rel (maxPostingSize blcksz) g) :
    PageOk rel blcksz (BtDedup.rewritten blcksz page (gs.map Group.merge)) ∧
      usedAll (gs.map Group.merge) ≤ usedAll page.dataItems := by
  have hle : usedAll (gs.map Group.merge) ≤ usedAll page.dataItems := by
    rw [← hdata]
    exact usedAll_merge_le fun t ht => h.tuples t (hdata ▸ ht)
  refine ⟨h.rewritten _ ?_ ?_ (h.fits.of_le ?_), hle⟩
  · intro t ht
    obtain ⟨g, hg, rfl⟩ := mem_map.1 ht
    exact (h.mergeable hdata hgroups hg).tupleOk (maxPostingSize_le blcksz)
  · rw [entries_merge_all hgroups, hdata]
    exact h.sorted
  · rw [usedAll_append, usedAll_append]
    exact Nat.add_le_add_left hle _

end

theorem PageOk.exactFreeSpace_le (h : PageOk rel blcksz page) {ts : List (IndexTuple β)}
    (hle : usedAll ts ≤ usedAll page.dataItems) :
    page.exactFreeSpace ≤ (BtDedup.rewritten blcksz page ts).exactFreeSpace := by
  have hnew : (BtDedup.rewritten blcksz page ts).exactFreeSpace
      = specialOffset blcksz - (sizeOfPageHeaderData + usedAll (page.highKey ++ ts)) := by
    rw [BtDedup.rewritten, Page.exactFreeSpace, Page.lower, upper_clearPageGarbage,
      items_clearPageGarbage]
    exact exactFreeSpace_pageOf
  have hupper := h.upper_le
  have hused : usedAll (page.highKey ++ page.dataItems) = _ := usedAll_append _ _
  rw [page.highKey_append_dataItems, usedAll_eq, length_map] at hused
  rw [hnew, usedAll_append, Page.exactFreeSpace, Page.lower]
  omega

/-- A tuple of a division is one of the page or a new posting list within all limits. -/
theorem Mergeable.merge_cases (h : Mergeable rel blcksz (maxPostingSize blcksz) g) :
    g.merge = g.base ∨ ∃ htids, g.merge.tid = .posting htids ∧ postingValid htids ∧
      g.merge.size ≤ maxPostingSize blcksz ∧ g.merge.size ≤ indexSizeMask ∧
      htids.length ≤ btOffsetMask := by
  by_cases hothers : g.others = []
  · exact Or.inl (merge_of_nil hothers)
  · obtain ⟨-, -, -, hsize, -, hposting, -⟩ := h.postingAsserts (min_le_right _ _) hothers
    obtain ⟨hmask, -, hvalid⟩ := hposting (h.two_le hothers)
    exact Or.inr ⟨g.htids, by rw [merge_of_ne hothers], hvalid, h.group.size_le hothers, hsize, hmask⟩

/-- Deduplication keeps the contents of the index. A pass over a leaf page that is not empty does not
fail; the entries are the same in the same order, the high key is the same, and so is the special area
up to `BTP_HAS_GARBAGE`, which is cleared if something was merged; the page does not grow, and new
posting lists are within the limits. A split of a posting list gives a list of the same size and an
item that have all identifiers in order. -/
theorem dedup_keeps_contents [DecidableEq ι] (h : PageOk rel blcksz page) (hne : page.dataItems ≠ [])
    (newitem : IndexTuple β) (newitemsz : ℕ) (bottomupdedup : Bool) :
    (∃ page' intervals, dedupPass rel blcksz page newitem newitemsz bottomupdedup
        = some (page', intervals) ∧
      PageOk rel blcksz page' ∧
      page'.dataItems.flatMap (entries rel) = page.dataItems.flatMap (entries rel) ∧
      page'.highKey = page.highKey ∧
      page'.btpo = (if intervals = [] then page.btpo else page.btpo.clearGarbage) ∧
      usedAll (page'.items.map Item.tuple) ≤ usedAll (page.items.map Item.tuple) ∧
      page.exactFreeSpace ≤ page'.exactFreeSpace ∧
      ∀ t ∈ page'.dataItems, t ∈ page.dataItems ∨ ∃ htids, t.tid = .posting htids ∧
        postingValid htids ∧ t.size ≤ maxPostingSize blcksz ∧ t.size ≤ indexSizeMask ∧
        htids.length ≤ btOffsetMask) ∧
    ∀ (newitem oposting : IndexTuple β) (tid : ItemPointer) (htids : List ItemPointer),
      newitem.tid = .plain tid → oposting.tid = .posting htids → postingValid htids →
      tid.isValid → tid ∉ htids → (∃ t ∈ htids, t < tid) → (∃ t ∈ htids, tid < t) →
      ∃ nposting newitem', swapPosting newitem oposting (binsrchPosting tid htids)
          = some (nposting, newitem') ∧
        nposting.size = oposting.size ∧ nposting.key = oposting.key ∧ newitem'.key = newitem.key ∧
        (nposting.htids ++ newitem'.htids).Pairwise (· < ·) ∧
        (nposting.htids ++ newitem'.htids).Perm (tid :: htids) := by
  constructor
  · obtain ⟨gs, hdata, hgroups, hpass⟩ := pass_spec h hne newitem newitemsz bottomupdedup
    refine ⟨_, _, hpass, ?_⟩
    by_cases hnone : intervalsOf page.firstDataKey gs = []
    · rw [merged, if_pos hnone, if_pos hnone]
      exact ⟨h, rfl, rfl, rfl, le_rfl, le_rfl, fun t ht => Or.inl ht⟩
    · rw [merged, if_neg hnone, if_neg hnone]
      obtain ⟨hok, hle⟩ := h.merged hdata hgroups
      refine ⟨hok, ?_, h.highKey_rewritten _, btpo_clearPageGarbage _, ?_, h.exactFreeSpace_le hle, ?_⟩
      · rw [h.dataItems_rewritten, entries_merge_all hgroups, hdata]
      · rw [tuples_rewritten, ← page.highKey_append_dataItems, usedAll_append, usedAll_append]
        exact Nat.add_le_add_left hle _
      · intro t ht
        rw [h.dataItems_rewritten] at ht
        obtain ⟨g, hg, rfl⟩ := mem_map.1 ht
        refine (h.mergeable hdata hgroups hg).merge_cases.imp (fun hmerge => ?_) id
        rw [hmerge, ← hdata]
        exact mem_flatMap.2 ⟨g, hg, mem_cons_self⟩
  · intro newitem oposting tid htids hnewitem hoposting hposting hvalid hnew hlow hhigh
    exact swapPosting_spec hnewitem hoposting hposting hvalid hnew hlow hhigh

theorem dedup_keeps_contents_duplicates :
    duplicates.dataItems ≠ [] ∧ ∃ page' intervals,
      dedupPass plainRel 8192 duplicates (duplicate 3) 16 true = some (page', intervals) ∧
      page'.dataItems.flatMap (entries plainRel)
        = duplicates.dataItems.flatMap (entries plainRel) := by
  refine ⟨nofun, ?_⟩
  obtain ⟨⟨page', intervals, hpass, -, hentries, -⟩, -⟩ :=
    dedup_keeps_contents duplicates_ok nofun (duplicate 3) 16 true
  exact ⟨page', intervals, hpass, hentries⟩

def emptyLeaf : Page ℕ := ⟨8176, [], ⟨0, 0, 0, 1, 0⟩⟩

/-- The special area is not the same if `BTP_HAS_GARBAGE` was set, and there is no base tuple to
finish on an empty page. -/
theorem dedup_changes_special :
    (PageOk plainRel 8192 duplicates ∧
      dedupPass plainRel 8192 duplicates (duplicate 3) 16 true
        = some (duplicatesMerged, [⟨1, 2⟩]) ∧
      duplicatesMerged.btpo ≠ duplicates.btpo) ∧
    PageOk plainRel 8192 emptyLeaf ∧
      dedupPass plainRel 8192 emptyLeaf (duplicate 3) 16 true = none :=
  ⟨⟨duplicates_ok, duplicates_pass, by decide⟩,
    ⟨nofun, nofun, List.Pairwise.nil, by decide, by decide⟩, rfl⟩

end PostgreSieve.BtDedup
