import PostgreSieve.BtDedup.Pending

/-! # The deduplication pass

The loop divides the tuples of the page into groups that can be merged.
-/

namespace PostgreSieve.BtDedup

open List

variable {β ι : Type} {rel : Rel β ι} {blcksz : ℕ} {page : Page β}
  {t : IndexTuple β} {hikey data rest : List (IndexTuple β)} {btpo : BTPageOpaque}
  {ds : List (Group β)} {g : Group β} {l : Loop β} {minoff limit newitemsz : ℕ}

/-! ## Pages -/

/-- The high key, if there is one. -/
def Page.highKey (page : Page β) : List (IndexTuple β) :=
  (page.items.take (page.firstDataKey - 1)).map Item.tuple

def Page.dataItems (page : Page β) : List (IndexTuple β) :=
  (page.items.drop (page.firstDataKey - 1)).map Item.tuple

/-- A leaf page: its tuples are in the order of the index, and they fit. -/
structure PageOk (rel : Rel β ι) (blcksz : ℕ) (page : Page β) : Prop where
  hikey : page.btpo.rightmost = false → page.items ≠ []
  tuples : ∀ t ∈ page.dataItems, TupleOk blcksz t
  sorted : (page.dataItems.flatMap (entries rel)).Pairwise (Before rel)
  lower_le : page.lower ≤ page.upper
  upper_le : page.upper + alignedSizes (page.items.map Item.tuple) ≤ specialOffset blcksz

theorem Page.highKey_append_dataItems (page : Page β) :
    page.highKey ++ page.dataItems = page.items.map Item.tuple := by
  rw [Page.highKey, Page.dataItems, ← map_append, take_append_drop]

theorem PageOk.fits (h : PageOk rel blcksz page) : Fits blcksz (page.highKey ++ page.dataItems) := by
  have hlower := h.lower_le
  have hupper := h.upper_le
  rw [page.highKey_append_dataItems, Fits, usedAll_eq, length_map]
  unfold Page.lower at hlower
  omega

theorem copyHighKey_eq (h : PageOk rel blcksz page) :
    copyHighKey blcksz page = some (pageOf blcksz page.btpo page.highKey) := by
  unfold copyHighKey
  split_ifs with hrightmost
  · simp [Page.highKey, Page.firstDataKey, hrightmost, pageOf, alignedSizes,
      pageGetTempPageCopySpecial]
  · rw [Bool.not_eq_true] at hrightmost
    obtain ⟨item, items, hitems⟩ := exists_cons_of_ne_nil (h.hikey hrightmost)
    have hkey : page.highKey = [item.tuple] := by
      simp [Page.highKey, Page.firstDataKey, hrightmost, hitems]
    have hfits : Fits blcksz ([] ++ [item.tuple]) := by
      apply h.fits.of_le
      rw [hkey, usedAll_append [item.tuple]]
      exact Nat.le_add_right _ _
    have hnew : pageGetTempPageCopySpecial blcksz page = pageOf blcksz page.btpo [] := rfl
    rw [hkey, hnew]
    simp only [hitems]
    exact pageAddItem_pageOf hfits

/-! ## The loop -/

/-- The tuples of a page, after its high key. -/
structure DataOk (rel : Rel β ι) (blcksz : ℕ) (hikey data : List (IndexTuple β)) : Prop where
  tuples : ∀ t ∈ data, TupleOk blcksz t
  sorted : (data.flatMap (entries rel)).Pairwise (Before rel)
  fits : Fits blcksz (hikey ++ data)

/-- The tuples up to here are divided into groups, and the last one is pending. -/
structure PassInv (rel : Rel β ι) (blcksz minoff limit : ℕ) (btpo : BTPageOpaque)
    (hikey : List (IndexTuple β)) (l : Loop β) (ds : List (Group β)) (g : Group β) : Prop where
  pending : Pending l.state g (minoff + (ds.flatMap Group.members).length)
  newpage : l.newpage = pageOf blcksz btpo (hikey ++ ds.map Group.merge)
  intervals : l.state.intervals = intervalsOf minoff ds
  limit_le : l.state.maxpostingsize ≤ limit
  group : GroupOk rel l.state.maxpostingsize g
  done : ∀ d ∈ ds, GroupOk rel limit d
  saving : l.pagesaving + usedAll (ds.map Group.merge) = usedAll (ds.flatMap Group.members)

section

variable (h : DataOk rel blcksz hikey data)
  (hdata : ds.flatMap Group.members ++ g.members ++ rest = data)
include h hdata

theorem DataOk.mergeable (hg : GroupOk rel limit g) :
    Mergeable rel blcksz limit g := by
  subst hdata
  refine ⟨fun t ht => h.tuples t ?_, hg, ?_⟩
  · exact mem_append_left _ (mem_append_right _ ht)
  · have hsorted := h.sorted
    rw [flatMap_append, flatMap_append] at hsorted
    exact (pairwise_append.1 (pairwise_append.1 hsorted).1).2.1

theorem DataOk.fits_merge :
    Fits blcksz (hikey ++ ds.map Group.merge ++ [g.merge]) ∧ usedAll g.members < blcksz := by
  subst hdata
  have hds := usedAll_merge_le fun t ht => h.tuples t (mem_append_left _
    (mem_append_left _ ht))
  have hg := used_merge_le fun t ht => h.tuples t (mem_append_left _
    (mem_append_right _ ht))
  have hfits := h.fits
  have hone : usedAll [g.merge] = used g.merge := by simp [usedAll]
  simp only [Fits, usedAll_append, hone] at hfits ⊢
  unfold specialOffset sizeOfPageHeaderData at hfits
  constructor
  · unfold specialOffset sizeOfPageHeaderData
    omega
  · omega

end

theorem intervalsOf_snoc (ds : List (Group β)) (g : Group β) :
    intervalsOf minoff ds ++ intervalsOf (minoff + (ds.flatMap Group.members).length) [g]
      = intervalsOf minoff (ds ++ [g]) :=
  (intervalsOf_append minoff ds [g]).symm

theorem flatMap_members_snoc (ds : List (Group β)) (g : Group β) :
    (ds ++ [g]).flatMap Group.members = ds.flatMap Group.members ++ g.members := by
  rw [flatMap_append, flatMap_singleton]

theorem singlevalSteps_spec (blcksz newitemsz : ℕ) (state : DedupState β) (singlevalstrat : Bool) :
    let state' := (singlevalSteps blcksz newitemsz state singlevalstrat).1
    state'.htids = state.htids ∧ state'.nitems = state.nitems ∧
      state'.maxpostingsize ≤ state.maxpostingsize ∧ state'.intervals = state.intervals := by
  unfold singlevalSteps singlevalFillfactor
  split_ifs
  · exact ⟨rfl, rfl, Nat.sub_le _ _, rfl⟩
  · exact ⟨rfl, rfl, le_rfl, rfl⟩
  · exact ⟨rfl, rfl, le_rfl, rfl⟩
  · exact ⟨rfl, rfl, le_rfl, rfl⟩

theorem groupOk_single (rel : Rel β ι) (n : ℕ) (t : IndexTuple β) : GroupOk rel n ⟨t, []⟩ :=
  ⟨nofun, fun h => absurd rfl h⟩

section

variable (hok : DataOk rel blcksz hikey data) (hlimit : limit ≤ indexSizeMask)
  (hlimit' : limit ≤ btMaxItemSize blcksz) (h : PassInv rel blcksz minoff limit btpo hikey l ds g)
include hok hlimit hlimit' h

theorem PassInv.finish (hdata : ds.flatMap Group.members ++ g.members ++ rest = data) :
    ∃ state' saving, dedupFinishPending blcksz l.newpage l.state
        = some (pageOf blcksz btpo (hikey ++ (ds ++ [g]).map Group.merge), state', saving) ∧
      state'.htids = [] ∧ state'.nitems = 0 ∧ state'.maxpostingsize = l.state.maxpostingsize ∧
      state'.intervals = intervalsOf minoff (ds ++ [g]) ∧
      l.pagesaving + saving + usedAll ((ds ++ [g]).map Group.merge)
        = usedAll ((ds ++ [g]).flatMap Group.members) := by
  obtain ⟨hfits, hused⟩ := hok.fits_merge hdata
  have hg := hok.mergeable hdata h.group
  obtain ⟨state', hfinish, hhtids, hnitems, hmax, hintervals⟩ :=
    finish_spec btpo h.pending hg (h.limit_le.trans hlimit) (h.limit_le.trans hlimit')
      le_rfl hfits hused
  refine ⟨state', usedAll g.members - used g.merge, ?_, hhtids, hnitems, hmax, ?_, ?_⟩
  · rw [h.newpage, hfinish, map_append, map_singleton, append_assoc]
  · rw [hintervals, h.intervals, intervalsOf_snoc]
  · have hsaving := h.saving
    have hle := used_merge_le hg.tuples
    have hone : usedAll [g.merge] = used g.merge := by simp [usedAll]
    rw [flatMap_members_snoc, map_append, map_singleton, usedAll_append, usedAll_append,
      hone]
    omega

variable (newitemsz)

section

variable (hdata : ds.flatMap Group.members ++ g.members ++ t :: rest = data)
include hdata

theorem PassInv.next :
    ∃ l' ds' g', dedupNext blcksz newitemsz l t
        (minoff + (ds.flatMap Group.members ++ g.members).length) = some l' ∧
      PassInv rel blcksz minoff limit btpo hikey l' ds' g' ∧
      ds'.flatMap Group.members ++ g'.members = ds.flatMap Group.members ++ g.members ++ [t] := by
  obtain ⟨state', saving, hfinish, hhtids, hnitems, hmax, hintervals, hsaving⟩ :=
    h.finish hok hlimit hlimit' hdata
  have hsteps := singlevalSteps_spec blcksz newitemsz state' l.singlevalstrat
  obtain ⟨hhtids', hnitems', hmax', hintervals'⟩ := hsteps
  have ht : TupleOk blcksz t := hok.tuples t (by
    rw [← hdata]
    exact mem_append_right _ mem_cons_self)
  obtain ⟨state'', hstart, hpending, hsame⟩ := start_spec (hhtids'.trans hhtids)
    (hnitems'.trans hnitems) ht.isPivot (minoff + (ds.flatMap Group.members ++ g.members).length)
  refine ⟨⟨state'', pageOf blcksz btpo (hikey ++ (ds ++ [g]).map Group.merge), l.pagesaving + saving,
    (singlevalSteps blcksz newitemsz state' l.singlevalstrat).2⟩, ds ++ [g], ⟨t, []⟩, ?_,
    ⟨?_, rfl, ?_, ?_, groupOk_single _ _ _, ?_, hsaving⟩, by rw [flatMap_members_snoc]; rfl⟩
  · unfold dedupNext
    rw [hfinish]
    simp only [hstart, Option.map_some]
  · rw [flatMap_members_snoc]
    exact hpending
  · exact hsame.intervals.trans (hintervals'.trans hintervals)
  · have := h.limit_le
    have hmax'' := hsame.maxpostingsize
    dsimp only at hmax''  ⊢
    omega
  · exact forall_mem_append.2 ⟨h.done, forall_mem_singleton.2 (h.group.mono h.limit_le)⟩

/-- The next tuple is merged into the pending group, or starts a new one. -/
theorem dedupItem_spec [DecidableEq ι] :
    ∃ l' ds' g', dedupItem rel blcksz newitemsz l t
        (minoff + (ds.flatMap Group.members ++ g.members).length) = some l' ∧
      PassInv rel blcksz minoff limit btpo hikey l' ds' g' ∧
      ds'.flatMap Group.members ++ g'.members = ds.flatMap Group.members ++ g.members ++ [t] := by
  have ht : TupleOk blcksz t := hok.tuples t (by
    rw [← hdata]
    exact mem_append_right _ mem_cons_self)
  unfold dedupItem
  rw [h.pending.base]
  dsimp only
  split_ifs with hmerge
  · rw [keepNattsFast_gt] at hmerge
    by_cases hle : (g.add t).merge.size ≤ l.state.maxpostingsize
    · obtain ⟨state', hsave, hpending, hsame⟩ := save_true h.pending ht.isPivot hle
      rw [hsave]
      refine ⟨_, ds, g.add t, rfl, ⟨hpending, h.newpage, hsame.intervals.trans h.intervals, ?_, ?_,
        h.done, h.saving⟩, ?_⟩
      · rw [hsame.maxpostingsize]
        exact h.limit_le
      · rw [hsame.maxpostingsize]
        refine ⟨forall_mem_append.2 ⟨h.group.image, ?_⟩, fun _ => hle⟩
        exact forall_mem_singleton.2 hmerge.2.symm
      · rw [members_add, append_assoc]
    · obtain ⟨state', hsave, hpending, hsame⟩ := save_false h.pending ht.isPivot (not_le.1 hle)
      rw [hsave]
      have hinv : PassInv rel blcksz minoff limit btpo hikey { l with state := state' } ds g :=
        ⟨hpending, h.newpage, hsame.intervals.trans h.intervals,
          hsame.maxpostingsize ▸ h.limit_le, hsame.maxpostingsize ▸ h.group, h.done, h.saving⟩
      exact hinv.next newitemsz hok hlimit hlimit' hdata
  · exact h.next newitemsz hok hlimit hlimit' hdata

end

variable [DecidableEq ι]

theorem dedupLoop_spec (items : List (Item β))
    (hdata : ds.flatMap Group.members ++ g.members ++ items.map Item.tuple = data) :
    ∃ l' ds' g', dedupLoop rel blcksz newitemsz items
        (minoff + (ds.flatMap Group.members ++ g.members).length) l = some l' ∧
      PassInv rel blcksz minoff limit btpo hikey l' ds' g' ∧
      ds'.flatMap Group.members ++ g'.members = data := by
  induction items generalizing l ds g with
  | nil =>
    rw [map_nil, append_nil] at hdata
    exact ⟨l, ds, g, rfl, h, hdata⟩
  | cons item items ih =>
    obtain ⟨l', ds', g', hitem, hinv, hmembers⟩ :=
      dedupItem_spec newitemsz hok hlimit hlimit' h hdata
    have hdata' : ds'.flatMap Group.members ++ g'.members ++ items.map Item.tuple = data := by
      rw [hmembers, append_assoc]
      exact hdata
    obtain ⟨l'', ds'', g'', hloop, hinv', hmembers'⟩ := ih hinv hdata'
    refine ⟨l'', ds'', g'', ?_, hinv', hmembers'⟩
    rw [dedupLoop, hitem]
    rw [hmembers, length_append, length_singleton, ← add_assoc] at hloop
    exact hloop

end

/-! ## The pass -/

variable [DecidableEq ι]

def maxPostingSize (blcksz : ℕ) : ℕ := min (btMaxItemSize blcksz / 2) indexSizeMask

theorem maxPostingSize_le (blcksz : ℕ) : maxPostingSize blcksz ≤ btMaxItemSize blcksz :=
  (min_le_left _ _).trans (Nat.div_le_self _ _)

/-- The new page with other tuples after the high key. -/
def rewritten (blcksz : ℕ) (page : Page β) (ts : List (IndexTuple β)) : Page β :=
  clearPageGarbage (pageOf blcksz page.btpo (page.highKey ++ ts))

/-- The page after groups were merged, if any was. -/
def merged (blcksz : ℕ) (page : Page β) (gs : List (Group β)) : Page β :=
  if intervalsOf page.firstDataKey gs = [] then page
  else rewritten blcksz page (gs.map Group.merge)

theorem doSingleval_isSome (hdata : page.dataItems ≠ []) (newitem : IndexTuple β) :
    ∃ b, doSingleval rel page newitem = some b := by
  have hdrop : page.items.drop (page.firstDataKey - 1) ≠ [] := fun h =>
    hdata (by rw [Page.dataItems, h, map_nil])
  have hlt : page.firstDataKey - 1 < page.items.length := by
    by_contra hge
    exact hdrop (drop_eq_nil_of_le (not_lt.1 hge))
  have hlast : page.items ≠ [] := ne_nil_of_length_pos (by omega)
  unfold doSingleval
  rw [List.getElem?_eq_getElem hlt, List.getLast?_eq_getLast_of_ne_nil hlast]
  exact ⟨_, rfl⟩

theorem exactFreeSpace_pageOf {ts : List (IndexTuple β)} :
    (pageOf blcksz btpo ts).exactFreeSpace
      = specialOffset blcksz - (sizeOfPageHeaderData + usedAll ts) := by
  have hitems : (pageOf blcksz btpo ts).items.length = ts.length := length_map _
  have hupper : (pageOf blcksz btpo ts).upper = specialOffset blcksz - alignedSizes ts := rfl
  rw [Page.exactFreeSpace, Page.lower, hitems, hupper, usedAll_eq]
  omega

theorem pass_spec (h : PageOk rel blcksz page) (hdata : page.dataItems ≠ [])
    (newitem : IndexTuple β) (newitemsz : ℕ) (bottomupdedup : Bool) :
    ∃ gs, gs.flatMap Group.members = page.dataItems ∧
      (∀ g ∈ gs, GroupOk rel (maxPostingSize blcksz) g) ∧
      dedupPass rel blcksz page newitem newitemsz bottomupdedup
        = some (merged blcksz page gs, intervalsOf page.firstDataKey gs) := by
  have hok : DataOk rel blcksz page.highKey page.dataItems := ⟨h.tuples, h.sorted, h.fits⟩
  obtain ⟨strat, hstrat⟩ : ∃ b, (if bottomupdedup then some false
      else doSingleval rel page newitem) = some b := by
    split_ifs
    · exact ⟨false, rfl⟩
    · exact doSingleval_isSome hdata newitem
  cases hitems : page.items.drop (page.firstDataKey - 1) with
  | nil => exact absurd (by rw [Page.dataItems, hitems, map_nil]) hdata
  | cons first items =>
    have hdata' : page.dataItems = first.tuple :: items.map Item.tuple := by
      rw [Page.dataItems, hitems, map_cons]
    have hfirst : TupleOk blcksz first.tuple := h.tuples _ (hdata' ▸ mem_cons_self)
    have hinit : (DedupState.init (maxPostingSize blcksz) : DedupState β).htids = [] := rfl
    obtain ⟨state, hstart, hpending, hsame⟩ :=
      start_spec hinit rfl hfirst.isPivot page.firstDataKey
    have hinv : PassInv rel blcksz page.firstDataKey (maxPostingSize blcksz) page.btpo page.highKey
        ⟨state, pageOf blcksz page.btpo page.highKey, 0, strat⟩ [] ⟨first.tuple, []⟩ :=
      ⟨hpending, by rw [map_nil, append_nil], hsame.intervals, hsame.maxpostingsize.le,
        groupOk_single _ _ _, nofun, rfl⟩
    obtain ⟨l, ds, g, hloop, hinv', hmembers⟩ := dedupLoop_spec (newitemsz + sizeOfItemIdData) hok
      (min_le_right _ _) (maxPostingSize_le blcksz) hinv items hdata'.symm
    obtain ⟨state', saving, hfinish, -, -, -, hintervals, hsaving⟩ :=
      hinv'.finish hok (min_le_right _ _) (maxPostingSize_le blcksz)
        ((append_nil _).trans hmembers)
    have hgs : (ds ++ [g]).flatMap Group.members = page.dataItems := by
      rw [flatMap_members_snoc, hmembers]
    refine ⟨ds ++ [g], hgs, ?_, ?_⟩
    · exact forall_mem_append.2
        ⟨hinv'.done, forall_mem_singleton.2 (hinv'.group.mono hinv'.limit_le)⟩
    · have hfree : l.pagesaving + saving ≤ (pageOf blcksz page.btpo
          (page.highKey ++ (ds ++ [g]).map Group.merge)).exactFreeSpace := by
        have hfits := h.fits
        rw [Fits, usedAll_append, ← hgs, ← hsaving] at hfits
        rw [exactFreeSpace_pageOf, usedAll_append]
        omega
      unfold dedupPass
      simp only [hstrat, copyHighKey_eq h, hitems]
      rw [show min (btMaxItemSize blcksz / 2) indexSizeMask = maxPostingSize blcksz from rfl, hstart]
      dsimp only
      rw [show page.firstDataKey + 1 = page.firstDataKey + (([] : List (Group β)).flatMap
        Group.members ++ (⟨first.tuple, []⟩ : Group β).members).length from rfl, hloop]
      dsimp only
      rw [hfinish]
      dsimp only
      rw [hintervals, merged]
      by_cases hnone : intervalsOf page.firstDataKey (ds ++ [g]) = []
      · rw [if_pos hnone, if_pos hnone, hnone]
      · rw [if_neg hnone, if_neg hnone, if_pos (by omega), rewritten]

/-! ## A page with duplicates -/

/-- An index of one column. -/
def plainRel : Rel ℕ (List ℕ) := ⟨1, fun _ key _ => some key, fun _ _ => True, fun _ => trivial⟩

def duplicate (n : ℕ) : IndexTuple ℕ := ⟨0, List.replicate 8 7, .plain (toLex (1, n))⟩

/-- Two duplicates on a rightmost leaf page with `BTP_HAS_GARBAGE`. -/
def duplicates : Page ℕ :=
  ⟨8144, [⟨duplicate 1, false⟩, ⟨duplicate 2, false⟩], ⟨0, 0, 0, 1 ||| btpHasGarbage, 0⟩⟩

def duplicatesMerged : Page ℕ :=
  ⟨8144, [⟨⟨0, List.replicate 8 7, .posting [toLex (1, 1), toLex (1, 2)]⟩, false⟩], ⟨0, 0, 0, 1, 0⟩⟩

theorem duplicates_pass : dedupPass plainRel 8192 duplicates (duplicate 3) 16 true
    = some (duplicatesMerged, [⟨1, 2⟩]) := by
  decide +kernel

theorem duplicates_ok : PageOk plainRel 8192 duplicates where
  hikey := nofun
  tuples := by
    have hok : ∀ n, n ≠ 0 → TupleOk 8192 (duplicate n) := fun n hn =>
      ⟨rfl, cons_ne_nil _ _, show maxAlign 16 = 16 by decide, nofun,
        fun tid htid => mem_singleton.1 htid ▸ hn, show 16 ≤ btMaxItemSize 8192 by decide⟩
    exact forall_mem_cons.2 ⟨hok 1 (by decide), forall_mem_singleton.2 (hok 2 (by decide))⟩
  sorted := by
    refine pairwise_pair.2 ⟨trivial, fun _ => ?_⟩
    decide
  lower_le := by decide
  upper_le := by decide

end PostgreSieve.BtDedup
