import PostgreSieve.BtDedup.Pass

/-! # Replay of deduplication

Recovery finds the groups of the primary from the logged intervals, without looking at keys.
-/

namespace PostgreSieve.BtDedup

open List

variable {β ι : Type} {rel : Rel β ι} {blcksz : ℕ} {page page' : Page β} {t : IndexTuple β}
  {hikey data q : List (IndexTuple β)} {btpo : BTPageOpaque} {ds es gs : List (Group β)}
  {p g : Group β} {newpage : Page β} {state : DedupState β} {minoff limit : ℕ}

/-! ## The interval of a group -/

theorem le_baseoff_of_mem {offnum : ℕ} {interval : Interval}
    (h : interval ∈ intervalsOf offnum gs) : offnum ≤ interval.baseoff := by
  induction gs generalizing offnum with
  | nil => cases h
  | cons g gs ih =>
    rcases mem_append.1 h with h | h
    · split_ifs at h
      · cases h
      · rw [mem_singleton.1 h]
    · exact (Nat.le_add_right _ _).trans (ih h)

theorem mergeNext_eq (hgs : gs = ds ++ ⟨p.base, p.others ++ q⟩ :: es)
    (hpending : Pending state p (minoff + (ds.flatMap Group.members).length))
    (hintervals : state.intervals = intervalsOf minoff ds) :
    mergeNext (intervalsOf minoff gs) state = true ↔ q ≠ [] := by
  unfold mergeNext
  rw [hgs, intervalsOf_append, hintervals, List.getElem?_append_right le_rfl, Nat.sub_self,
    intervalsOf]
  by_cases hothers : p.others ++ q = []
  · -- the group is not logged, and those after it start later
    obtain ⟨-, rfl⟩ := append_eq_nil_iff.1 hothers
    rw [if_pos hothers, nil_append]
    apply iff_of_false _ (fun h => h rfl)
    split
    · rename_i interval hinterval
      have hle := le_baseoff_of_mem (mem_of_getElem? hinterval)
      have hpos : 0 < (⟨p.base, p.others ++ []⟩ : Group β).members.length := Nat.succ_pos _
      rw [hpending.baseoff, decide_eq_true_iff]
      omega
    · exact Bool.false_ne_true
  · rw [if_neg hothers]
    have hlength : (⟨p.base, p.others ++ q⟩ : Group β).members.length
        = p.members.length + q.length := by
      simp only [Group.members, length_cons, length_append]
      omega
    simp only [cons_append, List.getElem?_cons_zero, hpending.baseoff, hpending.nitems,
      hlength, true_and, decide_eq_true_eq, Nat.lt_add_right_iff_pos, length_pos_iff]

/-! ## The loop -/

/-- The groups of the primary up to here are merged, and a part of the next one is pending. -/
structure ReplayInv (blcksz minoff : ℕ) (btpo : BTPageOpaque) (hikey : List (IndexTuple β))
    (newpage : Page β) (state : DedupState β) (ds : List (Group β)) (p : Group β) : Prop where
  pending : Pending state p (minoff + (ds.flatMap Group.members).length)
  newpage : newpage = pageOf blcksz btpo (hikey ++ ds.map Group.merge)
  intervals : state.intervals = intervalsOf minoff ds
  maxpostingsize : state.maxpostingsize = btMaxItemSize blcksz

theorem size_merge_mono (p : Group β) (t : IndexTuple β) (q : List (IndexTuple β)) :
    (p.add t).merge.size ≤ (⟨p.base, p.others ++ t :: q⟩ : Group β).merge.size := by
  have hne : (⟨p.base, p.others ++ t :: q⟩ : Group β).others ≠ [] :=
    append_ne_nil_of_right_ne_nil _ (cons_ne_nil t q)
  have hhtids : (⟨p.base, p.others ++ t :: q⟩ : Group β).htids
      = (p.add t).htids ++ q.flatMap IndexTuple.htids := by
    simp [Group.htids, Group.members, Group.add]
  rw [size_merge (others_add_ne p t), size_merge hne, hhtids, length_append]
  have hmono : ∀ {a b : ℕ}, a ≤ b → maxAlign a ≤ maxAlign b := by
    unfold maxAlign
    omega
  apply hmono
  rw [Nat.add_mul]
  exact Nat.add_le_add_left (Nat.le_add_right _ _) _

theorem ReplayInv.finish (h : ReplayInv blcksz minoff btpo hikey newpage state ds g)
    (hok : DataOk rel blcksz hikey data)
    (hdata : ds.flatMap Group.members ++ g.members ++ es.flatMap Group.members = data)
    (hg : GroupOk rel (maxPostingSize blcksz) g) :
    ∃ state' saving, dedupFinishPending blcksz newpage state
        = some (pageOf blcksz btpo (hikey ++ (ds ++ [g]).map Group.merge), state', saving) ∧
      state'.htids = [] ∧ state'.nitems = 0 ∧ state'.maxpostingsize = btMaxItemSize blcksz ∧
      state'.intervals = intervalsOf minoff (ds ++ [g]) := by
  obtain ⟨hfits, hused⟩ := hok.fits_merge hdata
  obtain ⟨state', hfinish, hhtids, hnitems, hmax, hintervals⟩ :=
    finish_spec btpo h.pending (hok.mergeable hdata hg) (min_le_right _ _)
      (maxPostingSize_le blcksz) (h.maxpostingsize ▸ maxPostingSize_le blcksz) hfits hused
  refine ⟨state', usedAll g.members - used g.merge, ?_, hhtids, hnitems,
    hmax.trans h.maxpostingsize, ?_⟩
  · rw [h.newpage, hfinish, map_append, map_singleton, append_assoc]
  · rw [hintervals, h.intervals, intervalsOf_snoc]

/-- A tuple goes to the group that it belongs to on the primary. -/
theorem replayItem_spec (h : ReplayInv blcksz minoff btpo hikey newpage state ds p)
    (hok : DataOk rel blcksz hikey data) (hgs : gs = ds ++ ⟨p.base, p.others ++ q⟩ :: es)
    (hdata : gs.flatMap Group.members = data)
    (hgroups : ∀ g ∈ gs, GroupOk rel (maxPostingSize blcksz) g) {rest : List (IndexTuple β)}
    (hrest : q ++ es.flatMap Group.members = t :: rest) :
    ∃ newpage' state' ds' p' q' es', replayItem blcksz (intervalsOf minoff gs) newpage state t
        (minoff + (ds.flatMap Group.members ++ p.members).length) = some (newpage', state') ∧
      ReplayInv blcksz minoff btpo hikey newpage' state' ds' p' ∧
      gs = ds' ++ ⟨p'.base, p'.others ++ q'⟩ :: es' ∧ q' ++ es'.flatMap Group.members = rest ∧
      ds'.flatMap Group.members ++ p'.members
        = ds.flatMap Group.members ++ p.members ++ [t] := by
  have ht : TupleOk blcksz t := hok.tuples t (by
    rw [← hdata, hgs, flatMap_append, flatMap_cons]
    refine mem_append_right _ ?_
    have hmem : t ∈ q ++ es.flatMap Group.members := hrest ▸ mem_cons_self
    rcases mem_append.1 hmem with hmem | hmem
    · exact mem_append_left _ (mem_cons_of_mem _ (mem_append_right _ hmem))
    · exact mem_append_right _ hmem)
  have hgroup := hgroups ⟨p.base, p.others ++ q⟩ (hgs ▸ mem_append_right _ mem_cons_self)
  unfold replayItem
  cases q with
  | cons u q =>
    obtain ⟨rfl, hrest'⟩ := List.cons.inj hrest
    have hle : (p.add u).merge.size ≤ state.maxpostingsize := by
      have hsize := hgroup.size_le (append_ne_nil_of_right_ne_nil _ (cons_ne_nil u q))
      rw [h.maxpostingsize]
      exact (size_merge_mono p u q).trans (hsize.trans (maxPostingSize_le blcksz))
    obtain ⟨state', hsave, hpending, hsame⟩ := save_true h.pending ht.isPivot hle
    rw [if_pos ((mergeNext_eq hgs h.pending h.intervals).2 (cons_ne_nil u q)), hsave]
    refine ⟨newpage, state', ds, p.add u, q, es, rfl, ⟨hpending, h.newpage,
      hsame.intervals.trans h.intervals, hsame.maxpostingsize.trans h.maxpostingsize⟩, ?_, hrest',
      ?_⟩
    · rw [hgs, Group.add, append_assoc]
      rfl
    · rw [members_add, append_assoc]
  | nil =>
    rw [append_nil] at hgs hgroup
    rw [if_neg (fun hmerge => (mergeNext_eq (q := []) (by rw [append_nil]; exact hgs) h.pending
      h.intervals).1 hmerge rfl)]
    have hdata' : ds.flatMap Group.members ++ p.members ++ es.flatMap Group.members = data := by
      rw [← hdata, hgs, flatMap_append, flatMap_cons, append_assoc]
    obtain ⟨state', saving, hfinish, hhtids, hnitems, hmax, hintervals⟩ :=
      h.finish hok hdata' hgroup
    cases es with
    | nil => cases hrest
    | cons e es =>
      obtain ⟨rfl, hrest'⟩ := List.cons.inj hrest
      obtain ⟨state'', hstart, hpending, hsame⟩ := start_spec hhtids hnitems ht.isPivot
        (minoff + (ds.flatMap Group.members ++ p.members).length)
      rw [hfinish]
      dsimp only
      rw [hstart, Option.map_some]
      refine ⟨_, state'', ds ++ [p], ⟨e.base, []⟩, e.others, es, rfl, ⟨?_, rfl,
        hsame.intervals.trans hintervals, hsame.maxpostingsize.trans hmax⟩, ?_, hrest', ?_⟩
      · rw [flatMap_members_snoc]
        exact hpending
      · rw [hgs, append_assoc]
        rfl
      · rw [flatMap_members_snoc]
        rfl

theorem replayLoop_spec (hok : DataOk rel blcksz hikey data)
    (hdata : gs.flatMap Group.members = data)
    (hgroups : ∀ g ∈ gs, GroupOk rel (maxPostingSize blcksz) g) (items : List (Item β))
    (h : ReplayInv blcksz minoff btpo hikey newpage state ds p)
    (hgs : gs = ds ++ ⟨p.base, p.others ++ q⟩ :: es)
    (hrest : q ++ es.flatMap Group.members = items.map Item.tuple) :
    ∃ newpage' state' ds' p', replayLoop blcksz (intervalsOf minoff gs) items
        (minoff + (ds.flatMap Group.members ++ p.members).length) newpage state
          = some (newpage', state') ∧
      ReplayInv blcksz minoff btpo hikey newpage' state' ds' p' ∧ gs = ds' ++ [p'] := by
  induction items generalizing newpage state ds p q es with
  | nil =>
    obtain ⟨rfl, hes⟩ := append_eq_nil_iff.1 hrest
    have hnil : es = [] := by
      cases es with
      | nil => rfl
      | cons e es => cases hes
    subst hnil
    rw [append_nil] at hgs
    exact ⟨newpage, state, ds, p, rfl, h, hgs⟩
  | cons item items ih =>
    obtain ⟨newpage', state', ds', p', q', es', hitem, hinv, hgs', hrest', hmembers⟩ :=
      replayItem_spec h hok hgs hdata hgroups hrest
    obtain ⟨newpage'', state'', ds'', p'', hloop, hinv', hgs''⟩ := ih hinv hgs' hrest'
    refine ⟨newpage'', state'', ds'', p'', ?_, hinv', hgs''⟩
    rw [replayLoop, hitem]
    rw [hmembers, length_append, length_singleton, ← add_assoc] at hloop
    exact hloop

/-- Recovery with the intervals of a division merges its groups, and refuses none. -/
theorem xlogDedup_spec (h : PageOk rel blcksz page) (hdata : gs.flatMap Group.members = page.dataItems)
    (hne : page.dataItems ≠ []) (hgroups : ∀ g ∈ gs, GroupOk rel (maxPostingSize blcksz) g) :
    xlogDedup blcksz page (intervalsOf page.firstDataKey gs)
      = some (rewritten blcksz page (gs.map Group.merge)) := by
  have hok : DataOk rel blcksz page.highKey page.dataItems := ⟨h.tuples, h.sorted, h.fits⟩
  cases hitems : page.items.drop (page.firstDataKey - 1) with
  | nil => exact absurd (by rw [Page.dataItems, hitems, map_nil]) hne
  | cons first items =>
    have hdata' : page.dataItems = first.tuple :: items.map Item.tuple := by
      rw [Page.dataItems, hitems, map_cons]
    have hfirst : TupleOk blcksz first.tuple := h.tuples _ (hdata' ▸ mem_cons_self)
    obtain ⟨g, es, rfl⟩ : ∃ g es, gs = g :: es := by
      cases gs with
      | nil => exact absurd hdata.symm hne
      | cons g es => exact ⟨g, es, rfl⟩
    obtain ⟨hbase, hrest⟩ := List.cons.inj (hdata.trans hdata')
    have hinit : (DedupState.init (btMaxItemSize blcksz) : DedupState β).htids = [] := rfl
    obtain ⟨state, hstart, hpending, hsame⟩ :=
      start_spec hinit rfl hfirst.isPivot page.firstDataKey
    have hinv : ReplayInv blcksz page.firstDataKey page.btpo page.highKey
        (pageOf blcksz page.btpo page.highKey) state [] ⟨first.tuple, []⟩ :=
      ⟨hpending, by rw [map_nil, append_nil], hsame.intervals, hsame.maxpostingsize⟩
    have hgs : g :: es = [] ++ ⟨first.tuple, [] ++ g.others⟩ :: es := by
      rw [← hbase]
      rfl
    obtain ⟨newpage, state', ds, p, hloop, hinv', hgs'⟩ :=
      replayLoop_spec hok hdata hgroups items hinv hgs hrest
    have hlast : p ∈ g :: es := hgs' ▸ mem_append_right _ (mem_singleton_self p)
    have hall : ds.flatMap Group.members ++ p.members ++ ([] : List (Group β)).flatMap Group.members
        = page.dataItems := by
      rw [flatMap_nil, append_nil, ← flatMap_members_snoc, ← hgs', hdata]
    obtain ⟨state'', saving, hfinish, -, -, -, hintervals⟩ := hinv'.finish hok hall (hgroups p hlast)
    rw [← hgs'] at hfinish hintervals
    unfold xlogDedup
    simp only [copyHighKey_eq h, hitems, hstart]
    rw [show page.firstDataKey + 1 = page.firstDataKey + (([] : List (Group β)).flatMap
      Group.members ++ (⟨first.tuple, []⟩ : Group β).members).length from rfl, hloop]
    dsimp only
    rw [hfinish]
    dsimp only
    rw [if_pos hintervals, rewritten]

/-- Replay reproduces the page of the primary: high key, tuples and flags. -/
theorem replay_reproduces [DecidableEq ι] (h : PageOk rel blcksz page) {newitem : IndexTuple β}
    {newitemsz : ℕ} {bottomupdedup : Bool} {intervals : List Interval}
    (hpass : dedupPass rel blcksz page newitem newitemsz bottomupdedup = some (page', intervals))
    (hlogged : intervals ≠ []) :
    xlogDedup blcksz page intervals = some page' := by
  have hne : page.dataItems ≠ [] := by
    intro hnil
    have hdrop : page.items.drop (page.firstDataKey - 1) = [] := map_eq_nil_iff.1 hnil
    rw [dedupPass, hdrop] at hpass
    split at hpass
    · rename_i heq
      cases heq
    · cases hpass
  obtain ⟨gs, hdata, hgroups, hspec⟩ := pass_spec h hne newitem newitemsz bottomupdedup
  rw [hpass] at hspec
  obtain ⟨rfl, rfl⟩ := Prod.mk.inj (Option.some.inj hspec)
  rw [xlogDedup_spec h hdata hne hgroups, merged, if_neg hlogged]

theorem replay_reproduces_duplicates :
    dedupPass plainRel 8192 duplicates (duplicate 3) 16 true
        = some (duplicatesMerged, [⟨1, 2⟩]) ∧
      xlogDedup 8192 duplicates [⟨1, 2⟩] = some duplicatesMerged :=
  ⟨duplicates_pass, replay_reproduces duplicates_ok duplicates_pass nofun⟩

end PostgreSieve.BtDedup
