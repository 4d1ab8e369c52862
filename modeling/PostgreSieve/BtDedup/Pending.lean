import PostgreSieve.BtDedup.Groups

/-! # The pending posting list

The working state holds a group of tuples. It is finished by adding the merged tuple to the page.
-/

namespace PostgreSieve.BtDedup

open List

variable {β ι : Type} {rel : Rel β ι} {blcksz : ℕ} {t : IndexTuple β} {ts : List (IndexTuple β)}
  {g : Group β} {state state' : DedupState β} {btpo : BTPageOpaque} {offnum : ℕ}
variable {limit : ℕ}

/-! ## The new page -/

def alignedSizes (ts : List (IndexTuple β)) : ℕ := (ts.map fun t => maxAlign t.size).sum

theorem usedAll_eq (ts : List (IndexTuple β)) :
    usedAll ts = alignedSizes ts + ts.length * sizeOfItemIdData := by
  induction ts with
  | nil => rfl
  | cons t ts ih =>
    rw [usedAll_cons, ih, alignedSizes, alignedSizes, map_cons, sum_cons, length_cons,
      used, Nat.add_mul]
    omega

/-- A page with nothing but these tuples. -/
def pageOf (blcksz : ℕ) (btpo : BTPageOpaque) (ts : List (IndexTuple β)) : Page β :=
  ⟨specialOffset blcksz - alignedSizes ts, ts.map fun t => ⟨t, false⟩, btpo⟩

def Fits (blcksz : ℕ) (ts : List (IndexTuple β)) : Prop :=
  sizeOfPageHeaderData + usedAll ts ≤ specialOffset blcksz

theorem pageAddItem_pageOf (h : Fits blcksz (ts ++ [t])) :
    pageAddItem (pageOf blcksz btpo ts) t t.size ((pageOf blcksz btpo ts).items.length + 1)
      = some (pageOf blcksz btpo (ts ++ [t])) := by
  have hsum : alignedSizes (ts ++ [t]) = alignedSizes ts + maxAlign t.size := by
    simp [alignedSizes]
  have hlength : (ts ++ [t]).length * sizeOfItemIdData
      = ts.length * sizeOfItemIdData + sizeOfItemIdData := by
    rw [length_append, Nat.add_mul]
    simp
  rw [Fits, usedAll_eq, hsum, hlength] at h
  have hitems : (pageOf blcksz btpo ts).items.length = ts.length := length_map _
  have hupper : (pageOf blcksz btpo ts).upper = specialOffset blcksz - alignedSizes ts := rfl
  unfold pageAddItem Page.lower
  rw [if_neg (lt_irrefl _), hitems, hupper, if_neg (by omega)]
  congr 1
  simp only [pageOf, hsum, Page.mk.injEq]
  refine ⟨by omega, ?_, trivial⟩
  have hmap : ts.length = (ts.map fun t => (⟨t, false⟩ : Item β)).length := hitems.symm
  rw [Nat.add_sub_cancel, map_append, map_singleton, hmap, insertIdx_length_self]

theorem Fits.of_le {us : List (IndexTuple β)} (h : Fits blcksz us) (hle : usedAll ts ≤ usedAll us) :
    Fits blcksz ts := by
  unfold Fits at *
  omega

/-! ## Starting and saving -/

/-- The state holds the group. -/
structure Pending (state : DedupState β) (g : Group β) (baseoff : ℕ) : Prop where
  base : state.base = some g.base
  baseoff : state.baseoff = baseoff
  basetupsize : state.basetupsize = g.base.keysize
  htids : state.htids = g.htids
  nitems : state.nitems = g.members.length
  phystupsize : state.phystupsize = usedAll g.members

/-- Only the pending posting list is different. -/
structure SameLimits (state state' : DedupState β) : Prop where
  maxpostingsize : state'.maxpostingsize = state.maxpostingsize
  intervals : state'.intervals = state.intervals

theorem start_spec (hhtids : state.htids = []) (hnitems : state.nitems = 0)
    (hpivot : t.isPivot = false) (baseoff : ℕ) :
    ∃ state', dedupStartPending state t baseoff = some state' ∧ Pending state' ⟨t, []⟩ baseoff ∧
      SameLimits state state' := by
  unfold dedupStartPending
  rw [if_pos ⟨hhtids, hnitems, hpivot⟩]
  refine ⟨_, rfl, ⟨rfl, rfl, rfl, ?_, rfl, rfl⟩, rfl, rfl⟩
  simp [Group.htids, Group.members]

/-- The group with one more tuple. -/
def Group.add (g : Group β) (t : IndexTuple β) : Group β := ⟨g.base, g.others ++ [t]⟩

theorem members_add (g : Group β) (t : IndexTuple β) : (g.add t).members = g.members ++ [t] := rfl

theorem htids_add (g : Group β) (t : IndexTuple β) : (g.add t).htids = g.htids ++ t.htids := by
  rw [Group.htids, members_add, flatMap_append, Group.htids, flatMap_singleton]

theorem others_add_ne (g : Group β) (t : IndexTuple β) : (g.add t).others ≠ [] :=
  append_ne_nil_of_right_ne_nil _ (cons_ne_nil t [])

section

variable (h : Pending state g offnum)
include h

/-- The size that is compared with the limit is that of the merged tuple. -/
theorem Pending.mergedtupsz (t : IndexTuple β) :
    maxAlign (state.basetupsize + (state.htids.length + t.htids.length) * sizeOfItemPointerData)
      = (g.add t).merge.size := by
  rw [size_merge (others_add_ne g t), htids_add, length_append, h.basetupsize, h.htids]
  rfl

theorem save_true (hpivot : t.isPivot = false) (hle : (g.add t).merge.size ≤ state.maxpostingsize) :
    ∃ state', dedupSaveHtid state t = some (true, state') ∧ Pending state' (g.add t) offnum ∧
      SameLimits state state' := by
  unfold dedupSaveHtid
  rw [hpivot, if_neg Bool.false_ne_true, h.mergedtupsz, if_neg (not_lt.2 hle)]
  refine ⟨_, rfl, ⟨h.base, h.baseoff, h.basetupsize, ?_, ?_, ?_⟩, rfl, rfl⟩
  · rw [htids_add, ← h.htids]
  · rw [members_add, length_append, ← h.nitems]
    rfl
  · rw [members_add, usedAll_append, ← h.phystupsize]
    rfl

theorem save_false (hpivot : t.isPivot = false)
    (hgt : state.maxpostingsize < (g.add t).merge.size) :
    ∃ state', dedupSaveHtid state t = some (false, state') ∧ Pending state' g offnum ∧
      SameLimits state state' := by
  unfold dedupSaveHtid
  rw [hpivot, if_neg Bool.false_ne_true, h.mergedtupsz, if_pos hgt]
  refine ⟨_, rfl, ?_, ?_⟩
  · split_ifs
    · exact ⟨h.base, h.baseoff, h.basetupsize, h.htids, h.nitems, h.phystupsize⟩
    · exact h
  · split_ifs
    · exact ⟨rfl, rfl⟩
    · exact ⟨rfl, rfl⟩

end

/-! ## Finishing -/

/-- A group of tuples of a sorted page that can be merged. -/
structure Mergeable (rel : Rel β ι) (blcksz limit : ℕ) (g : Group β) : Prop where
  tuples : ∀ t ∈ g.members, TupleOk blcksz t
  group : GroupOk rel limit g
  sorted : (g.members.flatMap (entries rel)).Pairwise (Before rel)

theorem length_le_htids (h : ∀ t ∈ ts, TupleOk blcksz t) :
    ts.length ≤ (ts.flatMap IndexTuple.htids).length := by
  induction ts with
  | nil => exact le_rfl
  | cons t ts ih =>
    have ht := (h t mem_cons_self).htids_pos
    have hts := ih fun t ht => h t (mem_cons_of_mem _ ht)
    rw [flatMap_cons, length_append, length_cons]
    omega

theorem Mergeable.two_le (h : Mergeable rel blcksz limit g) (hothers : g.others ≠ []) :
    2 ≤ g.htids.length := by
  have hlength : g.members.length ≤ g.htids.length := length_le_htids h.tuples
  have := length_pos_iff.2 hothers
  rw [Group.members, length_cons] at hlength
  omega

section

variable (h : Mergeable rel blcksz limit g) (hlimit : limit ≤ indexSizeMask)
  (hothers : g.others ≠ [])
include h hlimit hothers

theorem Mergeable.postingAsserts :
    postingAsserts g.base.keysize g.merge.size g.htids := by
  have hbase := h.tuples g.base mem_cons_self
  have hsize := (h.group.size_le hothers).trans hlimit
  have hle := le_maxAlign (g.base.keysize + g.htids.length * sizeOfItemPointerData)
  rw [← size_merge hothers] at hle
  have hlength := h.two_le hothers
  have hvalid : ∀ tid ∈ g.htids, tid.isValid := by
    intro tid htid
    obtain ⟨t, ht, htid⟩ := mem_flatMap.1 htid
    exact (h.tuples t ht).valid tid htid
  unfold indexSizeMask at hsize
  unfold sizeOfItemPointerData at hle
  refine ⟨by omega, by omega, hbase.aligned.symm, hsize, ?_, fun _ => ⟨?_, ?_, ?_⟩, fun _ => hvalid⟩
  · rw [size_merge hothers, maxAlign_maxAlign]
  · unfold btOffsetMask
    omega
  · unfold indexSizeMask
    omega
  · exact ⟨by omega, hvalid, (h.group.pairwise h.sorted).isChain⟩

theorem formPosting_eq :
    formPosting g.base g.htids = some g.merge := by
  have hasserts := h.postingAsserts hlimit hothers
  have hlength := h.two_le hothers
  unfold formPosting
  rw [if_pos (show g.htids.length > 1 by omega), ← size_merge hothers,
    if_pos ⟨(h.tuples g.base mem_cons_self).isPivot, hasserts⟩]
  split
  · rename_i tid heq
    rw [heq, length_singleton] at hlength
    omega
  · rw [merge_of_ne hothers]

end

theorem finish_spec (btpo : BTPageOpaque) (h : Pending state g offnum)
    (hg : Mergeable rel blcksz limit g)
    (hlimit : limit ≤ indexSizeMask) (hlimit' : limit ≤ btMaxItemSize blcksz)
    (hmax : limit ≤ state.maxpostingsize) (hfits : Fits blcksz (ts ++ [g.merge]))
    (hused : usedAll g.members < blcksz) :
    ∃ state', dedupFinishPending blcksz (pageOf blcksz btpo ts) state
        = some (pageOf blcksz btpo (ts ++ [g.merge]), state', usedAll g.members - used g.merge) ∧
      state'.htids = [] ∧ state'.nitems = 0 ∧ state'.maxpostingsize = state.maxpostingsize ∧
      state'.intervals = state.intervals ++ intervalsOf offnum [g] := by
  have hbase := hg.tuples g.base mem_cons_self
  have hlength : g.members.length ≤ g.htids.length := length_le_htids hg.tuples
  unfold dedupFinishPending
  simp only [h.nitems, h.htids, h.base]
  rw [if_pos ⟨Nat.succ_pos _, hlength⟩]
  by_cases hothers : g.others = []
  · have hone : g.members.length = 1 := by rw [Group.members, hothers]; rfl
    have hmerge := merge_of_nil hothers
    rw [hmerge] at hfits ⊢
    rw [if_pos hone, if_pos ⟨hbase.size_aligned, hbase.size_le⟩, pageAddItem_pageOf hfits,
      Option.map_some]
    refine ⟨{ state with htids := [], nitems := 0, phystupsize := 0 }, ?_, rfl, rfl, rfl, ?_⟩
    · rw [Group.members, hothers, usedAll_cons, usedAll, map_nil, sum_nil, add_zero,
        Nat.sub_self, h.base]
    · simp [intervalsOf, hothers]
  · have hone : g.members.length ≠ 1 := by
      have := length_pos_iff.2 hothers
      rw [Group.members, length_cons]
      omega
    have hsize := hg.group.size_le hothers
    have haligned : g.merge.size = maxAlign g.merge.size := by
      rw [size_merge hothers, maxAlign_maxAlign]
    have hsaving : state.phystupsize - (g.merge.size + sizeOfItemIdData)
        = usedAll g.members - used g.merge := by
      rw [h.phystupsize, used, ← haligned]
    have hlt := used_merge_lt hg.tuples hothers
    rw [if_neg hone, formPosting_eq hg hlimit hothers]
    dsimp only
    rw [hsaving, if_pos ⟨hsize.trans hmax, haligned, hsize.trans hlimit', by omega, by omega⟩,
      pageAddItem_pageOf hfits, Option.map_some]
    simp [intervalsOf, hothers, h.baseoff]

end PostgreSieve.BtDedup
