import Mathlib.Data.List.Basic
import Mathlib.Data.List.DropRight
import PostgreSieve.ProcArray.Known

/-! # The entries of the array

What the functions on known-assigned ids do to the list of entries between the tail and the head. An
entry is a full id with its mark; the array has its word.
-/

namespace PostgreSieve.Xact

open Function List Nat

/-- A normal id in the window of `2 ^ 31` ids from `base` on. -/
def InWindow (base full : ℕ) : Prop := FullNormal full ∧ base ≤ full ∧ full < base + 2 ^ 31

instance (base full : ℕ) : Decidable (InWindow base full) := inferInstanceAs (Decidable (_ ∧ _))

theorem InWindow.near {base a b : ℕ} (ha : InWindow base a) (hb : InWindow base b) : Near a b := by
  obtain ⟨-, ha1, ha2⟩ := ha
  obtain ⟨-, hb1, hb2⟩ := hb
  exact ⟨by omega, by omega⟩

/-- The ids from `full` up to `last`, as advancing goes through them. -/
def idsFrom (full last : ℕ) : List ℕ :=
  if full ≤ last then full :: idsFrom (fullTransactionIdAdvance full) last else []
termination_by last + 1 - full
decreasing_by
  have := lt_advance full
  omega

namespace KnownAssigned

variable {k : KnownAssigned} {i x base : ℕ} {e : ℕ × Bool} {l l₁ l₂ : List (ℕ × Bool)}
variable {k' : KnownAssigned} {j : ℕ} {p : List (ℕ × Bool)} {full last : ℕ} {j j' : ℕ}

/-- The array has the entries of the list from index `i` on. -/
def Seg (k : KnownAssigned) : ℕ → List (ℕ × Bool) → Prop
  | _, [] => True
  | i, e :: l => (k.xids i = xidFromFull e.1 ∧ k.valid i = e.2) ∧ k.Seg (i + 1) l

/-- The entries between the tail and the head. -/
structure Holds (k : KnownAssigned) (l : List (ℕ × Bool)) : Prop where
  seg : k.Seg k.tail l
  head : k.head = k.tail + l.length

theorem seg_append : k.Seg i (l₁ ++ l₂) ↔ k.Seg i l₁ ∧ k.Seg (i + l₁.length) l₂ := by
  induction l₁ generalizing i with
  | nil => simp [Seg]
  | cons e l₁ ih =>
    rw [cons_append, Seg, Seg, ih, length_cons, and_assoc (c := k.Seg _ l₂),
      add_assoc, add_comm 1]

theorem Seg.congr (h : k.Seg i l)
    (hsame : ∀ j, i ≤ j → j < i + l.length → k'.xids j = k.xids j ∧ k'.valid j = k.valid j) :
    k'.Seg i l := by
  induction l generalizing i with
  | nil => trivial
  | cons e l ih =>
    rw [length_cons] at hsame
    obtain ⟨hx, hv⟩ := hsame i le_rfl (by omega)
    refine ⟨⟨hx.trans h.1.1, hv.trans h.1.2⟩, ih h.2 fun j hj hj' => hsame j (by omega) (by omega)⟩

theorem Seg.get (h : k.Seg i l) (hj : j < l.length) :
    k.xids (i + j) = xidFromFull (l.get ⟨j, hj⟩).1 ∧ k.valid (i + j) = (l.get ⟨j, hj⟩).2 := by
  induction l generalizing i j with
  | nil => cases hj
  | cons e l ih =>
    cases j with
    | zero => exact h.1
    | succ j =>
      have := ih h.2 (lt_of_succ_lt_succ hj)
      rwa [add_assoc, add_comm 1 j] at this

theorem Holds.sub (h : k.Holds l) : k.head - k.tail = l.length := by
  have := h.head
  omega

/-! ## Compression -/

theorem Seg.update (h : k.Seg i p)
    (hxids : k'.xids = update k.xids (i + p.length) (xidFromFull e.1))
    (hvalid : k'.valid = update k.valid (i + p.length) e.2) : k'.Seg i (p ++ [e]) := by
  rw [seg_append]
  refine ⟨h.congr fun j _ hj => ?_, ⟨?_, ?_⟩, trivial⟩
  · rw [hxids, hvalid, update_of_ne (by omega), update_of_ne (by omega)]
    exact ⟨rfl, rfl⟩
  · rw [hxids, update_self]
  · rw [hvalid, update_self]

theorem compressLoop_spec (hp : k.Seg 0 p) (hl : k.Seg i l) (hle : p.length ≤ i) :
    ∃ k', k.compressLoop p.length i l.length = (k', (p ++ l.filter (·.2)).length) ∧
      k'.Seg 0 (p ++ l.filter (·.2)) ∧ k'.num = k.num ∧ k'.max = k.max := by
  induction l generalizing k i p with
  | nil => exact ⟨k, by simp [compressLoop], by simpa using hp, rfl, rfl⟩
  | cons e l ih =>
    obtain ⟨⟨hx, hv⟩, hl⟩ := hl
    obtain ⟨full, _ | _⟩ := e
    · obtain ⟨k', heq, hseg, hnum, hmax⟩ := ih hp hl (le_succ_of_le hle)
      refine ⟨k', ?_, hseg, hnum, hmax⟩
      rw [length_cons, compressLoop, if_neg (by simp [hv]), heq]
      rfl
    · -- the entry moves down to the place after those kept so far
      let k₁ : KnownAssigned := { k with
        xids := update k.xids p.length (k.xids i)
        valid := update k.valid p.length true }
      have hp₁ : k₁.Seg 0 (p ++ [(full, true)]) := by
        apply hp.update
        · simp only [k₁, hx, zero_add]
        · simp only [k₁, zero_add]
      have hl₁ : k₁.Seg (i + 1) l := hl.congr fun j hj _ =>
        ⟨update_of_ne (by omega) _ _, update_of_ne (by omega) _ _⟩
      obtain ⟨k', heq, hseg, hnum, hmax⟩ := ih hp₁ hl₁ (by simpa using hle)
      rw [append_assoc] at heq hseg
      refine ⟨k', ?_, hseg, hnum, hmax⟩
      rw [length_cons, compressLoop, if_pos hv]
      rwa [length_append, length_singleton] at heq

theorem Holds.doCompress (h : k.Holds l) (clock : Clock) :
    (k.doCompress clock).Holds (l.filter (·.2)) ∧ (k.doCompress clock).num = k.num ∧
      (k.doCompress clock).max = k.max ∧ (k.doCompress clock).tail = 0 := by
  have hnil : k.Seg 0 [] := trivial
  obtain ⟨k', heq, hseg, hnum, hmax⟩ := compressLoop_spec hnil h.seg (zero_le _)
  rw [length_nil, nil_append] at heq
  simp only [KnownAssigned.doCompress, h.sub, heq, and_true]
  exact ⟨⟨hseg.congr fun _ _ _ => ⟨rfl, rfl⟩, (zero_add _).symm⟩, hnum, hmax⟩

/-- What compression for a reason makes of the entries: the invalid ones are dropped or, unless
space is wanted, all are kept. -/
structure Compressed (k k' : KnownAssigned) (reason : KAXCompressReason) (l l' : List (ℕ × Bool)) :
    Prop where
  holds : k'.Holds l'
  entries : l' = l.filter (·.2) ∧ k'.tail = 0 ∨
    reason ≠ .noSpace ∧ l' = l ∧ k'.tail = k.tail
  num : k'.num = k.num
  max : k'.max = k.max

theorem Holds.compress (h : k.Holds l) (reason : KAXCompressReason) (clock : Clock) :
    ∃ l', Compressed k (k.compress reason clock) reason l l' := by
  -- the counter of transaction ends may have been advanced before
  have hcount : ∀ n : ℕ, { k with transactionEndsCounter := n }.Holds l := fun n =>
    ⟨h.seg.congr fun _ _ _ => ⟨rfl, rfl⟩, h.head⟩
  have hdo : ∀ k' : KnownAssigned, k'.Holds l → k'.num = k.num → k'.max = k.max →
      ∃ l', Compressed k (k'.doCompress clock) reason l l' := fun k' h' hn hm =>
    have hc := h'.doCompress clock
    ⟨_, hc.1, .inl ⟨rfl, hc.2.2.2⟩, hc.2.1.trans hn, hc.2.2.1.trans hm⟩
  have hstay : ∀ k' : KnownAssigned, k'.Holds l → k'.num = k.num → k'.max = k.max →
      k'.tail = k.tail → reason ≠ .noSpace → ∃ l', Compressed k k' reason l l' :=
    fun k' h' hn hm ht hne => ⟨l, h', .inr ⟨hne, rfl, ht⟩, hn, hm⟩
  unfold KnownAssigned.compress
  dsimp only
  split
  · split
    · exact hstay k h rfl rfl rfl ‹_›
    · exact hdo k h rfl rfl
  · split
    · split
      · exact hstay _ (hcount _) rfl rfl rfl (by decide)
      · split
        · exact hstay _ (hcount _) rfl rfl rfl (by decide)
        · exact hdo _ (hcount _) rfl rfl
    · split
      · exact hstay k h rfl rfl rfl (by decide)
      · exact hdo k h rfl rfl
    · exact hdo k h rfl rfl

/-! ## Insertion -/

theorem mem_idsFrom (h : FullNormal full) :
    x ∈ idsFrom full last ↔ FullNormal x ∧ full ≤ x ∧ x ≤ last := by
  fun_induction idsFrom full last with
  | case1 full hle ih =>
    rw [mem_cons, ih (fullNormal_advance (.inl h))]
    constructor
    · rintro (rfl | ⟨hx, hge, hlast⟩)
      · exact ⟨h, le_rfl, hle⟩
      · exact ⟨hx, (lt_advance full).le.trans hge, hlast⟩
    · rintro ⟨hx, hge, hlast⟩
      rcases hge.eq_or_lt with rfl | hlt
      · exact .inl rfl
      · exact .inr ⟨hx, advance_le (.inl h) hx hlt, hlast⟩
  | case2 full hgt =>
    simp only [not_mem_nil, false_iff]
    rintro ⟨-, hge, hlast⟩
    exact hgt (hge.trans hlast)

theorem idsFrom_sorted (h : FullNormal full) :
    (idsFrom full last).Pairwise (· < ·) := by
  fun_induction idsFrom full last with
  | case1 full hle ih =>
    have hn := fullNormal_advance (.inl h)
    refine pairwise_cons.mpr ⟨fun x hx => ?_, ih hn⟩
    exact (lt_advance full).trans_le ((mem_idsFrom hn).mp hx).2.1
  | case2 => exact List.Pairwise.nil

theorem length_idsFrom (h : FullNormal full) (hle : full ≤ last)
    (hnear : last < full + 2 ^ 31) (hword : xidFromFull full ≤ xidFromFull last) :
    (idsFrom full last).length = xidFromFull last - xidFromFull full + 1 := by
  fun_induction idsFrom full last with
  | case1 full _ ih =>
    rcases hle.eq_or_lt with rfl | hlt
    · have := lt_advance full
      rw [idsFrom, if_neg (by omega), length_singleton, Nat.sub_self]
    · have hadv : fullTransactionIdAdvance full = full + 1 := by
        have h3 : 3 ≤ full % 2 ^ 32 := h
        rw [xidFromFull, xidFromFull] at hword
        rw [advance_eq (.inl h)]
        omega
      have hnext : xidFromFull (full + 1) = xidFromFull full + 1 := by
        rw [xidFromFull, xidFromFull] at *
        omega
      have hword' : xidFromFull full < xidFromFull last := by
        rw [xidFromFull, xidFromFull] at *
        omega
      rw [hadv] at ih ⊢
      have hnormal : FullNormal (full + 1) := hadv ▸ fullNormal_advance (.inl h)
      rw [length_cons, ih hnormal hlt (by omega) (by omega), hnext]
      omega
  | case2 full hgt => exact absurd hle hgt

theorem countXids_eq {full last fuel : ℕ} {n : ℕ} (hfull : InWindow base full)
    (hlast : InWindow base last) (hle : full ≤ last) (hfuel : last - full < fuel) :
    countXids (xidFromFull last) fuel (xidFromFull full) n =
      n + (idsFrom full last).length - 1 := by
  induction fuel generalizing full n with
  | zero => cases hfuel
  | succ fuel ih =>
    rw [countXids, idsFrom, if_pos hle, length_cons]
    by_cases hlt : full < last
    · have hadv := advance_le (.inl hfull.1) hlast.1 hlt
      have hlt' := lt_advance full
      have hnext : InWindow base (fullTransactionIdAdvance full) :=
        ⟨fullNormal_advance (.inl hfull.1), hfull.2.1.trans hlt'.le, hadv.trans_lt hlast.2.2⟩
      rw [if_pos ((precedes_iff hfull.1 hlast.1 (hfull.near hlast)).mpr hlt),
        advance_xid (.inl hfull.1), ih hnext hadv (by omega)]
      omega
    · have := lt_advance full
      rw [if_neg (mt (precedes_iff hfull.1 hlast.1 (hfull.near hlast)).mp hlt), idsFrom,
        if_neg (by omega)]
      rfl

theorem numberOfXids_eq (hfull : InWindow base full) (hlast : InWindow base last)
    (hle : full ≤ last) :
    numberOfXids (xidFromFull full) (xidFromFull last) = (idsFrom full last).length := by
  have hnear := (hlast.near hfull).1
  rw [numberOfXids]
  split
  · rename_i hword
    rw [length_idsFrom hfull.1 hle hnear hword]
  · rw [countXids_eq hfull hlast hle (by omega)]
    omega

theorem insertLoop_spec {full : ℕ} (last : ℕ) (hfull : FullNormal full) (hl : k.Seg i l) :
    ∃ k', k.insertLoop (i + l.length) (xidFromFull full) (idsFrom full last).length = k' ∧
      k'.Seg i (l ++ (idsFrom full last).map (·, true)) ∧
      k'.head = i + (l ++ (idsFrom full last).map (·, true)).length ∧ k'.tail = k.tail ∧
      k'.num = k.num ∧ k'.max = k.max := by
  fun_induction idsFrom full last generalizing k l with
  | case1 full hle ih =>
    let k₁ : KnownAssigned := { k with
      xids := update k.xids (i + l.length) (xidFromFull full)
      valid := update k.valid (i + l.length) true }
    have hl₁ : k₁.Seg i (l ++ [(full, true)]) := hl.update rfl rfl
    obtain ⟨k', heq, hrest⟩ := ih (fullNormal_advance (.inl hfull)) hl₁
    refine ⟨k', ?_, ?_⟩
    · rw [length_cons, insertLoop, advance_xid (.inl hfull)]
      rwa [length_append, length_singleton, ← add_assoc] at heq
    · simpa using hrest
  | case2 full hgt =>
    refine ⟨_, rfl, ?_, ?_, rfl, rfl, rfl⟩
    · rw [map_nil, append_nil]
      exact hl.congr fun _ _ _ => ⟨rfl, rfl⟩
    · rw [map_nil, append_nil]
      rfl

theorem Holds.insertXids (h : k.Holds l) (hfull : FullNormal full)
    (hroom : l.length + (idsFrom full last).length + k.tail ≤ k.max) :
    ∃ k', k.insertXids (xidFromFull full) (idsFrom full last).length = (k', none) ∧
      k'.Holds (l ++ (idsFrom full last).map (·, true)) ∧
      k'.num = k.num + (idsFrom full last).length ∧ k'.max = k.max ∧ k'.tail = k.tail := by
  obtain ⟨k', heq, hseg, hhead, htail, hnum, hmax⟩ := insertLoop_spec last hfull h.seg
  rw [← h.head] at heq
  refine ⟨{ k' with num := k'.num + (idsFrom full last).length }, ?_, ⟨?_, ?_⟩, ?_, hmax, htail⟩
  · have := h.head
    rw [KnownAssigned.insertXids, if_neg (by omega), heq]
  · rw [htail]
    exact hseg.congr fun _ _ _ => ⟨rfl, rfl⟩
  · rw [htail]
    exact hhead
  · rw [hnum]

/-! ## Search -/

/-- Ids in the window and in order. -/
structure Sorted (base : ℕ) (l : List (ℕ × Bool)) : Prop where
  window : ∀ e ∈ l, InWindow base e.1
  lt : l.Pairwise fun e e' => e.1 < e'.1

theorem Sorted.get_le (h : Sorted base l) (hj' : j' < l.length) (hle : j ≤ j') :
    (l.get ⟨j, hle.trans_lt hj'⟩).1 ≤ (l.get ⟨j', hj'⟩).1 := by
  rcases hle.eq_or_lt with rfl | hlt
  · exact le_rfl
  · exact (pairwise_iff_getElem.mp h.lt j j' (hle.trans_lt hj') hj' hlt).le

/-- The search ends at the place of the id, or it is in no entry. -/
theorem searchLoop_spec {first stop : ℕ} (h : k.Holds l) (hs : Sorted base l)
    (hx : InWindow base x) (hfirst : k.tail ≤ first) (hstop : stop ≤ k.head)
    (hbelow : ∀ j (hj : j < l.length), k.tail + j < first → (l.get ⟨j, hj⟩).1 < x)
    (habove : ∀ j (hj : j < l.length), stop ≤ k.tail + j → x < (l.get ⟨j, hj⟩).1) :
    (k.searchLoop (xidFromFull x) first stop = none ∧ ∀ e ∈ l, e.1 ≠ x) ∨
      ∃ j, ∃ hj : j < l.length, k.searchLoop (xidFromFull x) first stop = some (k.tail + j) ∧
        (l.get ⟨j, hj⟩).1 = x := by
  have hhead := h.head
  by_cases hlt : first < stop
  · obtain ⟨j, hmid⟩ : ∃ j, (first + (stop - 1)) / 2 = k.tail + j :=
      ⟨(first + (stop - 1)) / 2 - k.tail, by omega⟩
    have hj : j < l.length := by omega
    have hget := (h.seg.get hj).1
    have hm := hs.window _ (l.get_mem ⟨j, hj⟩)
    rw [searchLoop, dif_pos hlt]
    simp only [hmid, hget]
    split
    · rename_i heq
      obtain ⟨hn1, hn2⟩ := hx.near hm
      exact .inr ⟨j, hj, rfl, (xidFromFull_inj (by omega) (by omega) heq).symm⟩
    · rename_i hne
      have hne' : x ≠ (l.get ⟨j, hj⟩).1 := fun heq => hne (congrArg xidFromFull heq)
      split
      · rename_i hprec
        have hxm := (precedes_iff hx.1 hm.1 (hx.near hm)).mp hprec
        refine searchLoop_spec h hs hx hfirst (by omega) hbelow fun j' hj' hge => ?_
        exact hxm.trans_le (hs.get_le hj' (by omega))
      · rename_i hprec
        have hmx := mt (precedes_iff hx.1 hm.1 (hx.near hm)).mpr hprec
        refine searchLoop_spec h hs hx (by omega) hstop (fun j' hj' hle => ?_) habove
        have := hs.get_le hj (show j' ≤ j by omega)
        omega
  · refine .inl ⟨by rw [searchLoop, dif_neg hlt], fun e he heq => ?_⟩
    obtain ⟨⟨j, hj⟩, rfl⟩ := get_of_mem he
    rcases lt_or_ge (k.tail + j) first with hj' | hj'
    · exact (hbelow j hj hj').ne heq
    · exact (habove j hj (by omega)).ne' heq
termination_by stop - first
decreasing_by all_goals omega

theorem Holds.search (h : k.Holds l) (hs : Sorted base l) (hx : InWindow base x) :
    (k.searchLoop (xidFromFull x) k.tail k.head = none ∧ ∀ e ∈ l, e.1 ≠ x) ∨
      ∃ j, ∃ hj : j < l.length, k.searchLoop (xidFromFull x) k.tail k.head = some (k.tail + j) ∧
        (l.get ⟨j, hj⟩).1 = x := by
  have hhead := h.head
  exact searchLoop_spec h hs hx le_rfl le_rfl (fun j _ hj => by omega) fun j hj hge => by omega

/-! ## Removal -/

/-- The ids of the valid entries. -/
def liveIds (l : List (ℕ × Bool)) : List ℕ := (l.filter (·.2)).map (·.1)

/-- The entries from the first valid one on. -/
def trim (l : List (ℕ × Bool)) : List (ℕ × Bool) := l.dropWhile fun e => !e.2

/-- The entries with the marks of some ids cleared. -/
def clear (gone : ℕ → Bool) (l : List (ℕ × Bool)) : List (ℕ × Bool) :=
  l.map fun e => (e.1, e.2 && !gone e.1)

theorem seg_of_get (h : ∀ j (hj : j < l.length), k.xids (i + j) = xidFromFull (l.get ⟨j, hj⟩).1 ∧
    k.valid (i + j) = (l.get ⟨j, hj⟩).2) : k.Seg i l := by
  induction l generalizing i with
  | nil => trivial
  | cons e l ih =>
    refine ⟨h 0 (zero_lt_succ _), ih fun j hj => ?_⟩
    rw [add_assoc, add_comm 1 j]
    exact h (j + 1) (succ_lt_succ hj)

theorem skipInvalid_spec (h : k.Seg i l) :
    k.skipInvalid i l.length + (trim l).length = i + l.length ∧
      k.Seg (k.skipInvalid i l.length) (trim l) := by
  induction l generalizing i with
  | nil => exact ⟨rfl, trivial⟩
  | cons e l ih =>
    obtain ⟨full, _ | _⟩ := e
    · have hv : k.valid i = false := h.1.2
      have htrim : trim ((full, false) :: l) = trim l := rfl
      obtain ⟨hlen, hseg⟩ := ih h.2
      rw [length_cons, skipInvalid, if_neg (by simp [hv]), htrim]
      exact ⟨by omega, hseg⟩
    · have hv : k.valid i = true := h.1.2
      have htrim : trim ((full, true) :: l) = (full, true) :: l := rfl
      rw [length_cons, skipInvalid, if_pos hv, htrim]
      exact ⟨rfl, h⟩

theorem Holds.setTail (h : k.Holds l) :
    (k.setTail (k.skipInvalid k.tail (k.head - k.tail))).Holds (trim l) ∧
      (k.setTail (k.skipInvalid k.tail (k.head - k.tail))).num = k.num ∧
      (k.setTail (k.skipInvalid k.tail (k.head - k.tail))).max = k.max ∧
      (k.setTail (k.skipInvalid k.tail (k.head - k.tail))).head ≤ k.head := by
  obtain ⟨hlen, hseg⟩ := skipInvalid_spec h.seg
  have hhead := h.head
  rw [h.sub, KnownAssigned.setTail]
  split
  · have hnil : trim l = [] := length_eq_zero_iff.mp (by omega)
    rw [hnil]
    exact ⟨⟨trivial, rfl⟩, rfl, rfl, zero_le _⟩
  · refine ⟨⟨hseg.congr fun _ _ _ => ⟨rfl, rfl⟩, ?_⟩, rfl, rfl, le_rfl⟩
    change k.head = k.skipInvalid k.tail l.length + (trim l).length
    omega

theorem liveIds_clear (gone : ℕ → Bool) (l : List (ℕ × Bool)) :
    liveIds (clear gone l) = (liveIds l).filter (!gone ·) := by
  induction l with
  | nil => rfl
  | cons e l ih =>
    obtain ⟨full, _ | _⟩ := e
    · exact ih
    · cases hg : gone full
      · simpa [liveIds, clear, hg] using ih
      · simpa [liveIds, clear, hg] using ih

theorem liveIds_trim (l : List (ℕ × Bool)) : liveIds (trim l) = liveIds l := by
  induction l with
  | nil => rfl
  | cons e l ih =>
    obtain ⟨full, _ | _⟩ := e
    · exact ih
    · rfl

theorem liveIds_filter (l : List (ℕ × Bool)) : liveIds (l.filter (·.2)) = liveIds l := by
  simp [liveIds, filter_filter]

theorem trim_trim (l : List (ℕ × Bool)) : trim (trim l) = trim l :=
  dropWhile_idempotent ..

theorem trim_filter (l : List (ℕ × Bool)) : trim (l.filter (·.2)) = l.filter (·.2) := by
  induction l with
  | nil => rfl
  | cons e l ih =>
    obtain ⟨full, _ | _⟩ := e
    · exact ih
    · rfl

theorem mem_liveIds : x ∈ liveIds l ↔ (x, true) ∈ l := by
  simp [liveIds]

section

variable (h : Sorted base l)
include h

theorem Sorted.liveIds : (liveIds l).Pairwise (· < ·) :=
  pairwise_map.mpr (h.lt.filter _)

theorem Sorted.sublist {l' : List (ℕ × Bool)} (hl : l'.Sublist l) :
    Sorted base l' where
  window e he := h.window e (hl.subset he)
  lt := h.lt.sublist hl

theorem Sorted.clear (gone : ℕ → Bool) : Sorted base (clear gone l) where
  window e he := by
    obtain ⟨e', he', rfl⟩ := mem_map.mp he
    exact h.window e' he'
  lt := pairwise_map.mpr h.lt

theorem Sorted.get_inj (hj : j < l.length) (hj' : j' < l.length)
    (heq : (l.get ⟨j, hj⟩).1 = (l.get ⟨j', hj'⟩).1) : j = j' := by
  have hlt := pairwise_iff_getElem.mp h.lt
  rcases lt_trichotomy j j' with hlt' | rfl | hlt'
  · exact absurd heq (hlt j j' hj hj' hlt').ne
  · rfl
  · exact absurd heq (hlt j' j hj' hj hlt').ne'

end

theorem Holds.clear_at (h : k.Holds l) (hs : Sorted base l)
    (hj : j < l.length) (hget : (l.get ⟨j, hj⟩).1 = x) (hxids : k'.xids = k.xids)
    (hvalid : k'.valid = update k.valid (k.tail + j) false) (htail : k'.tail = k.tail)
    (hhead : k'.head = k.head) : k'.Holds (clear (· == x) l) := by
  refine ⟨?_, by rw [hhead, htail, h.head, clear, length_map]⟩
  rw [htail]
  refine seg_of_get fun j' hj' => ?_
  rw [clear, length_map] at hj'
  obtain ⟨hx, hv⟩ := h.seg.get hj'
  have hmap : (clear (· == x) l).get ⟨j', by rwa [clear, length_map]⟩ =
      ((l.get ⟨j', hj'⟩).1, (l.get ⟨j', hj'⟩).2 && !((l.get ⟨j', hj'⟩).1 == x)) := by
    simp [clear]
  rw [hmap, hxids, hvalid]
  refine ⟨hx, ?_⟩
  by_cases heq : j' = j
  · subst heq
    simp only [update_self, hget, beq_self_eq_true, Bool.not_true, Bool.and_false]
  · have hne : ((l.get ⟨j', hj'⟩).1 == x) = false := by
      rw [beq_eq_false_iff_ne, ← hget]
      exact fun heq' => heq (hs.get_inj hj' hj heq')
    rw [update_of_ne (by omega), hv, hne, Bool.not_false, Bool.and_true]

theorem clear_of_not_mem (h : x ∉ liveIds l) : clear (· == x) l = l := by
  rw [mem_liveIds] at h
  refine (map_congr_left fun e he => ?_).trans (map_id l)
  obtain ⟨full, _ | _⟩ := e
  · rfl
  · have hne : (full == x) = false := by
      rw [beq_eq_false_iff_ne]
      rintro rfl
      exact h he
    simp [hne]

theorem length_liveIds_clear (hs : Sorted base l) (h : x ∈ liveIds l) :
    (liveIds (clear (· == x) l)).length = (liveIds l).length - 1 := by
  have hnodup : (liveIds l).Nodup := hs.liveIds.imp fun h => h.ne
  rw [liveIds_clear, ← length_erase_of_mem h, hnodup.erase_eq_filter]
  rfl

theorem Sorted.mem_liveIds_iff (hs : Sorted base l) (hj : j < l.length)
    (hget : (l.get ⟨j, hj⟩).1 = x) : x ∈ KnownAssigned.liveIds l ↔ (l.get ⟨j, hj⟩).2 = true := by
  rw [mem_liveIds]
  constructor
  · intro hmem
    obtain ⟨⟨j', hj'⟩, hget'⟩ := get_of_mem hmem
    obtain rfl : j' = j := hs.get_inj hj' hj (by rw [hget', hget])
    rw [hget']
  · intro htrue
    have hmem := l.get_mem ⟨j, hj⟩
    rwa [show l.get ⟨j, hj⟩ = (x, true) from Prod.ext hget htrue] at hmem

theorem Holds.exists_iff (h : k.Holds l) (hs : Sorted base l) (hx : InWindow base x) :
    k.knownAssignedXidExists (xidFromFull x) = true ↔ x ∈ liveIds l := by
  rw [knownAssignedXidExists, KnownAssigned.search]
  rcases h.search hs hx with ⟨heq, hno⟩ | ⟨j, hj, heq, hget⟩
  · rw [heq, mem_liveIds]
    exact ⟨nofun, fun hmem => absurd rfl (hno _ hmem)⟩
  · rw [heq, hs.mem_liveIds_iff hj hget, ← (h.seg.get hj).2]
    cases hvalid : k.valid (k.tail + j) <;> simp [hvalid]

theorem valid_of_trim (h : trim (e :: l) = e :: l) : e.2 = true := by
  obtain ⟨full, _ | _⟩ := e
  · have hlen := congrArg List.length h
    have hle : (trim l).length ≤ l.length := (dropWhile_sublist _).length_le
    change (trim l).length = l.length + 1 at hlen
    omega
  · rfl

/-- The array after removing an id: the entry is marked, and the tail skips invalid entries. -/
theorem Holds.remove (h : k.Holds l) (hs : Sorted base l) (hx : InWindow base x)
    (htrim : trim l = l) (hnum : k.num = (liveIds l).length) :
    (k.remove (xidFromFull x)).Holds (trim (clear (· == x) l)) ∧
      (k.remove (xidFromFull x)).num = (liveIds (clear (· == x) l)).length ∧
      (k.remove (xidFromFull x)).max = k.max ∧ (k.remove (xidFromFull x)).head ≤ k.head := by
  rw [KnownAssigned.remove, KnownAssigned.search]
  by_cases hmem : x ∈ liveIds l
  · rcases h.search hs hx with ⟨heq, hno⟩ | ⟨j, hj, heq, hget⟩
    · exact absurd rfl (hno _ (mem_liveIds.mp hmem))
    · have hvalid : k.valid (k.tail + j) = true :=
        (h.seg.get hj).2.trans ((hs.mem_liveIds_iff hj hget).mp hmem)
      have hlen := length_liveIds_clear hs hmem
      rw [heq]
      simp only [hvalid, Bool.not_true, Bool.false_eq_true, if_false, if_true]
      generalize hk₁ : ({ k with
        valid := update k.valid (k.tail + j) false
        num := k.num - 1 } : KnownAssigned) = k₁
      have h₁ : k₁.Holds (clear (· == x) l) := by
        subst hk₁
        exact h.clear_at hs hj hget rfl rfl rfl rfl
      have hnum₁ : k₁.num = (liveIds (clear (· == x) l)).length := by
        rw [hlen, ← hnum, ← hk₁]
      have hmax₁ : k₁.max = k.max := by rw [← hk₁]
      have htail₁ : k₁.tail = k.tail := by rw [← hk₁]
      have hhead₁ : k₁.head = k.head := by rw [← hk₁]
      split
      · -- the tail entry is gone, so that skipping from it or from the next one is the same
        have hskip : k₁.skipInvalid (k.tail + 1) (k.head - (k.tail + 1)) =
            k₁.skipInvalid k₁.tail (k₁.head - k₁.tail) := by
          obtain rfl : j = 0 := by omega
          have hgone : k₁.valid k.tail = false := by
            rw [← hk₁]
            exact update_self _ _ _
          have hpos : k.head - k.tail = k.head - (k.tail + 1) + 1 := by
            have := h.sub
            omega
          rw [htail₁, hhead₁, hpos, skipInvalid, if_neg (by simp [hgone])]
        rw [hskip]
        obtain ⟨hholds, hnum', hmax', hhead'⟩ := h₁.setTail
        exact ⟨hholds, hnum'.trans hnum₁, hmax'.trans hmax₁, hhead'.trans_eq hhead₁⟩
      · -- the tail entry is another one, and stays valid
        have hkeep : trim (clear (· == x) l) = clear (· == x) l := by
          cases l with
          | nil => rfl
          | cons e l =>
            have he := valid_of_trim htrim
            have hne : (e.1 == x) = false := by
              rw [beq_eq_false_iff_ne, ← hget]
              intro heq'
              have := hs.get_inj (zero_lt_succ _) hj heq'
              omega
            simp [trim, clear, he, hne]
        rw [hkeep]
        exact ⟨h₁, hnum₁, hmax₁, hhead₁.le⟩
  · rw [clear_of_not_mem hmem, htrim]
    rcases h.search hs hx with ⟨heq, -⟩ | ⟨j, hj, heq, hget⟩
    · rw [heq]
      exact ⟨h, hnum, rfl, le_rfl⟩
    · have hvalid : k.valid (k.tail + j) = false := by
        rw [(h.seg.get hj).2, Bool.eq_false_iff]
        exact mt (hs.mem_liveIds_iff hj hget).mpr hmem
      rw [heq]
      simp only [hvalid, Bool.not_false, if_true, le_refl, and_true]
      exact ⟨h, hnum⟩

/-- Pruning clears the marks of the ids before the given one that are not prepared. -/
def pruned (isPrepared : ℕ → Bool) (x full : ℕ) : Bool :=
  decide (full < x) && !isPrepared (xidFromFull full)

theorem clear_eq_self {gone : ℕ → Bool} (h : ∀ e ∈ l, gone e.1 = false) : clear gone l = l := by
  refine (map_congr_left fun e he => ?_).trans (map_id l)
  simp [h e he]

theorem pruneLoop_spec {isPrepared : ℕ → Bool} (count : ℕ) (h : k.Seg i l) (hs : Sorted base l)
    (hx : InWindow base x) :
    ∃ k' count', k.pruneLoop (xidFromFull x) isPrepared i count l.length = (k', count') ∧
      k'.Seg i (clear (pruned isPrepared x) l) ∧
      count' + (liveIds (clear (pruned isPrepared x) l)).length = count + (liveIds l).length ∧
      (∀ j < i, k'.xids j = k.xids j ∧ k'.valid j = k.valid j) ∧
      k'.tail = k.tail ∧ k'.head = k.head ∧ k'.num = k.num ∧ k'.max = k.max := by
  induction l generalizing k i count with
  | nil => exact ⟨k, count, rfl, trivial, rfl, fun _ _ => ⟨rfl, rfl⟩, rfl, rfl, rfl, rfl⟩
  | cons e l ih =>
    have hlt := (pairwise_cons.mp hs.lt).1
    have hwin := hs.window e mem_cons_self
    have hs' := hs.sublist (sublist_cons_self e l)
    obtain ⟨⟨hxid, hvalid⟩, hseg⟩ := h
    obtain ⟨full, _ | _⟩ := e
    · obtain ⟨k', count', heq, hseg', hcount, hframe, hfields⟩ := ih count hseg hs'
      obtain ⟨hx', hv'⟩ := hframe i (lt_succ_self i)
      refine ⟨k', count', ?_, ⟨⟨hx'.trans hxid, hv'.trans hvalid⟩, hseg'⟩, hcount,
        fun j hj => hframe j (lt_succ_of_lt hj), hfields⟩
      rw [length_cons, pruneLoop, if_neg (by simp [hvalid])]
      exact heq
    · rw [length_cons, pruneLoop, if_pos hvalid, hxid]
      have hfollows := followsOrEquals_iff hwin.1 hx.1 (hwin.near hx)
      split
      · -- the array is sorted, so nothing further is before the id
        rename_i hge
        have hge' := hfollows.mp hge
        have hkeep : clear (pruned isPrepared x) ((full, true) :: l) = (full, true) :: l := by
          refine clear_eq_self fun e he => ?_
          have hle : full ≤ e.1 := (mem_cons.mp he).elim (fun h => h ▸ le_rfl)
            fun h => (hlt e h).le
          have hnot : ¬ e.1 < x := by omega
          simp [pruned, hnot]
        rw [hkeep]
        exact ⟨k, count, rfl, ⟨⟨hxid, hvalid⟩, hseg⟩, rfl, fun _ _ => ⟨rfl, rfl⟩, rfl, rfl, rfl,
          rfl⟩
      · rename_i hge
        have hbefore : full < x := not_le.mp (mt hfollows.mpr hge)
        cases hprep : isPrepared (xidFromFull full) with
        | false =>
          let k₁ : KnownAssigned := { k with valid := update k.valid i false }
          have hseg₁ : k₁.Seg (i + 1) l := hseg.congr fun j hj _ =>
            ⟨rfl, update_of_ne (by omega) _ _⟩
          obtain ⟨k', count', heq, hseg', hcount, hframe, hfields⟩ := ih (count + 1) hseg₁ hs'
          obtain ⟨hx', hv'⟩ := hframe i (lt_succ_self i)
          have hclear : clear (pruned isPrepared x) ((full, true) :: l) =
              (full, false) :: clear (pruned isPrepared x) l := by
            simp [clear, pruned, hbefore, hprep]
          rw [hclear]
          have hcleared := hv'.trans (update_self i false k.valid)
          refine ⟨k', count', heq, ⟨⟨hx'.trans hxid, hcleared⟩, hseg'⟩, ?_, fun j hj => ?_, hfields⟩
          · have hlen : (liveIds ((full, true) :: l)).length = (liveIds l).length + 1 := rfl
            change count' + (liveIds (clear (pruned isPrepared x) l)).length = _
            omega
          · obtain ⟨hxj, hvj⟩ := hframe j (lt_succ_of_lt hj)
            exact ⟨hxj, hvj.trans (update_of_ne (by omega) _ _)⟩
        | true =>
          obtain ⟨k', count', heq, hseg', hcount, hframe, hfields⟩ := ih count hseg hs'
          obtain ⟨hx', hv'⟩ := hframe i (lt_succ_self i)
          have hclear : clear (pruned isPrepared x) ((full, true) :: l) =
              (full, true) :: clear (pruned isPrepared x) l := by
            simp [clear, pruned, hprep]
          rw [hclear]
          refine ⟨k', count', heq, ⟨⟨hx'.trans hxid, hv'.trans hvalid⟩, hseg'⟩, ?_,
            fun j hj => hframe j (lt_succ_of_lt hj), hfields⟩
          change count' + ((liveIds (clear (pruned isPrepared x) l)).length + 1) =
            count + ((liveIds l).length + 1)
          omega

/-! ## Reading -/

theorem xidFromFull_ne_invalid (h : FullNormal x) : xidFromFull x ≠ invalidTransactionId := by
  intro h0
  have h3 : 3 ≤ xidFromFull x := h
  rw [h0] at h3
  cases h3

/-- The ids that precede `xmax`, and the new `xmin`: only the first id is compared. -/
theorem getLoop_spec {xmax : ℕ} {xs : List ℕ} {xmin : ℕ} (h : k.Seg i l) (hs : Sorted base l)
    (hmax : InWindow base xmax) :
    k.getLoop (xidFromFull xmax) i xs xmin l.length =
      (xs ++ ((liveIds l).filter (· < xmax)).map xidFromFull,
        match xs, liveIds l with
        | [], m :: _ => if transactionIdPrecedes (xidFromFull m) xmin then xidFromFull m else xmin
        | _, _ => xmin) := by
  induction l generalizing i xs xmin with
  | nil =>
    rw [length_nil, getLoop]
    cases xs <;> simp [liveIds]
  | cons e l ih =>
    have hlt := (pairwise_cons.mp hs.lt).1
    have hwin := hs.window e mem_cons_self
    have hs' := hs.sublist (sublist_cons_self e l)
    obtain ⟨⟨hxid, hvalid⟩, hseg⟩ := h
    obtain ⟨full, _ | _⟩ := e
    · rw [length_cons, getLoop, if_neg (by simp [hvalid]), ih hseg hs']
      rfl
    · have hlive : liveIds ((full, true) :: l) = full :: liveIds l := rfl
      have hfollows := followsOrEquals_iff hwin.1 hmax.1 (hwin.near hmax)
      rw [length_cons, getLoop, if_pos hvalid, hxid, hlive]
      by_cases hge : xmax ≤ full
      · have hnone : (full :: liveIds l).filter (· < xmax) = [] := by
          rw [filter_eq_nil_iff]
          intro x hx
          have hle : full ≤ x := (mem_cons.mp hx).elim (fun h => h ▸ le_rfl)
            fun h => (hlt (x, true) (mem_liveIds.mp h)).le
          simpa using hge.trans hle
        rw [if_pos ⟨xidFromFull_ne_invalid hmax.1, hfollows.mpr hge⟩, hnone]
        cases xs <;> simp
      · rw [if_neg (fun h => hge (hfollows.mp h.2)), ih hseg hs']
        cases xs <;> simp [not_le.mp hge]

end KnownAssigned

end PostgreSieve.Xact
