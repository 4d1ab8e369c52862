import PostgreSieve.IntegerSet.Content

/-! # Iterating over an integer set

A call returns the first of the values that remain: those of the decoded item, of the items after
it, of the leaves to the right, and of the buffer.
-/

namespace PostgreSieve.IntegerSet

open List

open Simple8b

variable {s t u : IntegerSet} {es : List (ℕ × ℕ)} {l xs : List ℕ} {x : ℕ}

/-- The values of the current array that were not returned yet. -/
def pending (s : IntegerSet) : List ℕ := (s.iterArray.take s.iterNumValues).drop s.iterValueno

/-- The values that remain when the current leaf and those to the right of it are `es`. -/
structure OnLeaves (s : IntegerSet) (es : List (ℕ × ℕ)) (l : List ℕ) : Prop where
  values : s.iterValues = .iterValuesBuf
  num : s.iterNumValues ≤ s.iterArray.length
  node : s.iterNode = es.head?.map Prod.snd
  item : ∀ e ∈ es.head?, s.iterItemno ≤ (s.nodes e.2).items.length
  chain : Chain s es
  rest : l = s.pending ++ ((es.flatMap fun e => (s.nodes e.2).items).drop s.iterItemno).flatMap
    LeafItem.values ++ s.bufferedValues

/-- The values that remain when there are no more leaves. -/
structure OnBuffer (s : IntegerSet) (l : List ℕ) : Prop where
  values : s.iterValues = .bufferedValues
  num : s.iterNumValues ≤ s.iterArray.length
  node : s.iterNode = none
  rest : l = s.pending

def Remaining (s : IntegerSet) (l : List ℕ) : Prop := (∃ es, OnLeaves s es l) ∨ OnBuffer s l

theorem lt_of_pending (h : s.pending ≠ []) : s.iterValueno < s.iterNumValues := by
  have hlen := length_pos_of_ne_nil h
  rw [pending, length_drop, length_take] at hlen
  omega

theorem not_lt_of_pending (hnum : s.iterNumValues ≤ s.iterArray.length) (h : s.pending = []) :
    ¬ s.iterValueno < s.iterNumValues := by
  rw [pending, drop_eq_nil_iff, length_take] at h
  omega

theorem iterateStep_pending (hnum : s.iterNumValues ≤ s.iterArray.length)
    (h : s.pending = x :: xs) :
    iterateStep s = .inr ({ s with iterValueno := s.iterValueno + 1 }, some x) ∧
      pending { s with iterValueno := s.iterValueno + 1 } = xs := by
  have hlt := lt_of_pending (h ▸ cons_ne_nil x xs)
  have hcons := drop_eq_getElem_cons (l := s.iterArray.take s.iterNumValues)
    (i := s.iterValueno) (by rw [length_take]; omega)
  change s.pending = _ at hcons
  rw [h, getElem_take, List.cons.injEq] at hcons
  refine ⟨?_, hcons.2.symm⟩
  rw [iterateStep, if_pos hlt, getD_eq_getElem _ _ (by omega), ← hcons.1]

/-- What a call returns when `l` remains. -/
def Next (s : IntegerSet) (l : List ℕ) : Prop :=
  ∃ t, Returns iterateStep s (t, l.head?) ∧
    match l with
    | [] => t.iterActive = false
    | _ :: xs => Remaining t xs

theorem Next.step (h : iterateStep s = .inl t) (hn : Next t l) : Next s l := by
  obtain ⟨u, hu, hrest⟩ := hn
  exact ⟨u, hu.next h, hrest⟩

theorem OnBuffer.next (h : OnBuffer s l) : Next s l := by
  obtain ⟨hval, hnum, hnode, rfl⟩ := h
  cases hp : s.pending with
  | nil =>
    have hlt := not_lt_of_pending hnum hp
    refine ⟨{ s with iterActive := false }, .done ?_, rfl⟩
    simp [iterateStep, hlt, hnode, hval]
  | cons x xs =>
    obtain ⟨hstep, hrest⟩ := iterateStep_pending hnum hp
    exact ⟨_, .done hstep, .inr ⟨hval, hnum, hnode, hrest.symm⟩⟩

theorem OnLeaves.next_pending (es : List (ℕ × ℕ)) (h : OnLeaves s es l)
    (hp : s.pending ≠ []) : Next s l := by
  obtain ⟨x, xs, hp⟩ := exists_cons_of_ne_nil hp
  obtain ⟨hval, hnum, hnode, hitem, hchain, rfl⟩ := h
  obtain ⟨hstep, hrest⟩ := iterateStep_pending hnum hp
  rw [hp]
  refine ⟨_, .done hstep, .inl ⟨es, hval, hnum, hnode, hitem, hchain.congr fun _ _ => rfl, ?_⟩⟩
  rw [hrest]
  rfl

theorem OnLeaves.next_item {e : ℕ × ℕ} (h : OnLeaves s (e :: es) l) (hp : s.pending = [])
    (hlt : s.iterItemno < (s.nodes e.2).items.length) : Next s l := by
  obtain ⟨hval, hnum, hnode, hitem, hchain, hl⟩ := h
  have hstep : iterateStep s = .inl { s with
      iterItemno := s.iterItemno + 1
      iterValuesBuf := ((s.nodes e.2).items[s.iterItemno]).values
      iterNumValues := ((s.nodes e.2).items[s.iterItemno]).values.length
      iterValueno := 0 } := by
    simp only [iterateStep, if_neg (not_lt_of_pending hnum hp), hnode, List.head?_cons,
      Option.map_some, if_pos hlt, getD_eq_getElem _ _ hlt, LeafItem.values, length_cons]
  refine .step hstep (OnLeaves.next_pending (e :: es) ⟨hval, ?_, hnode, ?_,
    hchain.congr fun _ _ => rfl, ?_⟩ ?_)
  · simp [iterArray, hval]
  · intro f hf
    rw [List.head?_cons, Option.mem_some_iff] at hf
    exact hf ▸ hlt
  · have hdrop : ((e :: es).flatMap fun e => (s.nodes e.2).items).drop s.iterItemno =
        (s.nodes e.2).items[s.iterItemno] ::
          ((e :: es).flatMap fun e => (s.nodes e.2).items).drop (s.iterItemno + 1) := by
      have hlt' : s.iterItemno < ((e :: es).flatMap fun e => (s.nodes e.2).items).length := by
        rw [flatMap_cons, length_append]
        omega
      rw [drop_eq_getElem_cons hlt']
      simp only [flatMap_cons, getElem_append_left hlt]
    rw [hl, hp, hdrop]
    simp [pending, iterArray, hval]
  · simp [pending, iterArray, hval, LeafItem.values]

theorem OnLeaves.next (h : OnLeaves s es l) : Next s l := by
  -- a leaf whose items are used up is left for the one to its right
  induction es generalizing s with
  | nil =>
    cases hp : s.pending with
    | cons x xs => exact h.next_pending _ (hp ▸ cons_ne_nil x xs)
    | nil =>
      have hlt := not_lt_of_pending h.num hp
      refine .step (t := { s with
        iterValues := .bufferedValues
        iterNumValues := s.bufferedValues.length
        iterValueno := 0 }) ?_ (OnBuffer.next ⟨rfl, le_rfl, h.node, ?_⟩)
      · simp [iterateStep, hlt, h.node, h.values]
      · rw [h.rest, hp]
        simp [pending, iterArray]
  | cons e es ih =>
    cases hp : s.pending with
    | cons x xs => exact h.next_pending _ (hp ▸ cons_ne_nil x xs)
    | nil =>
      have hlt := not_lt_of_pending h.num hp
      rcases Nat.lt_or_ge s.iterItemno (s.nodes e.2).items.length with hi | hi
      · exact h.next_item hp hi
      · have heq : s.iterItemno = (s.nodes e.2).items.length := le_antisymm (h.item e rfl) hi
        refine .step (t := { s with iterNode := (s.nodes e.2).next, iterItemno := 0 }) ?_
          (ih ⟨h.values, h.num, h.chain.1, fun _ _ => Nat.zero_le _, h.chain.2.congr fun _ _ => rfl,
            ?_⟩)
        · simp [iterateStep, hlt, h.node, heq]
        · rw [h.rest, flatMap_cons, heq, drop_left]
          rfl

/-- A call returns the first of the remaining values. -/
theorem Remaining.next (h : Remaining s l) : Next s l := by
  rcases h with ⟨es, h⟩ | h
  · exact h.next
  · exact h.next

theorem Represents.remaining (h : Represents s l) : Remaining s.intsetBeginIterate l := by
  obtain ⟨vs, hpacked, rfl⟩ := h.packed
  rcases hpacked with ⟨-, -, hleft, rfl⟩ | ⟨E, m, htree, -, rfl⟩
  · exact .inl ⟨[], rfl, Nat.zero_le _, hleft, nofun, trivial, by
      simp [pending, intsetBeginIterate]⟩
  · refine .inl ⟨E 0, rfl, Nat.zero_le _, htree.leftmost, fun _ _ => Nat.zero_le _,
      htree.chain.congr fun _ _ => rfl, ?_⟩
    simp [pending, intsetBeginIterate, Tree.values, Tree.items]

/-! ## Passes over the set -/

/-- Successive calls of `intset_iterate_next` return the listed values. -/
inductive Gives : IntegerSet → List ℕ → IntegerSet → Prop
  | nil {s : IntegerSet} : Gives s [] s
  | cons {s t u : IntegerSet} {x fuel : ℕ} {xs : List ℕ}
      (hx : s.intsetIterateNext fuel = some (t, some x)) (hxs : Gives t xs u) : Gives s (x :: xs) u

theorem Remaining.gives (h : Remaining s l) : ∃ t, Gives s l t ∧
    ∃ fuel u, t.intsetIterateNext fuel = some (u, none) ∧ u.iterActive = false := by
  induction l generalizing s with
  | nil =>
    obtain ⟨u, ⟨fuel, hu⟩, hact⟩ := h.next
    exact ⟨s, .nil, fuel, u, hu, hact⟩
  | cons x xs ih =>
    obtain ⟨t, ⟨fuel, ht⟩, hrest⟩ := h.next
    obtain ⟨u, hu, hend⟩ := ih hrest
    exact ⟨u, .cons ht hu, hend⟩

theorem iterActive_of_step (h : iterateStep s = .inl t) : t.iterActive = s.iterActive := by
  unfold iterateStep at h
  grind

theorem iterActive_of_return (h : iterateStep s = .inr (t, some x)) :
    t.iterActive = s.iterActive := by
  unfold iterateStep at h
  grind

theorem Gives.iterActive (h : Gives s l t) : t.iterActive = s.iterActive := by
  induction h with
  | nil => rfl
  | @cons s t u x fuel xs hx hxs ih =>
    refine ih.trans (iterate_invariant (I := fun v => v.iterActive = s.iterActive)
      (Q := fun r => r.2 ≠ none → r.1.iterActive = s.iterActive) hx rfl ?_ ?_ nofun)
    · exact fun v w hv hw => (iterActive_of_step hw).trans hv
    · rintro v ⟨w, _ | y⟩ hv hw hne
      · exact absurd rfl hne
      · exact (iterActive_of_return hw).trans hv

/-! ## The set as a whole -/

/-- Add the listed values, up to the first error. -/
def addMembers : IntegerSet → List ℕ → IntegerSet × Option String
  | s, [] => (s, none)
  | s, x :: xs =>
    match s.intsetAddMember x with
    | (t, none) => addMembers t xs
    | (t, some e) => (t, some e)

theorem Represents.addMembers (h : Represents s l) (hiter : s.iterActive = false)
    (hs : (l ++ xs).Pairwise (· < ·)) (hlt : ∀ x ∈ xs, x < 2 ^ 64) :
    ∃ t, s.addMembers xs = (t, none) ∧ Represents t (l ++ xs) ∧ t.iterActive = false := by
  induction xs generalizing s l with
  | nil => exact ⟨s, rfl, by rwa [append_nil], hiter⟩
  | cons x xs ih =>
    obtain ⟨-, -, hgt⟩ := pairwise_append.mp hs
    obtain ⟨herr, hrep, hact⟩ := h.addMember (hlt x mem_cons_self)
      (fun y hy => hgt y hy x mem_cons_self) hiter
    have hsplit : l ++ x :: xs = (l ++ [x]) ++ xs := by simp
    obtain ⟨t, ht, hrep', hact'⟩ := ih hrep hact (hsplit ▸ hs)
      fun y hy => hlt y (mem_cons_of_mem x hy)
    rw [← hsplit] at hrep'
    refine ⟨t, ?_, hrep', hact'⟩
    have hadd : s.intsetAddMember x = ((s.intsetAddMember x).1, none) := Prod.ext rfl herr
    rw [IntegerSet.addMembers, hadd]
    exact ht

theorem represents_members (hs : l.Pairwise (· < ·)) (hlt : ∀ x ∈ l, x < 2 ^ 64) :
    ∃ s, intsetCreate.addMembers l = (s, none) ∧ Represents s l ∧ s.iterActive = false := by
  obtain ⟨s, hadd, hrep, hact⟩ := represents_create.addMembers rfl hs hlt
  exact ⟨s, hadd, hrep, hact⟩

theorem Represents.outOfOrder (h : Represents s l) (hact : s.iterActive = false)
    (hlen : l.length < 2 ^ 64) {y : ℕ} (hy : y ∈ l.getLast?) (hx : x ≤ y) :
    s.intsetAddMember x = (s, some "cannot add value to integer set out of order") := by
  have hpos := length_pos_of_mem (mem_of_getLast? hy)
  have hnum := h.numEntries
  rw [intsetAddMember, if_neg (by simp [hact]), if_pos ⟨by rwa [h.highest y hy], by omega⟩]

/-- A set to which increasing values were added holds these values. The number of entries is
counted modulo `2 ^ 64`. -/
theorem integerset_faithful (l : List ℕ) (hs : l.Pairwise (· < ·)) (hlt : ∀ x ∈ l, x < 2 ^ 64) :
    ∃ s, intsetCreate.addMembers l = (s, none) ∧
      (∀ x < 2 ^ 64, s.intsetIsMember x = true ↔ x ∈ l) ∧
      (∃ t, Gives s.intsetBeginIterate l t ∧
        ∃ fuel u, t.intsetIterateNext fuel = some (u, none) ∧ u.iterActive = false) ∧
      s.intsetNumEntries = l.length % 2 ^ 64 ∧
      (l.length < 2 ^ 64 → ∀ y ∈ l.getLast?, ∀ x ≤ y,
        s.intsetAddMember x = (s, some "cannot add value to integer set out of order")) ∧
      ∀ xs t x, Gives s.intsetBeginIterate xs t → t.intsetAddMember x =
        (t, some "cannot add new values to integer set while iteration is in progress") := by
  obtain ⟨s, hadd, hrep, hact⟩ := represents_members hs hlt
  refine ⟨s, hadd, fun x hx => hrep.isMember_iff hx, hrep.remaining.gives, hrep.numEntries,
    fun hlen y hy x hx => hrep.outOfOrder hact hlen hy hx, fun xs t x ht => ?_⟩
  have hiter : t.iterActive = true := ht.iterActive
  rw [intsetAddMember, if_pos hiter]

theorem integerset_faithful_three : ∃ s, intsetCreate.addMembers [3, 5, 2 ^ 64 - 1] = (s, none) ∧
    s.intsetIsMember 5 = true ∧ s.intsetIsMember 4 = false ∧ s.intsetNumEntries = 3 ∧
    ∃ t, Gives s.intsetBeginIterate [3, 5, 2 ^ 64 - 1] t := by
  obtain ⟨s, hadd, hmem, ⟨t, ht, -⟩, hnum, -⟩ :=
    integerset_faithful [3, 5, 2 ^ 64 - 1] (by decide) (by decide)
  refine ⟨s, hadd, (hmem 5 (by decide)).mpr (by decide), ?_, hnum, t, ht⟩
  rw [← Bool.not_eq_true, hmem 4 (by decide)]
  decide

/-- With all values in the set, the counter is back at zero, and any value is accepted. -/
theorem integerset_wraps : ∃ s, intsetCreate.addMembers (List.range (2 ^ 64)) = (s, none) ∧
    s.intsetNumEntries = 0 ∧ (s.intsetAddMember 0).2 = none := by
  obtain ⟨s, hadd, hrep, hact⟩ := represents_members (l := List.range (2 ^ 64))
    pairwise_lt_range fun x hx => mem_range.mp hx
  have hnum : s.numEntries = 0 := by rw [hrep.numEntries, length_range, Nat.mod_self]
  refine ⟨s, hadd, hnum, ?_⟩
  obtain ⟨t, ht, -⟩ := hrep.makeRoom
  rw [intsetAddMember, if_neg (by simp [hact]), if_neg (by simp [hnum]), ht]

end PostgreSieve.IntegerSet
