import PostgreSieve.Heap.Calls

/-! # Hint bits are transparent

A right hint does not change what `HeapTupleSatisfiesMVCC` answers, whatever the snapshot. Headers
that the routines have gone over any number of times therefore answer as the original one does.
-/

namespace PostgreSieve.Heap

variable {members : ℕ → List MultiXactMember} {v : Visit members} {snapshot : Visit.MvccSnapshot}
  {o : Oracle} {t t' : HeapTupleHeader}

/-- The answer of `HeapTupleSatisfiesMVCC`, without the hints it sets. -/
def Visit.mvccVisible (v : Visit members) (snapshot : MvccSnapshot) (t : HeapTupleHeader) :
    Except String Bool :=
  (v.heapTupleSatisfiesMVCC snapshot t).map Prod.snd

/-! ## The answer in terms of the original header -/

/-- The answer that goes with what was found out about the inserter. -/
def Visit.mvccAnswer (v : Visit members) (snapshot : MvccSnapshot) (t : HeapTupleHeader) :
    Inserter → Bool
  | .gone => false
  | .current => (v.mvccOwn snapshot t).2
  | .running => false
  | .committed => (v.mvccXmax snapshot t).2

theorem Visit.mvccXmax_snd (c i : Bool) :
    (v.mvccXmax snapshot { t with xminCommitted := c, xminInvalid := i }).2 =
      (v.mvccXmax snapshot t).2 := by
  simp only [mvccXmax, apply_ite Prod.snd]
  rfl

theorem Visit.mvccOwn_snd (c i : Bool) :
    (v.mvccOwn snapshot { t with xminCommitted := c, xminInvalid := i }).2 =
      (v.mvccOwn snapshot t).2 := by
  simp only [mvccOwn, apply_ite Prod.snd]
  rfl

theorem Visit.cleanMoved_eq {visible : Bool} (h : v.heapTupleCleanMoved t = .ok (t', visible)) :
    ∃ c i, t' = { t with xminCommitted := c, xminInvalid := i } := by
  unfold heapTupleCleanMoved at h
  split at h
  · cases h; exact ⟨_, _, rfl⟩
  split at h
  · cases h
  split at h
  · cases h
  split at h <;> split at h <;> cases h <;> exact ⟨_, _, rfl⟩

variable {isRunning : ℕ → Bool} (c i : Bool)

theorem Visit.inserter_eq {r : Inserter} (h : v.inserter isRunning t = .ok (t', r)) :
    ∃ c i, t' = { t with xminCommitted := c, xminInvalid := i } := by
  unfold inserter at h
  split at h
  · cases h; exact ⟨_, _, rfl⟩
  obtain ⟨⟨t₁, visible⟩, hclean, h⟩ := bind_eq_ok h
  obtain ⟨c, i, rfl⟩ := cleanMoved_eq hclean
  dsimp only at h
  split at h
  · cases h; exact ⟨_, _, rfl⟩
  split at h
  · cases h; exact ⟨_, _, rfl⟩
  split at h
  · cases h; exact ⟨_, _, rfl⟩
  split at h
  · unfold hintXminCommitted at h
    split at h <;> cases h <;> exact ⟨_, _, rfl⟩
  · cases h; exact ⟨_, _, rfl⟩

theorem Visit.mvccVisible_of_unhinted (hc : t.xminCommitted = false) :
    v.mvccVisible snapshot t =
      (v.inserter (v.inSnapshot snapshot) t).map fun p => v.mvccAnswer snapshot t p.2 := by
  unfold mvccVisible heapTupleSatisfiesMVCC
  rw [if_pos (by simp [hc])]
  cases hins : v.inserter (v.inSnapshot snapshot) t with
  | error e => rfl
  | ok p =>
    obtain ⟨t₁, r⟩ := p
    obtain ⟨c, i, rfl⟩ := inserter_eq hins
    cases r with
    | gone => rfl
    | current => exact congrArg Except.ok (mvccOwn_snd c i)
    | running => rfl
    | committed => exact congrArg Except.ok (mvccXmax_snd c i)

theorem Visit.mvccVisible_of_hinted (hc : t.xminCommitted = true) :
    v.mvccVisible snapshot t =
      .ok (if !t.xminInvalid && v.inSnapshot snapshot t.xmin then false
        else (v.mvccXmax snapshot t).2) := by
  unfold mvccVisible heapTupleSatisfiesMVCC
  rw [if_neg (by simp [hc])]
  simp only [HeapTupleHeader.xminFrozen, hc, Bool.true_and]
  split <;> rfl

/-! ## Inserters that have ended -/

theorem Visit.cleanMoved_of_inPlace (hp : InPlace (v.oracle 0) t) :
    ∃ t', v.heapTupleCleanMoved t = .ok (t', true) ∧ t'.xmin = t.xmin := by
  have hlater := v.later 0 1 (by decide)
  unfold heapTupleCleanMoved
  by_cases hoff : t.movedOff = true
  · have habort := hp.1 hoff
    have hcur := not_current (v := v) (.inr habort)
    have hprog := not_inProgress_of_ended (.inr habort)
    have hcommit := not_didCommit_of_aborted (hlater.aborted habort)
    exact ⟨{ t with xminCommitted := true }, by simp [hoff, hcur, hprog, hcommit], rfl⟩
  by_cases hin : t.movedIn = true
  · have hx := hp.2 (by simpa using hoff) hin
    have hcur := not_current (v := v) (.inl hx)
    have hprog := not_inProgress_of_ended (.inl hx)
    have hcommit := didCommit_of_committed (hlater.committed hx)
    exact ⟨{ t with xminCommitted := true }, by simp [hoff, hin, hcur, hprog, hcommit], rfl⟩
  · exact ⟨t, by simp [hoff, hin], rfl⟩

theorem Visit.cleanMoved_of_movedAway (h : MovedAway (v.oracle 0) t) :
    ∃ t', v.heapTupleCleanMoved t = .ok (t', false) := by
  have hlater := v.later 0 1 (by decide)
  unfold heapTupleCleanMoved
  rcases h with ⟨hoff, hx⟩ | ⟨hoff, hin, hx⟩
  · have hcur := not_current (v := v) (.inl hx)
    have hprog := not_inProgress_of_ended (.inl hx)
    have hcommit := didCommit_of_committed (hlater.committed hx)
    exact ⟨hintXminInvalid t, by simp [hoff, hcur, hprog, hcommit]⟩
  · have hcur := not_current (v := v) (.inr hx)
    have hprog := not_inProgress_of_ended (.inr hx)
    have hcommit := not_didCommit_of_aborted (hlater.aborted hx)
    exact ⟨hintXminInvalid t, by simp [hoff, hin, hcur, hprog, hcommit]⟩

theorem Visit.inserter_of_committed (isRunning : ℕ → Bool) (hi : t.xminInvalid = false)
    (hx : v.oracle 0 t.xmin = .committed) (hp : InPlace (v.oracle 0) t) :
    ∃ t', v.inserter isRunning t =
      .ok (t', if isRunning t.xmin then .running else .committed) := by
  obtain ⟨t₁, hclean, hxmin⟩ := cleanMoved_of_inPlace hp
  have hcur := not_current (v := v) (.inl hx)
  have hcommit := didCommit_of_committed ((v.later 0 3 (by decide)).committed hx)
  unfold inserter
  rw [if_neg (by simp [hi]), hclean]
  simp only [bind, Except.bind, Bool.not_true, Bool.false_eq_true, if_false, hxmin, hcur, hcommit,
    if_true]
  split
  · exact ⟨t₁, rfl⟩
  · exact ⟨v.hintXminCommitted t₁, rfl⟩

theorem Visit.mvccVisible_of_gone (hc : t.xminCommitted = false)
    (hx : v.oracle 0 t.xmin = .aborted ∨ MovedAway (v.oracle 0) t)
    (hm : MovedCommitted (v.oracle 0) t) : v.mvccVisible snapshot t = .ok false := by
  rw [mvccVisible_of_unhinted hc]
  unfold inserter
  split
  · rfl
  rcases hx with hx | haway
  · have hplace : InPlace (v.oracle 0) t := by
      constructor
      · intro hoff
        cases hx.symm.trans (hm (.inl hoff))
      · intro _ hin
        cases hx.symm.trans (hm (.inr hin))
    obtain ⟨t₁, hclean, hxmin⟩ := cleanMoved_of_inPlace hplace
    have hcur := not_current (v := v) (.inr hx)
    have hcommit := not_didCommit_of_aborted ((v.later 0 3 (by decide)).aborted hx)
    rw [hclean]
    simp only [bind, Except.bind, Bool.not_true, Bool.false_eq_true, if_false, hxmin, hcur, hcommit]
    split <;> rfl
  · obtain ⟨t₁, hclean⟩ := cleanMoved_of_movedAway haway
    rw [hclean]
    rfl

/-- A tuple of a transaction that has committed is visible if the snapshot does not have it and its
deleter does not count. -/
theorem Visit.mvccVisible_of_committed (hi : t.xminInvalid = false)
    (hx : v.oracle 0 t.xmin = .committed) (hp : InPlace (v.oracle 0) t) :
    v.mvccVisible snapshot t =
      .ok (if v.inSnapshot snapshot t.xmin then false else (v.mvccXmax snapshot t).2) := by
  cases hc : t.xminCommitted with
  | false =>
    obtain ⟨t₁, hins⟩ := inserter_of_committed (v.inSnapshot snapshot) hi hx hp
    rw [mvccVisible_of_unhinted hc, hins]
    split <;> rfl
  | true => rw [mvccVisible_of_hinted hc, hi, Bool.not_false, Bool.true_and]

/-! ## Hints about the deleter -/

/-- The header with other hints about the deleter. -/
def HeapTupleHeader.setXmaxHints (c i : Bool) (t : HeapTupleHeader) : HeapTupleHeader :=
  { t with xmaxCommitted := c, xmaxInvalid := i }

theorem Visit.cleanMoved_setXmaxHints :
    v.heapTupleCleanMoved (t.setXmaxHints c i) =
      (v.heapTupleCleanMoved t).map (Prod.map (HeapTupleHeader.setXmaxHints c i) id) := by
  unfold heapTupleCleanMoved
  simp only [HeapTupleHeader.setXmaxHints, apply_ite (Except.map _)]
  rfl

theorem Visit.inserter_setXmaxHints :
    (v.inserter isRunning (t.setXmaxHints c i)).map Prod.snd =
      (v.inserter isRunning t).map Prod.snd := by
  unfold inserter
  rw [cleanMoved_setXmaxHints]
  cases v.heapTupleCleanMoved t with
  | error e => simp only [apply_ite (Except.map Prod.snd)]; rfl
  | ok p =>
    obtain ⟨t₁, visible⟩ := p
    have hmap : Except.map (Prod.map (HeapTupleHeader.setXmaxHints c i) id) (.ok (t₁, visible)) =
      (.ok (t₁.setXmaxHints c i, visible) : Except String (HeapTupleHeader × Bool)) := rfl
    rw [hmap]
    simp only [bind, Except.bind, pure, Except.pure, apply_ite (Except.map Prod.snd)]
    rfl

theorem Visit.mvccVisible_setXmaxHints {c i : Bool}
    (hown : (v.mvccOwn snapshot (t.setXmaxHints c i)).2 = (v.mvccOwn snapshot t).2)
    (hxmax : (v.mvccXmax snapshot (t.setXmaxHints c i)).2 = (v.mvccXmax snapshot t).2) :
    v.mvccVisible snapshot (t.setXmaxHints c i) = v.mvccVisible snapshot t := by
  cases hc : t.xminCommitted with
  | true =>
    rw [mvccVisible_of_hinted (t := t) hc, mvccVisible_of_hinted (t := t.setXmaxHints c i) hc, hxmax]
    rfl
  | false =>
    have hanswer : v.mvccAnswer snapshot (t.setXmaxHints c i) = v.mvccAnswer snapshot t := by
      funext r
      cases r with
      | gone => rfl
      | current => exact hown
      | running => rfl
      | committed => exact hxmax
    have hsplit (u : HeapTupleHeader) (hu : u.xminCommitted = false) :
        v.mvccVisible snapshot u = ((v.inserter (v.inSnapshot snapshot) u).map Prod.snd).map
          (v.mvccAnswer snapshot u) := by
      rw [mvccVisible_of_unhinted hu]
      cases v.inserter (v.inSnapshot snapshot) u <;> rfl
    rw [hsplit _ hc, hsplit (t.setXmaxHints c i) hc, hanswer, inserter_setXmaxHints]

/-! ## Each hint -/

theorem Visit.mvccXmax_of_committed (hx : v.oracle 0 t.xmax = .committed)
    (hm : t.xmaxIsMulti = false) (hl : t.xmaxIsLockedOnly = false) :
    (v.mvccXmax snapshot t).2 = (t.xmaxInvalid || v.inSnapshot snapshot t.xmax) := by
  have hcur := not_current (v := v) (.inl hx)
  have hcommit := didCommit_of_committed ((v.later 0 5 (by decide)).committed hx)
  unfold mvccXmax
  cases t.xmaxInvalid <;> cases t.xmaxCommitted <;> simp [hm, hl, hcur, hcommit, apply_ite Prod.snd]

theorem Visit.mvccXmax_of_gone (hx : XmaxGone members (v.oracle 0) t)
    (ht : Truthful members (v.oracle 0) t) : (v.mvccXmax snapshot t).2 = true := by
  unfold mvccXmax
  split
  · rfl
  split
  · rfl
  rename_i hl
  have hl' : t.xmaxIsLockedOnly = false := by simpa using hl
  have hlater := v.later 0 5 (by decide)
  split
  · rename_i hm
    have habort := (hx.2.2.1 hl' hm).1
    have hcur := not_current (v := v) (.inr habort)
    have hcommit := not_didCommit_of_aborted (hlater.aborted habort)
    simp [hcur, hcommit]
  · rename_i hm
    have hm' : t.xmaxIsMulti = false := by simpa using hm
    have habort := hx.2.2.2 hl' hm'
    have hcur := not_current (v := v) (.inr habort)
    have hcommit := not_didCommit_of_aborted (hlater.aborted habort)
    cases hc : t.xmaxCommitted with
    | true => cases habort.symm.trans (ht.xmaxCommitted hc hm' hl')
    | false => simp [hcur, hcommit, apply_ite Prod.snd]

theorem Visit.mvccOwn_of_gone (hx : XmaxGone members (v.oracle 0) t) :
    (v.mvccOwn snapshot t).2 = !decide (snapshot.curcid ≤ t.cmin) := by
  unfold mvccOwn
  split
  · rename_i hcid
    simp [hcid]
  rename_i hcid
  split
  · simp [hcid]
  split
  · simp [hcid]
  rename_i hl
  have hl' : t.xmaxIsLockedOnly = false := by simpa using hl
  split
  · rename_i hm
    have hcur := not_current (v := v) (.inr (hx.2.2.1 hl' hm).1)
    simp [hcur, hcid]
  · rename_i hm
    have hcur := not_current (v := v) (.inr (hx.2.2.2 hl' (by simpa using hm)))
    simp [hcur, hcid]

/-- A right hint does not change the answer. -/
theorem Hint.mvccVisible_eq (h : Hint members (v.oracle 0) t t')
    (ht : Truthful members (v.oracle 0) t) (hm : MovedCommitted (v.oracle 0) t) :
    v.mvccVisible snapshot t' = v.mvccVisible snapshot t := by
  cases h with
  | xminCommitted hx hp hi =>
    have hxmax := @Visit.mvccXmax_snd _ v snapshot t true t.xminInvalid
    rw [Visit.mvccVisible_of_committed (t := t) hi hx hp, ← hxmax]
    exact Visit.mvccVisible_of_committed (t := { t with xminCommitted := true }) hi hx hp
  | xminInvalid hx hc =>
    rw [Visit.mvccVisible_of_gone (t := t) hc hx hm]
    exact Visit.mvccVisible_of_gone (t := { t with xminInvalid := true }) hc hx hm
  | xmaxCommitted hx hmulti hl =>
    apply Visit.mvccVisible_setXmaxHints (c := true) (i := t.xmaxInvalid)
    · simp only [Visit.mvccOwn, apply_ite Prod.snd]
      rfl
    · rw [Visit.mvccXmax_of_committed (t := t) hx hmulti hl]
      exact Visit.mvccXmax_of_committed (t := t.setXmaxHints true t.xmaxInvalid) hx hmulti hl
  | xmaxInvalid hx =>
    have hown := @Visit.mvccOwn_of_gone _ v snapshot t hx
    have hxmax := @Visit.mvccXmax_of_gone _ v snapshot t hx ht
    apply Visit.mvccVisible_setXmaxHints (c := t.xmaxCommitted) (i := true)
    · rw [hown]
      simp [Visit.mvccOwn, HeapTupleHeader.setXmaxHints, apply_ite Prod.snd]
    · rw [hxmax]
      simp [Visit.mvccXmax, HeapTupleHeader.setXmaxHints]

theorem Hints.mvccVisible_eq (h : Hints members (v.oracle 0) t t')
    (ht : Truthful members (v.oracle 0) t) (hm : MovedCommitted (v.oracle 0) t) :
    v.mvccVisible snapshot t' = v.mvccVisible snapshot t := by
  induction h with
  | refl => rfl
  | tail hh h ih => rw [h.mvccVisible_eq (ht.hints hh) (hm.hints hh), ih]

/-! ## Sequences of calls -/

inductive Routine where
  | self
  | mvcc (snapshot : Visit.MvccSnapshot)
  | vacuum (oldestXmin : ℕ)

/-- A call of one of the routines by some backend. -/
structure Call (members : ℕ → List MultiXactMember) where
  visit : Visit members
  routine : Routine

/-- The routines that fail do so before they set hints. -/
def headerAfter {β : Type} (t : HeapTupleHeader) :
    Except String (HeapTupleHeader × β) → HeapTupleHeader
  | .ok (t', _) => t'
  | .error _ => t

def Call.header (c : Call members) (t : HeapTupleHeader) : HeapTupleHeader :=
  match c.routine with
  | .self => headerAfter t (c.visit.heapTupleSatisfiesSelf t)
  | .mvcc snapshot => headerAfter t (c.visit.heapTupleSatisfiesMVCC snapshot t)
  | .vacuum oldestXmin => headerAfter t (c.visit.heapTupleSatisfiesVacuum oldestXmin t)

def headerAfterCalls (t : HeapTupleHeader) (calls : List (Call members)) : HeapTupleHeader :=
  calls.foldl (fun t c => c.header t) t

def statusesAfterCalls (o : Oracle) (calls : List (Call members)) : Oracle :=
  calls.foldl (fun _ c => c.visit.final) o

/-- The calls are made one after the other. -/
def InOrder (o : Oracle) : List (Call members) → Prop
  | [] => True
  | c :: calls => Later o (c.visit.oracle 0) ∧ InOrder c.visit.final calls

/-- The backend may come across the header, and has a snapshot that it may have taken. -/
structure Call.Sound (c : Call members) (t : HeapTupleHeader) : Prop where
  ownDeleter : OwnDeleter c.visit t
  consistent : ∀ snapshot, c.routine = .mvcc snapshot → SnapshotConsistent c.visit snapshot

theorem OwnDeleter.hint (h : OwnDeleter v t) (hh : Hint members o t t') : OwnDeleter v t' := by
  cases hh with
  | xminCommitted => exact h
  | xminInvalid => exact h
  | xmaxCommitted => exact h
  | xmaxInvalid => exact fun _ => nofun

theorem Call.Sound.hints {c : Call members} (h : c.Sound t) (hh : Hints members o t t') :
    c.Sound t' := by
  induction hh with
  | refl => exact h
  | tail _ hh ih => exact ⟨ih.ownDeleter.hint hh, ih.consistent⟩

theorem hints_headerAfter {β : Type} {m : Except String (HeapTupleHeader × β)}
    (h : ∀ t' b, m = .ok (t', b) → Hints members o t t') : Hints members o t (headerAfter t m) := by
  cases m with
  | error e => exact .refl
  | ok p => exact h p.1 p.2 rfl

/-- A call sets right hints only. -/
theorem Call.hints_header {c : Call members} (hm : MovedCommitted (c.visit.oracle 0) t)
    (hs : c.Sound t) : Hints members c.visit.final t (c.header t) := by
  unfold Call.header
  split
  · exact hints_headerAfter fun _ _ h => Visit.satisfiesSelf_hints h hm hs.ownDeleter
  · rename_i snapshot hr
    exact hints_headerAfter fun _ _ h =>
      Visit.satisfiesMVCC_hints h hm hs.ownDeleter (hs.consistent snapshot hr)
  · exact hints_headerAfter fun _ _ h => Visit.satisfiesVacuum_hints h hm

theorem hints_headerAfterCalls {calls : List (Call members)} (hm : MovedCommitted o t)
    (horder : InOrder o calls) (hs : ∀ c ∈ calls, c.Sound t) :
    Later o (statusesAfterCalls o calls) ∧
      Hints members (statusesAfterCalls o calls) t (headerAfterCalls t calls) := by
  induction calls generalizing o t with
  | nil => exact ⟨.refl o, .refl⟩
  | cons c calls ih =>
    have hcall := Call.hints_header (hm.mono horder.1) (hs c (.head _))
    have hlater := horder.1.trans (c.visit.later_final 0)
    obtain ⟨hlater', hrest⟩ := ih ((hm.mono hlater).hints hcall) horder.2
      fun c' hc' => (hs c' (.tail _ hc')).hints hcall
    exact ⟨hlater.trans hlater', (hcall.mono hlater').trans hrest⟩

/-- The header with the hints of another. -/
def HeapTupleHeader.withHintsOf (t' t : HeapTupleHeader) : HeapTupleHeader :=
  { t' with
    xminCommitted := t.xminCommitted
    xminInvalid := t.xminInvalid
    xmaxCommitted := t.xmaxCommitted
    xmaxInvalid := t.xmaxInvalid }

theorem Hints.withHintsOf_eq (h : Hints members o t t') : t'.withHintsOf t = t := by
  induction h with
  | refl => rfl
  | tail _ h ih => cases h <;> exact ih

/-- Hints keep agreeing with the statuses, and the answers are those for the original hints. -/
theorem hint_bits_transparent (o : Oracle) (t : HeapTupleHeader) (calls : List (Call members))
    (ht : Truthful members o t) (hm : MovedCommitted o t) (horder : InOrder o calls)
    (hs : ∀ c ∈ calls, c.Sound t) :
    Truthful members (statusesAfterCalls o calls) (headerAfterCalls t calls) ∧
      ∀ (w : Visit members) (snapshot : Visit.MvccSnapshot),
        Later (statusesAfterCalls o calls) (w.oracle 0) →
          w.mvccVisible snapshot (headerAfterCalls t calls) =
            w.mvccVisible snapshot ((headerAfterCalls t calls).withHintsOf t) := by
  obtain ⟨hlater, hhints⟩ := hints_headerAfterCalls hm horder hs
  have ht' := ht.mono hlater
  refine ⟨ht'.hints hhints, fun w snapshot hw => ?_⟩
  rw [hhints.withHintsOf_eq]
  exact (hhints.mono hw).mvccVisible_eq (ht'.mono hw) ((hm.mono hlater).mono hw)

/-- A call during which no status changes. -/
def Visit.still (o : Oracle) (current : ℕ → Bool)
    (h : ∀ x, current x = true → o x = .inProgress) : Visit members where
  oracle _ := o
  final := o
  later _ _ _ := .refl o
  later_final _ := .refl o
  current := current
  current_inProgress x hx _ := h x hx
  subTransGetTopmostTransaction := id
  xminDenied := false
  xmaxDenied := false

/-- A tuple without hints that transaction 10 has inserted and transaction 20 has deleted. -/
def unhinted : HeapTupleHeader where
  xmin := 10
  xmax := 20
  xvac := 0
  cmin := 0
  cmax := 0
  xmaxKeyshrLock := false
  xmaxExclLock := false
  xmaxLockOnly := false
  xminCommitted := false
  xminInvalid := false
  xmaxCommitted := false
  xmaxInvalid := false
  xmaxIsMulti := false
  movedOff := false
  movedIn := false

/-- A snapshot taken after the transactions below 30 have ended. -/
def snapshotAt30 : Visit.MvccSnapshot where
  xmin := 30
  xmax := 30
  xip := []
  subxip := []
  suboverflowed := false
  takenDuringRecovery := false
  snapXactCompletionCount := 0
  curcid := 0

theorem truthful_unhinted : Truthful members o unhinted := ⟨nofun, nofun, nofun, nofun⟩

theorem movedCommitted_unhinted : MovedCommitted o unhinted := nofun

theorem hint_bits_transparent_committed :
    let v : Visit fun _ => [] := .still (fun _ => .committed) (fun _ => false) nofun
    let calls : List (Call fun _ => []) := [⟨v, .mvcc snapshotAt30⟩, ⟨v, .self⟩, ⟨v, .vacuum 15⟩]
    (headerAfterCalls unhinted calls).xmaxCommitted = true ∧
      Truthful (fun _ => []) (statusesAfterCalls v.final calls) (headerAfterCalls unhinted calls) ∧
      v.mvccVisible snapshotAt30 (headerAfterCalls unhinted calls) =
        v.mvccVisible snapshotAt30 ((headerAfterCalls unhinted calls).withHintsOf unhinted) := by
  intro v calls
  have hsound : ∀ c ∈ calls, c.Sound unhinted := by
    intro c hc
    have hvisit : c.visit = v := by
      simp only [calls, List.mem_cons, List.not_mem_nil, or_false] at hc
      rcases hc with rfl | rfl | rfl <;> rfl
    exact ⟨by rw [hvisit]; exact nofun, fun _ _ x _ _ => .inl (by rw [hvisit]; rfl)⟩
  have h := hint_bits_transparent v.final unhinted calls truthful_unhinted movedCommitted_unhinted
    ⟨.refl _, .refl _, .refl _, trivial⟩ hsound
  exact ⟨by decide, h.1, h.2 v snapshotAt30 (.refl _)⟩

/-- The inserter takes it that the foreign deleter, which is still running, has failed. -/
theorem hint_bits_foreign_deleter :
    ∃ v w : Visit fun _ => [],
      Truthful (fun _ => []) (v.oracle 0) unhinted ∧ MovedCommitted (v.oracle 0) unhinted ∧
      Later v.final (w.oracle 0) ∧
      ¬ Truthful (fun _ => []) v.final (Call.header ⟨v, .self⟩ unhinted) ∧
      w.mvccVisible snapshotAt30 (Call.header ⟨v, .self⟩ unhinted) = .ok true ∧
      w.mvccVisible snapshotAt30 unhinted = .ok false := by
  refine ⟨.still (fun _ => .inProgress) (fun x => x = 10) (fun _ _ => rfl),
    .still (fun _ => .committed) (fun _ => false) nofun, truthful_unhinted, movedCommitted_unhinted,
    fun _ => trivial, fun h => ?_, by decide, by decide⟩
  rcases h.xmaxInvalid (by decide) with hx | hx
  · cases hx
  · cases hx.2.2.2 (by decide) (by decide)

end PostgreSieve.Heap
