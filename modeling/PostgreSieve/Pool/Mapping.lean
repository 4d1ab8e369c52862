import PostgreSieve.Pool.Ledger
import PostgreSieve.Pool.Pins

/-! # Consistency of the buffer mapping

The mapping table has an entry for every buffer that carries a tag, and an entry for
every insertion or removal that some backend has begun and not finished. The first part
follows the ledgers of the backends through each kind of change; the second reads the
actions of the machine as such changes.
-/

namespace PostgreSieve

open Function Option

/-- `BM_TAG_VALID` of buffer `b`. -/
def Pool.tagValid {V : EvictionVtable} {Pid : Type} (P : Pool V Pid) (b : ℕ) : Bool :=
  (P.state b).has bmTagValid

section SetState

variable {V : EvictionVtable} {Pid : Type} {P : Pool V Pid} {b c : ℕ} {w : BufState}

@[simp] theorem tag_setState : (P.setState b w).tag = P.tag := rfl

theorem tagValid_setState_self : (P.setState b w).tagValid b = w.has bmTagValid := by
  simp only [Pool.tagValid, Pool.setState, update_self]

theorem tagValid_setState_of_ne (h : c ≠ b) : (P.setState b w).tagValid c = P.tagValid c := by
  simp only [Pool.tagValid, Pool.setState, update_of_ne h]

theorem tagValid_setState (hw : w.has bmTagValid = (P.state b).has bmTagValid) (c : ℕ) :
    (P.setState b w).tagValid c = P.tagValid c := by
  by_cases hc : c = b
  · subst hc
    rw [tagValid_setState_self, hw]
    rfl
  · exact tagValid_setState_of_ne hc

end SetState

section Books

variable {V : EvictionVtable} {Pid : Type} {hash : BufferTag → ℕ} {P P' : Pool V Pid}
variable {R : Pid → ℕ → ℕ} {L : Pid → Ledger} {p : Pid} {r : ℕ → ℕ} {l : Ledger}

/-- What backend `p`, with pins `refs`, relies on according to its ledger. -/
structure Known (hash : BufferTag → ℕ) (P : Pool V Pid) (p : Pid) (refs : ℕ → ℕ) (l : Ledger) :
    Prop where
  ex : ∀ t, l.ex = some t → P.exclusive (partition hash t) = some p
  sh : ∀ t, l.sh = some t → p ∈ P.shared (partition hash t)
  untagged : ∀ b ∈ l.untagged, P.tagValid b = false
  tagged : ∀ b, l.tagged = some b → 0 < refs b ∧ P.tagValid b = true
  holds : ∀ t b, l.holds = some (t, b) → 0 < refs b ∧ P.tagValid b = true ∧ P.tag b = t
  seen : ∀ t b, l.seen = some (t, b) → P.table t = some b
  wrote : ∀ t b, l.wrote = some (t, b) → P.tag b = t

/-- Buffer `b` carries tag `t`, and nobody is removing it. -/
def Carries (P : Pool V Pid) (L : Pid → Ledger) (b : ℕ) (t : BufferTag) : Prop :=
  P.tagValid b = true ∧ P.tag b = t ∧ ∀ q, (L q).mid ≠ some b

/-- Some backend has begun to insert or to remove the entry of `t` for `b`. -/
def Owed (L : Pid → Ledger) (t : BufferTag) (b : ℕ) : Prop :=
  ∃ q, (L q).ins = some (t, b) ∨ (L q).del = some (t, b)

/-- The mapping between two steps, for backends with pins `R` and ledgers `L`. -/
structure Books (hash : BufferTag → ℕ) (P : Pool V Pid) (R : Pid → ℕ → ℕ) (L : Pid → Ledger) :
    Prop where
  known : ∀ p, Known hash P p (R p) (L p)
  apart : ∀ {π p}, P.exclusive π = some p → P.shared π = []
  alone : ∀ {p q b}, (L p).mid = some b → q ≠ p → R q b = 0
  gone : ∀ {p t b}, (L p).del = some (t, b) → ¬Carries P L b t
  table : ∀ t b, P.table t = some b ↔ Carries P L b t ∨ Owed L t b

theorem known_empty : Known hash P p r {} :=
  ⟨fun _ h => (nomatch h), fun _ h => (nomatch h), fun _ h => (nomatch h), fun _ h => (nomatch h),
    fun _ _ h => (nomatch h), fun _ _ h => (nomatch h), fun _ _ h => (nomatch h)⟩

theorem Ledger.Sane.ex_of_owed (h : l.Sane) {t : BufferTag} {b : ℕ}
    (ho : l.ins = some (t, b) ∨ l.del = some (t, b)) : l.ex = some t :=
  ho.elim (fun hi => (h.ins hi).1) h.del

theorem Known.within {pc : Pc V.Pc} (h : Known hash P p r l) (hpc : pc.Within l) :
    Known hash P p r pc.ledger where
  ex t ht := h.ex t (hpc.ex ▸ ht)
  sh t ht := h.sh t (hpc.sh ▸ ht)
  untagged b hb := h.untagged b (hpc.untagged b hb)
  tagged b hb := h.tagged b (hpc.tagged b hb)
  holds t b hb := h.holds t b (hpc.holds _ hb)
  seen t b hb := h.seen t b (hpc.seen _ hb)
  wrote t b hb := h.wrote t b (hpc.wrote _ hb)

/-- Another backend's change leaves alone what `q` relies on. -/
theorem Known.other {q : Pid} (h : Known hash P q r l)
    (hex : ∀ π, P.exclusive π = some q → P'.exclusive π = some q)
    (hsh : ∀ π, q ∈ P.shared π → q ∈ P'.shared π)
    (hlook : ∀ b, P'.tagValid b = P.tagValid b ∧ P'.tag b = P.tag b ∨ b ∉ l.untagged ∧
      l.tagged ≠ some b ∧ (∀ t, l.holds ≠ some (t, b)) ∧ ∀ t, l.wrote ≠ some (t, b))
    (htable : ∀ t b, l.seen = some (t, b) → P'.table t = P.table t) : Known hash P' q r l where
  ex t ht := hex _ (h.ex t ht)
  sh t ht := hsh _ (h.sh t ht)
  untagged b hb := by
    obtain ⟨hv, -⟩ | ⟨hn, -⟩ := hlook b
    · rw [hv, h.untagged b hb]
    · exact absurd hb hn
  tagged b hb := by
    obtain ⟨hv, -⟩ | ⟨-, hn, -⟩ := hlook b
    · rw [hv]
      exact h.tagged b hb
    · exact absurd hb hn
  holds t b hb := by
    obtain ⟨hv, ht⟩ | ⟨-, -, hn, -⟩ := hlook b
    · rw [hv, ht]
      exact h.holds t b hb
    · exact absurd hb (hn t)
  seen t b hb := by
    rw [htable t b hb]
    exact h.seen t b hb
  wrote t b hb := by
    obtain ⟨-, ht⟩ | ⟨-, -, -, hn⟩ := hlook b
    · rw [ht]
      exact h.wrote t b hb
    · exact absurd hb (hn t)

section Update

variable [DecidableEq Pid] {b : ℕ} {t : BufferTag}

theorem carries_update : Carries P (update L p l) b t ↔
    P.tagValid b = true ∧ P.tag b = t ∧ l.mid ≠ some b ∧ ∀ q ≠ p, (L q).mid ≠ some b := by
  rw [Carries, Function.forall_update_iff L fun _ l => l.mid ≠ some b]

theorem owed_update : Owed (update L p l) t b ↔
    (l.ins = some (t, b) ∨ l.del = some (t, b)) ∨
      ∃ q ≠ p, (L q).ins = some (t, b) ∨ (L q).del = some (t, b) := by
  rw [Owed, Function.exists_update_iff L fun _ l => l.ins = some (t, b) ∨ l.del = some (t, b)]

theorem carries_iff (p : Pid) : Carries P L b t ↔
    P.tagValid b = true ∧ P.tag b = t ∧ (L p).mid ≠ some b ∧ ∀ q ≠ p, (L q).mid ≠ some b := by
  rw [← carries_update, update_eq_self]

theorem owed_iff (p : Pid) : Owed L t b ↔ ((L p).ins = some (t, b) ∨ (L p).del = some (t, b)) ∨
    ∃ q ≠ p, (L q).ins = some (t, b) ∨ (L q).del = some (t, b) := by
  rw [← owed_update, update_eq_self]

theorem carries_congr (hvalid : ∀ b, P'.tagValid b = P.tagValid b) (htag : P'.tag = P.tag)
    (hmid : l.mid = (L p).mid) : Carries P' (update L p l) b t ↔ Carries P L b t := by
  rw [carries_update, carries_iff p, hmid, hvalid, htag]

end Update

/-- No backend but `p` relies on the looks of `b`. -/
def OwnedBy (L : Pid → Ledger) (p : Pid) (b : ℕ) : Prop :=
  ∀ q ≠ p, b ∉ (L q).untagged ∧ (L q).tagged ≠ some b ∧ (∀ t, (L q).holds ≠ some (t, b)) ∧
    ∀ t, (L q).wrote ≠ some (t, b)

namespace Books

section

variable (h : Books hash P R L)
variable {t : BufferTag} {b : ℕ} {w : BufState}
include h

variable {q : Pid} {c : ℕ}

theorem not_locked (hex : (L p).ex = some t) (hq : q ≠ p) :
    ¬((L q).ex = some t ∨ (L q).sh = some t) := by
  have hheld := (h.known p).ex t hex
  rintro (he | he)
  · exact hq (some.inj (((h.known q).ex t he).symm.trans hheld))
  · exact absurd (h.apart hheld ▸ (h.known q).sh t he) List.not_mem_nil

/-- An entry that `p` has read under the partition lock belongs to a buffer with that tag. -/
theorem carries_of_seen (hs : ∀ q, (L q).Sane) (hseen : (L p).seen = some (t, b)) :
    Carries P L b t := by
  refine ((h.table t b).mp ((h.known p).seen t b hseen)).resolve_right ?_
  rintro ⟨q, ho⟩
  obtain ⟨hlock, hins, hdel⟩ := (hs p).seen hseen
  by_cases hq : p = q
  · subst hq
    simp [hins, hdel] at ho
  · exact h.not_locked ((hs q).ex_of_owed ho) hq hlock

variable [DecidableEq Pid]

theorem step (hk : Known hash P' p r l)
    (hothers : ∀ q ≠ p, Known hash P' q (R q) (L q))
    (hapart : ∀ {π q}, P'.exclusive π = some q → P'.shared π = [])
    (halone : ∀ b, l.mid = some b → ∀ q ≠ p, R q b = 0)
    (hrefs : ∀ q ≠ p, ∀ b, (L q).mid = some b → r b = 0)
    (hgone : ∀ {q t b}, (update L p l q).del = some (t, b) →
      ¬Carries P' (update L p l) b t)
    (htable : ∀ t b, P'.table t = some b ↔
      Carries P' (update L p l) b t ∨ Owed (update L p l) t b) :
    Books hash P' (update R p r) (update L p l) where
  known q := by
    by_cases hq : q = p
    · subst hq
      rwa [update_self, update_self]
    · rw [update_of_ne hq, update_of_ne hq]
      exact hothers q hq
  apart := hapart
  alone := by
    intro q q' b hq hne
    by_cases hqp : q = p
    · subst hqp
      rw [update_self] at hq
      rw [update_of_ne hne]
      exact halone b hq q' hne
    · rw [update_of_ne hqp] at hq
      by_cases hqp' : q' = p
      · subst hqp'
        rw [update_self]
        exact hrefs q hqp b hq
      · rw [update_of_ne hqp']
        exact h.alone hq hne
  gone := hgone
  table := htable

theorem gone_update (hdel : ∀ t c, l.del = some (t, c) → ¬Carries P' (update L p l) c t)
    (hothers : ∀ q ≠ p, ∀ t c, (L q).del = some (t, c) →
      Carries P' (update L p l) c t → Carries P L c t)
    (hq : (update L p l q).del = some (t, c)) :
    ¬Carries P' (update L p l) c t := by
  by_cases hqp : q = p
  · subst hqp
    rw [update_self] at hq
    exact hdel t c hq
  · rw [update_of_ne hqp] at hq
    exact fun hc => h.gone hq (hothers q hqp t c hq hc)

theorem gone_of_carries (hcarries : ∀ c t, Carries P' (update L p l) c t ↔ Carries P L c t)
    (hdel : l.del = (L p).del) (hq : (update L p l q).del = some (t, c)) :
    ¬Carries P' (update L p l) c t :=
  h.gone_update (fun t c hd hc => h.gone (hdel ▸ hd) ((hcarries c t).mp hc))
    (fun _ _ t c _ => (hcarries c t).mp) hq

theorem quiet (hk : Known hash P' p r l) (hins : l.ins = (L p).ins)
    (hdel : l.del = (L p).del) (hmid : l.mid = (L p).mid) (htag : P'.tag = P.tag)
    (hvalid : ∀ b, P'.tagValid b = P.tagValid b) (htable : P'.table = P.table)
    (hex : ∀ π, ∀ q ≠ p, P.exclusive π = some q → P'.exclusive π = some q)
    (hsh : ∀ π, ∀ q ≠ p, q ∈ P.shared π → q ∈ P'.shared π)
    (hapart : ∀ {π q}, P'.exclusive π = some q → P'.shared π = [])
    (hrefs : ∀ b, 0 < r b → 0 < R p b ∨ ∀ q ≠ p, (L q).mid ≠ some b) :
    Books hash P' (update R p r) (update L p l) := by
  have hcarries b t : Carries P' (update L p l) b t ↔ Carries P L b t :=
    carries_congr hvalid htag hmid
  have howed : ∀ t b, Owed (update L p l) t b ↔ Owed L t b := by
    intro t b
    rw [owed_update, owed_iff p, hins, hdel]
  refine h.step hk (fun q hq => ?_) hapart (fun b hb q hq => ?_) (fun q hq b hb => ?_)
    (h.gone_of_carries hcarries hdel) fun t b => ?_
  · exact (h.known q).other (fun π => hex π q hq) (fun π => hsh π q hq)
      (fun b => .inl ⟨hvalid b, by rw [htag]⟩) fun t b _ => by rw [htable]
  · exact h.alone (hmid ▸ hb) hq
  · refine Nat.eq_zero_of_not_pos fun hr => ?_
    rcases hrefs b hr with hp | hn
    · exact hp.ne' (h.alone hb hq.symm)
    · exact hn q hq hb
  · rw [htable, hcarries, howed]
    exact h.table t b

/-- A step that changes what buffer `b` looks like, when no other backend relies on that. The
change does not touch what the table stands for. -/
theorem retag (hk : Known hash P' p (R p) l)
    (hown : OwnedBy L p b) (hlook : ∀ c ≠ b, P'.tagValid c = P.tagValid c ∧ P'.tag c = P.tag c)
    (htable : P'.table = P.table) (hex : P'.exclusive = P.exclusive) (hsh : P'.shared = P.shared)
    (hmid : ∀ c, l.mid = some c → (L p).mid = some c)
    (hgone : ∀ {q t c}, (update L p l q).del = some (t, c) →
      ¬Carries P' (update L p l) c t)
    (hiff : ∀ t c, Carries P' (update L p l) c t ∨ Owed (update L p l) t c ↔
      Carries P L c t ∨ Owed L t c) :
    Books hash P' (update R p (R p)) (update L p l) := by
  refine h.step hk (fun q hq => ?_) ?_ (fun c hc q hq => h.alone (hmid c hc) hq)
    (fun q hq c hc => h.alone hc hq.symm) hgone fun t c => ?_
  · refine (h.known q).other (fun π hπ => hex ▸ hπ) (fun π hπ => hsh ▸ hπ) (fun c => ?_)
      fun t c _ => by rw [htable]
    by_cases hc : c = b
    · subst hc
      exact .inr (hown q hq)
    · exact .inl (hlook c hc)
  · intro π q hq
    rw [hsh]
    exact h.apart (hex ▸ hq)
  · rw [htable, hiff]
    exact h.table t c

/-- Who holds the partition of `t` exclusively changes the entry of `t`. -/
theorem setEntry (hs : ∀ q ≠ p, (L q).Sane) (hex : (L p).ex = some t) (e : Option ℕ)
    (ins del : Option (BufferTag × ℕ)) (hseen : ∀ u c, (L p).seen ≠ some (u, c))
    (hdel : ∀ u c, del = some (u, c) → ¬Carries P L c u)
    (hnew : ∀ c, e = some c ↔ Carries P L c t ∨ ins = some (t, c) ∨ del = some (t, c))
    (hold : ∀ u c, u ≠ t → (ins = some (u, c) ∨ del = some (u, c) ↔
      (L p).ins = some (u, c) ∨ (L p).del = some (u, c))) :
    Books hash { P with table := update P.table t e } (update R p (R p))
      (update L p { L p with ins := ins, del := del }) := by
  have hcarries c u : Carries { P with table := update P.table t e }
      (update L p { L p with ins := ins, del := del }) c u ↔ Carries P L c u :=
    carries_congr (fun _ => rfl) rfl rfl
  refine h.step { h.known p with seen := fun u c he => absurd he (hseen u c) } (fun q hq => ?_)
    h.apart (fun b hb q hq => h.alone hb hq) (fun q hq b hb => h.alone hb hq.symm)
    (h.gone_update (fun u c hd hc => hdel u c hd ((hcarries c u).mp hc))
      fun q hq u c _ => (hcarries c u).mp) fun u c => ?_
  · refine (h.known q).other (fun _ hπ => hπ) (fun _ hπ => hπ) (fun b => .inl ⟨rfl, rfl⟩) ?_
    intro u c he
    refine update_of_ne ?_ ..
    rintro rfl
    exact h.not_locked hex hq ((hs q hq).seen he).1
  · rw [hcarries, owed_update]
    by_cases hu : u = t
    · subst hu
      have hothers : ¬∃ q ≠ p, (L q).ins = some (u, c) ∨ (L q).del = some (u, c) := by
        rintro ⟨q, hq, ho⟩
        exact h.not_locked hex hq (.inl ((hs q hq).ex_of_owed ho))
      rw [or_iff_left hothers, ← hnew c]
      simp
    · rw [hold u c hu, ← owed_iff p, ← h.table u c]
      simp [hu]

theorem startClear (hw : w.has bmTagValid = (P.state b).has bmTagValid) (hl : (L p).Settled)
    (hex : (L p).ex = some (P.tag b)) (hmid : ∀ q, (L q).mid ≠ some b)
    (hrefs : ∀ q ≠ p, R q b = 0) :
    Books hash (P.setState b w) (update R p (R p)) (update L p { L p with
      mid := some b, tagged := none, holds := none
      del := if P.tagValid b then some (P.tag b, b) else none }) := by
  have hvalid := tagValid_setState hw
  have hp := h.known p
  obtain ⟨hins, hdel, hpmid, hseen, hwrote⟩ := hl
  refine h.step ?_ (fun q hq => ?_) h.apart ?_ (fun q hq c hc => h.alone hc hq.symm)
    (h.gone_update ?_ ?_) fun t c => ?_
  · exact { hp with
      untagged := fun c hc => (hvalid c).trans (hp.untagged c hc)
      tagged := fun c hc => nomatch hc
      holds := fun t c hc => nomatch hc }
  · exact (h.known q).other (fun _ hπ => hπ) (fun _ hπ => hπ) (fun c => .inl ⟨hvalid c, rfl⟩)
      fun _ _ _ => rfl
  · rintro c ⟨⟩ q hq
    exact hrefs q hq
  · intro t c hd hc
    obtain ⟨-, -, hne, -⟩ := carries_update.mp hc
    split at hd
    · cases hd
      exact hne rfl
    · exact nomatch hd
  · intro q hq t c _ hc
    obtain ⟨hv, ht, -, hc⟩ := carries_update.mp hc
    rw [hvalid c] at hv
    exact (carries_iff p).mpr ⟨hv, ht, by simp [hpmid], hc⟩
  · refine (h.table t c).trans ?_
    rw [carries_update, owed_update, carries_iff p, owed_iff p, hvalid c, hins, hdel, hpmid]
    by_cases hc : c = b
    · subst hc
      by_cases hv : P.tagValid c = true <;> simp [hv, hmid]
    · simp [Ne.symm hc]

theorem writeTag (hown : OwnedBy L p b) (hb : (L p).mid = some b ∨ P.tagValid b = false) :
    Books hash { P with tag := update P.tag b t } (update R p (R p))
      (update L p { L p with wrote := some (t, b), holds := none }) := by
  have hp := h.known p
  have hlook : ∀ c ≠ b, update P.tag b t c = P.tag c := fun c hc => update_of_ne hc ..
  have hcarries : ∀ c u, Carries { P with tag := update P.tag b t }
      (update L p { L p with wrote := some (t, b), holds := none }) c u ↔
      Carries P L c u := by
    intro c u
    rw [carries_update, carries_iff p]
    by_cases hc : c = b
    · subst hc
      rcases hb with hb | hb
      · simp [hb]
      · simp [Pool.tagValid] at hb ⊢
        simp [hb]
    · simp only [hlook c hc]
      exact Iff.rfl
  refine h.retag ?_ hown (fun c hc => ⟨rfl, hlook c hc⟩) rfl rfl rfl (fun c hc => hc)
    (h.gone_of_carries hcarries rfl) fun u c => ?_
  · exact { hp with
      holds := fun u c hc => nomatch hc
      wrote := by rintro u c ⟨⟩; exact update_self .. }
  · rw [hcarries, owed_update, owed_iff p]

theorem install (hs : ∀ q, (L q).Sane) (hw : w.has bmTagValid = true)
    (hins : (L p).ins = some (t, b)) (hwrote : (L p).wrote = some (t, b))
    (hmid : ∀ q, (L q).mid ≠ some b) (hown : OwnedBy L p b) (hrefs : 0 < R p b) :
    Books hash (P.setState b w) (update R p (R p)) (update L p { L p with
      ins := none, wrote := none, holds := some (t, b)
      untagged := (L p).untagged.filter (· ≠ b) }) := by
  have hp := h.known p
  obtain ⟨hex, hdel, hbu⟩ := (hs p).ins hins
  have hbv := hp.untagged b hbu
  have htag := hp.wrote t b hwrote
  refine h.retag ?_ hown (fun c hc => ⟨tagValid_setState_of_ne hc, rfl⟩) rfl rfl rfl
    (fun c hc => hc) (h.gone_update ?_ ?_) fun u c => ?_
  · exact { hp with
      untagged := fun c hc => by
        simp only [List.mem_filter, decide_not, Bool.not_eq_true', decide_eq_false_iff_not] at hc
        rw [tagValid_setState_of_ne hc.2]
        exact hp.untagged c hc.1
      tagged := fun c hc => by
        have hne : c ≠ b := by
          rintro rfl
          cases hbv.symm.trans (hp.tagged c hc).2
        rw [tagValid_setState_of_ne hne]
        exact hp.tagged c hc
      holds := by
        rintro u c ⟨⟩
        exact ⟨hrefs, tagValid_setState_self.trans hw, htag⟩
      wrote := fun u c hc => by cases hc }
  · exact fun u c hd => by cases hdel.symm.trans hd
  · intro q hq u c hd hc
    obtain ⟨hv, ht, -, -⟩ := carries_update.mp hc
    have hne : c ≠ b := by
      rintro rfl
      have hu : u = t := ht.symm.trans htag
      have hq' := (h.known q).ex t (hu ▸ (hs q).del hd)
      exact hq (some.inj (hq'.symm.trans (hp.ex t hex)))
    rw [carries_update, tagValid_setState_of_ne hne] at hc
    exact (carries_iff p).mpr hc
  · rw [carries_update, carries_iff p, owed_update, owed_iff p, hins, hdel]
    by_cases hc : c = b
    · subst hc
      simp [tagValid_setState_self, hw, hbv, hmid, htag]
    · simp [tagValid_setState_of_ne hc, Ne.symm hc]

theorem clear (hw : w.has bmTagValid = false) (hmid : (L p).mid = some b) (hown : OwnedBy L p b) :
    Books hash (P.setState b w) (update R p (R p)) (update L p { L p with
      mid := none, untagged := b :: (L p).untagged, tagged := none, holds := none }) := by
  have hp := h.known p
  have hcarries : ∀ c u, Carries (P.setState b w) (update L p { L p with
      mid := none, untagged := b :: (L p).untagged, tagged := none, holds := none }) c u ↔
      Carries P L c u := by
    intro c u
    rw [carries_update, carries_iff p]
    by_cases hc : c = b
    · subst hc
      simp [tagValid_setState_self, hw, hmid]
    · simp [tagValid_setState_of_ne hc, hmid, Ne.symm hc]
  refine h.retag ?_ hown (fun c hc => ⟨tagValid_setState_of_ne hc, rfl⟩) rfl rfl rfl
    (fun c hc => nomatch hc) (h.gone_of_carries hcarries rfl) fun u c => ?_
  · exact { hp with
      untagged := fun c hc => by
        by_cases hcb : c = b
        · subst hcb
          exact tagValid_setState_self.trans hw
        · rw [tagValid_setState_of_ne hcb]
          exact hp.untagged c ((List.mem_cons.mp hc).resolve_left hcb)
      tagged := fun c hc => nomatch hc
      holds := fun u c hc => nomatch hc }
  · rw [hcarries, owed_update, owed_iff p]

theorem lockExclusive {e : Option (BufferTag × ℕ)} (hex : P.exclusive (partition hash t) = none)
    (hsh : P.shared (partition hash t) = []) (he : ∀ u b, e = some (u, b) → P.table u = some b) :
    Books hash
      { P with exclusive := update P.exclusive (partition hash t) (some p) }
      (update R p (R p)) (update L p { L p with ex := some t, seen := e }) := by
  refine h.quiet ?_ rfl rfl rfl rfl (fun _ => rfl) rfl (fun π q _ hπ => ?_) (fun _ _ _ hπ => hπ) ?_
    fun _ hb => .inl hb
  · exact { h.known p with
      ex := by rintro u ⟨⟩; exact update_self ..
      seen := he }
  · refine (update_of_ne ?_ ..).trans hπ
    rintro rfl
    exact nomatch hex.symm.trans hπ
  · intro π q hπ
    by_cases hpi : π = partition hash t
    · exact hpi ▸ hsh
    · exact h.apart ((update_of_ne hpi ..).symm.trans hπ)

theorem insert (hs : ∀ q, (L q).Sane) {v : ℕ} (hex : P.exclusive (partition hash t) = none)
    (hsh : P.shared (partition hash t) = []) (ht : P.table t = none) (hl : (L p).Free) :
    Books hash { P with
        exclusive := update P.exclusive (partition hash t) (some p)
        table := update P.table t (some v) }
      (update R p (R p))
      (update L p { L p with ex := some t, ins := some (t, v) }) := by
  obtain ⟨-, -, hins, hdel, -, hseen, -⟩ := hl
  have hlock := h.lockExclusive (p := p) hex hsh (h.known p).seen
  have hnone c := mt (hlock.table t c).mpr (by simp [ht])
  have hset := hlock.setEntry (p := p) (t := t) (fun q hq => by rw [update_of_ne hq]; exact hs q)
    (by simp) (some v) (some (t, v)) none (by simp [hseen]) nofun
    (fun c => by simp [not_or.mp (hnone c)]) fun u c hu => by simp [hins, hdel, Ne.symm hu]
  simpa [hdel] using hset

theorem delete (hs : ∀ q, (L q).Sane) (hdel : (L p).del = some (t, b)) (hins : (L p).ins = none) :
    Books hash { P with table := update P.table t none } (update R p (R p))
      (update L p { L p with del := none }) := by
  have hgone : ∀ c, ¬Carries P L c t := by
    intro c hc
    have hb := (h.table t b).mpr (.inr ⟨p, .inr hdel⟩)
    obtain rfl := some.inj (((h.table t c).mpr (.inl hc)).symm.trans hb)
    exact h.gone hdel hc
  exact h.setEntry (fun q _ => hs q) ((hs p).del hdel) none _ none
    (fun u c he => nomatch ((hs p).seen he).2.2.symm.trans hdel) nofun
    (fun c => by simp [hgone, hins]) fun u c hu => by simp [hdel, Ne.symm hu]

theorem lockShared (hex : P.exclusive (partition hash t) = none) (ht : P.table t = some b) :
    Books hash
      { P with
        shared := update P.shared (partition hash t) (p :: P.shared (partition hash t)) }
      (update R p (R p))
      (update L p { L p with sh := some t, seen := some (t, b) }) := by
  refine h.quiet ?_ rfl rfl rfl rfl (fun _ => rfl) rfl (fun _ _ _ hπ => hπ) (fun π q _ hπ => ?_) ?_
    fun _ hb => .inl hb
  · exact { h.known p with
      sh := by rintro u ⟨⟩; simp
      seen := by rintro u c ⟨⟩; exact ht }
  · by_cases hpi : π = partition hash t
    · subst hpi
      simp [hπ]
    · simpa [hpi] using hπ
  · intro π q hπ
    refine (update_of_ne ?_ ..).trans (h.apart hπ)
    rintro rfl
    exact nomatch hex.symm.trans hπ

theorem releaseExclusive (ht : (L p).ex = some t) :
    Books hash { P with exclusive := update P.exclusive (partition hash t) none }
      (update R p (R p)) (update L p { L p with ex := none }) := by
  refine h.quiet ?_ rfl rfl rfl rfl (fun _ => rfl) rfl (fun π q hq hπ => ?_) (fun _ _ _ hπ => hπ) ?_
    fun _ hb => .inl hb
  · exact { h.known p with ex := fun u hu => nomatch hu }
  · refine (update_of_ne ?_ ..).trans hπ
    rintro rfl
    exact hq (some.inj (hπ.symm.trans ((h.known p).ex t ht)))
  · intro π q hπ
    by_cases hpi : π = partition hash t
    · subst hpi
      exact nomatch (update_self ..).symm.trans hπ
    · exact h.apart ((update_of_ne hpi ..).symm.trans hπ)

theorem releaseShared (t : BufferTag) :
    Books hash
      { P with
        shared := update P.shared (partition hash t)
          ((P.shared (partition hash t)).filter (· ≠ p)) }
      (update R p (R p)) (update L p { L p with sh := none }) := by
  refine h.quiet ?_ rfl rfl rfl rfl (fun _ => rfl) rfl (fun _ _ _ hπ => hπ) (fun π q hq hπ => ?_) ?_
    fun _ hb => .inl hb
  · exact { h.known p with sh := fun u hu => nomatch hu }
  · by_cases hpi : π = partition hash t
    · subst hpi
      simp [hπ, hq]
    · simpa [hpi] using hπ
  · intro π q hπ
    have hnil := h.apart hπ
    by_cases hpi : π = partition hash t
    · subst hpi
      exact (update_self ..).trans (by rw [hnil]; rfl)
    · exact (update_of_ne hpi ..).trans hnil

end

theorem within [DecidableEq Pid] (h : Books hash P R (update L p l)) {pc : Pc V.Pc} (hpc : pc.Within l) :
    Books hash P R (update L p pc.ledger) := by
  have hfield {α : Type} (f : Ledger → α) (hf : f pc.ledger = f l) (q : Pid) :
      f (update L p pc.ledger q) = f (update L p l q) := by
    rw [apply_update fun _ => f, apply_update fun _ => f, hf]
  have hmid := hfield (·.mid) hpc.mid
  have hins := hfield (·.ins) hpc.ins
  have hdel := hfield (·.del) hpc.del
  have hcarries b t : Carries P (update L p pc.ledger) b t ↔
      Carries P (update L p l) b t := by
    simp only [Carries, hmid]
  refine ⟨fun q => ?_, h.apart, fun {q r b} hq => ?_, fun {q t b} hq => ?_, fun t b => ?_⟩
  · have hq := h.known q
    by_cases hqp : q = p
    · subst hqp
      rw [update_self] at hq ⊢
      exact hq.within hpc
    · rw [update_of_ne hqp] at hq ⊢
      exact hq
  · exact h.alone (hmid q ▸ hq)
  · rw [hcarries]
    exact h.gone (hdel q ▸ hq)
  · rw [hcarries, Owed]
    simp only [hins, hdel]
    exact h.table t b

end Books

end Books

section Machine

variable {V : EvictionVtable} {Pid : Type} {hash : BufferTag → ℕ} {s : Sys V Pid} {p : Pid}
variable {P : Pool V Pid} {x : Backend V} {l : Ledger} {b : ℕ}

def Sys.ledger (s : Sys V Pid) (p : Pid) : Ledger := (s.backends p).pc.ledger

/-- The mapping of a state of the machine. -/
structure Mapped (hash : BufferTag → ℕ) (s : Sys V Pid) : Prop where
  balanced : ∀ p, (s.backends p).pc.Balanced
  books : Books hash s.pool (fun p => (s.backends p).refcount) s.ledger

/-- Nothing that concerns the mapping differs. -/
structure Pool.Agrees (P P' : Pool V Pid) : Prop where
  tag : P'.tag = P.tag
  tagValid : ∀ b, P'.tagValid b = P.tagValid b
  table : P'.table = P.table
  exclusive : P'.exclusive = P.exclusive
  shared : P'.shared = P.shared

theorem Known.agrees {r : ℕ → ℕ} {P' : Pool V Pid} (h : Known hash P p r l) (ha : P.Agrees P') :
    Known hash P' p r l :=
  h.other (fun _ hπ => ha.exclusive ▸ hπ) (fun _ hπ => ha.shared ▸ hπ)
    (fun b => .inl ⟨ha.tagValid b, by rw [ha.tag]⟩) fun _ _ _ => by rw [ha.table]

theorem Pool.agrees_setState {w : BufState}
    (hw : w.fields.flags 3 = (P.state b).fields.flags 3) : P.Agrees (P.setState b w) :=
  ⟨rfl, tagValid_setState (by rw [has_bmTagValid, has_bmTagValid, hw]), rfl, rfl, rfl⟩

theorem Pool.Agrees.refl (P : Pool V Pid) : P.Agrees P := ⟨rfl, fun _ => rfl, rfl, rfl, rfl⟩

namespace Mapped

theorem sane (hm : Mapped hash s) (q : Pid) : (s.ledger q).Sane := (hm.balanced q).sane

theorem mid_ne [Fintype Pid] (h : Sound s) (hm : Mapped hash s)
    (hb : (s.fields b).flags 0 = false) (q : Pid) : (s.ledger q).mid ≠ some b := by
  intro hq
  have hlocked := (h.locked b).mpr ⟨q, Pc.Balanced.hdr (h.formed q) (hm.balanced q) (.inl hq)⟩
  simp [hb] at hlocked

theorem mid_ne_of_hdr [Fintype Pid] (h : Sound s) (hm : Mapped hash s)
    (hb : (s.duty p).hdr = some b) {q : Pid} (hq : q ≠ p) : (s.ledger q).mid ≠ some b :=
  fun hmid => hq (h.one_holder (Pc.Balanced.hdr (h.formed q) (hm.balanced q) (.inl hmid)) hb)

/-- Who has locked the header of a buffer to change its tag is alone with it. -/
theorem ownedBy [Fintype Pid] (h : Sound s) (hm : Mapped hash s) (hhdr : (s.duty p).hdr = some b)
    (hb : (s.ledger p).mid = some b ∨ b ∈ (s.ledger p).untagged) : OwnedBy s.ledger p b := by
  intro q hq
  have hk := hm.books.known q
  have hpin : 0 < (s.backends q).refcount b → s.pool.tagValid b = true → False := by
    intro hr hv
    rcases hb with hb | hb
    · exact hr.ne' (hm.books.alone hb hq)
    · cases ((hm.books.known p).untagged b hb).symm.trans hv
  refine ⟨fun hu => ?_, fun ht => ?_, fun t ht => ?_, fun t ht => ?_⟩
  · have hv := (hm.balanced q).untagged_subset hu
    rcases hb with hb | hb
    · exact (h.victims hv).ne' (hm.books.alone hb hq)
    · exact hq (h.one_owner hv ((hm.balanced p).untagged_subset hb))
  · exact hpin (hk.tagged b ht).1 (hk.tagged b ht).2
  · exact hpin (hk.holds t b ht).1 (hk.holds t b ht).2.1
  · exact hq (h.one_holder (Pc.Balanced.hdr (h.formed q) (hm.balanced q) (.inr ⟨t, ht⟩)) hhdr)

variable [DecidableEq Pid]

variable (hm : Mapped hash s)
include hm

theorem step (hx : x.pc.Within l)
    (hb : Books hash P (update (fun p => (s.backends p).refcount) p x.refcount)
      (update s.ledger p l)) : Mapped hash ⟨P, update s.backends p x⟩ where
  balanced := forall_update (Q := fun _ x => x.pc.Balanced) (fun q _ => hm.balanced q) hx.balanced
  books := by
    have hR : (fun q => (update s.backends p x q).refcount) = _ :=
      comp_update Backend.refcount s.backends p x
    have hL : Sys.ledger ⟨P, update s.backends p x⟩ = _ :=
      comp_update (fun x : Backend V => x.pc.ledger) s.backends p x
    rw [hR, hL]
    exact hb.within hx

variable (ha : s.pool.Agrees P)
include ha

theorem learn (hx : x.pc.Within l)
    (hk : Known hash s.pool p x.refcount l) (hins : l.ins = (s.ledger p).ins)
    (hdel : l.del = (s.ledger p).del) (hmid : l.mid = (s.ledger p).mid)
    (hrefs : ∀ b, 0 < x.refcount b →
      0 < (s.backends p).refcount b ∨ ∀ q ≠ p, (s.ledger q).mid ≠ some b) :
    Mapped hash ⟨P, update s.backends p x⟩ :=
  hm.step hx <| hm.books.quiet (hk.agrees ha) hins hdel hmid ha.tag ha.tagValid ha.table
    (fun _ _ _ hπ => ha.exclusive ▸ hπ) (fun _ _ _ hπ => ha.shared ▸ hπ)
    (fun hπ => ha.shared ▸ hm.books.apart (ha.exclusive ▸ hπ)) hrefs

theorem goto (hrefs : x.refcount = (s.backends p).refcount) (hx : x.pc.Within (s.ledger p)) :
    Mapped hash ⟨P, update s.backends p x⟩ :=
  hm.learn ha hx (hrefs ▸ hm.books.known p) rfl rfl rfl fun _ hb => .inl (hrefs ▸ hb)

theorem pin (hx : x.pc.Within { s.ledger p with seen := none, holds := (s.ledger p).seen })
    (hb : ∀ t c, (s.ledger p).seen = some (t, c) → c = b)
    (hrefs : x.refcount = ((s.backends p).track b).refcount)
    (hmid : 0 < (s.backends p).refcount b ∨ ∀ q ≠ p, (s.ledger q).mid ≠ some b) :
    Mapped hash ⟨P, update s.backends p x⟩ := by
  have hk := hm.books.known p
  refine hm.learn ha hx ?_ rfl rfl rfl fun c hc => ?_
  · rw [hrefs]
    exact { hk with
      tagged := fun c hc => ⟨Backend.track_pos b (hk.tagged c hc).1, (hk.tagged c hc).2⟩
      holds := fun t c hc => by
        obtain ⟨hv, ht, -⟩ := hm.books.carries_of_seen hm.sane hc
        obtain rfl := hb t c hc
        exact ⟨by simp, hv, ht⟩
      seen := fun t c hc => nomatch hc }
  · by_cases hcb : c = b
    · exact hcb ▸ hmid
    · rw [hrefs, Backend.track_of_ne hcb] at hc
      exact .inl hc

theorem inspect {w : BufState}
    (hw : w.has bmTagValid = s.pool.tagValid b)
    (hx : x.pc.Within { s.ledger p with
      untagged := if w.has bmTagValid then (s.ledger p).untagged else b :: (s.ledger p).untagged
      tagged := if w.has bmTagValid then some b else none })
    (hb : 0 < x.refcount b) (hmore : ∀ c, 0 < (s.backends p).refcount c → 0 < x.refcount c)
    (hrefs : ∀ c, 0 < x.refcount c →
      0 < (s.backends p).refcount c ∨ ∀ q ≠ p, (s.ledger q).mid ≠ some c) :
    Mapped hash ⟨P, update s.backends p x⟩ := by
  have hk := hm.books.known p
  refine hm.learn ha hx ?_ rfl rfl rfl hrefs
  exact { hk with
    untagged := fun c hc => by
      split at hc
      · exact hk.untagged c hc
      · rename_i hn
        rcases List.mem_cons.mp hc with rfl | hc
        · exact hw ▸ Bool.eq_false_iff.mpr hn
        · exact hk.untagged c hc
    tagged := fun c hc => by
      split at hc
      · rename_i hy
        cases hc
        exact ⟨hb, hw ▸ hy⟩
      · exact nomatch hc
    holds := fun t c hc => ⟨hmore c (hk.holds t c hc).1, (hk.holds t c hc).2⟩ }

end Mapped

section Exec

variable [DecidableEq Pid] [Fintype Pid] {N : ℕ}

omit [DecidableEq Pid] in
theorem Sys.unpinned_of_pins_eq_one (h : s.pins b = 1) (hp : 0 < (s.backends p).refcount b)
    {q : Pid} (hq : q ≠ p) : (s.backends q).refcount b = 0 := by
  rw [s.pins_eq_card] at h
  refine Nat.eq_zero_of_not_pos fun hpos => hq ?_
  exact Finset.card_le_one.mp h.le q (by simpa using hpos) p (by simpa using hp)

omit [DecidableEq Pid] [Fintype Pid] in
theorem Pool.agrees_claim (h : (P.state b).getRefcount = 0) :
    P.Agrees (P.setState b (P.state b + bufRefcountOne)) :=
  agrees_setState (by rw [fields_add_refcountOne (lt_of_eq_of_lt h (by decide))])

theorem claim_mapped (h : Sound s) (hm : Mapped hash s) (h0 : (s.pool.state b).getRefcount = 0)
    (hfree : (s.pool.state b).has bmLocked = false) (ha : s.pool.Agrees P)
    (hrefs : x.refcount = ((s.backends p).track b).refcount)
    (hx : x.pc.Within { s.ledger p with
      untagged := if (s.pool.state b).has bmTagValid then (s.ledger p).untagged
        else b :: (s.ledger p).untagged
      tagged := if (s.pool.state b).has bmTagValid then some b else none }) :
    Mapped hash ⟨P, update s.backends p x⟩ := by
  refine hm.inspect ha rfl hx ?_ (fun c hc => ?_) fun c hc => ?_
  · simp [hrefs]
  · exact hrefs ▸ Backend.track_pos b hc
  · by_cases hcb : c = b
    · subst hcb
      exact .inr fun q _ => hm.mid_ne h ((has_bmLocked _).symm.trans hfree) q
    · rw [hrefs, Backend.track_of_ne hcb] at hc
      exact .inl hc

theorem execGet_mapped (hV : V.Careful) (h : Sound s) (hm : Mapped hash s) {k : VictimFor}
    {g : V.Pc} (hpc : (s.backends p).pc = .getBuffer k g)
    (he : execGet p s.pool (s.backends p) k (V.code N s.pool.policy g) = some (P, x)) :
    Mapped hash ⟨P, update s.backends p x⟩ := by
  have hledger : s.ledger p = { untagged := k.buffers } := congrArg Pc.ledger hpc
  have hget g : (Pc.getBuffer k g : Pc V.Pc).Within (s.ledger p) := by
    rw [hledger]
    exact Pc.within_self (.getBuffer k g) trivial
  generalize hc : V.code N s.pool.policy g = i at he
  cases execGet_cases he with
  | stay => exact hm.goto ⟨rfl, fun _ => rfl, rfl, rfl, rfl⟩ rfl (hget _)
  | cas b new ok fail =>
    have hnew : new.fields.flags 3 = (s.pool.state b).fields.flags 3 := by
      obtain ⟨-, ⟨hpos, rfl⟩ | rfl⟩ := hV.cas hc
      · rw [fields_sub_usagecountOne hpos]
      · rw [fields_andNot_usagecountMask]
    have ha := Pool.agrees_setState hnew
    exact hm.goto ⟨rfl, ha.tagValid, rfl, rfl, rfl⟩ rfl (hget _)
  | claim b s' fail =>
    obtain ⟨h0, hfree⟩ := hV.claim hc
    have ha := Pool.agrees_claim h0
    refine claim_mapped h hm h0 hfree ⟨rfl, ha.tagValid, rfl, rfl, rfl⟩ rfl ?_
    rw [hledger]
    refine Pc.got_within trivial rfl ?_
    rw [has_bmTagValid, has_bmTagValid, fields_add_refcountOne (lt_of_eq_of_lt h0 (by decide))]
  | raise s' message =>
    refine hm.learn ⟨rfl, fun _ => rfl, rfl, rfl, rfl⟩
      (Pc.within_self (.failed message) trivial) known_empty ?_ ?_ ?_ fun _ hb => .inl hb <;>
      rw [hledger] <;> rfl

theorem cas_mapped (hP : Fintype.card Pid ≤ maxBackends) (h : Sound s) (hm : Mapped hash s)
    {op : WordOp} {ok : Pc V.Pc} {fail : BufState → Pc V.Pc}
    (hd : (Instr.cas b (s.pool.state b) op ok fail).Disciplined (s.backends p).pc)
    (hi : (Instr.cas b (s.pool.state b) op ok fail).Balanced (s.backends p).pc) :
    Mapped hash ⟨s.pool.setState b (op.apply (s.pool.state b)), update s.backends p
      ((if op.pins then (s.backends p).track b else s.backends p).goto ok)⟩ := by
  have hlt := h.getRefcount_lt hP (p := p) (b := b)
  have hk := hm.books.known p
  cases op with
  | claim =>
    obtain ⟨-, h0, hfree, -⟩ := hd
    exact claim_mapped h hm h0 hfree (Pool.agrees_claim h0) rfl hi.2
  | pin strategy =>
    obtain ⟨-, hfree, hb, -⟩ := hd
    refine hm.pin (Pool.agrees_setState ?_) hi.2.2 hi.2.1 rfl
      (.inr fun q _ => hm.mid_ne h ((has_bmLocked _).symm.trans hfree) q)
    exact congrArg (fun f => f.flags 3) (fields_pin (hlt (h.fresh hb)) strategy)
  | dirty =>
    have hf : ((WordOp.dirty).apply (s.pool.state b)).fields = _ :=
      fields_or (m := bmDirty ||| bmJustDirtied) (by decide)
    have hv : (bmDirty ||| bmJustDirtied).fields.flags 3 = false := by decide
    refine hm.goto (Pool.agrees_setState ?_) rfl hi.2
    rw [hf]
    simp [hv]
  | unlockExt u =>
    obtain ⟨-, hu, hhdr, hp, -⟩ := hd
    have hf := fields_unlockExt hu fun hup => hlt (h.fresh (hp hup))
    cases u with
    | install t permanent =>
      obtain ⟨-, hins, hwrote, hpmid, hx⟩ := hi
      have hbu := ((hm.sane p).ins hins).2.2
      refine hm.step hx (hm.books.install hm.sane ?_ hins hwrote (fun q => ?_)
        (hm.ownedBy h hhdr (.inr hbu)) (h.victims ((hm.balanced p).untagged_subset hbu)))
      · rw [has_bmTagValid, hf]
        have hset : (bmTagValid ||| if permanent then bmPermanent else 0).fields.flags 3 = true := by
          cases permanent <;> decide
        exact (congrArg _ hset).trans (Bool.or_true _)
      · by_cases hq : q = p
        · subst hq
          exact fun hc => nomatch hpmid.symm.trans hc
        · exact hm.mid_ne_of_hdr h hhdr hq
    | clear =>
      obtain ⟨-, hmid, hx⟩ := hi
      refine hm.step hx (hm.books.clear ?_ hmid (hm.ownedBy h hhdr (.inl hmid)))
      rw [has_bmTagValid, hf]
      rfl
    | flags set unset =>
      obtain ⟨-, -, hset, hunset⟩ := hu
      rw [has_bmTagValid] at hset hunset
      refine hm.goto (Pool.agrees_setState ?_) rfl hi.2
      rw [hf]
      simp [HdrUpdate.fieldsAfter, HdrUpdate.flagsAfter, hset, hunset]
    | pin =>
      refine hm.learn (Pool.agrees_setState ?_) hi.2 ?_ rfl rfl rfl fun c hc => ?_
      · rw [hf]
        simp [HdrUpdate.fieldsAfter, HdrUpdate.flagsAfter]
      · exact { hk with
          tagged := fun c hc => ⟨Backend.track_pos b (hk.tagged c hc).1, (hk.tagged c hc).2⟩
          holds := fun t c hc => ⟨Backend.track_pos b (hk.holds t c hc).1, (hk.holds t c hc).2⟩ }
      · by_cases hcb : c = b
        · subst hcb
          exact .inr fun q hq => hm.mid_ne_of_hdr h hhdr hq
        · exact .inl (Backend.track_of_ne hcb ▸ hc)

theorem lockBufHdr_mapped (h : Sound s) (hm : Mapped hash s) {next : Pc V.Pc}
    (hfree : (s.fields b).flags 0 = false)
    (hi : Instr.LocksHeader (s.backends p).pc b (s.pool.state b ||| bmLocked) (s.pool.tag b) next) :
    Mapped hash ⟨s.pool.setState b (s.pool.state b ||| bmLocked),
      update s.backends p ((s.backends p).goto next)⟩ := by
  have hflags : (s.pool.state b ||| bmLocked).fields.flags 3 = (s.pool.state b).fields.flags 3 := by
    rw [fields_or_bmLocked]
    simp
  have hw : (s.pool.state b ||| bmLocked).has bmTagValid = s.pool.tagValid b := by
    rw [Pool.tagValid, has_bmTagValid, has_bmTagValid, hflags]
  have hrc : (s.pool.state b ||| bmLocked).getRefcount = s.pins b := by
    exact (congrArg Fields.refcount fields_or_bmLocked).trans (h.refcount b)
  have hk := hm.books.known p
  rcases hi with hx | ⟨hv, hx⟩ | ⟨t, hh, hex, hl, h1, hv, hx⟩ | ⟨hex, hl, h0, hx⟩
  · exact hm.goto (Pool.agrees_setState hflags) rfl hx
  · exact hm.inspect (Pool.agrees_setState hflags) hw hx (h.victims hv) (fun _ hc => hc)
      fun _ hc => .inl hc
  · obtain ⟨hpos, hvalid, rfl⟩ := hk.holds t b hh
    refine hm.step hx ?_
    have hb := hm.books.startClear hw hl hex (hm.mid_ne h hfree)
      fun q hq => Sys.unpinned_of_pins_eq_one (hrc.symm.trans h1) hpos hq
    rwa [if_pos hvalid] at hb
  · refine hm.step hx ?_
    rw [hw]
    exact hm.books.startClear hw hl hex (hm.mid_ne h hfree)
      fun q _ => Sys.pins_eq_zero_iff.mp (hrc.symm.trans h0) q

theorem exec_mapped (hV : V.Careful) (hP : Fintype.card Pid ≤ maxBackends) (h : Sound s)
    (hm : Mapped hash s) {i : Instr V} (hd : i.Disciplined (s.backends p).pc)
    (hi : i.Balanced (s.backends p).pc) (he : exec N hash p s.pool (s.backends p) i = some (P, x)) :
    Mapped hash ⟨P, update s.backends p x⟩ := by
  cases i with
  | goto next | setRing r next => cases he; exact hm.goto (.refl _) rfl hi
  | load b next => cases he; exact hm.goto (.refl _) rfl (hi _)
  | raise message =>
    cases he
    obtain ⟨-, -, hins, hdel, hmid, -⟩ := hi
    exact hm.learn (.refl _) (Pc.within_self (.failed message) trivial) known_empty hins.symm
      hdel.symm hmid.symm fun _ hb => .inl hb
  | await b next =>
    simp only [exec, ite_none_left_eq_some] at he
    cases he.2
    exact hm.goto (.refl _) rfl (hi _)
  | readTag b next =>
    cases he
    have hk := hm.books.known p
    refine hm.learn (.refl _) (hi.2 _) ?_ rfl rfl rfl fun _ hb => .inl hb
    exact { hk with
      tagged := fun c hc => by cases hc
      holds := by
        rintro t c ⟨⟩
        exact ⟨(hk.tagged b hi.1).1, (hk.tagged b hi.1).2, rfl⟩ }
  | policy k g => exact execGet_mapped hV h hm hi he
  | pinFirst b held fresh =>
    simp only [exec] at he
    split at he <;> cases he
    · rename_i hb
      exact hm.pin (.refl _) (hi.2 _).1 hi.1 rfl (.inl hb)
    · exact hm.goto (.refl _) rfl (hi.2 _).2
  | checkUnpinned b next =>
    simp only [exec, ite_none_right_eq_some] at he
    cases he.2
    exact hm.goto (.refl _) rfl hi
  | cas b old op ok fail =>
    simp only [exec] at he
    split at he
    · rename_i hold
      subst hold
      cases he
      exact cas_mapped hP h hm hd hi
    · cases he
      exact hm.goto (.refl _) rfl (hi.1 _)
  | lockBufHdr b next =>
    simp only [exec, ite_none_left_eq_some, has_bmLocked, Bool.not_eq_true] at he
    obtain ⟨hfree, he⟩ := he
    cases he
    exact lockBufHdr_mapped h hm hfree (hi _ _)
  | unlockBufHdr b next =>
    cases he
    refine hm.goto (Pool.agrees_setState ?_) rfl hi
    rw [fields_sub_bmLocked ((h.locked b).mpr ⟨p, hd.1⟩)]
    simp
  | clearValid b next =>
    cases he
    have hv : bmValid.fields.flags 3 = false := by decide
    refine hm.goto (Pool.agrees_setState ?_) rfl hi
    rw [fields_andNot (by decide)]
    simp [hv]
  | unpin b next wake =>
    have hk := hm.books.known p
    have hrefs : ∀ c, 0 < ((s.backends p).untrack b).refcount c →
        0 < (s.backends p).refcount c := by
      intro c hc
      by_cases hcb : c = b
      · subst hcb
        rw [Backend.untrack_self] at hc
        omega
      · rwa [Backend.untrack_of_ne hcb] at hc
    have hforget : Known hash s.pool p ((s.backends p).untrack b).refcount
        { s.ledger p with tagged := none, holds := none } :=
      { hk with tagged := fun c hc => (by cases hc), holds := fun t c hc => (by cases hc) }
    simp only [exec, ite_none_left_eq_some] at he
    obtain ⟨h0, he⟩ := he
    split at he <;> cases he
    · have hrc : 0 < (s.pool.state b).getRefcount :=
        Nat.pos_of_ne_zero fun hz => h0 (h.unpinned hz p)
      refine hm.learn (Pool.agrees_setState ?_) ?_ hforget rfl rfl rfl fun c hc => .inl (hrefs c hc)
      · rw [fields_sub_refcountOne hrc]
      · split
        · exact hi.2
        · exact hi.1
    · exact hm.learn (.refl _) hi.1 hforget rfl rfl rfl fun c hc => .inl (hrefs c hc)
  | writeTag b t next =>
    cases he
    refine hm.step hi.2 ?_
    exact hm.books.writeTag (hm.ownedBy h hd.1 hi.1)
      (hi.1.imp_right ((hm.books.known p).untagged b))
  | lookup t hit miss =>
    simp only [exec, ite_none_right_eq_some] at he
    obtain ⟨hex, he⟩ := he
    split at he <;> cases he
    · rename_i b ht
      exact hm.step (hi.2.1 b) (hm.books.lockShared hex ht)
    · exact hm.goto (.refl _) rfl hi.2.2
  | lwExclusive t next =>
    simp only [exec, ite_none_right_eq_some] at he
    obtain ⟨⟨hex, hsh⟩, he⟩ := he
    cases he
    exact hm.step hi.2 (hm.books.lockExclusive hex hsh (hm.books.known p).seen)
  | tableInsert t v fresh existing =>
    simp only [exec, ite_none_right_eq_some] at he
    obtain ⟨⟨hex, hsh⟩, he⟩ := he
    split at he <;> rename_i ht <;> cases he
    · exact hm.step hi.2.2.1 (hm.books.insert hm.sane hex hsh ht hi.1)
    · refine hm.step (hi.2.2.2 _) (hm.books.lockExclusive hex hsh ?_)
      rintro u c ⟨⟩
      exact ht
  | tableDelete t next =>
    cases he
    obtain ⟨⟨b, hdel⟩, hins, -, hx⟩ := hi
    exact hm.step hx (hm.books.delete hm.sane hdel hins)
  | lwRelease exclusive t next =>
    cases exclusive with
    | true =>
      cases he
      exact hm.step hi.2.2 (hm.books.releaseExclusive hi.1)
    | false =>
      cases he
      exact hm.step hi.2.2 (hm.books.releaseShared t)
  | notify n b next =>
    obtain ⟨s', rfl, rfl⟩ := exec_notify_cases he
    exact hm.goto ⟨rfl, fun _ => rfl, rfl, rfl, rfl⟩ rfl hi

omit [DecidableEq Pid] [Fintype Pid] in
theorem boot_mapped (V : EvictionVtable) (Pid : Type) (hash : BufferTag → ℕ) (N : ℕ) :
    Mapped hash (boot V Pid N) where
  balanced _ := trivial
  books := {
    known := fun _ => known_empty
    apart := fun h => nomatch h
    alone := fun h => nomatch h
    gone := fun h => nomatch h
    table := fun t b => by
      have h0 : BufState.has 0#64 bmTagValid = false := by decide
      simp [boot, Carries, Owed, Sys.ledger, Pc.ledger, Pool.tagValid, h0] }

theorem mapped_of_reachable (hV : V.Careful) (hP : Fintype.card Pid ≤ maxBackends)
    (h : Reachable (step N hash) (boot V Pid N) s) : Sound s ∧ Mapped hash s := by
  refine h.invariant (I := fun s => Sound s ∧ Mapped hash s)
    ⟨boot_sound V Pid N, boot_mapped V Pid hash N⟩ fun u a v hu hstep => ?_
  obtain ⟨i, P, x, hc, he, rfl⟩ := step_eq_some_iff.mp hstep
  have hd := code_disciplined (hu.1.formed a.1) hc
  have hi := code_balanced (hu.1.formed a.1) (hu.2.balanced a.1) hc
  exact ⟨hu.1.step (exec_effect hV hP hu.1 hd he), exec_mapped hV hP hu.1 hu.2 hd hi he⟩

/-- While no partition lock is held exclusively, the mapping table holds exactly the valid tags
of the buffers, so no two buffers have the same valid tag. In every state, a buffer that
`BufferAlloc` has returned is pinned and has the requested tag. -/
theorem buffer_mapping_consistency {policy : EvictionPolicy} {s : Sys policy.vtable Pid}
    (hP : Fintype.card Pid ≤ maxBackends)
    (h : Reachable (step N hash) (boot policy.vtable Pid N) s) :
    ((∀ t, s.pool.exclusive (partition hash t) = none) →
      (∀ t b, s.pool.table t = some b ↔
        (s.pool.state b).has bmTagValid = true ∧ s.pool.tag b = t) ∧
      ∀ b c, (s.pool.state b).has bmTagValid = true → (s.pool.state c).has bmTagValid = true →
        s.pool.tag b = s.pool.tag c → b = c) ∧
    ∀ p r b found, (s.backends p).pc = .returned r b found →
      0 < (s.backends p).refcount b ∧ (s.pool.state b).has bmTagValid = true ∧
        s.pool.tag b = r.tag := by
  obtain ⟨-, hm⟩ := mapped_of_reachable policy.careful hP h
  refine ⟨fun hfree => ?_, fun p r b found hpc => ?_⟩
  · have hex : ∀ q, (s.ledger q).ex = none := by
      intro q
      refine eq_none_iff_forall_ne_some.mpr fun t ht => ?_
      exact nomatch (hfree t).symm.trans ((hm.books.known q).ex t ht)
    have htable : ∀ t b, s.pool.table t = some b ↔
        (s.pool.state b).has bmTagValid = true ∧ s.pool.tag b = t := by
      intro t b
      rw [hm.books.table t b]
      constructor
      · rintro (⟨hv, ht, -⟩ | ⟨q, ho⟩)
        · exact ⟨hv, ht⟩
        · exact nomatch (hex q).symm.trans ((hm.sane q).ex_of_owed ho)
      · rintro ⟨hv, ht⟩
        refine .inl ⟨hv, ht, fun q hq => ?_⟩
        have := ((hm.sane q).mid hq).1
        rw [hex q] at this
        exact nomatch this
    refine ⟨htable, fun b c hb hc hbc => ?_⟩
    have hb' := (htable (s.pool.tag c) b).mpr ⟨hb, hbc⟩
    exact some.inj (hb'.symm.trans ((htable _ c).mpr ⟨hc, rfl⟩))
  · exact (hm.books.known p).holds r.tag b (congrArg (fun pc => pc.ledger.holds) hpc)

/-- A backend that misses in an empty pool of two buffers gets buffer 0 with the block's tag. -/
theorem buffer_mapping_consistency_miss :
    ∃ s : Sys EvictionPolicy.sieve.vtable (Fin 2),
      (∀ t b, s.pool.table t = some b ↔
        (s.pool.state b).has bmTagValid = true ∧ s.pool.tag b = t) ∧
      s.pool.table (block 0) = some 0 ∧
      ∃ r found, (s.backends 0).pc = .returned r 0 found ∧ r.tag = block 0 ∧
        0 < (s.backends 0).refcount 0 ∧ (s.pool.state 0).has bmTagValid = true ∧
        s.pool.tag 0 = r.tag := by
  have h : ((run (step 2 fun _ => 0) (boot EvictionPolicy.sieve.vtable (Fin 2) 2)
      ((Op.read ⟨block 0, false, true⟩).steps 0 12)).map fun s =>
        decide (s.pool.exclusive 0 = none ∧ s.pool.table (block 0) = some 0) &&
          match (s.backends 0).pc with
          | .returned r b _ => decide (r.tag = block 0 ∧ b = 0)
          | _ => false) = some true := by
    decide +kernel
  simp only [map_eq_some_iff, Bool.and_eq_true, decide_eq_true_iff] at h
  obtain ⟨s, hs, ⟨hex, ht⟩, hpc⟩ := h
  have hmap := buffer_mapping_consistency (by simp [maxBackends]) ⟨_, hs⟩
  split at hpc
  · rename_i r b found hret
    obtain ⟨hr, rfl⟩ := of_decide_eq_true hpc
    exact ⟨s, (hmap.1 fun _ => hex).1, ht, r, found, hret, hr, hmap.2 0 r 0 found hret⟩
  · cases hpc

end Exec

end Machine

end PostgreSieve
