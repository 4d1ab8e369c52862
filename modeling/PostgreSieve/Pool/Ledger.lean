import PostgreSieve.Pool.Discipline

/-! # What a backend knows of the mapping at a program point

Next to its header lock and its victims, a program point determines the partition lock
its backend holds, the change of the mapping table it has begun and not finished, and
what it may rely on about tags. `code_balanced` is the analysis of the routines that the
consistency of the mapping rests on.
-/

namespace PostgreSieve

open List Option

/-- What a backend holds, owes and knows with respect to the mapping table. -/
structure Ledger where
  /-- The tag whose partition is locked exclusively, or shared. -/
  ex : Option BufferTag := none
  sh : Option BufferTag := none
  /-- An entry whose buffer does not carry its tag yet, and one whose buffer has lost it. -/
  ins : Option (BufferTag × ℕ) := none
  del : Option (BufferTag × ℕ) := none
  /-- A buffer that is being cleared under its header lock. -/
  mid : Option ℕ := none
  /-- Victims without a valid tag. -/
  untagged : List ℕ := []
  /-- A pinned buffer with some valid tag, and one with a known tag. -/
  tagged : Option ℕ := none
  holds : Option (BufferTag × ℕ) := none
  /-- An entry read under the partition lock. -/
  seen : Option (BufferTag × ℕ) := none
  /-- A tag written under the header lock. -/
  wrote : Option (BufferTag × ℕ) := none

/-- The victim `b` was found in state `w`. -/
def Ledger.got (k : VictimFor) (b : ℕ) (w : BufState) : Ledger :=
  if w.has bmTagValid then { untagged := k.buffers, tagged := some b }
  else { untagged := b :: k.buffers }

namespace Pc

variable {π : Type}

def ledger : Pc π → Ledger
  | returned r b _ => { holds := some (r.tag, b) }
  | pinBuffer _ _ valid _ | pinLoop _ _ valid _ _ =>
    { valid.ledger with holds := none, seen := valid.ledger.holds }
  | unpinBuffer _ next | unpinVictim _ next | wakePinCountWaiter _ next | notify _ _ next
  | unlockBufHdr _ next | startBufferIo _ _ next _ | terminateBufferIo _ _ _ next
  | flushLsn _ next | flushWrite _ next | clearValid _ next => next.ledger
  | getVictimBuffer k | ringRead k _ | ringLoop k _ _ | getBuffer k _ | lockLsn k _ _ =>
    { untagged := k.buffers }
  | gotVictim k b w _ | lsnCheck k b w _ => .got k b w
  | invalidateVictimBuffer b _ no => { no.ledger with tagged := some b }
  | lockVictim b t _ no => { no.ledger with ex := some t, holds := some (t, b) }
  | allocInsert _ v => { untagged := [v] }
  | lockInstall v t _ next =>
    { next.ledger with holds := none, ins := some (t, v), untagged := v :: next.ledger.untagged }
  | lwExclusive _ next => { next.ledger with ex := none }
  | lwRelease true t next => { next.ledger with ex := some t }
  | lwRelease false t next => { next.ledger with sh := some t }
  | bufTableDelete t b next => { next.ledger with del := some (t, b) }
  | writeTag _ _ next => { next.ledger with wrote := none }
  | unlockBufHdrExt b _ (.install t _) next =>
    { next.ledger with holds := none, ins := some (t, b), wrote := some (t, b),
                       untagged := b :: next.ledger.untagged }
  | unlockBufHdrExt b _ .clear next =>
    { next.ledger with mid := some b, untagged := next.ledger.untagged.filter (· ≠ b) }
  | unlockBufHdrExt _ _ _ next => next.ledger
  | lockInvalidate _ t => { ex := some t }
  | extendSize _ bs | extendLoop _ _ _ bs _ | extendCheck _ _ _ _ bs _ => { untagged := bs }
  | extendSurplus _ _ keep surplus => { untagged := surplus ++ keep }
  | _ => {}

end Pc

namespace Ledger

/-- No change of the mapping table is under way. -/
def Settled (l : Ledger) : Prop :=
  l.ins = none ∧ l.del = none ∧ l.mid = none ∧ l.seen = none ∧ l.wrote = none

/-- Besides, no partition lock is held. -/
def Free (l : Ledger) : Prop := l.ex = none ∧ l.sh = none ∧ l.Settled

/-- What is left when the tag of `v` has been installed. -/
def Installs (v : ℕ) (t : BufferTag) (l : Ledger) : Prop :=
  l.ex = some t ∧ l.sh = none ∧ l.Settled ∧ l.tagged = none ∧ v ∉ l.untagged ∧
    ∀ e, l.holds = some e → e = (t, v)

theorem free_bare {us : List ℕ} {tagged : Option ℕ} :
    Free { untagged := us, tagged := tagged } := ⟨rfl, rfl, rfl, rfl, rfl, rfl, rfl⟩

theorem free_of_bare {l : Ledger} (h : l = { untagged := l.untagged }) : l.Free := by
  rw [h]
  exact free_bare

theorem got_free {k : VictimFor} {b : ℕ} {w : BufState} : (got k b w).Free := by
  rw [got]
  split <;> exact free_bare

end Ledger

namespace Pc

variable {π : Type}

/-- The program points that the routines reach: what a point returns to fits its ledger. -/
def Balanced : Pc π → Prop
  | pinBuffer b _ valid invalid | pinLoop b _ valid invalid _ =>
    valid.Balanced ∧ invalid.Balanced ∧ invalid.ledger = valid.ledger ∧ valid.ledger.Settled ∧
      valid.ledger.tagged = none ∧ ∀ t c, valid.ledger.holds = some (t, c) →
        c = b ∧ (valid.ledger.ex = some t ∨ valid.ledger.sh = some t)
  | unpinBuffer _ next | unpinVictim _ next =>
    next.Balanced ∧ next.ledger.tagged = none ∧ next.ledger.holds = none
  | wakePinCountWaiter _ next | notify _ _ next | unlockBufHdr _ next
  | terminateBufferIo _ _ _ next | clearValid _ next => next.Balanced
  | flushLsn _ next | flushWrite _ next => next.Balanced ∧ next.ledger.Free
  | startBufferIo _ _ yes no => yes.Balanced ∧ no.Balanced ∧ no.ledger = yes.ledger
  | invalidateVictimBuffer b yes no | lockVictim b _ yes no =>
    yes.Balanced ∧ no.Balanced ∧ yes.ledger = { untagged := yes.ledger.untagged } ∧
      no.ledger = { untagged := no.ledger.untagged } ∧ b ∈ no.duty.victims ∧
      ∀ v ∈ yes.ledger.untagged, v = b ∨ v ∈ no.ledger.untagged
  | lockInstall v t _ next => next.Balanced ∧ next.ledger.Installs v t ∧ v ∈ next.duty.victims
  | lwExclusive t next => next.Balanced ∧ next.ledger.ex = some t ∧ next.ledger.sh = none ∧
      next.ledger.Settled
  | lwRelease _ _ next => next.Balanced ∧ next.ledger.Free
  | bufTableDelete t _ next => next.Balanced ∧ next.ledger.ex = some t ∧ next.ledger.sh = none ∧
      next.ledger.Settled
  | writeTag b t next => next.Balanced ∧ next.ledger.holds = none ∧
      (next.ledger.mid = some b ∨ b ∈ next.ledger.untagged) ∧
      ∀ e, next.ledger.wrote = some e → e = (t, b)
  | unlockBufHdrExt b _ (.install t _) next =>
    next.Balanced ∧ next.ledger.Installs b t ∧ b ∈ next.duty.victims
  | unlockBufHdrExt _ _ .clear next => next.Balanced ∧ next.ledger.ex.isSome ∧
      next.ledger.sh = none ∧ next.ledger.ins = none ∧ next.ledger.mid = none ∧
      next.ledger.seen = none ∧ next.ledger.wrote = none ∧ next.ledger.tagged = none ∧
      next.ledger.holds = none
  | unlockBufHdrExt _ _ _ next => next.Balanced
  | _ => True

/-- The point `pc` owes what `l` owes and knows no more than `l`. -/
structure Within (pc : Pc π) (l : Ledger) : Prop where
  balanced : pc.Balanced
  ex : pc.ledger.ex = l.ex
  sh : pc.ledger.sh = l.sh
  ins : pc.ledger.ins = l.ins
  del : pc.ledger.del = l.del
  mid : pc.ledger.mid = l.mid
  untagged : ∀ v ∈ pc.ledger.untagged, v ∈ l.untagged
  tagged : ∀ b, pc.ledger.tagged = some b → l.tagged = some b
  holds : ∀ e, pc.ledger.holds = some e → l.holds = some e
  seen : ∀ e, pc.ledger.seen = some e → l.seen = some e
  wrote : ∀ e, pc.ledger.wrote = some e → l.wrote = some e

theorem within_self (pc : Pc π) (h : pc.Balanced) : pc.Within pc.ledger :=
  ⟨h, rfl, rfl, rfl, rfl, rfl, fun _ hv => hv, fun _ hb => hb, fun _ he => he, fun _ he => he,
    fun _ he => he⟩

theorem Balanced.within {pc : Pc π} (h : pc.Balanced) : pc.Within pc.ledger := pc.within_self h

end Pc

/-! ## What the ledgers of the program points have in common -/

/-- An unfinished change is made under the lock that it needs. -/
structure Ledger.Sane (l : Ledger) : Prop where
  seen : ∀ {t b}, l.seen = some (t, b) → (l.ex = some t ∨ l.sh = some t) ∧ l.ins = none ∧ l.del = none
  ins : ∀ {t b}, l.ins = some (t, b) → l.ex = some t ∧ l.del = none ∧ b ∈ l.untagged
  del : ∀ {t b}, l.del = some (t, b) → l.ex = some t
  mid : ∀ {b}, l.mid = some b → l.ex.isSome ∧ l.holds = none ∧ l.tagged = none
  wrote : ∀ {t b}, l.wrote = some (t, b) → l.ins = some (t, b)

theorem Ledger.Settled.sane {l : Ledger} (h : l.Settled) : l.Sane where
  seen he := nomatch h.2.2.2.1.symm.trans he
  ins he := nomatch h.1.symm.trans he
  del he := nomatch h.2.1.symm.trans he
  mid he := nomatch h.2.2.1.symm.trans he
  wrote he := nomatch h.2.2.2.2.symm.trans he

theorem Ledger.Installs.sane {l : Ledger} {v : ℕ} {t : BufferTag} (h : l.Installs v t)
    {wrote : Option (BufferTag × ℕ)} (hw : ∀ e, wrote = some e → e = (t, v)) :
    Ledger.Sane { l with
      holds := none, ins := some (t, v), untagged := v :: l.untagged, wrote := wrote } := by
  obtain ⟨hex, -, hs, -⟩ := h
  exact { hs.sane with
    seen := fun he => nomatch hs.2.2.2.1.symm.trans he
    ins := by rintro t' b' ⟨⟩; exact ⟨hex, hs.2.1, mem_cons_self⟩
    mid := fun he => nomatch hs.2.2.1.symm.trans he
    wrote := fun he => congrArg some (hw _ he).symm }

namespace Pc

variable {π : Type}

theorem Balanced.sane {pc : Pc π} (hb : pc.Balanced) : pc.ledger.Sane := by
  induction pc with
  | wakePinCountWaiter b next ih | notify n b next ih | unlockBufHdr b next ih
  | terminateBufferIo b c w next ih | clearValid b next ih => exact ih hb
  | unpinBuffer b next ih | unpinVictim b next ih | flushLsn b next ih | flushWrite b next ih =>
    exact ih hb.1
  | startBufferIo b f yes no ih => exact ih hb.1
  | pinBuffer b s valid invalid | pinLoop b s valid invalid old =>
    obtain ⟨-, -, -, hs, -, hh⟩ := hb
    exact {
      seen := fun he => ⟨(hh _ _ he).2, hs.1, hs.2.1⟩
      ins := hs.sane.ins
      del := hs.sane.del
      mid := fun he => nomatch hs.2.2.1.symm.trans he
      wrote := hs.sane.wrote }
  | gotVictim k b w f | lsnCheck k b w f => exact Ledger.got_free.2.2.sane
  | invalidateVictimBuffer b yes no | lockVictim b t yes no =>
    exact Ledger.Settled.sane (Ledger.free_of_bare hb.2.2.2.1).2.2
  | lockInstall v t permanent next =>
    exact hb.2.1.sane fun e he => nomatch hb.2.1.2.2.1.2.2.2.2.symm.trans he
  | lwExclusive t next => exact Ledger.Settled.sane hb.2.2.2
  | lwRelease exclusive t next => cases exclusive <;> exact Ledger.Settled.sane hb.2.2.2
  | bufTableDelete t b next =>
    obtain ⟨-, hex, -, hs⟩ := hb
    exact { hs.sane with
      seen := fun he => nomatch hs.2.2.2.1.symm.trans he
      ins := fun he => nomatch hs.1.symm.trans he
      del := by rintro t' b' ⟨⟩; exact hex }
  | writeTag b t next ih =>
    exact { ih hb.1 with wrote := fun he => nomatch he }
  | unlockBufHdrExt b old u next ih =>
    cases u with
    | install t permanent => exact hb.2.1.sane (by rintro e ⟨⟩; rfl)
    | clear =>
      obtain ⟨hb, hex, hsh, hins, hmid, hseen, hwrote, htagged, hholds⟩ := hb
      exact {
        seen := fun he => nomatch hseen.symm.trans he
        ins := fun he => nomatch hins.symm.trans he
        del := (ih hb).del
        mid := fun _ => ⟨hex, hholds, htagged⟩
        wrote := fun he => nomatch hwrote.symm.trans he }
    | flags set unset | pin => exact ih hb
  | _ => exact Ledger.Settled.sane ⟨rfl, rfl, rfl, rfl, rfl⟩

theorem Balanced.untagged_subset {pc : Pc π} (hb : pc.Balanced) {v : ℕ}
    (hv : v ∈ pc.ledger.untagged) : v ∈ pc.duty.victims := by
  induction pc with
  | wakePinCountWaiter b next ih | unlockBufHdr b next ih | terminateBufferIo b c w next ih
  | clearValid b next ih => exact ih hb hv
  | unpinBuffer b next ih | flushLsn b next ih | flushWrite b next ih | lwExclusive t next ih
  | bufTableDelete t b next ih | writeTag b t next ih => exact ih hb.1 hv
  | startBufferIo b f yes no ih | pinBuffer b s yes no ih | pinLoop b s yes no old ih =>
    exact ih hb.1 hv
  | unpinVictim b next ih => exact mem_cons_of_mem b (ih hb.1 hv)
  | notify n b next ih =>
    cases n with
    | insert => exact mem_cons_of_mem b (ih hb hv)
    | hit | invalidate => exact ih hb hv
  | lwRelease exclusive t next ih => cases exclusive <;> exact ih hb.1 hv
  | lockLsn k b f => exact mem_cons_of_mem b hv
  | gotVictim k b w f | lsnCheck k b w f =>
    simp only [ledger, Ledger.got] at hv
    split at hv
    · exact mem_cons_of_mem b hv
    · exact hv
  | invalidateVictimBuffer b yes no _ ih | lockVictim b t yes no _ ih => exact ih hb.2.1 hv
  | lockInstall b t permanent next ih =>
    obtain rfl | hv := mem_cons.mp hv
    · exact hb.2.2
    · exact ih hb.1 hv
  | unlockBufHdrExt b old u next ih =>
    cases u with
    | install t permanent =>
      obtain rfl | hv := mem_cons.mp hv
      · exact hb.2.2
      · exact ih hb.1 hv
    | clear => exact ih hb.1 (mem_of_mem_filter hv)
    | flags set unset | pin => exact ih hb hv
  | getVictimBuffer | ringRead | ringLoop | getBuffer | allocInsert | extendSize | extendSurplus
  | extendLoop | extendCheck => exact hv
  | _ => exact absurd hv not_mem_nil

theorem Balanced.hdr {pc : Pc π} (hf : pc.Formed) (hb : pc.Balanced) {b : ℕ}
    (h : pc.ledger.mid = some b ∨ ∃ t, pc.ledger.wrote = some (t, b)) : pc.duty.hdr = some b := by
  induction pc with
  | wakePinCountWaiter c next ih | clearValid c next ih => exact ih hf.1 hb h
  | terminateBufferIo c d w next ih => exact ih hf.1 hb h
  | unpinBuffer c next ih | unpinVictim c next ih | flushLsn c next ih | flushWrite c next ih
  | lockInstall v t permanent next ih | lwExclusive t next ih | bufTableDelete t c next ih =>
    exact ih hf.1 hb.1 h
  | startBufferIo c f yes no ih | pinBuffer c s yes no ih | pinLoop c s yes no old ih =>
    exact ih hf.1 hb.1 h
  | notify n c next ih => cases n <;> exact ih hf.1 hb h
  | lwRelease exclusive t next ih => cases exclusive <;> exact ih hf.1 hb.1 h
  | gotVictim k c w f | lsnCheck k c w f =>
    obtain ⟨-, -, -, -, hmid, -, hwrote⟩ := Ledger.got_free (k := k) (b := c) (w := w)
    rcases h with h | ⟨t, h⟩
    · exact nomatch hmid.symm.trans h
    · exact nomatch hwrote.symm.trans h
  | invalidateVictimBuffer c yes no _ ih | lockVictim c t yes no _ ih => exact ih hf.2.1 hb.2.1 h
  | writeTag c t next ih =>
    rcases h with h | ⟨t, h⟩
    · exact ih hf.1 hb.1 (.inl h)
    · exact nomatch h
  | unlockBufHdr c next ih => exact nomatch hf.2.1.symm.trans (ih hf.1 hb h)
  | unlockBufHdrExt c old u next ih =>
    cases u with
    | install t permanent =>
      rcases h with h | ⟨t, h⟩
      · exact nomatch hb.2.1.2.2.1.2.2.1.symm.trans h
      · cases h
        rfl
    | clear =>
      rcases h with h | ⟨t, h⟩
      · exact h
      · exact nomatch hb.2.2.2.2.2.2.1.symm.trans h
    | flags set unset | pin => exact nomatch hf.2.1.1.symm.trans (ih hf.1 hb h)
  | _ => rcases h with h | ⟨t, h⟩ <;> exact nomatch h

end Pc

namespace Instr

variable {V : EvictionVtable}

/-- What taking the header lock of `b`, with state `w` and tag `t`, leads to: nothing new, the
knowledge whether `b` has a valid tag, or the removal of its tag by `InvalidateVictimBuffer` or
`InvalidateBuffer`. -/
def LocksHeader (pc : Pc V.Pc) (b : ℕ) (w : BufState) (t : BufferTag) (next : Pc V.Pc) : Prop :=
  let l := pc.ledger
  next.Within l ∨
  (b ∈ pc.duty.victims ∧ next.Within { l with
    untagged := if w.has bmTagValid then l.untagged else b :: l.untagged
    tagged := if w.has bmTagValid then some b else none }) ∨
  (∃ t', l.holds = some (t', b) ∧ l.ex = some t' ∧ l.Settled ∧ w.getRefcount = 1 ∧
    b ∈ pc.duty.victims ∧
    next.Within { l with mid := some b, del := some (t', b), tagged := none, holds := none }) ∨
  (l.ex = some t ∧ l.Settled ∧ w.getRefcount = 0 ∧
    next.Within { l with
      mid := some b, tagged := none, holds := none
      del := if w.has bmTagValid then some (t, b) else none })

/-- The action fits the ledger of the point `pc`, and its outcomes have the ledger it leaves. -/
def Balanced (pc : Pc V.Pc) (i : Instr V) : Prop :=
  let l := pc.ledger
  match i with
  | goto next | setRing _ next | checkUnpinned _ next | clearValid _ next | unlockBufHdr _ next
  | notify _ _ next => next.Within l
  | raise _ => l.Free
  | load _ next | await _ next => ∀ w, (next w).Within l
  | readTag b next => l.tagged = some b ∧
      ∀ t, (next t).Within { l with tagged := none, holds := some (t, b) }
  | policy k g => pc = .getBuffer k g
  | pinFirst b held fresh => (∀ t c, l.seen = some (t, c) → c = b) ∧
      ∀ w, (held w).Within { l with seen := none, holds := l.seen } ∧ (fresh w).Within l
  | cas b old op ok fail => (∀ w, (fail w).Within l) ∧ match op with
    | .claim => ok.Within { l with
        untagged := if old.has bmTagValid then l.untagged else b :: l.untagged
        tagged := if old.has bmTagValid then some b else none }
    | .pin _ => (∀ t c, l.seen = some (t, c) → c = b) ∧
        ok.Within { l with seen := none, holds := l.seen }
    | .unlockExt (.install t _) => l.ins = some (t, b) ∧ l.wrote = some (t, b) ∧ l.mid = none ∧
        ok.Within { l with
          ins := none, wrote := none, holds := some (t, b)
          untagged := l.untagged.filter (· ≠ b) }
    | .unlockExt .clear => l.mid = some b ∧ ok.Within { l with
        mid := none, untagged := b :: l.untagged, tagged := none, holds := none }
    | .unlockExt _ | .dirty => ok.Within l
  | lockBufHdr b next => ∀ w t, LocksHeader pc b w t (next w t)
  | unpin _ next wake => next.Within { l with tagged := none, holds := none } ∧
      wake.Within { l with tagged := none, holds := none }
  | writeTag b t next => (l.mid = some b ∨ b ∈ l.untagged) ∧
      next.Within { l with wrote := some (t, b), holds := none }
  | lookup t hit miss => l.Free ∧
      (∀ b, (hit b).Within { l with sh := some t, seen := some (t, b) }) ∧ miss.Within l
  | lwExclusive t next => l.Free ∧ next.Within { l with ex := some t }
  | tableInsert t v fresh existing => l.Free ∧ v ∈ l.untagged ∧
      fresh.Within { l with ex := some t, ins := some (t, v) } ∧
      ∀ b, (existing b).Within { l with ex := some t, seen := some (t, b) }
  | tableDelete t next => (∃ b, l.del = some (t, b)) ∧ l.ins = none ∧ l.mid = none ∧
      next.Within { l with del := none }
  | lwRelease true t next => l.ex = some t ∧ l.Settled ∧ next.Within { l with ex := none }
  | lwRelease false t next => l.sh = some t ∧ l.Settled ∧ next.Within { l with sh := none }

end Instr

namespace Pc

variable {π : Type} {b : ℕ} {k : VictimFor}

theorem afterVictim_ledger :
    (afterVictim b k : Pc π).ledger = { untagged := (afterVictim b k : Pc π).ledger.untagged } ∧
      ∀ v ∈ (afterVictim b k : Pc π).ledger.untagged, v = b ∨ v ∈ k.buffers := by
  match k with
  | .alloc _ => exact ⟨rfl, fun v hv => .inl (mem_singleton.mp hv)⟩
  | .extend _ 0 bs =>
    exact ⟨rfl, fun v hv => by simpa [afterVictim, ledger, VictimFor.buffers, or_comm] using hv⟩
  | .extend _ (n + 1) bs =>
    exact ⟨rfl, fun v hv => by simpa [afterVictim, ledger, VictimFor.buffers, or_comm] using hv⟩

theorem afterVictim_balanced : (afterVictim b k : Pc π).Balanced := by
  match k with
  | .alloc _ => trivial
  | .extend _ 0 bs => trivial
  | .extend _ (n + 1) bs => trivial

variable {pc : Pc π} {l : Ledger} (bs : List ℕ)

theorem Within.free (h : pc.Within l) (hl : l.Free) : pc.ledger.Free := by
  obtain ⟨hex, hsh, hins, hdel, hmid, hseen, hwrote⟩ := hl
  refine ⟨h.ex.trans hex, h.sh.trans hsh, h.ins.trans hins, h.del.trans hdel, h.mid.trans hmid,
    eq_none_iff_forall_ne_some.mpr fun e he => ?_,
    eq_none_iff_forall_ne_some.mpr fun e he => ?_⟩
  · cases hseen.symm.trans (h.seen e he)
  · cases hwrote.symm.trans (h.wrote e he)

theorem within_of_eq (pc : Pc π) (h : pc.Balanced) (he : pc.ledger = l) :
    pc.Within l := he ▸ h.within

theorem Balanced.within_pinned {pc' : Pc π} (h : pc.Balanced) (hs : pc'.ledger.Settled)
    (he : pc.ledger = pc'.ledger) :
    pc.Within { pc'.ledger with holds := pc'.ledger.holds, seen := none } := by
  rw [← he] at hs ⊢
  exact { h.within with seen := fun e he => nomatch hs.2.2.2.1.symm.trans he }

variable {w : BufState}

theorem within_of_bare (hb : pc.Balanced) (hl : l.Free)
    (h : pc.ledger = { untagged := pc.ledger.untagged })
    (hsub : ∀ v ∈ pc.ledger.untagged, v ∈ l.untagged) : pc.Within l := by
  obtain ⟨hex, hsh, hins, hdel, hmid, -, -⟩ := hl
  refine ⟨hb, ?_, ?_, ?_, ?_, ?_, hsub, ?_, ?_, ?_, ?_⟩ <;> rw [h]
  exacts [hex.symm, hsh.symm, hins.symm, hdel.symm, hmid.symm, fun _ h => (nomatch h),
    fun _ h => (nomatch h), fun _ h => (nomatch h), fun _ h => (nomatch h)]

theorem within_bare {us us' : List ℕ} (hb : pc.Balanced) (h : pc.ledger = { untagged := us })
    (hsub : ∀ v ∈ us, v ∈ us' := by exact fun _ hv => hv) :
    pc.Within { untagged := us' } :=
  within_of_bare hb Ledger.free_bare (by rw [h]) (by rwa [h])

theorem mem_got_untagged {v : ℕ} (hv : v ∈ k.buffers) : v ∈ (Ledger.got k b w).untagged := by
  rw [Ledger.got]
  split
  · exact hv
  · exact mem_cons_of_mem b hv

theorem giveUp_within : (giveUp k b : Pc π).Within (.got k b w) :=
  within_of_bare ⟨trivial, rfl, rfl⟩ Ledger.got_free rfl fun _ hv => mem_got_untagged hv

theorem afterFlush_within :
    (afterFlush k b w : Pc π).Within (.got k b w) := by
  obtain ⟨hbare, hsub⟩ := afterVictim_ledger (π := π) (b := b) (k := k)
  by_cases hw : w.has bmTagValid = true
  · rw [afterFlush, if_pos hw]
    have hl : Ledger.got k b w =
        (invalidateVictimBuffer b (afterVictim b k) (giveUp k b) : Pc π).ledger := if_pos hw
    rw [hl]
    exact Balanced.within ⟨afterVictim_balanced, ⟨trivial, rfl, rfl⟩, hbare, rfl,
      mem_cons_self, hsub⟩
  · rw [afterFlush, if_neg hw]
    have hl : Ledger.got k b w = { untagged := b :: k.buffers } := if_neg hw
    refine within_of_bare afterVictim_balanced Ledger.got_free hbare fun v hv => ?_
    rw [hl]
    exact mem_cons.mpr (hsub v hv)

theorem flushBuffer_within {next : Pc π} (h : next.Within l) (hl : l.Free) :
    (flushBuffer b next).Within l :=
  { h with balanced := ⟨⟨h.balanced, h.free hl⟩, h.balanced, rfl⟩ }

theorem terminateAll_ledger : (terminateAll bs : Pc π).ledger = {} := by
  induction bs with
  | nil => rfl
  | cons b bs ih => exact ih

theorem terminateAll_balanced : (terminateAll bs : Pc π).Balanced := by
  induction bs with
  | nil => trivial
  | cons b bs ih => exact ih

end Pc

variable {V : EvictionVtable} {N : ℕ} {x : Backend V}

theorem Pc.got_within {k : VictimFor} {b : ℕ} {w w' : BufState} {pc : Pc V.Pc}
    (hb : pc.Balanced) (hl : pc.ledger = .got k b w) (hw : w.has bmTagValid = w'.has bmTagValid) :
    pc.Within { ({ untagged := k.buffers } : Ledger) with
      untagged := if w'.has bmTagValid then k.buffers else b :: k.buffers
      tagged := if w'.has bmTagValid then some b else none } := by
  have : pc.ledger = { ({ untagged := k.buffers } : Ledger) with
      untagged := if w'.has bmTagValid then k.buffers else b :: k.buffers
      tagged := if w'.has bmTagValid then some b else none } := by
    rw [hl, Ledger.got, hw]
    split <;> rfl
  rw [← this]
  exact hb.within

theorem startOp_balanced {op : Op} {i : Instr V} (hpc : x.pc = .idle)
    (h : startOp N x op = some i) : i.Balanced x.pc := by
  have hidle {pc : Pc V.Pc} (hb : pc.Balanced) (hl : pc.ledger = {}) : pc.Within x.pc.ledger := by
    rw [hpc]
    exact Pc.within_bare hb hl
  cases op with
  | read r => cases h; exact hidle trivial rfl
  | extend e n =>
    cases ((ite_none_left_eq_some ..).mp h).2
    exact hidle trivial rfl
  | repin b =>
    cases ((ite_none_right_eq_some ..).mp h).2
    rw [hpc] at hidle ⊢
    exact ⟨fun t c hs => (nomatch hs), fun w => ⟨hidle trivial rfl, hidle trivial rfl⟩⟩
  | makeValid b =>
    cases ((ite_none_right_eq_some ..).mp h).2
    exact hidle ⟨trivial, trivial, rfl⟩ rfl
  | release b =>
    cases ((ite_none_right_eq_some ..).mp h).2
    exact hidle ⟨trivial, rfl, rfl⟩ rfl
  | drop b matching | sync b skip | markDirty b | newRing btype n =>
    cases ((ite_none_right_eq_some ..).mp h).2
    exact hidle trivial rfl

theorem code_balanced {input : Input} {i : Instr V} (hf : x.pc.Formed) (hb : x.pc.Balanced)
    (h : code N x input = some i) : i.Balanced x.pc := by
  obtain ⟨pc, refcount, ring⟩ := x
  cases pc with
  | idle =>
    cases input with
    | start op => exact startOp_balanced rfl h
    | _ => cases h
  | failed _ | returned _ _ _ =>
    cases h
    exact Pc.within_of_bare trivial ⟨rfl, rfl, rfl, rfl, rfl, rfl, rfl⟩ rfl fun _ hv => hv
  | bufferAlloc r =>
    cases h
    refine ⟨Ledger.free_bare, fun b => Pc.Balanced.within ?_, Pc.within_bare trivial rfl⟩
    refine ⟨⟨trivial, rfl, rfl, rfl, rfl, rfl, rfl, rfl⟩, ⟨trivial, rfl, rfl, rfl, rfl, rfl, rfl, rfl⟩,
      rfl, ⟨rfl, rfl, rfl, rfl, rfl⟩, rfl, ?_⟩
    rintro t c ⟨⟩
    exact ⟨rfl, .inr rfl⟩
  | pinBuffer b s valid invalid =>
    cases h
    obtain ⟨hv, hi, he, hs, ht, hh⟩ := id hb
    refine ⟨fun t c hc => (hh t c hc).1, fun w => ⟨?_, Pc.Balanced.within hb⟩⟩
    dsimp only
    split
    · exact hv.within_pinned hs rfl
    · exact hi.within_pinned hs he
  | pinLoop b s valid invalid old =>
    obtain ⟨hv, hi, he, hs, ht, hh⟩ := id hb
    have hloop w : (Pc.pinLoop b s valid invalid w).Within (Pc.pinLoop b s valid invalid old).ledger :=
      Pc.Balanced.within hb
    simp only [code] at h
    split at h <;> cases h
    · exact hloop
    · refine ⟨hloop, fun t c hc => (hh t c hc).1, ?_⟩
      split
      · exact hv.within_pinned hs rfl
      · exact hi.within_pinned hs he
  | unpinBuffer b next | unpinVictim b next =>
    cases h
    obtain ⟨hn, ht, hh⟩ := hb
    have hw (pc : Pc V.Pc) (hb : pc.Balanced) (hl : pc.ledger = next.ledger) :
        pc.Within { next.ledger with tagged := none, holds := none } := by
      rw [← hl] at ht hh ⊢
      exact { hb.within with
        tagged := fun c hc => (by cases ht.symm.trans hc)
        holds := fun e he => by cases hh.symm.trans he }
    exact ⟨hw next hn rfl, hw (.wakePinCountWaiter b next) hn rfl⟩
  | wakePinCountWaiter b next =>
    cases h
    refine fun w t => .inl ?_
    dsimp only
    split
    · exact Pc.within_self _ hb
    · exact Pc.within_self _ hb
  | notify n b next => cases h; exact Pc.Balanced.within hb
  | getVictimBuffer k =>
    simp only [code] at h
    split at h <;> cases h
    · split <;> exact Pc.within_bare trivial rfl
    · exact Pc.within_bare trivial rfl
  | ringRead k b => cases h; exact fun w => Pc.within_self _ trivial
  | ringLoop k b old =>
    simp only [code] at h
    split_ifs at h with h0 <;> cases h
    · exact Pc.within_bare trivial rfl
    · exact fun w => Pc.within_bare trivial rfl
    · simp only [not_or, ne_eq, not_not] at h0
      refine ⟨fun w => Pc.within_bare trivial rfl, Pc.got_within trivial rfl ?_⟩
      rw [has_bmTagValid, has_bmTagValid, fields_add_refcountOne (lt_of_eq_of_lt h0.1 (by decide))]
  | getBuffer k g => cases h; rfl
  | gotVictim k b w fromRing =>
    simp only [code] at h
    split at h
    · cases input <;> simp only [reduceCtorEq] at h
      split_ifs at h <;> cases h
      · exact Pc.within_of_bare trivial Ledger.got_free rfl fun v hv => Pc.mem_got_untagged hv
      · exact Pc.flushBuffer_within Pc.afterFlush_within Ledger.got_free
      · exact Pc.giveUp_within
    · cases h
      exact Pc.afterFlush_within
  | lockLsn k b fromRing =>
    cases h
    exact fun w t => .inr (.inl ⟨mem_cons_self, Pc.got_within trivial rfl rfl⟩)
  | lsnCheck k b w fromRing =>
    cases input <;> simp only [code, reduceCtorEq] at h
    split at h <;> cases h
    · exact Pc.giveUp_within
    · exact Pc.flushBuffer_within Pc.afterFlush_within Ledger.got_free
  | invalidateVictimBuffer b yes no =>
    cases h
    obtain ⟨hy, hn, hby, hbn, hv, hs⟩ := id hb
    obtain ⟨-, hsh, hset⟩ := Ledger.free_of_bare hbn
    refine ⟨rfl, fun t => Pc.within_of_eq _ ⟨hb, rfl, hsh, hset⟩ ?_⟩
    simp only [Pc.ledger]
    rw [hbn]
  | lockVictim b t yes no =>
    cases h
    obtain ⟨hy, hn, hby, hbn, hv, hs⟩ := hb
    have hfy := Ledger.free_of_bare hby
    have hfn := Ledger.free_of_bare hbn
    intro w t'
    dsimp only
    split
    · refine .inl { Pc.within_self (.unlockBufHdr b (.lwRelease true t no)) ⟨hn, hfn⟩ with
        holds := fun e he => ?_ }
      cases (congrArg Ledger.holds hbn).symm.trans he
    · rename_i hw
      simp only [not_or, ne_eq, not_not] at hw
      refine .inr (.inr (.inl ⟨t, rfl, rfl, hfn.2.2, hw.1, hv, ?_⟩))
      have htagged := congrArg Ledger.tagged hby
      have hholds := congrArg Ledger.holds hby
      obtain ⟨hex, hsh, hins, hdel, hmid, hseen, hwrote⟩ := id hfy
      refine { Pc.within_self (.writeTag b .clear (.unlockBufHdrExt b w .clear
        (.bufTableDelete t b (.lwRelease true t yes)))) ?_ with
        sh := hsh.trans hfn.2.1.symm
        ins := hins.trans hfn.2.2.1.symm
        tagged := fun e he => (by cases htagged.symm.trans he)
        holds := fun e he => (by cases hholds.symm.trans he)
        seen := fun e he => (by cases hseen.symm.trans he)
        wrote := fun e he => (by cases he)
        untagged := fun v hv => ?_ }
      · exact ⟨⟨⟨⟨hy, hfy⟩, rfl, hsh, hins, hdel, hmid, hseen, hwrote⟩, rfl, hsh, hins, hmid, hseen,
          hwrote, htagged, hholds⟩, hholds, .inl rfl, fun e he => by cases hwrote.symm.trans he⟩
      · obtain ⟨hv, hne⟩ := mem_filter.mp hv
        exact (hs v hv).resolve_left (of_decide_eq_true hne)
  | allocInsert r v =>
    cases h
    refine ⟨Ledger.free_bare, mem_singleton_self v, Pc.Balanced.within ?_,
      fun b => { Pc.within_self (.notify .insert v (.unpinBuffer v (.pinBuffer b r.strategy
        (.lwRelease true r.tag (.returned r b true))
        (.lwRelease true r.tag (.returned r b false))))) ?_ with untagged := fun v hv => by cases hv }⟩
    · refine ⟨⟨trivial, rfl, rfl, rfl, rfl, rfl, rfl, rfl⟩, ⟨rfl, rfl, ⟨rfl, rfl, rfl, rfl, rfl⟩, rfl,
        not_mem_nil, ?_⟩, mem_cons_self⟩
      rintro e ⟨⟩
      rfl
    · refine ⟨⟨⟨trivial, rfl, rfl, rfl, rfl, rfl, rfl, rfl⟩,
        ⟨trivial, rfl, rfl, rfl, rfl, rfl, rfl, rfl⟩, rfl, ⟨rfl, rfl, rfl, rfl, rfl⟩, rfl, ?_⟩, rfl,
        rfl⟩
      rintro t c ⟨⟩
      exact ⟨rfl, .inl rfl⟩
  | lockInstall v t permanent next =>
    cases h
    obtain ⟨hn, hi, hv⟩ := hb
    intro w t'
    refine .inl { Pc.within_self (.writeTag v t (.unlockBufHdrExt v w (.install t permanent)
      next)) ⟨⟨hn, hi, hv⟩, rfl, .inr mem_cons_self, ?_⟩ with wrote := fun e he => by cases he }
    rintro e ⟨⟩
    rfl
  | lwExclusive t next =>
    cases h
    obtain ⟨hn, hex, hsh, hs⟩ := hb
    exact ⟨⟨rfl, hsh, hs⟩, { hn.within with ex := hex }⟩
  | lwRelease e t next =>
    cases h
    obtain ⟨hn, hex, hsh, hs⟩ := hb
    cases e with
    | true => exact ⟨rfl, hs, { hn.within with ex := hex }⟩
    | false => exact ⟨rfl, hs, { hn.within with sh := hsh }⟩
  | bufTableDelete t b next =>
    cases h
    obtain ⟨hn, hex, hsh, hs⟩ := hb
    exact ⟨⟨b, rfl⟩, hs.1, hs.2.2.1, { hn.within with del := hs.2.1 }⟩
  | writeTag b t next =>
    cases h
    obtain ⟨hn, hh, hm, hw⟩ := hb
    exact ⟨hm, { hn.within with
      holds := fun e he => (by cases hh.symm.trans he)
      wrote := fun e he => hw e he ▸ rfl }⟩
  | unlockBufHdr b next => cases h; exact Pc.Balanced.within hb
  | unlockBufHdrExt b old u next =>
    cases h
    cases u with
    | install t permanent =>
      obtain ⟨hn, ⟨hex, hsh, hs, ht, hnot, hh⟩, hv⟩ := id hb
      refine ⟨fun w => Pc.Balanced.within hb, rfl, rfl, hs.2.2.1, { hn.within with
        ins := hs.1
        wrote := fun e he => (by cases hs.2.2.2.2.symm.trans he)
        holds := fun e he => hh e he ▸ rfl
        untagged := fun v hv => ?_ }⟩
      have hvb : v ≠ b := fun hvb => hnot (hvb ▸ hv)
      exact mem_filter.mpr ⟨mem_cons_of_mem b hv, decide_eq_true hvb⟩
    | clear =>
      obtain ⟨hn, hex, hsh, hins, hmid, hseen, hwrote, htagged, hholds⟩ := id hb
      refine ⟨fun w => Pc.Balanced.within hb, rfl, { hn.within with
        mid := hmid
        tagged := fun e he => (by cases htagged.symm.trans he)
        holds := fun e he => (by cases hholds.symm.trans he)
        untagged := fun v hv => ?_ }⟩
      by_cases hvb : v = b
      · exact hvb ▸ mem_cons_self
      · exact mem_cons_of_mem b (mem_filter.mpr ⟨hv, decide_eq_true hvb⟩)
    | flags set unset => exact ⟨fun w => Pc.Balanced.within hb, Pc.Balanced.within hb⟩
    | pin => exact ⟨fun w => Pc.Balanced.within hb, Pc.Balanced.within hb⟩
  | lockDrop b matching =>
    cases h
    intro w t
    refine .inl ?_
    dsimp only
    split
    · exact Pc.within_self _
        ⟨trivial, rfl, rfl, rfl, rfl, rfl, rfl, rfl⟩
    · exact Pc.within_self _ trivial
  | lockInvalidate b t =>
    cases h
    intro w t'
    dsimp only
    have hfree : ({} : Ledger).Free := Ledger.free_bare
    split_ifs with ht h0 hr hw
    · exact .inl (Pc.within_self _
        ⟨trivial, hfree⟩)
    · exact .inl (Pc.within_self _
        ⟨trivial, hfree⟩)
    · exact .inl (Pc.within_self _ ⟨⟨trivial, rfl, rfl, hfree.2.2⟩, hfree⟩)
    · rw [ne_eq, not_not] at ht h0
      refine .inr (.inr (.inr ⟨ht ▸ rfl, hfree.2.2, h0, ?_⟩))
      rw [if_pos hw, ht]
      exact Pc.within_self _
        ⟨⟨⟨⟨trivial, hfree⟩, rfl, rfl, hfree.2.2⟩, rfl, rfl, rfl, rfl, rfl, rfl, rfl, rfl⟩, rfl,
          .inl rfl, fun e he => by cases he⟩
    · rw [ne_eq, not_not] at ht h0
      refine .inr (.inr (.inr ⟨ht ▸ rfl, hfree.2.2, h0, ?_⟩))
      rw [if_neg hw]
      exact Pc.within_self _
        ⟨⟨⟨trivial, hfree⟩, rfl, rfl, rfl, rfl, rfl, rfl, rfl, rfl⟩, rfl, .inl rfl,
          fun e he => by cases he⟩
  | startBufferIo b forInput yes no =>
    cases h
    obtain ⟨hy, hn, he⟩ := id hb
    intro w t
    refine .inl ?_
    dsimp only
    split_ifs
    · exact Pc.within_self _ hb
    · exact Pc.within_of_eq (.unlockBufHdr b no) hn he
    · exact Pc.within_self _ hy
    · exact Pc.within_of_eq (.unlockBufHdr b no) hn he
    · exact Pc.within_self _ hy
  | terminateBufferIo b clearDirty set next =>
    cases h
    exact fun w t => .inl (Pc.within_self _ hb)
  | flushLsn b next =>
    cases h
    exact fun w t => .inl (Pc.within_self
      (.unlockBufHdrExt b w (.flags 0 bmJustDirtied) (.flushWrite b next)) hb)
  | flushWrite b next =>
    cases input <;> simp only [code, reduceCtorEq] at h
    split at h <;> cases h
    · exact Pc.within_self _ hb.1
    · exact hb.2
  | lockSync b skip =>
    cases h
    intro w t
    refine .inl ?_
    dsimp only
    split_ifs
    · exact Pc.within_self _ trivial
    · exact Pc.within_self _ trivial
    · have hn : (Pc.unpinBuffer b .idle : Pc V.Pc).Within {} :=
        Pc.within_self _ ⟨trivial, rfl, rfl⟩
      have hf := Pc.flushBuffer_within (b := b) hn Ledger.free_bare
      exact Pc.within_self _
        hf.balanced
  | markDirty b => cases h; exact fun w => Pc.within_self _ trivial
  | dirtyLoop b old =>
    simp only [code] at h
    split at h <;> cases h
    · exact fun w => Pc.within_self _ trivial
    · exact ⟨fun w => Pc.within_self _ trivial,
        Pc.within_self _ trivial⟩
  | extendSize e bs =>
    cases input <;> simp only [code, reduceCtorEq] at h
    cases h
    refine Pc.within_bare trivial rfl fun v hv => ?_
    exact (mem_append.mp hv).elim mem_of_mem_drop mem_of_mem_take
  | extendSurplus e first keep surplus =>
    cases surplus with
    | nil =>
      simp only [code] at h
      split_ifs at h <;> cases h
      · exact Pc.within_bare trivial rfl (by simp)
      · exact Ledger.free_bare
      · exact Pc.within_bare trivial rfl
    | cons v surplus =>
      cases h
      exact Pc.within_bare ⟨trivial, rfl, rfl⟩ rfl fun u hu => mem_cons_of_mem v hu
  | extendLoop e first i todo done =>
    cases todo with
    | nil =>
      cases h
      exact Pc.within_bare trivial rfl (by simp)
    | cons v todo =>
      cases h
      have hfree : ({ untagged := todo } : Ledger).Free := Ledger.free_bare
      refine ⟨hfree, mem_cons_self, Pc.Balanced.within ?_, fun b => { Pc.within_self (
        .pinBuffer b e.strategy
          (.lwRelease true _ (.unpinVictim v (.extendCheck e first i b todo done)))
          (.lwRelease true _ (.unpinVictim v (.clearValid b (.extendLoop e first (i + 1) todo
            (done ++ [b])))))) ?_ with
        untagged := fun u hu => mem_cons_of_mem v hu
        seen := fun e he => by cases he }⟩
      · exact ⟨⟨⟨trivial, trivial, rfl⟩, hfree⟩, ⟨rfl, rfl, hfree.2.2, rfl, (nodup_cons.mp hf).1,
          fun e he => by cases he⟩, mem_cons_self⟩
      · exact ⟨⟨⟨trivial, rfl, rfl⟩, hfree⟩, ⟨⟨trivial, rfl, rfl⟩, hfree⟩, rfl, hfree.2.2, rfl,
          fun t c hc => by cases hc⟩
  | extendCheck e first i b todo done =>
    cases input <;> simp only [code, reduceCtorEq] at h
    split at h <;> cases h
    · exact Pc.within_self _
        trivial
    · exact Ledger.free_bare
  | clearValid b next =>
    cases h
    exact Pc.within_self _ ⟨hb, hb, rfl⟩
  | zeroExtend bs =>
    cases input <;> simp only [code, reduceCtorEq] at h
    split at h <;> cases h
    · exact Pc.within_of_eq _ (Pc.terminateAll_balanced bs) (Pc.terminateAll_ledger bs)
    · exact Ledger.free_bare

end PostgreSieve
