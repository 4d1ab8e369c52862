import PostgreSieve.Pool.Machine

/-! # What a backend holds at a program point

A program point determines which header lock its backend holds, which buffer it is
about to pin for the first time, and which victims it has obtained and not yet given
back to the policy. `code_disciplined` is the one analysis of the routines by program
point; the invariants of the pool only look at the actions.
-/

namespace PostgreSieve

/-- What a backend holds. -/
structure Duty where
  /-- The buffer whose header lock it holds. -/
  hdr : Option ℕ
  /-- A buffer that it has not pinned and may pin next. -/
  fresh : Option ℕ
  /-- The victims between `StrategyGetBuffer` and `StrategyNotifyInsert`. -/
  victims : List ℕ

namespace Pc

variable {π : Type}

def duty : Pc π → Duty
  | idle | failed _ | returned _ _ _ | bufferAlloc _ | lockDrop _ _ | lockInvalidate _ _
  | markDirty _ | dirtyLoop _ _ | zeroExtend _ => ⟨none, none, []⟩
  | pinBuffer _ _ valid _ => valid.duty
  | pinLoop b _ valid _ _ => { valid.duty with fresh := some b }
  | unpinBuffer _ next | wakePinCountWaiter _ next | notify .hit _ next
  | notify .invalidate _ next | lockInstall _ _ _ next | lwExclusive _ next | lwRelease _ _ next
  | bufTableDelete _ _ next | writeTag _ _ next | terminateBufferIo _ _ _ next
  | flushLsn _ next | flushWrite _ next | clearValid _ next => next.duty
  | unpinVictim b next | notify .insert b next =>
    { next.duty with victims := b :: next.duty.victims }
  | getVictimBuffer k | ringRead k _ | ringLoop k _ _ | getBuffer k _ => ⟨none, none, k.buffers⟩
  | gotVictim k b _ _ | lockLsn k b _ | lsnCheck k b _ _ => ⟨none, none, b :: k.buffers⟩
  | invalidateVictimBuffer _ _ no | lockVictim _ _ _ no => no.duty
  | allocInsert _ v => ⟨none, none, [v]⟩
  | unlockBufHdr b next => { next.duty with hdr := some b }
  | unlockBufHdrExt b _ .pin next => { next.duty with hdr := some b, fresh := some b }
  | unlockBufHdrExt b _ _ next => { next.duty with hdr := some b }
  | startBufferIo _ _ yes _ => yes.duty
  | lockSync b _ => ⟨none, some b, []⟩
  | extendSize _ bs => ⟨none, none, bs⟩
  | extendSurplus _ _ keep surplus => ⟨none, none, surplus ++ keep⟩
  | extendLoop _ _ _ todo _ | extendCheck _ _ _ _ todo _ => ⟨none, none, todo⟩

/-- The two continuations of a routine agree on the victims. -/
def SameVictims (pc pc' : Pc π) : Prop := ∀ v, v ∈ pc.duty.victims ↔ v ∈ pc'.duty.victims

/-- At `pc` no header lock is held and no first pin is under way. -/
def Quiet (pc : Pc π) : Prop := pc.duty.hdr = none ∧ pc.duty.fresh = none

end Pc

/-- An argument list of `UnlockBufHdrExt` whose flag arguments hold flags, neither of them
`BM_TAG_VALID`. -/
def HdrUpdate.Lawful : HdrUpdate → Prop
  | flags set unset => FlagsOnly set ∧ FlagsOnly unset ∧ set.has bmTagValid = false ∧
      unset.has bmTagValid = false
  | _ => True

instance : DecidablePred HdrUpdate.Lawful := fun u => by
  cases u <;> unfold HdrUpdate.Lawful <;> infer_instance

namespace Pc

variable {π : Type}

/-- The program points that the routines reach: what a point returns to fits what it holds. -/
def Formed : Pc π → Prop
  | pinBuffer _ _ valid invalid | pinLoop _ _ valid invalid _ =>
    valid.Formed ∧ invalid.Formed ∧ valid.Quiet ∧ invalid.Quiet ∧ valid.SameVictims invalid
  | unpinBuffer b next | unpinVictim b next => next.Formed ∧ next.Quiet ∧ b ∉ next.duty.victims
  | notify .insert b next => next.Formed ∧ next.Quiet ∧ b ∉ next.duty.victims
  | notify .invalidate b next => next.Formed ∧ ∃ t n, next = writeTag b t n
  | notify .hit _ next | wakePinCountWaiter _ next | lockInstall _ _ _ next | lwExclusive _ next
  | lwRelease _ _ next
  | bufTableDelete _ _ next | unlockBufHdr _ next | flushLsn _ next | flushWrite _ next
  | clearValid _ next => next.Formed ∧ next.Quiet
  | terminateBufferIo _ _ set next =>
    next.Formed ∧ next.Quiet ∧ FlagsOnly set ∧ set.has bmTagValid = false
  | unlockBufHdrExt _ _ u next => next.Formed ∧ next.Quiet ∧ u.Lawful
  | writeTag b _ next => next.Formed ∧ ∃ w u n, next = unlockBufHdrExt b w u n
  | getVictimBuffer k | ringRead k _ | ringLoop k _ _ | getBuffer k _ => k.buffers.Nodup
  | gotVictim k b _ _ | lockLsn k b _ | lsnCheck k b _ _ => b ∉ k.buffers ∧ k.buffers.Nodup
  | invalidateVictimBuffer _ yes no | lockVictim _ _ yes no | startBufferIo _ _ yes no =>
    yes.Formed ∧ no.Formed ∧ yes.Quiet ∧ no.Quiet ∧ yes.SameVictims no
  | extendSize _ bs => bs.Nodup
  | extendSurplus _ _ keep surplus => (surplus ++ keep).Nodup
  | extendLoop _ _ _ todo _ | extendCheck _ _ _ _ todo _ => todo.Nodup
  | _ => True

/-- The point `pc` holds what `d` says, or has given up the pin it was going to make. -/
@[mk_iff]
structure Has (pc : Pc π) (d : Duty) : Prop where
  formed : pc.Formed
  hdr : pc.duty.hdr = d.hdr
  fresh : ∀ b, pc.duty.fresh = some b → d.fresh = some b
  victims : ∀ v, v ∈ pc.duty.victims ↔ v ∈ d.victims

end Pc

namespace Instr

variable {V : EvictionVtable}

/-- The action fits what the point `pc` holds, and its outcomes hold what it leaves. -/
def Disciplined (pc : Pc V.Pc) : Instr V → Prop
  | goto next | setRing _ next | clearValid _ next | lwExclusive _ next | tableDelete _ next
  | lwRelease _ _ next => next.Has pc.duty
  | raise _ => pc.duty.hdr = none
  | load _ next | await _ next => ∀ w, (next w).Has pc.duty
  | readTag _ next => ∀ t, (next t).Has pc.duty
  | policy k g => pc = .getBuffer k g ∧ k.buffers.Nodup
  | pinFirst b held fresh => ∀ w, (held w).Has { pc.duty with fresh := none } ∧
      (fresh w).Has { pc.duty with fresh := some b }
  | checkUnpinned b next => next.Has { pc.duty with fresh := some b }
  | cas b old op ok fail => (∀ w, (fail w).Has pc.duty) ∧ match op with
    | .claim => old.getRefcount = 0 ∧ old.has bmLocked = false ∧
        (∃ k, ok = .gotVictim k b (old + bufRefcountOne) true) ∧ (b ∉ pc.duty.victims →
        ok.Has { pc.duty with victims := b :: pc.duty.victims, fresh := none })
    | .pin _ => old.has bmLocked = false ∧ pc.duty.fresh = some b ∧
        ok.Has { pc.duty with fresh := none }
    | .unlockExt u => u.Lawful ∧ pc.duty.hdr = some b ∧ (u = .pin → pc.duty.fresh = some b) ∧
        ok.Has { pc.duty with hdr := none, fresh := none }
    | .dirty => old.has bmLocked = false ∧ ok.Has pc.duty
  | lockBufHdr b next => pc.duty.hdr = none ∧
      (∀ w t, (next w t).Has { pc.duty with hdr := some b }) ∧
      ∀ w t c n, next w t = .notify .invalidate c n →
        pc = .lockInvalidate c t ∧ b = c ∧ w.getRefcount = 0
  | unlockBufHdr b next => pc.duty.hdr = some b ∧ next.Has { pc.duty with hdr := none }
  | unpin b next wake => ∃ vs, b ∉ vs ∧
      (∀ v, v ∈ pc.duty.victims ↔ v ∈ vs ∨ v = b ∧ pc = .unpinVictim b next) ∧
      next.Has { pc.duty with victims := vs, fresh := none } ∧
      wake.Has { pc.duty with victims := vs, fresh := none }
  | writeTag b _ next => pc.duty.hdr = some b ∧ next.Has pc.duty
  | lookup _ hit miss => (∀ b, (hit b).Has pc.duty) ∧ miss.Has pc.duty
  | tableInsert _ _ fresh existing => fresh.Has pc.duty ∧ ∀ b, (existing b).Has pc.duty
  | notify .insert b next => ∃ vs, b ∉ vs ∧ (∀ v, v ∈ pc.duty.victims ↔ v = b ∨ v ∈ vs) ∧
      next.Has { pc.duty with victims := vs }
  | notify _ _ next => next.Has pc.duty

end Instr

namespace Pc

variable {π : Type} {b : ℕ} {k : VictimFor}
variable {pc : Pc π} {vs : List ℕ} {f : Option ℕ} {next : Pc π}

theorem Formed.has (h : pc.Formed) : pc.Has pc.duty :=
  ⟨h, rfl, fun _ hb => hb, fun _ => Iff.rfl⟩

theorem Formed.has_pinned (h : pc.Formed) (hq : pc.Quiet) :
    pc.Has { pc.duty with fresh := none } :=
  ⟨h, rfl, fun _ hb => hq.2 ▸ hb, fun _ => Iff.rfl⟩

theorem afterVictim_has (hb : b ∉ k.buffers) (hk : k.buffers.Nodup) :
    (afterVictim b k : Pc π).Has ⟨none, none, b :: k.buffers⟩ := by
  match k with
  | .alloc _ => constructor <;> simp [afterVictim, duty, Formed, VictimFor.buffers]
  | .extend _ 0 bs =>
    simp only [VictimFor.buffers] at hb hk ⊢
    constructor <;> simp [afterVictim, duty, Formed, List.nodup_append, hk, or_comm]
    rintro a ha rfl
    exact hb ha
  | .extend _ (n + 1) bs =>
    simp only [VictimFor.buffers] at hb hk ⊢
    constructor <;>
      simp [afterVictim, duty, Formed, VictimFor.buffers, List.nodup_append, hk, or_comm]
    rintro a ha rfl
    exact hb ha

theorem giveUp_has (hb : b ∉ k.buffers) (hk : k.buffers.Nodup) :
    (giveUp k b : Pc π).Has ⟨none, none, b :: k.buffers⟩ := by
  constructor <;> simp [giveUp, duty, Formed, Quiet, hb, hk]

theorem Has.quiet (h : pc.Has ⟨none, none, vs⟩) : pc.Quiet := by
  refine ⟨h.hdr, Option.eq_none_iff_forall_ne_some.mpr fun b hb => ?_⟩
  exact nomatch h.fresh b hb

theorem Quiet.has (hq : pc.Quiet) (hf : pc.Formed)
    (hv : ∀ v, v ∈ pc.duty.victims ↔ v ∈ vs) : pc.Has ⟨none, f, vs⟩ where
  formed := hf
  hdr := hq.1
  fresh b hb := by rw [hq.2] at hb; exact nomatch hb
  victims := hv

theorem unlockBufHdr_has (hf : next.Formed) (hq : next.Quiet) :
    (unlockBufHdr b next).Has ⟨some b, f, next.duty.victims⟩ where
  formed := ⟨hf, hq⟩
  hdr := rfl
  fresh _ hc := nomatch hq.2.symm.trans hc
  victims _ := Iff.rfl

theorem unlockBufHdrExt_has {u : HdrUpdate} {w : BufState} (hu : u.Lawful)
    (hp : u = .pin → f = some b) (hf : next.Formed) (hq : next.Quiet) :
    (unlockBufHdrExt b w u next).Has ⟨some b, f, next.duty.victims⟩ := by
  refine ⟨⟨hf, hq, hu⟩, ?_, ?_, ?_⟩
  · cases u <;> rfl
  · intro c hc
    cases u with
    | pin => exact (hp rfl).trans hc
    | _ => exact nomatch hq.2.symm.trans hc
  · cases u <;> exact fun _ => Iff.rfl

theorem afterFlush_has (w : BufState) (hb : b ∉ k.buffers) (hk : k.buffers.Nodup) :
    (afterFlush k b w : Pc π).Has ⟨none, none, b :: k.buffers⟩ := by
  have hyes : (afterVictim b k : Pc π).Has ⟨none, none, b :: k.buffers⟩ := afterVictim_has hb hk
  have hno : (giveUp k b : Pc π).Has ⟨none, none, b :: k.buffers⟩ := giveUp_has hb hk
  rw [afterFlush]
  split
  · refine Quiet.has hno.quiet ?_ hno.victims
    exact ⟨hyes.formed, hno.formed, hyes.quiet, hno.quiet,
      fun v => (hyes.victims v).trans (hno.victims v).symm⟩
  · exact hyes

theorem flushBuffer_has (h : next.Has ⟨none, none, vs⟩) :
    (flushBuffer b next).Has ⟨none, none, vs⟩ := by
  refine Quiet.has h.quiet ?_ h.victims
  exact ⟨⟨h.formed, h.quiet⟩, h.formed, h.quiet, h.quiet, fun _ => Iff.rfl⟩

theorem terminateAll_has (bs : List ℕ) : (terminateAll bs : Pc π).Has ⟨none, none, []⟩ := by
  induction bs with
  | nil => exact Formed.has trivial
  | cons b bs ih =>
    refine Quiet.has ih.quiet ?_ ih.victims
    exact ⟨ih.formed, ih.quiet, by decide, by decide⟩

end Pc

variable {V : EvictionVtable} {N : ℕ} {x : Backend V}
variable {i : Instr V}

theorem startOp_disciplined {op : Op} (hpc : x.pc = .idle)
    (h : startOp N x op = some i) : i.Disciplined x.pc := by
  rw [hpc]
  cases op <;> simp only [startOp, Option.ite_none_right_eq_some, Option.ite_none_left_eq_some,
    Option.some.injEq] at h
  case makeValid b =>
    obtain ⟨-, rfl⟩ := h
    refine Pc.Formed.has ?_
    exact ⟨⟨trivial, ⟨rfl, rfl⟩, by decide, by decide⟩, trivial, ⟨rfl, rfl⟩, ⟨rfl, rfl⟩,
      fun _ => Iff.rfl⟩
  case read r => subst h; exact Pc.Formed.has trivial
  all_goals
    obtain ⟨-, rfl⟩ := h
    simp [Instr.Disciplined, Pc.has_iff, Pc.duty, Pc.Formed, Pc.Quiet, VictimFor.buffers]

theorem code_disciplined {input : Input} (hf : x.pc.Formed)
    (h : code N x input = some i) : i.Disciplined x.pc := by
  obtain ⟨pc, refcount, ring⟩ := x
  cases pc with
  | idle =>
    cases input with
    | start op => exact startOp_disciplined rfl h
    | _ => cases h
  | failed _ | returned _ _ _ =>
    cases h
    exact Pc.Formed.has trivial
  | bufferAlloc r =>
    cases h
    refine ⟨fun b => Pc.Formed.has ?_,
      Pc.Formed.has List.nodup_nil⟩
    exact ⟨⟨⟨trivial, rfl, rfl⟩, rfl, rfl⟩, ⟨trivial, rfl, rfl⟩, ⟨rfl, rfl⟩, ⟨rfl, rfl⟩, fun _ => Iff.rfl⟩
  | pinBuffer b s valid invalid =>
    cases h
    obtain ⟨hv, hi, hqv, hqi, hs⟩ := id hf
    refine fun w => ⟨?_, Pc.Formed.has hf⟩
    simp only
    split
    · exact hv.has_pinned hqv
    · exact ⟨hi, hqi.1.trans hqv.1.symm, fun c hc => hqi.2 ▸ hc, fun v => (hs v).symm⟩
  | pinLoop b s valid invalid old =>
    simp only [code] at h
    obtain ⟨hv, hi, hqv, hqi, hs⟩ := id hf
    have hloop w : (Pc.pinLoop b s valid invalid w).Has (Pc.pinLoop b s valid invalid old).duty :=
      Pc.Formed.has hf
    split at h
    · cases h
      exact hloop
    · rename_i hl
      cases h
      refine ⟨hloop, by simpa using hl, rfl, ?_⟩
      split
      · exact hv.has_pinned hqv
      · exact ⟨hi, hqi.1.trans hqv.1.symm, fun c hc => hqi.2 ▸ hc, fun v => (hs v).symm⟩
  | unpinBuffer b next | unpinVictim b next =>
    cases h
    obtain ⟨hn, hq, hb⟩ := hf
    refine ⟨next.duty.victims, hb, fun v => by simp [Pc.duty, or_comm], hn.has_pinned hq, ?_⟩
    exact Pc.Formed.has_pinned ⟨hn, hq⟩ hq
  | wakePinCountWaiter b next =>
    cases h
    obtain ⟨hn, hq⟩ := hf
    refine ⟨hq.1, fun w t => ?_, fun w t c n h => ?_⟩
    · dsimp only
      split
      · exact Pc.unlockBufHdrExt_has (by decide) (fun hu => nomatch hu) hn hq
      · exact Pc.unlockBufHdr_has hn hq
    · dsimp only at h
      split at h <;> cases h
  | notify n b next =>
    cases h
    cases n with
    | insert =>
      obtain ⟨hn, -, hb⟩ := hf
      refine ⟨next.duty.victims, hb, fun v => List.mem_cons, ?_⟩
      exact hn.has
    | _ => exact hf.1.has
  | getVictimBuffer k =>
    simp only [code] at h
    split at h <;> cases h
    · split <;> exact Pc.Formed.has hf
    · exact Pc.Formed.has hf
  | ringRead k b =>
    cases h
    exact fun w => Pc.Formed.has hf
  | ringLoop k b old =>
    simp only [code] at h
    split_ifs at h with h0 hl <;> cases h
    · exact Pc.Formed.has hf
    · exact fun w => Pc.Formed.has hf
    · simp only [not_or, ne_eq, not_not] at h0
      refine ⟨fun w => Pc.Formed.has hf, h0.1, by simpa using hl,
        ⟨k, rfl⟩, fun hb => Pc.Formed.has ⟨hb, hf⟩⟩
  | getBuffer k g =>
    cases h
    exact ⟨rfl, hf⟩
  | gotVictim k b w fromRing =>
    obtain ⟨hb, hk⟩ := hf
    simp only [code] at h
    split at h
    · cases input <;> simp only [reduceCtorEq] at h
      split_ifs at h <;> cases h
      · exact Pc.Formed.has ⟨hb, hk⟩
      · exact Pc.flushBuffer_has (Pc.afterFlush_has w hb hk)
      · exact Pc.giveUp_has hb hk
    · cases h
      exact Pc.afterFlush_has w hb hk
  | lockLsn k b fromRing =>
    cases h
    exact ⟨rfl, fun w t => Pc.unlockBufHdr_has hf ⟨rfl, rfl⟩,
      fun w t c n h => nomatch h⟩
  | lsnCheck k b w fromRing =>
    obtain ⟨hb, hk⟩ := hf
    simp only [code] at h
    cases input <;> simp only [reduceCtorEq] at h
    split_ifs at h <;> cases h
    · exact Pc.giveUp_has hb hk
    · exact Pc.flushBuffer_has (Pc.afterFlush_has w hb hk)
  | invalidateVictimBuffer b yes no =>
    cases h
    exact fun t => Pc.Formed.has ⟨hf, hf.2.2.2.1⟩
  | lockVictim b t yes no =>
    cases h
    obtain ⟨hy, hn, hqy, hqn, hs⟩ := hf
    refine ⟨hqn.1, fun w t => ?_, fun w t c n h => ?_⟩
    · dsimp only
      split
      · exact Pc.unlockBufHdr_has ⟨hn, hqn⟩ hqn
      · exact ⟨⟨⟨⟨⟨hy, hqy⟩, hqy⟩, hqy, trivial⟩, _, _, _, rfl⟩, rfl,
          fun c hc => (nomatch hqy.2.symm.trans hc), hs⟩
    · dsimp only at h
      split at h <;> cases h
  | allocInsert r v =>
    cases h
    refine ⟨Pc.Formed.has ?_,
      fun b => Pc.Formed.has ?_⟩
    · exact ⟨⟨⟨trivial, ⟨rfl, rfl⟩, List.not_mem_nil⟩, rfl, rfl⟩, rfl, rfl⟩
    · exact ⟨⟨⟨⟨trivial, rfl, rfl⟩, ⟨trivial, rfl, rfl⟩, ⟨rfl, rfl⟩, ⟨rfl, rfl⟩, fun _ => Iff.rfl⟩,
        ⟨rfl, rfl⟩, List.not_mem_nil⟩, ⟨rfl, rfl⟩, List.not_mem_nil⟩
  | lockInstall v t permanent next =>
    cases h
    obtain ⟨hn, hq⟩ := hf
    refine ⟨hq.1, fun w t' => ?_, fun w t c n h => nomatch h⟩
    exact Pc.Formed.has ⟨⟨hn, hq, trivial⟩, _, _, _, rfl⟩
  | lwExclusive t next | lwRelease exclusive t next | bufTableDelete t b next =>
    cases h
    exact hf.1.has
  | writeTag b t next =>
    cases h
    obtain ⟨hn, w, u, n, rfl⟩ := hf
    exact ⟨by cases u <;> rfl, hn, rfl, fun c hc => hc, fun _ => Iff.rfl⟩
  | unlockBufHdr b next =>
    cases h
    exact ⟨rfl, hf.1, hf.2.1, fun c hc => hc, fun _ => Iff.rfl⟩
  | unlockBufHdrExt b old u next =>
    cases h
    obtain ⟨hn, hq, hu⟩ := id hf
    refine ⟨fun w => ?_, hu, ?_, ?_, hq.has hn fun v => ?_⟩
    · cases u <;> exact Pc.Formed.has hf
    · cases u <;> rfl
    · rintro rfl
      rfl
    · cases u <;> exact Iff.rfl
  | lockDrop b matching =>
    cases h
    refine ⟨rfl, fun w t => ?_, fun w t c n h => ?_⟩
    · dsimp only
      split
      · exact Pc.unlockBufHdr_has ⟨trivial, rfl, rfl⟩ ⟨rfl, rfl⟩
      · exact Pc.unlockBufHdr_has trivial ⟨rfl, rfl⟩
    · dsimp only at h
      split at h <;> cases h
  | lockInvalidate b t =>
    cases h
    refine ⟨rfl, fun w t' => ?_, fun w t' c n h => ?_⟩
    · dsimp only
      split_ifs
      · exact Pc.unlockBufHdr_has ⟨trivial, rfl, rfl⟩ ⟨rfl, rfl⟩
      · exact Pc.unlockBufHdr_has ⟨trivial, rfl, rfl⟩ ⟨rfl, rfl⟩
      · exact Pc.unlockBufHdr_has ⟨⟨trivial, rfl, rfl⟩, rfl, rfl⟩ ⟨rfl, rfl⟩
      · exact Pc.Formed.has ⟨⟨⟨⟨⟨trivial, rfl, rfl⟩, rfl, rfl⟩, ⟨rfl, rfl⟩, trivial⟩, _, _, _, rfl⟩,
          _, _, rfl⟩
      · exact Pc.Formed.has ⟨⟨⟨⟨trivial, rfl, rfl⟩, ⟨rfl, rfl⟩, trivial⟩, _, _, _, rfl⟩, _, _, rfl⟩
    · dsimp only at h
      split at h
      · cases h
      · rename_i ht
        rw [ne_eq, not_not] at ht
        split at h
        · cases h
        · rename_i h0
          cases h
          exact ⟨ht ▸ rfl, rfl, by simpa using h0⟩
  | startBufferIo b forInput yes no =>
    cases h
    obtain ⟨hy, hn, hqy, hqn, hs⟩ := id hf
    refine ⟨hqy.1, fun w t => ?_, fun w t c n h => ?_⟩
    · dsimp only
      split_ifs
      · exact Pc.unlockBufHdr_has hf hqy
      · exact { Pc.unlockBufHdr_has hn hqn with victims := fun v => (hs v).symm }
      · exact Pc.unlockBufHdrExt_has (by decide) (fun hu => nomatch hu) hy hqy
      · exact { Pc.unlockBufHdr_has hn hqn with victims := fun v => (hs v).symm }
      · exact Pc.unlockBufHdrExt_has (by decide) (fun hu => nomatch hu) hy hqy
    · dsimp only at h
      split_ifs at h
  | terminateBufferIo b clearDirty set next =>
    cases h
    obtain ⟨hn, hq, hs, ht⟩ := hf
    refine ⟨hq.1, fun w t => ?_, fun w t c n h => nomatch h⟩
    refine Pc.unlockBufHdrExt_has ⟨hs, ?_, ht, ?_⟩ (fun hu => nomatch hu) hn hq
    · split <;> decide
    · split <;> decide
  | flushLsn b next =>
    cases h
    obtain ⟨hn, hq⟩ := hf
    refine ⟨hq.1, fun w t => ?_, fun w t c n h => nomatch h⟩
    exact Pc.unlockBufHdrExt_has (by decide) (fun hu => nomatch hu) ⟨hn, hq⟩ hq
  | flushWrite b next =>
    obtain ⟨hn, hq⟩ := hf
    simp only [code] at h
    cases input <;> simp only [reduceCtorEq] at h
    split_ifs at h <;> cases h
    · exact Pc.Formed.has ⟨hn, hq, by decide, by decide⟩
    · exact hq.1
  | lockSync b skip =>
    cases h
    refine ⟨rfl, fun w t => ?_, fun w t c n h => ?_⟩
    · dsimp only
      split_ifs
      · exact Pc.unlockBufHdr_has trivial ⟨rfl, rfl⟩
      · exact Pc.unlockBufHdr_has trivial ⟨rfl, rfl⟩
      · have hn : (Pc.unpinBuffer b .idle : Pc V.Pc).Has ⟨none, none, []⟩ :=
          Pc.Formed.has ⟨trivial, ⟨rfl, rfl⟩, List.not_mem_nil⟩
        have hn := Pc.flushBuffer_has (b := b) hn
        exact Pc.unlockBufHdrExt_has trivial (fun _ => rfl) hn.formed hn.quiet
    · dsimp only at h
      split_ifs at h
  | markDirty b =>
    cases h
    exact fun w => Pc.Formed.has trivial
  | dirtyLoop b old =>
    simp only [code] at h
    split at h <;> cases h
    · exact fun w => Pc.Formed.has trivial
    · rename_i hl
      exact ⟨fun w => Pc.Formed.has trivial, by simpa using hl,
        Pc.Formed.has trivial⟩
  | extendSize e bs =>
    simp only [code] at h
    cases input <;> simp only [reduceCtorEq, Option.some.injEq] at h
    subst h
    have hperm (n : ℕ) : (bs.drop n ++ bs.take n).Perm bs := by
      have h : (bs.drop n ++ bs.take n).Perm (bs.take n ++ bs.drop n) := List.perm_append_comm
      rwa [List.take_append_drop] at h
    exact Pc.Quiet.has ⟨rfl, rfl⟩ ((hperm _).nodup_iff.mpr hf) fun v => (hperm _).mem_iff
  | extendSurplus e first keep surplus =>
    cases surplus with
    | nil =>
      simp only [code] at h
      split_ifs at h with hk <;> cases h
      · exact Pc.Quiet.has ⟨rfl, rfl⟩ trivial fun v => by simp [Pc.duty, hk]
      · rfl
      · exact Pc.Formed.has hf
    | cons v surplus =>
      cases h
      obtain ⟨hv, hn⟩ := List.nodup_cons.mp hf
      exact Pc.Formed.has ⟨⟨hn, ⟨rfl, rfl⟩, hv⟩, ⟨rfl, rfl⟩, hv⟩
  | extendLoop e first i todo done =>
    cases todo with
    | nil =>
      cases h
      exact Pc.Formed.has trivial
    | cons v todo =>
      cases h
      obtain ⟨hv, hn⟩ := List.nodup_cons.mp hf
      have hq : (Pc.extendLoop e first i todo done : Pc V.Pc).Quiet := ⟨rfl, rfl⟩
      refine ⟨Pc.Formed.has ?_, fun b => Pc.Formed.has ?_⟩
      · exact ⟨⟨⟨⟨hn, hn, hq, hq, fun _ => Iff.rfl⟩, hq, hv⟩, hq⟩, hq⟩
      · exact ⟨⟨⟨hn, hq, hv⟩, hq⟩, ⟨⟨⟨hn, hq⟩, hq, hv⟩, hq⟩, hq, hq, fun _ => Iff.rfl⟩
  | extendCheck e first i b todo done =>
    simp only [code] at h
    cases input <;> simp only [reduceCtorEq] at h
    split_ifs at h <;> cases h
    · exact Pc.Formed.has ⟨hf, rfl, rfl⟩
    · rfl
  | clearValid b next =>
    cases h
    exact Pc.Formed.has ⟨hf.1, hf, hf.2, hf.2, fun _ => Iff.rfl⟩
  | zeroExtend bs =>
    simp only [code] at h
    cases input <;> simp only [reduceCtorEq] at h
    split_ifs at h <;> cases h
    · exact Pc.terminateAll_has bs
    · rfl

end PostgreSieve
