import Mathlib.Algebra.BigOperators.Group.Finset.Piecewise
import Mathlib.Algebra.Order.BigOperators.Group.Finset
import PostgreSieve.Eviction.Policies
import PostgreSieve.Pool.Discipline

/-! # Header locks, pins and usage counts

Every step changes the packed state of a buffer field by field. From this the
reference count of a buffer is the number of backends that have it pinned, a header
lock has one holder, and a victim belongs to one backend until it unpins it.
-/

namespace PostgreSieve

open Function Option

/-- What an operation on a buffer header does to the fields. None of them depends on the value
of a neighbouring field. -/
inductive FieldStep (f : Fields) : Fields → Prop where
  | same : FieldStep f f
  | claim (h : f.refcount = 0) : FieldStep f { f with refcount := 1 }
  | pin (strategy : Bool) (h : f.refcount < maxBackends) : FieldStep f (f.pin strategy)
  | unpin (h : 0 < f.refcount) : FieldStep f { f with refcount := f.refcount - 1 }
  /-- The clock sweep takes one usage unit away. -/
  | decay (h : 0 < f.usagecount) : FieldStep f { f with usagecount := f.usagecount - 1 }
  /-- SIEVE clears the visited mark. -/
  | unvisit : FieldStep f { f with usagecount := 0 }
  | flags (g : Fin 12 → Bool) : FieldStep f { f with flags := g }
  | install (g : Fin 12 → Bool) :
    FieldStep f { f with usagecount := f.usagecount ||| 1, flags := g }
  | clear : FieldStep f { f with usagecount := 0, flags := fun _ => false }
  | pinLocked (g : Fin 12 → Bool) (h : f.refcount < maxBackends) :
    FieldStep f { f with refcount := f.refcount + 1, flags := g }

theorem FieldStep.usagecount_le {f f' : Fields} (h : FieldStep f f')
    (hu : f.usagecount ≤ bmMaxUsageCount) : f'.usagecount ≤ bmMaxUsageCount := by
  cases h with
  | same | claim | unpin | flags | pinLocked => exact hu
  | decay => exact (Nat.sub_le _ _).trans hu
  | unvisit | clear => exact Nat.zero_le _
  | pin strategy =>
    have h5 : bmMaxUsageCount = 5 := rfl
    rw [Fields.pin]
    dsimp only
    split_ifs <;> omega
  | install =>
    have hor : ∀ u ≤ 5, u ||| 1 ≤ 5 := by decide
    exact hor _ hu

section Updates

variable {w : BufState}
variable {u : HdrUpdate}

/-- The flags that `UnlockBufHdrExt` leaves set. -/
def HdrUpdate.flagsAfter (f : Fin 12 → Bool) : HdrUpdate → Fin 12 → Bool
  | install _ permanent => update
      (fun i => f i || (bmTagValid ||| if permanent then bmPermanent else 0).fields.flags i) 0 false
  | clear => fun _ => false
  | flags set unset =>
    update (fun i => (f i || set.fields.flags i) && !unset.fields.flags i) 0 false
  | pin => update f 0 false

/-- The flags after a page has been read in. -/
def madeValid (f : Fin 12 → Bool) (i : Fin 12) : Bool :=
  i = 2 || f i && !(i = 0 || i = 4 || i = 5)

/-- The fields of a header whose page has just been read in and released. -/
def Fields.loaded (f : Fields) (permanent : Bool) : Fields :=
  { f with
    refcount := 0
    usagecount := 1
    flags := fun i => i = 2 || i = 3 || permanent && i = 9 }

/-- What `UnlockBufHdrExt` does to the fields. -/
def HdrUpdate.fieldsAfter (f : Fields) (u : HdrUpdate) : Fields :=
  { f with
    refcount := match u with
      | pin => f.refcount + 1
      | _ => f.refcount
    usagecount := match u with
      | install _ _ => f.usagecount ||| 1
      | clear => 0
      | _ => f.usagecount
    flags := u.flagsAfter f.flags }

theorem fields_unlockExt (hu : u.Lawful) (hp : u = .pin → w.getRefcount < maxBackends) :
    ((WordOp.unlockExt u).apply w).fields = u.fieldsAfter w.fields := by
  cases u with
  | install t permanent => exact fields_unlockExt_install (by cases permanent <;> decide)
  | clear => exact fields_unlockExt_clear
  | flags set unset => exact fields_unlockExt_flags hu.1 hu.2.1
  | pin => exact fields_unlockExt_pin (hp rfl)

theorem HdrUpdate.flagsAfter_locked (f : Fin 12 → Bool) (u : HdrUpdate) :
    u.flagsAfter f 0 = false := by
  cases u <;> simp [flagsAfter]

theorem HdrUpdate.fieldStep {f : Fields}
    (hp : u = .pin → f.refcount < maxBackends) : FieldStep f (u.fieldsAfter f) := by
  cases u with
  | install t permanent => exact .install _
  | clear => exact .clear
  | flags set unset => exact .flags _
  | pin => exact .pinLocked _ (hp rfl)

end Updates

section Invariant

variable {V : EvictionVtable} {Pid : Type}
variable {b c : ℕ} {x : Backend V}

/-- One if `x` has pinned `b`. -/
def Backend.pinned (x : Backend V) (b : ℕ) : ℕ := if 0 < x.refcount b then 1 else 0

@[simp] theorem Backend.track_self (x : Backend V) (b : ℕ) :
    (x.track b).refcount b = x.refcount b + 1 := update_self ..

theorem Backend.track_of_ne (h : c ≠ b) :
    (x.track b).refcount c = x.refcount c := update_of_ne h ..

theorem Backend.track_pos {c : ℕ} (b : ℕ) (h : 0 < x.refcount c) :
    0 < (x.track b).refcount c := by
  obtain rfl | hc := eq_or_ne c b
  · simp
  · rwa [track_of_ne hc]

@[simp] theorem Backend.untrack_self (x : Backend V) (b : ℕ) :
    (x.untrack b).refcount b = x.refcount b - 1 := update_self ..

theorem Backend.untrack_of_ne (h : c ≠ b) :
    (x.untrack b).refcount c = x.refcount c := update_of_ne h ..

/-- The packed state of buffer `b`, unpacked. -/
def Sys.fields (s : Sys V Pid) (b : ℕ) : Fields := (s.pool.state b).fields

def Sys.duty (s : Sys V Pid) (p : Pid) : Duty := (s.backends p).pc.duty

variable [Fintype Pid]

/-- The number of backends that have pinned `b`. -/
def Sys.pins (s : Sys V Pid) (b : ℕ) : ℕ := ∑ p, (s.backends p).pinned b

theorem Sys.pins_eq_card (s : Sys V Pid) (b : ℕ) :
    s.pins b = (Finset.univ.filter fun p => 0 < (s.backends p).refcount b).card := by
  simp only [Sys.pins, Backend.pinned, Finset.card_filter]

/-- The state of headers and pins between two steps. -/
structure Sound (s : Sys V Pid) : Prop where
  formed : ∀ p, (s.backends p).pc.Formed
  locked : ∀ b, (s.fields b).flags 0 = true ↔ ∃ p, (s.duty p).hdr = some b
  one_holder : ∀ {p q b}, (s.duty p).hdr = some b → (s.duty q).hdr = some b → p = q
  fresh : ∀ {p b}, (s.duty p).fresh = some b → (s.backends p).refcount b = 0
  victims : ∀ {p b}, b ∈ (s.duty p).victims → 0 < (s.backends p).refcount b
  one_owner : ∀ {p q b}, b ∈ (s.duty p).victims → b ∈ (s.duty q).victims → p = q
  refcount : ∀ b, (s.fields b).refcount = s.pins b
  usagecount : ∀ b, (s.fields b).usagecount ≤ bmMaxUsageCount

variable {s : Sys V Pid} {p : Pid} {b : ℕ}

theorem Sys.pins_eq_zero_iff : s.pins b = 0 ↔ ∀ p, (s.backends p).refcount b = 0 := by
  simp [Sys.pins, Backend.pinned]

/-- A backend that has not pinned `b` can pin it without filling up the reference count. -/
theorem Sys.pins_lt (hP : Fintype.card Pid ≤ maxBackends) (hb : (s.backends p).refcount b = 0) :
    s.pins b < maxBackends := by
  refine lt_of_lt_of_le ?_ hP
  rw [s.pins_eq_card, ← Finset.card_univ]
  apply Finset.card_lt_card
  refine ⟨Finset.filter_subset _ _, fun h => ?_⟩
  have := h (Finset.mem_univ p)
  simp [hb] at this

theorem Sound.getRefcount_lt (h : Sound s) (hP : Fintype.card Pid ≤ maxBackends)
    (hb : (s.backends p).refcount b = 0) : (s.pool.state b).getRefcount < maxBackends :=
  (h.refcount b).trans_lt (Sys.pins_lt hP hb)

theorem Sound.unpinned (h : Sound s) (h0 : (s.fields b).refcount = 0) (p : Pid) :
    (s.backends p).refcount b = 0 :=
  Sys.pins_eq_zero_iff.mp ((h.refcount b).symm.trans h0) p

variable [DecidableEq Pid] {P : Pool V Pid} {x : Backend V}

theorem Sys.pins_update (s : Sys V Pid) (p : Pid) (P : Pool V Pid) (x : Backend V) (b : ℕ) :
    Sys.pins ⟨P, update s.backends p x⟩ b + (s.backends p).pinned b =
      s.pins b + x.pinned b := by
  have hrest : ∑ q ∈ Finset.univ.erase p, ((update s.backends p x) q).pinned b =
      ∑ q ∈ Finset.univ.erase p, (s.backends q).pinned b := by
    apply Finset.sum_congr rfl
    intro q hq
    rw [update_of_ne (Finset.ne_of_mem_erase hq)]
  rw [Sys.pins, Sys.pins, ← Finset.add_sum_erase _ _ (Finset.mem_univ p), hrest,
    ← Finset.add_sum_erase Finset.univ (fun q => (s.backends q).pinned b) (Finset.mem_univ p)]
  simp only [update_self]
  omega

/-- What a step of `p` that ends in shared memory `P` with `p` in state `x` does to the headers
and pins. -/
structure Effect (s : Sys V Pid) (p : Pid) (P : Pool V Pid) (x : Backend V) : Prop where
  formed : x.pc.Formed
  fields : ∀ b, FieldStep (s.fields b) (P.state b).fields
  balance : ∀ b, (P.state b).fields.refcount + (s.backends p).pinned b =
    (s.fields b).refcount + x.pinned b
  locked : ∀ b, (P.state b).fields.flags 0 = true ↔
    (s.fields b).flags 0 = true ∧ (s.duty p).hdr ≠ some b ∨ x.pc.duty.hdr = some b
  acquired : ∀ b, x.pc.duty.hdr = some b →
    (s.duty p).hdr = some b ∨ (s.fields b).flags 0 = false
  fresh : ∀ b, x.pc.duty.fresh = some b → x.refcount b = 0
  victims : ∀ b ∈ x.pc.duty.victims, 0 < x.refcount b ∧
    (b ∈ (s.duty p).victims ∨ (s.fields b).refcount = 0)

section Update

omit [Fintype Pid]

variable {Q : Backend V → Prop}

theorem forall_update {Q : Pid → Backend V → Prop} (h : ∀ q ≠ p, Q q (s.backends q)) (hp : Q p x)
    (q : Pid) : Q q (update s.backends p x q) := by
  by_cases hq : q = p
  · subst hq
    rwa [update_self]
  · rw [update_of_ne hq]
    exact h q hq

theorem exists_update_iff :
    (∃ q, Q (update s.backends p x q)) ↔ Q x ∨ ∃ q ≠ p, Q (s.backends q) := by
  constructor
  · rintro ⟨q, hq⟩
    by_cases hp : q = p
    · subst hp
      rw [update_self] at hq
      exact .inl hq
    · rw [update_of_ne hp] at hq
      exact .inr ⟨q, hp, hq⟩
  · rintro (hx | ⟨q, hp, hq⟩)
    · exact ⟨p, by rwa [update_self]⟩
    · exact ⟨q, by rwa [update_of_ne hp]⟩

theorem unique_update (h : ∀ {q r}, Q (s.backends q) → Q (s.backends r) → q = r)
    (hp : Q x → ∀ q ≠ p, ¬Q (s.backends q)) {q r : Pid}
    (hq : Q (update s.backends p x q)) (hr : Q (update s.backends p x r)) :
    q = r := by
  by_cases hqp : q = p <;> by_cases hrp : r = p
  · rw [hqp, hrp]
  · subst hqp
    rw [update_self] at hq
    rw [update_of_ne hrp] at hr
    exact absurd hr (hp hq r hrp)
  · subst hrp
    rw [update_self] at hr
    rw [update_of_ne hqp] at hq
    exact absurd hq (hp hr q hqp)
  · rw [update_of_ne hqp] at hq
    rw [update_of_ne hrp] at hr
    exact h hq hr

end Update

namespace Sound

theorem step (h : Sound s) (e : Effect s p P x) :
    Sound (⟨P, update s.backends p x⟩ : Sys V Pid) where
  formed := forall_update (Q := fun _ x => x.pc.Formed) (fun q _ => h.formed q) e.formed
  locked b := by
    refine (e.locked b).trans (Iff.trans ?_
      (exists_update_iff (Q := fun x => x.pc.duty.hdr = some b)).symm)
    rw [or_comm, h.locked b]
    refine or_congr Iff.rfl ⟨?_, ?_⟩
    · rintro ⟨⟨q, hq⟩, hp⟩
      exact ⟨q, fun hqp => hp (hqp ▸ hq), hq⟩
    · rintro ⟨q, hqp, hq⟩
      exact ⟨⟨q, hq⟩, fun hp => hqp (h.one_holder hq hp)⟩
  one_holder := by
    intro q r b
    refine unique_update (Q := fun x => x.pc.duty.hdr = some b) h.one_holder fun hx q hqp hq => ?_
    rcases e.acquired b hx with hp | hfree
    · exact hqp (h.one_holder hq hp)
    · have := (h.locked b).mpr ⟨q, hq⟩
      simp [hfree] at this
  fresh := by
    intro q b
    exact forall_update (Q := fun _ x => x.pc.duty.fresh = some b → x.refcount b = 0)
      (fun q _ => h.fresh) (e.fresh b) q
  victims := by
    intro q b
    exact forall_update (Q := fun _ x => b ∈ x.pc.duty.victims → 0 < x.refcount b)
      (fun q _ => h.victims) (fun hb => (e.victims b hb).1) q
  one_owner := by
    intro q r b
    refine unique_update (Q := fun x => b ∈ x.pc.duty.victims) h.one_owner fun hx q hqp hq => ?_
    rcases (e.victims b hx).2 with hp | hfree
    · exact hqp (h.one_owner hq hp)
    · exact (h.victims hq).ne' (h.unpinned hfree q)
  refcount b := by
    have hr := h.refcount b
    have hb := e.balance b
    have hu := s.pins_update p P x b
    simp only [Sys.fields] at hr hb hu ⊢
    omega
  usagecount b := (e.fields b).usagecount_le (h.usagecount b)

end Sound

namespace Effect

omit [DecidableEq Pid]

variable {d : Duty} {w : BufState}

variable (h : Sound s)
include h

section

variable (hstate : P.state = update s.pool.state b w) (hpc : x.pc.Has d)
include hstate hpc

section

variable (hrefs : ∀ c ≠ b, x.refcount c = (s.backends p).refcount c)
  (hfields : FieldStep (s.fields b) w.fields)
  (hbal : w.fields.refcount + (s.backends p).pinned b = (s.fields b).refcount + x.pinned b)
include hrefs hfields hbal

/-- A step that changes the header of `b` only, given what it does to the fields of `b`. -/
theorem of_word
    (hhdr : ∀ c ≠ b, d.hdr = some c ↔ (s.duty p).hdr = some c)
    (hlock : w.fields.flags 0 = true ↔
      (s.fields b).flags 0 = true ∧ (s.duty p).hdr ≠ some b ∨ d.hdr = some b)
    (hacq : d.hdr = some b → (s.duty p).hdr = some b ∨ (s.fields b).flags 0 = false)
    (hfresh : ∀ c, d.fresh = some c → x.refcount c = 0)
    (hvict : ∀ c ∈ d.victims, 0 < x.refcount c ∧
      (c ∈ (s.duty p).victims ∨ (s.fields c).refcount = 0)) : Effect s p P x := by
  have hb : P.state b = w := by rw [hstate, update_self]
  have hc : ∀ c ≠ b, (P.state c).fields = s.fields c := fun c hc => by
    rw [hstate, update_of_ne hc]; rfl
  refine ⟨hpc.formed, fun c => ?_, fun c => ?_, fun c => ?_, fun c => ?_,
    fun c hf => hfresh c (hpc.fresh c hf), fun c hv => hvict c ((hpc.victims c).mp hv)⟩ <;>
    obtain rfl | hne := eq_or_ne c b
  · rwa [hb]
  · rw [hc c hne]
    exact .same
  · rwa [hb]
  · rw [hc c hne, Backend.pinned, Backend.pinned, hrefs c hne]
  · rwa [hb, hpc.hdr]
  · rw [hc c hne, hpc.hdr, hhdr c hne]
    by_cases hp : (s.duty p).hdr = some c
    · simp [hp, (h.locked c).mpr ⟨p, hp⟩]
    · simp [hp]
  · rw [hpc.hdr]
    exact hacq
  · rw [hpc.hdr, hhdr c hne]
    exact .inl

theorem of_word_unlocked
    (hhdr : d.hdr = (s.duty p).hdr) (hflag : w.fields.flags 0 = (s.fields b).flags 0)
    (hfresh : ∀ c, d.fresh = some c → x.refcount c = 0)
    (hvict : ∀ c ∈ d.victims, 0 < x.refcount c ∧
      (c ∈ (s.duty p).victims ∨ (s.fields c).refcount = 0)) : Effect s p P x := by
  refine of_word h hstate hpc hrefs hfields hbal (fun c _ => by rw [hhdr]) ?_
    (fun hd => .inl (hhdr ▸ hd)) hfresh hvict
  rw [hflag, hhdr]
  by_cases hp : (s.duty p).hdr = some b
  · simp [hp, (h.locked b).mpr ⟨p, hp⟩]
  · simp [hp]

end

theorem of_word_unpinned (hrefs : x.refcount = (s.backends p).refcount)
    (hfields : FieldStep (s.fields b) w.fields)
    (hrc : w.fields.refcount = (s.fields b).refcount)
    (hhdr : ∀ c ≠ b, d.hdr = some c ↔ (s.duty p).hdr = some c)
    (hlock : w.fields.flags 0 = true ↔
      (s.fields b).flags 0 = true ∧ (s.duty p).hdr ≠ some b ∨ d.hdr = some b)
    (hacq : d.hdr = some b → (s.duty p).hdr = some b ∨ (s.fields b).flags 0 = false)
    (hfresh : ∀ c, d.fresh = some c → (s.duty p).fresh = some c)
    (hvict : ∀ c ∈ d.victims, c ∈ (s.duty p).victims) : Effect s p P x := by
  refine of_word h hstate hpc (fun c _ => by rw [hrefs]) hfields ?_ hhdr hlock hacq ?_ ?_
  · rw [hrc, Backend.pinned, Backend.pinned, hrefs]
  · intro c hc
    rw [hrefs]
    exact h.fresh (hfresh c hc)
  · intro c hc
    rw [hrefs]
    exact ⟨h.victims (hvict c hc), .inl (hvict c hc)⟩

end

section

variable (hstate : P.state = s.pool.state) (hrefs : x.refcount = (s.backends p).refcount)
include hstate hrefs

theorem still (hpc : x.pc.Has d) (hhdr : d.hdr = (s.duty p).hdr)
    (hfresh : ∀ c, d.fresh = some c → (s.backends p).refcount c = 0)
    (hvict : ∀ c ∈ d.victims, c ∈ (s.duty p).victims) : Effect s p P x := by
  refine of_word_unlocked (b := 0) (w := s.pool.state 0) h ?_ hpc (fun c _ => by rw [hrefs]) .same
    ?_ hhdr rfl (fun c hc => by rw [hrefs]; exact hfresh c hc) fun c hc => ?_
  · rw [hstate, update_eq_self]
  · rw [Backend.pinned, Backend.pinned, hrefs]
    rfl
  · rw [hrefs]
    exact ⟨h.victims (hvict c hc), .inl (hvict c hc)⟩

theorem goto (hpc : x.pc.Has (s.duty p)) :
    Effect s p P x :=
  still h hstate hrefs hpc rfl (fun _ hc => h.fresh hc) fun _ hc => hc

end

theorem of_pin (hstate : P.state = update s.pool.state b w)
    (hrefs : x.refcount = ((s.backends p).track b).refcount) (hpc : x.pc.Has d)
    (hb : (s.backends p).refcount b = 0) (hfields : FieldStep (s.fields b) w.fields)
    (hrc : w.fields.refcount = (s.fields b).refcount + 1)
    (hhdr : d.hdr = (s.duty p).hdr) (hflag : w.fields.flags 0 = (s.fields b).flags 0)
    (hfresh : d.fresh = none) (hvict : ∀ c ∈ d.victims,
      c ∈ (s.duty p).victims ∨ c = b ∧ (s.fields b).refcount = 0) : Effect s p P x := by
  have hxb : x.refcount b = 1 := by simp [hrefs, hb]
  refine of_word_unlocked h hstate hpc (fun c hc => by rw [hrefs, Backend.track_of_ne hc])
    hfields ?_ hhdr hflag ?_ ?_
  · simp [hrc, Backend.pinned, hxb, hb]
  · simp [hfresh]
  · intro c hc
    obtain hv | ⟨rfl, h0⟩ := hvict c hc
    · exact ⟨hrefs ▸ Backend.track_pos b (h.victims hv), .inl hv⟩
    · exact ⟨by rw [hxb]; exact Nat.one_pos, .inr h0⟩

theorem of_claim (hb : (s.fields b).refcount = 0)
    (hstate : P.state = update s.pool.state b (s.pool.state b + bufRefcountOne))
    (hrefs : x.refcount = ((s.backends p).track b).refcount)
    (hpc : b ∉ (s.duty p).victims →
      x.pc.Has { s.duty p with victims := b :: (s.duty p).victims, fresh := none }) :
    Effect s p P x := by
  have hf : (s.pool.state b + bufRefcountOne).fields = { s.fields b with refcount := 1 } := by
    have hlt : (s.pool.state b).getRefcount < maxBackends :=
      lt_of_eq_of_lt hb (by decide)
    rw [fields_add_refcountOne hlt, show (s.pool.state b).getRefcount = 0 from hb]
    rfl
  have hp := h.unpinned hb p
  refine of_pin h hstate hrefs (hpc fun hv => (h.victims hv).ne' hp) hp ?_ ?_ rfl ?_ rfl ?_
  · rw [hf]
    exact .claim hb
  · simp [hf, hb]
  · rw [hf]
  · intro c hc
    exact (List.mem_cons.mp hc).symm.imp_right fun he => ⟨he, hb⟩

end Effect

section Exec

variable {N : ℕ} {hash : BufferTag → ℕ}
variable {a : Pid × Input} {s' : Sys V Pid}

theorem execGet_effect (hV : V.Careful) (h : Sound s) {k : VictimFor} {g : V.Pc}
    (hpc : s.duty p = ⟨none, none, k.buffers⟩) (hk : k.buffers.Nodup)
    (he : execGet p s.pool (s.backends p) k (V.code N s.pool.policy g) = some (P, x)) :
    Effect s p P x := by
  have hget g : (Pc.getBuffer k g : Pc V.Pc).Has (s.duty p) := by
    rw [hpc]
    exact Pc.Quiet.has ⟨rfl, rfl⟩ hk fun _ => Iff.rfl
  generalize hc : V.code N s.pool.policy g = i at he
  cases execGet_cases he with
  | stay => exact .goto h rfl rfl (hget _)
  | cas b new ok fail =>
    obtain ⟨-, ⟨hpos, rfl⟩ | rfl⟩ := hV.cas hc
    · have hf := fields_sub_usagecountOne hpos
      exact .of_word_unlocked h rfl (hget _) (fun _ _ => rfl) (hf ▸ .decay hpos) (by rw [hf]; rfl)
        rfl (by rw [hf]; rfl) (fun c hc => h.fresh hc) fun c hc => ⟨h.victims hc, .inl hc⟩
    · have hf := fields_andNot_usagecountMask (w := s.pool.state b)
      exact .of_word_unlocked h rfl (hget _) (fun _ _ => rfl) (hf ▸ .unvisit) (by rw [hf]; rfl)
        rfl (by rw [hf]; rfl) (fun c hc => h.fresh hc) fun c hc => ⟨h.victims hc, .inl hc⟩
  | claim b s' fail =>
    refine .of_claim h (hV.claim hc).1 rfl rfl fun hb => ?_
    rw [hpc] at hb ⊢
    exact Pc.Quiet.has ⟨rfl, rfl⟩ ⟨hb, hk⟩ fun _ => Iff.rfl
  | raise s' message =>
    refine .still (d := ⟨none, none, []⟩) h rfl rfl (Pc.Quiet.has ⟨rfl, rfl⟩ trivial
      fun _ => Iff.rfl) ?_ ?_ ?_ <;> simp [hpc]

omit [DecidableEq Pid] in
theorem cas_effect (hP : Fintype.card Pid ≤ maxBackends) (h : Sound s) {op : WordOp}
    {ok : Pc V.Pc} {fail : BufState → Pc V.Pc}
    (hi : (Instr.cas b (s.pool.state b) op ok fail).Disciplined (s.backends p).pc) :
    Effect s p (s.pool.setState b (op.apply (s.pool.state b)))
      ((if op.pins then (s.backends p).track b else s.backends p).goto ok) := by
  have hlt := h.getRefcount_lt hP (p := p) (b := b)
  cases op with
  | claim => exact .of_claim h hi.2.1 rfl rfl hi.2.2.2.2
  | pin strategy =>
    obtain ⟨-, -, hb, hpc⟩ := hi
    have hb := h.fresh hb
    have hf := fields_pin (hlt hb) strategy
    refine .of_pin h rfl rfl hpc hb ?_ ?_ rfl ?_ rfl fun c hc => .inl hc
    · exact hf ▸ .pin strategy (hlt hb)
    · exact congrArg Fields.refcount hf
    · exact congrArg (fun f => f.flags 0) hf
  | dirty =>
    obtain ⟨-, -, hpc⟩ := hi
    have hf : ((WordOp.dirty).apply (s.pool.state b)).fields = _ :=
      fields_or (m := bmDirty ||| bmJustDirtied) (by decide)
    have hm : (bmDirty ||| bmJustDirtied).fields.flags 0 = false := by decide
    refine .of_word_unlocked h rfl hpc (fun _ _ => rfl) ?_ ?_ rfl ?_ (fun c hc => h.fresh hc)
      fun c hc => ⟨h.victims hc, .inl hc⟩
    · exact hf ▸ .flags _
    · rw [hf]
      rfl
    · rw [hf]
      simp [hm, Sys.fields]
  | unlockExt u =>
    obtain ⟨-, hu, hhdr, hp, hpc⟩ := hi
    have hb := fun hup => h.fresh (hp hup)
    have hf := fields_unlockExt hu fun hup => hlt (hb hup)
    have hstep : FieldStep (s.fields b) ((WordOp.unlockExt u).apply (s.pool.state b)).fields :=
      hf ▸ HdrUpdate.fieldStep fun hup => hlt (hb hup)
    have hflag : ((WordOp.unlockExt u).apply (s.pool.state b)).fields.flags 0 = false := by
      rw [hf]
      exact HdrUpdate.flagsAfter_locked _ u
    have hother : ∀ c ≠ b, (none : Option ℕ) = some c ↔ (s.duty p).hdr = some c := by
      intro c hc
      simp [Sys.duty, hhdr, hc.symm]
    have hlock : ((WordOp.unlockExt u).apply (s.pool.state b)).fields.flags 0 = true ↔
        (s.fields b).flags 0 = true ∧ (s.duty p).hdr ≠ some b ∨ (none : Option ℕ) = some b := by
      simp [hflag, Sys.duty, hhdr]
    by_cases hup : u = .pin
    · subst hup
      refine .of_word h rfl hpc (fun c hc => Backend.track_of_ne hc) hstep ?_ hother hlock
        (fun hd => nomatch hd) (fun c hc => nomatch hc) fun c hc => ⟨?_, .inl hc⟩
      · rw [hf]
        simp [Backend.pinned, Backend.track, Backend.goto, WordOp.pins, HdrUpdate.fieldsAfter, hb,
          Sys.fields]
      · exact Backend.track_pos b (h.victims hc)
    · have hpins : (WordOp.unlockExt u).pins = false := by
        cases u with
        | pin => exact absurd rfl hup
        | _ => rfl
      have hrc : (u.fieldsAfter (s.fields b)).refcount = (s.fields b).refcount := by
        cases u with
        | pin => exact absurd rfl hup
        | _ => rfl
      rw [hpins]
      exact .of_word_unpinned h rfl hpc rfl hstep (by rw [hf]; exact hrc) hother hlock
        (fun hd => nomatch hd) (fun c hc => nomatch hc) fun c hc => hc

theorem exec_effect (hV : V.Careful) (hP : Fintype.card Pid ≤ maxBackends) (h : Sound s)
    {i : Instr V} (hi : i.Disciplined (s.backends p).pc)
    (he : exec N hash p s.pool (s.backends p) i = some (P, x)) : Effect s p P x := by
  cases i with
  | goto next | setRing r next | tableDelete t next => cases he; exact .goto h rfl rfl hi
  | load b next | readTag b next => cases he; exact .goto h rfl rfl (hi _)
  | writeTag b t next => cases he; exact .goto h rfl rfl hi.2
  | raise message =>
    cases he
    refine .still (d := ⟨none, none, []⟩) h rfl rfl (Pc.Quiet.has ⟨rfl, rfl⟩ trivial
      fun _ => Iff.rfl) hi.symm ?_ ?_ <;> simp
  | await b next =>
    simp only [exec, ite_none_left_eq_some] at he
    cases he.2
    exact .goto h rfl rfl (hi _)
  | policy k g => exact execGet_effect hV h (congrArg Pc.duty hi.1) hi.2 he
  | pinFirst b held fresh =>
    obtain ⟨hheld, hfresh⟩ := hi (s.pool.state b)
    simp only [exec] at he
    split at he
    · rename_i hb
      cases he
      refine .of_word_unlocked (b := b) (w := s.pool.state b) h (update_eq_self ..).symm hheld
        (fun c hc => Backend.track_of_ne hc) .same ?_ rfl rfl (fun c hc => nomatch hc)
        fun c hc => ⟨Backend.track_pos b (h.victims hc), .inl hc⟩
      simp [Backend.pinned, Backend.goto, hb, Sys.fields]
    · cases he
      refine .still h rfl rfl hfresh rfl ?_ fun c hc => hc
      rintro c ⟨⟩
      omega
  | checkUnpinned b next =>
    simp only [exec, ite_none_right_eq_some] at he
    cases he.2
    refine .still h rfl rfl hi rfl ?_ fun c hc => hc
    rintro c ⟨⟩
    exact he.1
  | cas b old op ok fail =>
    simp only [exec] at he
    split at he
    · rename_i hold
      subst hold
      cases he
      exact cas_effect hP h hi
    · cases he
      exact .goto h rfl rfl (hi.1 _)
  | lockBufHdr b next =>
    simp only [exec, ite_none_left_eq_some, has_bmLocked, Bool.not_eq_true] at he
    obtain ⟨hfree, he⟩ := he
    cases he
    obtain ⟨hhdr, hpc, -⟩ := hi
    have hf := fields_or_bmLocked (w := s.pool.state b)
    refine .of_word_unpinned h rfl (hpc _ _) rfl (hf ▸ .flags _) (by rw [hf]; rfl) ?_ ?_
      (fun _ => .inr hfree) (fun c hc => hc) fun c hc => hc
    · intro c hc
      simp [Sys.duty, hhdr, hc.symm]
    · rw [hf]
      simp
  | unlockBufHdr b next =>
    cases he
    obtain ⟨hhdr, hpc⟩ := hi
    have hf := fields_sub_bmLocked ((h.locked b).mpr ⟨p, hhdr⟩)
    refine .of_word_unpinned h rfl hpc rfl (hf ▸ .flags _) (by rw [hf]; rfl) ?_ ?_
      (fun hd => nomatch hd) (fun c hc => hc) fun c hc => hc
    · intro c hc
      simp [Sys.duty, hhdr, hc.symm]
    · rw [hf]
      simp [Sys.duty, hhdr]
  | clearValid b next =>
    cases he
    have hf := fields_andNot (w := s.pool.state b) (m := bmValid) (by decide)
    have hm : bmValid.fields.flags 0 = false := by decide
    refine .of_word_unlocked h rfl hi (fun _ _ => rfl) (hf ▸ .flags _) (by rw [hf]; rfl) rfl ?_
      (fun c hc => h.fresh hc) fun c hc => ⟨h.victims hc, .inl hc⟩
    rw [hf]
    simp [hm, Sys.fields]
  | unpin b next wake =>
    obtain ⟨vs, hbv, hvs, hnext, hwake⟩ := hi
    have hvict : ∀ c ∈ vs, 0 < ((s.backends p).untrack b).refcount c ∧
        (c ∈ (s.duty p).victims ∨ (s.fields c).refcount = 0) := by
      intro c hc
      have hcv : c ∈ (s.duty p).victims := (hvs c).mpr (.inl hc)
      refine ⟨?_, .inl hcv⟩
      have hcb : c ≠ b := fun hcb => hbv (hcb ▸ hc)
      rw [Backend.untrack_of_ne hcb]
      exact h.victims hcv
    simp only [exec, ite_none_left_eq_some] at he
    obtain ⟨h0, he⟩ := he
    split at he
    · rename_i h1
      cases he
      have hrc : 0 < (s.pool.state b).getRefcount :=
        Nat.pos_of_ne_zero fun hz => h0 (h.unpinned hz p)
      have hf := fields_sub_refcountOne hrc
      refine .of_word_unlocked (d := { s.duty p with victims := vs, fresh := none }) h rfl ?_
        (fun c hc => Backend.untrack_of_ne hc) (hf ▸ .unpin hrc) ?_ rfl ?_ (fun c hc => nomatch hc)
        hvict
      · split
        · exact hwake
        · exact hnext
      · simp only [hf, Backend.pinned, Backend.goto, Backend.untrack_self, h1, Sys.fields]
        exact Nat.sub_add_cancel hrc
      · rw [hf]
        rfl
    · cases he
      refine .of_word_unlocked (b := b) (w := s.pool.state b) h (update_eq_self ..).symm hnext
        (fun c hc => Backend.untrack_of_ne hc) .same ?_ rfl rfl (fun c hc => nomatch hc) hvict
      have h2 : 0 < (s.backends p).refcount b - 1 := by omega
      simp [Backend.pinned, Backend.goto, Nat.pos_of_ne_zero h0, h2, Sys.fields]
  | lookup t hit miss =>
    simp only [exec, ite_none_right_eq_some] at he
    obtain ⟨-, he⟩ := he
    split at he <;> cases he
    · exact .goto h rfl rfl (hi.1 _)
    · exact .goto h rfl rfl hi.2
  | lwExclusive t next =>
    simp only [exec, ite_none_right_eq_some] at he
    cases he.2
    exact .goto h rfl rfl hi
  | tableInsert t v fresh existing =>
    simp only [exec, ite_none_right_eq_some] at he
    obtain ⟨-, he⟩ := he
    split at he <;> cases he
    · exact .goto h rfl rfl hi.1
    · exact .goto h rfl rfl (hi.2 _)
  | lwRelease exclusive t next =>
    simp only [exec] at he
    split at he <;> cases he <;> exact .goto h rfl rfl hi
  | notify n b next =>
    obtain ⟨s', rfl, rfl⟩ := exec_notify_cases he
    cases n with
    | insert =>
      obtain ⟨vs, -, hvs, hpc⟩ := hi
      exact .still h rfl rfl hpc rfl (fun _ hc => h.fresh hc) fun c hc => (hvs c).mpr (.inr hc)
    | _ => exact .goto h rfl rfl hi

omit [Fintype Pid] in
theorem step_eq_some_iff :
    step N hash s a = some s' ↔ ∃ i P x, code N (s.backends a.1) a.2 = some i ∧
      exec N hash a.1 s.pool (s.backends a.1) i = some (P, x) ∧
      s' = ⟨P, update s.backends a.1 x⟩ := by
  simp only [step, bind_eq_some_iff, map_eq_some_iff]
  constructor
  · rintro ⟨i, hi, ⟨P, x⟩, he, rfl⟩
    exact ⟨i, P, x, hi, he, rfl⟩
  · rintro ⟨i, P, x, hi, he, rfl⟩
    exact ⟨i, hi, (P, x), he, rfl⟩

theorem step_effect (hV : V.Careful) (hP : Fintype.card Pid ≤ maxBackends) (h : Sound s)
    (hs : step N hash s a = some s') :
    ∃ P x, s' = ⟨P, update s.backends a.1 x⟩ ∧ Effect s a.1 P x := by
  obtain ⟨i, P, x, hi, he, rfl⟩ := step_eq_some_iff.mp hs
  exact ⟨P, x, rfl, exec_effect hV hP h (code_disciplined (h.formed a.1) hi) he⟩

omit [DecidableEq Pid] in
theorem boot_sound (V : EvictionVtable) (Pid : Type) [Fintype Pid] (N : ℕ) :
    Sound (boot V Pid N) where
  formed _ := trivial
  locked b := by
    have h0 : (BufState.fields 0#64).flags 0 = false := by decide
    simp [Sys.fields, Sys.duty, boot, h0, Pc.duty]
  one_holder h := nomatch h
  fresh h := nomatch h
  victims h := nomatch h
  one_owner h := nomatch h
  refcount b := by
    have h0 : (BufState.fields 0#64).refcount = 0 := by decide
    simp [Sys.fields, Sys.pins, Backend.pinned, boot, h0]
  usagecount b := by
    have h0 : (BufState.fields 0#64).usagecount = 0 := by decide
    simp [Sys.fields, boot, h0]

theorem sound_of_reachable (hV : V.Careful) (hP : Fintype.card Pid ≤ maxBackends)
    (h : Reachable (step N hash) (boot V Pid N) s) : Sound s := by
  refine h.invariant (boot_sound V Pid N) fun u a v hu hstep => ?_
  obtain ⟨P, x, rfl, he⟩ := step_effect hV hP hu hstep
  exact hu.step he

/-- In every reachable state the reference count of a buffer is the number of backends that have
it pinned and its usage count is within bounds, and every step changes the packed state field by
field. -/
theorem packed_state_integrity {policy : EvictionPolicy} {s : Sys policy.vtable Pid}
    (hP : Fintype.card Pid ≤ maxBackends)
    (h : Reachable (step N hash) (boot policy.vtable Pid N) s) :
    (∀ b, (s.pool.state b).getRefcount =
        (Finset.univ.filter fun p => 0 < (s.backends p).refcount b).card ∧
      (s.pool.state b).getUsagecount ≤ bmMaxUsageCount) ∧
    ∀ a s', step N hash s a = some s' →
      ∀ b, FieldStep (s.pool.state b).fields (s'.pool.state b).fields := by
  have hs := sound_of_reachable policy.careful hP h
  refine ⟨fun b => ⟨(hs.refcount b).trans (s.pins_eq_card b), hs.usagecount b⟩, ?_⟩
  intro a s' hstep b
  obtain ⟨P, x, rfl, he⟩ := step_effect policy.careful hP hs hstep
  exact he.fields b

/-- A backend that misses in an empty pool of two buffers has pinned buffer 0 for it. -/
theorem packed_state_integrity_miss :
    ∃ s : Sys EvictionPolicy.sieve.vtable (Fin 2), (s.pool.state 0).getRefcount = 1 ∧
      (∀ b, (s.pool.state b).getRefcount =
          (Finset.univ.filter fun p => 0 < (s.backends p).refcount b).card ∧
        (s.pool.state b).getUsagecount ≤ bmMaxUsageCount) ∧
      ∀ a s', step 2 (fun _ => 0) s a = some s' →
        ∀ b, FieldStep (s.pool.state b).fields (s'.pool.state b).fields := by
  have h : ((run (step 2 fun _ => 0) (boot EvictionPolicy.sieve.vtable (Fin 2) 2)
      ((0, .start (.read ⟨⟨1, 1, 1, 0, 0⟩, false, true⟩)) :: List.replicate 5 (0, .go))).map
        fun s => decide ((s.pool.state 0).getRefcount = 1)) = some true := by
    decide +kernel
  simp only [map_eq_some_iff, decide_eq_true_iff] at h
  obtain ⟨s, hs, h1⟩ := h
  exact ⟨s, h1, packed_state_integrity (by simp [maxBackends]) ⟨_, hs⟩⟩

end Exec

end Invariant

end PostgreSieve
