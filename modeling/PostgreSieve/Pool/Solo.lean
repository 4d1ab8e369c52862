import PostgreSieve.Caches.Textbook
import PostgreSieve.Pool.Pins

/-! # A lone backend

One backend reads pages one after the other: `BufferAlloc` without a ring, the page is
made valid and released. The routines run to their ends, and what an access leaves
behind is a function of the tags, the unpacked headers, the mapping table and the data
of the policy.
-/

namespace PostgreSieve

open Function

section Accesses

variable {V : EvictionVtable} {N : ℕ} {hash : BufferTag → ℕ}

/-- A page and whether its relation is permanent, requested without a ring. -/
def request (a : BufferTag × Bool) : AllocReq := ⟨a.1, false, a.2⟩

/-- `BufferAlloc` returns `b` and `found`, the page is made valid, and `b` is released. -/
def Accesses (N : ℕ) (hash : BufferTag → ℕ) (s : Sys V Unit) (r : AllocReq) (b : ℕ) (found : Bool)
    (s' : Sys V Unit) : Prop :=
  ∃ i j k t u,
    run (step N hash) s ((Op.read r).steps () i) = some t ∧
    (t.backends ()).pc = .returned r b found ∧
    run (step N hash) t (((), .go) :: (Op.makeValid b).steps () j) = some u ∧
    (u.backends ()).pc = .idle ∧
    run (step N hash) u ((Op.release b).steps () k) = some s' ∧ (s'.backends ()).pc = .idle

/-- The outcome of an access that starts in `s`: a page that was not found evicts the page whose
tag its buffer had. -/
def Sys.outcome (s : Sys V Unit) (b : ℕ) (found : Bool) : Outcome BufferTag where
  found := found
  slot := b
  evicted := if !found && (s.pool.state b).has bmTagValid then some (s.pool.tag b) else none

/-- The outcomes of the accesses `as`, one after the other. -/
def Plays (N : ℕ) (hash : BufferTag → ℕ) :
    Sys V Unit → List (BufferTag × Bool) → List (Outcome BufferTag) → Prop
  | _, [], os => os = []
  | s, a :: as, os => ∃ b found s' os', Accesses N hash s (request a) b found s' ∧
      os = s.outcome b found :: os' ∧ Plays N hash s' as os'

variable {s s' t t' : Sys V Unit} {r : AllocReq} {b b' : ℕ} {found found' : Bool}
variable {n m : ℕ}

theorem step_go_idle (h : (s.backends ()).pc = .idle) : step N hash s ((), .go) = none := by
  simp only [step, code, h, Option.bind_none]

theorem run_go_idle (h : run (step N hash) s (List.replicate n ((), .go)) = some t)
    (ht : (t.backends ()).pc = .idle)
    (h' : run (step N hash) s (List.replicate m ((), .go)) = some t')
    (ht' : (t'.backends ()).pc = .idle) : n = m := by
  wlog hnm : n ≤ m generalizing n m t t'
  · exact (this h' ht' h ht (by omega)).symm
  obtain ⟨d, rfl⟩ := Nat.exists_eq_add_of_le hnm
  rw [← List.replicate_append_replicate, run_append_eq_some_iff] at h'
  obtain ⟨u, hu, hd⟩ := h'
  obtain rfl := Option.some.inj (h.symm.trans hu)
  cases d with
  | zero => rfl
  | succ d =>
    rw [List.replicate_succ, run_cons_eq_some_iff, step_go_idle ht] at hd
    obtain ⟨_, he, -⟩ := hd
    exact nomatch he

theorem run_op_idle {op : Op} (h : run (step N hash) s (op.steps () n) = some t)
    (ht : (t.backends ()).pc = .idle) (h' : run (step N hash) s (op.steps () m) = some t')
    (ht' : (t'.backends ()).pc = .idle) : n = m := by
  obtain ⟨u, hu, h⟩ := run_cons_eq_some_iff.mp h
  obtain ⟨u', hu', h'⟩ := run_cons_eq_some_iff.mp h'
  obtain rfl := Option.some.inj (hu.symm.trans hu')
  exact run_go_idle h ht h' ht'

theorem run_read_idle {n : ℕ} (h : run (step N hash) s ((Op.read r).steps () n) = some t)
    (ht : (t.backends ()).pc = .returned r b found) :
    ∃ u, run (step N hash) s ((Op.read r).steps () (n + 1)) = some u ∧
      (u.backends ()).pc = .idle := by
  refine ⟨⟨t.pool, update t.backends () ((t.backends ()).goto .idle)⟩, ?_, rfl⟩
  rw [Op.steps, List.replicate_succ', ← List.cons_append, run_append_eq_some_iff]
  refine ⟨t, h, run_cons_eq_some_iff.mpr ⟨_, ?_, rfl⟩⟩
  simp only [step, code, ht]
  rfl

theorem Accesses.unique (h : Accesses N hash s r b found t) (h' : Accesses N hash s r b' found' t') :
    b = b' ∧ found = found' ∧ t = t' := by
  obtain ⟨i, j, k, x, y, hx, hxpc, hy, hypc, ht, htpc⟩ := h
  obtain ⟨i', j', k', x', y', hx', hxpc', hy', hypc', ht', htpc'⟩ := h'
  obtain ⟨z, hz, hzpc⟩ := run_read_idle hx hxpc
  obtain ⟨z', hz', hzpc'⟩ := run_read_idle hx' hxpc'
  have hi := run_op_idle hz hzpc hz' hzpc'
  obtain rfl : i = i' := by omega
  obtain rfl := Option.some.inj (hx.symm.trans hx')
  rw [hxpc] at hxpc'
  cases hxpc'
  obtain ⟨w, hw, hy⟩ := run_cons_eq_some_iff.mp hy
  obtain ⟨w', hw', hy'⟩ := run_cons_eq_some_iff.mp hy'
  obtain rfl := Option.some.inj (hw.symm.trans hw')
  obtain rfl := run_op_idle hy hypc hy' hypc'
  obtain rfl := Option.some.inj (hy.symm.trans hy')
  obtain rfl := run_op_idle ht htpc ht' htpc'
  exact ⟨rfl, rfl, Option.some.inj (ht.symm.trans ht')⟩

theorem Plays.unique {as : List (BufferTag × Bool)} {os os' : List (Outcome BufferTag)}
    (h : Plays N hash s as os) (h' : Plays N hash s as os') : os = os' := by
  induction as generalizing s os os' with
  | nil => exact h.trans (Eq.symm h')
  | cons a as ih =>
    obtain ⟨b, found, t, os, ha, rfl, h⟩ := h
    obtain ⟨b', found', t', os', ha', rfl, h'⟩ := h'
    obtain ⟨rfl, rfl, rfl⟩ := ha.unique ha'
    rw [ih h h']

end Accesses

/-! ## One action -/

section Exec

variable {V : EvictionVtable} {Pid : Type} [DecidableEq Pid] {N : ℕ} {hash : BufferTag → ℕ}
variable {p : Pid} {P : Pool V Pid} {x : Backend V} {b v : ℕ} {t : BufferTag} {next miss : Pc V.Pc}
variable {hit : ℕ → Pc V.Pc}

theorem exec_lookup_hit (he : P.exclusive (partition hash t) = none)
    (ht : P.table t = some b) : exec N hash p P x (.lookup t hit miss) =
      some ({ P with
        shared := update P.shared (partition hash t) (p :: P.shared (partition hash t)) },
        x.goto (hit b)) := by
  simp only [exec, if_pos he, ht]

theorem exec_lookup_miss (he : P.exclusive (partition hash t) = none)
    (ht : P.table t = none) : exec N hash p P x (.lookup t hit miss) = some (P, x.goto miss) := by
  simp only [exec, if_pos he, ht]

theorem exec_pinFirst_fresh {held fresh : BufState → Pc V.Pc} (hb : x.refcount b = 0) :
    exec N hash p P x (.pinFirst b held fresh) = some (P, x.goto (fresh (P.state b))) := by
  simp only [exec, hb, lt_irrefl, if_false]

theorem exec_cas {op : WordOp} {fail : BufState → Pc V.Pc} :
    exec N hash p P x (.cas b (P.state b) op next fail) =
      some (P.setState b (op.apply (P.state b)),
        (if op.pins then x.track b else x).goto next) := if_pos rfl

theorem exec_lockBufHdr {after : BufState → BufferTag → Pc V.Pc}
    (hb : (P.state b).fields.flags 0 = false) :
    exec N hash p P x (.lockBufHdr b after) =
      some (P.setState b (P.state b ||| bmLocked),
        x.goto (after (P.state b ||| bmLocked) (P.tag b))) := by
  simp only [exec, has_bmLocked, hb, Bool.false_eq_true, if_false]

theorem exec_unpin_last {wake : Pc V.Pc} (hb : x.refcount b = 1)
    (hw : (P.state b).fields.flags 7 = false) : exec N hash p P x (.unpin b next wake) =
      some (P.setState b (P.state b - bufRefcountOne), (x.untrack b).goto next) := by
  simp only [exec, hb, one_ne_zero, if_false, if_true, has_bmPinCountWaiter, hw,
    Bool.false_eq_true]

section

variable (he : P.exclusive (partition hash t) = none) (hs : P.shared (partition hash t) = [])
include he hs

theorem exec_lwExclusive : exec N hash p P x (.lwExclusive t next) =
      some ({ P with exclusive := update P.exclusive (partition hash t) (some p) },
        x.goto next) := if_pos ⟨he, hs⟩

theorem exec_tableInsert_fresh {existing : ℕ → Pc V.Pc}
    (ht : P.table t = none) : exec N hash p P x (.tableInsert t v next existing) =
      some ({ P with
        exclusive := update P.exclusive (partition hash t) (some p)
        table := update P.table t (some v) }, x.goto next) := by
  simp only [exec, he, hs, and_self, if_true, ht]

end

theorem exec_notify {n : Notify} (hs : P.strategyLock = none) :
    exec N hash p P x (.notify n b next) =
      some ({ P with policy := ((n.hook V N).map fun f => f P.policy b).getD P.policy },
        x.goto next) := by
  simp only [exec]
  cases n.hook V N with
  | none => rfl
  | some f => exact if_pos hs

end Exec

/-! ## Runs of a lone backend -/

/-- What a lone backend can tell apart in shared memory between its operations. -/
structure Image (σ : Type) where
  tag : ℕ → BufferTag
  fields : ℕ → Fields
  table : BufferTag → Option ℕ
  policy : σ

def Pool.image {V : EvictionVtable} (P : Pool V Unit) : Image V.State :=
  ⟨P.tag, fun b => (P.state b).fields, P.table, P.policy⟩

/-- No lock but header locks is held. -/
structure Calm {V : EvictionVtable} (P : Pool V Unit) : Prop where
  exclusive : ∀ π, P.exclusive π = none
  shared : ∀ π, P.shared π = []
  strategyLock : P.strategyLock = none

section Lone

variable {V : EvictionVtable} {N : ℕ} {hash : BufferTag → ℕ} {P P' : Pool V Unit} {x x' : Backend V}
variable {s t u : Sys V Unit} {b : ℕ}
variable {w : BufState} {after : BufState → BufferTag → Pc V.Pc} {pc next : Pc V.Pc} {r : AllocReq}
variable {a : BufferTag × Bool}

/-- A system whose only backend is in state `x`. -/
def lone (P : Pool V Unit) (x : Backend V) : Sys V Unit := ⟨P, fun _ => x⟩

theorem step_lone {a : Input} {i : Instr V} (hc : code N x a = some i)
    (he : exec N hash () P x i = some (P', x')) :
    step N hash (lone P x) ((), a) = some (lone P' x') := by
  have hx : update (fun _ : Unit => x) () x' = fun _ => x' := by
    funext
    simp
  simp only [step, lone, hc, Option.bind_some, he, Option.map_some, hx]

/-- The backend goes on by itself from `s` to `t`. -/
def Goes (N : ℕ) (hash : BufferTag → ℕ) (s t : Sys V Unit) : Prop :=
  ∃ n, run (step N hash) s (List.replicate n ((), .go)) = some t

namespace Goes

theorem refl (s : Sys V Unit) : Goes N hash s s := ⟨0, rfl⟩

theorem of_eq (h : s = t) : Goes N hash s t := h ▸ refl s

theorem trans (h : Goes N hash s t) (h' : Goes N hash t u) : Goes N hash s u := by
  obtain ⟨n, hn⟩ := h
  obtain ⟨m, hm⟩ := h'
  refine ⟨n + m, ?_⟩
  rw [← List.replicate_append_replicate, run_append_eq_some_iff]
  exact ⟨t, hn, hm⟩

/-- The backend performs the action of its program point and goes on. -/
theorem head {i : Instr V} (hc : code N x .go = some i)
    (he : exec N hash () P x i = some (P', x')) (h : Goes N hash (lone P' x') t) :
    Goes N hash (lone P x) t := by
  obtain ⟨n, hn⟩ := h
  exact ⟨n + 1, run_cons_eq_some_iff.mpr ⟨_, step_lone hc he, hn⟩⟩

end Goes

theorem image_setState (P : Pool V Unit) (b : ℕ) (w : BufState) :
    (P.setState b w).image = { P.image with fields := update P.image.fields b w.fields } := by
  simp only [Pool.image, Pool.setState, Image.mk.injEq, true_and, and_true]
  funext c
  by_cases hc : c = b
  · subst hc
    simp
  · simp [hc]

theorem HdrUpdate.fieldsAfter_locked (f : Fields) (u : HdrUpdate) :
    u.fieldsAfter { f with flags := update f.flags 0 true } = u.fieldsAfter f := by
  have hflags : u.flagsAfter (update f.flags 0 true) = u.flagsAfter f.flags := by
    funext i
    by_cases hi : i = 0
    · subst hi
      rw [flagsAfter_locked, flagsAfter_locked]
    · cases u <;> simp [flagsAfter, hi]
  simp only [fieldsAfter, hflags]

@[simp] theorem state_setState_self (P : Pool V Unit) (b : ℕ) (w : BufState) :
    (P.setState b w).state b = w := update_self ..

@[simp] theorem setState_setState (P : Pool V Unit) (b : ℕ) (v w : BufState) :
    (P.setState b v).setState b w = P.setState b w := by
  simp [Pool.setState]

variable {u : HdrUpdate} {m : Solo V.State}

theorem goes_unlockExt {next : Pc V.Pc} (hw : P.state b = w) (hp : u ≠ .pin)
    (hP : P.setState b ((WordOp.unlockExt u).apply w) = P') :
    Goes N hash (lone P (x.goto (.unlockBufHdrExt b w u next))) (lone P' (x.goto next)) := by
  have hpins : (WordOp.unlockExt u).pins = false := by
    cases u with
    | pin => exact absurd rfl hp
    | _ => rfl
  subst hw hP
  refine .head rfl exec_cas ?_
  rw [hpins]
  exact .refl _

theorem fields_relock (hu : u.Lawful) (hp : u ≠ .pin) :
    ((WordOp.unlockExt u).apply (w ||| bmLocked)).fields = u.fieldsAfter w.fields := by
  rw [fields_unlockExt hu fun h => absurd h hp, fields_or_bmLocked, HdrUpdate.fieldsAfter_locked]

section

variable {u : HdrUpdate} {t : BufferTag}
  (hc : code N (x.goto pc) .go = some (.lockBufHdr b after))
  (hb : (P.state b).fields.flags 0 = false)
include hc hb

/-- The header of `b` is locked, and unlocked with the update `u`. -/
theorem goes_update
    (ha : after (P.state b ||| bmLocked) (P.tag b) =
      .unlockBufHdrExt b (P.state b ||| bmLocked) u next) (hu : u.Lawful) (hp : u ≠ .pin) :
    ∃ w, Goes N hash (lone P (x.goto pc)) (lone (P.setState b w) (x.goto next)) ∧
      w.fields = u.fieldsAfter (P.state b).fields := by
  refine ⟨_, .head hc (exec_lockBufHdr hb) ?_, fields_relock hu hp⟩
  rw [ha]
  exact goes_unlockExt (state_setState_self ..) hp (setState_setState ..)

theorem goes_retag
    (ha : after (P.state b ||| bmLocked) (P.tag b) =
      .writeTag b t (.unlockBufHdrExt b (P.state b ||| bmLocked) u next))
    (hu : u.Lawful) (hp : u ≠ .pin) :
    ∃ w, Goes N hash (lone P (x.goto pc))
        (lone { P.setState b w with tag := update P.tag b t } (x.goto next)) ∧
      w.fields = u.fieldsAfter (P.state b).fields := by
  refine ⟨_, .head hc (exec_lockBufHdr hb) ?_, fields_relock hu hp⟩
  rw [ha]
  refine .head rfl rfl ?_
  refine goes_unlockExt (state_setState_self ..) hp ?_
  simp [Pool.setState]

theorem goes_relock
    (ha : after (P.state b ||| bmLocked) (P.tag b) = .unlockBufHdr b next) :
    ∃ w, Goes N hash (lone P (x.goto pc)) (lone (P.setState b w) (x.goto next)) ∧
      w.fields = (P.state b).fields := by
  refine ⟨(P.state b ||| bmLocked) - bmLocked, .head hc (exec_lockBufHdr hb) ?_, ?_⟩
  · rw [ha]
    refine .head rfl rfl ?_
    rw [state_setState_self, setState_setState]
    exact .refl _
  · have hl := fields_or_bmLocked (w := P.state b)
    have hset : (P.state b ||| bmLocked).fields.flags 0 = true := by
      rw [hl]
      simp
    rw [fields_sub_bmLocked hset, hl]
    simp only [update_idem]
    rw [← hb, update_eq_self]

end

theorem update_shared (hP : Calm P) (π : ℕ) :
    update (update P.shared π (() :: P.shared π)) π
      (List.filter (· ≠ ()) (update P.shared π (() :: P.shared π) π)) = P.shared := by
  simp [hP.shared]

theorem update_exclusive (hP : Calm P) (π : ℕ) :
    update (update P.exclusive π (some ())) π none = P.exclusive := by
  simp [hP.exclusive]

theorem goes_pinBuffer {strategy : Bool} {valid invalid : Pc V.Pc} (hx : x.refcount b = 0)
    (hl : (P.state b).fields.flags 0 = false) :
    Goes N hash (lone P (x.goto (.pinBuffer b strategy valid invalid)))
      (lone (P.setState b ((P.state b).pin strategy)) ((x.track b).goto
        (if ((P.state b).pin strategy).has bmValid then valid else invalid))) := by
  have hfree : (P.state b).has bmLocked = false := (has_bmLocked _).trans hl
  have hc : code N (x.goto (.pinLoop b strategy valid invalid (P.state b))) .go =
      some (.cas b (P.state b) (.pin strategy)
        (if ((P.state b).pin strategy).has bmValid then valid else invalid)
        (.pinLoop b strategy valid invalid)) := by
    simp only [code, Backend.goto, hfree, Bool.false_eq_true, if_false]
  refine .head rfl (exec_pinFirst_fresh hx) ?_
  exact .head hc exec_cas (.refl _)

theorem goes_hit (hP : Calm P) (ht : P.table r.tag = some b)
    (hx : x.refcount b = 0) (hl : (P.state b).fields.flags 0 = false)
    (hv : (P.state b).fields.flags 2 = true) (hr : (P.state b).getRefcount < maxBackends) :
    Goes N hash (lone P (x.goto (.bufferAlloc r)))
      (lone { P.setState b ((P.state b).pin r.strategy) with
          policy := ((V.notifyHit N).map fun f => f P.policy b).getD P.policy }
        ((x.track b).goto (.returned r b true))) := by
  have hvalid : ((P.state b).pin r.strategy).has bmValid = true := by
    rw [has_bmValid, fields_pin hr]
    exact hv
  refine .head rfl (exec_lookup_hit (hP.exclusive _) ht) ?_
  refine .trans (goes_pinBuffer ?_ ?_) ?_
  · exact hx
  · exact hl
  rw [if_pos hvalid]
  refine .head rfl rfl ?_
  refine .head rfl (exec_notify hP.strategyLock) ?_
  refine .of_eq ?_
  simp only [Pool.setState, update_shared hP]
  rfl

theorem goes_release (hx : x.refcount b = 1) (hw : (P.state b).fields.flags 7 = false) :
    Goes N hash (lone P (x.goto (.unpinBuffer b .idle)))
      (lone (P.setState b (P.state b - bufRefcountOne)) ((x.untrack b).goto .idle)) := by
  refine .head rfl (exec_unpin_last ?_ hw) (.refl _)
  exact hx

theorem locked_has {i : Fin 12} (hi : i ≠ 0) :
    (w ||| bmLocked).has (bufDefineFlag i) = w.fields.flags i := by
  rw [has_flag, fields_or_bmLocked]
  exact update_of_ne hi ..

variable (N hash) in
theorem goes_stayValid (hl : (P.state b).fields.flags 0 = false)
    (hv : (P.state b).fields.flags 2 = true) (hio : (P.state b).fields.flags 4 = false) :
    ∃ w, Goes N hash
        (lone P (x.goto (.startBufferIo b true (.terminateBufferIo b false bmValid .idle) .idle)))
        (lone (P.setState b w) (x.goto .idle)) ∧
      w.fields = (P.state b).fields := by
  refine goes_relock rfl hl ?_
  have hio' : (P.state b ||| bmLocked).has bmIoInProgress = false :=
    (locked_has (i := 4) (by decide)).trans hio
  have hv' : (P.state b ||| bmLocked).has bmValid = true :=
    (locked_has (i := 2) (by decide)).trans hv
  simp only [hio', hv', Bool.false_eq_true, if_false, if_true]

variable (N hash) in
theorem goes_makeValid (hl : (P.state b).fields.flags 0 = false)
    (hv : (P.state b).fields.flags 2 = false) (hio : (P.state b).fields.flags 4 = false) :
    ∃ w, Goes N hash
        (lone P (x.goto (.startBufferIo b true (.terminateBufferIo b false bmValid .idle) .idle)))
        (lone (P.setState b w) (x.goto .idle)) ∧
      w.fields = { (P.state b).fields with flags := madeValid (P.state b).fields.flags } := by
  have hio' : (P.state b ||| bmLocked).has bmIoInProgress = false :=
    (locked_has (i := 4) (by decide)).trans hio
  have hv' : (P.state b ||| bmLocked).has bmValid = false :=
    (locked_has (i := 2) (by decide)).trans hv
  have hstart : ∃ w, Goes N hash
      (lone P (x.goto (.startBufferIo b true (.terminateBufferIo b false bmValid .idle) .idle)))
      (lone (P.setState b w) (x.goto (.terminateBufferIo b false bmValid .idle))) ∧
      w.fields = (HdrUpdate.flags bmIoInProgress 0).fieldsAfter (P.state b).fields := by
    refine goes_update rfl hl ?_ (by decide) nofun
    simp only [hio', hv', Bool.false_eq_true, if_false, if_true]
  obtain ⟨v, hgo, hf⟩ := hstart
  have hend : ∃ w, Goes N hash
      (lone (P.setState b v) (x.goto (.terminateBufferIo b false bmValid .idle)))
      (lone ((P.setState b v).setState b w) (x.goto .idle)) ∧
      w.fields = (HdrUpdate.flags bmValid (bmIoInProgress ||| bmIoError ||| 0)).fieldsAfter
        ((P.setState b v).state b).fields := by
    refine goes_update rfl ?_ ?_ (by decide) nofun
    · rw [state_setState_self, hf]
      exact HdrUpdate.flagsAfter_locked (P.state b).fields.flags (.flags bmIoInProgress 0)
    · simp only [Bool.false_and, Bool.false_eq_true, if_false]
  obtain ⟨w, hgo', hf'⟩ := hend
  rw [setState_setState] at hgo'
  refine ⟨w, hgo.trans hgo', ?_⟩
  have h0 : ∀ i, (BufState.fields 0#64).flags i = false := by decide
  have hvalid : ∀ i, bmValid.fields.flags i = decide (i = 2) := by decide
  have hio : ∀ i, bmIoInProgress.fields.flags i = decide (i = 4) := by decide
  have hboth : ∀ i, (bmIoInProgress ||| bmIoError ||| 0).fields.flags i =
      decide (i = 4 ∨ i = 5) := by decide
  rw [hf', state_setState_self, hf]
  simp only [HdrUpdate.fieldsAfter, Fields.mk.injEq, true_and, and_true]
  funext i
  by_cases hi : i = 0
  · subst hi
    simp [HdrUpdate.flagsAfter, madeValid]
  · simp only [HdrUpdate.flagsAfter, update_of_ne hi, hvalid, hio, hboth, madeValid, hi]
    by_cases h2 : i = 2
    · subst h2
      simp [h0]
    · by_cases h4 : i = 4 <;> by_cases h5 : i = 5 <;> simp [h0, h2, h4, h5]

theorem goes_miss (hP : Calm P) (ht : P.table r.tag = none) (hr : r.strategy = false) :
    Goes N hash (lone P (x.goto (.bufferAlloc r)))
      (lone P (x.goto (.getBuffer (.alloc r) (V.getBuffer N)))) := by
  refine .head rfl (exec_lookup_miss (hP.exclusive _) ht) ?_
  refine .head (i := .goto _) ?_ rfl (.refl _)
  simp only [code, Backend.goto, VictimFor.strategy, hr, Bool.false_eq_true, if_false]

theorem goes_invalidate {yes no : Pc V.Pc} (hP : Calm P) (hl : (P.state b).fields.flags 0 = false)
    (hd : (P.state b).fields.flags 1 = false) (hr : (P.state b).fields.refcount = 1) :
    ∃ w, Goes N hash (lone P (x.goto (.invalidateVictimBuffer b yes no)))
        (lone { P.setState b w with
            tag := update P.tag b .clear
            table := update P.table (P.tag b) none } (x.goto yes)) ∧
      w.fields = HdrUpdate.clear.fieldsAfter (P.state b).fields := by
  have hd' : (P.state b ||| bmLocked).has bmDirty = false :=
    (locked_has (i := 1) (by decide)).trans hd
  have hr' : (P.state b ||| bmLocked).getRefcount = 1 :=
    (congrArg Fields.refcount fields_or_bmLocked).trans hr
  have hlock : ∃ w, Goes N hash
      (lone { P with exclusive := update P.exclusive (partition hash (P.tag b)) (some ()) }
        (x.goto (.lockVictim b (P.tag b) yes no)))
      (lone { (Pool.setState { P with
            exclusive := update P.exclusive (partition hash (P.tag b)) (some ()) } b w) with
          tag := update P.tag b .clear }
        (x.goto (.bufTableDelete (P.tag b) b (.lwRelease true (P.tag b) yes)))) ∧
      w.fields = HdrUpdate.clear.fieldsAfter (P.state b).fields := by
    refine goes_retag rfl hl ?_ trivial nofun
    simp only [hd', hr', ne_eq, not_true_eq_false, Bool.false_eq_true, or_self, if_false]
  obtain ⟨w, hgo, hf⟩ := hlock
  refine ⟨w, ?_, hf⟩
  refine .head rfl rfl ?_
  refine .head rfl (exec_lwExclusive (hP.exclusive _) (hP.shared _)) ?_
  refine .trans hgo ?_
  refine .head rfl rfl ?_
  refine .head rfl rfl ?_
  refine .of_eq ?_
  simp only [Pool.setState, update_exclusive hP]
  rfl

variable (N hash) in
theorem goes_install (hP : Calm P) (ht : P.table r.tag = none)
    (hl : (P.state b).fields.flags 0 = false) :
    ∃ w, Goes N hash (lone P (x.goto (.allocInsert r b)))
        (lone { P.setState b w with
            tag := update P.tag b r.tag
            table := update P.table r.tag (some b)
            policy := ((V.notifyInsert N).map fun f => f P.policy b).getD P.policy }
          (x.goto (.returned r b false))) ∧
      w.fields = (HdrUpdate.install r.tag r.permanent).fieldsAfter (P.state b).fields := by
  have hlock : ∃ w, Goes N hash
      (lone { P with
          exclusive := update P.exclusive (partition hash r.tag) (some ())
          table := update P.table r.tag (some b) }
        (x.goto (.lockInstall b r.tag r.permanent
          _)))
      (lone { (Pool.setState { P with
            exclusive := update P.exclusive (partition hash r.tag) (some ())
            table := update P.table r.tag (some b) } b w) with
          tag := update P.tag b r.tag }
        (x.goto (.lwRelease true r.tag (.notify .insert b (.returned r b false))))) ∧
      w.fields = (HdrUpdate.install r.tag r.permanent).fieldsAfter (P.state b).fields :=
    goes_retag rfl hl rfl trivial nofun
  obtain ⟨w, hgo, hf⟩ := hlock
  refine ⟨w, ?_, hf⟩
  refine .head rfl (exec_tableInsert_fresh (hP.exclusive _) (hP.shared _) ht) ?_
  refine .trans hgo ?_
  refine .head rfl rfl ?_
  refine .head rfl (exec_notify hP.strategyLock) ?_
  refine .of_eq ?_
  simp only [Pool.setState, update_exclusive hP]
  rfl

/-- `get_buffer` of a list policy does in the pool what it does on the headers alone. -/
theorem goes_getBuffer (L : V.ListPolicy N) {k : VictimFor} (hk : k.strategy = false) {n : ℕ}
    {g : V.Pc} (hi : iterate (V.soloStep N) n (⟨P.policy, P.state⟩, g) = some ⟨m, .ok b⟩)
    (hinv : L.Inv P.policy) (hat : L.locked g = true → L.At P.policy g)
    (hlock : P.strategyLock = if L.locked g then some () else none) :
    Goes N hash (lone P (x.goto (.getBuffer k g)))
      (lone { P with policy := m.policy, state := m.headers, strategyLock := none }
        ((x.track b).goto (.gotVictim k b (m.headers b) false))) := by
  induction n generalizing P g with
  | zero => exact nomatch hi
  | succ n ih =>
    have hkeeps := L.code_keeps hinv hat
    have hexec : exec N hash () P (x.goto (.getBuffer k g)) (.policy k g) =
        execGet () P (x.goto (.getBuffer k g)) k (V.code N P.policy g) := rfl
    have hfree := L.acquire_iff (s := P.policy) (g := g)
    rw [iterate, EvictionVtable.soloStep] at hi
    generalize V.code N P.policy g = i at hi hkeeps hexec hfree
    -- outside `acquire` the lock is held
    have hheld (hc : ∀ next, i ≠ .acquire next) : P.strategyLock = some () := by
      refine hlock.trans (if_pos (Bool.eq_true_of_not_eq_false fun hf => ?_))
      obtain ⟨next, hn⟩ := hfree.mp hf
      exact hc next hn
    have hgo {Q : Pool V Unit} {g' : V.Pc} (hQ : L.Inv Q.policy) (hg : L.At Q.policy g')
        (hl : Q.strategyLock = some ())
        (hi : iterate (V.soloStep N) n (⟨Q.policy, Q.state⟩, g') = some ⟨m, .ok b⟩) :
        Goes N hash (lone Q (x.goto (.getBuffer k g')))
          (lone { Q with policy := m.policy, state := m.headers, strategyLock := none }
            ((x.track b).goto (.gotVictim k b (m.headers b) false))) :=
      ih hi hQ (fun _ => hg) (by rw [if_pos (L.locked_of_at hg), hl])
    cases i with
    | acquire next =>
      rw [hfree.mpr ⟨next, rfl⟩] at hlock
      refine .head rfl (hexec.trans (if_pos hlock)) ?_
      exact hgo (Q := { P with strategyLock := some () }) hinv (hkeeps P.policy hinv) rfl hi
    | update s' next =>
      refine .head rfl hexec ?_
      exact hgo (Q := { P with policy := s' }) hkeeps.1 hkeeps.2.1 (hheld (by simp)) hi
    | load c next => exact .head rfl hexec (hgo hinv (hkeeps _) (hheld (by simp)) hi)
    | await c next =>
      simp only [GetInstr.solo] at hi
      split at hi
      · rename_i hw
        split at hw
        · cases hw
          exact ih hi hinv hat hlock
        · rename_i hl
          cases hw
          exact .head rfl (hexec.trans (if_neg hl)) (hgo hinv (hkeeps _) (hheld (by simp)) hi)
      · rename_i hw
        split at hw <;> cases hw
    | cas c old new ok fail =>
      simp only [GetInstr.solo] at hi
      by_cases ho : P.state c = old
      · rw [if_pos ho] at hi
        refine .head rfl (hexec.trans (if_pos ho)) ?_
        exact hgo (Q := { P.setState c new with policy := ok.1 }) hkeeps.1.1 hkeeps.1.2.1
          (hheld (by simp)) hi
      · rw [if_neg ho] at hi
        have hf := hkeeps.2 (P.state c)
        refine .head rfl (hexec.trans (if_neg ho)) ?_
        exact hgo (Q := { P with policy := (fail (P.state c)).1 }) hf.1 hf.2.1 (hheld (by simp)) hi
    | claim c old s' fail =>
      simp only [GetInstr.solo] at hi
      by_cases ho : P.state c = old
      · rw [if_pos ho] at hi
        cases hi
        refine .head rfl (hexec.trans (if_pos ho)) (.of_eq ?_)
        simp [lone, Pool.setState, Pool.releaseStrategy, hheld, hk, Backend.goto, Backend.track]
      · rw [if_neg ho] at hi
        refine .head rfl (hexec.trans (if_neg ho)) ?_
        exact hgo hinv (hkeeps.2.2.2 (P.state c)) (hheld (by simp)) hi
    | raise s' message => simp [GetInstr.solo] at hi

/-- A backend between two operations, without pins. -/
def Ring.resting (ring : Ring) : Backend V := ⟨.idle, fun _ => 0, ring⟩

theorem run_op (op : Op) {pc : Pc V.Pc} (hc : code N x (.start op) = some (.goto pc))
    (h : Goes N hash (lone P (x.goto pc)) t) :
    ∃ n, run (step N hash) (lone P x) (op.steps () n) = some t := by
  obtain ⟨n, hn⟩ := h
  exact ⟨n, run_cons_eq_some_iff.mpr ⟨_, step_lone hc rfl, hn⟩⟩

theorem accesses_of_goes {ring : Ring} {found : Bool} {Q : Pool V Unit}
    (hread : Goes N hash (lone P (ring.resting.goto (.bufferAlloc r)))
      (lone Q ((ring.resting.track b).goto (.returned r b found))))
    (hvalid : Goes N hash (lone Q ((ring.resting.track b).goto
        (.startBufferIo b true (.terminateBufferIo b false bmValid .idle) .idle)))
      (lone (Q.setState b w) ((ring.resting.track b).goto .idle)))
    (hw : w.fields.flags 7 = false) :
    Accesses N hash (lone P ring.resting) r b found
      (lone (Q.setState b (w - bufRefcountOne)) ring.resting) := by
  have hone : (((ring.resting : Backend V).track b).goto .idle).refcount b = 1 := by
    simp [Backend.goto, Ring.resting]
  have hpos := hone ▸ Nat.one_pos
  have hrel : Goes N hash
      (lone (Q.setState b w) (((ring.resting : Backend V).track b).goto (.unpinBuffer b .idle)))
      (lone (Q.setState b (w - bufRefcountOne)) ring.resting) := by
    refine .trans (goes_release ?_ ?_) (.of_eq ?_)
    · exact hone
    · rwa [state_setState_self]
    · simp [lone, Backend.untrack, Backend.track, Backend.goto, Ring.resting]
  obtain ⟨i, hi⟩ := run_op (.read r) rfl hread
  obtain ⟨j, hj⟩ := run_op (.makeValid b) (x := ((ring.resting : Backend V).track b).goto .idle)
    (by simp only [code, Backend.goto] at hpos ⊢; exact if_pos hpos) hvalid
  obtain ⟨k, hk⟩ := run_op (.release b) (x := ((ring.resting : Backend V).track b).goto .idle)
    (by simp only [code, Backend.goto] at hpos ⊢; exact if_pos hpos) hrel
  refine ⟨i, j, k, _, lone (Q.setState b w) _, hi, rfl, ?_, rfl,
    hk, rfl⟩
  exact run_cons_eq_some_iff.mpr ⟨_, step_lone rfl rfl, hj⟩

/-- A header that nobody uses: unpinned, unlocked, clean, and with no input or waiter. -/
structure Fields.AtRest (f : Fields) : Prop where
  refcount : f.refcount = 0
  locked : f.flags 0 = false
  dirty : f.flags 1 = false
  io : f.flags 4 = false
  waiter : f.flags 7 = false

variable (N hash) in
theorem accesses_hit (ring : Ring) (hP : Calm P) (ht : P.table a.1 = some b)
    (hf : (P.image.fields b).AtRest) (hv : (P.image.fields b).flags 2 = true) :
    ∃ P', Accesses N hash (lone P ring.resting) (request a) b true (lone P' ring.resting) ∧
      Calm P' ∧ P'.image = { P.image with
        fields := update P.image.fields b
          { P.image.fields b with usagecount := ((P.image.fields b).pin false).usagecount }
        policy := ((V.notifyHit N).map fun f => f P.policy b).getD P.policy } := by
  have hlt : (P.state b).getRefcount < maxBackends := lt_of_eq_of_lt hf.refcount (by decide)
  let Q : Pool V Unit := { P.setState b ((P.state b).pin false) with
    policy := ((V.notifyHit N).map fun f => f P.policy b).getD P.policy }
  have hread : Goes N hash (lone P (ring.resting.goto (.bufferAlloc (request a))))
      (lone Q ((ring.resting.track b).goto (.returned (request a) b true))) :=
    goes_hit hP ht rfl hf.locked hv hlt
  have hQ : (Q.state b).fields = (P.image.fields b).pin false := by
    have hstate : Q.state b = (P.state b).pin false := state_setState_self P b _
    rw [hstate]
    exact fields_pin hlt false
  have hl : (Q.state b).fields.flags 0 = false := by rw [hQ]; exact hf.locked
  have hv' : (Q.state b).fields.flags 2 = true := by rw [hQ]; exact hv
  have hio : (Q.state b).fields.flags 4 = false := by rw [hQ]; exact hf.io
  obtain ⟨w, hvalid, hw⟩ := goes_stayValid N hash (x := ring.resting.track b) hl hv' hio
  rw [hQ] at hw
  refine ⟨_, accesses_of_goes hread hvalid (by rw [hw]; exact hf.waiter), ⟨hP.1, hP.2, hP.3⟩, ?_⟩
  have hone : w.getRefcount = 1 := by
    have hrc : w.getRefcount = (P.image.fields b).refcount + 1 := congrArg Fields.refcount hw
    rw [hrc, hf.refcount]
  rw [image_setState, fields_sub_refcountOne (hone ▸ Nat.one_pos), hw]
  have himage : Q.image = { (P.setState b ((P.state b).pin false)).image with
      policy := ((V.notifyHit N).map fun f => f P.policy b).getD P.policy } := rfl
  rw [himage, image_setState]
  simp only [update_idem, Fields.pin, hf.refcount, hone, Nat.sub_self]

variable (N hash) in
theorem goes_reclaim (hP : Calm P) (hl : (P.state b).fields.flags 0 = false)
    (hd : (P.state b).fields.flags 1 = false) (hr : (P.state b).fields.refcount = 1)
    (hempty : (P.state b).fields.flags 3 = false →
      (P.state b).fields.usagecount = 0 ∧ (P.state b).fields.flags = fun _ => false) :
    ∃ w t, Goes N hash (lone P (x.goto (.gotVictim (.alloc r) b (P.state b) false)))
        (lone { P.setState b w with
            tag := update P.tag b t
            table := if (P.state b).fields.flags 3 then update P.table (P.tag b) none
              else P.table } (x.goto (.allocInsert r b))) ∧
      w.fields = HdrUpdate.clear.fieldsAfter (P.state b).fields := by
  have hclean : (P.state b).has bmDirty = false := (has_bmDirty _).trans hd
  have hgot : code N (x.goto (.gotVictim (.alloc r) b (P.state b) false)) .go =
      some (.goto (.afterFlush (.alloc r) b (P.state b))) := by
    simp only [code, Backend.goto, hclean, Bool.false_eq_true, if_false]
  by_cases ht : (P.state b).fields.flags 3 = true
  · have hafter : (Pc.afterFlush (.alloc r) b (P.state b) : Pc V.Pc) =
        .invalidateVictimBuffer b (.allocInsert r b) (.giveUp (.alloc r) b) :=
      if_pos ((has_bmTagValid _).trans ht)
    simp only [ht, if_true]
    obtain ⟨w, hgo, hw⟩ : ∃ w, Goes N hash
        (lone P (x.goto (.invalidateVictimBuffer b (.allocInsert r b) (.giveUp (.alloc r) b))))
        (lone { P.setState b w with
            tag := update P.tag b .clear
            table := update P.table (P.tag b) none } _) ∧
        w.fields = HdrUpdate.clear.fieldsAfter (P.state b).fields :=
      goes_invalidate hP hl hd hr
    exact ⟨w, .clear, .head hgot rfl (hafter ▸ hgo), hw⟩
  · have ht' : (P.state b).fields.flags 3 = false := Bool.eq_false_of_not_eq_true ht
    have hafter : (Pc.afterFlush (.alloc r) b (P.state b) : Pc V.Pc) = .allocInsert r b :=
      if_neg (by rw [has_bmTagValid, ht']; exact Bool.false_ne_true)
    refine ⟨P.state b, P.tag b, .head hgot rfl (.of_eq ?_), ?_⟩
    · rw [hafter, if_neg ht]
      simp [Pool.setState, lone]
      rfl
    · obtain ⟨hu, hflags⟩ := hempty ht'
      simp only [HdrUpdate.fieldsAfter, HdrUpdate.flagsAfter, ← hu, ← hflags]

theorem flagsAfter_install (t : BufferTag) (permanent : Bool) (i : Fin 12) :
    (HdrUpdate.install t permanent).flagsAfter (fun _ => false) i =
      (decide (i = 3) || permanent && decide (i = 9)) := by
  have h : ∀ (permanent : Bool) (i : Fin 12),
      (HdrUpdate.install .clear permanent).flagsAfter (fun _ => false) i =
        (decide (i = 3) || permanent && decide (i = 9)) := by decide
  exact h permanent i

theorem madeValid_install (t : BufferTag) (permanent : Bool) :
    madeValid ((HdrUpdate.install t permanent).flagsAfter fun _ => false) =
      fun i => decide (i = 2) || decide (i = 3) || permanent && decide (i = 9) := by
  funext i
  rw [madeValid, flagsAfter_install]
  revert i
  cases permanent <;> decide

variable (hash) in
theorem accesses_miss (L : V.ListPolicy N) (ring : Ring) (hP : Calm P) (ht : P.table a.1 = none)
    (hinv : L.Inv P.policy) (hi : V.GetsBuffer N ⟨P.policy, P.state⟩ ⟨m, .ok b⟩)
    (hl : (m.headers b).fields.flags 0 = false) (hd : (m.headers b).fields.flags 1 = false)
    (hr : (m.headers b).fields.refcount = 1) (hempty : (m.headers b).fields.flags 3 = false →
      (m.headers b).fields.usagecount = 0 ∧ (m.headers b).fields.flags = fun _ => false) :
    ∃ P', Accesses N hash (lone P ring.resting) (request a) b false (lone P' ring.resting) ∧
      Calm P' ∧ P'.image = {
        tag := update P.tag b a.1
        fields := update (fun c => (m.headers c).fields) b
          ((m.headers b).fields.loaded a.2)
        table := update (if (m.headers b).fields.flags 3
          then update P.table (P.tag b) none else P.table) a.1 (some b)
        policy := ((V.notifyInsert N).map fun f => f m.policy b).getD m.policy } := by
  obtain ⟨n, hi⟩ := hi
  let P₁ : Pool V Unit := { P with policy := m.policy, state := m.headers, strategyLock := none }
  have hP₁ : Calm P₁ := ⟨hP.1, hP.2, rfl⟩
  have hget : Goes N hash (lone P (ring.resting.goto (.bufferAlloc (request a))))
      (lone P₁ ((ring.resting.track b).goto
        (.gotVictim (.alloc (request a)) b (m.headers b) false))) := by
    refine .trans (goes_miss hP ht rfl) ?_
    refine goes_getBuffer L rfl hi hinv (fun h => ?_) ?_
    · rw [L.locked_entry] at h
      cases h
    · rw [L.locked_entry]
      exact hP.strategyLock
  obtain ⟨w₁, t, hreclaim, hw₁⟩ := goes_reclaim N hash (x := ring.resting.track b)
    (r := request a) hP₁ hl hd hr hempty
  let P₂ : Pool V Unit := { P₁.setState b w₁ with
    tag := update P.tag b t
    table := if (m.headers b).fields.flags 3 then update P.table (P.tag b) none
      else P.table }
  have hP₂ : Calm P₂ := ⟨hP.1, hP.2, rfl⟩
  have ht₂ : P₂.table a.1 = none := by
    simp only [P₂]
    split
    · simp [update_apply, ht]
    · exact ht
  have hw₂ : P₂.state b = w₁ := state_setState_self ..
  obtain ⟨w₃, hinstall, hw₃⟩ := goes_install N hash (x := ring.resting.track b)
    (r := request a) (P := P₂) hP₂ ht₂ (by rw [hw₂, hw₁]; rfl)
  rw [hw₂, hw₁] at hw₃
  let Q : Pool V Unit := { P₂.setState b w₃ with
    tag := update P₂.tag b a.1
    table := update P₂.table a.1 (some b)
    policy := ((V.notifyInsert N).map fun f => f m.policy b).getD m.policy }
  have hQ : Q.state b = w₃ := state_setState_self ..
  have hflags : w₃.fields.flags = (HdrUpdate.install a.1 a.2).flagsAfter fun _ => false := by
    rw [hw₃]
    rfl
  obtain ⟨w, hvalid, hw⟩ := goes_makeValid N hash (x := ring.resting.track b) (P := Q) (b := b)
    (by rw [hQ, hflags, HdrUpdate.flagsAfter_locked])
    (by rw [hQ, hflags, flagsAfter_install]; simp)
    (by rw [hQ, hflags, flagsAfter_install]; simp)
  rw [hQ, hflags, madeValid_install] at hw
  have hone : w.getRefcount = 1 := by
    have hrc : w.getRefcount = w₃.fields.refcount := congrArg Fields.refcount hw
    rw [hrc, hw₃]
    exact hr
  have hread : Goes N hash (lone P (ring.resting.goto (.bufferAlloc (request a))))
      (lone Q ((ring.resting.track b).goto (.returned (request a) b false))) :=
    (hget.trans hreclaim).trans hinstall
  refine ⟨_, accesses_of_goes hread hvalid (by rw [hw]; simp), ⟨hP.1, hP.2, rfl⟩, ?_⟩
  have himage : Q.image = { (P₂.setState b w₃).image with
      tag := update P₂.tag b a.1
      table := update P₂.table a.1 (some b)
      policy := ((V.notifyInsert N).map fun f => f m.policy b).getD m.policy } := rfl
  have himage₂ : P₂.image = { (P₁.setState b w₁).image with
      tag := update P.tag b t
      table := P₂.table } := rfl
  rw [image_setState, fields_sub_refcountOne (hone ▸ Nat.one_pos), hw, himage, image_setState,
    himage₂, image_setState]
  simp only [update_idem, hw₃, HdrUpdate.fieldsAfter, hone, P₂, Nat.sub_self]
  rfl

end Lone

end PostgreSieve
