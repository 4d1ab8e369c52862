import PostgreSieve.Pool.Solo

/-! # Traces of page accesses

The pool of a lone backend is a cache: each page it holds has a slot, and the slots
that have never held a page are the last ones. An access is simulated by an access
to a textbook cache, and so is a whole trace. For LRU the textbook cache is the list
of pages in the order of their last accesses.
-/

namespace PostgreSieve

open Function List

section Plays

variable {V : EvictionVtable} {N : ℕ} {hash : BufferTag → ℕ} {σ : Type}
variable {R : Image V.State → σ → Prop} {access : σ → BufferTag → Outcome BufferTag × σ}

/-- Every access in a state related to `c` has the outcome of the access to `c`, and the states
after it are related. -/
def Simulates (V : EvictionVtable) (N : ℕ) (hash : BufferTag → ℕ) (R : Image V.State → σ → Prop)
    (access : σ → BufferTag → Outcome BufferTag × σ) : Prop :=
  ∀ (ring : Ring) (P : Pool V Unit) (c : σ) (a : BufferTag × Bool), Calm P → R P.image c →
    ∃ b found P', Accesses N hash (lone P ring.resting) (request a) b found (lone P' ring.resting) ∧
      (lone P ring.resting).outcome b found = (access c a.1).1 ∧
      Calm P' ∧ R P'.image (access c a.1).2

variable {ring : Ring} {P : Pool V Unit} {c : σ}

theorem Simulates.plays (h : Simulates V N hash R access) (as : List (BufferTag × Bool))
    (hP : Calm P) (hR : R P.image c) :
    Plays N hash (lone P ring.resting) as (outcomes access c (as.map Prod.fst)) := by
  induction as generalizing P c with
  | nil => rfl
  | cons a as ih =>
    obtain ⟨b, found, P', hacc, hout, hP', hR'⟩ := h ring P c a hP hR
    refine ⟨b, found, _, _, hacc, ?_, ih hP' hR'⟩
    rw [hout]
    rfl

/-- The outcomes of a trace are those of the simulating cache, and no others. -/
theorem Simulates.plays_iff (h : Simulates V N hash R access) {as : List (BufferTag × Bool)}
    {os : List (Outcome BufferTag)} (hP : Calm P) (hR : R P.image c) :
    Plays N hash (lone P ring.resting) as os ↔ os = outcomes access c (as.map Prod.fst) := by
  constructor
  · intro ho
    exact ho.unique (h.plays as hP hR)
  · rintro rfl
    exact h.plays as hP hR

end Plays

/-! ## The pool as a cache -/

/-- Nothing but the usage count has changed, and it has not grown. -/
def Fields.Aged (f f' : Fields) : Prop := ∃ u ≤ f.usagecount, f' = { f with usagecount := u }

theorem fields_claimed {w : BufState} (hr : w.fields.refcount = 0) :
    (w + bufRefcountOne).fields = { w.fields with refcount := 1 } := by
  have hr' : w.getRefcount = 0 := hr
  rw [fields_add_refcountOne (by rw [hr']; decide), hr']

/-- The pool holds the pages `es`, each in its slot, and the slots behind them are unused. -/
structure Cached {σ : Type} (N : ℕ) (I : Image σ) (es : List (BufferTag × ℕ)) : Prop where
  slots : (es.map Prod.snd).Perm (List.range es.length)
  le : es.length ≤ N
  page : ∀ e ∈ es, I.tag e.2 = e.1 ∧ (I.fields e.2).AtRest ∧
    (I.fields e.2).flags 2 = true ∧ (I.fields e.2).flags 3 = true
  unused : ∀ b, es.length ≤ b → (I.fields b).refcount = 0 ∧ (I.fields b).usagecount = 0 ∧
    (I.fields b).flags = fun _ => false
  table : ∀ t b, I.table t = some b ↔ (t, b) ∈ es

namespace Cached

variable {σ : Type} {N b : ℕ} {I : Image σ} {es rest : List (BufferTag × ℕ)} {e : BufferTag × ℕ}
variable {p : BufferTag} {q : σ} {permanent : Bool} {F : ℕ → Fields}

theorem boot {V : EvictionVtable} : Cached N (boot V Unit N).pool.image [] where
  slots := .refl _
  le := Nat.zero_le N
  page := nofun
  unused _ _ := by
    have h : (BufState.fields 0).refcount = 0 ∧ (BufState.fields 0).usagecount = 0 ∧
        ∀ i, (BufState.fields 0).flags i = false := by decide
    exact ⟨h.1, h.2.1, funext h.2.2⟩
  table _ _ := by simp [PostgreSieve.boot, Pool.image]

section

variable (h : Cached N I es)
include h

theorem nodup : (es.map Prod.snd).Nodup :=
  h.slots.nodup_iff.mpr nodup_range

theorem slot_lt (he : e ∈ es) : e.2 < es.length := by
  have hm : e.2 ∈ List.range es.length := h.slots.subset (mem_map_of_mem he)
  exact mem_range.mp hm

theorem slot_inj {e' : BufferTag × ℕ} (he : e ∈ es) (he' : e' ∈ es)
    (hs : e.2 = e'.2) : e = e' := inj_on_of_nodup_map h.nodup he he' hs

theorem perm (hp : es.Perm rest) : Cached N I rest where
  slots := by
    rw [← hp.length_eq]
    exact (hp.map _).symm.trans h.slots
  le := hp.length_eq ▸ h.le
  page e he := h.page e (hp.mem_iff.mpr he)
  unused b hb := h.unused b (hp.length_eq ▸ hb)
  table t b := (h.table t b).trans hp.mem_iff

theorem table_eq_none (hp : es.find? (·.1 = p) = none) : I.table p = none := by
  rw [Option.eq_none_iff_forall_ne_some]
  intro b hb
  have := List.find?_eq_none.mp hp _ ((h.table p b).mp hb)
  simp at this

theorem table_eq_some (hp : es.find? (·.1 = p) = some e) :
    e ∈ es ∧ I.table p = some e.2 := by
  have he := mem_of_find?_eq_some hp
  have h1 : e.1 = p := by simpa using List.find?_some hp
  exact ⟨he, (h.table p e.2).mpr (h1 ▸ he)⟩

theorem use (he : e ∈ es) (u : ℕ) :
    Cached N { I with
      fields := update I.fields e.2 { I.fields e.2 with usagecount := u }
      policy := q } es where
  slots := h.slots
  le := h.le
  page e' he' := by
    obtain ⟨ht, ha, hv, hg⟩ := h.page e' he'
    refine ⟨ht, ?_⟩
    by_cases hs : e'.2 = e.2
    · simp only [hs, update_self]
      rw [hs] at ha hv hg
      exact ⟨⟨ha.1, ha.2, ha.3, ha.4, ha.5⟩, hv, hg⟩
    · simp only [update_of_ne hs]
      exact ⟨ha, hv, hg⟩
  unused b hb := by
    have hs : b ≠ e.2 := by
      have := h.slot_lt he
      omega
    simp only [update_of_ne hs]
    exact h.unused b hb
  table := h.table

end

theorem loaded_atRest (f : Fields) : (f.loaded permanent).AtRest := by
  cases permanent <;> exact ⟨rfl, rfl, rfl, rfl, rfl⟩

theorem load (h : Cached N I es) (hrest : rest ⊆ es) (hb : b ∉ rest.map Prod.snd)
    (hF : ∀ c, c ≠ b → (I.fields c).Aged (F c)) (e : BufferTag × ℕ) (he : e ∈ rest ++ [(p, b)]) :
    update I.tag b p e.2 = e.1 ∧
      (update F b ((F b).loaded permanent) e.2).AtRest ∧
      (update F b ((F b).loaded permanent) e.2).flags 2 = true ∧
      (update F b ((F b).loaded permanent) e.2).flags 3 = true := by
  rcases mem_append.mp he with he | he
  · obtain ⟨ht, ha, hv, hg⟩ := h.page e (hrest he)
    have hs : e.2 ≠ b := fun hs => hb (hs ▸ mem_map_of_mem he)
    obtain ⟨u, -, hu⟩ := hF e.2 hs
    simp only [update_of_ne hs, hu]
    exact ⟨ht, ⟨ha.1, ha.2, ha.3, ha.4, ha.5⟩, hv, hg⟩
  · obtain rfl := mem_singleton.mp he
    simp only [update_self]
    exact ⟨trivial, loaded_atRest _, by simp [Fields.loaded], by simp [Fields.loaded]⟩

theorem load_unused (h : Cached N I es) (hF : ∀ c, c ≠ b → (I.fields c).Aged (F c)) {f : Fields}
    {c : ℕ} (hc : es.length ≤ c) (hcb : c ≠ b) : (update F b f c).refcount = 0 ∧
      (update F b f c).usagecount = 0 ∧ (update F b f c).flags = fun _ => false := by
  obtain ⟨hr, hu, hf⟩ := h.unused c hc
  obtain ⟨u, hle, he⟩ := hF c hcb
  simp only [update_of_ne hcb, he]
  exact ⟨hr, by omega, hf⟩

theorem fill (h : Cached N I es) (hb : b = es.length) (hlt : b < N) (hp : I.table p = none)
    (hF : ∀ c, c ≠ b → (I.fields c).Aged (F c)) :
    Cached N ⟨update I.tag b p, update F b ((F b).loaded permanent),
      update I.table p (some b), q⟩ (es ++ [(p, b)]) where
  slots := by
    rw [map_append, length_append, length_singleton, range_succ, hb]
    exact h.slots.append_right _
  le := by
    rw [length_append, ← hb]
    exact hlt
  page := h.load (List.Subset.refl _) (fun hm => by simpa [hb] using h.slots.subset hm) hF
  unused c hc := by
    simp only [length_append, length_singleton] at hc
    exact h.load_unused hF (by omega) (by omega)
  table t c := by
    by_cases ht : t = p
    · subst ht
      have hnot : (t, c) ∉ es := fun hm => by simp [(h.table t c).mpr hm] at hp
      simp [hnot, eq_comm]
    · simp [h.table, ht]

theorem replace (h : Cached N I (e :: rest)) (hp : I.table p = none)
    (hF : ∀ c, c ≠ e.2 → (I.fields c).Aged (F c)) :
    Cached N ⟨update I.tag e.2 p, update F e.2 ((F e.2).loaded permanent),
      update (update I.table e.1 none) p (some e.2), q⟩
      (rest ++ [(p, e.2)]) where
  slots := by
    have hs : ((rest ++ [(p, e.2)]).map Prod.snd).Perm ((e :: rest).map Prod.snd) := by
      simp
    simpa using hs.trans h.slots
  le := by simpa using h.le
  page := h.load (subset_cons_self e rest) (nodup_cons.mp h.nodup).1 hF
  unused b hb := by
    have hlt := h.slot_lt (mem_cons_self (a := e) (l := rest))
    have hb' : (e :: rest).length ≤ b := by simpa using hb
    exact h.load_unused hF hb' (by omega)
  table t b := by
    have hnot : ∀ b, (p, b) ∉ e :: rest := fun b hm => by simp [(h.table p b).mpr hm] at hp
    by_cases ht : t = p
    · simp_all [eq_comm]
    · by_cases he : t = e.1
      · subst he
        have hgone : (e.1, b) ∉ rest := by
          intro hm
          have hb := (h.table e.1 b).mpr (mem_cons_of_mem e hm)
          rw [(h.table e.1 e.2).mpr mem_cons_self] at hb
          have hs : e.2 ∉ rest.map Prod.snd := (nodup_cons.mp h.nodup).1
          exact hs (mem_map.mpr ⟨_, hm, (Option.some.inj hb).symm⟩)
        simp [hgone, ht]
      · have hne : (t, b) ≠ e := fun hm => he (hm ▸ rfl)
        simp [update_of_ne he, h.table, ht, hne]

end Cached

/-! ## LRU -/

namespace Lru

variable {N b : ℕ} {s : State} {l : List ℕ} {c : List (BufferTag × ℕ)} {H : ℕ → BufState}

/-- `LRUGetBuffer` takes the least recently used buffer if it is neither pinned nor locked. -/
theorem getsBuffer (h : Queued N s (b :: l)) (hl : (H b).fields.flags 0 = false)
    (hr : (H b).fields.refcount = 0) : vtable.GetsBuffer N ⟨s, H⟩
      ⟨⟨unlink N s b, update H b (H b + bufRefcountOne)⟩, .ok b⟩ := by
  have hb : s.links.prev N = b := h.marked.prev_oldest
  have hne : b ≠ N := (h.lt b mem_cons_self).ne
  have hl' : (H b).has bmLocked = false := (has_bmLocked _).trans hl
  have hr' : (H b).getRefcount = 0 := hr
  refine ⟨3, ?_⟩
  simp [iterate, EvictionVtable.soloStep, vtable, code, GetInstr.solo, hb, hne, hl', hr']

/-- The pool holds the pages of `c`, and the list has the unused buffers before them. -/
structure Mirrors (N : ℕ) (I : Image State) (c : List (BufferTag × ℕ)) : Prop where
  cached : Cached N I c
  queued : Queued N I.policy (List.range' c.length (N - c.length) ++ c.map Prod.snd)

theorem Mirrors.boot (hN : 0 < N) : Mirrors N (boot vtable Unit N).pool.image [] where
  cached := .boot
  queued := by
    rw [length_nil, Nat.sub_zero, map_nil, append_nil, ← range_eq_range']
    exact .of_init hN

section Access

variable {hash : BufferTag → ℕ} {P : Pool vtable Unit} {ring : Ring} {a : BufferTag × Bool}
variable {e : BufferTag × ℕ}

theorem erase_slot {c₁ c₂ : List (BufferTag × ℕ)} (hnd : ((c₁ ++ e :: c₂).map Prod.snd).Nodup) :
    (c₁ ++ e :: c₂).erase e = c₁ ++ c₂ ∧
      ((c₁ ++ e :: c₂).map Prod.snd).erase e.2 = (c₁ ++ c₂).map Prod.snd := by
  have hs : e.2 ∉ c₁.map Prod.snd := by
    rw [map_append, map_cons, nodup_middle, nodup_cons] at hnd
    exact fun hm => hnd.1 (mem_append_left _ hm)
  have he : e ∉ c₁ := fun hm => hs (mem_map_of_mem hm)
  constructor
  · rw [erase_append_right _ he, erase_cons_head]
  · rw [map_append, map_cons, erase_append_right _ hs, erase_cons_head,
      map_append]

theorem Mirrors.hit (h : Mirrors N P.image c) (hP : Calm P) (hf : c.find? (·.1 = a.1) = some e) :
    ∃ P', Accesses N hash (lone P ring.resting) (request a) e.2 true (lone P' ring.resting) ∧
      Calm P' ∧ Mirrors N P'.image (c.erase e ++ [e]) := by
  obtain ⟨he, ht⟩ := h.cached.table_eq_some hf
  obtain ⟨-, hrest, hv, -⟩ := h.cached.page e he
  obtain ⟨P', hacc, hP', himage⟩ := accesses_hit N hash ring hP ht hrest hv
  obtain ⟨-, c₁, c₂, rfl, -⟩ := List.find?_eq_some_iff_append.mp hf
  obtain ⟨herase, hslots⟩ := erase_slot h.cached.nodup
  refine ⟨P', hacc, hP', ?_, ?_⟩
  · rw [himage]
    refine (h.cached.use he _).perm ?_
    exact (perm_cons_erase he).trans (perm_append_singleton e _).symm
  · have hnew : P'.image.policy = notifyHit N P.policy e.2 := by rw [himage]; rfl
    have hlen : ((c₁ ++ e :: c₂).erase e ++ [e]).length = (c₁ ++ e :: c₂).length := by
      rw [herase]
      simp
    have hfree : e.2 ∉ List.range' (c₁ ++ e :: c₂).length (N - (c₁ ++ e :: c₂).length) := by
      have hlt := h.cached.slot_lt he
      intro hm
      have := (mem_range'_1.mp hm).1
      omega
    have hq := h.queued.notifyHit (mem_append_right _ (mem_map_of_mem he))
    rw [erase_append_right _ hfree, hslots, append_assoc] at hq
    rw [hnew, hlen, herase, map_append]
    exact hq

theorem accesses_victim (hN : 0 < N) (hP : Calm P) (ht : P.table a.1 = none)
    (hq : Queued N P.policy (b :: l)) (hr : (P.image.fields b).refcount = 0)
    (hl : (P.image.fields b).flags 0 = false) (hd : (P.image.fields b).flags 1 = false)
    (hempty : (P.image.fields b).flags 3 = false →
      (P.image.fields b).usagecount = 0 ∧ (P.image.fields b).flags = fun _ => false) :
    ∃ P', Accesses N hash (lone P ring.resting) (request a) b false (lone P' ring.resting) ∧
      Calm P' ∧ ∃ q, Queued N q (l ++ [b]) ∧ P'.image = {
        tag := update P.tag b a.1
        fields := update P.image.fields b ((P.image.fields b).loaded a.2)
        table := update (if (P.image.fields b).flags 3
          then update P.table (P.tag b) none else P.table) a.1 (some b)
        policy := q } := by
  have hfields : (P.state b + bufRefcountOne).fields = { P.image.fields b with refcount := 1 } :=
    fields_claimed hr
  have hhead : update P.state b (P.state b + bufRefcountOne) b =
      P.state b + bufRefcountOne := update_self ..
  obtain ⟨P', hacc, hP', himage⟩ := accesses_miss hash (listPolicy N hN) ring (a := a) hP ht ⟨_, hq⟩
    (getsBuffer hq hl hr) (by simpa only [hhead, hfields] using hl)
    (by simpa only [hhead, hfields] using hd) (by simp only [hhead, hfields])
    (by simpa only [hhead, hfields] using hempty)
  have hq' : Queued N (notifyInsert N (unlink N P.policy b) b) (l ++ [b]) := by
    have hins := (hq.unlink mem_cons_self).notifyInsert (hq.lt b mem_cons_self)
    rw [erase_cons_head,
      erase_of_not_mem (nodup_cons.mp hq.marked.nodup_list).1] at hins
    exact hins
  refine ⟨P', hacc, hP', _, hq', himage.trans ?_⟩
  simp only [hhead, hfields, Image.mk.injEq, true_and]
  refine ⟨?_, rfl⟩
  funext c
  by_cases hc : c = b
  · subst hc
    simp only [update_self]
    rfl
  · simp only [update_of_ne hc]
    rfl

theorem Mirrors.fill (h : Mirrors N P.image c) (hP : Calm P)
    (hf : c.find? (·.1 = a.1) = none) (hlt : c.length < N) :
    ∃ P', Accesses N hash (lone P ring.resting) (request a) c.length false
        (lone P' ring.resting) ∧ Calm P' ∧
      (lone P (ring.resting : Backend vtable)).outcome c.length false = ⟨false, c.length, none⟩ ∧
      Mirrors N P'.image (c ++ [(a.1, c.length)]) := by
  have ht := h.cached.table_eq_none hf
  obtain ⟨hr, hu, hflags⟩ := h.cached.unused c.length le_rfl
  obtain ⟨n, hn⟩ : ∃ n, N - c.length = n + 1 := ⟨N - c.length - 1, by omega⟩
  have hq := h.queued
  rw [hn, List.range'_succ, cons_append] at hq
  obtain ⟨P', hacc, hP', q, hq', himage⟩ := accesses_victim (Nat.zero_lt_of_lt hlt) hP ht hq hr
    (by rw [hflags]) (by rw [hflags]) fun _ => ⟨hu, hflags⟩
  have hvalid : (P.image.fields c.length).flags 3 = false := by rw [hflags]
  rw [if_neg (by rw [hvalid]; exact Bool.false_ne_true)] at himage
  refine ⟨P', hacc, hP', ?_, ?_⟩
  · have : (P.state c.length).has bmTagValid = false := (has_bmTagValid _).trans hvalid
    simp [Sys.outcome, lone, this]
  · rw [himage]
    refine ⟨h.cached.fill rfl hlt ht fun b _ => ⟨_, le_rfl, rfl⟩, ?_⟩
    have hn' : N - (c.length + 1) = n := by omega
    simpa [hn'] using hq'

/-- When all buffers are used, a miss evicts the least recently used page. -/
theorem Mirrors.evict (h : Mirrors N P.image (e :: c)) (hP : Calm P)
    (hf : (e :: c).find? (·.1 = a.1) = none) (hN : (e :: c).length = N) :
    ∃ P', Accesses N hash (lone P ring.resting) (request a) e.2 false
        (lone P' ring.resting) ∧ Calm P' ∧
      (lone P (ring.resting : Backend vtable)).outcome e.2 false = ⟨false, e.2, some e.1⟩ ∧
      Mirrors N P'.image (c ++ [(a.1, e.2)]) := by
  have ht := h.cached.table_eq_none hf
  obtain ⟨htag, hrest, hv, hvalid⟩ := h.cached.page e mem_cons_self
  have hq := h.queued
  rw [hN, Nat.sub_self, List.range'_zero, nil_append, map_cons] at hq
  obtain ⟨P', hacc, hP', q, hq', himage⟩ := accesses_victim (by simp at hN; omega) hP ht hq
    hrest.refcount hrest.locked hrest.dirty fun hg => absurd (hvalid.symm.trans hg) (by decide)
  rw [if_pos hvalid] at himage
  have htag' : P.tag e.2 = e.1 := htag
  refine ⟨P', hacc, hP', ?_, ?_⟩
  · have : (P.state e.2).has bmTagValid = true := (has_bmTagValid _).trans hvalid
    simp [Sys.outcome, lone, this, htag']
  · rw [himage, htag']
    refine ⟨h.cached.replace ht fun b _ => ⟨_, le_rfl, rfl⟩, ?_⟩
    have hlen : (c ++ [(a.1, e.2)]).length = N := by simpa using hN
    rw [hlen, Nat.sub_self]
    simpa using hq'

theorem simulates (hN : 0 < N) (hash : BufferTag → ℕ) :
    Simulates vtable N hash (Mirrors N) (LruCache.access N) := by
  intro ring P c a hP h
  unfold LruCache.access
  cases hf : c.find? (·.1 = a.1) with
  | some e =>
    obtain ⟨P', hacc, hP', h'⟩ := h.hit hP hf
    exact ⟨e.2, true, P', hacc, rfl, hP', h'⟩
  | none =>
    by_cases hlt : c.length < N
    · simp only [hlt, if_true]
      obtain ⟨P', hacc, hP', hout, h'⟩ := h.fill hP hf hlt
      exact ⟨_, false, P', hacc, hout, hP', h'⟩
    · simp only [hlt, if_false]
      have hlen : c.length = N := le_antisymm h.cached.le (not_lt.mp hlt)
      cases c with
      | nil =>
        simp at hlen
        omega
      | cons e c =>
        obtain ⟨P', hacc, hP', hout, h'⟩ := h.evict hP hf hlen
        exact ⟨_, false, P', hacc, hout, hP', h'⟩

end Access

end Lru

/-- Under LRU the accesses of a lone backend have the outcomes of a cache that evicts the page
whose last access is the oldest, and that fills its slots in order first. -/
theorem lru_refines_textbook {N : ℕ} (hN : 0 < N) (hash : BufferTag → ℕ)
    (as : List (BufferTag × Bool)) (os : List (Outcome BufferTag)) :
    Plays N hash (boot Lru.vtable Unit N) as os ↔
      os = outcomes (LruCache.access N) [] (as.map Prod.fst) :=
  (Lru.simulates hN hash).plays_iff (P := (boot Lru.vtable Unit N).pool)
    ⟨fun _ => rfl, fun _ => rfl, rfl⟩ (.boot hN)

/-- Page 2 evicts page 1 after page 0 has been read again. -/
theorem lru_refines_textbook_evict :
    0 < 2 ∧ Plays 2 (fun _ => 0) (boot Lru.vtable Unit 2)
      [(block 0, true), (block 1, true), (block 0, true), (block 2, true)]
      [⟨false, 0, none⟩, ⟨false, 1, none⟩, ⟨true, 0, none⟩, ⟨false, 1, some (block 1)⟩] :=
  ⟨by decide, (lru_refines_textbook (by decide) _ _ _).mpr (by decide)⟩

end PostgreSieve
