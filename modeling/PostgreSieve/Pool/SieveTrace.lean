import PostgreSieve.Pool.Trace

/-! # Traces of SIEVE

The hand divides the list of SIEVE into the buffers it has passed and those ahead of
it, and a zero usage count is a cleared visited bit. A lone backend makes the accesses
of the textbook cache that inserts pages with their visited bit set, since
`BufferAlloc` installs a page with a usage count of one.
-/

namespace PostgreSieve

open Function List

namespace Sieve

variable {N b : ℕ} {s : State} {p a l : List ℕ}

/-! ## The list and the hand -/

/-- The hand stands at the first buffer of `a` in the list `p ++ a`. -/
structure Zipped (N : ℕ) (s : State) (p a : List ℕ) : Prop where
  marked : s.links.Marked N (p ++ a)
  lt : ∀ b ∈ p ++ a, b < N
  hand : s.hand = a.head?.getD N
  wrapped : a = [] → p = []

namespace Zipped

theorem queued (h : Zipped N s p a) : Queued N s (p ++ a) where
  marked := h.marked
  lt := h.lt
  hand := by
    cases a with
    | nil => exact .inr ⟨h.hand, by simpa using h.wrapped rfl⟩
    | cons b a => exact .inl (by simp [h.hand])

theorem of_init (hN : 0 < N) : Zipped N (init N) [] (List.range N) where
  marked := (Queued.of_init hN).marked
  lt := (Queued.of_init hN).lt
  hand := by
    obtain ⟨n, rfl⟩ : ∃ n, N = n + 1 := ⟨N - 1, by omega⟩
    simp [init, range_succ_eq_map]
  wrapped _ := rfl

theorem not_mem (h : Zipped N s p (b :: a)) : b ∉ p ++ a := by
  have hnd := h.marked.nodup_list
  rw [nodup_middle, nodup_cons] at hnd
  exact hnd.1

theorem advance (h : Zipped N s p (b :: a)) (ha : a ≠ []) :
    Zipped N (advanceHand N s) (p ++ [b]) a where
  marked := by
    rw [append_assoc]
    exact h.marked
  lt := by
    rw [append_assoc]
    exact h.lt
  hand := by
    have hb : s.hand = b := by simpa using h.hand
    cases a with
    | nil => exact absurd rfl ha
    | cons y a =>
      have hy : y ≠ N := (h.lt y (by simp)).ne
      have hnext : s.links.next b = y := by simpa using h.marked.next_eq
      simp [advanceHand, hb, hnext, hy]
  wrapped he := absurd he ha

theorem advance_last (h : Zipped N s p [b]) : Zipped N (advanceHand N s) [] (p ++ [b]) where
  marked := h.marked
  lt := h.lt
  hand := by
    have hb : s.hand = b := by simpa using h.hand
    have hnext : s.links.next b = N := by simpa using h.marked.next_eq
    have hprev : s.links.prev N = (p ++ [b]).head?.getD N := by
      have hm := h.marked
      generalize hl : p ++ [b] = l at hm
      cases l with
      | nil => simp at hl
      | cons x l => exact hm.prev_oldest
    simpa [advanceHand, hb, hnext] using hprev
  wrapped _ := rfl

theorem unlink (h : Zipped N s p (b :: a)) (ha : a ≠ [] ∨ p = []) :
    Zipped N (unlinkAndAdvance N s b) p a where
  marked := by
    have hp : b ∉ p := fun hm => h.not_mem (mem_append_left _ hm)
    have hm := h.marked.unlink (x := b) (by simp)
    rwa [erase_append_right _ hp, erase_cons_head] at hm
  lt c hc := h.lt c (perm_middle.mem_iff.mpr (mem_cons_of_mem b hc))
  hand := by
    have hb : s.hand = b := by simpa using h.hand
    have hnext := h.marked.next_eq
    cases a with
    | nil =>
      obtain rfl := ha.resolve_left (not_not_intro rfl)
      have hprev : s.links.prev b = ([] : List ℕ).getLast?.getD N := h.marked.prev_eq
      simp [unlinkAndAdvance, hb, hnext, hprev]
    | cons y a =>
      have hy : y ≠ N := (h.lt y (by simp)).ne
      simp [unlinkAndAdvance, hb, hnext, hy]
  wrapped he := ha.resolve_left (not_not_intro he)

theorem insert (h : Zipped N s p a) (hb : b < N) (hm : b ∉ p ++ a) :
    Zipped N (notifyInsert N s b) p (a ++ [b]) := by
  have hbN : b ≠ N := hb.ne
  have hin : ¬ s.links.inList N b = true := fun ht => hm ((h.marked.inList_iff hbN).mp ht)
  refine ⟨?_, ?_, ?_, fun he => absurd he (by simp)⟩
  · simpa [notifyInsert, hin] using h.marked.insertNewest hbN hm
  · intro c hc
    rw [← append_assoc, mem_append, mem_singleton] at hc
    rcases hc with hc | rfl
    · exact h.lt c hc
    · exact hb
  · have hhand := h.hand
    cases a with
    | nil => simp_all [notifyInsert]
    | cons y a =>
      have hy : y ≠ N := (h.lt y (by simp)).ne
      simp_all [notifyInsert]

end Zipped

/-! ## `SieveGetBuffer` without concurrency -/

section Walk

variable {H : ℕ → BufState}

variable (h : Zipped N s p (b :: a)) (n : ℕ)
include h n

theorem step_loop :
    vtable.soloStep N (⟨s, H⟩, .loop n) = .inl (⟨s, H⟩, .examine n (H b)) := by
  have hb : s.hand = b := by simpa using h.hand
  have hne : b ≠ N := (h.lt b (by simp)).ne
  simp [EvictionVtable.soloStep, vtable, code, GetInstr.solo, hb, hne]

variable (hl : (H b).fields.flags 0 = false) (hr : (H b).fields.refcount = 0)
include hl hr

theorem returns_claim (hu : (H b).fields.usagecount = 0) :
    Returns (vtable.soloStep N) (⟨s, H⟩, .loop n)
      ⟨⟨unlinkAndAdvance N s b, update H b (H b + bufRefcountOne)⟩, .ok b⟩ := by
  have hb : s.hand = b := by simpa using h.hand
  have hl' : (H b).has bmLocked = false := (has_bmLocked _).trans hl
  have hr' : (H b).getRefcount = 0 := hr
  have hu' : (H b).getUsagecount = 0 := hu
  refine .next (step_loop h n) (.done ?_)
  simp [EvictionVtable.soloStep, vtable, code, GetInstr.solo, hb, hl', hr', hu']

theorem leads_clear (hu : (H b).fields.usagecount ≠ 0) :
    Leads (vtable.soloStep N) 2 (⟨s, H⟩, .loop n)
      (⟨advanceHand N s, update H b (H b &&& ~~~bufUsagecountMask)⟩, .loop N) := by
  have hb : s.hand = b := by simpa using h.hand
  have hl' : (H b).has bmLocked = false := (has_bmLocked _).trans hl
  have hr' : (H b).getRefcount = 0 := hr
  have hu' : (H b).getUsagecount ≠ 0 := hu
  refine (Leads.one (step_loop h n)).trans (.one ?_)
  simp [EvictionVtable.soloStep, vtable, code, GetInstr.solo, hb, hl', hr', hu']

end Walk

section Evict

variable {m : Solo State} {c c' : SieveCache BufferTag} {e : SieveEntry BufferTag}
variable {p a : List (SieveEntry BufferTag)}

/-- The page of an entry with its slot. -/
def place (e : SieveEntry BufferTag) : BufferTag × ℕ := (e.page, e.slot)

/-- The list, the hand and the headers under `SieveGetBuffer` are those of `c`. -/
structure Walks (N : ℕ) (m : Solo State) (c : SieveCache BufferTag) : Prop where
  zipped : Zipped N m.policy (c.passed.map (·.slot)) (c.ahead.map (·.slot))
  free : ∀ e ∈ c.entries, (m.headers e.slot).fields.flags 0 = false ∧
    (m.headers e.slot).fields.refcount = 0
  visited : ∀ e ∈ c.entries, (m.headers e.slot).fields.usagecount ≠ 0 ↔ e.visited = true

/-- What `SieveGetBuffer` leaves behind when the textbook evicts `e` and keeps `c'`. -/
structure Evicts (N : ℕ) (m m' : Solo State) (e : SieveEntry BufferTag)
    (c' : SieveCache BufferTag) : Prop where
  zipped : Zipped N m'.policy (c'.passed.map (·.slot)) (c'.ahead.map (·.slot))
  wrapped : c'.ahead ≠ [] ∨ c'.passed = []
  visited : ∀ x ∈ c'.entries, (m'.headers x.slot).fields.usagecount ≠ 0 ↔ x.visited = true
  aged : ∀ b, b ≠ e.slot → (m.headers b).fields.Aged (m'.headers b).fields
  victim : (m'.headers e.slot).fields =
    { (m.headers e.slot).fields with refcount := 1, usagecount := 0 }

theorem zipped_wrap (ha : a ≠ [] ∨ p = []) :
    SieveCache.wrap p a = ⟨p, a⟩ := by
  cases a with
  | nil => rw [ha.resolve_left (not_not_intro rfl)]; rfl
  | cons => rfl

theorem Walks.slot_ne {x y : SieveEntry BufferTag}
    (h : Walks N m ⟨p, x :: a⟩) (hy : y ∈ p ++ a) : y.slot ≠ x.slot := by
  have hnot : x.slot ∉ p.map (·.slot) ++ a.map (·.slot) := h.zipped.not_mem
  rw [← map_append] at hnot
  exact fun he => hnot (he ▸ mem_map_of_mem (f := (·.slot)) hy)

theorem Walks.clear {x : SieveEntry BufferTag} {H : ℕ → BufState}
    {s : State} (h : Walks N ⟨s, H⟩ ⟨p, x :: a⟩) :
    Walks N ⟨advanceHand N s, update H x.slot (H x.slot &&& ~~~bufUsagecountMask)⟩
      (SieveCache.wrap (p ++ [{ x with visited := false }]) a) := by
  have hz := h.zipped
  have hmem : ∀ y ∈ (SieveCache.wrap (p ++ [{ x with visited := false }]) a).entries,
      y = { x with visited := false } ∨ y.slot ≠ x.slot ∧ y ∈ (⟨p, x :: a⟩ : SieveCache _).entries := by
    intro y hy
    have hy := SieveCache.wrap_perm.mem_iff.mp hy
    simp only [mem_append, mem_singleton] at hy
    rcases hy with (hy | hy) | hy
    · exact .inr ⟨h.slot_ne (mem_append_left _ hy), by simp [SieveCache.entries, hy]⟩
    · exact .inl hy
    · exact .inr ⟨h.slot_ne (mem_append_right _ hy), by simp [SieveCache.entries, hy]⟩
  have hx := h.free x (by simp [SieveCache.entries])
  refine ⟨?_, fun y hy => ?_, fun y hy => ?_⟩
  · cases a with
    | nil => simpa [SieveCache.wrap] using hz.advance_last
    | cons y a => simpa [SieveCache.wrap] using hz.advance (by simp)
  · rcases hmem y hy with rfl | ⟨hne, hy⟩
    · simp only [update_self, fields_andNot_usagecountMask]
      exact hx
    · simp only [update_of_ne hne]
      exact h.free y hy
  · rcases hmem y hy with rfl | ⟨hne, hy⟩
    · simp [update_self, fields_andNot_usagecountMask]
    · simp only [update_of_ne hne]
      exact h.visited y hy

theorem Walks.evict {n : ℕ} (h : Walks N m c) (hg : c.Guarded) (he : c.evict n = some (e, c')) :
    ∃ m', Returns (vtable.soloStep N) (m, .loop N) ⟨m', .ok e.slot⟩ ∧ Evicts N m m' e c' ∧
      (c.entries.map place).Perm (place e :: c'.entries.map place) := by
  induction n generalizing m c with
  | zero => exact nomatch he
  | succ n ih =>
    obtain ⟨s, H⟩ := m
    obtain ⟨p, a⟩ := c
    cases a with
    | nil => exact nomatch he
    | cons x a =>
      have hx : x ∈ (⟨p, x :: a⟩ : SieveCache BufferTag).entries := by simp [SieveCache.entries]
      obtain ⟨hl, hr⟩ := h.free x hx
      rw [SieveCache.evict] at he
      by_cases hv : x.visited = true
      · rw [if_pos hv] at he
        obtain ⟨m', hret, hev, hperm⟩ := ih h.clear (hg.walk hv) he
        have hlead := leads_clear h.zipped N hl hr ((h.visited x hx).mpr hv)
        refine ⟨m', hlead.returns hret, ⟨hev.zipped, hev.wrapped, hev.visited, ?_, ?_⟩, ?_⟩
        · intro b hb
          have haged := hev.aged b hb
          by_cases hbx : b = x.slot
          · subst hbx
            obtain ⟨u, hu, hf⟩ := haged
            simp only [update_self, fields_andNot_usagecountMask] at hu hf
            exact ⟨u, by omega, hf⟩
          · simpa only [update_of_ne hbx] using haged
        · rw [hev.victim]
          by_cases hbx : e.slot = x.slot
          · rw [hbx]
            simp only [update_self, fields_andNot_usagecountMask]
          · simp only [update_of_ne hbx]
        · refine List.Perm.trans ?_ hperm
          refine .trans ?_ (SieveCache.wrap_perm.map place).symm
          simp [SieveCache.entries, place]
      · rw [if_neg hv] at he
        have ha := hg.stop hv
        rw [zipped_wrap ha] at he
        obtain ⟨rfl, rfl⟩ : x = e ∧ (⟨p, a⟩ : SieveCache BufferTag) = c' := by simpa using he
        have hu : (H x.slot).fields.usagecount = 0 := by
          by_contra hne
          exact hv ((h.visited x hx).mp hne)
        refine ⟨_, returns_claim h.zipped N hl hr hu, ⟨?_, ha, fun y hy => ?_, fun b hb => ?_, ?_⟩, ?_⟩
        · refine h.zipped.unlink ?_
          simpa using ha
        · simp only [update_of_ne (h.slot_ne hy)]
          exact h.visited y (perm_middle.mem_iff.mpr (mem_cons_of_mem x hy))
        · simp only [update_of_ne hb]
          exact ⟨_, le_rfl, rfl⟩
        · simp only [update_self, fields_claimed hr, hu]
        · simp [SieveCache.entries, place]

end Evict

/-! ## Accesses -/

/-- The pool holds the pages of `c`, and the list has the unused buffers before those ahead of
the hand. -/
structure Mirrors (N : ℕ) (I : Image State) (c : SieveCache BufferTag) : Prop where
  cached : Cached N I (c.entries.map place)
  visited : ∀ e ∈ c.entries, (I.fields e.slot).usagecount ≠ 0 ↔ e.visited = true
  zipped : Zipped N I.policy (c.passed.map (·.slot))
    (List.range' c.entries.length (N - c.entries.length) ++ c.ahead.map (·.slot))
  filling : c.entries.length < N → c.passed = []
  settled : c.entries ≠ [] → c.Settled

theorem Mirrors.boot (hN : 0 < N) : Mirrors N (boot vtable Unit N).pool.image ⟨[], []⟩ where
  cached := .boot
  visited := nofun
  zipped := by
    simp only [SieveCache.entries, append_nil, length_nil, map_nil, Nat.sub_zero,
      ← range_eq_range']
    exact .of_init hN
  filling _ := rfl
  settled h := absurd rfl h

section Access

variable {hash : BufferTag → ℕ} {P : Pool vtable Unit} {ring : Ring} {a : BufferTag × Bool}
variable {c c' : SieveCache BufferTag} {e : SieveEntry BufferTag}

theorem find_place (es : List (SieveEntry BufferTag)) (t : BufferTag) :
    (es.map place).find? (·.1 = t) = (es.find? (·.page = t)).map place := by
  rw [List.find?_map]
  rfl

theorem pin_usagecount_ne_zero (f : Fields) : (f.pin false).usagecount ≠ 0 := by
  have h5 : bmMaxUsageCount = 5 := rfl
  simp only [Fields.pin, Bool.false_eq_true, if_false]
  split <;> omega

theorem Mirrors.hit (h : Mirrors N P.image c) (hP : Calm P)
    (hf : c.entries.find? (·.page = a.1) = some e) :
    ∃ P', Accesses N hash (lone P ring.resting) (request a) e.slot true (lone P' ring.resting) ∧
      Calm P' ∧ Mirrors N P'.image
        ⟨c.passed.map (SieveCache.visit a.1), c.ahead.map (SieveCache.visit a.1)⟩ := by
  have hf' : (c.entries.map place).find? (·.1 = a.1) = some (place e) := by rw [find_place, hf]; rfl
  obtain ⟨he, ht⟩ := h.cached.table_eq_some hf'
  obtain ⟨-, hrest, hv, -⟩ := h.cached.page _ he
  obtain ⟨P', hacc, hP', himage⟩ := accesses_hit N hash ring hP ht hrest hv
  have hplace : ∀ l : List (SieveEntry BufferTag),
      (l.map (SieveCache.visit a.1)).map place = l.map place := by
    intro l
    rw [map_map]
    refine map_congr_left fun x _ => ?_
    simp only [Function.comp, SieveCache.visit]
    split <;> rfl
  have hslot : ∀ l : List (SieveEntry BufferTag),
      (l.map (SieveCache.visit a.1)).map (·.slot) = l.map (·.slot) := by
    intro l
    simpa [place, map_map, Function.comp_def] using congrArg (List.map Prod.snd) (hplace l)
  have hentries : SieveCache.entries
      ⟨c.passed.map (SieveCache.visit a.1), c.ahead.map (SieveCache.visit a.1)⟩ =
      c.entries.map (SieveCache.visit a.1) := by simp [SieveCache.entries]
  refine ⟨P', hacc, hP', ?_, ?_, ?_, ?_, ?_⟩
  · rw [hentries, hplace, himage]
    exact h.cached.use he _
  · rw [hentries, himage]
    intro y hy
    obtain ⟨x, hx, rfl⟩ := mem_map.mp hy
    have hx' := mem_map_of_mem (f := place) hx
    by_cases hxp : x.page = a.1
    · have hs : x.slot = e.slot := by
        have hxt : P.image.table a.1 = some x.slot := hxp ▸ (h.cached.table x.page x.slot).mpr hx'
        exact Option.some.inj (hxt.symm.trans ht)
      have hu := pin_usagecount_ne_zero (P.image.fields e.slot)
      simpa [SieveCache.visit, hxp, hs, place] using hu
    · have hs : x.slot ≠ e.slot := fun hs => hxp <| by
        have heq : place x = place e := h.cached.slot_inj hx' he hs
        have hpage : e.page = a.1 := by simpa using List.find?_some hf
        exact (congrArg Prod.fst heq).trans hpage
      simpa [SieveCache.visit, hxp, place, update_of_ne hs] using h.visited x hx
  · rw [hentries, length_map, hslot, hslot, himage]
    exact h.zipped
  · intro hlt
    rw [hentries, length_map] at hlt
    simp [h.filling hlt]
  · intro hne
    rw [hentries] at hne
    exact (h.settled (by simpa using hne)).visit

variable (hash ring) in
theorem accesses_victim {p₀ a₀ p a' : List ℕ} {m : Solo State} (hN : 0 < N) (hP : Calm P)
    (ht : P.table a.1 = none) (hz₀ : Zipped N P.policy p₀ a₀)
    (hgets : vtable.GetsBuffer N ⟨P.policy, P.state⟩ ⟨m, .ok b⟩)
    (hm : (m.headers b).fields = { P.image.fields b with refcount := 1, usagecount := 0 })
    (hl : (P.image.fields b).flags 0 = false) (hd : (P.image.fields b).flags 1 = false)
    (hempty : (P.image.fields b).flags 3 = false → (P.image.fields b).flags = fun _ => false)
    (hz : Zipped N m.policy p a') (hb : b < N) (hnot : b ∉ p ++ a') :
    ∃ P', Accesses N hash (lone P ring.resting) (request a) b false (lone P' ring.resting) ∧
      Calm P' ∧ ∃ q, Zipped N q p (a' ++ [b]) ∧ P'.image = {
        tag := update P.tag b a.1
        fields := update (fun c => (m.headers c).fields) b
          ((m.headers b).fields.loaded a.2)
        table := update (if (P.image.fields b).flags 3
          then update P.table (P.tag b) none else P.table) a.1 (some b)
        policy := q } := by
  obtain ⟨P', hacc, hP', himage⟩ := accesses_miss hash (listPolicy N hN) ring (a := a) hP ht
    ⟨_, hz₀.queued⟩ hgets (by rw [hm]; exact hl) (by rw [hm]; exact hd) (by rw [hm])
    (by rw [hm]; exact fun h => ⟨rfl, hempty h⟩)
  refine ⟨P', hacc, hP', _, hz.insert hb hnot, himage.trans ?_⟩
  rw [hm]
  rfl

theorem visited_insert {es : List (SieveEntry BufferTag)} {F : ℕ → Fields} {f : Fields}
    {permanent : Bool} {t : BufferTag}
    (hv : ∀ x ∈ es, (F x.slot).usagecount ≠ 0 ↔ x.visited = true) (hs : ∀ x ∈ es, x.slot ≠ b) :
    ∀ x ∈ es ++ [⟨t, b, true⟩],
      (update F b (f.loaded permanent) x.slot).usagecount ≠ 0 ↔ x.visited = true := by
  intro x hx
  rcases mem_append.mp hx with hx | hx
  · rw [update_of_ne (hs x hx)]
    exact hv x hx
  · obtain rfl := mem_singleton.mp hx
    simp [Fields.loaded]

section

variable (h : Mirrors N P.image c) (hP : Calm P) (hf : c.entries.find? (·.page = a.1) = none)
include h hP hf

theorem Mirrors.fill (hlt : c.entries.length < N) :
    ∃ P', Accesses N hash (lone P ring.resting) (request a) c.entries.length false
        (lone P' ring.resting) ∧ Calm P' ∧
      (lone P (ring.resting : Backend vtable)).outcome c.entries.length false =
        ⟨false, c.entries.length, none⟩ ∧
      Mirrors N P'.image (c.insert ⟨a.1, c.entries.length, true⟩) := by
  have hf' : (c.entries.map place).find? (·.1 = a.1) = none := by rw [find_place, hf]; rfl
  have ht := h.cached.table_eq_none hf'
  have hlen : (c.entries.map place).length = c.entries.length := length_map ..
  obtain ⟨hr, hu, hflags⟩ := h.cached.unused c.entries.length hlen.le
  have hvalid : (P.image.fields c.entries.length).flags 3 = false := by rw [hflags]
  obtain ⟨n, hn⟩ : ∃ n, N - c.entries.length = n + 1 := ⟨N - c.entries.length - 1, by omega⟩
  have hz := h.zipped
  rw [hn, List.range'_succ, cons_append, h.filling hlt, map_nil] at hz
  have hl : (P.image.fields c.entries.length).flags 0 = false := by rw [hflags]
  have hclaimed : (update P.state c.entries.length
      (P.state c.entries.length + bufRefcountOne) c.entries.length).fields =
      { P.image.fields c.entries.length with refcount := 1, usagecount := 0 } := by
    rw [update_self, fields_claimed hr]
    simp only [← hu]
    rfl
  have hgets : vtable.GetsBuffer N ⟨P.policy, P.state⟩ _ := .next rfl (returns_claim hz N hl hr hu)
  obtain ⟨P', hacc, hP', q, hq, himage⟩ := accesses_victim hash ring (Nat.zero_lt_of_lt hlt) hP ht
    hz hgets hclaimed hl (by rw [hflags]) (fun _ => hflags) (hz.unlink (.inr rfl)) hlt hz.not_mem
  rw [if_neg (by rw [hvalid]; exact Bool.false_ne_true)] at himage
  have hentries : (c.insert ⟨a.1, c.entries.length, true⟩).entries =
      c.entries ++ [⟨a.1, c.entries.length, true⟩] := by simp [SieveCache.insert, SieveCache.entries]
  refine ⟨P', hacc, hP', ?_, ?_, ?_, ?_, ?_, ?_⟩
  · have : (P.state c.entries.length).has bmTagValid = false := (has_bmTagValid _).trans hvalid
    simp [Sys.outcome, lone, this]
  · rw [himage, hentries, map_append]
    exact h.cached.fill hlen.symm hlt ht fun b hb =>
      ⟨_, le_rfl, by simp only [update_of_ne hb]; rfl⟩
  · rw [himage, hentries]
    have hs : ∀ x ∈ c.entries, x.slot ≠ c.entries.length := fun x hx =>
      (hlen ▸ h.cached.slot_lt (mem_map_of_mem (f := place) hx)).ne
    refine visited_insert (fun x hx => ?_) hs
    simp only [update_of_ne (hs x hx)]
    exact h.visited x hx
  · have hn' : N - (c.entries.length + 1) = n := by omega
    rw [himage, hentries]
    simpa [SieveCache.insert, h.filling hlt, hn'] using hq
  · exact fun hlt' => h.filling hlt
  · exact fun _ => .insert (.inr (h.filling hlt)) rfl

/-- When all buffers are used, a miss evicts the page at which the hand stops. -/
theorem Mirrors.evict (hN : 0 < N) (hlen : c.entries.length = N) {n : ℕ}
    (he : c.evict n = some (e, c')) :
    ∃ P', Accesses N hash (lone P ring.resting) (request a) e.slot false
        (lone P' ring.resting) ∧ Calm P' ∧
      (lone P (ring.resting : Backend vtable)).outcome e.slot false =
        ⟨false, e.slot, some e.page⟩ ∧
      Mirrors N P'.image (c'.insert ⟨a.1, e.slot, true⟩) := by
  have hf' : (c.entries.map place).find? (·.1 = a.1) = none := by rw [find_place, hf]; rfl
  have ht := h.cached.table_eq_none hf'
  have hz : Zipped N P.policy (c.passed.map (·.slot)) (c.ahead.map (·.slot)) := by
    have hz := h.zipped
    rwa [hlen, Nat.sub_self, List.range'_zero, nil_append] at hz
  have hwalks : Walks N ⟨P.policy, P.state⟩ c := ⟨hz, fun x hx => by
    obtain ⟨-, hrest, -⟩ := h.cached.page _ (mem_map_of_mem (f := place) hx)
    exact ⟨hrest.locked, hrest.refcount⟩, h.visited⟩
  have hsettled := h.settled (ne_nil_of_length_pos (hlen ▸ hN))
  obtain ⟨m, hret, hev, hperm⟩ := hwalks.evict hsettled.guarded he
  have hcached := h.cached.perm hperm
  obtain ⟨htag, hrest, -, hvalid⟩ := hcached.page (place e) mem_cons_self
  have hgets : vtable.GetsBuffer N ⟨P.policy, P.state⟩ ⟨m, .ok e.slot⟩ := .next rfl hret
  have hs : ∀ x ∈ c'.entries, x.slot ≠ e.slot := fun x hx heq => by
    have hnot : e.slot ∉ (c'.entries.map place).map Prod.snd := (nodup_cons.mp hcached.nodup).1
    exact hnot (heq ▸ mem_map_of_mem (mem_map_of_mem (f := place) hx))
  have hlt : e.slot < N :=
    lt_of_lt_of_le (hcached.slot_lt (mem_cons_self (a := place e))) hcached.le
  obtain ⟨P', hacc, hP', q, hq, himage⟩ := accesses_victim hash ring (a := a) hN hP ht hz hgets
    hev.victim hrest.locked hrest.dirty (fun hg => absurd (hvalid.symm.trans hg) (by decide))
    hev.zipped hlt fun hm => by
      rw [← map_append] at hm
      obtain ⟨x, hx, heq⟩ := mem_map.mp hm
      exact hs x hx heq
  have htag' : P.tag e.slot = e.page := htag
  have hvalid' : (P.image.fields e.slot).flags 3 = true := hvalid
  rw [if_pos hvalid'] at himage
  have hentries : (c'.insert ⟨a.1, e.slot, true⟩).entries = c'.entries ++ [⟨a.1, e.slot, true⟩] := by
    simp [SieveCache.insert, SieveCache.entries]
  have hlen' : (c'.entries ++ [(⟨a.1, e.slot, true⟩ : SieveEntry BufferTag)]).length = N := by
    have := hperm.length_eq
    simp only [length_map, length_cons] at this
    rw [length_append, length_singleton]
    omega
  refine ⟨P', hacc, hP', ?_, ?_, ?_, ?_, ?_, ?_⟩
  · have : (P.state e.slot).has bmTagValid = true := (has_bmTagValid _).trans hvalid
    simp [Sys.outcome, lone, this, htag']
  · rw [himage, hentries, map_append, htag']
    exact hcached.replace ht hev.aged
  · rw [himage, hentries]
    exact visited_insert hev.visited hs
  · rw [himage, hentries, hlen', Nat.sub_self]
    simpa [SieveCache.insert] using hq
  · intro hlt'
    rw [hentries] at hlt'
    omega
  · exact fun _ => .insert hev.wrapped rfl

end

theorem simulates (hN : 0 < N) (hash : BufferTag → ℕ) :
    Simulates vtable N hash (Mirrors N) (SieveCache.access N true) := by
  intro ring P c a hP h
  unfold SieveCache.access
  cases hf : c.entries.find? (·.page = a.1) with
  | some e =>
    obtain ⟨P', hacc, hP', h'⟩ := h.hit hP hf
    exact ⟨e.slot, true, P', hacc, rfl, hP', h'⟩
  | none =>
    by_cases hlt : c.entries.length < N
    · simp only [hlt, if_true]
      obtain ⟨P', hacc, hP', hout, h'⟩ := h.fill hP hf hlt
      exact ⟨_, false, P', hacc, hout, hP', h'⟩
    · simp only [hlt, if_false]
      have hlen : c.entries.length = N :=
        le_antisymm (by simpa using h.cached.le) (not_lt.mp hlt)
      have hne : c.entries ≠ [] := ne_nil_of_length_pos (hlen ▸ hN)
      obtain ⟨l, x, hl, -⟩ := h.settled hne
      obtain ⟨⟨e, c'⟩, he⟩ := c.exists_evict (n := c.entries.length + 1) (by simp [hl])
        (Nat.lt_succ_of_le countP_le_length)
      rw [he]
      obtain ⟨P', hacc, hP', hout, h'⟩ := h.evict hP hf hN hlen he
      exact ⟨_, false, P', hacc, hout, hP', h'⟩

end Access

end Sieve

/-- Under SIEVE the accesses of a lone backend have the outcomes of a SIEVE cache that inserts
pages with their visited bit set. -/
theorem sieve_refines_textbook {N : ℕ} (hN : 0 < N) (hash : BufferTag → ℕ)
    (as : List (BufferTag × Bool)) (os : List (Outcome BufferTag)) :
    Plays N hash (boot Sieve.vtable Unit N) as os ↔
      os = outcomes (SieveCache.access N true) ⟨[], []⟩ (as.map Prod.fst) :=
  (Sieve.simulates hN hash).plays_iff (P := (boot Sieve.vtable Unit N).pool)
    ⟨fun _ => rfl, fun _ => rfl, rfl⟩ (.boot hN)

/-- Page 2 evicts page 0, which was read twice, since page 1 has its visited bit from the
insertion. -/
theorem sieve_refines_textbook_evict :
    0 < 2 ∧ Plays 2 (fun _ => 0) (boot Sieve.vtable Unit 2)
      [(block 0, true), (block 1, true), (block 0, true), (block 2, true), (block 0, true)]
      [⟨false, 0, none⟩, ⟨false, 1, none⟩, ⟨true, 0, none⟩, ⟨false, 0, some (block 0)⟩,
        ⟨false, 1, some (block 1)⟩] :=
  ⟨by decide, (sieve_refines_textbook (by decide) _ _ _).mpr (by decide)⟩

/-- With cleared visited bits on insertion, page 0 would survive and its last access be a hit. -/
theorem sieve_misses_second_chance :
    ∃ os, Plays 2 (fun _ => 0) (boot Sieve.vtable Unit 2)
        [(block 0, true), (block 1, true), (block 0, true), (block 2, true), (block 0, true)] os ∧
      os.map Outcome.found ≠ (outcomes (SieveCache.access 2 false) ⟨[], []⟩
        [block 0, block 1, block 0, block 2, block 0]).map Outcome.found := by
  have hN : 0 < 2 := by decide
  refine ⟨_, (Sieve.simulates hN fun _ => 0).plays (P := (boot Sieve.vtable Unit 2).pool) _
    ⟨fun _ => rfl, fun _ => rfl, rfl⟩ (.boot hN), ?_⟩
  decide

end PostgreSieve
