import PostgreSieve.Eviction.Vtable
import PostgreSieve.Lists.Linked

/-! # LRU

The buffers stand in one list from the least to the most recently used. The
victim is the first unpinned buffer of the list. `LRUGetBuffer` waits for a locked
buffer header with `buffer_strategy_lock` held.
-/

namespace PostgreSieve.Lru

open List

/-- The arrays `LRUNext` and `LRUPrev`; the index `N` anchors the list. -/
structure State where
  links : Links ℕ

def init (N : ℕ) : State := ⟨Links.ofRange N N fun _ => N⟩

def unlink (N : ℕ) (s : State) (b : ℕ) : State := ⟨s.links.unlink N N b⟩

def insertMRU (N : ℕ) (s : State) (b : ℕ) : State := ⟨s.links.insertNewest N b⟩

/-- `LRU_IN_LIST`. -/
def inList (N : ℕ) (s : State) (b : ℕ) : Bool := s.links.inList N b

def notifyHit (N : ℕ) (s : State) (b : ℕ) : State :=
  if inList N s b then insertMRU N (unlink N s b) b else s

def notifyInsert (N : ℕ) (s : State) (b : ℕ) : State :=
  insertMRU N (if inList N s b then unlink N s b else s) b

def notifyInvalidate (N : ℕ) (s : State) (b : ℕ) : State :=
  if inList N s b then unlink N s b else s

/-- The candidate after `c`, back to the least recently used one at the end. -/
def nextCandidate (N : ℕ) (s : State) (c : ℕ) : ℕ :=
  if s.links.next c = N then s.links.prev N else s.links.next c

inductive Pc where
  | start
  | loop (candidate trycounter : ℕ)
  | examine (candidate trycounter : ℕ) (old : BufState)

/-- `LRUGetBuffer`. -/
def code (N : ℕ) (s : State) : Pc → GetInstr State Pc
  | .start => .acquire fun s => .loop (s.links.prev N) N
  | .loop c trycounter =>
    if c = N then .raise s "no buffers in LRU queue" else .load c (.examine c trycounter)
  | .examine c trycounter old =>
    if old.has bmLocked then .await c fun _ => .loop c trycounter
    else if old.getRefcount ≠ 0 then
      if trycounter - 1 = 0 then .raise s "no unpinned buffers"
      else .update s (.loop (nextCandidate N s c) (trycounter - 1))
    else .claim c old (unlink N s c) fun _ => .loop c N

abbrev vtable : EvictionVtable where
  State := State
  Pc := Pc
  init := init
  getBuffer _ := .start
  code := code
  notifyHit N := some (notifyHit N)
  notifyInsert N := some (notifyInsert N)
  notifyInvalidate N := some (notifyInvalidate N)

/-- The buffers in the list, least recently used first. -/
def queue (N : ℕ) (s : State) : List ℕ := s.links.walk N N (s.links.prev N)

/-- The arrays hold the list `l` of buffers. -/
structure Queued (N : ℕ) (s : State) (l : List ℕ) : Prop where
  marked : s.links.Marked N l
  lt : ∀ b ∈ l, b < N

variable {N b c : ℕ} {s : State} {l : List ℕ}

namespace Queued

theorem queue_eq (h : Queued N s l) : queue N s = l :=
  h.marked.walk_eq (h.marked.length_le h.lt)

theorem of_init (hN : 0 < N) : Queued N (init N) (List.range N) where
  marked := Links.ofRange_marked hN le_rfl
  lt _ hb := mem_range.mp hb

variable (h : Queued N s l)
include h

theorem inList_iff (hb : b < N) : inList N s b = true ↔ b ∈ l :=
  h.marked.inList_iff (by omega)

theorem unlink (hb : b ∈ l) : Queued N (unlink N s b) (l.erase b) where
  marked := h.marked.unlink hb
  lt c hc := h.lt c (mem_of_mem_erase hc)

theorem lt_erase_append (hb : b < N) : ∀ c ∈ l.erase b ++ [b], c < N :=
  forall_mem_append.mpr ⟨fun c hc => h.lt c (mem_of_mem_erase hc), forall_mem_singleton.mpr hb⟩

theorem notifyInsert (hb : b < N) :
    Queued N (notifyInsert N s b) (l.erase b ++ [b]) where
  marked := by
    have hm := h.marked.moveNewest (x := b) (by omega)
    by_cases hin : s.links.inList N b = true <;>
      simpa [Lru.notifyInsert, insertMRU, inList, Lru.unlink, hin] using hm
  lt := h.lt_erase_append hb

theorem notifyHit (hb : b ∈ l) :
    Queued N (notifyHit N s b) (l.erase b ++ [b]) := by
  have hlt := h.lt b hb
  have he : Lru.notifyHit N s b = Lru.notifyInsert N s b := by
    simp [Lru.notifyHit, Lru.notifyInsert, (h.inList_iff hlt).mpr hb]
  rw [he]
  exact h.notifyInsert hlt

theorem notifyHit_of_not_mem (hlt : b < N) (hb : b ∉ l) :
    Lru.notifyHit N s b = s :=
  if_neg fun ht => hb ((h.inList_iff hlt).mp ht)

theorem notifyInvalidate (hb : b < N) :
    Queued N (notifyInvalidate N s b) (l.erase b) := by
  simp only [Lru.notifyInvalidate]
  split
  · exact h.unlink ((h.inList_iff hb).mp ‹_›)
  · rename_i hm
    rwa [erase_of_not_mem fun hb' => hm ((h.inList_iff hb).mpr hb')]

theorem nextCandidate_mem (hc : c ∈ l) : nextCandidate N s c ∈ l := by
  simp only [nextCandidate]
  split
  · exact h.marked.prev_anchor_mem (ne_nil_of_mem hc)
  · exact h.marked.next_mem hc ‹_›

end Queued

theorem mem_queue_unlink (h : Queued N s l) (hc : c ∈ l) (hb : b ≠ c) (hm : b ∈ queue N s) :
    b ∈ queue N (unlink N s c) := by
  rw [h.queue_eq] at hm
  rw [(h.unlink hc).queue_eq]
  exact (mem_erase_of_ne hb).mpr hm

/-- LRU keeps its list under the lock; `LRUGetBuffer` and `LRUNotifyInvalidate` take buffers out. -/
def listPolicy (N : ℕ) (hN : 0 < N) : vtable.ListPolicy N where
  linked s b := b ∈ queue N s
  Inv s := ∃ l, Queued N s l
  locked g := match g with
    | Pc.start => false
    | _ => true
  At s g := match g with
    | Pc.start => False
    | Pc.loop c _ => c = N ∨ c ∈ queue N s
    | Pc.examine c _ _ => c ∈ queue N s
  inv_init := ⟨_, Queued.of_init hN⟩
  linked_init b hb := by
    change b ∈ queue N (init N)
    rw [(Queued.of_init hN).queue_eq]
    exact mem_range.mpr hb
  locked_entry := rfl
  locked_of_at {s g} h := by cases g <;> simp_all
  acquire_iff {s g} := by cases g <;> simp [vtable, code] <;> grind
  code_keeps {s g} := by
    rintro ⟨l, h⟩ hat
    cases g with
    | start =>
      rintro s' ⟨l', h'⟩
      rw [h'.queue_eq]
      by_cases hl : l' = []
      · exact Or.inl (h'.marked.prev_anchor_eq_iff.mpr hl)
      · exact Or.inr (h'.marked.prev_anchor_mem hl)
    | loop c trycounter =>
      simp only [vtable, code]
      split
      · exact ⟨⟨l, h⟩, fun _ hx => hx⟩
      · exact fun _ => (hat rfl).resolve_left ‹_›
    | examine c trycounter old =>
      have hc : c ∈ queue N s := hat rfl
      rw [h.queue_eq] at hc
      simp only [vtable, code]
      split_ifs
      · exact fun _ => Or.inr (h.queue_eq.symm ▸ hc)
      · exact ⟨⟨l, h⟩, fun _ hx => hx⟩
      · exact ⟨⟨l, h⟩, Or.inr (h.queue_eq.symm ▸ h.nextCandidate_mem hc), fun _ hx => hx⟩
      · exact ⟨h.lt c hc, ⟨_, h.unlink hc⟩, fun x hx => mem_queue_unlink h hc hx,
          fun _ => Or.inr (h.queue_eq.symm ▸ hc)⟩
  insert {s b} := by
    rintro ⟨l, h⟩ hb
    have hi := h.notifyInsert hb
    refine ⟨_, rfl, ⟨_, hi⟩, by simp [hi.queue_eq], fun x hx => ?_⟩
    rw [h.queue_eq] at hx
    rw [hi.queue_eq]
    exact Links.Marked.mem_moveNewest x hx
  hit {f s b} hf := by
    rintro ⟨l, h⟩ hb
    obtain rfl : notifyHit N = f := Option.some.inj hf
    by_cases hm : b ∈ l
    · have hi := h.notifyHit hm
      refine ⟨⟨_, hi⟩, fun x hx => ?_⟩
      rw [h.queue_eq] at hx
      rw [hi.queue_eq]
      exact Links.Marked.mem_moveNewest x hx
    · rw [h.notifyHit_of_not_mem hb hm]
      exact ⟨⟨l, h⟩, fun _ hx => hx⟩
  invalidate {f s b} hf := by
    rintro ⟨l, h⟩ hb
    obtain rfl : notifyInvalidate N = f := Option.some.inj hf
    exact ⟨_, h.notifyInvalidate hb⟩

end PostgreSieve.Lru
