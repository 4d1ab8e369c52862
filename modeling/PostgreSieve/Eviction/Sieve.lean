import PostgreSieve.Eviction.Vtable
import PostgreSieve.Lists.Linked

/-! # SIEVE

The buffers stand in one list from the oldest to the newest insertion, and a hand
walks it towards the newest. A zero usage count under the hand makes a victim; a
positive one is cleared and the hand moves on.
-/

namespace PostgreSieve

open List

namespace Sieve

/-- `sieve_hand` and the arrays `SieveNext` and `SievePrev`; the index `N` anchors the list. -/
structure State where
  hand : ℕ
  links : Links ℕ

def init (N : ℕ) : State := ⟨0, Links.ofRange N N fun _ => N⟩

def advanceHand (N : ℕ) (s : State) : State :=
  let next := s.links.next s.hand
  { s with hand := if next = N then s.links.prev N else next }

def unlinkAndAdvance (N : ℕ) (s : State) (b : ℕ) : State where
  hand :=
    if s.hand = b then
      if s.links.next b = N then s.links.prev b else s.links.next b
    else s.hand
  links := s.links.unlink N N b

def notifyInsert (N : ℕ) (s : State) (b : ℕ) : State :=
  let s := if s.links.inList N b then unlinkAndAdvance N s b else s
  { hand := if s.hand = N then b else s.hand
    links := s.links.insertNewest N b }

inductive Pc where
  | start
  | loop (trycounter : ℕ)
  | examine (trycounter : ℕ) (old : BufState)

/-- `SieveGetBuffer`. -/
def code (N : ℕ) (s : State) : Pc → GetInstr State Pc
  | .start => .acquire fun _ => .loop N
  | .loop trycounter =>
    if s.hand = N then .raise s "no buffers in SIEVE eviction queue"
    else .load s.hand (.examine trycounter)
  | .examine trycounter old =>
    if old.has bmLocked then .update (advanceHand N s) (.loop trycounter)
    else if old.getRefcount ≠ 0 then
      if trycounter - 1 = 0 then .raise (advanceHand N s) "no unpinned buffers available"
      else .update (advanceHand N s) (.loop (trycounter - 1))
    else if old.getUsagecount ≠ 0 then
      -- the result of this compare-exchange is ignored
      .cas s.hand old (old &&& ~~~bufUsagecountMask) (advanceHand N s, .loop N)
        fun _ => (advanceHand N s, .loop N)
    else .claim s.hand old (unlinkAndAdvance N s s.hand) fun _ => .loop N

abbrev vtable : EvictionVtable where
  State := State
  Pc := Pc
  init := init
  getBuffer _ := .start
  code := code
  notifyHit _ := none
  notifyInsert N := some (notifyInsert N)
  notifyInvalidate _ := none

/-- The buffers in the list, oldest insertion first. -/
def queue (N : ℕ) (s : State) : List ℕ := s.links.walk N N (s.links.prev N)

/-- The arrays hold the list `l` of buffers, and the hand stands on one of them. -/
structure Queued (N : ℕ) (s : State) (l : List ℕ) : Prop where
  marked : s.links.Marked N l
  lt : ∀ b ∈ l, b < N
  hand : s.hand ∈ l ∨ s.hand = N ∧ l = []

variable {N b : ℕ} {s : State} {l : List ℕ}

namespace Queued

theorem queue_eq (h : Queued N s l) : queue N s = l :=
  h.marked.walk_eq (h.marked.length_le h.lt)

theorem of_init (hN : 0 < N) : Queued N (init N) (List.range N) where
  marked := Links.ofRange_marked hN le_rfl
  lt _ hb := mem_range.mp hb
  hand := Or.inl (mem_range.mpr hN)

variable (h : Queued N s l)
include h

theorem hand_mem (hh : s.hand ≠ N) : s.hand ∈ l :=
  h.hand.resolve_right fun he => hh he.1

theorem advanceHand (hh : s.hand ∈ l) : Queued N (advanceHand N s) l := by
  refine ⟨h.marked, h.lt, Or.inl ?_⟩
  simp only [Sieve.advanceHand]
  split
  · exact h.marked.prev_anchor_mem (ne_nil_of_mem hh)
  · exact h.marked.next_mem hh ‹_›

theorem unlinkAndAdvance (hb : b ∈ l) :
    Queued N (unlinkAndAdvance N s b) (l.erase b) := by
  refine ⟨h.marked.unlink hb, fun c hc => h.lt c (mem_of_mem_erase hc), ?_⟩
  simp only [Sieve.unlinkAndAdvance]
  split
  · obtain ⟨l₁, l₂, hl₁, rfl, he⟩ := exists_erase_eq hb
    rw [he, h.marked.next_eq, h.marked.prev_eq]
    cases l₂ with
    | nil =>
      rcases eq_nil_or_concat l₁ with rfl | ⟨l₁, y, rfl⟩
      · exact Or.inr ⟨by simp, rfl⟩
      · exact Or.inl (by simp)
    | cons y l₂ =>
      have hy : y ≠ N := h.marked.ne_anchor (by simp)
      exact Or.inl (by simp [hy])
  · rename_i hh
    rcases h.hand with hm | ⟨-, rfl⟩
    · exact Or.inl ((mem_erase_of_ne hh).mpr hm)
    · simp at hb

theorem notifyInsert (hb : b < N) :
    Queued N (notifyInsert N s b) (l.erase b ++ [b]) := by
  have hbN : b ≠ N := by omega
  -- the state after the removal of a stale entry
  obtain ⟨r, hr, hq⟩ : ∃ r, r = (if s.links.inList N b then Sieve.unlinkAndAdvance N s b else s) ∧
      Queued N r (l.erase b) := by
    refine ⟨_, rfl, ?_⟩
    by_cases hm : b ∈ l
    · rw [if_pos ((h.marked.inList_iff hbN).mpr hm)]
      exact h.unlinkAndAdvance hm
    · rw [if_neg fun ht => hm ((h.marked.inList_iff hbN).mp ht), erase_of_not_mem hm]
      exact h
  simp only [Sieve.notifyInsert, ← hr]
  refine ⟨hq.marked.insertNewest hbN h.marked.nodup_list.not_mem_erase, ?_, Or.inl ?_⟩
  · exact forall_mem_append.mpr ⟨hq.lt, forall_mem_singleton.mpr hb⟩
  · split
    · simp
    · rename_i hh
      exact mem_append_left _ (hq.hand_mem hh)

end Queued

theorem mem_queue_erase {N b c : ℕ} {s t : State} {l : List ℕ} (h : Queued N s l)
    (ht : Queued N t (l.erase b)) (hc : c ≠ b) (hm : c ∈ queue N s) : c ∈ queue N t := by
  rw [h.queue_eq] at hm
  rw [ht.queue_eq]
  exact (mem_erase_of_ne hc).mpr hm

/-- SIEVE keeps its list under the lock, and only `SieveGetBuffer` takes buffers out. -/
def listPolicy (N : ℕ) (hN : 0 < N) : vtable.ListPolicy N where
  linked s b := b ∈ queue N s
  Inv s := ∃ l, Queued N s l
  locked g := match g with
    | Pc.start => false
    | _ => true
  At s g := match g with
    | Pc.start => False
    | Pc.loop _ => True
    | Pc.examine _ _ => s.hand ≠ N
  inv_init := ⟨_, Queued.of_init hN⟩
  linked_init b hb := by
    change b ∈ queue N (init N)
    rw [(Queued.of_init hN).queue_eq]
    exact mem_range.mpr hb
  locked_entry := rfl
  locked_of_at {s g} h := by cases g <;> simp_all
  acquire_iff {s g} := by cases g <;> simp [vtable, code] <;> grind
  code_keeps {s g} := by
    rintro ⟨l, h⟩ hat
    cases g with
    | start => simp [vtable, code, GetInstr.Keeps]
    | loop trycounter =>
      simp only [vtable, code]
      split
      · exact ⟨⟨l, h⟩, fun _ hx => hx⟩
      · exact fun _ => ‹_›
    | examine trycounter old =>
      have hh : s.hand ∈ l := h.hand_mem (hat rfl)
      have ha := h.advanceHand hh
      have hk : ∀ x, x ∈ queue N s → x ∈ queue N (advanceHand N s) := by
        rw [h.queue_eq, ha.queue_eq]
        exact fun _ hx => hx
      have hu := h.unlinkAndAdvance hh
      simp only [vtable, code]
      split_ifs
      · exact ⟨⟨l, ha⟩, trivial, hk⟩
      · exact ⟨⟨l, ha⟩, hk⟩
      · exact ⟨⟨l, ha⟩, trivial, hk⟩
      · exact ⟨⟨⟨l, ha⟩, trivial, hk⟩, fun _ => ⟨⟨l, ha⟩, trivial, hk⟩⟩
      · exact ⟨h.lt _ hh, ⟨_, hu⟩, fun x hx => mem_queue_erase h hu hx, fun _ => trivial⟩
  insert {s b} := by
    rintro ⟨l, h⟩ hb
    have hi := h.notifyInsert hb
    refine ⟨_, rfl, ⟨_, hi⟩, ?_, fun x hx => ?_⟩
    · simp [hi.queue_eq]
    · rw [h.queue_eq] at hx
      rw [hi.queue_eq]
      exact Links.Marked.mem_moveNewest x hx
  hit {f s b} h := by simp [vtable] at h
  invalidate {f s b} h := by simp [vtable] at h

/-! ## What the arrays hold after any calls -/

/-- A call of the policy, or `SieveAdvanceHand` by itself. -/
inductive Activity where
  | call (c : Call)
  | advanceHand

def Activity.InRange (N : ℕ) : Activity → Prop
  | call c => c.InRange N
  | advanceHand => True

def Activity.apply (N : ℕ) (s : State) : Activity → State
  | call c => vtable.call N s c
  | advanceHand => Sieve.advanceHand N s

/-- The arrays hold the list `l`: it can be followed in both directions, the links of other
buffers are marked, the membership test is right, and the hand is in the list. -/
structure Represents (N : ℕ) (s : State) (l : List ℕ) : Prop where
  nodup : l.Nodup
  lt : ∀ b ∈ l, b < N
  next : Links.Follows s.links.next (s.links.prev N) N l
  prev : Links.Follows s.links.prev (s.links.next N) N l.reverse
  off : ∀ b < N, b ∉ l → s.links.next b = N ∧ s.links.prev b = N
  inList : ∀ b < N, s.links.inList N b = true ↔ b ∈ l
  hand : s.hand = N ∧ l = [] ∨ s.hand < N ∧ s.hand ∈ l

theorem Queued.represents (h : Queued N s l) : Represents N s l where
  nodup := h.marked.nodup_list
  lt := h.lt
  next := h.marked.follows_next
  prev := h.marked.follows_prev
  off b hb := h.marked.off b hb.ne
  inList _ hb := h.marked.inList_iff hb.ne
  hand := h.hand.symm.imp_right fun hm => ⟨h.lt _ hm, hm⟩

theorem Queued.advanceHand_of_empty (h : Queued N s []) : Queued N (Sieve.advanceHand N s) [] := by
  refine ⟨h.marked, h.lt, .inr ⟨?_, rfl⟩⟩
  have hh : s.hand = N := (h.hand.resolve_left not_mem_nil).1
  have hn : s.links.next N = N := h.marked.next_anchor_eq_iff.mpr rfl
  have hp : s.links.prev N = N := h.marked.prev_anchor_eq_iff.mpr rfl
  simp [Sieve.advanceHand, hh, hn, hp]

theorem Activity.apply_queued (hN : 0 < N) {c : Activity} (hc : c.InRange N)
    (h : ∃ l, Queued N s l) : ∃ l, Queued N (c.apply N s) l := by
  cases c with
  | call c => exact (listPolicy N hN).call_inv h hc
  | advanceHand =>
    obtain ⟨l, h⟩ := h
    rcases h.hand with hm | ⟨-, rfl⟩
    · exact ⟨l, h.advanceHand hm⟩
    · exact ⟨[], h.advanceHand_of_empty⟩

end Sieve

/-- After `SieveInitialize` and any calls the arrays hold a list of buffers with the hand in it. -/
theorem sieve_queue_representation {N : ℕ} (hN : 0 < N) (cs : List Sieve.Activity)
    (hcs : ∀ c ∈ cs, c.InRange N) :
    ∃ l, Sieve.Represents N (cs.foldl (Sieve.Activity.apply N) (Sieve.init N)) l := by
  have hrun : ∃ l, Sieve.Queued N (cs.foldl (Sieve.Activity.apply N) (Sieve.init N)) l := by
    refine List.foldlRecOn cs _ (motive := fun s => ∃ l, Sieve.Queued N s l) ⟨_, .of_init hN⟩ ?_
    exact fun s hs c hc => Sieve.Activity.apply_queued hN (hcs c hc) hs
  obtain ⟨l, h⟩ := hrun
  exact ⟨l, h.represents⟩

/-- Buffer 0 is evicted, the hand moves on, and buffer 0 is inserted again. -/
theorem sieve_queue_representation_reinsert : 0 < 2 ∧ ∃ l, Sieve.Represents 2
    ([.call (.getBuffer (List.replicate 3 ⟨0, true⟩)), .advanceHand, .call (.notifyInsert 0)].foldl
      (Sieve.Activity.apply 2) (Sieve.init 2)) l :=
  ⟨by decide, sieve_queue_representation (by decide) _ (by simp [Sieve.Activity.InRange, Call.InRange])⟩

end PostgreSieve
