import PostgreSieve.Eviction.Lru
import PostgreSieve.Lists.Cycle

/-! # The list and the victim of LRU

`LRUGetBuffer` goes round the list from the least recently used buffer on, past the pinned ones.
-/

namespace PostgreSieve.Lru

open Cycle

/-- The arrays hold the list `l`: it can be followed in both directions, and `LRU_IN_LIST` is
right. -/
structure Represents (N : ℕ) (s : State) (l : List ℕ) : Prop where
  nodup : l.Nodup
  lt : ∀ b ∈ l, b < N
  next : Links.Follows s.links.next (s.links.prev N) N l
  prev : Links.Follows s.links.prev (s.links.next N) N l.reverse
  inList : ∀ b < N, Lru.inList N s b = true ↔ b ∈ l

variable {N t : ℕ} {s : State} {l : List ℕ} {h : ℕ → BufState}

section

variable (hq : Queued N s l)
include hq

theorem Queued.represents : Represents N s l where
  nodup := hq.marked.nodup_list
  lt := hq.lt
  next := hq.marked.follows_next
  prev := hq.marked.follows_prev
  inList _ hb := hq.inList_iff hb

theorem Queued.length_le : l.length ≤ N := hq.marked.length_le hq.lt

theorem Queued.nextCandidate_item (hl : 0 < l.length) (t : ℕ) :
    nextCandidate N s (item hl t) = item hl (t + 1) := next_item hl hq.marked.toHolds t

theorem soloStep_start (hl : 0 < l.length) :
    vtable.soloStep N (⟨s, h⟩, .start) = .inl (⟨s, h⟩, .loop (item hl 0) N) := by
  have hprev : s.links.prev N = item hl 0 := by
    obtain ⟨x, l, rfl⟩ := List.exists_cons_of_length_pos hl
    exact hq.marked.prev_oldest
  simp [EvictionVtable.soloStep, code, GetInstr.solo, hprev]

end

theorem soloStep_loop {c k : ℕ} (hc : c < N) :
    vtable.soloStep N (⟨s, h⟩, .loop c k) = .inl (⟨s, h⟩, .examine c k (h c)) := by
  simp [EvictionVtable.soloStep, code, hc.ne, GetInstr.solo]

section

variable (hq : Queued N s l) (hlocked : ∀ b ∈ l, (h b).has bmLocked = false)
include hq hlocked

/-- The loop past pinned buffers. -/
theorem leads_loop
    (hl : 0 < l.length) (ht : t < N) (hpin : ∀ t' < t, (h (item hl t')).getRefcount ≠ 0) :
    Leads (vtable.soloStep N) (1 + 2 * t) (⟨s, h⟩, .start)
      (⟨s, h⟩, .loop (item hl t) (N - t)) := by
  induction t with
  | zero => exact Leads.one (soloStep_start hq hl)
  | succ t ih =>
    have hmem : item hl t ∈ l := item_mem hl t
    have htries : N - (t + 1) ≠ 0 := by omega
    have hstep : vtable.soloStep N (⟨s, h⟩, .examine (item hl t) (N - t) (h (item hl t))) =
        .inl (⟨s, h⟩, .loop (item hl (t + 1)) (N - (t + 1))) := by
      simp [EvictionVtable.soloStep, code, hlocked _ hmem, hpin t (by omega), htries,
        GetInstr.solo, hq.nextCandidate_item, Nat.sub_sub]
    have hvisit := (Leads.one (soloStep_loop (hq.lt _ hmem))).trans (Leads.one hstep)
    exact (ih (by omega) fun t' ht' => hpin t' (by omega)).trans hvisit

theorem getsBuffer_find {v : ℕ} (hv : l.find? (fun b => (h b).getRefcount = 0) = some v) :
    vtable.GetsBuffer N ⟨s, h⟩
      ⟨⟨unlink N s v, Function.update h v (h v + bufRefcountOne)⟩, .ok v⟩ := by
  obtain ⟨hfree, t, ht, rfl, hpin⟩ := List.find?_eq_some_iff_getElem.mp hv
  have hl : 0 < l.length := by omega
  have hitem {d : ℕ} (hd : d < l.length) : item hl d = l[d] := by
    simpa using item_mul_add hl hd 0
  have hmem : l[t] ∈ l := List.getElem_mem ht
  have hloop := leads_loop hq hlocked hl (ht.trans_le hq.length_le) fun t' ht' => by
    rw [hitem (by omega)]
    simpa using hpin t' ht'
  rw [hitem ht] at hloop
  refine hloop.returns (Returns.next (soloStep_loop (hq.lt _ hmem)) (Returns.done ?_))
  have hfree : (h l[t]).getRefcount = 0 := by simpa using hfree
  simp [EvictionVtable.soloStep, code, hlocked _ hmem, hfree, GetInstr.solo]

theorem getsBuffer_error (hl : 0 < l.length) (hpin : ∀ b ∈ l, (h b).getRefcount ≠ 0) :
    vtable.GetsBuffer N ⟨s, h⟩ ⟨⟨s, h⟩, .error "no unpinned buffers"⟩ := by
  have hN : 0 < N := hl.trans_le hq.length_le
  have hmem : item hl (N - 1) ∈ l := item_mem hl _
  have hloop := leads_loop hq hlocked hl (Nat.sub_one_lt hN.ne') fun t' _ => hpin _ (item_mem hl t')
  have hlast : N - (N - 1) - 1 = 0 := by omega
  refine hloop.returns (Returns.next (soloStep_loop (hq.lt _ hmem)) (Returns.done ?_))
  simp [EvictionVtable.soloStep, code, hlocked _ hmem, hpin _ hmem, hlast, GetInstr.solo]

end

theorem getsBuffer_nil (hq : Queued N s []) :
    vtable.GetsBuffer N ⟨s, h⟩ ⟨⟨s, h⟩, .error "no buffers in LRU queue"⟩ := by
  have hprev : s.links.prev N = N := hq.marked.prev_anchor_eq_iff.mpr rfl
  refine Returns.next (t := (⟨s, h⟩, .loop N N)) ?_ (Returns.done ?_)
  · simp [EvictionVtable.soloStep, code, GetInstr.solo, hprev]
  · simp [EvictionVtable.soloStep, code, GetInstr.solo]

/-- After any calls the arrays hold a list, and `LRUGetBuffer` takes its least recently used
unpinned buffer out. -/
theorem lru_list_and_victim {N : ℕ} (hN : 0 < N) (cs : List Call) (hcs : ∀ c ∈ cs, c.InRange N) :
    ∃ l, Represents N (cs.foldl (vtable.call N) (vtable.init N)) l ∧
      ∀ h : ℕ → BufState, (∀ b ∈ l, (h b).has bmLocked = false) →
        ∃ r, vtable.GetsBuffer N ⟨cs.foldl (vtable.call N) (vtable.init N), h⟩ r ∧
          (r.victim = .error "no unpinned buffers" ↔ l ≠ [] ∧ ∀ b ∈ l, (h b).getRefcount ≠ 0) ∧
          match l.find? (fun b => (h b).getRefcount = 0) with
          | none => r.headers = h ∧ Represents N r.policy l ∧
              (l = [] → r.victim = .error "no buffers in LRU queue")
          | some v => r.victim = .ok v ∧ Represents N r.policy (l.erase v) := by
  obtain ⟨l, hq⟩ := (listPolicy N hN).calls_inv hcs
  refine ⟨l, hq.represents, fun h hlocked => ?_⟩
  cases hv : l.find? fun b => (h b).getRefcount = 0 with
  | none =>
    have hpin : ∀ b ∈ l, (h b).getRefcount ≠ 0 := by simpa using hv
    rcases l.eq_nil_or_concat with rfl | ⟨l, x, rfl⟩
    · exact ⟨_, getsBuffer_nil hq, by simp, rfl, hq.represents, fun _ => rfl⟩
    · exact ⟨_, getsBuffer_error hq hlocked (by simp) hpin, by simpa using hpin, rfl,
        hq.represents, by simp⟩
  | some v =>
    have hmem := List.mem_of_find?_eq_some hv
    have hfree : (h v).getRefcount = 0 := by simpa using List.find?_some hv
    exact ⟨_, getsBuffer_find hq hlocked hv, by simpa using fun _ => ⟨v, hmem, hfree⟩, rfl,
      (hq.unlink hmem).represents⟩

/-- Buffer 0 is evicted and inserted again, and buffer 1 is pinned. -/
theorem lru_list_and_victim_reinsert :
    let s := [.getBuffer (List.replicate 3 ⟨0, true⟩), .notifyInsert 0].foldl (vtable.call 3)
      (vtable.init 3)
    ∃ l, Represents 3 s l ∧ ∃ r, vtable.GetsBuffer 3
      ⟨s, fun b => if b = 1 then bufRefcountOne else 0⟩ r := by
  obtain ⟨l, hl, hget⟩ := lru_list_and_victim (N := 3) (by decide)
    [.getBuffer (List.replicate 3 ⟨0, true⟩), .notifyInsert 0] (by simp [Call.InRange])
  obtain ⟨r, hr, -⟩ := hget (fun b => if b = 1 then bufRefcountOne else 0) fun b _ => by
    split <;> decide
  exact ⟨l, hl, r, hr⟩

end PostgreSieve.Lru
