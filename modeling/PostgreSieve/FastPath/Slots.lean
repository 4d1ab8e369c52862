import PostgreSieve.FastPath.Basic

/-! # The slots of a backend

A slot that is in use belongs to one relation, and no two slots in use belong to the same one.
-/

namespace PostgreSieve.FastPath

open List

/-- The lock is recorded in one of the slots. -/
def SlotHolds (slots : List Slot) (rel : ℕ) (m : LockMode) : Prop :=
  ∃ slot ∈ slots, slot.relId = rel ∧ m ∈ slot.lockBits

/-- Two slots are not in use for the same relation. -/
def Slot.Apart (a b : Slot) : Prop := a.lockBits ≠ ∅ → b.lockBits ≠ ∅ → a.relId ≠ b.relId

/-- The number of slots in use. -/
def usedSlots (slots : List Slot) : ℕ := slots.countP fun slot => slot.lockBits ≠ ∅

structure SlotsOk (slots : List Slot) (useCount : ℕ) : Prop where
  apart : slots.Pairwise Slot.Apart
  weak : ∀ slot ∈ slots, ∀ m ∈ slot.lockBits, m.weak = true
  used : usedSlots slots ≤ useCount

theorem usedSlots_append (l l' : List Slot) :
    usedSlots (l ++ l') = usedSlots l + usedSlots l' := by
  simp [usedSlots]

theorem usedSlots_cons (slot : Slot) (l : List Slot) :
    usedSlots (slot :: l) = usedSlots l + if slot.lockBits = ∅ then 0 else 1 := by
  by_cases h : slot.lockBits = ∅ <;> simp [usedSlots, h]

variable {slots pre post : List Slot} {slot : Slot} {relid rel n limit : ℕ}
  {mode m : LockMode}
variable {k : ℕ} {found : Bool} {slots' : List Slot}

theorem slotHolds_split :
    SlotHolds (pre ++ slot :: post) rel m ↔
      SlotHolds (pre ++ post) rel m ∨ slot.relId = rel ∧ m ∈ slot.lockBits := by
  simp only [SlotHolds, perm_middle.mem_iff, exists_mem_cons_iff]
  exact or_comm

theorem Slot.Apart.symm {a b : Slot} (h : a.Apart b) : b.Apart a := fun hb ha => (h ha hb).symm

theorem SlotsOk.replace (h : SlotsOk (pre ++ slot :: post) n) (slot' : Slot)
    (hapart : slot'.lockBits ≠ ∅ → ∀ other ∈ pre ++ post, other.lockBits ≠ ∅ →
      slot'.relId ≠ other.relId)
    (hweak : ∀ m ∈ slot'.lockBits, m.weak = true)
    (hused : usedSlots (pre ++ slot' :: post) ≤ k) : SlotsOk (pre ++ slot' :: post) k := by
  obtain ⟨hpairs, hw, -⟩ := h
  rw [pairwise_middle .symm, pairwise_cons] at hpairs
  refine ⟨?_, ?_, hused⟩
  · rw [pairwise_middle .symm, pairwise_cons]
    exact ⟨fun other hother hs => hapart hs other hother, hpairs.2⟩
  · simp only [perm_middle.mem_iff, forall_mem_cons] at hw ⊢
    exact ⟨hweak, hw.2⟩

theorem SlotsOk.relId_ne (h : SlotsOk (pre ++ slot :: post) n) (hslot : slot.lockBits ≠ ∅) :
    ∀ other ∈ pre ++ post, other.lockBits ≠ ∅ → slot.relId ≠ other.relId := by
  have hpairs := h.apart
  rw [pairwise_middle .symm, pairwise_cons] at hpairs
  exact fun other hother => hpairs.1 other hother hslot

theorem modify_split (f : Slot → Slot) :
    (pre ++ slot :: post).modify pre.length f = pre ++ f slot :: post := by
  induction pre with
  | nil => rfl
  | cons a pre ih => simpa using ih

/-! ## Granting -/

/-- The result of the scan: the slot of the relation, or one that is not in use. -/
theorem scanSlots_spec (pre : List Slot) {rest : List Slot} {unused : Option ℕ} {f : ℕ}
    (hpre : ∀ slot ∈ pre, slot.lockBits ≠ ∅ → slot.relId ≠ relid)
    (hunused : ∀ u, unused = some u → ∃ l slot l', pre = l ++ slot :: l' ∧ u = l.length ∧
      slot.lockBits = ∅)
    (hscan : scanSlots relid rest pre.length unused = some (f, found)) :
    ∃ l slot l', pre ++ rest = l ++ slot :: l' ∧ f = l.length ∧
      (found = true → slot.lockBits ≠ ∅ ∧ slot.relId = relid) ∧
      (found = false → slot.lockBits = ∅ ∧
        ∀ other ∈ l ++ l', other.lockBits ≠ ∅ → other.relId ≠ relid) := by
  induction rest generalizing pre unused with
  | nil =>
    rw [scanSlots, Option.map_eq_some_iff] at hscan
    obtain ⟨u, rfl, heq⟩ := hscan
    obtain ⟨rfl, rfl⟩ := Prod.mk.inj heq
    obtain ⟨l, slot, l', rfl, rfl, hempty⟩ := hunused u rfl
    refine ⟨l, slot, l', by simp, rfl, by simp, fun _ => ⟨hempty, fun other hother => ?_⟩⟩
    refine hpre other ?_
    simp only [mem_append, mem_cons] at hother ⊢
    tauto
  | cons slot rest ih =>
    have hlen : pre.length + 1 = (pre ++ [slot]).length := by simp
    have hassoc : pre ++ slot :: rest = (pre ++ [slot]) ++ rest := by simp
    rw [scanSlots] at hscan
    split_ifs at hscan with hempty hrel
    · rw [hlen] at hscan
      rw [hassoc]
      refine ih _ (forall_mem_append.2 ⟨hpre, forall_mem_singleton.2 (absurd hempty)⟩)
        (fun u hu => ?_) hscan
      · cases hu
        exact ⟨pre, slot, [], rfl, rfl, hempty⟩
    · cases hscan
      exact ⟨pre, slot, rest, rfl, rfl, fun _ => ⟨hempty, hrel⟩, by simp⟩
    · rw [hlen] at hscan
      rw [hassoc]
      refine ih _ (forall_mem_append.2 ⟨hpre, forall_mem_singleton.2 fun _ => hrel⟩)
        (fun u hu => ?_) hscan
      · obtain ⟨l, a, l', rfl, hlen', ha⟩ := hunused u hu
        exact ⟨l, a, l' ++ [slot], by simp, hlen', ha⟩

theorem SlotsOk.grant (h : SlotsOk slots n) (hmode : mode.weak = true)
    (hgrant : fastPathGrantRelationLock relid mode slots n = some (slots', k)) :
    SlotsOk slots' k ∧
      ∀ rel m, SlotHolds slots' rel m ↔ SlotHolds slots rel m ∨ rel = relid ∧ m = mode := by
  unfold fastPathGrantRelationLock at hgrant
  split at hgrant
  next f hscan =>
    cases hgrant
    obtain ⟨l, slot, l', heq, rfl, hfound, -⟩ := scanSlots_spec [] (by simp) (by simp) hscan
    obtain ⟨hbits, rfl⟩ := hfound rfl
    subst heq
    rw [modify_split]
    have hinsert : insert mode slot.lockBits ≠ ∅ := Finset.insert_ne_empty _ _
    refine ⟨h.replace ⟨slot.relId, insert mode slot.lockBits⟩ (fun _ => h.relId_ne hbits) ?_ ?_,
      fun rel m => ?_⟩
    · intro m hm
      rcases Finset.mem_insert.1 hm with rfl | hm
      · exact hmode
      · exact h.weak slot (by simp) m hm
    · have hused := h.used
      simp only [usedSlots_append, usedSlots_cons, if_neg hbits, if_neg hinsert] at hused ⊢
      exact hused
    · rw [slotHolds_split, slotHolds_split, Finset.mem_insert, or_assoc]
      refine or_congr_right ⟨?_, ?_⟩
      · rintro ⟨rfl, rfl | hm⟩
        · exact Or.inr ⟨rfl, rfl⟩
        · exact Or.inl ⟨rfl, hm⟩
      · rintro (⟨rfl, hm⟩ | ⟨rfl, rfl⟩)
        · exact ⟨rfl, Or.inr hm⟩
        · exact ⟨rfl, Or.inl rfl⟩
  next f hscan =>
    cases hgrant
    obtain ⟨l, slot, l', heq, rfl, -, hfound⟩ := scanSlots_spec [] (by simp) (by simp) hscan
    obtain ⟨hbits, hother⟩ := hfound rfl
    subst heq
    rw [modify_split, hbits]
    refine ⟨h.replace _ (fun _ other ho hb => (hother other ho hb).symm) ?_ ?_, fun rel m => ?_⟩
    · intro m hm
      rw [Finset.mem_insert] at hm
      rw [hm.resolve_right (Finset.notMem_empty m)]
      exact hmode
    · have hused := h.used
      simp only [usedSlots_append, usedSlots_cons, hbits, if_true, Finset.insert_ne_empty,
        if_false] at hused ⊢
      omega
    · rw [slotHolds_split, slotHolds_split, hbits]
      simp only [Finset.notMem_empty, and_false, or_false, insert_empty_eq, Finset.mem_singleton]
      exact or_congr_right ⟨fun ⟨h, h'⟩ => ⟨h.symm, h'⟩, fun ⟨h, h'⟩ => ⟨h.symm, h'⟩⟩
  next => cases hgrant

/-! ## Releasing -/

theorem SlotsOk.map (h : SlotsOk slots n) {f : Slot → Slot}
    (hrel : ∀ slot, (f slot).relId = slot.relId)
    (hbits : ∀ slot, (f slot).lockBits ⊆ slot.lockBits) (hused : usedSlots (slots.map f) ≤ k) :
    SlotsOk (slots.map f) k := by
  have hne : ∀ slot, (f slot).lockBits ≠ ∅ → slot.lockBits ≠ ∅ := by
    intro slot hslot hempty
    exact hslot (Finset.subset_empty.1 (hempty ▸ hbits slot))
  refine ⟨?_, ?_, hused⟩
  · refine pairwise_map.2 (h.apart.imp fun {a b} hab ha hb => ?_)
    rw [hrel, hrel]
    exact hab (hne a ha) (hne b hb)
  · intro slot hslot m hm
    obtain ⟨old, hold, rfl⟩ := mem_map.1 hslot
    exact h.weak old hold m (hbits old hm)

theorem SlotsOk.unGrant (h : SlotsOk slots n)
    (hun : fastPathUnGrantRelationLock relid mode slots = (found, slots', k)) :
    SlotsOk slots' k ∧ (found = true ↔ SlotHolds slots relid mode) ∧
      ∀ rel m, SlotHolds slots' rel m ↔ SlotHolds slots rel m ∧ ¬ (rel = relid ∧ m = mode) := by
  obtain ⟨rfl, heq⟩ := Prod.mk.inj hun
  obtain ⟨rfl, rfl⟩ := Prod.mk.inj heq
  refine ⟨h.map (fun slot => ?_) (fun slot => ?_) le_rfl, ?_, fun rel m => ?_⟩
  · split_ifs <;> rfl
  · split_ifs
    · exact Finset.erase_subset _ _
    · exact subset_rfl
  · simp [SlotHolds, any_eq_true]
  · simp only [SlotHolds, mem_map]
    constructor
    · rintro ⟨_, ⟨slot, hslot, rfl⟩, hrel, hm⟩
      split_ifs at hrel hm with hif
      · obtain ⟨hne, hm⟩ := Finset.mem_erase.1 hm
        exact ⟨⟨slot, hslot, hrel, hm⟩, fun heq => hne heq.2⟩
      · refine ⟨⟨slot, hslot, hrel, hm⟩, ?_⟩
        rintro ⟨rfl, rfl⟩
        exact hif ⟨hrel, hm⟩
    · rintro ⟨⟨slot, hslot, hrel, hm⟩, hne⟩
      refine ⟨_, ⟨slot, hslot, rfl⟩, ?_⟩
      split_ifs with hif
      · refine ⟨hrel, Finset.mem_erase.2 ⟨fun heq => hne ⟨?_, heq⟩, hm⟩⟩
        rw [← hrel, hif.1]
      · exact ⟨hrel, hm⟩

/-! ## Transferring -/

theorem mem_weakModes {m : LockMode} : m ∈ weakModes ↔ m.weak = true := by
  cases m <;> decide

theorem takeSlot_cases (relid limit : ℕ) (slots : List Slot) :
    (takeSlot relid limit slots = ([], slots) ∧
      ∀ slot ∈ slots, slot.lockBits ≠ ∅ → slot.relId ≠ relid) ∨
    ∃ pre slot post moved, slots = pre ++ slot :: post ∧ slot.relId = relid ∧
      slot.lockBits ≠ ∅ ∧ moved = (weakModes.filter fun mode => mode ∈ slot.lockBits).take limit ∧
      takeSlot relid limit slots
        = (moved, pre ++ ⟨slot.relId, slot.lockBits \ moved.toFinset⟩ :: post) := by
  induction slots with
  | nil => exact Or.inl ⟨rfl, nofun⟩
  | cons slot rest ih =>
    rw [takeSlot]
    split_ifs with hif
    · exact Or.inr ⟨[], slot, rest, _, rfl, hif.1, hif.2, rfl, rfl⟩
    · rcases ih with ⟨htake, hnone⟩ | ⟨pre, found, post, moved, rfl, hrel, hbits, hmoved, htake⟩
      · refine Or.inl ⟨by rw [htake], fun a ha hbits hrel => ?_⟩
        rcases mem_cons.1 ha with rfl | ha
        · exact hif ⟨hrel, hbits⟩
        · exact hnone a ha hbits hrel
      · exact Or.inr ⟨slot :: pre, found, post, moved, rfl, hrel, hbits, hmoved, by rw [htake]; rfl⟩

theorem SlotsOk.take (h : SlotsOk slots n) {moved : List LockMode}
    (htake : takeSlot relid limit slots = (moved, slots')) :
    SlotsOk slots' n ∧ moved.Nodup ∧ (∀ m ∈ moved, SlotHolds slots relid m) ∧
      (∀ rel m, SlotHolds slots' rel m ↔ SlotHolds slots rel m ∧ ¬ (rel = relid ∧ m ∈ moved)) ∧
      (weakModes.length ≤ limit → ∀ m, ¬ SlotHolds slots' relid m) := by
  rcases takeSlot_cases relid limit slots with
    ⟨heq, hnone⟩ | ⟨pre, slot, post, moved', rfl, hrel, hbits, hmoved, heq⟩
  · rw [htake] at heq
    obtain ⟨rfl, rfl⟩ := Prod.mk.inj heq
    refine ⟨h, nodup_nil, nofun, by simp, fun _ m => ?_⟩
    rintro ⟨slot, hslot, hrel, hm⟩
    exact hnone slot hslot (Finset.ne_empty_of_mem hm) hrel
  · rw [htake] at heq
    obtain ⟨rfl, rfl⟩ := Prod.mk.inj heq
    have hmem : ∀ m ∈ moved, m ∈ slot.lockBits := by
      intro m hm
      rw [hmoved] at hm
      simpa using (mem_filter.1 (mem_of_mem_take hm)).2
    have hunique := h.relId_ne hbits
    have hother : ∀ m, ¬ SlotHolds (pre ++ post) relid m := by
      rintro m ⟨other, ho, hrel', hm⟩
      exact hunique other ho (Finset.ne_empty_of_mem hm) (hrel.trans hrel'.symm)
    refine ⟨h.replace _ (fun hne => ?_) ?_ ?_, ?_, ?_, fun rel m => ?_, fun hlimit m => ?_⟩
    · exact hunique
    · exact fun m hm => h.weak slot (by simp) m (Finset.mem_sdiff.1 hm).1
    · refine le_trans ?_ h.used
      simp only [usedSlots_append, usedSlots_cons, if_neg hbits]
      split_ifs <;> omega
    · rw [hmoved]
      exact ((by decide : weakModes.Nodup).filter _).sublist (take_sublist _ _)
    · exact fun m hm => ⟨slot, by simp, hrel, hmem m hm⟩
    · rw [slotHolds_split, slotHolds_split]
      simp only [Finset.mem_sdiff, mem_toFinset]
      constructor
      · rintro (hold | ⟨rfl, hm, hnot⟩)
        · refine ⟨Or.inl hold, ?_⟩
          rintro ⟨rfl, -⟩
          exact hother m hold
        · exact ⟨Or.inr ⟨rfl, hm⟩, fun heq => hnot heq.2⟩
      · rintro ⟨hold | ⟨rfl, hm⟩, hnot⟩
        · exact Or.inl hold
        · exact Or.inr ⟨rfl, hm, fun hin => hnot ⟨hrel, hin⟩⟩
    · rw [slotHolds_split]
      rintro (hold | ⟨-, hm⟩)
      · exact hother m hold
      · rw [Finset.mem_sdiff, mem_toFinset, hmoved] at hm
        refine hm.2 ?_
        rw [take_of_length_le ((length_filter_le _ _).trans hlimit)]
        exact mem_filter.2 ⟨mem_weakModes.2 (h.weak slot (by simp) m hm.1), by simpa using hm.1⟩

end PostgreSieve.FastPath
