import Mathlib.Data.Finset.Sort
import Mathlib.Order.Interval.Finset.Nat
import PostgreSieve.ProcArray.KnownEntries
import PostgreSieve.Runs.Basic

/-! # Known-assigned ids as a set

Whatever calls the startup process makes, the array represents the set of ids that were added and
not removed, as long as the ids lie in one window and the set fits into the array.
-/

namespace PostgreSieve.Xact

open List hiding beq_eq_decide
open Option

/-- The calls of the startup process, with full ids. An invalid id is `none`. -/
inductive KnownCall where
  | add (fromXid toXid : ℕ) (clock : Clock)
  | remove (xid : ℕ)
  | removeTree (xid : Option ℕ) (subxids : List ℕ) (clock : Clock)
  | removePreceding (xid : Option ℕ) (isPrepared : ℕ → Bool) (clock : Clock)
  | compress (reason : KAXCompressReason) (clock : Clock)

namespace KnownCall

/-- The call with the words of the ids. -/
def perform (k : KnownAssigned) : KnownCall → KnownAssigned × Option String
  | add fromXid toXid clock => k.add (xidFromFull fromXid) (xidFromFull toXid) clock
  | remove xid => (k.remove (xidFromFull xid), none)
  | removeTree xid subxids clock =>
    (k.removeTree (xid.elim invalidTransactionId xidFromFull) (subxids.map xidFromFull) clock, none)
  | removePreceding xid isPrepared clock =>
    (k.removePreceding (xid.elim invalidTransactionId xidFromFull) isPrepared clock, none)
  | compress reason clock => (k.compress reason clock, none)

/-- The ids from one to another. -/
def ids (fromXid toXid : ℕ) : Finset ℕ := {x ∈ Finset.Icc fromXid toXid | FullNormal x}

/-- What the call does to a set. -/
def apply (s : Finset ℕ) : KnownCall → Finset ℕ
  | add fromXid toXid _ => s ∪ ids fromXid toXid
  | remove xid => s.erase xid
  | removeTree xid subxids _ => {x ∈ s | xid ≠ some x ∧ x ∉ subxids}
  | removePreceding none _ _ => ∅
  | removePreceding (some xid) isPrepared _ => {x ∈ s | xid ≤ x ∨ isPrepared (xidFromFull x) = true}
  | compress _ _ => s

/-- All ids involved are in the window. -/
def InWindow (base : ℕ) : KnownCall → Prop
  | add fromXid toXid _ => Xact.InWindow base fromXid ∧ Xact.InWindow base toXid ∧ fromXid ≤ toXid
  | remove xid => Xact.InWindow base xid
  | removeTree xid subxids _ =>
    (∀ x ∈ xid, Xact.InWindow base x) ∧ ∀ x ∈ subxids, Xact.InWindow base x
  | removePreceding xid _ _ => ∀ x ∈ xid, Xact.InWindow base x
  | compress _ _ => True

end KnownCall

/-- The array next to the set it should represent, and all ids that were ever added. -/
structure KnownSys where
  array : KnownAssigned
  members : Finset ℕ
  added : Finset ℕ

namespace KnownSys

/-- A call that raises an error leaves the set as it is. -/
def step (t : KnownSys) (c : KnownCall) : Option KnownSys :=
  match c.perform t.array with
  | (array, none) =>
    some { array := array, members := c.apply t.members, added := c.apply t.added ∪ t.added }
  | (array, some _) => some { t with array := array }

/-- The set fits into the array after the call. -/
def Fits (t : KnownSys) : KnownCall → Prop
  | .add fromXid toXid _ => (∀ m ∈ t.members, m < fromXid) →
    t.members.card + (KnownCall.ids fromXid toXid).card ≤ t.array.max
  | _ => True

def start (max : ℕ) (xids : ℕ → ℕ) (valid : ℕ → Bool) : KnownSys where
  array := .initial max xids valid
  members := ∅
  added := ∅

end KnownSys

namespace KnownAssigned

variable {base x : ℕ} {k k' k'' : KnownAssigned} {l l' l'' : List (ℕ × Bool)}
  {gone gone' : ℕ → Bool}
variable {subxids : List ℕ} {e : ℕ × Bool} {fromXid toXid : ℕ}

/-- The array has these entries, the first of which is valid, and counts them. -/
structure Good (base : ℕ) (k : KnownAssigned) (l : List (ℕ × Bool)) : Prop where
  holds : k.Holds l
  sorted : Sorted base l
  trimmed : trim l = l
  num : k.num = (liveIds l).length
  room : k.head ≤ k.max

/-- Some ids are gone from the set, and no entries are new. -/
structure Evolves (base : ℕ) (k : KnownAssigned) (l : List (ℕ × Bool)) (gone : ℕ → Bool)
    (k' : KnownAssigned) (l' : List (ℕ × Bool)) : Prop where
  good : Good base k' l'
  ids : l'.map (·.1) ⊆ l.map (·.1)
  live : liveIds l' = (liveIds l).filter (!gone ·)
  max : k'.max = k.max

theorem Evolves.refl (h : Good base k l) : Evolves base k l (fun _ => false) k l where
  good := h
  ids := List.Subset.refl _
  live := by simp
  max := rfl

theorem Evolves.trans (h : Evolves base k l gone k' l') (h' : Evolves base k' l' gone' k'' l'') :
    Evolves base k l (fun x => gone x || gone' x) k'' l'' where
  good := h'.good
  ids := List.Subset.trans h'.ids h.ids
  live := by
    rw [h'.live, h.live, List.filter_filter]
    congr 1
    funext x
    cases gone x <;> cases gone' x <;> rfl
  max := h'.max.trans h.max

theorem Evolves.of_eq (h : Evolves base k l gone k' l') (hgone : ∀ x, gone x = gone' x) :
    Evolves base k l gone' k' l' :=
  funext hgone ▸ h

theorem Good.compress (h : Good base k l) (reason : KAXCompressReason) (clock : Clock) :
    ∃ l', Evolves base k l (fun _ => false) (k.compress reason clock) l' ∧
      (reason = .noSpace → (k.compress reason clock).tail = 0 ∧ l' = l.filter (·.2)) := by
  obtain ⟨l', hc⟩ := h.holds.compress reason clock
  have hhead := h.holds.head
  have hhead' := hc.holds.head
  have hroom := h.room
  have hmax := hc.max
  refine ⟨l', ?_⟩
  rcases hc.entries with ⟨rfl, htail⟩ | ⟨hne, rfl, htail⟩
  · have hsub : (l.filter (·.2)).Sublist l := filter_sublist
    have hlen := hsub.length_le
    refine ⟨⟨⟨hc.holds, h.sorted.sublist hsub, trim_filter l, ?_, by omega⟩, ?_, ?_, hmax⟩,
      fun _ => ⟨htail, rfl⟩⟩
    · rw [hc.num, h.num, liveIds_filter]
    · exact (hsub.map _).subset
    · simp [liveIds_filter]
  · refine ⟨⟨⟨hc.holds, h.sorted, h.trimmed, hc.num.trans h.num, by omega⟩, List.Subset.refl _,
      by simp, hmax⟩, fun heq => absurd heq hne⟩

theorem map_trim_clear_subset (gone : ℕ → Bool) (l : List (ℕ × Bool)) :
    (trim (clear gone l)).map (·.1) ⊆ l.map (·.1) := by
  have hsub : (trim (clear gone l)).Sublist (clear gone l) := dropWhile_sublist _
  have hmap : (clear gone l).map (·.1) = l.map (·.1) := by
    simp [clear, Function.comp_def]
  exact hmap ▸ (hsub.map _).subset

section

variable (h : Good base k l)
include h

theorem Good.remove (hx : InWindow base x) :
    Evolves base k l (· == x) (k.remove (xidFromFull x)) (trim (clear (· == x) l)) := by
  obtain ⟨hholds, hnum, hmax, hhead⟩ := h.holds.remove h.sorted hx h.trimmed h.num
  refine ⟨⟨hholds, ?_, trim_trim _, ?_, ?_⟩, map_trim_clear_subset _ l, ?_, hmax⟩
  · exact (h.sorted.clear _).sublist (dropWhile_sublist _)
  · rw [hnum, liveIds_trim]
  · exact hhead.trans (h.room.trans_eq hmax.symm)
  · rw [liveIds_trim, liveIds_clear]

theorem Good.removeAll (hx : ∀ x ∈ subxids, InWindow base x) :
    ∃ l', Evolves base k l (fun x => decide (x ∈ subxids))
      ((subxids.map xidFromFull).foldl KnownAssigned.remove k) l' := by
  induction subxids generalizing k l with
  | nil => exact ⟨l, (Evolves.refl h).of_eq fun y => by simp⟩
  | cons x subxids ih =>
    have h₁ := h.remove (hx x mem_cons_self)
    obtain ⟨l', h₂⟩ := ih h₁.good fun y hy => hx y (mem_cons_of_mem x hy)
    exact ⟨l', (h₁.trans h₂).of_eq fun y => by simp [beq_eq_decide]⟩

theorem Good.removeTree {xid : Option ℕ} (clock : Clock) (hxid : ∀ x ∈ xid, InWindow base x)
    (hsub : ∀ x ∈ subxids, InWindow base x) :
    ∃ l', Evolves base k l (fun x => decide (xid = some x ∨ x ∈ subxids))
      (k.removeTree (xid.elim invalidTransactionId xidFromFull) (subxids.map xidFromFull) clock)
      l' := by
  have htop : ∃ l₁, Evolves base k l (fun x => decide (xid = some x))
      (if xid.elim invalidTransactionId xidFromFull ≠ invalidTransactionId then
        k.remove (xid.elim invalidTransactionId xidFromFull) else k) l₁ := by
    cases xid with
    | none => exact ⟨l, (Evolves.refl h).of_eq fun y => by simp⟩
    | some x =>
      have hx := hxid x rfl
      rw [elim_some, if_pos (xidFromFull_ne_invalid hx.1)]
      exact ⟨_, (h.remove hx).of_eq fun y => by simp [beq_eq_decide, eq_comm]⟩
  obtain ⟨l₁, h₁⟩ := htop
  obtain ⟨l₂, h₂⟩ := h₁.good.removeAll hsub
  obtain ⟨l₃, h₃, -⟩ := h₂.good.compress .transactionEnd clock
  exact ⟨l₃, ((h₁.trans h₂).trans h₃).of_eq fun y => by simp⟩

theorem Good.removePreceding (isPrepared : ℕ → Bool) (clock : Clock) (hx : InWindow base x) :
    ∃ l', Evolves base k l (pruned isPrepared x)
      (k.removePreceding (xidFromFull x) isPrepared clock) l' := by
  obtain ⟨k₁, count, heq, hseg, hcount, -, htail, hhead, hnum, hmax⟩ :=
    @pruneLoop_spec k _ x base l isPrepared 0 h.holds.seg h.sorted hx
  rw [KnownAssigned.removePreceding, if_neg (xidFromFull_ne_invalid hx.1), h.holds.sub, heq]
  dsimp only
  generalize hk₂ : ({ k₁ with num := k₁.num - count } : KnownAssigned) = k₂
  have hroom := h.room
  have hholds : k₂.Holds (clear (pruned isPrepared x) l) := by
    subst hk₂
    refine ⟨?_, ?_⟩
    · rw [htail]
      exact hseg.congr fun _ _ _ => ⟨rfl, rfl⟩
    · rw [htail, hhead, h.holds.head, clear, length_map]
  have hnum₂ : k₂.num = (liveIds (clear (pruned isPrepared x) l)).length := by
    have := h.num
    rw [← hk₂]
    dsimp only
    omega
  have hmax₂ : k₂.max = k.max := by rw [← hk₂]; exact hmax
  have hhead₂ : k₂.head = k.head := by rw [← hk₂]; exact hhead
  obtain ⟨hholds₃, hnum₃, hmax₃, hhead₃⟩ := hholds.setTail
  have h₃ : Evolves base k l (pruned isPrepared x)
      (k₂.setTail (k₂.skipInvalid k₂.tail (k₂.head - k₂.tail)))
      (trim (clear (pruned isPrepared x) l)) := by
    refine ⟨⟨hholds₃, ?_, trim_trim _, ?_, by omega⟩, map_trim_clear_subset _ l, ?_, by omega⟩
    · exact (h.sorted.clear _).sublist (dropWhile_sublist _)
    · rw [hnum₃, hnum₂, liveIds_trim]
    · rw [liveIds_trim, liveIds_clear]
  obtain ⟨l', h₄, -⟩ := h₃.good.compress .prune clock
  rw [show k₁.tail = k₂.tail by rw [← hk₂], hhead, ← hhead₂]
  exact ⟨l', (h₃.trans h₄).of_eq fun y => Bool.or_false _⟩

end

theorem good_clearAll (k : KnownAssigned) (isPrepared : ℕ → Bool) (clock : Clock) :
    Good base (k.removePreceding invalidTransactionId isPrepared clock) [] := by
  exact ⟨⟨trivial, rfl⟩, ⟨nofun, List.Pairwise.nil⟩, rfl, rfl, Nat.zero_le _⟩

theorem Holds.last (h : k.Holds l) (hlast : l.getLast? = some e) :
    k.tail < k.head ∧ k.xids (k.head - 1) = xidFromFull e.1 := by
  have hne : l ≠ [] := by
    rintro rfl
    cases hlast
  have hpos := length_pos_of_ne_nil hne
  have hhead := h.head
  have hget := (h.seg.get (show l.length - 1 < l.length by omega)).1
  rw [getLast?_eq_getElem?, getElem?_eq_getElem (by omega), some.injEq] at hlast
  refine ⟨by omega, ?_⟩
  rw [show k.head - 1 = k.tail + (l.length - 1) by omega, hget]
  exact congrArg (fun e => xidFromFull e.1) hlast

theorem Good.add_out_of_order (h : Good base k l) (clock : Clock) (hfrom : InWindow base fromXid)
    (hlast : l.getLast? = some e) (hge : fromXid ≤ e.1) :
    k.add (xidFromFull fromXid) (xidFromFull toXid) clock =
      (k, some "out-of-order XID insertion in KnownAssignedXids") := by
  obtain ⟨hlt, heq⟩ := h.holds.last hlast
  have hwin := h.sorted.window e (mem_of_getLast? hlast)
  have hfollows :
      transactionIdFollowsOrEquals (k.xids (k.head - 1)) (xidFromFull fromXid) = true := by
    rw [heq, followsOrEquals_iff hwin.1 hfrom.1 (hwin.near hfrom)]
    exact hge
  rw [KnownAssigned.add, if_pos ⟨hlt, hfollows⟩]

theorem Good.append (h : Good base k l) (hfrom : InWindow base fromXid)
    (hto : InWindow base toXid) (hle : fromXid ≤ toXid) (hlast : ∀ e ∈ l, e.1 < fromXid)
    (hroom : l.length + (idsFrom fromXid toXid).length + k.tail ≤ k.max) :
    ∃ k', k.insertXids (xidFromFull fromXid) (idsFrom fromXid toXid).length = (k', none) ∧
      Good base k' (l ++ (idsFrom fromXid toXid).map (·, true)) ∧
      liveIds (l ++ (idsFrom fromXid toXid).map (·, true)) = liveIds l ++ idsFrom fromXid toXid ∧
      k'.max = k.max := by
  obtain ⟨k', heq, hholds, hnum, hmax, htail⟩ := h.holds.insertXids hfrom.1 hroom
  have hlive : liveIds (l ++ (idsFrom fromXid toXid).map (·, true)) =
      liveIds l ++ idsFrom fromXid toXid := by
    simp [liveIds, List.filter_map, Function.comp_def]
  refine ⟨k', heq, ⟨hholds, ⟨?_, ?_⟩, ?_, ?_, ?_⟩, hlive, hmax⟩
  · rw [forall_mem_append, List.forall_mem_map]
    refine ⟨h.sorted.window, fun x hx => ?_⟩
    obtain ⟨hn, hge, hle'⟩ := (mem_idsFrom hfrom.1).mp hx
    exact ⟨hn, hfrom.2.1.trans hge, hle'.trans_lt hto.2.2⟩
  · refine pairwise_append.mpr ⟨h.sorted.lt, pairwise_map.mpr (idsFrom_sorted hfrom.1),
      fun e he => List.forall_mem_map.mpr fun x hx => ?_⟩
    exact (hlast e he).trans_le ((mem_idsFrom hfrom.1).mp hx).2.1
  · cases l with
    | nil =>
      rw [idsFrom, if_pos hle]
      rfl
    | cons e l =>
      have he := valid_of_trim h.trimmed
      simp [trim, he]
  · rw [hnum, h.num, hlive, length_append]
  · have := hholds.head
    rw [length_append, length_map] at this
    omega

/-- Adding ids after all entries, when the set then still fits. -/
theorem Good.add (h : Good base k l) (clock : Clock) (hfrom : InWindow base fromXid)
    (hto : InWindow base toXid) (hle : fromXid ≤ toXid) (hlast : ∀ e ∈ l, e.1 < fromXid)
    (hfits : (liveIds l).length + (idsFrom fromXid toXid).length ≤ k.max) :
    ∃ k' l', k.add (xidFromFull fromXid) (xidFromFull toXid) clock = (k', none) ∧
      Good base k' l' ∧ (∀ e ∈ l', e.1 ∈ l.map (·.1) ∨ e.1 ∈ idsFrom fromXid toXid) ∧
      liveIds l' = liveIds l ++ idsFrom fromXid toXid ∧ k'.max = k.max := by
  have horder : ¬ (k.tail < k.head ∧
      transactionIdFollowsOrEquals (k.xids (k.head - 1)) (xidFromFull fromXid) = true) := by
    rintro ⟨hlt, hfollows⟩
    have hhead := h.holds.head
    obtain ⟨e, he⟩ : ∃ e, l.getLast? = some e := by
      cases l with
      | nil =>
        rw [length_nil] at hhead
        omega
      | cons e l => exact ⟨_, getLast?_cons⟩
    have hwin := h.sorted.window e (mem_of_getLast? he)
    rw [(h.holds.last he).2, followsOrEquals_iff hwin.1 hfrom.1 (hwin.near hfrom)] at hfollows
    exact (hlast e (mem_of_getLast? he)).not_ge hfollows
  have hnew : ∀ l' : List (ℕ × Bool), l'.map (·.1) ⊆ l.map (·.1) →
      ∀ e ∈ l' ++ (idsFrom fromXid toXid).map (·, true),
        e.1 ∈ l.map (·.1) ∨ e.1 ∈ idsFrom fromXid toXid := by
    intro l' hsub
    rw [forall_mem_append, List.forall_mem_map]
    exact ⟨fun e he => .inl (hsub (mem_map_of_mem he)), fun x hx => .inr hx⟩
  rw [KnownAssigned.add, if_neg horder, numberOfXids_eq hfrom hto hle]
  split
  · -- compression leaves exactly the members
    obtain ⟨l₁, h₁, hdrop⟩ := h.compress .noSpace clock
    obtain ⟨htail, rfl⟩ := hdrop rfl
    have hlen : (l.filter (·.2)).length = (liveIds l).length := by simp [liveIds]
    obtain ⟨k', heq, hgood, hlive, hmax⟩ := h₁.good.append hfrom hto hle
      (fun e he => hlast e (mem_of_mem_filter he)) (by rw [hlen, htail, h₁.max]; exact hfits)
    refine ⟨k', _, heq, hgood, hnew _ h₁.ids, ?_, hmax.trans h₁.max⟩
    rw [hlive, liveIds_filter]
  · have hhead := h.holds.head
    obtain ⟨k', heq, hgood, hlive, hmax⟩ := h.append hfrom hto hle hlast (by omega)
    exact ⟨k', _, heq, hgood, hnew _ (List.Subset.refl _), hlive, hmax⟩

theorem Sorted.exists_last (h : Sorted base l) (he : e ∈ l) :
    ∃ last, l.getLast? = some last ∧ e.1 ≤ last.1 := by
  obtain ⟨⟨j, hj⟩, rfl⟩ := get_of_mem he
  refine ⟨l.get ⟨l.length - 1, by omega⟩, ?_, h.get_le (by omega) (by omega)⟩
  rw [getLast?_eq_getElem?, getElem?_eq_getElem (by omega)]
  rfl

theorem Good.add_cases (h : Good base k l) {fromXid : ℕ} (toXid : ℕ) (clock : Clock)
    (hfrom : InWindow base fromXid) :
    (∀ e ∈ l, e.1 < fromXid) ∨
      ((∃ e ∈ l, fromXid ≤ e.1) ∧ k.add (xidFromFull fromXid) (xidFromFull toXid) clock =
        (k, some "out-of-order XID insertion in KnownAssignedXids")) := by
  by_cases hall : ∀ e ∈ l, e.1 < fromXid
  · exact .inl hall
  · push Not at hall
    obtain ⟨e, he, hge⟩ := hall
    obtain ⟨last, hlast, hle⟩ := h.sorted.exists_last he
    exact .inr ⟨⟨e, he, hge⟩, h.add_out_of_order clock hfrom hlast (hge.trans hle)⟩

theorem length_idsFrom_eq (h : FullNormal fromXid) :
    (idsFrom fromXid toXid).length = (KnownCall.ids fromXid toXid).card := by
  have hnodup : (idsFrom fromXid toXid).Nodup := (idsFrom_sorted h).imp fun h => h.ne
  rw [← toFinset_card_of_nodup hnodup]
  congr 1
  ext x
  simp only [List.mem_toFinset, mem_idsFrom h, KnownCall.ids, Finset.mem_filter, Finset.mem_Icc]
  tauto

end KnownAssigned

namespace KnownSys

open KnownAssigned

variable {base x : ℕ} {t t' : KnownSys} {c : KnownCall} {l : List (ℕ × Bool)}

/-- The valid entries are the members, and every entry was added once. -/
structure Represents (base : ℕ) (t : KnownSys) (l : List (ℕ × Bool)) : Prop where
  good : Good base t.array l
  members : (liveIds l).toFinset = t.members
  added : ∀ e ∈ l, e.1 ∈ t.added

theorem represents_start (max : ℕ) (xids : ℕ → ℕ) (valid : ℕ → Bool) :
    Represents base (start max xids valid) [] where
  good := ⟨⟨trivial, rfl⟩, ⟨nofun, List.Pairwise.nil⟩, rfl, rfl, Nat.zero_le _⟩
  members := rfl
  added := nofun

section

variable (h : Represents base t l)
include h

theorem Represents.mem_iff : x ∈ t.members ↔ x ∈ liveIds l := by
  rw [← h.members, List.mem_toFinset]

theorem Represents.card : t.members.card = (liveIds l).length := by
  have hnodup : (liveIds l).Nodup := h.good.sorted.liveIds.imp fun h => h.ne
  rw [← h.members, toFinset_card_of_nodup hnodup]

theorem Represents.member_lt {y : ℕ} (hl : ∀ e ∈ l, e.1 < y) :
    ∀ m ∈ t.members, m < y := fun m hm =>
  hl (m, true) (mem_liveIds.mp (h.mem_iff.mp hm))

theorem Represents.evolves {l' : List (ℕ × Bool)} {k' : KnownAssigned} {gone : ℕ → Bool}
    (he : Evolves base t.array l gone k' l') {members added : Finset ℕ}
    (hmembers : ∀ x, x ∈ members ↔ x ∈ t.members ∧ gone x = false) (hadded : t.added ⊆ added) :
    Represents base { array := k', members := members, added := added } l' where
  good := he.good
  members := by
    ext x
    rw [List.mem_toFinset, he.live, mem_filter, hmembers, h.mem_iff]
    simp
  added e hm := by
    obtain ⟨e', he', heq⟩ := mem_map.mp (he.ids (mem_map_of_mem hm))
    exact hadded (heq ▸ h.added e' he')

theorem Represents.step (hwin : c.InWindow base) (hfits : t.Fits c)
    (hstep : t.step c = some t') : ∃ l', Represents base t' l' := by
  cases c with
  | add fromXid toXid clock =>
    obtain ⟨hfrom, hto, hle⟩ := hwin
    rcases h.good.add_cases toXid clock hfrom with hall | ⟨-, herr⟩
    · have hfits' := hfits (h.member_lt hall)
      rw [h.card, ← length_idsFrom_eq hfrom.1] at hfits'
      obtain ⟨k', l', heq, hgood, hids, hlive, -⟩ := h.good.add clock hfrom hto hle hall hfits'
      simp only [KnownSys.step, KnownCall.perform, heq] at hstep
      obtain rfl := some.inj hstep
      refine ⟨l', hgood, ?_, ?_⟩
      · ext x
        simp only [hlive, List.mem_toFinset, mem_append, mem_idsFrom hfrom.1, KnownCall.apply,
          KnownCall.ids, Finset.mem_union, Finset.mem_filter, Finset.mem_Icc, h.mem_iff]
        tauto
      · intro e he
        simp only [KnownCall.apply, KnownCall.ids, Finset.mem_union, Finset.mem_filter,
          Finset.mem_Icc]
        rcases hids e he with he | he
        · obtain ⟨e', he', heq'⟩ := mem_map.mp he
          exact .inr (heq' ▸ h.added e' he')
        · have := (mem_idsFrom hfrom.1).mp he
          tauto
    · simp only [KnownSys.step, KnownCall.perform, herr] at hstep
      obtain rfl := some.inj hstep
      exact ⟨l, h⟩
  | remove xid =>
    obtain rfl := some.inj hstep
    refine ⟨_, h.evolves (h.good.remove hwin) (fun x => ?_) Finset.subset_union_right⟩
    rw [KnownCall.apply, Finset.mem_erase, beq_eq_false_iff_ne, and_comm]
  | removeTree xid subxids clock =>
    obtain rfl := some.inj hstep
    obtain ⟨l', he⟩ := h.good.removeTree clock hwin.1 hwin.2
    refine ⟨l', h.evolves he (fun x => ?_) Finset.subset_union_right⟩
    simp [KnownCall.apply]
  | removePreceding xid isPrepared clock =>
    obtain rfl := some.inj hstep
    cases xid with
    | none => exact ⟨[], good_clearAll t.array isPrepared clock, rfl, nofun⟩
    | some xid =>
      obtain ⟨l', he⟩ := h.good.removePreceding isPrepared clock (hwin xid rfl)
      refine ⟨l', h.evolves he (fun x => ?_) Finset.subset_union_right⟩
      simp only [KnownCall.apply, Finset.mem_filter, pruned, Bool.and_eq_false_iff,
        decide_eq_false_iff_not, not_lt, Bool.not_eq_false']
  | compress reason clock =>
    obtain rfl := some.inj hstep
    obtain ⟨l', he, -⟩ := h.good.compress reason clock
    refine ⟨l', h.evolves he (fun x => ?_) Finset.subset_union_right⟩
    simp [KnownCall.apply]

end

/-! ## What readers find -/

/-- The members are what the entries between tail and head say, and the readers return them. -/
structure Refines (base : ℕ) (t : KnownSys) : Prop where
  window : ∀ x ∈ t.members, InWindow base x
  entries : ∀ x, InWindow base x → (x ∈ t.members ↔
    ∃ i, t.array.tail ≤ i ∧ i < t.array.head ∧ t.array.valid i = true ∧
      t.array.xids i = xidFromFull x)
  bounds : t.array.tail ≤ t.array.head ∧ t.array.head ≤ t.array.max
  count : t.array.num = t.members.card
  exists_iff : ∀ x, InWindow base x →
    (t.array.knownAssignedXidExists (xidFromFull x) = true ↔ x ∈ t.members)
  get : ∀ xmin xmax, InWindow base xmin → InWindow base xmax →
    t.array.getAndSetXmin (xidFromFull xmin) (xidFromFull xmax) =
      (({x ∈ t.members | x < xmax}).sort.map xidFromFull,
        xidFromFull ((insert xmin t.members).min' (Finset.insert_nonempty _ _)))
  oldest : ∀ h : t.members.Nonempty, t.array.getOldestXmin = xidFromFull (t.members.min' h)
  oldest_empty : t.members = ∅ → t.array.getOldestXmin = invalidTransactionId

section

variable (h : Represents base t l)
include h

theorem Represents.entries_iff (hx : InWindow base x) :
    x ∈ t.members ↔ ∃ i, t.array.tail ≤ i ∧ i < t.array.head ∧ t.array.valid i = true ∧
      t.array.xids i = xidFromFull x := by
  have hhead := h.good.holds.head
  rw [h.mem_iff, mem_liveIds]
  constructor
  · intro hmem
    obtain ⟨⟨j, hj⟩, hget⟩ := get_of_mem hmem
    obtain ⟨hxid, hvalid⟩ := h.good.holds.seg.get hj
    rw [hget] at hxid hvalid
    exact ⟨t.array.tail + j, by omega, by omega, hvalid, hxid⟩
  · rintro ⟨i, hge, hlt, hvalid, hxid⟩
    obtain ⟨j, rfl⟩ := Nat.exists_eq_add_of_le hge
    have hj : j < l.length := by omega
    obtain ⟨hxid', hvalid'⟩ := h.good.holds.seg.get hj
    have hwin := h.good.sorted.window _ (l.get_mem ⟨j, hj⟩)
    obtain ⟨hn1, hn2⟩ := hwin.near hx
    have heq : (l.get ⟨j, hj⟩).1 = x :=
      xidFromFull_inj (by omega) (by omega) (hxid'.symm.trans hxid)
    have hmem := l.get_mem ⟨j, hj⟩
    rwa [show l.get ⟨j, hj⟩ = (x, true) from Prod.ext heq (hvalid'.symm.trans hvalid)] at hmem

theorem Represents.sort_filter (xmax : ℕ) :
    ({x ∈ t.members | x < xmax}).sort = (liveIds l).filter (· < xmax) := by
  have hlt := h.good.sorted.liveIds.filter (· < xmax)
  have heq : {x ∈ t.members | x < xmax} = ((liveIds l).filter (· < xmax)).toFinset := by
    ext x
    simp [h.mem_iff]
  rw [heq, toFinset_sort _ (hlt.imp fun h => h.ne)]
  exact hlt.imp fun h => h.le

theorem Represents.min'_eq {m : ℕ} {ms : List ℕ} (hlive : liveIds l = m :: ms) :
    ∃ hne : t.members.Nonempty, t.members.min' hne = m := by
  have hlt := h.good.sorted.liveIds
  rw [hlive, pairwise_cons] at hlt
  have hm : m ∈ t.members := h.mem_iff.mpr (by simp [hlive])
  refine ⟨⟨m, hm⟩, le_antisymm (Finset.min'_le _ _ hm) (Finset.le_min' _ _ _ fun y hy => ?_)⟩
  rw [h.mem_iff, hlive, mem_cons] at hy
  rcases hy with rfl | hy
  · exact le_rfl
  · exact (hlt.1 y hy).le

theorem Represents.get {xmin xmax : ℕ} (hmin : InWindow base xmin) (hmax : InWindow base xmax) :
    t.array.getAndSetXmin (xidFromFull xmin) (xidFromFull xmax) =
      (({x ∈ t.members | x < xmax}).sort.map xidFromFull,
        xidFromFull ((insert xmin t.members).min' (Finset.insert_nonempty _ _))) := by
  rw [getAndSetXmin, h.good.holds.sub, getLoop_spec h.good.holds.seg h.good.sorted hmax,
    h.sort_filter, nil_append]
  cases hlive : liveIds l with
  | nil =>
    have hempty : t.members = ∅ := by
      rw [← h.members, hlive]
      rfl
    simp [hempty]
  | cons m ms =>
    obtain ⟨hne, hm⟩ := h.min'_eq hlive
    have hwin := h.good.sorted.window (m, true) (mem_liveIds.mp (by simp [hlive]))
    rw [Finset.min'_insert _ _ hne, hm]
    dsimp only
    by_cases hlt : m < xmin
    · rw [if_pos ((precedes_iff hwin.1 hmin.1 (hwin.near hmin)).mpr hlt), min_eq_right hlt.le]
    · rw [if_neg (mt (precedes_iff hwin.1 hmin.1 (hwin.near hmin)).mp hlt),
        min_eq_left (not_lt.mp hlt)]

theorem Represents.oldest :
    t.array.getOldestXmin = match liveIds l with
      | [] => invalidTransactionId
      | m :: _ => xidFromFull m := by
  have hskip := (skipInvalid_spec h.good.holds.seg).1
  have htrim := h.good.trimmed
  have hhead := h.good.holds.head
  rw [htrim] at hskip
  have heq : t.array.skipInvalid t.array.tail (t.array.head - t.array.tail) = t.array.tail := by
    rw [h.good.holds.sub]
    omega
  rw [getOldestXmin, heq]
  cases l with
  | nil =>
    rw [if_neg (by simp only [length_nil] at hhead; omega)]
    rfl
  | cons e l =>
    obtain ⟨full, hv⟩ := e
    obtain rfl : hv = true := valid_of_trim htrim
    rw [if_pos (by simp only [length_cons] at hhead; omega)]
    exact h.good.holds.seg.1.1

theorem Represents.refines : Refines base t where
  window x hx := h.good.sorted.window _ (mem_liveIds.mp (h.mem_iff.mp hx))
  entries _ hx := h.entries_iff hx
  bounds := ⟨by have := h.good.holds.head; omega, h.good.room⟩
  count := h.good.num.trans h.card.symm
  exists_iff _ hx := (h.good.holds.exists_iff h.good.sorted hx).trans h.mem_iff.symm
  get _ _ hmin hmax := h.get hmin hmax
  oldest hne := by
    rw [h.oldest]
    cases hlive : liveIds l with
    | nil =>
      obtain ⟨x, hx⟩ := hne
      rw [h.mem_iff, hlive] at hx
      cases hx
    | cons m ms =>
      obtain ⟨_, hm⟩ := h.min'_eq hlive
      exact congrArg xidFromFull hm.symm
  oldest_empty hempty := by
    rw [h.oldest]
    cases hlive : liveIds l with
    | nil => rfl
    | cons m ms =>
      obtain ⟨hne, -⟩ := h.min'_eq hlive
      exact absurd hempty hne.ne_empty

end

/-- What becomes of an add: it fails when a member does not precede the new ids, and else only when
an id added earlier does not. A failure leaves the array alone. -/
structure AddOutcome (t : KnownSys) (fromXid toXid : ℕ) (clock : Clock) : Prop where
  out_of_order : (∃ m ∈ t.members, fromXid ≤ m) →
    (KnownCall.add fromXid toXid clock).perform t.array =
      (t.array, some "out-of-order XID insertion in KnownAssignedXids")
  error : t.Fits (.add fromXid toXid clock) →
    ((KnownCall.add fromXid toXid clock).perform t.array).2 ≠ none →
    (∃ x ∈ t.added, fromXid ≤ x) ∧ (KnownCall.add fromXid toXid clock).perform t.array =
      (t.array, some "out-of-order XID insertion in KnownAssignedXids")

theorem Represents.addOutcome (h : Represents base t l) {fromXid toXid : ℕ} (clock : Clock)
    (hfrom : InWindow base fromXid) (hto : InWindow base toXid) (hle : fromXid ≤ toXid) :
    AddOutcome t fromXid toXid clock := by
  rcases h.good.add_cases toXid clock hfrom with hall | ⟨⟨e, he, hge⟩, herr⟩
  · refine ⟨fun ⟨m, hm, hge⟩ => absurd (h.member_lt hall m hm) hge.not_gt, fun hfits hne => ?_⟩
    have hfits' := hfits (h.member_lt hall)
    rw [h.card, ← length_idsFrom_eq hfrom.1] at hfits'
    obtain ⟨k', l', heq, -⟩ := h.good.add clock hfrom hto hle hall hfits'
    exact absurd (congrArg Prod.snd heq) hne
  · exact ⟨fun _ => herr, fun _ _ => ⟨⟨e.1, h.added e he, hge⟩, herr⟩⟩

theorem Represents.run {calls : List KnownCall} (h : Represents base t l)
    (hwindow : ∀ c ∈ calls, c.InWindow base) (hfits : Along KnownSys.step Fits t calls)
    (hrun : PostgreSieve.run KnownSys.step t calls = some t') : ∃ l', Represents base t' l' := by
  induction calls generalizing t l with
  | nil => exact ⟨l, some.inj hrun ▸ h⟩
  | cons c calls ih =>
    obtain ⟨t₁, hstep, hrest⟩ := run_cons_eq_some_iff.mp hrun
    obtain ⟨l₁, h₁⟩ := h.step (hwindow c mem_cons_self) hfits.1 hstep
    exact ih h₁ (fun c' hc' => hwindow c' (mem_cons_of_mem c hc')) (hfits.2 t₁ hstep) hrest

end KnownSys

open KnownSys in
/-- After any calls of the startup process with ids in one window and no more members than the array
has room for, the array represents the set of ids added and not removed. -/
theorem knownAssignedXids_set {base max : ℕ} {xids : ℕ → ℕ} {valid : ℕ → Bool}
    {calls : List KnownCall} {t : KnownSys}
    (hwindow : ∀ c ∈ calls, c.InWindow base)
    (hfits : Along step Fits (start max xids valid) calls)
    (hrun : run step (start max xids valid) calls = some t) :
    Refines base t ∧ ∀ fromXid toXid clock, InWindow base fromXid → InWindow base toXid →
      fromXid ≤ toXid → AddOutcome t fromXid toXid clock := by
  obtain ⟨l, h⟩ := (represents_start max xids valid).run hwindow hfits hrun
  exact ⟨h.refines, fun _ _ clock hfrom hto hle => h.addOutcome clock hfrom hto hle⟩

/-- Ids added across the wraparound, one of them removed, and a compression. -/
theorem knownAssignedXids_set_wraparound :
    ∃ t, run KnownSys.step (.start 5 (fun _ => 0) fun _ => false)
        [.add (2 ^ 32 - 2) (2 ^ 32 + 4) ⟨0, 0⟩, .remove (2 ^ 32 - 1),
          .compress .startupProcessIdle ⟨0, 1⟩] = some t ∧
      t.members = {2 ^ 32 - 2, 2 ^ 32 + 3, 2 ^ 32 + 4} ∧ t.array.xids 1 = 3 ∧
      KnownSys.Refines (2 ^ 32 - 3) t := by
  refine ⟨_, rfl, by decide +kernel, by decide +kernel,
    (@knownAssignedXids_set (2 ^ 32 - 3) 5 (fun _ => 0) (fun _ => false)
      [.add (2 ^ 32 - 2) (2 ^ 32 + 4) ⟨0, 0⟩, .remove (2 ^ 32 - 1),
        .compress .startupProcessIdle ⟨0, 1⟩] _ ?_ ?_ rfl).1⟩
  · simp only [forall_mem_cons, KnownCall.InWindow]
    exact ⟨by decide +kernel, by decide +kernel, trivial, nofun⟩
  · refine ⟨fun _ => by decide +kernel, fun _ _ => ⟨trivial, fun _ _ => ⟨trivial, ?_⟩⟩⟩
    exact fun _ _ => trivial

end PostgreSieve.Xact
