import Mathlib.Algebra.Group.Nat.Defs
import Mathlib.Data.Int.Basic
import Mathlib.Order.Basic

/-! # Transaction ids

A transaction id is the low word of a 64-bit one. Words are compared modulo `2 ^ 32`, which agrees
with the order of the full ids as long as these are within `2 ^ 31` of each other.
-/

namespace PostgreSieve.Xact

def invalidTransactionId : ℕ := 0

def frozenTransactionId : ℕ := 2

def firstNormalTransactionId : ℕ := 3

def transactionIdIsNormal (xid : ℕ) : Bool := firstNormalTransactionId ≤ xid

/-- `XidFromFullTransactionId`. -/
def xidFromFull (full : ℕ) : ℕ := full % 2 ^ 32

/-- `(int32) (id1 - id2)`. -/
def xidDiff (id1 id2 : ℕ) : ℤ := ((id1 : ℤ) - id2).bmod (2 ^ 32)

def transactionIdPrecedes (id1 id2 : ℕ) : Bool :=
  if !transactionIdIsNormal id1 || !transactionIdIsNormal id2 then id1 < id2
  else xidDiff id1 id2 < 0

def transactionIdFollowsOrEquals (id1 id2 : ℕ) : Bool :=
  if !transactionIdIsNormal id1 || !transactionIdIsNormal id2 then id2 ≤ id1
  else 0 ≤ xidDiff id1 id2

def normalTransactionIdPrecedes (id1 id2 : ℕ) : Bool := xidDiff id1 id2 < 0

def transactionIdAdvance (xid : ℕ) : ℕ :=
  let dest := (xid + 1) % 2 ^ 32
  if dest < firstNormalTransactionId then firstNormalTransactionId else dest

/-- Step over ids that would appear to be special only when viewed as words. -/
def fullTransactionIdAdvance (full : ℕ) : ℕ :=
  let dest := full + 1
  if dest < firstNormalTransactionId then dest
  else dest + (firstNormalTransactionId - xidFromFull dest)

def fullXidRelativeTo (rel xid : ℕ) : ℕ := ((rel : ℤ) + xidDiff xid (xidFromFull rel)).toNat

/-- A full id whose word is a normal one. -/
def FullNormal (full : ℕ) : Prop := firstNormalTransactionId ≤ xidFromFull full

instance (full : ℕ) : Decidable (FullNormal full) := inferInstanceAs (Decidable (_ ≤ _))

/-- The latest completed id of a cluster that has completed none is the frozen one. -/
def FullCompleted (full : ℕ) : Prop := FullNormal full ∨ full = frozenTransactionId

instance (full : ℕ) : Decidable (FullCompleted full) := inferInstanceAs (Decidable (_ ∨ _))

theorem FullCompleted.max {a b : ℕ} (ha : FullCompleted a) (hb : FullNormal b) :
    FullCompleted (max a b) := by
  rcases Nat.le_total a b with h | h
  · rw [Nat.max_eq_right h]
    exact .inl hb
  · rwa [Nat.max_eq_left h]

/-- The full ids are within `2 ^ 31` of each other. -/
def Near (a b : ℕ) : Prop := a < b + 2 ^ 31 ∧ b < a + 2 ^ 31

instance (a b : ℕ) : Decidable (Near a b) := inferInstanceAs (Decidable (_ ∧ _))

variable {a b : ℕ}

theorem Near.symm (h : Near a b) : Near b a := ⟨h.2, h.1⟩

theorem xidDiff_eq (h : Near a b) : xidDiff (xidFromFull a) (xidFromFull b) = (a : ℤ) - b := by
  obtain ⟨h1, h2⟩ := h
  simp only [xidDiff, xidFromFull, Int.bmod]
  omega

theorem isNormal_xid (h : FullNormal a) : transactionIdIsNormal (xidFromFull a) = true :=
  decide_eq_true h

theorem precedes_iff (ha : FullNormal a) (hb : FullNormal b) (h : Near a b) :
    transactionIdPrecedes (xidFromFull a) (xidFromFull b) = true ↔ a < b := by
  simp only [transactionIdPrecedes, isNormal_xid ha, isNormal_xid hb, xidDiff_eq h, Bool.not_true,
    Bool.or_self, Bool.false_eq_true, if_false, decide_eq_true_eq]
  omega

theorem precedes_iff_of_completed (ha : FullCompleted a) (hb : FullNormal b) (h : Near a b) :
    transactionIdPrecedes (xidFromFull a) (xidFromFull b) = true ↔ a < b := by
  rcases ha with ha | rfl
  · exact precedes_iff ha hb h
  · obtain ⟨-, h2⟩ := h
    change (decide (2 < b % 2 ^ 32) = true) ↔ 2 < b
    change b < 2 + 2 ^ 31 at h2
    rw [decide_eq_true_eq]
    omega

theorem followsOrEquals_iff (ha : FullNormal a) (hb : FullNormal b) (h : Near a b) :
    transactionIdFollowsOrEquals (xidFromFull a) (xidFromFull b) = true ↔ b ≤ a := by
  simp only [transactionIdFollowsOrEquals, isNormal_xid ha, isNormal_xid hb, xidDiff_eq h,
    Bool.not_true, Bool.or_self, Bool.false_eq_true, if_false, decide_eq_true_eq]
  omega

theorem normalPrecedes_iff (h : Near a b) :
    normalTransactionIdPrecedes (xidFromFull a) (xidFromFull b) = true ↔ a < b := by
  simp only [normalTransactionIdPrecedes, xidDiff_eq h, decide_eq_true_eq]
  omega

theorem fullXidRelativeTo_eq (h : Near a b) : fullXidRelativeTo a (xidFromFull b) = b := by
  rw [fullXidRelativeTo, xidDiff_eq h.symm]
  omega

theorem xidFromFull_inj (h1 : a < b + 2 ^ 32) (h2 : b < a + 2 ^ 32)
    (h : xidFromFull a = xidFromFull b) : a = b := by
  simp only [xidFromFull] at h
  omega

theorem lt_advance (a : ℕ) : a < fullTransactionIdAdvance a := by
  unfold fullTransactionIdAdvance
  grind

theorem advance_eq (h : FullCompleted a) :
    fullTransactionIdAdvance a = a + 1 + (3 - (a + 1) % 2 ^ 32) := by
  rcases h with h | rfl
  · have hmod : 3 ≤ a % 2 ^ 32 := h
    have hlt : ¬ a + 1 < firstNormalTransactionId := by
      rw [firstNormalTransactionId]
      omega
    rw [fullTransactionIdAdvance, if_neg hlt]
    rfl
  · rfl

theorem fullNormal_advance (h : FullCompleted a) : FullNormal (fullTransactionIdAdvance a) := by
  rw [advance_eq h]
  change 3 ≤ _ % 2 ^ 32
  omega

theorem advance_le (ha : FullCompleted a) (hb : FullNormal b) (h : a < b) :
    fullTransactionIdAdvance a ≤ b := by
  rw [advance_eq ha]
  change 3 ≤ b % 2 ^ 32 at hb
  omega

theorem advance_xid (h : FullCompleted a) :
    transactionIdAdvance (xidFromFull a) = xidFromFull (fullTransactionIdAdvance a) := by
  rw [advance_eq h, transactionIdAdvance, xidFromFull, xidFromFull]
  change (if (a % 2 ^ 32 + 1) % 2 ^ 32 < 3 then 3 else (a % 2 ^ 32 + 1) % 2 ^ 32) = _
  split
  · omega
  · omega

end PostgreSieve.Xact
