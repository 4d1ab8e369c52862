import Mathlib.Data.List.Basic
import Mathlib.Logic.Function.Basic

/-! # Byte strings in memory

A memory is a function on addresses, and a list is stored from an address on.
-/

namespace PostgreSieve

variable {β : Type*} {m m' : ℕ → β} {a b : ℕ} {l l' : List β}

/-- The memory holds the list from address `a` on. -/
def Stored (m : ℕ → β) : ℕ → List β → Prop
  | _, [] => True
  | a, x :: l => m a = x ∧ Stored m (a + 1) l

@[simp] theorem stored_nil : Stored m a [] := trivial

theorem stored_append :
    Stored m a (l ++ l') ↔ Stored m a l ∧ Stored m (a + l.length) l' := by
  induction l generalizing a with
  | nil => simp
  | cons x l ih =>
    rw [List.cons_append, Stored, Stored, ih, and_assoc, List.length_cons, Nat.add_assoc,
      Nat.add_comm 1]

theorem Stored.congr (h : Stored m a l)
    (he : ∀ i, a ≤ i → i < a + l.length → m' i = m i) : Stored m' a l := by
  induction l generalizing a with
  | nil => trivial
  | cons x l ih =>
    rw [List.length_cons] at he
    refine ⟨(he a (Nat.le_refl a) (by omega)).trans h.1, ih h.2 fun i hi hlt => ?_⟩
    exact he i (by omega) (by omega)

theorem Stored.update (h : Stored m a l) {x : β} (hb : b < a ∨ a + l.length ≤ b) :
    Stored (Function.update m b x) a l :=
  h.congr fun i hi hlt => Function.update_of_ne (by omega) ..

theorem Stored.push (h : Stored m a l) (x : β) (hb : b = a + l.length) :
    Stored (Function.update m b x) a (l ++ [x]) := by
  rw [stored_append]
  refine ⟨h.update (.inr (Nat.le_of_eq hb.symm)), ?_, trivial⟩
  rw [hb, Function.update_self]

end PostgreSieve
