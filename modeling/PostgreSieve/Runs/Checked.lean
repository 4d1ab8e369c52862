import Mathlib.Tactic.Common

/-! # Computations that report errors and may fault

A computation ends with a result, with an error that it reports to its caller, or with a fault: an
access outside of memory, a failed assertion. `Safe` computations have no fault.
-/

namespace PostgreSieve

theorem bind_eq_ok {ε β γ : Type} {m : Except ε β} {f : β → Except ε γ} {c : γ}
    (h : (m >>= f) = .ok c) : ∃ b, m = .ok b ∧ f b = .ok c := by
  cases m with
  | error e => cases h
  | ok b => exact ⟨b, rfl, h⟩

inductive Failure (ε : Type) where
  | report (error : ε)
  | fault
  deriving DecidableEq

abbrev Checked (ε α : Type) := Except (Failure ε) α

variable {ε α β : Type} {Q R : α → Prop} {S : β → Prop}
variable {x : Checked ε α}

/-- No fault, and a result that meets the condition. -/
def Safe (Q : α → Prop) : Checked ε α → Prop
  | .ok a => Q a
  | .error (.report _) => True
  | .error .fault => False

instance [DecidableEq ε] [DecidableEq α] : DecidableEq (Checked ε α) := fun
  | .ok a, .ok b => decidable_of_iff (a = b) (by simp)
  | .ok _, .error _ => .isFalse nofun
  | .error _, .ok _ => .isFalse nofun
  | .error e, .error f => decidable_of_iff (e = f) (by simp)

@[simp] theorem safe_ok {a : α} : Safe Q (.ok a : Checked ε α) ↔ Q a := Iff.rfl

@[simp] theorem safe_report {e : ε} : Safe Q (.error (.report e)) := trivial

theorem Safe.imp (h : Safe Q x) (hQR : ∀ a, Q a → R a) : Safe R x := by
  rcases x with (e | _) | a
  · trivial
  · exact h.elim
  · exact hQR a h

theorem Safe.bind {f : α → Checked ε β} (h : Safe Q x)
    (hf : ∀ a, Q a → Safe S (f a)) : Safe S (x >>= f) := by
  rcases x with (e | _) | a
  · trivial
  · exact h.elim
  · exact hf a h

theorem Safe.eq_ok (h : Safe Q x) : Safe (fun a => x = .ok a ∧ Q a) x := by
  rcases x with (e | _) | a
  · trivial
  · exact h
  · exact ⟨rfl, h⟩

theorem Safe.unless {c : Prop} [Decidable c] {e : ε} (h : ¬c → Safe Q x) :
    Safe Q (if c then .error (.report e) else x) := by
  split_ifs with hc
  · trivial
  · exact h hc

end PostgreSieve
