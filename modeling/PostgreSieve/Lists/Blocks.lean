import Mathlib.Data.List.Basic
import Mathlib.Data.List.Pairwise
import Mathlib.Order.Basic
import Mathlib.Tactic.Common

/-! # Increasing sequences in blocks

An increasing sequence is cut into blocks, and the key of a block is its first element. A value can
only be in the last block whose key is not above it.
-/

namespace PostgreSieve.Blocks

open List

variable {α β : Type*} {g : α → List β} {key : α → β} {l l₁ l₂ : List α} {e : α} {x : β}

theorem keys_sublist (hhead : ∀ f ∈ l, (g f).head? = some (key f)) :
    (l.map key).Sublist (l.flatMap g) := by
  induction l with
  | nil => exact List.Sublist.refl _
  | cons a l ih =>
    obtain ⟨ys, hys⟩ := List.head?_eq_some_iff.mp (hhead a mem_cons_self)
    rw [map_cons, flatMap_cons, hys, cons_append]
    exact ((ih fun f hf => hhead f (mem_cons_of_mem a hf)).trans
      (sublist_append_right _ _)).cons_cons _

variable [Preorder β]

theorem key_le (hs : (l.flatMap g).Pairwise (· < ·))
    (hhead : ∀ f ∈ l, (g f).head? = some (key f)) {f : α} (hf : f ∈ l) {y : β} (hy : y ∈ g f) :
    key f ≤ y := by
  obtain ⟨ys, hys⟩ := List.head?_eq_some_iff.mp (hhead f hf)
  have hfs := hs.sublist (sublist_flatten_of_mem (mem_map_of_mem (f := g) hf))
  rw [hys] at hfs hy
  rcases mem_cons.mp hy with rfl | hy
  · exact le_rfl
  · exact (rel_of_pairwise_cons hfs hy).le

theorem not_mem (hs : (l.flatMap g).Pairwise (· < ·))
    (hhead : ∀ f ∈ l, (g f).head? = some (key f)) (hl : ∀ f ∈ l, x < key f) : x ∉ l.flatMap g := by
  intro hx
  obtain ⟨f, hf, hxf⟩ := mem_flatMap.mp hx
  exact absurd (key_le hs hhead hf hxf) (hl f hf).not_ge

theorem mem_iff (hs : ((l₁ ++ e :: l₂).flatMap g).Pairwise (· < ·))
    (hhead : ∀ f ∈ l₁ ++ e :: l₂, (g f).head? = some (key f)) (he : key e ≤ x)
    (hl : ∀ f ∈ l₂, x < key f) : x ∈ (l₁ ++ e :: l₂).flatMap g ↔ x ∈ g e := by
  rw [flatMap_append, flatMap_cons] at hs ⊢
  obtain ⟨-, hs₂, hcross⟩ := pairwise_append.mp hs
  obtain ⟨-, hs₃, -⟩ := pairwise_append.mp hs₂
  have hkey : key e ∈ g e :=
    mem_of_head? (hhead e (mem_append_right _ mem_cons_self))
  have hleft : x ∉ l₁.flatMap g := fun hx =>
    absurd he (hcross x hx (key e) (mem_append_left _ hkey)).not_ge
  have hright : x ∉ l₂.flatMap g := not_mem hs₃
    (fun f hf => hhead f (mem_append_right _ (mem_cons_of_mem e hf))) hl
  simp [hleft, hright]

end PostgreSieve.Blocks
