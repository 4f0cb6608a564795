import Mathlib.Logic.Relation

/-!
# Lists in dependency order

A list is *in order* when everything that an item needs comes before the item. Such a list grows at its end, and
it has everything that can be reached from what it has.
-/

namespace ProtoRegistry

open Relation

variable {α : Type _} {needs : α → List α} {l : List α} {a b : α}

/-- Everything an item needs comes before it. -/
def InOrder (needs : α → List α) (l : List α) : Prop :=
  ∀ l₁ a l₂, l = l₁ ++ a :: l₂ → ∀ b ∈ needs a, b ∈ l₁

theorem inOrder_nil : InOrder needs [] := by
  intro l₁ a l₂ heq
  cases l₁ <;> cases heq

theorem inOrder_concat : InOrder needs (l ++ [a]) ↔ InOrder needs l ∧ ∀ b ∈ needs a, b ∈ l := by
  constructor
  · refine fun h => ⟨fun l₁ c l₂ heq => h l₁ c (l₂ ++ [a]) ?_, h l a [] rfl⟩
    rw [heq, List.append_assoc]
    rfl
  · rintro ⟨hl, ha⟩ l₁ c l₂ heq
    rcases List.eq_nil_or_concat l₂ with rfl | ⟨l₂, d, rfl⟩
    · obtain ⟨rfl, hc⟩ := List.append_inj' heq rfl
      cases hc
      exact ha
    · have heq' : l ++ [a] = (l₁ ++ c :: l₂) ++ [d] := by simpa using heq
      obtain ⟨rfl, -⟩ := List.append_inj' heq' rfl
      exact hl l₁ c l₂ rfl

theorem InOrder.mem_of_needs (h : InOrder needs l) (ha : a ∈ l) (hb : b ∈ needs a) : b ∈ l := by
  obtain ⟨l₁, l₂, rfl⟩ := List.append_of_mem ha
  exact List.mem_append_left _ (h l₁ a l₂ rfl b hb)

theorem InOrder.mem_of_reach (h : InOrder needs l) (ha : a ∈ l) (hreach : ReflTransGen (fun a b => b ∈ needs a) a b) :
    b ∈ l := by
  induction hreach with
  | refl => exact ha
  | tail _ hb ih => exact h.mem_of_needs ih hb

end ProtoRegistry
