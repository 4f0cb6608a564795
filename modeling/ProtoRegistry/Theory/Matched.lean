import Mathlib.Data.List.Nodup

/-!
# Lists matched by a key

A list is matched with another one when each of its elements has a counterpart there, found by its key,
to which it is related. This is how one version of a tree of declarations is compared with the next.
-/

namespace ProtoRegistry

variable {κ : Type _} [DecidableEq κ] {key : α → κ} {R : α → α → Prop} {l l' l₁ l₂ l₃ : List α}

/-- The first element with the key of `a` is related to `a`, for every `a` of `l`. -/
def Matched (key : α → κ) (R : α → α → Prop) (l l' : List α) : Prop :=
  ∀ a ∈ l, ∃ a', l'.find? (key · = key a) = some a' ∧ R a a'

theorem find_key_eq_some (hnd : (l.map key).Nodup) (ha : a ∈ l) : l.find? (key · = key a) = some a := by
  cases hfind : l.find? (key · = key a) with
  | none => simpa using List.find?_eq_none.mp hfind a ha
  | some b =>
    have hkey : key b = key a := by simpa using List.find?_some hfind
    rw [List.inj_on_of_nodup_map hnd (List.mem_of_find?_eq_some hfind) ha hkey]

theorem mem_of_find_key (h : l.find? (key · = k) = some a) : a ∈ l ∧ key a = k :=
  ⟨List.mem_of_find?_eq_some h, by simpa using List.find?_some h⟩

namespace Matched

theorem of_mem (h : Matched key R l l') (ha : a ∈ l) : ∃ a' ∈ l', key a' = key a ∧ R a a' := by
  obtain ⟨a', hfind, hR⟩ := h a ha
  obtain ⟨hmem, hkey⟩ := mem_of_find_key hfind
  exact ⟨a', hmem, hkey, hR⟩

protected theorem refl (hnd : (l.map key).Nodup) (hR : ∀ a ∈ l, R a a) : Matched key R l l :=
  fun a ha => ⟨a, find_key_eq_some hnd ha, hR a ha⟩

protected theorem trans (hR : ∀ a ∈ l₁, ∀ b c, R a b → R b c → R a c) (h : Matched key R l₁ l₂)
    (h' : Matched key R l₂ l₃) : Matched key R l₁ l₃ := by
  intro a ha
  obtain ⟨b, hb, hkey, hab⟩ := h.of_mem ha
  obtain ⟨c, hc, hbc⟩ := h' b hb
  exact ⟨c, hkey ▸ hc, hR a ha b c hab hbc⟩

end Matched

theorem flatMap_eq_nil_iff_matched {check : α → List β}
    (h : ∀ a, check a = [] ↔ ∃ a', l'.find? (key · = key a) = some a' ∧ R a a') :
    l.flatMap check = [] ↔ Matched key R l l' := by
  simp only [List.flatMap_eq_nil_iff, h, Matched]

end ProtoRegistry
