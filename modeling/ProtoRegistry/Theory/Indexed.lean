import Mathlib.Data.List.Basic

/-!
# Lookups that index a list

`Indexes g key l` says that a lookup finds exactly the elements of a list, each under its key. Two
lookups that index the same elements are equal, so it does not matter in which order, or by which detour,
a table was filled.
-/

namespace ProtoRegistry

variable {K V : Type} {g g' : K → Option V} {key : V → K} {l l' : List V}

/-- The lookup finds the elements of the list, each under its key, and nothing else. -/
def Indexes (g : K → Option V) (key : V → K) (l : List V) : Prop :=
  ∀ k v, g k = some v ↔ v ∈ l ∧ key v = k

namespace Indexes

theorem nil : Indexes (fun _ => none) key [] := by
  intro k v
  simp

theorem get (h : Indexes g key l) (hv : v ∈ l) : g (key v) = some v := (h _ _).mpr ⟨hv, rfl⟩

theorem inj (h : Indexes g key l) (hv : v ∈ l) (hw : w ∈ l) (hkey : key v = key w) : v = w := by
  have hlook := h.get hv
  rw [hkey, h.get hw] at hlook
  exact (Option.some.inj hlook).symm

theorem eq_none_iff (h : Indexes g key l) : g k = none ↔ k ∉ l.map key := by
  rw [Option.eq_none_iff_forall_ne_some, List.mem_map]
  constructor
  · rintro hnone ⟨v, hv, rfl⟩
    exact hnone v (h.get hv)
  · intro hk v hv
    exact hk ⟨v, (h k v).mp hv⟩

theorem congr (h : Indexes g key l) (hmem : ∀ v, v ∈ l ↔ v ∈ l') : Indexes g key l' := by
  intro k v
  rw [h k v, hmem]

theorem look_eq (h : Indexes g key l) (h' : Indexes g' key l') (hmem : ∀ v, v ∈ l ↔ v ∈ l') :
    g = g' := by
  funext k
  apply Option.ext
  intro v
  rw [h k v, h' k v, hmem]

theorem remove (h : Indexes g key l) {p : K → Prop} [DecidablePred p]
    (hlook : ∀ k, g' k = if p k then none else g k) : Indexes g' key (l.filter fun v => ¬ p (key v)) := by
  intro k v
  rw [hlook, List.mem_filter]
  split
  · next hk =>
    constructor
    · intro hv
      cases hv
    · rintro ⟨⟨_, hne⟩, rfl⟩
      exact absurd hk (of_decide_eq_true hne)
  · next hk =>
    rw [h k v]
    constructor
    · rintro ⟨hv, rfl⟩
      exact ⟨⟨hv, decide_eq_true hk⟩, rfl⟩
    · exact fun hv => ⟨hv.1.1, hv.2⟩

variable [DecidableEq K]

theorem add (h : Indexes g key l) (hfree : key v ∉ l.map key)
    (hlook : ∀ k, g' k = if k = key v then some v else g k) : Indexes g' key (l ++ [v]) := by
  intro k w
  rw [hlook, List.mem_append, List.mem_singleton]
  split
  · next hk =>
    constructor
    · intro hw
      cases hw
      exact ⟨.inr rfl, hk.symm⟩
    · rintro ⟨hw | rfl, hkey⟩
      · exact absurd (List.mem_map.mpr ⟨w, hw, hkey.trans hk⟩) hfree
      · rfl
  · next hk =>
    rw [h k w]
    constructor
    · exact fun hw => ⟨.inl hw.1, hw.2⟩
    · rintro ⟨hw | rfl, hkey⟩
      · exact ⟨hw, hkey⟩
      · exact absurd hkey.symm hk

theorem foldl_add {σ : Type} {g : σ → K → Option V} {f : σ → V → σ}
    (hf : ∀ s v k, g (f s v) k = if k = key v then some v else g s k) {s : σ} {vs : List V}
    (h : Indexes (g s) key l) (hnd : ((l ++ vs).map key).Nodup) :
    Indexes (g (vs.foldl f s)) key (l ++ vs) := by
  induction vs generalizing s l with
  | nil => simpa using h
  | cons v vs ih =>
    rw [List.append_cons] at hnd ⊢
    have hfree : key v ∉ l.map key := by
      rw [List.map_append, List.map_append] at hnd
      intro hv
      exact (List.nodup_append.mp (List.nodup_append.mp hnd).1).2.2 _ hv _ (by simp) rfl
    exact ih (h.add hfree (hf s v)) hnd

end Indexes

end ProtoRegistry
