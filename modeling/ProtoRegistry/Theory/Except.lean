import Mathlib.Data.List.Forall2

/-!
# Results that can be errors
-/

namespace ProtoRegistry

variable {α β ε δ : Type}

theorem except_bind_eq_ok {x : Except ε α} {f : α → Except ε β} :
    (x >>= f) = .ok b ↔ ∃ a, x = .ok a ∧ f a = .ok b := by
  cases x with
  | error e => simp [bind, Except.bind]
  | ok a => simp [bind, Except.bind]

theorem check_eq_ok {p : Prop} [Decidable p] {e : ε} {x : Except ε α} :
    (if p then ((throw e : Except ε PUnit) >>= fun _ => x) else x) = .ok a ↔ ¬p ∧ x = .ok a := by
  by_cases hp : p
  · simp [hp, throw, throwThe, MonadExceptOf.throw, bind, Except.bind]
  · simp [hp]

theorem forM_eq_ok_iff {f : α → Except ε Unit} {l : List α} : l.forM f = .ok u ↔ ∀ a ∈ l, f a = .ok () := by
  induction l with
  | nil => exact iff_of_true rfl (by simp)
  | cons a l ih =>
    change (f a >>= fun _ => l.forM f) = .ok u ↔ _
    rw [except_bind_eq_ok, List.forall_mem_cons]
    exact ⟨fun ⟨_, ha, hl⟩ => ⟨ha, ih.mp hl⟩, fun ⟨ha, hl⟩ => ⟨_, ha, ih.mpr hl⟩⟩

theorem mapM_eq_ok_iff {f : α → Except ε β} {l : List α} {bs : List β} :
    l.mapM f = .ok bs ↔ List.Forall₂ (fun a b => f a = .ok b) l bs := by
  induction l generalizing bs with
  | nil =>
    rw [List.forall₂_nil_left_iff]
    exact ⟨fun h => by cases h; rfl, fun h => by cases h; rfl⟩
  | cons a l ih =>
    rw [List.mapM_cons, except_bind_eq_ok, List.forall₂_cons_left_iff]
    refine exists_congr fun b => ⟨fun ⟨hb, h⟩ => ?_, fun ⟨bs', hb, hbs', h⟩ => ⟨hb, ?_⟩⟩
    · obtain ⟨bs', hbs', h⟩ := except_bind_eq_ok.mp h
      cases h
      exact ⟨bs', hb, ih.mp hbs', rfl⟩
    · exact except_bind_eq_ok.mpr ⟨bs', ih.mpr hbs', congrArg Except.ok h.symm⟩

theorem length_of_mapM_eq_ok {f : α → Except ε β} {l : List α} {bs : List β} (h : l.mapM f = .ok bs) :
    bs.length = l.length :=
  (mapM_eq_ok_iff.mp h).length_eq.symm

theorem mem_of_mapM_eq_ok {f : α → Except ε β} {l : List α} {bs : List β} (h : l.mapM f = .ok bs) :
    b ∈ bs ↔ ∃ a ∈ l, f a = .ok b := by
  induction mapM_eq_ok_iff.mp h with
  | nil => simp
  | @cons a b' l bs hb' hrest ih =>
    rw [List.mem_cons, ih (mapM_eq_ok_iff.mpr hrest), List.exists_mem_cons_iff, hb', Except.ok.injEq, eq_comm]

theorem mapM_eq_ok_mono {f g : α → Except ε β} {l : List α} {bs : List β}
    (hfg : ∀ a ∈ l, ∀ b, f a = .ok b → g a = .ok b) (h : l.mapM f = .ok bs) : l.mapM g = .ok bs := by
  have hrounds := (List.forall₂_and_left (p := (· ∈ l)) l bs).mpr ⟨fun _ ha => ha, mapM_eq_ok_iff.mp h⟩
  exact mapM_eq_ok_iff.mpr (hrounds.imp fun a b hab => hfg a hab.1 b hab.2)

theorem mapM_eq_map {f : α → Except ε β} {g : α → β} {l : List α} (h : ∀ a ∈ l, f a = .ok (g a)) :
    l.mapM f = .ok (l.map g) := by
  rw [mapM_eq_ok_iff, List.forall₂_map_right_iff]
  exact List.forall₂_same.mpr h

theorem eq_map_of_mapM_eq_ok {f : α → Except ε β} {g : α → β} {l : List α} {bs : List β}
    (hf : ∀ a ∈ l, ∀ b, f a = .ok b → b = g a) (h : l.mapM f = .ok bs) : bs = l.map g := by
  have hpure : l.mapM (fun a => (.ok (g a) : Except ε β)) = .ok bs :=
    mapM_eq_ok_mono (fun a ha b hb => congrArg Except.ok (hf a ha b hb).symm) h
  rw [mapM_eq_map fun _ _ => rfl] at hpure
  exact (Except.ok.inj hpure).symm

theorem mapError_eq_ok {x : Except ε α} {f : ε → δ} : x.mapError f = .ok a ↔ x = .ok a := by
  cases x <;> simp [Except.mapError]

theorem exists_of_any {x : Except ε α} {p : α → Bool} (h : x.toOption.any p) : ∃ a, x = .ok a ∧ p a := by
  cases x with
  | error e => cases h
  | ok a => exact ⟨a, rfl, h⟩

/-- Induction on the elements of a list that are left, next to those that are done. -/
theorem split_induct {P : List α → List α → Prop} {l : List α} (hnil : P l [])
    (hcons : ∀ done a rest, l = done ++ a :: rest → P (done ++ [a]) rest → P done (a :: rest)) : P [] l := by
  suffices H : ∀ rest done, l = done ++ rest → P done rest from H l [] rfl
  intro rest
  induction rest with
  | nil =>
    intro done hl
    rw [List.append_nil] at hl
    exact hl ▸ hnil
  | cons a rest ih =>
    intro done hl
    exact hcons done a rest hl (ih (done ++ [a]) (by rw [hl, List.append_cons]))

theorem foldlM_split {f : β → α → Except ε β} {J : List α → β → Prop} {l : List α} (h₀ : J [] b)
    (hstep : ∀ done a rest b b', l = done ++ a :: rest → J done b → f b a = .ok b' → J (done ++ [a]) b')
    (h : l.foldlM f b = .ok c) : J l c := by
  refine split_induct (P := fun done rest => ∀ b, J done b → rest.foldlM f b = .ok c → J l c) ?_ ?_ b h₀ h
  · rintro b hb ⟨⟩
    exact hb
  · intro done a rest hl ih b hb h
    rw [List.foldlM_cons] at h
    obtain ⟨b', ha, hrest⟩ := except_bind_eq_ok.mp h
    exact ih b' (hstep done a rest b b' hl hb ha) hrest

theorem exists_of_foldlM_error {f : β → α → Except ε β} {l : List α} (h : l.foldlM f b = .error e) :
    ∃ a ∈ l, ∃ b', f b' a = .error e := by
  induction l generalizing b with
  | nil => cases h
  | cons a l ih =>
    rw [List.foldlM_cons] at h
    cases hstep : f b a with
    | error e' =>
      rw [hstep] at h
      cases h
      exact ⟨a, List.mem_cons_self .., b, hstep⟩
    | ok b' =>
      rw [hstep] at h
      obtain ⟨a', ha', b'', hb''⟩ := ih h
      exact ⟨a', List.mem_cons_of_mem _ ha', b'', hb''⟩

theorem foldlM_inv {f : β → α → Except ε β} {J : List α → β → Prop} {l : List α} (h₀ : J [] b)
    (hstep : ∀ done a b b', a ∈ l → J done b → f b a = .ok b' → J (done ++ [a]) b')
    (h : l.foldlM f b = .ok c) : J l c := by
  refine foldlM_split h₀ (fun done a rest b b' hl => hstep done a b b' ?_) h
  rw [hl]
  exact List.mem_append_right _ (List.mem_cons_self ..)

theorem foldlM_total {f : β → α → Except ε β} {J : List α → β → Prop} {l : List α} (h₀ : J [] b)
    (hstep : ∀ done a rest b, l = done ++ a :: rest → J done b → ∃ b', f b a = .ok b' ∧ J (done ++ [a]) b') :
    ∃ c, l.foldlM f b = .ok c ∧ J l c := by
  refine split_induct (P := fun done rest => ∀ b, J done b → ∃ c, rest.foldlM f b = .ok c ∧ J l c) ?_ ?_ b h₀
  · exact fun b hb => ⟨b, rfl, hb⟩
  · intro done a rest hl ih b hb
    obtain ⟨b', ha, hb'⟩ := hstep done a rest b hl hb
    rw [List.foldlM_cons, ha]
    exact ih b' hb'

theorem foldlM_eq_ok {f : β → α → Except ε β} {l : List α} (h : ∀ a ∈ l, ∀ b, ∃ b', f b a = .ok b') (b : β) :
    ∃ c, l.foldlM f b = .ok c := by
  have htotal := foldlM_total (f := f) (J := fun _ _ => True) (l := l) (b := b) trivial ?_
  · obtain ⟨c, hc, _⟩ := htotal
    exact ⟨c, hc⟩
  · intro done a rest b hl _
    obtain ⟨b', hb'⟩ := h a (hl ▸ List.mem_append_right _ (List.mem_cons_self ..)) b
    exact ⟨b', hb', trivial⟩

end ProtoRegistry
