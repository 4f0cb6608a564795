import Mathlib.Data.List.Nodup
import ProtoRegistry.Theory.Except

/-!
# Programs over a state that can fail

The changes that such a program makes before it fails stay. `Triple P x Q E` says that `x`, started in a
state with `P`, ends with a result in `Q` or with an error in `E`.
-/

namespace ProtoRegistry

abbrev StateE (σ ε α : Type) := ExceptT ε (StateM σ) α

namespace StateE

variable {σ ε α β : Type} {x : StateE σ ε α} {f : α → StateE σ ε β}

/-- The result or error, and the final state. -/
def exec (x : StateE σ ε α) (s : σ) : Except ε α × σ := x.run.run s

theorem exec_bind (x : StateE σ ε α) (f : α → StateE σ ε β) (s : σ) :
    exec (x >>= f) s = match exec x s with
      | (.ok a, s') => exec (f a) s'
      | (.error e, s') => (.error e, s') := by
  change ((ExceptT.bindCont f (x.run.run s).1).run (x.run.run s).2) = _
  unfold exec
  generalize x.run.run s = res
  obtain ⟨_ | a, s'⟩ := res <;> rfl

/-- Change the state by a function that can fail. -/
def change (step : σ → Except ε σ) : StateE σ ε Unit := do
  match step (← get) with
  | .ok s => set s
  | .error e => throw e

theorem exec_change (step : σ → Except ε σ) (s : σ) :
    exec (change step) s = match step s with
      | .ok s' => (.ok (), s')
      | .error e => (.error e, s) := by
  change (match step s with
    | .ok s' => set s'
    | .error e => throw e : StateE σ ε Unit).exec s = _
  cases step s <;> rfl

theorem exec_forM_cons (g : α → StateE σ ε PUnit) (a : α) (l : List α) (s : σ) :
    exec ((a :: l).forM g) s = match exec (g a) s with
      | (.ok _, s') => exec (l.forM g) s'
      | (.error e, s') => (.error e, s') := by
  change exec (g a >>= fun _ => l.forM g) s = _
  rw [exec_bind]
  obtain ⟨_ | _, s'⟩ := exec (g a) s <;> rfl

theorem exec_forM_filter {p : α → Bool} {g : α → StateE σ ε PUnit} {l : List α}
    (h : ∀ a ∈ l, p a = false → ∀ s, exec (g a) s = (.ok (), s)) (s : σ) :
    exec ((l.filter p).forM g) s = exec (l.forM g) s := by
  induction l generalizing s with
  | nil => rfl
  | cons a l ih =>
    have ih := ih fun b hb => h b (List.mem_cons_of_mem _ hb)
    rw [List.filter_cons, exec_forM_cons]
    cases hp : p a with
    | true =>
      rw [if_pos rfl, exec_forM_cons]
      simp only [ih]
    | false => rw [if_neg Bool.false_ne_true, ih, h a (List.mem_cons_self ..) hp]

def mapError (g : ε → ε) (x : StateE σ ε α) : StateE σ ε α := ExceptT.adapt g x

theorem exec_mapError (g : ε → ε) (x : StateE σ ε α) (s : σ) :
    exec (mapError g x) s = ((exec x s).1.mapError g, (exec x s).2) := rfl

/-- From a state with `P` the program ends with a result in `Q` or an error in `E`. -/
def Triple (P : σ → Prop) (x : StateE σ ε α) (Q : α → σ → Prop) (E : ε → σ → Prop) : Prop :=
  ∀ s, P s → match exec x s with
    | (.ok a, s') => Q a s'
    | (.error e, s') => E e s'

namespace Triple

variable {P : σ → Prop} {Q : α → σ → Prop} {R : β → σ → Prop} {E : ε → σ → Prop}

theorem bind (hx : Triple P x Q E) (hf : ∀ a, Triple (Q a) (f a) R E) : Triple P (x >>= f) R E := by
  intro s hs
  rw [exec_bind]
  have hres := hx s hs
  revert hres
  obtain ⟨_ | a, s'⟩ := exec x s
  · exact id
  · exact hf a s'

theorem ok (h : Triple P x Q E) (hs : P s) (hexec : exec x s = (.ok a, s')) : Q a s' := by
  have hres := h s hs
  rwa [hexec] at hres

theorem error (h : Triple P x Q E) (hs : P s) (hexec : exec x s = (.error e, s')) : E e s' := by
  have hres := h s hs
  rwa [hexec] at hres

theorem weaken {P' : σ → Prop} {Q' : α → σ → Prop} {E' : ε → σ → Prop} (h : Triple P x Q E)
    (hP : ∀ s, P' s → P s) (hQ : ∀ a s, Q a s → Q' a s) (hE : ∀ e s, E e s → E' e s) :
    Triple P' x Q' E' := by
  intro s hs
  have hres := h s (hP s hs)
  revert hres
  obtain ⟨e | a, s'⟩ := exec x s
  · exact hE e s'
  · exact hQ a s'

theorem and {P' : σ → Prop} {Q' : α → σ → Prop} {E' : ε → σ → Prop} (h : Triple P x Q E) (h' : Triple P' x Q' E') :
    Triple (fun s => P s ∧ P' s) x (fun a s => Q a s ∧ Q' a s) (fun e s => E e s ∧ E' e s) := by
  intro s hs
  have hres := h s hs.1
  have hres' := h' s hs.2
  revert hres hres'
  obtain ⟨e | a, s'⟩ := exec x s <;> exact fun hres hres' => ⟨hres, hres'⟩

theorem total (h : Triple P x Q fun _ _ => False) (hs : P s) : ∃ a s', exec x s = (.ok a, s') ∧ Q a s' := by
  have hres := h s hs
  revert hres
  obtain ⟨e | a, s'⟩ := exec x s
  · exact False.elim
  · exact fun hres => ⟨a, s', rfl, hres⟩

theorem mapError {g : ε → ε} (h : Triple P x Q fun e => E (g e)) : Triple P (StateE.mapError g x) Q E := by
  intro s hs
  rw [exec_mapError]
  have hres := h s hs
  revert hres
  obtain ⟨e | a, s'⟩ := exec x s <;> exact fun hres => hres

theorem change {step : σ → Except ε σ} {Q : Unit → σ → Prop} (hok : ∀ s s', P s → step s = .ok s' → Q () s')
    (herr : ∀ s e, P s → step s = .error e → E e s) : Triple P (StateE.change step) Q E := by
  intro s hs
  rw [exec_change]
  cases hstep : step s with
  | ok s' => exact hok s s' hs hstep
  | error e => exact herr s e hs hstep

/-- The rule for a loop over a list: an assertion about the elements done and the elements left. -/
theorem forM {l : List α} {g : α → StateE σ ε PUnit} {J : List α → List α → σ → Prop}
    (hg : ∀ done a rest, l = done ++ a :: rest →
      Triple (J done (a :: rest)) (g a) (fun _ => J (done ++ [a]) rest) E) :
    Triple (J [] l) (l.forM g) (fun _ => J l []) E := by
  refine split_induct (P := fun done rest => Triple (J done rest) (rest.forM g) (fun _ => J l []) E) ?_ ?_
  · exact fun s hs => hs
  · intro done a rest hl ih
    exact bind (hg done a rest hl) fun _ => ih

end Triple

/-! ## Programs that remove -/

/-- The program removes the keys, one after the other, from those a state has. It fails at the first that is
missing, and what it has removed by then stays removed. -/
structure Erases (has : σ → κ → Prop) (E : ε → Prop) (x : StateE σ ε PUnit) (keys : List κ) : Prop where
  nil : keys = [] → ∀ s, exec x s = (.ok ⟨⟩, s)
  ok : ∀ s, keys.Nodup → (∀ k ∈ keys, has s k) →
    ∃ s', exec x s = (.ok ⟨⟩, s') ∧ ∀ k, has s' k ↔ has s k ∧ k ∉ keys
  error : ∀ s, ¬ (keys.Nodup ∧ ∀ k ∈ keys, has s k) → ∃ e s', exec x s = (.error e, s') ∧ E e ∧
    (∀ k, has s' k → has s k) ∧ ∃ k ∈ keys.head?, ¬ has s' k ∧ (has s k ∨ s' = s)

namespace Erases

variable {κ : Type} {has : σ → κ → Prop} {E : ε → Prop} {x y : StateE σ ε PUnit} {keys keys' : List κ}

theorem bind (hx : Erases has E x keys) (hy : Erases has E y keys') :
    Erases has E (x >>= fun _ => y) (keys ++ keys') := by
  refine ⟨fun hnil s => ?_, fun s hnd hall => ?_, fun s hnot => ?_⟩
  · obtain ⟨hkeys, hkeys'⟩ := List.append_eq_nil_iff.mp hnil
    rw [exec_bind, hx.nil hkeys]
    exact hy.nil hkeys' s
  · obtain ⟨hnd₁, hnd₂, hdisjoint⟩ := List.nodup_append.mp hnd
    obtain ⟨s₁, hexec₁, hs₁⟩ := hx.ok s hnd₁ fun k hk => hall k (List.mem_append_left _ hk)
    obtain ⟨s₂, hexec₂, hs₂⟩ := hy.ok s₁ hnd₂ fun k hk =>
      (hs₁ k).mpr ⟨hall k (List.mem_append_right _ hk), fun hk' => hdisjoint k hk' k hk rfl⟩
    refine ⟨s₂, by rw [exec_bind, hexec₁]; exact hexec₂, fun k => ?_⟩
    rw [hs₂, hs₁, List.mem_append, not_or, and_assoc]
  · by_cases hfirst : keys.Nodup ∧ ∀ k ∈ keys, has s k
    · obtain ⟨s₁, hexec₁, hs₁⟩ := hx.ok s hfirst.1 hfirst.2
      have hnot' : ¬ (keys'.Nodup ∧ ∀ k ∈ keys', has s₁ k) := by
        rintro ⟨hnd, hall⟩
        refine hnot ⟨List.nodup_append.mpr ⟨hfirst.1, hnd, ?_⟩, fun k hk => ?_⟩
        · rintro k hk _ hk' rfl
          exact ((hs₁ k).mp (hall k hk')).2 hk
        · obtain hk | hk := List.mem_append.mp hk
          · exact hfirst.2 k hk
          · exact ((hs₁ k).mp (hall k hk)).1
      obtain ⟨e, s₂, hexec₂, he, hshrinks, hhead⟩ := hy.error s₁ hnot'
      refine ⟨e, s₂, by rw [exec_bind, hexec₁]; exact hexec₂, he, fun k hk => ((hs₁ k).mp (hshrinks k hk)).1, ?_⟩
      cases keys with
      | nil =>
        cases (hx.nil rfl s).symm.trans hexec₁
        exact hhead
      | cons k keys =>
        refine ⟨k, rfl, fun hk => ?_, .inl (hfirst.2 k (List.mem_cons_self ..))⟩
        exact ((hs₁ k).mp (hshrinks k hk)).2 (List.mem_cons_self ..)
    · obtain ⟨e, s', hexec, he, hshrinks, k, hk, hlost⟩ := hx.error s hfirst
      refine ⟨e, s', by rw [exec_bind, hexec], he, hshrinks, k, ?_, hlost⟩
      cases keys with
      | nil => cases hk
      | cons k' keys => exact hk

theorem forM {g : α → StateE σ ε PUnit} {keys : α → List κ} (h : ∀ a, Erases has E (g a) (keys a)) (l : List α) :
    Erases has E (l.forM g) (l.flatMap keys) := by
  induction l with
  | nil => exact ⟨fun _ _ => rfl, fun s _ _ => ⟨s, rfl, by simp⟩, fun s h => absurd ⟨List.nodup_nil, by simp⟩ h⟩
  | cons a l ih => exact (h a).bind ih

theorem mapError {g : ε → ε} (hg : ∀ e, E e → E (g e)) (hx : Erases has E x keys) :
    Erases has E (StateE.mapError g x) keys := by
  refine ⟨fun hnil s => ?_, fun s hnd hall => ?_, fun s hnot => ?_⟩
  · rw [exec_mapError, hx.nil hnil]
    rfl
  · obtain ⟨s', hexec, hs'⟩ := hx.ok s hnd hall
    exact ⟨s', by rw [exec_mapError, hexec]; rfl, hs'⟩
  · obtain ⟨e, s', hexec, he, hrest⟩ := hx.error s hnot
    exact ⟨g e, s', by rw [exec_mapError, hexec]; rfl, hg e he, hrest⟩

/-- A single change removes one key. -/
theorem change {step : σ → Except ε σ} {k : κ}
    (hok : ∀ s, has s k → ∃ s', step s = .ok s' ∧ ∀ k', has s' k' ↔ has s k' ∧ k' ≠ k)
    (herr : ∀ s, ¬ has s k → ∃ e, step s = .error e ∧ E e) : Erases has E (StateE.change step) [k] := by
  refine ⟨nofun, fun s _ hall => ?_, fun s hnot => ?_⟩
  · obtain ⟨s', hstep, hs'⟩ := hok s (hall k (List.mem_singleton_self k))
    refine ⟨s', by rw [exec_change, hstep], fun k' => ?_⟩
    rw [hs', List.mem_singleton]
  · have hmissing : ¬ has s k := fun hk => hnot ⟨List.nodup_singleton k, by simpa using hk⟩
    obtain ⟨e, hstep, he⟩ := herr s hmissing
    exact ⟨e, s, by rw [exec_change, hstep], he, fun _ => id, k, rfl, hmissing, .inr rfl⟩

end Erases

end StateE

end ProtoRegistry
