import Mathlib.Data.List.Nodup
import Mathlib.Tactic.Push

/-!
# Working through items in rounds

Items are visited in a fixed order, round after round. An item is settled at a visit when each item that it
waits for is settled by then. It waits for what it needs, in the order given, up to the first of these that
cannot be attained. Rounds go on as long as they attain something. So everything attainable is attained, but
an item that only waits to fail may be left when the rounds end.
-/

namespace ProtoRegistry

variable {α : Type _}

/-- The item is good, and everything it needs can be attained. -/
inductive Attainable (needs : α → List α) (good : α → Prop) : α → Prop where
  | intro : good a → (∀ b ∈ needs a, Attainable needs good b) → Attainable needs good a

/-- What `a` needs before `b` can be attained, so that it comes to wait for `b`. -/
def Awaits (needs : α → List α) (good : α → Prop) (a b : α) : Prop :=
  ∃ l l', needs a = l ++ b :: l' ∧ ∀ c ∈ l, Attainable needs good c

def Precedes (items : List α) (b a : α) : Prop := ∃ l l', items = l ++ a :: l' ∧ b ∈ l

/-- The item is settled in the first `k` rounds, if there are as many. -/
inductive SettledWithin (items : List α) (needs : α → List α) (good : α → Prop) : Nat → α → Prop where
  | intro : (∀ b, Awaits needs good a b → Precedes items b a → SettledWithin items needs good (k + 1) b) →
      (∀ b, Awaits needs good a b → ¬ Precedes items b a → SettledWithin items needs good k b) →
      SettledWithin items needs good (k + 1) a

/-- The item is settled in the first `k` rounds and that part of the next one in which `l` is visited. -/
def SettledUpTo (items : List α) (needs : α → List α) (good : α → Prop) (k : Nat) (l : List α) (a : α) : Prop :=
  SettledWithin items needs good k a ∨ a ∈ l ∧ SettledWithin items needs good (k + 1) a

/-- Everything attainable is attained in the first `k` rounds. -/
def AttainsWithin (items : List α) (needs : α → List α) (good : α → Prop) (k : Nat) : Prop :=
  ∀ a ∈ items, Attainable needs good a → SettledWithin items needs good k a

/-- One round after everything attainable is attained, everything is settled. -/
def SettlesAll (items : List α) (needs : α → List α) (good : α → Prop) : Prop :=
  ∀ k, AttainsWithin items needs good k → ∀ a ∈ items, SettledWithin items needs good (k + 1) a

section
variable {items l : List α} {needs : α → List α} {good : α → Prop}

theorem attainable_iff : Attainable needs good a ↔ good a ∧ ∀ b ∈ needs a, Attainable needs good b := by
  refine ⟨fun h => ?_, fun h => .intro h.1 h.2⟩
  cases h with
  | intro hgood hneeds => exact ⟨hgood, hneeds⟩

theorem precedes_iff (hnd : items.Nodup) (hitems : items = l ++ a :: l') : Precedes items b a ↔ b ∈ l := by
  refine ⟨fun ⟨m, m', heq, hb⟩ => ?_, fun hb => ⟨l, l', hitems, hb⟩⟩
  rw [hitems, List.nodup_middle, List.nodup_cons, List.mem_append, not_or] at hnd
  obtain ⟨⟨hl, hl'⟩, -⟩ := hnd
  obtain ⟨rfl, -⟩ := (List.append_cons_inj_of_notMem hl hl').mp (hitems.symm.trans heq)
  exact hb

theorem not_settledWithin_zero : ¬ SettledWithin items needs good 0 a := by
  intro h
  cases h

theorem SettledWithin.succ (h : SettledWithin items needs good k a) : SettledWithin items needs good (k + 1) a := by
  induction h with
  | intro _ _ hbefore hafter => exact .intro hbefore hafter

theorem SettledWithin.mono (h : SettledWithin items needs good k a) (hk : k ≤ n) :
    SettledWithin items needs good n a := by
  induction hk with
  | refl => exact h
  | step _ ih => exact ih.succ

theorem settledWithin_succ_iff (hnd : items.Nodup) (hitems : items = l ++ a :: l') :
    SettledWithin items needs good (k + 1) a ↔ ∀ b, Awaits needs good a b → SettledUpTo items needs good k l b := by
  constructor
  · intro h b hb
    cases h with
    | intro hbefore hafter =>
      by_cases hl : b ∈ l
      · exact .inr ⟨hl, hbefore b hb ((precedes_iff hnd hitems).mpr hl)⟩
      · exact .inl (hafter b hb fun hprec => hl ((precedes_iff hnd hitems).mp hprec))
  · intro h
    refine .intro (fun b hb _ => ?_) fun b hb hnot => ?_
    · obtain hk | ⟨-, hk⟩ := h b hb
      · exact hk.succ
      · exact hk
    · obtain hk | ⟨hl, -⟩ := h b hb
      · exact hk
      · exact (hnot ((precedes_iff hnd hitems).mpr hl)).elim

theorem Awaits.mem_of_not_attainable (h : Awaits needs good a b) (hneeds : needs a = l ++ c :: l')
    (hc : ¬ Attainable needs good c) : b ∈ l ∨ b = c := by
  obtain ⟨m, m', heq, hm⟩ := h
  obtain ⟨d, hl, hrest⟩ | ⟨d, hl, hrest⟩ := List.append_eq_append_iff.mp (hneeds.symm.trans heq)
  · cases d with
    | nil => exact .inr (List.cons.inj hrest).1.symm
    | cons e d =>
      obtain ⟨rfl, -⟩ := List.cons.inj hrest
      exact absurd (hm c (by simp [hl])) hc
  · cases d with
    | nil => exact .inr (List.cons.inj hrest).1
    | cons e d =>
      obtain ⟨rfl, -⟩ := List.cons.inj hrest
      exact .inl (by simp [hl])

theorem settledUpTo_append : SettledUpTo items needs good k (l ++ [a]) b ↔
    SettledUpTo items needs good k l b ∨ b = a ∧ SettledWithin items needs good (k + 1) a := by
  simp only [SettledUpTo, List.mem_append, List.mem_singleton]
  constructor
  · rintro (h | ⟨h | rfl, hk⟩)
    · exact .inl (.inl h)
    · exact .inl (.inr ⟨h, hk⟩)
    · exact .inr ⟨rfl, hk⟩
  · rintro ((h | ⟨h, hk⟩) | ⟨rfl, hk⟩)
    · exact .inl h
    · exact .inr ⟨.inl h, hk⟩
    · exact .inr ⟨.inr rfl, hk⟩

theorem attainsWithin_of_quiet (hclosed : ∀ a ∈ items, ∀ b ∈ needs a, b ∈ items)
    (hquiet : ∀ a ∈ items, Attainable needs good a → SettledWithin items needs good (k + 1) a →
      SettledWithin items needs good k a) : AttainsWithin items needs good k := by
  intro a ha h
  induction h with
  | @intro a hgood hneeds ih =>
    have hall : ∀ b, Awaits needs good a b → SettledWithin items needs good k b := by
      rintro b ⟨l, l', heq, -⟩
      have hb : b ∈ needs a := by simp [heq]
      exact ih b hb (hclosed a ha b hb)
    exact hquiet a ha (.intro hgood hneeds) (.intro (fun b hb _ => (hall b hb).succ) fun b hb _ => hall b hb)

end

/-! ## Repeating a step -/

/-- Repeat a step, at most `n` times, until it makes no progress. -/
def repeatWhile (step : σ → σ) (progress : σ → Bool) : Nat → σ → σ
  | 0, s => s
  | n + 1, s => if progress (step s) then repeatWhile step progress n (step s) else step s

theorem map_repeatWhile {f : σ → τ} {step : σ → σ} {step' : τ → τ} {progress : σ → Bool} {progress' : τ → Bool}
    (hstep : ∀ s, f (step s) = step' (f s)) (hprogress : ∀ s, progress' (f s) = progress s) (n : Nat) (s : σ) :
    f (repeatWhile step progress n s) = repeatWhile step' progress' n (f s) := by
  induction n generalizing s with
  | zero => rfl
  | succ n ih => rw [repeatWhile, repeatWhile, ← hstep, hprogress, apply_ite f, ih]

theorem countP_lt_countP {l : List α} {p q : α → Bool} (hpq : ∀ b ∈ l, p b = true → q b = true) (ha : a ∈ l)
    (hp : ¬ p a = true) (hq : q a = true) : l.countP p < l.countP q := by
  obtain ⟨l₁, l₂, rfl⟩ := List.append_of_mem ha
  have h₁ := List.countP_mono_left fun b hb => hpq b (List.mem_append_left _ hb)
  have h₂ := List.countP_mono_left fun b hb => hpq b (List.mem_append_right _ (List.mem_cons_of_mem _ hb))
  rw [List.countP_append, List.countP_append, List.countP_cons_of_neg hp, List.countP_cons_of_pos hq]
  omega

theorem repeatWhile_spec {step : σ → σ} {progress : σ → Bool} {J : Nat → σ → Prop} (μ : σ → Nat)
    (hμ : ∀ k s, J k s → progress (step s) = true → μ (step s) < μ s)
    (hstep : ∀ k s, J k s → progress (step s) = true → J (k + 1) (step s)) {k : Nat} {s : σ}
    (hs : J k s) (hn : μ s < n) :
    ∃ K t, J K t ∧ progress (step t) = false ∧ repeatWhile step progress n s = step t := by
  induction n generalizing k s with
  | zero => exact absurd hn (Nat.not_lt_zero _)
  | succ n ih =>
    rw [repeatWhile]
    by_cases hprogress : progress (step s) = true
    · rw [if_pos hprogress]
      exact ih (hstep k s hs hprogress) (Nat.lt_of_lt_of_le (hμ k s hs hprogress) (Nat.le_of_lt_succ hn))
    · rw [if_neg hprogress]
      exact ⟨k, s, hs, Bool.eq_false_iff.mpr hprogress, rfl⟩

end ProtoRegistry
