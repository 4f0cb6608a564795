import ProtoRegistry.Theory.Fallible

/-!
# Programs that others do not disturb

A *view* is the part of the state that some of the threads of a pool work on. When the operations of these
threads act on the view alone, and those of the other threads leave it as it is, then the other threads may as
well not be there (`Pool.Reach.isolate`). When what all threads rely on follows from an invariant that they uphold,
it holds throughout (`Pool.Reach.upholds`).
-/

namespace ProtoRegistry

variable {I : Interface} {α S V : Type}

namespace Pool

variable {R : (op : I.Op) → S → I.Res op → S → Prop} {p p₀ q₀ : Pool I α S} {A B : I.Op → Prop}
  {C : (op : I.Op) → I.Res op → Prop} {J : V → Prop} {inside : Nat → Prop}

/-- The threads inside work on the view, the others leave it alone. -/
structure Separated (A B : I.Op → Prop) (C : (op : I.Op) → I.Res op → Prop) (inside : Nat → Prop) (p : Pool I α S) :
    Prop where
  relies : ∀ {i t}, p.threads[i]? = some t → inside i → t.Relies A C fun _ => True
  spares : ∀ {i t}, p.threads[i]? = some t → ¬ inside i → t.Relies B (fun _ _ => True) fun _ => True

theorem Separated.step (h : p.Separated A B C inside) (hstep : Step R p i op p')
    (hC : ∀ {r s'}, inside i → R op p.state r s' → C op r) : p'.Separated A B C inside := by
  obtain @⟨op, i, _, k, r, s', hthread, hop⟩ := hstep
  -- what holds of the other threads, and of the rest of this one
  have hget : ∀ {j t}, (p.threads.set i (k r))[j]? = some t → (j = i ∧ t = k r) ∨ p.threads[j]? = some t := by
    intro j t hj
    rw [List.getElem?_set] at hj
    split at hj
    · next hij =>
      split at hj
      · cases hj
        exact .inl ⟨hij.symm, rfl⟩
      · cases hj
    · exact .inr hj
  constructor
  · intro j t hj hinside
    obtain ⟨rfl, rfl⟩ | hj := hget hj
    · exact (h.relies hthread hinside).2 r (hC hinside hop)
    · exact h.relies hj hinside
  · intro j t hj hinside
    obtain ⟨rfl, rfl⟩ | hj := hget hj
    · exact (h.spares hthread hinside).2 r trivial
    · exact h.spares hj hinside

/-- **What every thread upholds and relies on** is an invariant, whatever the interleaving. -/
theorem Reach.upholds {J : S → Prop} (hstep : ∀ {op s r s'}, A op → J s → R op s r s' → C op r ∧ J s')
    (hp : ∀ t ∈ p₀.threads, t.Relies A C fun _ => True) (hJ : J p₀.state)
    (h : Reach R (fun _ _ _ _ => True) p₀ p) : J p.state := by
  suffices H : p.Separated A (fun _ => True) C (fun _ => True) ∧ J p.state from H.2
  induction h with
  | refl => exact ⟨⟨fun ht _ => hp _ (List.mem_of_getElem? ht), fun _ hi => (hi trivial).elim⟩, hJ⟩
  | @step p i op p' _ hs _ ih =>
    obtain ⟨hsep, hJ⟩ := ih
    obtain @⟨op, i, _, k, r, s', hthread, hop⟩ := id hs
    have hA := (hsep.relies hthread trivial).1
    exact ⟨hsep.step hs fun _ hop => (hstep hA hJ hop).1, (hstep hA hJ hop).2⟩

/-- **Isolation**: the threads inside go through the same steps, with the same results, in a pool whose other
threads differ or do nothing. -/
theorem Reach.isolate (view : S → V)
    (hrely : ∀ {op s r s'}, A op → J (view s) → R op s r s' → C op r ∧ J (view s'))
    (hact : ∀ {op s r s' t}, A op → J (view s) → view t = view s → R op s r s' → ∃ t', R op t r t' ∧ view t' = view s')
    (hspare : ∀ {op s r s'}, B op → R op s r s' → view s' = view s)
    (hsep : p₀.Separated A B C inside) (hJ : J (view p₀.state))
    (hview : view q₀.state = view p₀.state) (hsame : ∀ i, inside i → q₀.threads[i]? = p₀.threads[i]?)
    (h : Reach R (fun _ _ _ _ => True) p₀ p) :
    ∃ q, Reach R (fun _ _ _ _ => True) q₀ q ∧ view q.state = view p.state ∧
      ∀ i, inside i → q.threads[i]? = p.threads[i]? := by
  suffices H : (p.Separated A B C inside ∧ J (view p.state)) ∧ ∃ q, Reach R (fun _ _ _ _ => True) q₀ q ∧
      view q.state = view p.state ∧ ∀ i, inside i → q.threads[i]? = p.threads[i]? from H.2
  induction h with
  | refl => exact ⟨⟨hsep, hJ⟩, q₀, .refl, hview, hsame⟩
  | @step p i op p' _ hs _ ih =>
    obtain ⟨⟨hsep, hJ⟩, q, hq, hview, hsame⟩ := ih
    by_cases hi : inside i
    · refine ⟨⟨hsep.step hs fun _ hop => ?_, ?_⟩, ?_⟩
      · obtain @⟨op, i, _, k, r, s', hthread, -⟩ := hs
        exact (hrely (hsep.relies hthread hi).1 hJ hop).1
      · obtain @⟨op, i, _, k, r, s', hthread, hop⟩ := hs
        exact (hrely (hsep.relies hthread hi).1 hJ hop).2
      · obtain @⟨op, i, _, k, r, s', hthread, hop⟩ := hs
        obtain ⟨t', hop', hview'⟩ := hact (hsep.relies hthread hi).1 hJ hview hop
        refine ⟨_, hq.step (.intro ((hsame i hi).trans hthread) hop') trivial, hview', fun j hj => ?_⟩
        rw [List.getElem?_set, List.getElem?_set]
        have hlen : i < q.threads.length ↔ i < p.threads.length := by
          rw [List.getElem?_eq_some_iff] at hthread
          have hq := (hsame i hi).trans (List.getElem?_eq_some_iff.mpr hthread)
          rw [List.getElem?_eq_some_iff] at hq
          exact ⟨fun _ => hthread.1, fun _ => hq.1⟩
        simp only [hlen]
        split
        · rfl
        · exact hsame j hj
    · have hkeep : view p'.state = view p.state := by
        obtain @⟨op, i, _, k, r, s', hthread, hop⟩ := hs
        exact hspare (hsep.spares hthread hi).1 hop
      refine ⟨⟨hsep.step hs fun hi' => (hi hi').elim, hkeep ▸ hJ⟩, q, hq, hview.trans hkeep.symm, fun j hj => ?_⟩
      obtain @⟨op, i, _, k, r, s', hthread, hop⟩ := hs
      have hne : i ≠ j := fun heq => hi (heq ▸ hj)
      rw [List.getElem?_set_ne hne]
      exact hsame j hj

end Pool

end ProtoRegistry
