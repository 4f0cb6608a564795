import ProtoRegistry.Theory.Except
import ProtoRegistry.Theory.Program

/-!
# Programs that can fail

The rules of `Prog.Relies` and `Prog.Contract` for programs in `ExceptT ε (Prog I)`, the monad of code
that returns at its first error. `Within A C x Q` says what `x` performs and returns, and `Uses A x` which
operations it performs, whatever they return; `Meets A C x h Q` is a contract of `x` from the history `h`,
whose postcondition `Q` sees the error or the result, and `Spec G x h Q` is one without an assumption.
-/

namespace ProtoRegistry

open Prog

variable {I : Interface} {ε α β : Type} {x : ExceptT ε (Prog I) α} {f : α → ExceptT ε (Prog I) β}

/-! ## Running alone -/

section
variable {S : Type} (step : (op : I.Op) → S → I.Res op × S)

/-- The result or error, and the final state, of a program that runs without interference. -/
def execute (x : ExceptT ε (Prog I) α) (s : S) : Except ε α × S := Prog.exec step x.run s

@[simp] theorem execute_pure (a : α) (s : S) :
    execute step (pure a : ExceptT ε (Prog I) α) s = (.ok a, s) := rfl

@[simp] theorem execute_throw (e : ε) (s : S) :
    execute step (throw e : ExceptT ε (Prog I) α) s = (.error e, s) := rfl

@[simp] theorem execute_liftExcept (r : Except ε α) (s : S) :
    execute step (liftExcept r : ExceptT ε (Prog I) α) s = (r, s) := by
  cases r <;> rfl

theorem execute_bind (x : ExceptT ε (Prog I) α) (f : α → ExceptT ε (Prog I) β) (s : S) :
    execute step (x >>= f) s = match execute step x s with
      | (.ok a, s') => execute step (f a) s'
      | (.error e, s') => (.error e, s') := by
  refine (exec_bind step x.run _ s).trans ?_
  unfold execute
  generalize Prog.exec step x.run s = res
  obtain ⟨_ | a, s'⟩ := res <;> rfl

variable {step} {s s' s'' : S}

theorem execute_bind_of_ok (h : execute step x s = (.ok a, s')) :
    execute step (x >>= f) s = execute step (f a) s' := by
  rw [execute_bind, h]

theorem execute_bind_of_error (h : execute step x s = (.error e, s')) :
    execute step (x >>= f) s = (.error e, s') := by
  rw [execute_bind, h]

theorem execute_bind_assoc {g : β → ExceptT ε (Prog I) γ} :
    execute step (x >>= fun a => f a >>= g) s = execute step ((x >>= f) >>= g) s := by
  rw [execute_bind, execute_bind, execute_bind]
  rcases execute step x s with ⟨_ | a, s'⟩
  · rfl
  · exact execute_bind ..

theorem execute_bind_congr {y : ExceptT ε (Prog I) α} (h : execute step x s = execute step y s) :
    execute step (x >>= f) s = execute step (y >>= f) s := by
  rw [execute_bind, execute_bind, h]

theorem execute_bind_eq_ok_of {r : Except ε α} (h : execute step x s = (r, s')) :
    execute step (x >>= f) s = (.ok b, s'') ↔ ∃ a, r = .ok a ∧ execute step (f a) s' = (.ok b, s'') := by
  rw [execute_bind, h]
  cases r with
  | error e => simp
  | ok a => simp

theorem execute_bind_eq_ok : execute step (x >>= f) s = (.ok b, s'') ↔
    ∃ a s', execute step x s = (.ok a, s') ∧ execute step (f a) s' = (.ok b, s'') := by
  refine ⟨fun h => ?_, fun ⟨a, s', hx, hf⟩ => (execute_bind_eq_ok_of hx).mpr ⟨a, rfl, hf⟩⟩
  rcases hx : execute step x s with ⟨r, s'⟩
  obtain ⟨a, rfl, hf⟩ := (execute_bind_eq_ok_of hx).mp h
  exact ⟨a, s', rfl, hf⟩

theorem snd_execute_bind_pure (x : ExceptT ε (Prog I) α) (g : α → β) (s : S) :
    (execute step (x >>= fun a => pure (g a)) s).2 = (execute step x s).2 := by
  rw [execute_bind]
  rcases execute step x s with ⟨_ | a, s'⟩ <;> rfl

/-- What a program keeps and what follows it keeps from there, both keep together. -/
theorem execute_bind_inv {J : S → Prop} (hx : J (execute step x s).2)
    (hf : ∀ a s', execute step x s = (.ok a, s') → J s' → J (execute step (f a) s').2) :
    J (execute step (x >>= f) s).2 := by
  rw [execute_bind]
  rcases hexec : execute step x s with ⟨_ | a, s'⟩
  · rwa [hexec] at hx
  · rw [hexec] at hx
    exact hf a s' hexec hx

theorem Pool.Reach.run_ok {R : (op : I.Op) → S → I.Res op → S → Prop} {p p₀ : Pool I (Except ε β) S} {i : Nat}
    (hR : ∀ op s, R op s (step op s).1 (step op s).2)
    (h : Reach R (fun _ _ _ _ => True) p₀ p) (hi : p.threads[i]? = some (x >>= f).run)
    (hx : execute step x p.state = (.ok a, s')) :
    ∃ tr, Reach R (fun _ _ _ _ => True) p₀ ⟨s', p.threads.set i (f a).run, tr⟩ := by
  obtain ⟨tr, hreach⟩ := h.run hR (t := x.run) hi
  refine ⟨tr, ?_⟩
  have hexec : Prog.exec step x.run p.state = (.ok a, s') := hx
  rwa [hexec] at hreach

theorem execute_bind_of_read {r : Except ε α} {g : α → Except ε β} (h : execute step x s = (r, s))
    (hf : ∀ a, r = .ok a → execute step (f a) s = (g a, s)) : execute step (x >>= f) s = (r >>= g, s) := by
  rw [execute_bind, h]
  cases r with
  | error e => rfl
  | ok a => exact hf a rfl

/-- The rule for a loop that only reads. -/
theorem execute_mapM_of_read {g : α → Except ε β} {l : List α} (hf : ∀ a ∈ l, execute step (f a) s = (g a, s)) :
    execute step (l.mapM f) s = (l.mapM g, s) := by
  induction l with
  | nil => rfl
  | cons a l ih =>
    rw [List.mapM_cons, List.mapM_cons]
    have ih := ih fun a ha => hf a (List.mem_cons_of_mem _ ha)
    refine execute_bind_of_read (hf a (List.mem_cons_self ..)) fun b _ => ?_
    exact execute_bind_of_read ih fun bs _ => rfl

theorem execute_forM_cons (g : α → ExceptT ε (Prog I) PUnit) (a : α) (l : List α) (s : S) :
    execute step ((a :: l).forM g) s = execute step (g a >>= fun _ => l.forM g) s := rfl

/-- What every round of a loop keeps, the loop keeps, also when it fails. -/
theorem execute_forM_inv {g : α → ExceptT ε (Prog I) PUnit} {J : S → Prop} {l : List α} (h₀ : J s)
    (hstep : ∀ a s, J s → J (execute step (g a) s).2) : J (execute step (l.forM g) s).2 := by
  induction l generalizing s with
  | nil => exact h₀
  | cons a l ih =>
    rw [execute_forM_cons]
    exact execute_bind_inv (hstep a s h₀) fun _ _ _ hs => ih hs

theorem execute_forM {g : α → ExceptT ε (Prog I) PUnit} {J : List α → S → Prop} {l : List α} (h₀ : J [] s)
    (hstep : ∀ done a rest s, l = done ++ a :: rest → J done s →
      ∃ s', execute step (g a) s = (.ok ⟨⟩, s') ∧ J (done ++ [a]) s') :
    ∃ s', execute step (l.forM g) s = (.ok ⟨⟩, s') ∧ J l s' := by
  refine split_induct (P := fun done rest => ∀ s, J done s →
    ∃ s', execute step (rest.forM g) s = (.ok ⟨⟩, s') ∧ J l s') ?_ ?_ s h₀
  · exact fun s hs => ⟨s, rfl, hs⟩
  · intro done a rest hl ih s hs
    obtain ⟨s', ha, hs'⟩ := hstep done a rest s hl hs
    rw [execute_forM_cons, execute_bind_of_ok ha]
    exact ih s' hs'

theorem execute_forM_error {g : α → ExceptT ε (Prog I) PUnit} {J : S → Prop} {P : α → Prop} {l : List α}
    (h₀ : J s) (hok : ∀ a s, P a → J s → ∃ s', execute step (g a) s = (.ok ⟨⟩, s') ∧ J s')
    (herr : ∀ a s, ¬ P a → J s → ∃ e s', execute step (g a) s = (.error e, s')) (hl : ∃ a ∈ l, ¬ P a) :
    ∃ e s', execute step (l.forM g) s = (.error e, s') := by
  induction l generalizing s with
  | nil => simp at hl
  | cons a l ih =>
    rw [execute_forM_cons]
    by_cases ha : P a
    · obtain ⟨s', hs', hJ⟩ := hok a s ha h₀
      rw [execute_bind_of_ok hs']
      refine ih hJ ?_
      obtain ⟨b, hb, hnb⟩ := hl
      refine ⟨b, (List.mem_cons.mp hb).resolve_left fun heq => hnb (heq ▸ ha), hnb⟩
    · obtain ⟨e, s', hs'⟩ := herr a s ha h₀
      exact ⟨e, s', execute_bind_of_error hs'⟩

/-- Every error that `x` may end with satisfies `K`. -/
def Fails (step : (op : I.Op) → S → I.Res op × S) (K : ε → Prop) (x : ExceptT ε (Prog I) α) : Prop :=
  ∀ s e s', execute step x s = (.error e, s') → K e

theorem Fails.pure (K : ε → Prop) (a : α) : Fails step K (pure a : ExceptT ε (Prog I) α) := by
  intro s e s' h
  cases h

theorem Fails.bind {K : ε → Prop} (hx : Fails step K x) (hf : ∀ a, Fails step K (f a)) : Fails step K (x >>= f) := by
  intro s e s' h
  rw [execute_bind] at h
  rcases hexec : execute step x s with ⟨e' | a, s₁⟩
  · rw [hexec] at h
    cases h
    exact hx s e s' hexec
  · rw [hexec] at h
    exact hf a s₁ e s' h

theorem Fails.mapM {K : ε → Prop} {l : List α} (hf : ∀ a ∈ l, Fails step K (f a)) : Fails step K (l.mapM f) := by
  induction l with
  | nil => exact Fails.pure K []
  | cons a l ih =>
    rw [List.mapM_cons]
    refine (hf a (List.mem_cons_self ..)).bind fun b => ?_
    exact (ih fun b hb => hf b (List.mem_cons_of_mem _ hb)).bind fun _ => .pure K _

theorem Fails.forM {K : ε → Prop} {g : α → ExceptT ε (Prog I) PUnit} {l : List α} (hg : ∀ a ∈ l, Fails step K (g a)) :
    Fails step K (l.forM g) := by
  induction l with
  | nil => exact Fails.pure K PUnit.unit
  | cons a l ih =>
    exact (hg a (List.mem_cons_self ..)).bind fun _ => ih fun b hb => hg b (List.mem_cons_of_mem _ hb)

end

/-! ## Rules -/

/-- What `x` performs and returns, as long as its operations return what `C` allows. -/
def Within (A : I.Op → Prop) (C : (op : I.Op) → I.Res op → Prop) (x : ExceptT ε (Prog I) α) (Q : α → Prop) : Prop :=
  x.run.Relies A C fun res => ∀ a, res = .ok a → Q a

namespace Within

variable {A : I.Op → Prop} {C : (op : I.Op) → I.Res op → Prop} {P : α → Prop} {Q : β → Prop}

theorem pure {a : α} (h : P a) : Within A C (pure a : ExceptT ε (Prog I) α) P := by
  rintro _ ⟨⟩
  exact h

theorem throw (e : ε) : Within A C (throw e : ExceptT ε (Prog I) α) P := by
  rintro _ ⟨⟩

theorem liftExcept {res : Except ε α} (h : ∀ a, res = .ok a → P a) :
    Within A C (liftExcept res : ExceptT ε (Prog I) α) P := by
  cases res with
  | error e => exact Within.throw e
  | ok a => exact Within.pure (h a rfl)

theorem bind (hx : Within A C x P) (hf : ∀ a, P a → Within A C (f a) Q) : Within A C (x >>= f) Q := by
  refine Prog.Relies.bind (Prog.Relies.mono hx fun res hres => ?_)
  cases res with
  | ok a => exact hf a (hres a rfl)
  | error e => exact Within.throw e

theorem mono {P' : α → Prop} (hx : Within A C x P) (h : ∀ a, P a → P' a) : Within A C x P' :=
  Prog.Relies.mono hx fun _ hres a ha => h a (hres a ha)

/-- Forget what is returned. -/
theorem done (hx : Within A C x P) : Within A C x fun _ => True := hx.mono fun _ _ => trivial

theorem mapM {l : List α} {Q : α → β → Prop} (hf : ∀ a ∈ l, Within A C (f a) (Q a)) :
    Within A C (l.mapM f) fun bs => ∀ b ∈ bs, ∃ a ∈ l, Q a b := by
  induction l with
  | nil => exact Within.pure (by simp)
  | cons a l ih =>
    rw [List.mapM_cons]
    refine (hf a (List.mem_cons_self ..)).bind fun b hb => ?_
    refine (ih fun a ha => hf a (List.mem_cons_of_mem _ ha)).bind fun bs hbs => Within.pure fun c hc => ?_
    obtain rfl | hc := List.mem_cons.mp hc
    · exact ⟨a, List.mem_cons_self .., hb⟩
    · obtain ⟨a', ha', hc⟩ := hbs c hc
      exact ⟨a', List.mem_cons_of_mem _ ha', hc⟩

theorem forM {l : List α} {g : α → ExceptT ε (Prog I) PUnit} (hg : ∀ a ∈ l, Within A C (g a) fun _ => True) :
    Within A C (l.forM g) fun _ => True := by
  induction l with
  | nil => exact Within.pure trivial
  | cons a l ih =>
    exact (hg a (List.mem_cons_self ..)).bind fun _ _ => ih fun a ha => hg a (List.mem_cons_of_mem _ ha)

end Within

/-- Every operation `x` may perform satisfies `A`. -/
abbrev Uses (A : I.Op → Prop) (x : ExceptT ε (Prog I) α) : Prop := Within A (fun _ _ => True) x fun _ => True

namespace Uses

variable {A : I.Op → Prop}

theorem mono {B : I.Op → Prop} (hAB : ∀ op, A op → B op) (hx : Uses A x) : Uses B x := Prog.Relies.weaken hAB hx

theorem pure (a : α) : Uses A (pure a : ExceptT ε (Prog I) α) := Within.pure trivial

theorem liftExcept (r : Except ε α) : Uses A (liftExcept r : ExceptT ε (Prog I) α) :=
  Within.liftExcept fun _ _ => trivial

theorem bind (hx : Uses A x) (hf : ∀ a, Uses A (f a)) : Uses A (x >>= f) := Within.bind hx fun a _ => hf a

end Uses

/-- The contract of a program that returns a result or an error. -/
def Meets (A : History I → I.Op → Prop) (C : History I → (op : I.Op) → I.Res op → Prop) (x : ExceptT ε (Prog I) α)
    (h : History I) (Q : Except ε α → History I → Prop) : Prop :=
  x.run.Contract A C h Q

/-- From the history `h`, `x` performs its operations under `G` and ends in `Q`. -/
abbrev Spec (G : History I → I.Op → Prop) (x : ExceptT ε (Prog I) α) (h : History I)
    (Q : Except ε α → History I → Prop) : Prop :=
  Meets G (fun _ _ _ => True) x h Q

/-- A postcondition with one part for results and one for errors. -/
def Ends (A : α → History I → Prop) (E : ε → History I → Prop) : Except ε α → History I → Prop
  | .ok a, h => A a h
  | .error e, h => E e h

/-- A program of operations that are allowed in the histories `K`, and do not leave them. -/
theorem Spec.ofUses {A : I.Op → Prop} {G : History I → I.Op → Prop} {K : History I → Prop} (hx : Uses A x)
    (hA : ∀ h op, K h → A op → G h op) (hK : ∀ h op r, K h → A op → K (⟨op, r⟩ :: h)) (hh : K h) :
    Spec G x h fun _ h' => h <:+ h' ∧ K h' :=
  Relies.guarded hx hA hK hh

namespace Meets

variable {A : History I → I.Op → Prop} {C : History I → (op : I.Op) → I.Res op → Prop} {h : History I}
  {R Q : Except ε α → History I → Prop}

theorem pure {a : α} (hQ : Q (.ok a) h) : Meets A C (pure a : ExceptT ε (Prog I) α) h Q := hQ

theorem throw {e : ε} (hQ : Q (.error e) h) : Meets A C (throw e : ExceptT ε (Prog I) α) h Q := hQ

theorem liftExcept {r : Except ε α} (hQ : Q r h) : Meets A C (liftExcept r : ExceptT ε (Prog I) α) h Q := by
  cases r <;> exact hQ

theorem mono (hx : Meets A C x h R) (hQ : ∀ res h', R res h' → Q res h') : Meets A C x h Q :=
  Prog.Contract.mono hx hQ

/-- The sequencing rule: an error of `x` is the error of the whole. -/
theorem bind {Q : Except ε β → History I → Prop} (hx : Meets A C x h R)
    (herr : ∀ e h', R (.error e) h' → Q (.error e) h')
    (hok : ∀ a h', R (.ok a) h' → Meets A C (f a) h' Q) : Meets A C (x >>= f) h Q := by
  refine Prog.Contract.bind (Prog.Contract.mono hx fun res h' hres => ?_)
  cases res with
  | ok a => exact hok a h' hres
  | error e => exact herr e h' hres

theorem map {g : α → β} {Q : Except ε β → History I → Prop} (hx : Meets A C x h fun res h' => Q (res.map g) h') :
    Meets A C (do return g (← x)) h Q :=
  hx.bind (fun _ _ hres => hres) fun _ _ hres => Meets.pure hres

/-- The rule for a loop: an assertion about the elements done and what they have led to. -/
theorem foldlM {g : β → α → ExceptT ε (Prog I) β} {J : List α → Except ε β → History I → Prop} {l : List α} {b : β}
    (hstop : ∀ done rest e h, J done (.error e) h → J (done ++ rest) (.error e) h)
    (hg : ∀ done a rest b h, l = done ++ a :: rest → J done (.ok b) h → Meets A C (g b a) h (J (done ++ [a])))
    (hinit : J [] (.ok b) h) : Meets A C (l.foldlM g b) h (J l) := by
  refine split_induct (P := fun done rest => ∀ b h, J done (.ok b) h →
    Meets A C (rest.foldlM g b) h (J l)) ?_ ?_ b h hinit
  · exact fun b h hJ => Meets.pure hJ
  · intro done a rest hl ih b h hJ
    rw [List.foldlM_cons]
    refine (hg done a rest b h hl hJ).bind (fun e h' hE => ?_) ih
    rw [hl, List.append_cons]
    exact hstop _ rest e h' hE

/-- The rule for a loop that stops at the first error: an assertion about the elements done and the elements
left. -/
theorem forM {g : α → ExceptT ε (Prog I) PUnit} {J : List α → List α → History I → Prop} {E : ε → History I → Prop}
    {l : List α} (hg : ∀ done a rest h, l = done ++ a :: rest → J done (a :: rest) h →
      Meets A C (g a) h (Ends (fun _ => J (done ++ [a]) rest) E))
    (hinit : J [] l h) : Meets A C (l.forM g) h (Ends (fun _ => J l []) E) := by
  refine split_induct (P := fun done rest => ∀ h, J done rest h →
    Meets A C (rest.forM g) h (Ends (fun _ => J l []) E)) ?_ ?_ h hinit
  · exact fun h hJ => Meets.pure hJ
  · intro done a rest hl ih h hJ
    exact (hg done a rest h hl hJ).bind (fun e h' hE => hE) fun _ => ih

/-- The rule for a loop that collects results: an assertion about the elements done and their results. -/
theorem mapM {l : List α} {J : List α → List β → History I → Prop} {E : ε → History I → Prop}
    (hf : ∀ done bs a h, J done bs h →
      Meets A C (f a) h (Ends (fun b => J (done ++ [a]) (bs ++ [b])) E))
    (hinit : J [] [] h) : Meets A C (l.mapM f) h (Ends (J l) E) := by
  refine split_induct (P := fun done rest => ∀ bs h, J done bs h →
    Meets A C (rest.mapM f) h (Ends (fun bs' => J l (bs ++ bs')) E)) ?_ ?_ [] h hinit
  · intro bs h hJ
    rw [List.mapM_nil]
    refine Meets.pure ?_
    simpa only [Ends, List.append_nil] using hJ
  · intro done a rest _ ih bs h hJ
    rw [List.mapM_cons]
    refine (hf done bs a h hJ).bind (fun e h' hE => hE) fun b h' hJ' => ?_
    refine (ih (bs ++ [b]) h' hJ').bind (fun e h' hE => hE) fun bs' h'' hJ'' => Meets.pure ?_
    simpa only [Ends, List.append_assoc, List.singleton_append] using hJ''

end Meets

end ProtoRegistry
