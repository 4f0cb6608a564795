import Mathlib.Data.List.Basic

/-!
# Programs over atomic operations

A `Prog I α` is a program that performs operations of an interface `I` and continues with what they
return. The same program has two meanings: `Prog.exec` runs it alone on a state, and `Pool.Step`
interleaves the operations of any number of programs on a shared state. A pool keeps the trace of
the operations performed so far, the latest first, so that conditions on a schedule can be stated.

Which operations a program may perform is its *footprint*. What it reads may decide what it does next, so a
footprint that follows pointers is stated as far as the results are what an assumption allows (`Prog.Relies`).
What it can do and when is said by a *contract*. It has a guarantee and an assumption, and both may
depend on what the program itself has performed and been told before: the guarantee says which
operations it performs, and the assumption what they return. `Prog.Guarded` is the case without an
assumption. The rules of `Prog.Contract` follow the structure of a program. `Guarded.exec` and
`Pool.Reach.contracts` then reduce an invariant, of a program that runs alone or of every
interleaving, to one obligation for each operation.
-/

namespace ProtoRegistry

/-- Atomic operations, with the type of what each of them returns. -/
structure Interface where
  Op : Type
  Res : Op → Type

/-- A program that performs operations of `I` one after another. -/
inductive Prog (I : Interface) (α : Type) where
  | ret (a : α)
  | call (op : I.Op) (k : I.Res op → Prog I α)

namespace Prog

variable {I : Interface} {α β S : Type}

protected def bind : Prog I α → (α → Prog I β) → Prog I β
  | ret a, f => f a
  | call op k, f => call op fun r => (k r).bind f

instance : Monad (Prog I) where
  pure := ret
  bind := Prog.bind

theorem bind_ret (p : Prog I α) : p.bind ret = p := by
  induction p with
  | ret a => rfl
  | call op k ih => exact congrArg (call op) (funext ih)

theorem bind_assoc {γ : Type} (p : Prog I α) (f : α → Prog I β) (g : β → Prog I γ) :
    (p.bind f).bind g = p.bind fun a => (f a).bind g := by
  induction p with
  | ret a => rfl
  | call op k ih => exact congrArg (call op) (funext ih)

instance : LawfulMonad (Prog I) :=
  LawfulMonad.mk' _ (fun p => bind_ret p) (fun _ _ => rfl) (fun p f g => bind_assoc p f g)

def isRet : Prog I α → Bool
  | ret _ => true
  | call _ _ => false

theorem isRet_iff {p : Prog I α} : p.isRet = true ↔ ∃ a, p = ret a := by
  cases p <;> simp [isRet]

def perform (op : I.Op) : Prog I (I.Res op) := call op ret

@[simp] theorem ret_bind (a : α) (f : α → Prog I β) : (ret a >>= f) = f a := rfl

/-! ## Running a program alone -/

/-- The result and the final state of a program that runs without interference. -/
def exec (step : (op : I.Op) → S → I.Res op × S) : Prog I α → S → α × S
  | ret a, s => (a, s)
  | call op k, s => (k (step op s).1).exec step (step op s).2

section
variable (step : (op : I.Op) → S → I.Res op × S)

@[simp] theorem exec_ret (a : α) (s : S) : (ret a).exec step s = (a, s) := rfl

@[simp] theorem exec_bind (p : Prog I α) (f : α → Prog I β) (s : S) :
    (p >>= f).exec step s = (f (p.exec step s).1).exec step (p.exec step s).2 := by
  induction p generalizing s with
  | ret a => rfl
  | call op k ih => exact ih _ _

/-- What every operation keeps, every program keeps. -/
theorem exec_inv {J : S → Prop} (hstep : ∀ op s, J s → J (step op s).2) (p : Prog I α) (hs : J s) :
    J (p.exec step s).2 := by
  induction p generalizing s with
  | ret a => exact hs
  | call op k ih => exact ih _ (hstep op s hs)

end

/-! ## Footprints -/

/-- As long as its operations return what `C` allows, `p` performs operations of `A`, and ends in a result
with `Q`. -/
def Relies (A : I.Op → Prop) (C : (op : I.Op) → I.Res op → Prop) : Prog I α → (α → Prop) → Prop
  | ret a, Q => Q a
  | call op k, Q => A op ∧ ∀ r, C op r → (k r).Relies A C Q

section
variable {A : I.Op → Prop} {C : (op : I.Op) → I.Res op → Prop} {Q : α → Prop}

theorem Relies.bind {Q : β → Prop} {p : Prog I α} {f : α → Prog I β}
    (hp : p.Relies A C fun a => (f a).Relies A C Q) : (p >>= f).Relies A C Q := by
  induction p with
  | ret a => exact hp
  | call op k ih => exact ⟨hp.1, fun r hr => ih r (hp.2 r hr)⟩

theorem Relies.mono {Q' : α → Prop} {p : Prog I α} (hp : p.Relies A C Q) (hQ : ∀ a, Q a → Q' a) :
    p.Relies A C Q' := by
  induction p with
  | ret a => exact hQ a hp
  | call op k ih => exact ⟨hp.1, fun r hr => ih r (hp.2 r hr)⟩

theorem Relies.weaken {A' : I.Op → Prop} {p : Prog I α} (hA : ∀ op, A op → A' op) (hp : p.Relies A C Q) :
    p.Relies A' C Q := by
  induction p with
  | ret a => exact hp
  | call op k ih => exact ⟨hA op hp.1, fun r hr => ih r (hp.2 r hr)⟩

theorem Relies.exec {step : (op : I.Op) → S → I.Res op × S} {J : S → Prop} {p : Prog I α}
    (hstep : ∀ op s, A op → J s → C op (step op s).1 ∧ J (step op s).2) (hp : p.Relies A C Q) (hs : J s) :
    Q (p.exec step s).1 ∧ J (p.exec step s).2 := by
  induction p generalizing s with
  | ret a => exact ⟨hp, hs⟩
  | call op k ih =>
    obtain ⟨hC, hJ⟩ := hstep op s hp.1 hs
    exact ih _ (hp.2 _ hC) hJ

/-- What the operations of a program keep, the program keeps. -/
theorem Relies.exec_inv {step : (op : I.Op) → S → I.Res op × S} {J : S → Prop}
    (hA : ∀ op s, A op → J s → J (step op s).2) {p : Prog I α} (hp : p.Relies A (fun _ _ => True) Q) (hs : J s) :
    J (p.exec step s).2 :=
  (Relies.exec (fun op s hop hs => ⟨trivial, hA op s hop hs⟩) hp hs).2

theorem Relies.exec_congr {step : (op : I.Op) → S → I.Res op × S} {s s' : S}
    (hA : ∀ op, A op → (step op s).2 = s ∧ step op s' = ((step op s).1, s')) {p : Prog I α}
    (hp : p.Relies A (fun _ _ => True) Q) :
    (p.exec step s).2 = s ∧ p.exec step s' = ((p.exec step s).1, s') := by
  induction p with
  | ret a => exact ⟨rfl, rfl⟩
  | call op k ih =>
    obtain ⟨hs, hs'⟩ := hA op hp.1
    have hrest := ih (step op s).1 (hp.2 _ trivial)
    rw [Prog.exec, Prog.exec, hs', hs]
    exact hrest

/-- Operations that never change what `g` reads leave it as it was. -/
theorem Relies.exec_eq {step : (op : I.Op) → S → I.Res op × S} {g : S → β}
    (hA : ∀ op s, A op → g (step op s).2 = g s) {p : Prog I α} (hp : p.Relies A (fun _ _ => True) Q) (s : S) :
    g (p.exec step s).2 = g s :=
  Relies.exec_inv (J := fun s' => g s' = g s) (fun op s' hop hs' => (hA op s' hop).trans hs') hp rfl

end

/-! ## Contracts -/

/-- The operations a program has performed and what they returned, the latest first. -/
abbrev History (I : Interface) := List ((op : I.Op) × I.Res op)

/-- From the history `h`, and as long as its operations return what `C` allows, `p` performs operations of `A`
and ends in a result and a history that satisfy `Q`. -/
def Contract (A : History I → I.Op → Prop) (C : History I → (op : I.Op) → I.Res op → Prop) :
    Prog I α → History I → (α → History I → Prop) → Prop
  | ret a, h, Q => Q a h
  | call op k, h, Q => A h op ∧ ∀ r, C h op r → (k r).Contract A C (⟨op, r⟩ :: h) Q

/-- Whatever its operations return, `p` performs each of them under the guard `G`. -/
abbrev Guarded (G : History I → I.Op → Prop) (p : Prog I α) (h : History I) (Q : α → History I → Prop) : Prop :=
  p.Contract G (fun _ _ _ => True) h Q

variable {A G : History I → I.Op → Prop} {C : History I → (op : I.Op) → I.Res op → Prop} {h : History I}

theorem Contract.mono {p : Prog I α} {Q Q' : α → History I → Prop} (hp : p.Contract A C h Q)
    (hQ : ∀ a h', Q a h' → Q' a h') : p.Contract A C h Q' := by
  induction p generalizing h with
  | ret a => exact hQ a h hp
  | call op k ih => exact ⟨hp.1, fun r hr => ih r (hp.2 r hr)⟩

theorem Contract.weaken {A' : History I → I.Op → Prop} {p : Prog I α} {Q : α → History I → Prop}
    (hA : ∀ h op, A h op → A' h op) (hp : p.Contract A C h Q) : p.Contract A' C h Q := by
  induction p generalizing h with
  | ret a => exact hp
  | call op k ih => exact ⟨hA h op hp.1, fun r hr => ih r (hp.2 r hr)⟩

theorem Contract.bind {p : Prog I α} {f : α → Prog I β} {Q : β → History I → Prop}
    (hp : p.Contract A C h fun a h' => (f a).Contract A C h' Q) : (p >>= f).Contract A C h Q := by
  induction p generalizing h with
  | ret a => exact hp
  | call op k ih => exact ⟨hp.1, fun r hr => ih r (hp.2 r hr)⟩

/-- A program of operations that are allowed in the histories `K`, and do not leave them, only extends
the history. -/
theorem Relies.guarded {A : I.Op → Prop} {K : History I → Prop} {p : Prog I α} (hp : p.Relies A (fun _ _ => True) Q)
    (hA : ∀ h op, K h → A op → G h op) (hK : ∀ h op r, K h → A op → K (⟨op, r⟩ :: h)) (hh : K h) :
    p.Guarded G h fun _ h' => h <:+ h' ∧ K h' := by
  induction p generalizing h with
  | ret a => exact ⟨List.suffix_refl h, hh⟩
  | call op k ih =>
    refine ⟨hA h op hh hp.1, fun r _ => (ih r (hp.2 r trivial) (hK h op r hh hp.1)).mono fun a h' hh' => ?_⟩
    exact ⟨(List.suffix_cons _ _).trans hh'.1, hh'.2⟩

/-- **The rule for a program that runs alone**: an assertion about the state and the history that
every guarded operation keeps holds at the end. -/
theorem Guarded.exec (step : (op : I.Op) → S → I.Res op × S) {J : S → History I → Prop}
    (hstep : ∀ s h op, J s h → G h op → J (step op s).2 (⟨op, (step op s).1⟩ :: h))
    {p : Prog I α} {Q : α → History I → Prop} (hp : p.Guarded G h Q) {s : S} (hJ : J s h) :
    ∃ h', Q (p.exec step s).1 h' ∧ J (p.exec step s).2 h' := by
  induction p generalizing h s with
  | ret a => exact ⟨h, hp, hJ⟩
  | call op k ih => exact ih _ (hp.2 _ trivial) (hstep s h op hJ hp.1)

end Prog

/-! ## Interleaving -/

/-- An operation that thread `tid` performed, with what it returned. -/
structure Event (I : Interface) where
  tid : Nat
  op : I.Op
  res : I.Res op

/-- The part of a trace that thread `i` performed. -/
def ownHistory {I : Interface} (tr : List (Event I)) (i : Nat) : Prog.History I :=
  tr.filterMap fun e => if e.tid = i then some ⟨e.op, e.res⟩ else none

section
variable {I : Interface} {tr : List (Event I)} {i : Nat}

@[simp] theorem ownHistory_cons_self (op : I.Op) (r : I.Res op) :
    ownHistory (⟨i, op, r⟩ :: tr) i = ⟨op, r⟩ :: ownHistory tr i := by
  simp [ownHistory]

theorem ownHistory_cons_of_ne (op : I.Op) (r : I.Res op) (h : j ≠ i) :
    ownHistory (⟨j, op, r⟩ :: tr) i = ownHistory tr i := by
  simp [ownHistory, h]

theorem ownHistory_eq_nil (h : ∀ e ∈ tr, e.tid ≠ i) : ownHistory tr i = [] := by
  simpa [ownHistory] using h

theorem mem_ownHistory {op : I.Op} {r : I.Res op} :
    ⟨op, r⟩ ∈ ownHistory tr i ↔ ⟨i, op, r⟩ ∈ tr := by
  simp only [ownHistory, List.mem_filterMap, Option.ite_none_right_eq_some, Option.some.injEq]
  constructor
  · rintro ⟨⟨j, op', r'⟩, he, rfl, heq⟩
    cases heq
    exact he
  · intro he
    exact ⟨_, he, rfl, rfl⟩

end

/-- Programs running on a shared state, with the trace of their operations, the latest first. -/
structure Pool (I : Interface) (α S : Type) where
  state : S
  threads : List (Prog I α)
  trace : List (Event I)

namespace Pool

variable {I : Interface} {α S : Type} {R : (op : I.Op) → S → I.Res op → S → Prop}

/-- Thread `i` performs its next operation `op`. -/
inductive Step (R : (op : I.Op) → S → I.Res op → S → Prop) :
    Pool I α S → Nat → I.Op → Pool I α S → Prop
  | intro {p : Pool I α S} {k : I.Res op → Prog I α} {r : I.Res op} {s' : S}
      (hthread : p.threads[i]? = some (.call op k)) (hop : R op p.state r s') :
      Step R p i op ⟨s', p.threads.set i (k r), ⟨i, op, r⟩ :: p.trace⟩

/-- The pools reached from `p₀` by steps that all meet the condition `ok` when they are taken. -/
inductive Reach (R : (op : I.Op) → S → I.Res op → S → Prop)
    (ok : S → List (Event I) → Nat → I.Op → Prop) (p₀ : Pool I α S) : Pool I α S → Prop
  | refl : Reach R ok p₀ p₀
  | step : Reach R ok p₀ p → Step R p i op p' → ok p.state p.trace i op → Reach R ok p₀ p'

variable {ok : S → List (Event I) → Nat → I.Op → Prop} {p p₀ : Pool I α S}
  {G : Nat → Prog.History I → I.Op → Prop} {Q : Nat → α → Prog.History I → Prop}

def Finished (p : Pool I α S) : Prop := ∀ t ∈ p.threads, ∃ a, t = .ret a

theorem finished_iff : p.Finished ↔ p.threads.all (·.isRet) = true := by
  simp [Finished, Prog.isRet_iff]

/-- Every thread continues under its contract from what it has performed. -/
def UnderContract (A : Nat → Prog.History I → I.Op → Prop) (C : Prog.History I → (op : I.Op) → I.Res op → Prop)
    (Q : Nat → α → Prog.History I → Prop) (p : Pool I α S) : Prop :=
  ∀ i (t : Prog I α), p.threads[i]? = some t → t.Contract (A i) C (ownHistory p.trace i) (Q i)

abbrev Guarded (G : Nat → Prog.History I → I.Op → Prop) (Q : Nat → α → Prog.History I → Prop)
    (p : Pool I α S) : Prop :=
  p.UnderContract G (fun _ _ _ => True) Q

theorem Reach.trans {p' : Pool I α S} (h : Reach R ok p₀ p) (h' : Reach R ok p p') : Reach R ok p₀ p' := by
  induction h' with
  | refl => exact h
  | step _ hs hok ih => exact ih.step hs hok

theorem Reach.mono {R' : (op : I.Op) → S → I.Res op → S → Prop} (hR : ∀ {op s r s'}, R op s r s' → R' op s r s')
    (h : Reach R ok p₀ p) : Reach R' ok p₀ p := by
  induction h with
  | refl => exact .refl
  | step _ hs hok ih =>
    obtain @⟨op, i, _, k, r, s', hthread, hop⟩ := hs
    exact ih.step (.intro hthread (hR hop)) hok

theorem Reach.induct {J : S → List (Event I) → Prop} (hinit : J p₀.state p₀.trace)
    (hstep : ∀ {s tr i op r s'}, J s tr → R op s r s' → ok s tr i op → J s' (⟨i, op, r⟩ :: tr))
    (h : Reach R ok p₀ p) : J p.state p.trace := by
  induction h with
  | refl => exact hinit
  | step _ hs hok ih =>
    obtain @⟨op, i, _, k, r, s', hthread, hop⟩ := hs
    exact hstep ih hop hok

/-- **The rule for interleavings**: when every thread goes on under its contract, an assertion about the
state and the trace that gives each thread what it assumes, and that the operations they guarantee keep,
holds of every reachable pool. -/
theorem Reach.contracts {C : Prog.History I → (op : I.Op) → I.Res op → Prop} {J : S → List (Event I) → Prop}
    (hp : p₀.UnderContract G C Q) (hinit : J p₀.state p₀.trace)
    (hstep : ∀ {s tr i op r s'}, J s tr → G i (ownHistory tr i) op → R op s r s' → ok s tr i op →
      C (ownHistory tr i) op r ∧ J s' (⟨i, op, r⟩ :: tr))
    (h : Reach R ok p₀ p) : p.UnderContract G C Q ∧ J p.state p.trace := by
  induction h with
  | refl => exact ⟨hp, hinit⟩
  | @step p i op p' _ hs hok ih =>
    obtain ⟨hcontract, hJ⟩ := ih
    obtain @⟨op, i, _, k, r, s', hthread, hop⟩ := hs
    obtain ⟨hC, hJ'⟩ := hstep hJ (hcontract i _ hthread).1 hop hok
    refine ⟨fun j t hj => ?_, hJ'⟩
    rw [List.getElem?_set] at hj
    split at hj
    · next hij =>
      subst hij
      split at hj
      · cases hj
        rw [ownHistory_cons_self]
        exact (hcontract i _ hthread).2 r hC
      · cases hj
    · next hij =>
      rw [ownHistory_cons_of_ne _ _ hij]
      exact hcontract j t hj

theorem Reach.invariant {J : S → List (Event I) → Prop} (hp : p₀.Guarded G Q)
    (hinit : J p₀.state p₀.trace)
    (hstep : ∀ {s tr i op r s'}, J s tr → G i (ownHistory tr i) op → R op s r s' → ok s tr i op →
      J s' (⟨i, op, r⟩ :: tr))
    (h : Reach R ok p₀ p) : p.Guarded G Q ∧ J p.state p.trace :=
  h.contracts hp hinit fun hJ hG hR hok => ⟨trivial, hstep hJ hG hR hok⟩

/-- Every operation of a trace was performed under the guard of its thread. -/
def TraceGuarded (G : Nat → Prog.History I → I.Op → Prop) (tr : List (Event I)) : Prop :=
  ∀ {tr₁ i op r tr₂}, tr = tr₁ ++ ⟨i, op, r⟩ :: tr₂ → G i (ownHistory tr₂ i) op

theorem TraceGuarded.nil : TraceGuarded G ([] : List (Event I)) := by
  intro tr₁ i op r tr₂ heq
  simp at heq

theorem TraceGuarded.cons {tr : List (Event I)} (h : TraceGuarded G tr)
    (hG : G i (ownHistory tr i) op) (r : I.Res op) : TraceGuarded G (⟨i, op, r⟩ :: tr) := by
  intro tr₁ j op' r' tr₂ heq
  cases tr₁ with
  | nil =>
    cases heq
    exact hG
  | cons e tr₁ =>
    cases heq
    exact h rfl

theorem Reach.ownHistory_eq_nil (h₀ : p₀.trace = []) (h : Reach R ok p₀ p)
    (hj : p.threads[j]? = none) : ownHistory p.trace j = [] := by
  induction h with
  | refl =>
    rw [h₀]
    rfl
  | step _ hs _ ih =>
    obtain @⟨op, i, _, k, r, s', hthread, hop⟩ := hs
    rw [List.getElem?_set] at hj
    split at hj
    · next hij =>
      subst hij
      split at hj
      · cases hj
      · next hlen =>
        rw [List.getElem?_eq_none (Nat.le_of_not_lt hlen)] at hthread
        cases hthread
    · next hij =>
      rw [ownHistory_cons_of_ne _ _ hij]
      exact ih hj

/-! ### Executing a schedule -/

/-- The steps of operations that may have to wait and whose effect is a function. -/
def Executes (enabled : (op : I.Op) → S → Bool) (perform : (op : I.Op) → S → I.Res op × S) :
    (op : I.Op) → S → I.Res op → S → Prop :=
  fun op s r s' => enabled op s = true ∧ perform op s = (r, s')

section
variable (enabled : (op : I.Op) → S → Bool) (perform : (op : I.Op) → S → I.Res op × S)

/-- Let the threads of a list take their steps, in its order. -/
def runSchedule : List Nat → Pool I α S → Option (Pool I α S)
  | [], p => some p
  | i :: is, p =>
    match p.threads[i]? with
    | some (.call op k) =>
      if enabled op p.state then
        runSchedule is ⟨(perform op p.state).2, p.threads.set i (k (perform op p.state).1),
          ⟨i, op, (perform op p.state).1⟩ :: p.trace⟩
      else none
    | _ => none

/-- The condition `ok` holds at every step of a schedule. -/
def Along (ok : S → List (Event I) → Nat → I.Op → Prop) : List Nat → Pool I α S → Prop
  | [], _ => True
  | i :: is, p =>
    match p.threads[i]? with
    | some (.call op k) =>
      ok p.state p.trace i op ∧
        Along ok is ⟨(perform op p.state).2, p.threads.set i (k (perform op p.state).1),
          ⟨i, op, (perform op p.state).1⟩ :: p.trace⟩
    | _ => True

instance decidableAlong {ok : S → List (Event I) → Nat → I.Op → Prop} [∀ s tr i op, Decidable (ok s tr i op)] :
    (is : List Nat) → (p : Pool I α S) → Decidable (Along perform ok is p)
  | [], _ => isTrue trivial
  | i :: is, p =>
    match h : p.threads[i]? with
    | some (.call op k) =>
      let p' : Pool I α S := ⟨(perform op p.state).2, p.threads.set i (k (perform op p.state).1),
        ⟨i, op, (perform op p.state).1⟩ :: p.trace⟩
      @decidable_of_iff _ (ok p.state p.trace i op ∧ Along perform ok is p') (by simp only [Along, h, p'])
        (@instDecidableAnd _ _ _ (decidableAlong is p'))
    | some (.ret a) => isTrue (by simp [Along, h])
    | none => isTrue (by simp [Along, h])

variable {perform} in
theorem Along.mono {ok ok' : S → List (Event I) → Nat → I.Op → Prop} (hok : ∀ {s tr i op}, ok s tr i op → ok' s tr i op)
    {is : List Nat} {p : Pool I α S} (h : Along perform ok is p) : Along perform ok' is p := by
  induction is generalizing p with
  | nil => trivial
  | cons i is ih =>
    unfold Along at h ⊢
    split
    · next hthread =>
      simp only [hthread] at h
      exact ⟨hok h.1, ih h.2⟩
    · trivial

theorem along_true (is : List Nat) (p : Pool I α S) : Along perform (fun _ _ _ _ => True) is p := by
  induction is generalizing p with
  | nil => trivial
  | cons i is ih =>
    unfold Along
    split
    · exact ⟨trivial, ih _⟩
    · trivial

theorem reach_runSchedule {is : List Nat} (h : Reach (Executes enabled perform) ok p₀ p)
    (hok : Along perform ok is p) (hrun : runSchedule enabled perform is p = some p') :
    Reach (Executes enabled perform) ok p₀ p' := by
  induction is generalizing p with
  | nil =>
    cases hrun
    exact h
  | cons i is ih =>
    unfold runSchedule at hrun
    unfold Along at hok
    split at hrun
    · next op k hthread =>
      simp only [hthread] at hok
      split at hrun
      · next hen => exact ih (h.step (.intro hthread ⟨hen, rfl⟩) hok.1) hok.2 hrun
      · cases hrun
    · cases hrun

variable {enabled perform}

theorem exists_reach {P : Pool I α S → Prop} (is : List Nat) (hok : Along perform ok is p)
    (h : ∃ p', runSchedule enabled perform is p = some p' ∧ P p') :
    ∃ p', Reach (Executes enabled perform) ok p p' ∧ P p' := by
  obtain ⟨p', hrun, hp'⟩ := h
  exact ⟨p', reach_runSchedule _ _ .refl hok hrun, hp'⟩

/-- A thread that can always perform its operations as if it were alone can run the first part of its
program alone. -/
theorem Reach.run (hR : ∀ op s, R op s (perform op s).1 (perform op s).2) {t : Prog I β} {f : β → Prog I α}
    (h : Reach R (fun _ _ _ _ => True) p₀ p) (hi : p.threads[i]? = some (t >>= f)) :
    ∃ tr, Reach R (fun _ _ _ _ => True) p₀
      ⟨(t.exec perform p.state).2, p.threads.set i (f (t.exec perform p.state).1), tr⟩ := by
  induction t generalizing p with
  | ret a =>
    have hset : p.threads.set i (f a) = p.threads := by
      obtain ⟨hlt, hget⟩ := List.getElem?_eq_some_iff.mp hi
      rw [Prog.ret_bind] at hget
      rw [← hget, List.set_getElem_self]
    exact ⟨p.trace, by rwa [Prog.exec_ret, hset]⟩
  | call op k ih =>
    have hstep := h.step (.intro hi (hR op p.state)) trivial
    have hlt := (List.getElem?_eq_some_iff.mp hi).1
    obtain ⟨tr, hrest⟩ := ih (perform op p.state).1 hstep (List.getElem?_set_self hlt)
    refine ⟨tr, ?_⟩
    rwa [List.set_set] at hrest

end

end Pool

end ProtoRegistry
