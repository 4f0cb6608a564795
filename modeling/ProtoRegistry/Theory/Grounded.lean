import Mathlib.Data.Set.Finite.Basic
import Mathlib.Logic.Relation
import Mathlib.Order.WellFounded
import Mathlib.Tactic.WLOG

/-!
# Grounded relations

A point is *grounded* in a relation `r` when every `r`-path that starts in it ends. For a finite
relation that is the absence of a reachable cycle, and for the links `x ↦ parent x` of a forest it
says that climbing from `x` reaches a root. The two rules the development uses are that removing
links keeps points grounded (`Grounded.mono`) and that adding the link `n → p` keeps every point
grounded when `n` is not reachable from `p` (`grounded_addLink`).
-/

namespace ProtoRegistry

open Relation

variable {α : Type} {r r' : α → α → Prop} {n p x y : α}

/-- Every path of `r` that starts in `x` ends. -/
def Grounded (r : α → α → Prop) (x : α) : Prop := Acc (flip r) x

theorem grounded_iff : Grounded r x ↔ ∀ y, r x y → Grounded r y :=
  ⟨fun h _ hy => h.inv hy, fun h => Acc.intro x h⟩

theorem Grounded.step (h : Grounded r x) (hr : r x y) : Grounded r y := h.inv hr

theorem Grounded.reach (h : Grounded r x) (hr : ReflTransGen r x y) : Grounded r y := by
  induction hr with
  | refl => exact h
  | tail _ hr ih => exact ih.step hr

theorem Grounded.mono (hsub : ∀ x y, r' x y → r x y) (h : Grounded r x) : Grounded r' x :=
  Subrelation.accessible (fun {a b} => hsub b a) h

theorem Grounded.not_cycle (h : Grounded r x) : ¬ TransGen r x x := by
  induction h with
  | intro x _ ih =>
    intro hc
    obtain ⟨y, hxy, hyx⟩ := TransGen.head'_iff.mp hc
    exact ih y hxy (.tail' hyx hxy)

theorem grounded_of_acyclic {l : List α} (hclosed : ∀ x ∈ l, ∀ y, r x y → y ∈ l) (hacyclic : ∀ x, ¬ TransGen r x x)
    (hx : x ∈ l) : Grounded r x := by
  have hfinite : Finite { x // x ∈ l } := (List.finite_toSet l).to_subtype
  have htrans : IsTrans { x // x ∈ l } fun a b => TransGen r b.1 a.1 := ⟨fun _ _ _ hab hbc => hbc.trans hab⟩
  have hirrefl : Std.Irrefl fun a b : { x // x ∈ l } => TransGen r b.1 a.1 := ⟨fun a => hacyclic a.1⟩
  have hwf := Finite.wellFounded_of_trans_of_irrefl fun a b : { x // x ∈ l } => TransGen r b.1 a.1
  suffices H : ∀ a : { x // x ∈ l }, Grounded r a.1 from H ⟨x, hx⟩
  intro a
  induction a using hwf.induction with
  | _ a ih => exact grounded_iff.mpr fun y hy => ih ⟨y, hclosed a.1 a.2 y hy⟩ (.single hy)

/-- The relation `r` with one more link `n → p`. -/
def addLink (r : α → α → Prop) (n p : α) : α → α → Prop := fun x y => r x y ∨ (x = n ∧ y = p)

/-- From a point that does not reach `n` the new link is never taken. -/
theorem Grounded.addLink_of_not_reach (h : Grounded r x) (hx : ¬ ReflTransGen r x n) :
    Grounded (addLink r n p) x := by
  induction h with
  | intro x _ ih =>
    refine grounded_iff.mpr fun y hy => ?_
    rcases hy with hy | ⟨rfl, -⟩
    · exact ih y hy fun hyn => hx (hyn.head hy)
    · exact absurd .refl hx

theorem grounded_addLink (h : ∀ x, Grounded r x) (hnp : ¬ ReflTransGen r p n) (x : α) :
    Grounded (addLink r n p) x := by
  have hp : Grounded (addLink r n p) p := (h p).addLink_of_not_reach hnp
  induction h x with
  | intro x _ ih =>
    refine grounded_iff.mpr fun y hy => ?_
    rcases hy with hy | ⟨-, rfl⟩
    · exact ih y hy
    · exact hp

/-! ## Forests given by a parent function -/

section
variable (parent : α → Option α)

def ParentLink (x y : α) : Prop := parent x = some y

def climb : Nat → α → Option α
  | 0, x => some x
  | k + 1, x => (parent x).bind (climb k)

/-- The points met while climbing from `x`, at most `k` of them. -/
def walk : Nat → α → List α
  | 0, _ => []
  | k + 1, x => x :: match parent x with
    | none => []
    | some y => walk k y

end

variable {parent : α → Option α}

theorem climb_add (i j : Nat) (x : α) :
    climb parent (i + j) x = (climb parent i x).bind (climb parent j) := by
  induction i generalizing x with
  | zero => simp [climb]
  | succ i ih =>
    rw [Nat.succ_add]
    cases h : parent x <;> simp [climb, h, ih]

theorem climb_succ (k : Nat) (x : α) : climb parent (k + 1) x = (climb parent k x).bind parent := by
  rw [climb_add]
  congr 1
  funext y
  cases h : parent y <;> simp [climb, h]

theorem climb_mem {l : List α} (hclosed : ∀ x ∈ l, ∀ y, parent x = some y → y ∈ l) {k : Nat}
    (hx : x ∈ l) (h : climb parent k x = some y) : y ∈ l := by
  induction k generalizing y with
  | zero =>
    cases h
    exact hx
  | succ k ih =>
    rw [climb_succ] at h
    obtain ⟨z, hz, hzy⟩ := Option.bind_eq_some_iff.mp h
    exact hclosed z (ih hz) y hzy

theorem reach_iff_climb : ReflTransGen (ParentLink parent) x y ↔ ∃ k, climb parent k x = some y := by
  constructor
  · intro h
    induction h with
    | refl => exact ⟨0, rfl⟩
    | tail _ hr ih =>
      obtain ⟨k, hk⟩ := ih
      exact ⟨k + 1, by rw [climb_succ, hk]; exact hr⟩
  · rintro ⟨k, hk⟩
    induction k generalizing x with
    | zero => cases hk; exact .refl
    | succ k ih =>
      obtain ⟨z, hz, hk⟩ := Option.bind_eq_some_iff.mp hk
      exact (ih hk).head hz

theorem mem_walk {k : Nat} : y ∈ walk parent k x ↔ ∃ i < k, climb parent i x = some y := by
  induction k generalizing x with
  | zero => simp [walk]
  | succ k ih =>
    have htail : y ∈ (match parent x with
        | none => []
        | some z => walk parent k z) ↔ ∃ i < k, climb parent (i + 1) x = some y := by
      cases h : parent x with
      | none => simp [climb, h]
      | some z => simp [climb, h, ih]
    rw [walk, List.mem_cons, htail]
    constructor
    · rintro (rfl | ⟨i, hi, h⟩)
      · exact ⟨0, by omega, rfl⟩
      · exact ⟨i + 1, by omega, h⟩
    · rintro ⟨i, hi, h⟩
      cases i with
      | zero => exact .inl (Option.some.inj h).symm
      | succ i => exact .inr ⟨i, by omega, h⟩

theorem Grounded.exists_root (h : Grounded (ParentLink parent) x) :
    ∃ y, ReflTransGen (ParentLink parent) x y ∧ parent y = none := by
  induction h with
  | intro x _ ih =>
    cases hp : parent x with
    | none => exact ⟨x, .refl, hp⟩
    | some y =>
      obtain ⟨z, hz, hroot⟩ := ih y hp
      exact ⟨z, hz.head hp, hroot⟩

theorem grounded_of_root (h : ReflTransGen (ParentLink parent) x y) (hy : parent y = none) :
    Grounded (ParentLink parent) x := by
  induction h using ReflTransGen.head_induction_on with
  | refl => exact grounded_iff.mpr fun z hz => by simp [ParentLink, hy] at hz
  | head hr _ ih =>
    refine grounded_iff.mpr fun z hz => ?_
    rw [ParentLink, hr] at hz
    cases hz
    exact ih

/-- Giving `n` the parent `q` keeps every point grounded when `q` does not reach `n`. -/
theorem grounded_setParent [DecidableEq α] {q : Option α}
    (h : ∀ x, Grounded (ParentLink parent) x)
    (hq : ∀ p, q = some p → ¬ ReflTransGen (ParentLink parent) p n) (x : α) :
    Grounded (ParentLink (Function.update parent n q)) x := by
  have hsub : ∀ x y, ParentLink (Function.update parent n q) x y →
      ParentLink parent x y ∨ (x = n ∧ q = some y) := by
    intro x y hxy
    rw [ParentLink, Function.update_apply] at hxy
    split at hxy
    · next hx => exact .inr ⟨hx, hxy⟩
    · exact .inl hxy
  cases q with
  | none => exact (h x).mono fun x y hxy => (hsub x y hxy).resolve_right (by simp)
  | some p =>
    refine (grounded_addLink h (hq p rfl) x).mono fun x y hxy => ?_
    rcases hsub x y hxy with hxy | ⟨rfl, hp⟩
    · exact .inl hxy
    · exact .inr ⟨rfl, (Option.some.inj hp).symm⟩

/-- A climb to `n` does not use the link of `n`. -/
theorem reach_setParent [DecidableEq α] {q : Option α}
    (h : ReflTransGen (ParentLink parent) x n) :
    ReflTransGen (ParentLink (Function.update parent n q)) x n := by
  induction h using ReflTransGen.head_induction_on with
  | refl => exact .refl
  | @head x y hxy _ ih =>
    rcases eq_or_ne x n with rfl | hne
    · exact .refl
    · exact ih.head (by rwa [ParentLink, Function.update_of_ne hne])

/-- Giving `n` a parent that reaches `n` closes a cycle. -/
theorem not_grounded_setParent [DecidableEq α] (h : ReflTransGen (ParentLink parent) p n) :
    ¬ Grounded (ParentLink (Function.update parent n (some p))) n := by
  intro hg
  have hnp : ParentLink (Function.update parent n (some p)) n p := by simp [ParentLink]
  exact hg.not_cycle (.head' hnp (reach_setParent h))

theorem Grounded.climb_inj (h : Grounded (ParentLink parent) x) (hi : climb parent i x = some y)
    (hj : climb parent j x = some y) : i = j := by
  wlog hle : i ≤ j generalizing i j
  · exact (this hj hi (by omega)).symm
  obtain ⟨k, rfl⟩ := Nat.exists_eq_add_of_le hle
  cases k with
  | zero => rfl
  | succ k =>
    have hy : climb parent (k + 1) y = some y := by
      rw [climb_add, hi] at hj
      exact hj
    refine absurd ?_ (h.reach (reach_iff_climb.mpr ⟨i, hi⟩)).not_cycle
    obtain ⟨z, hz, hzy⟩ := Option.bind_eq_some_iff.mp hy
    exact .head' hz (reach_iff_climb.mpr ⟨k, hzy⟩)

theorem Grounded.nodup_walk (h : Grounded (ParentLink parent) x) (k : Nat) : (walk parent k x).Nodup := by
  induction k generalizing x with
  | zero => exact List.nodup_nil
  | succ k ih =>
    unfold walk
    cases hx : parent x with
    | none => simp
    | some y =>
      refine List.nodup_cons.mpr ⟨fun hmem => ?_, ih (h.step hx)⟩
      obtain ⟨i, -, hi⟩ := mem_walk.mp hmem
      have hback : climb parent (i + 1) x = some x := by rw [climb, hx]; exact hi
      exact absurd (h.climb_inj hback (rfl : climb parent 0 x = some x)) (Nat.succ_ne_zero i)

theorem grounded_iff_root : Grounded (ParentLink parent) x ↔
    ∃ y, ReflTransGen (ParentLink parent) x y ∧ parent y = none :=
  ⟨Grounded.exists_root, fun ⟨_, h, hy⟩ => grounded_of_root h hy⟩

end ProtoRegistry
