import Mathlib.InformationTheory.Coding.UniquelyDecodable

/-!
# Words that mark their own end

A scanner reads a word letter by letter and tells at which letter it ends, whatever comes after it. So a text of
such words is cut into words in one way only.
-/

namespace ProtoRegistry

open InformationTheory

/-- `step` is the state after a letter, or nothing if the letter is the last one of the word. -/
structure Scanner (α σ : Type _) where
  start : σ
  step : σ → α → Option σ

namespace Scanner

variable {α σ : Type _}

/-- From the state on, the scanner reads the word up to its last letter. -/
inductive Reads (S : Scanner α σ) : σ → List α → Prop where
  | last (hstep : S.step s a = none) : S.Reads s [a]
  | more (hstep : S.step s a = some s') (hu : S.Reads s' u) : S.Reads s (a :: u)

variable {S : Scanner α σ} {s : σ} {u v x y : List α}

theorem Reads.ne_nil (h : S.Reads s u) : u ≠ [] := by
  cases h <;> exact List.cons_ne_nil _ _

theorem Reads.append_inj (hu : S.Reads s u) (hv : S.Reads s v) (h : u ++ x = v ++ y) : u = v ∧ x = y := by
  induction hu generalizing v with
  | last hstep =>
    cases hv with
    | last _ => exact ⟨congrArg (fun a => [a]) (List.cons.inj h).1, (List.cons.inj h).2⟩
    | more hstep' _ =>
      cases (List.cons.inj h).1
      cases hstep.symm.trans hstep'
  | more hstep _ ih =>
    cases hv with
    | last hstep' =>
      cases (List.cons.inj h).1
      cases hstep.symm.trans hstep'
    | more hstep' hv =>
      obtain ⟨rfl, hrest⟩ := List.cons.inj h
      cases hstep.symm.trans hstep'
      obtain ⟨rfl, hxy⟩ := ih hv hrest
      exact ⟨rfl, hxy⟩

theorem uniquelyDecodable (S : Scanner α σ) : UniquelyDecodable {w | S.Reads S.start w} := by
  intro L
  induction L with
  | nil =>
    intro L' _ hL' h
    cases L' with
    | nil => rfl
    | cons v L' =>
      have hv := hL' v (List.mem_cons_self ..)
      exact (hv.ne_nil (List.append_eq_nil_iff.mp h.symm).1).elim
  | cons u L ih =>
    intro L' hL hL' h
    have hu := hL u (List.mem_cons_self ..)
    cases L' with
    | nil => exact (hu.ne_nil (List.append_eq_nil_iff.mp h).1).elim
    | cons v L' =>
      obtain ⟨rfl, hrest⟩ := hu.append_inj (hL' v (List.mem_cons_self ..)) h
      rw [ih L' (fun w hw => hL w (List.mem_cons_of_mem _ hw)) (fun w hw => hL' w (List.mem_cons_of_mem _ hw)) hrest]

end Scanner

end ProtoRegistry
