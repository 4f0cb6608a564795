import Mathlib.Data.List.Basic

/-!
# Loops with a callback

A loop calls a function on the elements of a list for as long as the function returns true. The function
keeps a state of its own. A loop over keyed entries passes over the keys that it has seen, so that the first
entry of a key hides the others.
-/

namespace ProtoRegistry

variable {α β σ K : Type}

/-! ## Stopping at the first refusal -/

/-- Call `f` on the elements while it returns true. The result says whether it did to the end. -/
def rangeWhile (f : α → σ → Bool × σ) : List α → σ → Bool × σ
  | [], s => (true, s)
  | a :: l, s =>
    match f a s with
    | (true, s') => rangeWhile f l s'
    | (false, s') => (false, s')

section
variable {f : α → σ → Bool × σ}

theorem rangeWhile_cons_true (h : f a s = (true, s')) : rangeWhile f (a :: l) s = rangeWhile f l s' := by
  rw [rangeWhile, h]

theorem rangeWhile_cons_false (h : f a s = (false, s')) : rangeWhile f (a :: l) s = (false, s') := by
  rw [rangeWhile, h]

theorem rangeWhile_singleton (a : α) (s : σ) : rangeWhile f [a] s = f a s := by
  cases ha : f a s with
  | mk cont s' =>
    cases cont with
    | true => exact rangeWhile_cons_true ha
    | false => exact rangeWhile_cons_false ha

theorem rangeWhile_map {g : β → α} {h : β → σ → Bool × σ} (heq : ∀ b s, h b s = f (g b) s) (l : List β) (s : σ) :
    rangeWhile h l s = rangeWhile f (l.map g) s := by
  induction l generalizing s with
  | nil => rfl
  | cons b l ih =>
    have hb := heq b s
    cases hf : f (g b) s with
    | mk cont s' =>
      rw [hf] at hb
      cases cont with
      | true => rw [List.map_cons, rangeWhile_cons_true hb, rangeWhile_cons_true hf, ih]
      | false => rw [List.map_cons, rangeWhile_cons_false hb, rangeWhile_cons_false hf]

theorem rangeWhile_append (l l' : List α) (s : σ) : rangeWhile f (l ++ l') s =
    match rangeWhile f l s with
    | (true, s') => rangeWhile f l' s'
    | (false, s') => (false, s') := by
  induction l generalizing s with
  | nil => rfl
  | cons a l ih =>
    rw [List.cons_append, rangeWhile, rangeWhile]
    rcases f a s with ⟨_ | _, s'⟩
    · rfl
    · exact ih s'

end

/-! ## Callbacks that record their calls -/

/-- A callback that keeps the list of its calls, and answers by that list. -/
def recording (answer : List α → Bool) (a : α) (calls : List α) : Bool × List α :=
  (answer (calls ++ [a]), calls ++ [a])

theorem rangeWhile_recording_true (l calls : List α) :
    rangeWhile (recording fun _ => true) l calls = (true, calls ++ l) := by
  induction l generalizing calls with
  | nil => rw [rangeWhile, List.append_nil]
  | cons a l ih =>
    have hanswer : recording (fun _ => true) a calls = (true, calls ++ [a]) := rfl
    rw [rangeWhile_cons_true hanswer, ih, List.append_assoc, List.singleton_append]

/-- A callback that stops at its `k`-th call is called for the first `k` elements. -/
theorem rangeWhile_recording_stop {answer : List α → Bool} {k : Nat} (hgo : ∀ calls, calls.length < k → answer calls)
    (hstop : ∀ calls, calls.length = k → answer calls = false) (l : List α) {calls : List α} (hlt : calls.length < k) :
    (rangeWhile (recording answer) l calls).2 = calls ++ l.take (k - calls.length) := by
  induction l generalizing calls with
  | nil => rw [rangeWhile, List.take_nil, List.append_nil]
  | cons a l ih =>
    have hlength : (calls ++ [a]).length = calls.length + 1 := by simp
    obtain ⟨m, hm⟩ : ∃ m, k - calls.length = m + 1 := ⟨k - calls.length - 1, by omega⟩
    rw [hm, List.take_succ_cons]
    by_cases hlast : calls.length + 1 = k
    · have hanswer : recording answer a calls = (false, calls ++ [a]) := by
        rw [recording, hstop _ (hlength.trans hlast)]
      obtain rfl : m = 0 := by omega
      rw [rangeWhile_cons_false hanswer, List.take_zero]
    · have hanswer : recording answer a calls = (true, calls ++ [a]) := by
        rw [recording, hgo (calls ++ [a]) (by omega)]
      have hrest : k - (calls ++ [a]).length = m := by omega
      rw [rangeWhile_cons_true hanswer, ih (by omega), hrest, List.append_assoc, List.singleton_append]

/-! ## Keyed entries -/

section
variable [DecidableEq K]

/-- Call `f` for the elements of an entry, unless its key was seen. -/
def visitEntry (f : α → σ → Bool × σ) (entry : K × List α) (st : List K × σ) : Bool × List K × σ :=
  if entry.1 ∈ st.1 then (true, st)
  else
    let res := rangeWhile f entry.2 st.2
    (res.1, entry.1 :: st.1, res.2)

/-- The elements of the entries whose keys are new. -/
def firsts (seen : List K) : List (K × List α) → List α
  | [] => []
  | entry :: entries =>
    if entry.1 ∈ seen then firsts seen entries else entry.2 ++ firsts (entry.1 :: seen) entries

variable {f : α → σ → Bool × σ} {seen : List K} {entries : List (K × List α)}

/-- The loop calls `f` for the elements of the entries whose keys are new, in this order. -/
theorem rangeWhile_visitEntry (entries : List (K × List α)) (seen : List K) (s : σ) :
    (rangeWhile (visitEntry f) entries (seen, s)).1 = (rangeWhile f (firsts seen entries) s).1 ∧
      (rangeWhile (visitEntry f) entries (seen, s)).2.2 = (rangeWhile f (firsts seen entries) s).2 := by
  induction entries generalizing seen s with
  | nil => exact ⟨rfl, rfl⟩
  | cons entry entries ih =>
    by_cases hseen : entry.1 ∈ seen
    · have hvisit : visitEntry f entry (seen, s) = (true, seen, s) := if_pos hseen
      rw [rangeWhile_cons_true hvisit, firsts, if_pos hseen]
      exact ih seen s
    · have hvisit : visitEntry f entry (seen, s) =
          ((rangeWhile f entry.2 s).1, entry.1 :: seen, (rangeWhile f entry.2 s).2) := if_neg hseen
      rw [firsts, if_neg hseen]
      cases hres : rangeWhile f entry.2 s with
      | mk cont s' =>
        rw [hres] at hvisit
        cases cont with
        | true =>
          rw [rangeWhile_cons_true hvisit, rangeWhile_append, hres]
          exact ih _ s'
        | false =>
          rw [rangeWhile_cons_false hvisit, rangeWhile_append, hres]
          exact ⟨rfl, rfl⟩

def Singletons (key : α → K) (entries : List (K × List α)) : Prop := ∀ e ∈ entries, ∃ a, e = (key a, [a])

variable {key : α → K}

theorem lookup_eq_some_iff_mem {V : Type} {entries : List (K × V)} {k : K} {v : V}
    (hnd : (entries.map Prod.fst).Nodup) : entries.lookup k = some v ↔ (k, v) ∈ entries := by
  induction entries with
  | nil => simp
  | cons entry entries ih =>
    rw [List.map_cons, List.nodup_cons] at hnd
    rw [List.lookup_cons, List.mem_cons]
    by_cases hkey : k = entry.1
    · have hnot : (k, v) ∉ entries := fun hmem => hnd.1 (hkey ▸ List.mem_map_of_mem hmem)
      simp [hkey ▸ hnot, hkey, Prod.ext_iff, eq_comm]
    · simp [beq_false_of_ne hkey, ih hnd.2, hkey, Prod.ext_iff]

theorem mem_firsts (h : Singletons key entries) :
    a ∈ firsts seen entries ↔ key a ∉ seen ∧ entries.lookup (key a) = some [a] := by
  induction entries generalizing seen with
  | nil => simp [firsts]
  | cons entry entries ih =>
    obtain ⟨b, rfl⟩ := h entry (List.mem_cons_self ..)
    have hrest : Singletons key entries := fun e he => h e (List.mem_cons_of_mem _ he)
    rw [firsts, List.lookup_cons]
    dsimp only
    by_cases hkey : key a = key b
    · rw [hkey, beq_self_eq_true]
      by_cases hseen : key b ∈ seen
      · simp [hseen, ih hrest, hkey]
      · simp [hseen, ih hrest, hkey, eq_comm]
    · rw [beq_false_of_ne hkey]
      by_cases hseen : key b ∈ seen
      · simp [hseen, ih hrest]
      · have hne : a ≠ b := fun heq => hkey (congrArg key heq)
        simp [hseen, ih hrest, hkey, hne]

theorem nodup_firsts (h : Singletons key entries) : ((firsts seen entries).map key).Nodup := by
  induction entries generalizing seen with
  | nil => exact List.nodup_nil
  | cons entry entries ih =>
    obtain ⟨b, rfl⟩ := h entry (List.mem_cons_self ..)
    have hrest : Singletons key entries := fun e he => h e (List.mem_cons_of_mem _ he)
    rw [firsts]
    split
    · exact ih hrest
    · rw [List.singleton_append, List.map_cons, List.nodup_cons]
      refine ⟨fun hmem => ?_, ih hrest⟩
      obtain ⟨a, ha, hkey⟩ := List.mem_map.mp hmem
      exact ((mem_firsts hrest).mp ha).1 (hkey ▸ List.mem_cons_self ..)

end

end ProtoRegistry
