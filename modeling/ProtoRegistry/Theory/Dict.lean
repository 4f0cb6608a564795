import Mathlib.Data.List.Perm.Basic
import Mathlib.Data.List.Nodup
import Mathlib.Data.List.Induction
import Mathlib.Logic.Function.Basic

/-!
# Finite maps with an enumeration of their keys

A `Dict K V` is a lookup function together with the list of the keys it is defined on. Lookups are
plain functions, so two updates are compared pointwise, and the enumeration is what a `for range`
over a map or a `SELECT` over a table iterates over. The structure carries the agreement of the two,
so no operation can leave a key out of the enumeration.
-/

namespace ProtoRegistry

/-- A finite map: a lookup function and the list of its keys, each listed once. -/
structure Dict (K V : Type) where
  get : K → Option V
  keys : List K
  nodup : keys.Nodup
  mem_keys : ∀ k, k ∈ keys ↔ (get k).isSome

namespace Dict

variable {K V W : Type}

def empty : Dict K V where
  get _ := none
  keys := []
  nodup := List.nodup_nil
  mem_keys := by simp

instance : Inhabited (Dict K V) := ⟨empty⟩

@[simp] theorem get_empty (k : K) : (empty : Dict K V).get k = none := rfl

def values (d : Dict K V) : List V := d.keys.filterMap d.get

def toList (d : Dict K V) : List (K × V) := d.keys.filterMap fun k => (d.get k).map (k, ·)

theorem mem_keys_of_get {d : Dict K V} (h : d.get k = some v) : k ∈ d.keys := by
  simp [d.mem_keys, h]

theorem get_eq_none {d : Dict K V} (h : k ∉ d.keys) : d.get k = none := by
  simpa [d.mem_keys] using h

theorem mem_values {d : Dict K V} : v ∈ d.values ↔ ∃ k, d.get k = some v := by
  simp only [values, List.mem_filterMap]
  exact ⟨fun ⟨k, _, h⟩ => ⟨k, h⟩, fun ⟨k, h⟩ => ⟨k, mem_keys_of_get h, h⟩⟩

theorem mem_toList {d : Dict K V} : (k, v) ∈ d.toList ↔ d.get k = some v := by
  simp only [toList, List.mem_filterMap, Option.map_eq_some_iff, Prod.mk.injEq]
  constructor
  · rintro ⟨_, _, _, h, rfl, rfl⟩
    exact h
  · intro h
    exact ⟨k, mem_keys_of_get h, v, h, rfl, rfl⟩

theorem keys_toList (d : Dict K V) : d.toList.map Prod.fst = d.keys := by
  have hkeys : ∀ l : List K, (∀ k ∈ l, (d.get k).isSome) →
      (l.filterMap fun k => (d.get k).map (k, ·)).map Prod.fst = l := by
    intro l
    induction l with
    | nil => intro _; rfl
    | cons k l ih =>
      intro hl
      obtain ⟨v, hv⟩ := Option.isSome_iff_exists.mp (hl k (List.mem_cons_self ..))
      rw [List.filterMap_cons, hv]
      exact congrArg (k :: ·) (ih fun k' hk' => hl k' (List.mem_cons_of_mem _ hk'))
  exact hkeys d.keys fun k hk => (d.mem_keys k).mp hk

theorem toList_eq_nil {d : Dict K V} : d.toList = [] ↔ d.keys = [] := by
  simp [List.eq_nil_iff_forall_not_mem, mem_toList, d.mem_keys, Option.isSome_iff_exists]

theorem countP_update {l : List K} {p q : K → Bool} (hnd : l.Nodup) (hk : k ∈ l) (h : ∀ a, a ≠ k → q a = p a) :
    l.countP q + (p k).toNat = l.countP p + (q k).toNat := by
  induction l with
  | nil => cases hk
  | cons a l ih =>
    rw [List.nodup_cons] at hnd
    rw [List.countP_cons, List.countP_cons]
    by_cases ha : a = k
    · subst ha
      have hrest : l.countP q = l.countP p := by
        apply List.countP_congr
        intro b hb
        rw [h b fun heq => hnd.1 (heq ▸ hb)]
      rw [hrest]
      cases p a <;> cases q a <;> simp
    · rw [h a ha]
      have := ih hnd.2 ((List.mem_cons.mp hk).resolve_left (Ne.symm ha))
      omega

theorem countP_values (d : Dict K V) (p : V → Bool) : d.values.countP p = d.keys.countP fun k => (d.get k).any p := by
  rw [values, List.countP_filterMap]
  apply List.countP_congr
  intro k _
  cases d.get k <;> simp

section
variable [DecidableEq K]

/-- Insert or overwrite the value at a key. An overwritten key keeps its place. -/
def set (d : Dict K V) (k : K) (v : V) : Dict K V where
  get := Function.update d.get k (some v)
  keys := if k ∈ d.keys then d.keys else d.keys ++ [k]
  nodup := by
    split
    · exact d.nodup
    · next h => exact List.nodup_append.mpr ⟨d.nodup, by simp, by rintro a ha b hb rfl; simp_all⟩
  mem_keys k' := by
    rcases eq_or_ne k' k with rfl | hne
    · by_cases h : k' ∈ d.keys <;> simp [h]
    · by_cases h : k ∈ d.keys <;> simp [h, hne, d.mem_keys]

def delete (d : Dict K V) (k : K) : Dict K V where
  get := Function.update d.get k none
  keys := d.keys.filter (· ≠ k)
  nodup := d.nodup.filter _
  mem_keys k' := by
    rcases eq_or_ne k' k with rfl | hne
    · simp
    · simp [hne, d.mem_keys]

@[simp] theorem get_set_self (d : Dict K V) (k : K) (v : V) : (d.set k v).get k = some v := by
  simp [set]

theorem get_set_of_ne (d : Dict K V) (v : V) (h : k' ≠ k) : (d.set k v).get k' = d.get k' := by
  simp [set, h]

theorem get_set (d : Dict K V) (k k' : K) (v : V) :
    (d.set k v).get k' = if k' = k then some v else d.get k' := by
  simp [set, Function.update_apply]

theorem get_foldl_set (key : α → K) (val : α → V) (l : List α) (d : Dict K V) (k : K) :
    (l.foldl (fun d a => d.set (key a) (val a)) d).get k =
      ((l.reverse.find? (key · = k)).map val).or (d.get k) := by
  induction l generalizing d with
  | nil => rfl
  | cons a l ih =>
    rw [List.foldl_cons, ih, List.reverse_cons, List.find?_append, List.find?_singleton, get_set]
    cases l.reverse.find? (key · = k) with
    | some b => rfl
    | none =>
      by_cases hk : k = key a
      · subst hk
        simp
      · have hne : ¬ key a = k := fun heq => hk heq.symm
        simp [hk, hne]

theorem isSome_get_set {d : Dict K V} (k : K) (v : V) (h : (d.get k').isSome) :
    ((d.set k v).get k').isSome := by
  rw [get_set]
  split
  · rfl
  · exact h

theorem toList_set (d : Dict K V) (v : V) (h : k ∉ d.keys) : (d.set k v).toList = d.toList ++ [(k, v)] := by
  have hkeys : (d.set k v).keys = d.keys ++ [k] := if_neg h
  have hold : d.keys.filterMap (fun k' => ((d.set k v).get k').map (k', ·)) = d.toList := by
    apply List.filterMap_congr
    intro k' hk'
    have hne : k' ≠ k := fun heq => h (heq ▸ hk')
    rw [get_set_of_ne d v hne]
  rw [toList, hkeys, List.filterMap_append, hold]
  simp

/-- The map of a sequence of assignments, the last one to a key winning. -/
def ofAssignments (l : List (K × V)) : Dict K V := l.foldl (fun d e => d.set e.1 e.2) empty

theorem ofAssignments_append (l : List (K × V)) (e : K × V) :
    ofAssignments (l ++ [e]) = (ofAssignments l).set e.1 e.2 := by
  simp [ofAssignments]

theorem mem_of_get_ofAssignments {l : List (K × V)} (h : (ofAssignments l).get k = some v) :
    (k, v) ∈ l := by
  induction l using List.reverseRecOn with
  | nil => cases h
  | append_singleton l e ih =>
    rw [ofAssignments_append, get_set] at h
    split at h
    · next heq =>
      cases h
      simp [heq]
    · exact List.mem_append_left _ (ih h)

theorem isSome_get_ofAssignments {l : List (K × V)} (h : e ∈ l) :
    ((ofAssignments l).get e.1).isSome := by
  induction l using List.reverseRecOn with
  | nil => cases h
  | append_singleton l e' ih =>
    rw [ofAssignments_append]
    obtain h | h := List.mem_append.mp h
    · exact isSome_get_set _ _ (ih h)
    · rw [List.mem_singleton.mp h, get_set_self]
      rfl

theorem get_ofAssignments {l : List (K × V)} (hnd : (l.map Prod.fst).Nodup) :
    (ofAssignments l).get k = some v ↔ (k, v) ∈ l := by
  refine ⟨mem_of_get_ofAssignments, fun h => ?_⟩
  obtain ⟨v', hv'⟩ := Option.isSome_iff_exists.mp (isSome_get_ofAssignments h)
  cases List.inj_on_of_nodup_map hnd h (mem_of_get_ofAssignments hv') rfl
  exact hv'

theorem get_ofAssignments_filterMap (f : K → Option V) (l : List K) (k : K) :
    (ofAssignments (l.filterMap fun a => (f a).map (a, ·))).get k = if k ∈ l then f k else none := by
  induction l using List.reverseRecOn with
  | nil => rfl
  | append_singleton l a ih =>
    rw [List.filterMap_append]
    simp only [List.mem_append, List.mem_singleton]
    cases ha : f a with
    | none =>
      rw [List.filterMap_cons_none (by rw [ha]; rfl), List.filterMap_nil, List.append_nil, ih]
      by_cases hk : k = a
      · simp [hk, ha]
      · simp [hk]
    | some v =>
      rw [List.filterMap_cons_some (by rw [ha]; rfl), List.filterMap_nil, ofAssignments_append, get_set, ih]
      by_cases hk : k = a
      · simp [hk, ha]
      · simp [hk]

@[simp] theorem get_delete_self (d : Dict K V) (k : K) : (d.delete k).get k = none := by
  simp [delete]

theorem get_delete_of_ne (d : Dict K V) (h : k' ≠ k) : (d.delete k).get k' = d.get k' := by
  simp [delete, h]

theorem get_delete (d : Dict K V) (k k' : K) :
    (d.delete k).get k' = if k' = k then none else d.get k' := by
  simp [delete, Function.update_apply]

theorem get_delete_set {d : Dict K V} (h : d.get k = none) (v : V) (k' : K) :
    ((d.set k v).delete k).get k' = d.get k' := by
  rw [get_delete, get_set]
  split
  · next hk => rw [hk, h]
  · rfl

theorem countP_values_set_new (d : Dict K V) (v : V) (p : V → Bool) (h : d.get k = none) :
    (d.set k v).values.countP p = d.values.countP p + (p v).toNat := by
  have hk : k ∉ d.keys := by simp [d.mem_keys, h]
  have hkeys : (d.set k v).keys = d.keys ++ [k] := if_neg hk
  have hold : d.keys.countP (fun a => ((d.set k v).get a).any p) = d.keys.countP fun a => (d.get a).any p := by
    apply List.countP_congr
    intro a ha
    have hne : a ≠ k := fun heq => hk (heq ▸ ha)
    rw [get_set_of_ne d v hne]
  rw [countP_values, countP_values, hkeys, List.countP_append, hold, List.countP_singleton, get_set_self]
  cases hp : p v <;> simp [hp]

theorem countP_values_set (d : Dict K V) (v : V) (p : V → Bool) (h : d.get k = some w) :
    (d.set k v).values.countP p + (p w).toNat = d.values.countP p + (p v).toNat := by
  have hkeys : (d.set k v).keys = d.keys := if_pos (mem_keys_of_get h)
  rw [countP_values, countP_values, hkeys]
  have hupdate := countP_update (p := fun a => (d.get a).any p) (q := fun a => ((d.set k v).get a).any p) d.nodup
    (mem_keys_of_get h) fun a ha => by rw [get_set_of_ne d v ha]
  simpa [h] using hupdate

theorem countP_values_delete (d : Dict K V) (p : V → Bool) (h : d.get k = some w) :
    (d.delete k).values.countP p + (p w).toNat = d.values.countP p := by
  have hkeys : (d.delete k).keys.countP (fun a => ((d.delete k).get a).any p) =
      d.keys.countP fun a => ((d.delete k).get a).any p := by
    change (d.keys.filter (· ≠ k)).countP _ = _
    rw [List.countP_filter]
    apply List.countP_congr
    intro a _
    by_cases ha : a = k <;> simp [ha]
  rw [countP_values, countP_values, hkeys]
  have hupdate := countP_update (p := fun a => (d.get a).any p) (q := fun a => ((d.delete k).get a).any p) d.nodup
    (mem_keys_of_get h) fun a ha => by rw [get_delete_of_ne d ha]
  simpa [h] using hupdate

end

/-- Rewrite every value, keeping the keys. -/
def mapValues (d : Dict K V) (f : K → V → W) : Dict K W where
  get k := (d.get k).map (f k)
  keys := d.keys
  nodup := d.nodup
  mem_keys k := by simp [d.mem_keys]

@[simp] theorem get_mapValues (d : Dict K V) (f : K → V → W) (k : K) :
    (d.mapValues f).get k = (d.get k).map (f k) := rfl

def filter (d : Dict K V) (p : K → Bool) : Dict K V where
  get k := if p k then d.get k else none
  keys := d.keys.filter p
  nodup := d.nodup.filter _
  mem_keys k := by
    rw [List.mem_filter, d.mem_keys]
    cases p k <;> simp

section
variable {d d' : Dict K V} {p : K → Bool} {k : K}

theorem ext (hget : ∀ k, d.get k = d'.get k) (hkeys : d.keys = d'.keys) : d = d' := by
  obtain ⟨get, keys, _, _⟩ := d
  obtain ⟨get', keys', _, _⟩ := d'
  obtain rfl : get = get' := funext hget
  obtain rfl : keys = keys' := hkeys
  rfl

theorem get_filter (d : Dict K V) (p : K → Bool) (k : K) : (d.filter p).get k = if p k then d.get k else none := rfl

@[simp] theorem get_filter_of_pos (d : Dict K V) (h : p k = true) : (d.filter p).get k = d.get k := if_pos h

theorem keys_filter (d : Dict K V) (p : K → Bool) : (d.filter p).keys = d.keys.filter p := rfl

theorem filter_eq_self (d : Dict K V) (h : ∀ k, p k = true) : d.filter p = d :=
  ext (fun k => get_filter_of_pos d (h k)) (List.filter_eq_self.mpr fun k _ => h k)

theorem toList_filter (d : Dict K V) (p : K → Bool) : (d.filter p).toList = d.toList.filter fun e => p e.1 := by
  rw [toList, toList, keys_filter, List.filterMap_filter, List.filter_filterMap]
  apply List.filterMap_congr
  intro k _
  rw [get_filter]
  cases hk : p k <;> cases d.get k <;> simp [hk, Option.filter]

theorem filter_mapValues (d : Dict K V) (f : K → V → W) (p : K → Bool) :
    (d.mapValues f).filter p = (d.filter p).mapValues f := by
  refine ext (fun k => ?_) rfl
  rw [get_filter, get_mapValues, get_mapValues, get_filter]
  split <;> rfl

variable [DecidableEq K]

theorem filter_set (d : Dict K V) (v : V) :
    (d.set k v).filter p = if p k then (d.filter p).set k v else d.filter p := by
  refine ext (fun k' => ?_) ?_
  · rw [get_filter, get_set, apply_ite (get · k'), get_set, get_filter]
    by_cases hk : k' = k
    · by_cases hp : p k = true <;> simp [hk, hp]
    · simp [hk]
  · change (if k ∈ d.keys then d.keys else d.keys ++ [k]).filter p = _
    by_cases hp : p k = true
    · rw [if_pos hp]
      change _ = if k ∈ d.keys.filter p then d.keys.filter p else d.keys.filter p ++ [k]
      by_cases hk : k ∈ d.keys <;> simp [hk, hp]
    · rw [if_neg hp]
      by_cases hk : k ∈ d.keys <;> simp [hk, hp] <;> rfl

end

end Dict

end ProtoRegistry
