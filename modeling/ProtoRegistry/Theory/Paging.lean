import Mathlib.Order.RelClasses
import Mathlib.Data.List.Pairwise

/-!
# Keyset pagination

A table of rows is read page by page in the order of their keys. A page holds the first rows whose keys come
after a cursor, and the last key of a page that is not the last one is the cursor of the next. The table may
change between pages. A walk over the pages returns keys in ascending order, so none twice, and every key
that is in the table whenever a page is read.
-/

namespace ProtoRegistry

variable {K α : Type} {lt : K → K → Prop} {key : α → K}

/-- The page after a cursor: the rows up to the cursor of the next page, if there is one. -/
structure KeysetPage (lt : K → K → Prop) (key : α → K) (table : List α) (after : K) (page : List α)
    (next : Option K) : Prop where
  ascending : (page.map key).Pairwise lt
  mem : ∀ a, a ∈ page ↔ a ∈ table ∧ lt after (key a) ∧ ∀ b ∈ next, ¬ lt b (key a)
  next_mem : ∀ b ∈ next, b ∈ page.map key

/-! ## Cutting a page -/

/-- The first `n` rows, with the last of their keys when there are more rows. -/
def cutAt (key : α → K) (n : Nat) (rows : List α) : List α × Option K :=
  if n < rows.length then (rows.take n, (rows.take n).getLast?.map key) else (rows, none)

theorem cutAt_take {n m : Nat} {rows : List α} (h : n < m ∨ rows.length ≤ m) :
    cutAt key n (rows.take m) = cutAt key n rows := by
  obtain h | h := h
  · rw [cutAt, cutAt, List.take_take, List.length_take, Nat.min_eq_left (Nat.le_of_lt h)]
    by_cases hn : n < rows.length
    · rw [if_pos (by omega), if_pos hn]
    · rw [if_neg (by omega), if_neg hn, List.take_of_length_le (by omega)]
  · rw [List.take_of_length_le h]

section
variable [IsStrictOrder K lt]

theorem not_lt_getLast {rows : List α} (hsorted : (rows.map key).Pairwise lt) (hlast : rows.getLast? = some b)
    (ha : a ∈ rows) : ¬ lt (key b) (key a) := by
  obtain ⟨init, rfl⟩ := List.getLast?_eq_some_iff.mp hlast
  rw [List.map_append, List.pairwise_append] at hsorted
  obtain ha | ha := List.mem_append.mp ha
  · have hab : lt (key a) (key b) := hsorted.2.2 _ (List.mem_map_of_mem ha) _ (by simp)
    exact fun hba => irrefl (key a) (IsTrans.trans _ _ _ hab hba)
  · rw [List.mem_singleton.mp ha]
    exact irrefl _

/-- The rows after the cursor, cut at a positive number, are a page. -/
theorem keysetPage_cutAt {n : Nat} {rows table : List α} {after : K} (hn : 0 < n)
    (hsorted : (rows.map key).Pairwise lt) (hmem : ∀ a, a ∈ rows ↔ a ∈ table ∧ lt after (key a)) :
    KeysetPage lt key table after (cutAt key n rows).1 (cutAt key n rows).2 := by
  unfold cutAt
  split
  · next hlt =>
    obtain ⟨b, hb⟩ : ∃ b, (rows.take n).getLast? = some b := by
      rw [← Option.isSome_iff_exists, List.getLast?_isSome, ne_eq, List.take_eq_nil_iff]
      rintro (rfl | rfl)
      · omega
      · simp at hlt
    have htake : ((rows.take n).map key).Pairwise lt := hsorted.sublist ((List.take_sublist n rows).map key)
    rw [hb]
    refine ⟨htake, fun a => ⟨fun ha => ?_, ?_⟩, ?_⟩
    · obtain ⟨htable, hafter⟩ := (hmem a).mp (List.mem_of_mem_take ha)
      refine ⟨htable, hafter, fun k hk => ?_⟩
      cases hk
      exact not_lt_getLast htake hb ha
    · rintro ⟨htable, hafter, hle⟩
      have ha := (hmem a).mpr ⟨htable, hafter⟩
      rw [← List.take_append_drop n rows, List.mem_append] at ha
      refine ha.resolve_right fun hdrop => hle (key b) rfl ?_
      -- the rows that are left out come after the last of the page
      rw [← List.take_append_drop n rows, List.map_append, List.pairwise_append] at hsorted
      exact hsorted.2.2 _ (List.mem_map_of_mem (List.mem_of_getLast? hb)) _ (List.mem_map_of_mem hdrop)
    · intro k hk
      cases hk
      exact List.mem_map_of_mem (List.mem_of_getLast? hb)
  · refine ⟨hsorted, fun a => ?_, ?_⟩
    · rw [hmem]
      simp
    · simp

theorem KeysetPage.remaining_lt [DecidableRel lt] {table page : List α} {after b : K} {keys : List K}
    (hpage : KeysetPage lt key table after page (some b)) (hkeys : ∀ a ∈ table, key a ∈ keys) :
    (keys.filter (lt b ·)).length < (keys.filter (lt after ·)).length := by
  obtain ⟨a, ha, rfl⟩ := List.mem_map.mp (hpage.next_mem b rfl)
  obtain ⟨htable, hafter, -⟩ := (hpage.mem a).mp ha
  have hsub : keys.filter (lt (key a) ·) = (keys.filter (lt after ·)).filter (lt (key a) ·) := by
    rw [List.filter_filter]
    refine List.filter_congr fun x _ => ?_
    by_cases hx : lt (key a) x
    · have hx' : lt after x := IsTrans.trans _ _ _ hafter hx
      simp [hx, hx']
    · simp [hx]
  rw [hsub, List.length_filter_lt_length_iff_exists]
  exact ⟨key a, by simp [hkeys a htable, hafter], by simpa using irrefl (key a)⟩

end

/-! ## Walking over the pages -/

/-- The rows of `n` pages from the page with number `k` on, which is read after the given cursor. The walk
ends with the last page. -/
inductive Walk (lt : K → K → Prop) (key : α → K) (tables : Nat → List α) : Nat → K → Nat → List α → Prop
  | last (hpage : KeysetPage lt key (tables k) after page none) : Walk lt key tables k after 1 page
  | next (hpage : KeysetPage lt key (tables k) after page (some b)) (hrest : Walk lt key tables (k + 1) b n rest) :
    Walk lt key tables k after (n + 1) (page ++ rest)

namespace Walk

variable {tables : Nat → List α} {k n : Nat} {after x : K} {rows : List α}

theorem lt_of_mem [IsStrictOrder K lt] (h : Walk lt key tables k after n rows) : ∀ a ∈ rows, lt after (key a) := by
  induction h with
  | last hpage => exact fun a ha => ((hpage.mem a).mp ha).2.1
  | next hpage _ ih =>
    intro a ha
    obtain ⟨b', hb', hkey⟩ := List.mem_map.mp (hpage.next_mem _ rfl)
    obtain ha | ha := List.mem_append.mp ha
    · exact ((hpage.mem a).mp ha).2.1
    · exact IsTrans.trans _ _ _ (hkey ▸ ((hpage.mem b').mp hb').2.1) (ih a ha)

theorem lt_or_eq_next (hpage : KeysetPage lt key (tables k) after page (some b)) (hx : x ∈ page.map key) :
    lt x b ∨ x = b := by
  have hsymm : Std.Symm fun x y => lt x y ∨ lt y x := ⟨fun _ _ => Or.symm⟩
  have hpairs : (page.map key).Pairwise fun x y => lt x y ∨ lt y x := hpage.ascending.imp .inl
  by_cases heq : x = b
  · exact .inr heq
  · refine .inl ((hpairs.forall hx (hpage.next_mem b rfl) heq).resolve_right ?_)
    obtain ⟨a, ha, rfl⟩ := List.mem_map.mp hx
    exact ((hpage.mem a).mp ha).2.2 b rfl

/-- Keys are returned in ascending order. -/
theorem ascending [IsStrictOrder K lt] (h : Walk lt key tables k after n rows) : (rows.map key).Pairwise lt := by
  induction h with
  | last hpage => exact hpage.ascending
  | @next k after page b n rest hpage hrest ih =>
    rw [List.map_append, List.pairwise_append]
    refine ⟨hpage.ascending, ih, fun x hx y hy => ?_⟩
    obtain ⟨a, ha, rfl⟩ := List.mem_map.mp hy
    have hb := hrest.lt_of_mem a ha
    obtain hlt | rfl := lt_or_eq_next hpage hx
    · exact IsTrans.trans _ _ _ hlt hb
    · exact hb

theorem exists_mem (h : Walk lt key tables k after n rows) (ha : a ∈ rows) :
    ∃ j, k ≤ j ∧ j < k + n ∧ a ∈ tables j := by
  induction h with
  | last hpage => exact ⟨_, Nat.le_refl _, Nat.lt_succ_self _, ((hpage.mem a).mp ha).1⟩
  | next hpage _ ih =>
    obtain ha | ha := List.mem_append.mp ha
    · exact ⟨_, Nat.le_refl _, by omega, ((hpage.mem a).mp ha).1⟩
    · obtain ⟨j, hj, hj', hmem⟩ := ih ha
      exact ⟨j, by omega, by omega, hmem⟩

theorem mem_of_present (h : Walk lt key tables k after n rows)
    (hx : ∀ j, k ≤ j → j < k + n → x ∈ (tables j).map key) (hafter : lt after x) : x ∈ rows.map key := by
  induction h with
  | last hpage =>
    obtain ⟨a, ha, rfl⟩ := List.mem_map.mp (hx _ (Nat.le_refl _) (Nat.lt_succ_self _))
    exact List.mem_map_of_mem ((hpage.mem a).mpr ⟨ha, hafter, by simp⟩)
  | @next k after page b n rest hpage _ ih =>
    rw [List.map_append, List.mem_append]
    by_cases hb : lt b x
    · exact .inr (ih (fun j hj hj' => hx j (by omega) (by omega)) hb)
    · obtain ⟨a, ha, rfl⟩ := List.mem_map.mp (hx k (Nat.le_refl _) (by omega))
      refine .inl (List.mem_map_of_mem ((hpage.mem a).mpr ⟨ha, hafter, fun b' hb' => ?_⟩))
      cases hb'
      exact hb

end Walk

end ProtoRegistry
