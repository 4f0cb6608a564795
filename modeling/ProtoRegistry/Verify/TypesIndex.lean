import ProtoRegistry.Model.Client
import ProtoRegistry.Theory.Except
import ProtoRegistry.Theory.Indexed

/-!
# What a registry of types holds

The methods that write a `NamespacedTypes` keep it an index of a list of types, by name and, for
extensions, by extendee and number.
-/

namespace ProtoRegistry

/-- An extension, as the field it is. -/
def TypeDescriptor.extension? : TypeDescriptor → Option FieldDescriptor
  | .extension x => some x
  | _ => none

def FieldDescriptor.extensionKey (x : FieldDescriptor) : FullName × Nat := (x.containingMessage, x.number)

theorem TypeDescriptor.extensionKey_eq (t : TypeDescriptor) :
    t.extensionKey = t.extension?.map (·.extensionKey) := by
  cases t <;> rfl

/-- No two of the types have the same name, or are extensions with the same number. -/
structure Distinct (ts : List TypeDescriptor) : Prop where
  names : (ts.map (·.fullName)).Nodup
  numbers : ((ts.filterMap (·.extension?)).map (·.extensionKey)).Nodup

theorem Distinct.sublist {ts us : List TypeDescriptor} (h : Distinct ts) (hsub : List.Sublist us ts) :
    Distinct us where
  names := h.names.sublist (hsub.map _)
  numbers := h.numbers.sublist ((hsub.filterMap _).map _)

theorem Distinct.perm {ts us : List TypeDescriptor} (h : Distinct ts) (hperm : ts.Perm us) : Distinct us where
  names := (hperm.map _).nodup_iff.mp h.names
  numbers := ((hperm.filterMap _).map _).nodup_iff.mp h.numbers

theorem distinct_concat_iff {ts : List TypeDescriptor} {t : TypeDescriptor} :
    Distinct (ts ++ [t]) ↔ Distinct ts ∧ t.fullName ∉ ts.map (·.fullName) ∧
      ∀ x ∈ t.extension?, x.extensionKey ∉ (ts.filterMap (·.extension?)).map (·.extensionKey) := by
  have hiff : Distinct (ts ++ [t]) ↔ ((ts ++ [t]).map (·.fullName)).Nodup ∧
      (((ts ++ [t]).filterMap (·.extension?)).map (·.extensionKey)).Nodup :=
    ⟨fun h => ⟨h.names, h.numbers⟩, fun h => ⟨h.1, h.2⟩⟩
  rw [hiff, List.map_append, List.filterMap_append, List.map_append, List.nodup_append,
    List.nodup_append]
  constructor
  · rintro ⟨⟨hnames, _, hname⟩, hnumbers, _, hnumber⟩
    refine ⟨⟨hnames, hnumbers⟩, fun ht => hname _ ht _ (by simp) rfl, fun x hx hmem => ?_⟩
    rw [Option.mem_def] at hx
    exact hnumber _ hmem _ (by simp [hx]) rfl
  · rintro ⟨hd, hname, hnumber⟩
    refine ⟨⟨hd.names, by simp, ?_⟩, hd.numbers, by cases hx : t.extension? <;> simp [hx], ?_⟩
    · rintro n hn _ hu rfl
      rw [List.map_singleton, List.mem_singleton] at hu
      exact hname (hu ▸ hn)
    · rintro k hk _ hu rfl
      obtain ⟨x, hx, rfl⟩ := List.mem_map.mp hu
      exact hnumber x (by simpa using hx) hk

namespace NamespacedTypes
open Client

variable {r r' : NamespacedTypes} {t : TypeDescriptor} {ts us : List TypeDescriptor}

/-! ## One type -/

@[simp] theorem typesByName_count (r : NamespacedTypes) (kind : TypeKind) (k : Int) :
    (r.count kind k).typesByName = r.typesByName := by
  cases kind <;> rfl

@[simp] theorem extensionAt_count (r : NamespacedTypes) (kind : TypeKind) (k : Int) (m : FullName) (n : Nat) :
    (r.count kind k).extensionAt m n = r.extensionAt m n := by
  cases kind <;> rfl

/-- `NumMessages`, `NumEnums` and `NumExtensions`. -/
def num (r : NamespacedTypes) : TypeKind → Int
  | .message => r.numMessages
  | .enum => r.numEnums
  | .extension => r.numExtensions

theorem num_count (r : NamespacedTypes) (kind : TypeKind) (k : Int) (kind' : TypeKind) :
    (r.count kind k).num kind' = r.num kind' + if kind = kind' then k else 0 := by
  cases kind <;> cases kind' <;> simp [count, num]

theorem extensionAt_setExtension (r : NamespacedTypes) (x : FieldDescriptor) (m : FullName) (n : Nat) :
    (r.setExtension x).extensionAt m n =
      if (m, n) = x.extensionKey then some x else r.extensionAt m n := by
  simp only [extensionAt, setExtension, Dict.get_set, FieldDescriptor.extensionKey, Prod.mk.injEq]
  split
  · next hm =>
    subst hm
    rw [Option.bind_some, Dict.get_set]
    cases r.extensionsByMessage.get x.containingMessage <;> simp
  · next hm => simp [hm]

theorem typesByName_deleteExtension (r : NamespacedTypes) (m : FullName) (n : Nat) :
    (r.deleteExtension m n).typesByName = r.typesByName := by
  rw [deleteExtension]
  split <;> rfl

theorem num_deleteExtension (r : NamespacedTypes) (m : FullName) (n : Nat) (kind : TypeKind) :
    (r.deleteExtension m n).num kind = r.num kind := by
  rw [deleteExtension]
  split <;> cases kind <;> rfl

theorem extensionAt_deleteExtension (r : NamespacedTypes) (m m' : FullName) (n n' : Nat) :
    (r.deleteExtension m n).extensionAt m' n' =
      if (m', n') = (m, n) then none else r.extensionAt m' n' := by
  simp only [deleteExtension, Prod.mk.injEq]
  split
  · next hnone =>
    split
    · next heq => rw [heq.1, extensionAt, hnone, Option.bind_none]
    · rfl
  · next exts hexts =>
    have hdel : ∀ k, (exts.delete n).get k = if k = n then none else exts.get k := exts.get_delete n
    simp only [extensionAt]
    split
    · -- the last number of the message: its map goes too
      next hempty =>
      have hall : ∀ k, (exts.delete n).get k = none := fun k =>
        Dict.get_eq_none (by rw [List.isEmpty_iff.mp hempty]; exact List.not_mem_nil)
      rw [Dict.get_delete]
      split
      · next hm =>
        subst hm
        have hn' := hall n'
        rw [hdel] at hn'
        rw [hexts, Option.bind_some, Option.bind_none]
        split
        · rfl
        · next hne => rw [← hn', if_neg fun h => hne ⟨rfl, h⟩]
      · next hm => rw [if_neg fun h => hm h.1]
    · rw [Dict.get_set]
      split
      · next hm =>
        subst hm
        rw [hexts, Option.bind_some, Option.bind_some, hdel]
        simp
      · next hm => rw [if_neg fun h => hm h.1]

theorem typesByName_updateTypeOf (r : NamespacedTypes) (t : TypeDescriptor) :
    (updateTypeOf r t).typesByName = r.typesByName.set t.fullName t := by
  have hbase : (if (r.typesByName.get t.fullName).isNone then r.count t.kind 1 else r).typesByName = r.typesByName := by
    split
    · rw [typesByName_count]
    · rfl
  cases t <;> exact congrArg (Dict.set · _ _) hbase

theorem get_updateTypeOf (r : NamespacedTypes) (t : TypeDescriptor) (n : FullName) :
    (updateTypeOf r t).typesByName.get n = if n = t.fullName then some t else r.typesByName.get n := by
  rw [typesByName_updateTypeOf, Dict.get_set]

theorem extensionAt_updateTypeOf (r : NamespacedTypes) (t : TypeDescriptor) (m : FullName) (n : Nat) :
    (updateTypeOf r t).extensionAt m n =
      if t.extensionKey = some (m, n) then t.extension? else r.extensionAt m n := by
  have hsame : ∀ t, (r.updateType t).extensionAt m n = r.extensionAt m n := by
    intro t
    change (if (r.typesByName.get t.fullName).isNone then r.count t.kind 1 else r).extensionAt m n = _
    split
    · rw [extensionAt_count]
    · rfl
  cases t with
  | message => exact hsame _
  | enum => exact hsame _
  | extension x =>
    rw [updateTypeOf, updateExtension, extensionAt_setExtension, hsame]
    exact if_congr (by rw [TypeDescriptor.extensionKey, Option.some.injEq]; exact eq_comm) rfl rfl

/-- Registering a type is updating it where nothing is in the way. -/
theorem registerTypeOf_eq_ok_iff :
    registerTypeOf r t = .ok r' ↔
      r.typesByName.get t.fullName = none ∧
        (∀ x ∈ t.extension?, r.extensionAt x.containingMessage x.number = none) ∧
        r' = updateTypeOf r t := by
  have hplain : ∀ t, r.registerType t = .ok r' ↔
      r.typesByName.get t.fullName = none ∧ r' = r.updateType t := by
    intro t
    rw [registerType, updateType]
    cases r.typesByName.get t.fullName with
    | some _ => simp
    | none =>
      have hcomm : (r.setType t).count t.kind 1 = (r.count t.kind 1).setType t := by
        cases t <;> rfl
      simp [hcomm, eq_comm]
  cases t with
  | message m =>
    exact (hplain (.message m)).trans ⟨fun h => ⟨h.1, fun x hx => (by cases hx), h.2⟩, fun h => ⟨h.1, h.2.2⟩⟩
  | enum e =>
    exact (hplain (.enum e)).trans ⟨fun h => ⟨h.1, fun x hx => (by cases hx), h.2⟩, fun h => ⟨h.1, h.2.2⟩⟩
  | extension x =>
    rw [registerTypeOf, registerExtension, updateTypeOf, updateExtension, updateType]
    cases hname : r.typesByName.get x.fullName with
    | some _ => simp [TypeDescriptor.fullName, hname]
    | none =>
      cases hnum : r.extensionAt x.containingMessage x.number with
      | some _ => simp [TypeDescriptor.extension?, hnum]
      | none => simp [TypeDescriptor.extension?, TypeDescriptor.fullName, hname, hnum, eq_comm]; rfl

/-! ## The index -/

/-- The registry finds the types by their names, and the extensions by their numbers. -/
structure Holds (r : NamespacedTypes) (ts : List TypeDescriptor) : Prop where
  names : Indexes r.typesByName.get (·.fullName) ts
  numbers : Indexes (fun k => r.extensionAt k.1 k.2) (·.extensionKey) (ts.filterMap (·.extension?))

theorem Holds.new : Holds .new [] := ⟨Indexes.nil, Indexes.nil⟩

theorem Holds.congr (h : Holds r ts) (hmem : ∀ t, t ∈ ts ↔ t ∈ us) : Holds r us :=
  ⟨h.names.congr hmem, h.numbers.congr fun x => by simp only [List.mem_filterMap, hmem]⟩

theorem names_update (h : Indexes r.typesByName.get (·.fullName) ts)
    (hfree : t.fullName ∉ ts.map (·.fullName)) :
    Indexes (updateTypeOf r t).typesByName.get (·.fullName) (ts ++ [t]) :=
  h.add hfree (get_updateTypeOf r t)

theorem names_foldl_update (h : Indexes r.typesByName.get (·.fullName) ts)
    (hnd : ((ts ++ us).map (·.fullName)).Nodup) :
    Indexes (us.foldl updateTypeOf r).typesByName.get (·.fullName) (ts ++ us) :=
  Indexes.foldl_add (g := fun r : NamespacedTypes => r.typesByName.get) get_updateTypeOf h hnd

theorem numbers_update (h : Indexes (fun k => r.extensionAt k.1 k.2) (·.extensionKey) (ts.filterMap (·.extension?)))
    (hfree : ∀ x ∈ t.extension?, x.extensionKey ∉ (ts.filterMap (·.extension?)).map (·.extensionKey)) :
    Indexes (fun k => (updateTypeOf r t).extensionAt k.1 k.2) (·.extensionKey)
      ((ts ++ [t]).filterMap (·.extension?)) := by
  rw [List.filterMap_append]
  cases hx : t.extension? with
  | none =>
    have hnil : [t].filterMap (·.extension?) = [] := by simp [hx]
    rw [hnil, List.append_nil]
    convert h using 2 with k
    rw [extensionAt_updateTypeOf, TypeDescriptor.extensionKey_eq, hx]
    simp
  | some x =>
    have hone : [t].filterMap (·.extension?) = [x] := by simp [hx]
    rw [hone]
    apply h.add (hfree x hx)
    intro k
    rw [extensionAt_updateTypeOf, TypeDescriptor.extensionKey_eq, hx]
    simp only [Option.map_some, Option.some.injEq, eq_comm (a := k)]

theorem Holds.update (h : Holds r ts) (hd : Distinct (ts ++ [t])) : Holds (updateTypeOf r t) (ts ++ [t]) :=
  have hfree := distinct_concat_iff.mp hd
  ⟨names_update h.names hfree.2.1, numbers_update h.numbers hfree.2.2⟩

theorem Holds.foldl_update (h : Holds r ts) (hd : Distinct (ts ++ us)) :
    Holds (us.foldl updateTypeOf r) (ts ++ us) := by
  induction us generalizing r ts with
  | nil => simpa using h
  | cons u us ih =>
    rw [List.append_cons] at hd ⊢
    exact ih (h.update (hd.sublist (List.sublist_append_left _ _))) hd

/-- Types that do not conflict can be registered. -/
theorem Holds.register (h : Holds r ts) (hd : Distinct (ts ++ us)) :
    us.foldlM registerTypeOf r = .ok (us.foldl updateTypeOf r) := by
  induction us generalizing r ts with
  | nil => rfl
  | cons u us ih =>
    rw [List.append_cons] at hd
    have hone := hd.sublist (List.sublist_append_left (ts ++ [u]) us)
    obtain ⟨_, hname, hnumber⟩ := distinct_concat_iff.mp hone
    have hu : registerTypeOf r u = .ok (updateTypeOf r u) := by
      rw [registerTypeOf_eq_ok_iff]
      exact ⟨h.names.eq_none_iff.mpr hname,
        fun x hx => (h.numbers.eq_none_iff (k := x.extensionKey)).mpr (hnumber x hx), rfl⟩
    rw [List.foldlM_cons, hu]
    exact ih (h.update hone) hd

theorem Holds.distinct_of_register (h : Holds r ts) (hd : Distinct ts)
    (hok : us.foldlM registerTypeOf r = .ok r') :
    Distinct (ts ++ us) ∧ r' = us.foldl updateTypeOf r := by
  induction us generalizing r ts with
  | nil =>
    cases hok
    exact ⟨by rwa [List.append_nil], rfl⟩
  | cons u us ih =>
    rw [List.foldlM_cons] at hok
    obtain ⟨r₁, hu, hrest⟩ := except_bind_eq_ok.mp hok
    obtain ⟨hname, hnum, rfl⟩ := registerTypeOf_eq_ok_iff.mp hu
    have hone : Distinct (ts ++ [u]) := distinct_concat_iff.mpr ⟨hd, h.names.eq_none_iff.mp hname,
      fun x hx => (h.numbers.eq_none_iff (k := x.extensionKey)).mp (hnum x hx)⟩
    rw [List.append_cons]
    exact ih (h.update hone) hone hrest

/-! ## Taking a type out -/

theorem mem_extensions {x : FieldDescriptor} : x ∈ ts.filterMap (·.extension?) ↔ .extension x ∈ ts := by
  rw [List.mem_filterMap]
  constructor
  · rintro ⟨t, ht, hx⟩
    cases t with
    | extension y =>
      cases hx
      exact ht
    | _ => cases hx
  · exact fun hx => ⟨_, hx, rfl⟩

theorem exists_of_unregisterOfKind {n : FullName} {kind : TypeKind} (h : unregisterOfKind r n kind = .ok r') :
    ∃ t, r.typesByName.get n = some t ∧ t.kind = kind := by
  have hplain : ∀ kind, r.unregisterType kind n = .ok r' → ∃ t, r.typesByName.get n = some t ∧ t.kind = kind := by
    intro kind hok
    rw [unregisterType] at hok
    split at hok
    · next t hget =>
      split at hok
      · next hkind => exact ⟨t, hget, hkind⟩
      · cases hok
    · cases hok
  cases kind with
  | message => exact hplain _ h
  | enum => exact hplain _ h
  | extension =>
    rw [unregisterOfKind, unregisterExtension] at h
    split at h
    · next x hget => exact ⟨_, hget, rfl⟩
    · cases h

/-- The registry without one of its types. -/
structure Left (r : NamespacedTypes) (t : TypeDescriptor) (r' : NamespacedTypes) : Prop where
  types : r'.typesByName = r.typesByName.delete t.fullName
  numbers : ∀ m k, r'.extensionAt m k = if t.extensionKey = some (m, k) then none else r.extensionAt m k
  counts : ∀ kind, r'.num kind = r.num kind + if t.kind = kind then -1 else 0

theorem left_unregisterOfKind (hget : r.typesByName.get t.fullName = some t) :
    ∃ r', unregisterOfKind r t.fullName t.kind = .ok r' ∧ Left r t r' := by
  have hplain : r.unregisterType t.kind t.fullName = .ok ((r.deleteType t.fullName).count t.kind (-1)) := by
    rw [unregisterType, hget]
    exact if_pos rfl
  have htypes := typesByName_count (r.deleteType t.fullName) t.kind (-1)
  have hcounts := num_count (r.deleteType t.fullName) t.kind (-1)
  have hkept : ∀ kind, (r.deleteType t.fullName).num kind = r.num kind := by
    intro kind
    cases kind <;> rfl
  simp only [hkept] at hcounts
  cases t with
  | message m => exact ⟨_, hplain, htypes, fun _ _ => rfl, hcounts⟩
  | enum e => exact ⟨_, hplain, htypes, fun _ _ => rfl, hcounts⟩
  | extension x =>
    have hext : r.unregisterExtension x.fullName = .ok (((r.deleteType x.fullName).deleteExtension
        x.containingMessage x.number).count .extension (-1)) := by
      rw [TypeDescriptor.fullName] at hget
      rw [unregisterExtension, hget]
    refine ⟨_, hext, ?_, ?_, ?_⟩
    · rw [typesByName_count, typesByName_deleteExtension]
      rfl
    · intro m n
      rw [extensionAt_count, extensionAt_deleteExtension]
      exact if_congr (by rw [TypeDescriptor.extensionKey, Option.some.injEq]; exact eq_comm) rfl rfl
    · intro kind
      rw [num_count, num_deleteExtension]
      exact congrArg (· + _) (hkept kind)

/-- A type that is held is taken out, and nothing else. -/
theorem Holds.unregister (h : Holds r ts) (ht : t ∈ ts) :
    ∃ r', unregisterOfKind r t.fullName t.kind = .ok r' ∧ Holds r' (ts.filter (·.fullName ≠ t.fullName)) := by
  obtain ⟨r', hr', htypes, hnumbers, _⟩ := left_unregisterOfKind (h.names.get ht)
  have hnames : ∀ n, r'.typesByName.get n = if n = t.fullName then none else r.typesByName.get n := by
    intro n
    rw [htypes, Dict.get_delete]
  refine ⟨r', hr', h.names.remove hnames, ?_⟩
  cases hx : t.extension? with
  | none =>
    have hsame : (fun k : FullName × Nat => r'.extensionAt k.1 k.2) = fun k => r.extensionAt k.1 k.2 := by
      funext k
      rw [hnumbers, TypeDescriptor.extensionKey_eq, hx]
      rfl
    rw [hsame]
    apply h.numbers.congr
    intro y
    rw [mem_extensions, mem_extensions, List.mem_filter]
    refine ⟨fun hy => ⟨hy, decide_eq_true fun hname => ?_⟩, And.left⟩
    rw [← h.names.inj hy ht hname] at hx
    cases hx
  | some x =>
    cases t with
    | extension z =>
      cases hx
      have hlook : ∀ k : FullName × Nat,
          r'.extensionAt k.1 k.2 = if k = x.extensionKey then none else r.extensionAt k.1 k.2 := by
        intro k
        rw [hnumbers]
        exact if_congr (by rw [TypeDescriptor.extensionKey, Option.some.injEq]; exact eq_comm) rfl rfl
      have hremove := h.numbers.remove hlook
      apply hremove.congr
      intro y
      have hx := mem_extensions.mpr ht
      simp only [List.mem_filter, mem_extensions, decide_eq_true_eq]
      refine and_congr_right fun hy => not_congr ⟨fun hkey => ?_, fun hname => ?_⟩
      · rw [h.numbers.inj (mem_extensions.mpr hy) hx hkey]
      · cases h.names.inj hy ht hname
        rfl
    | _ => cases hx

end NamespacedTypes

end ProtoRegistry
