import ProtoRegistry.Model.Sample
import ProtoRegistry.Verify.TypesIndex

/-!
# Runs of a registry of types

The counts of a registry are right, and an extension is found by its number exactly when it is found by its
name, as long as no update puts a type in the place of one of another kind, moves an extension to another
number, or takes the number of another extension. The update methods check none of this.
-/

namespace ProtoRegistry.NamespacedTypes
open Client

/-! ## Calls -/

inductive TypesCall where
  | register (t : TypeDescriptor)
  | update (t : TypeDescriptor)
  | unregister (kind : TypeKind) (name : FullName)

/-- The nine writing methods, three for each kind. -/
def TypesCall.exec (r : NamespacedTypes) : TypesCall → Except RegistryErr NamespacedTypes
  | .register t => registerTypeOf r t
  | .update t => .ok (updateTypeOf r t)
  | .unregister kind name => unregisterOfKind r name kind

/-- What stands under the name of the type is of its kind, with its number; a new extension has a number
that is free. -/
structure InPlace (r : NamespacedTypes) (t : TypeDescriptor) : Prop where
  same : ∀ u, r.typesByName.get t.fullName = some u → u.kind = t.kind ∧ u.extensionKey = t.extensionKey
  free : r.typesByName.get t.fullName = none →
    ∀ x ∈ t.extension?, r.extensionAt x.containingMessage x.number = none

def TypesCall.InPlace (r : NamespacedTypes) : TypesCall → Prop
  | .update t => r.InPlace t
  | _ => True

/-- A state that calls lead to, all of whose updates are in place. -/
inductive Reached : NamespacedTypes → Prop where
  | new : Reached .new
  | call : Reached r → TypesCall.InPlace r c → c.exec r = .ok r' → Reached r'

/-! ## Counts and numbers -/

variable {r r' : NamespacedTypes} {t u : TypeDescriptor}

/-- The entries of a kind. -/
def entries (r : NamespacedTypes) (kind : TypeKind) : Nat := r.typesByName.values.countP (·.kind = kind)

structure Consistent (r : NamespacedTypes) : Prop where
  counts : ∀ kind, r.num kind = r.entries kind
  numbers : ∀ m k x, r.extensionAt m k = some x ↔
    r.typesByName.get x.fullName = some (.extension x) ∧ x.containingMessage = m ∧ x.number = k

theorem Consistent.new : Consistent .new where
  counts kind := by cases kind <;> rfl
  numbers m k x := by
    constructor
    · intro h
      cases h
    · intro ⟨h, _⟩
      cases h

theorem num_updateTypeOf (r : NamespacedTypes) (t : TypeDescriptor) (kind : TypeKind) :
    (updateTypeOf r t).num kind =
      r.num kind + if (r.typesByName.get t.fullName).isNone ∧ t.kind = kind then 1 else 0 := by
  have hupdate : (r.updateType t).num kind =
      r.num kind + if (r.typesByName.get t.fullName).isNone ∧ t.kind = kind then 1 else 0 := by
    have hset : (r.updateType t).num kind =
        (if (r.typesByName.get t.fullName).isNone then r.count t.kind 1 else r).num kind := by cases kind <;> rfl
    rw [hset]
    split
    · next hnone => simp only [num_count, hnone, true_and]
    · next hsome => simp [hsome]
  have hframe : (updateTypeOf r t).num kind = (r.updateType t).num kind := by
    cases t <;> cases kind <;> rfl
  rw [hframe, hupdate]

/-! ## Updating -/

theorem Consistent.counts_update (h : r.Consistent)
    (hsame : ∀ u, r.typesByName.get t.fullName = some u → u.kind = t.kind)
    (kind : TypeKind) : (updateTypeOf r t).num kind = (updateTypeOf r t).entries kind := by
  have hcount := h.counts kind
  rw [num_updateTypeOf, entries, typesByName_updateTypeOf]
  cases hget : r.typesByName.get t.fullName with
  | none =>
    rw [Dict.countP_values_set_new _ _ _ hget, hcount, entries]
    by_cases hkind : t.kind = kind <;> simp [hkind]
  | some u =>
    have hvalues := Dict.countP_values_set r.typesByName t (fun v => decide (v.kind = kind)) hget
    simp only [hsame u hget] at hvalues
    have heq : (r.typesByName.set t.fullName t).values.countP (fun v => decide (v.kind = kind)) =
        r.typesByName.values.countP fun v => decide (v.kind = kind) := by omega
    rw [heq, hcount, entries]
    simp

theorem Consistent.extensionAt (h : r.Consistent) (hx : r.typesByName.get n = some (.extension x)) :
    r.extensionAt x.containingMessage x.number = some x := by
  have hname : x.fullName = n := r.fullName_of_get hx
  exact (h.numbers _ _ x).mpr ⟨hname ▸ hx, rfl, rfl⟩

theorem Consistent.eq_of_number (h : r.Consistent) (hplace : r.InPlace (.extension y))
    (hx : r.extensionAt y.containingMessage y.number = some x) : x.fullName = y.fullName := by
  cases hget : r.typesByName.get y.fullName with
  | none =>
    rw [hplace.free hget y rfl] at hx
    cases hx
  | some u =>
    obtain ⟨hkind, hkey⟩ := hplace.same u hget
    cases u with
    | extension z =>
      have hz := h.extensionAt hget
      obtain ⟨hcm, hnum⟩ := Prod.mk.inj (Option.some.inj hkey)
      rw [hcm, hnum, hx] at hz
      cases hz
      exact r.fullName_of_get hget
    | _ => cases hkind

theorem Consistent.numbers_update (h : r.Consistent) (hplace : r.InPlace t) (m : FullName) (k : Nat)
    (x : FieldDescriptor) :
    (updateTypeOf r t).extensionAt m k = some x ↔
      (updateTypeOf r t).typesByName.get x.fullName = some (.extension x) ∧ x.containingMessage = m ∧ x.number = k := by
  rw [extensionAt_updateTypeOf, get_updateTypeOf]
  by_cases hkey : t.extensionKey = some (m, k)
  · cases t with
    | extension y =>
      obtain ⟨rfl, rfl⟩ := Prod.mk.inj (Option.some.inj hkey)
      rw [if_pos hkey, TypeDescriptor.extension?, TypeDescriptor.fullName]
      constructor
      · intro heq
        cases heq
        exact ⟨if_pos rfl, rfl, rfl⟩
      · intro hx
        obtain ⟨hget, hcm, hnum⟩ := hx
        split at hget
        · cases hget
          rfl
        · next hne =>
          have hx := (h.numbers _ _ x).mpr ⟨hget, hcm, hnum⟩
          exact absurd (h.eq_of_number hplace hx) hne
    | _ => cases hkey
  · rw [if_neg hkey, h.numbers]
    split
    · next hname =>
      -- the entry that is replaced has the number of the new one
      constructor
      · intro hx
        obtain ⟨hget, rfl, rfl⟩ := hx
        rw [hname] at hget
        exact absurd (hplace.same _ hget).2.symm hkey
      · intro hx
        obtain ⟨heq, rfl, rfl⟩ := hx
        cases heq
        exact absurd rfl hkey
    · rfl

/-- An update keeps the tables in step exactly when it is in place. -/
theorem Consistent.update_iff (h : r.Consistent) : (updateTypeOf r t).Consistent ↔ r.InPlace t := by
  constructor
  · intro h'
    refine ⟨fun u hget => ?_, fun hget x hx => ?_⟩
    · have hkind : u.kind = t.kind := by
        have hvalues := Dict.countP_values_set r.typesByName t (fun v => decide (v.kind = t.kind)) hget
        have hcount := h'.counts t.kind
        rw [num_updateTypeOf, h.counts, hget, entries, entries, typesByName_updateTypeOf] at hcount
        by_contra hne
        simp [hne] at hvalues hcount
        omega
      refine ⟨hkind, ?_⟩
      by_contra hkey
      cases u with
      | extension z =>
        have hname : z.fullName = t.fullName := r.fullName_of_get hget
        have hold : (updateTypeOf r t).extensionAt z.containingMessage z.number = some z := by
          rw [extensionAt_updateTypeOf, if_neg fun heq => hkey heq.symm, h.extensionAt hget]
        have hnew := ((h'.numbers _ _ z).mp hold).1
        rw [get_updateTypeOf, if_pos hname] at hnew
        cases hnew
        exact hkey rfl
      | message _ => cases t <;> simp_all [TypeDescriptor.kind, TypeDescriptor.extensionKey]
      | enum _ => cases t <;> simp_all [TypeDescriptor.kind, TypeDescriptor.extensionKey]
    · cases t with
      | extension y =>
        cases hx
        by_contra hne
        obtain ⟨z, hz⟩ := Option.ne_none_iff_exists'.mp hne
        obtain ⟨hzget, hcm, hnum⟩ := (h.numbers _ _ z).mp hz
        have hname : z.fullName ≠ x.fullName := by
          intro heq
          rw [heq] at hzget
          rw [TypeDescriptor.fullName] at hget
          rw [hget] at hzget
          cases hzget
        have hold : (updateTypeOf r (.extension x)).extensionAt x.containingMessage x.number = some z :=
          (h'.numbers _ _ z).mpr ⟨by rw [get_updateTypeOf, TypeDescriptor.fullName, if_neg hname, hzget], hcm, hnum⟩
        rw [extensionAt_updateTypeOf, if_pos (by rfl)] at hold
        cases hold
        exact hname rfl
      | _ => cases hx
  · exact fun hplace => ⟨h.counts_update fun u hget => (hplace.same u hget).1, h.numbers_update hplace⟩

/-! ## Runs -/

theorem Consistent.register (h : r.Consistent) (hexec : registerTypeOf r t = .ok r') : r'.Consistent := by
  obtain ⟨hnew, hfree, rfl⟩ := registerTypeOf_eq_ok_iff.mp hexec
  refine h.update_iff.mpr ⟨fun u hget => ?_, fun _ => hfree⟩
  rw [hnew] at hget
  cases hget

theorem Consistent.unregister (h : r.Consistent) (hexec : unregisterOfKind r n kind = .ok r') : r'.Consistent := by
  obtain ⟨t, hget, hkind⟩ := exists_of_unregisterOfKind hexec
  obtain rfl : t.fullName = n := r.fullName_of_get hget
  subst hkind
  obtain ⟨_, hok, hleft⟩ := left_unregisterOfKind hget
  rw [hexec] at hok
  cases hok
  refine ⟨fun kind => ?_, fun m k x => ?_⟩
  · have hvalues := Dict.countP_values_delete r.typesByName (fun v => decide (v.kind = kind)) hget
    rw [hleft.counts, h.counts, entries, entries, hleft.types]
    by_cases hkind : t.kind = kind
    · simp only [hkind, decide_true, Bool.toNat_true, if_true] at hvalues ⊢
      omega
    · simp only [hkind, decide_false, Bool.toNat_false, if_false] at hvalues ⊢
      omega
  · rw [hleft.numbers, hleft.types, Dict.get_delete]
    by_cases hkey : t.extensionKey = some (m, k)
    · -- the number goes with the only name that has it
      rw [if_pos hkey]
      refine iff_of_false (by simp) fun ⟨hx, hcm, hnum⟩ => ?_
      split at hx
      · cases hx
      · next hne =>
        cases t with
        | extension y =>
          obtain ⟨rfl, rfl⟩ := Prod.mk.inj (Option.some.inj hkey)
          have hy := h.extensionAt hget
          rw [(h.numbers _ _ x).mpr ⟨hx, hcm, hnum⟩] at hy
          cases hy
          exact hne rfl
        | _ => cases hkey
    · rw [if_neg hkey, h.numbers]
      split
      · next hname =>
        refine iff_of_false (fun ⟨hx, hcm, hnum⟩ => hkey ?_) (by simp)
        rw [hname, hget] at hx
        cases hx
        rw [← hcm, ← hnum]
        rfl
      · rfl

theorem Consistent.exec (h : r.Consistent) (hplace : TypesCall.InPlace r c) (hexec : c.exec r = .ok r') :
    r'.Consistent := by
  cases c with
  | register t => exact h.register hexec
  | update t =>
    cases hexec
    exact h.update_iff.mpr hplace
  | unregister kind name => exact h.unregister hexec

theorem Reached.consistent (h : Reached r) : r.Consistent := by
  induction h with
  | new => exact .new
  | call _ hplace hexec ih => exact ih.exec hplace hexec

theorem findExtensionByNumber_local (r : NamespacedTypes) :
    (TypesChain.node r .nil).findExtensionByNumber m k = .ok x ↔ r.extensionAt m k = some x := by
  rw [TypesChain.findExtensionByNumber]
  cases r.extensionAt m k <;> simp [TypesChain.findExtensionByNumber]

theorem findExtensionByName_local (r : NamespacedTypes) :
    (TypesChain.node r .nil).findExtensionByName n = .ok x ↔ r.typesByName.get n = some (.extension x) := by
  rw [TypesChain.findExtensionByName, TypesChain.findByName, TypesChain.typeByName,
    TypesChain.typeByName, Option.or_none]
  cases r.typesByName.get n with
  | none => simp
  | some t => cases t <;> simp

/-- In a run whose updates are all in place the counts are right, and the two lookups of an extension agree.
The first update that is not in place ends this. -/
theorem reached_lookups_agree (h : Reached r) :
    r.Consistent ∧
      (∀ m k x, (TypesChain.node r .nil).findExtensionByNumber m k = .ok x ↔
        (TypesChain.node r .nil).findExtensionByName x.fullName = .ok x ∧ x.containingMessage = m ∧ x.number = k) ∧
      ∀ t, (updateTypeOf r t).Consistent ↔ r.InPlace t := by
  refine ⟨h.consistent, fun m k x => ?_, fun t => h.consistent.update_iff⟩
  rw [findExtensionByNumber_local, findExtensionByName_local]
  exact h.consistent.numbers m k x

def sampleEnum : EnumDescriptor := ⟨Sample.extension.fullName, []⟩

/-- Two extensions of a message, of which one is replaced, and an enum. -/
theorem reached_lookups_agree_extensions :
    let x : FieldDescriptor := { Sample.extension with fullName := ["p", "f"], number := 101 }
    let r := [.extension x, .enum ⟨["p", "E"], []⟩, .extension Sample.extension,
      .extension { x with kind := .bool }].foldl
      updateTypeOf .new
    Reached r ∧ (TypesChain.node r .nil).findExtensionByNumber ["p", "M"] 100 = .ok Sample.extension ∧
      (TypesChain.node r .nil).findExtensionByNumber ["p", "M"] 101 = .ok { x with kind := .bool } := by
  intro x r
  have hnew : ∀ {r : NamespacedTypes} {t}, Reached r → r.typesByName.get t.fullName = none →
      (∀ x ∈ t.extension?, r.extensionAt x.containingMessage x.number = none) → Reached (updateTypeOf r t) :=
    fun hr hname hfree => .call (c := .update _) hr ⟨fun u hu => (by rw [hname] at hu; cases hu), fun _ => hfree⟩ rfl
  have hthree := hnew (t := .extension Sample.extension) (hnew (t := .enum ⟨["p", "E"], []⟩)
    (hnew (t := .extension x) .new rfl fun _ _ => rfl) rfl nofun) rfl fun y hy => by cases hy; rfl
  have hreached : Reached r := .call (c := .update (.extension { x with kind := .bool })) hthree
    ⟨fun u hu => by cases hu; exact ⟨rfl, rfl⟩, nofun⟩ rfl
  exact ⟨hreached, ((reached_lookups_agree hreached).2.1 _ _ _).mpr ⟨rfl, rfl, rfl⟩,
    ((reached_lookups_agree hreached).2.1 _ _ _).mpr ⟨rfl, rfl, rfl⟩⟩

/-- An enum that takes the name of an extension leaves it in the count, and under its number. -/
theorem updated_extension_left :
    ∃ r r', (TypesCall.update (.extension Sample.extension)).exec .new = .ok r ∧
      (TypesCall.update (.enum sampleEnum)).exec r = .ok r' ∧
      (r'.num .extension = 1 ∧ r'.entries .extension = 0) ∧ (r'.num .enum = 0 ∧ r'.entries .enum = 1) ∧
      r'.extensionAt ["p", "M"] 100 = some Sample.extension ∧ ¬ r'.Consistent := by
  refine ⟨_, _, rfl, rfl, ⟨rfl, rfl⟩, ⟨rfl, rfl⟩, rfl, fun h => ?_⟩
  cases h.counts .extension

end ProtoRegistry.NamespacedTypes
