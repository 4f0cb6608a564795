import ProtoRegistry.Model.Client
import ProtoRegistry.Theory.Indexed

/-!
# The entries of a registry of files

What the steps of `RegisterFile`, `UpdateFile` and `UnregisterFile` do to the entries under names and under
paths.
-/

namespace ProtoRegistry

/-! ## Names and the packages around them -/

theorem FullName.mem_chain {m n : FullName} : m ∈ n.chain ↔ m ≠ [] ∧ ∃ t, m ++ t = n := by
  induction n using List.reverseRecOn with
  | nil =>
    rw [chain_nil]
    constructor
    · intro h
      cases h
    · rintro ⟨hne, t, ht⟩
      exact absurd (List.append_eq_nil_iff.mp ht).1 hne
  | append_singleton n s ih =>
    rw [chain_concat, List.mem_cons, ih]
    constructor
    · rintro (rfl | ⟨hne, t, rfl⟩)
      · exact ⟨by simp, [], List.append_nil _⟩
      · exact ⟨hne, t ++ [s], (List.append_assoc ..).symm⟩
    · rintro ⟨hne, t, ht⟩
      cases t using List.reverseRecOn with
      | nil => exact .inl (by rw [← ht, List.append_nil])
      | append_singleton t x =>
        rw [← List.append_assoc] at ht
        exact .inr ⟨hne, t, (List.append_inj' ht rfl).1⟩

theorem FullName.mem_chain_self (h : n ≠ []) : n ∈ FullName.chain n :=
  mem_chain.mpr ⟨h, [], List.append_nil _⟩

theorem FullName.exists_child_mem_chain {m n : FullName} (h : m ∈ n.chain) (hne : m ≠ n) :
    ∃ s, m ++ [s] ∈ n.chain := by
  obtain ⟨_, t, ht⟩ := mem_chain.mp h
  cases t with
  | nil => exact absurd (by rw [← ht, List.append_nil]) hne
  | cons s t => exact ⟨s, mem_chain.mpr ⟨by simp, t, by rw [← ht, ← List.append_cons]⟩⟩

theorem FullName.chain_trans {k m n : FullName} (h : k ∈ m.chain) (h' : m ∈ n.chain) : k ∈ n.chain := by
  obtain ⟨hne, t, rfl⟩ := mem_chain.mp h
  obtain ⟨_, t', rfl⟩ := mem_chain.mp h'
  exact mem_chain.mpr ⟨hne, t ++ t', (List.append_assoc ..).symm⟩

theorem FileDescriptor.mem_packageNames {fd : FileDescriptor} :
    n ∈ fd.packageNames ↔ n ∈ fd.package.chain ∨ n = [] := by
  rw [packageNames, List.mem_append, List.mem_singleton]

theorem FileDescriptor.package_mem_packageNames (fd : FileDescriptor) : fd.package ∈ fd.packageNames := by
  rw [mem_packageNames]
  cases hp : fd.package with
  | nil => exact .inr rfl
  | cons s t => exact .inl (FullName.mem_chain_self (by simp))

def NamedEntry.descriptor? : NamedEntry → Option Descriptor
  | .descriptor d => some d
  | .package _ => none

def NamedEntry.package? : NamedEntry → Option (List FileDescriptor)
  | .package files => some files
  | .descriptor _ => none

namespace NamespacedFiles

variable {r : NamespacedFiles} {files : List FileDescriptor} {f : FileDescriptor}

/-! ## The two kinds of entries -/

def descriptorAt (r : NamespacedFiles) (n : FullName) : Option Descriptor :=
  (r.descsByName.get n).bind (·.descriptor?)

def packageAt (r : NamespacedFiles) (n : FullName) : Option (List FileDescriptor) :=
  (r.descsByName.get n).bind (·.package?)

theorem descriptorAt_eq_some : r.descriptorAt n = some d ↔ r.descsByName.get n = some (.descriptor d) := by
  rw [descriptorAt]
  rcases r.descsByName.get n with _ | (fs | d) <;> simp [NamedEntry.descriptor?]

theorem packageAt_eq_some : r.packageAt n = some fs ↔ r.descsByName.get n = some (.package fs) := by
  rw [packageAt]
  rcases r.descsByName.get n with _ | (fs | d) <;> simp [NamedEntry.package?]

theorem get_eq_none_iff : r.descsByName.get n = none ↔ r.descriptorAt n = none ∧ r.packageAt n = none := by
  rw [descriptorAt, packageAt]
  rcases r.descsByName.get n with _ | (fs | d) <;> simp [NamedEntry.descriptor?, NamedEntry.package?]

theorem at_setPackage (r : NamespacedFiles) (n : FullName) (fs : List FileDescriptor) (m : FullName) :
    (r.setPackage n fs).descriptorAt m = (if m = n then none else r.descriptorAt m) ∧
      (r.setPackage n fs).packageAt m = if m = n then some fs else r.packageAt m := by
  simp only [descriptorAt, packageAt, setPackage, Dict.get_set]
  split <;> exact ⟨rfl, rfl⟩

theorem at_setDescriptor (r : NamespacedFiles) (d : Descriptor) (m : FullName) :
    (r.setDescriptor d).descriptorAt m = (if m = d.fullName then some d else r.descriptorAt m) ∧
      (r.setDescriptor d).packageAt m = if m = d.fullName then none else r.packageAt m := by
  simp only [descriptorAt, packageAt, setDescriptor, Dict.get_set]
  split <;> exact ⟨rfl, rfl⟩

theorem get_foldl_deleteName (r : NamespacedFiles) (ns : List FullName) (m : FullName) :
    (ns.foldl deleteName r).descsByName.get m = if m ∈ ns then none else r.descsByName.get m := by
  induction ns generalizing r with
  | nil => simp
  | cons n ns ih =>
    rw [List.foldl_cons, ih, deleteName, Dict.get_delete]
    simp only [List.mem_cons]
    split <;> split <;> simp_all

theorem at_foldl_deleteName (r : NamespacedFiles) (ns : List FullName) (m : FullName) :
    (ns.foldl deleteName r).descriptorAt m = (if m ∈ ns then none else r.descriptorAt m) ∧
      (ns.foldl deleteName r).packageAt m = if m ∈ ns then none else r.packageAt m := by
  simp only [descriptorAt, packageAt, get_foldl_deleteName]
  split <;> exact ⟨rfl, rfl⟩

theorem packageAt_foldl_setDescriptor (r : NamespacedFiles) (ds : List Descriptor) (m : FullName) :
    (ds.foldl setDescriptor r).packageAt m =
      if m ∈ ds.map (·.fullName) then none else r.packageAt m := by
  induction ds generalizing r with
  | nil => simp
  | cons d ds ih =>
    rw [List.foldl_cons, ih, (at_setDescriptor r d m).2]
    simp only [List.map_cons, List.mem_cons]
    split <;> split <;> simp_all

theorem descriptorAt_foldl_setDescriptor {r : NamespacedFiles} {ds : List Descriptor}
    (hnd : (ds.map (·.fullName)).Nodup) :
    (ds.foldl setDescriptor r).descriptorAt m = some d ↔
      (d ∈ ds ∧ d.fullName = m) ∨ m ∉ ds.map (·.fullName) ∧ r.descriptorAt m = some d := by
  induction ds generalizing r with
  | nil => simp
  | cons e ds ih =>
    rw [List.map_cons, List.nodup_cons] at hnd
    rw [List.foldl_cons, ih hnd.2, (at_setDescriptor r e m).1]
    simp only [List.map_cons, List.mem_cons]
    split
    · next hm =>
      subst hm
      simp only [hnd.1, Option.some.injEq, true_or, not_true_eq_false]
      constructor
      · rintro (⟨hd, hname⟩ | ⟨_, rfl⟩)
        · exact absurd (List.mem_map.mpr ⟨d, hd, hname⟩) hnd.1
        · exact .inl ⟨.inl rfl, rfl⟩
      · rintro (⟨rfl | hd, hname⟩ | ⟨hfalse, _⟩)
        · exact .inr ⟨not_false, rfl⟩
        · exact absurd (List.mem_map.mpr ⟨d, hd, hname⟩) hnd.1
        · exact hfalse.elim
    · next hm =>
      constructor
      · rintro (⟨hd, hname⟩ | ⟨hnot, hget⟩)
        · exact .inl ⟨.inr hd, hname⟩
        · exact .inr ⟨fun hor => hor.elim hm hnot, hget⟩
      · rintro (⟨rfl | hd, hname⟩ | ⟨hnot, hget⟩)
        · exact absurd hname.symm hm
        · exact .inl ⟨hd, hname⟩
        · exact .inr ⟨fun h => hnot (.inr h), hget⟩

theorem get_ensurePackages (r : NamespacedFiles) (ns : List FullName) (m : FullName) :
    (r.ensurePackages ns).descsByName.get m =
      (r.descsByName.get m).or (if m ∈ ns then some (.package []) else none) := by
  induction ns generalizing r with
  | nil => simp [ensurePackages]
  | cons n ns ih =>
    have hstep : r.ensurePackages (n :: ns) =
        (if (r.descsByName.get n).isNone then r.setPackage n [] else r).ensurePackages ns := rfl
    rw [hstep, ih]
    split
    · next hnone =>
      rw [Option.isNone_iff_eq_none] at hnone
      rw [setPackage, Dict.get_set]
      split
      · next hm => simp [hm, hnone]
      · next hm => simp [hm]
    · next hsome =>
      rw [Option.isNone_iff_eq_none] at hsome
      cases hm : r.descsByName.get m with
      | some e => rfl
      | none =>
        have hne : m ≠ n := fun h => hsome (h ▸ hm)
        simp [hne]

/-! ## Paths -/

/-- The registries hold the same files under the same paths. -/
structure SameFiles (r r' : NamespacedFiles) : Prop where
  filesByPath : r'.filesByPath = r.filesByPath
  fileDescs : r'.fileDescs = r.fileDescs
  numFiles : r'.numFiles = r.numFiles

theorem SameFiles.trans {r₁ r₂ r₃ : NamespacedFiles} (h : SameFiles r₁ r₂) (h' : SameFiles r₂ r₃) :
    SameFiles r₁ r₃ :=
  ⟨h'.filesByPath.trans h.filesByPath, h'.fileDescs.trans h.fileDescs, h'.numFiles.trans h.numFiles⟩

theorem sameFiles_foldl {step : NamespacedFiles → α → NamespacedFiles}
    (hstep : ∀ r a, SameFiles r (step r a)) (r : NamespacedFiles) (l : List α) :
    SameFiles r (l.foldl step r) := by
  induction l generalizing r with
  | nil => exact ⟨rfl, rfl, rfl⟩
  | cons a l ih => exact (hstep r a).trans (ih _)

theorem sameFiles_ensurePackages (r : NamespacedFiles) (ns : List FullName) :
    SameFiles r (r.ensurePackages ns) := by
  apply sameFiles_foldl
  intro r n
  split <;> exact ⟨rfl, rfl, rfl⟩

theorem sameFiles_cleanup (r : NamespacedFiles) (ns : List FullName) : SameFiles r (r.cleanup ns) := by
  induction ns generalizing r with
  | nil => exact ⟨rfl, rfl, rfl⟩
  | cons n ns ih =>
    rw [cleanup]
    split
    · have hdel : SameFiles r (r.deleteName n) := ⟨rfl, rfl, rfl⟩
      exact hdel.trans (ih _)
    · exact ⟨rfl, rfl, rfl⟩

def fileAt (r : NamespacedFiles) (p : String) : Option FileDescriptor := (r.filesByPath.get p).bind List.head?

theorem get_filesByPath (r : NamespacedFiles) (p : String) :
    r.filesByPath.get p = (r.fileAt p).map ([·]) := by
  rw [fileAt]
  cases hp : r.filesByPath.get p with
  | none => rfl
  | some fds =>
    obtain ⟨f, rfl, _⟩ := r.singleton_of_get hp
    rfl

/-- The registry holds the files, in this order, each under its path. -/
structure Stores (r : NamespacedFiles) (files : List FileDescriptor) : Prop where
  keys : r.filesByPath.keys = files.map (·.path)
  paths : Indexes r.fileAt (·.path) files

theorem Stores.rangeFiles (h : Stores r files) : r.rangeFiles = files := by
  have hget : ∀ f ∈ files, r.filesByPath.get f.path = some [f] := by
    intro f hf
    rw [get_filesByPath, h.paths.get hf]
    rfl
  rw [NamespacedFiles.rangeFiles, Dict.values, h.keys, List.filterMap_map]
  have hsingle : files.filterMap (r.filesByPath.get ∘ (·.path)) = files.map ([·]) := by
    rw [← List.filterMap_eq_map]
    exact List.filterMap_congr hget
  rw [hsingle, ← List.flatMap_def, List.flatMap_singleton']

theorem Stores.new : Stores .new [] := ⟨rfl, Indexes.nil⟩

theorem Stores.of_sameFiles {r' : NamespacedFiles} (h : Stores r files) (hsame : SameFiles r r') :
    Stores r' files := by
  constructor
  · rw [hsame.filesByPath]
    exact h.keys
  · have hat : r'.fileAt = r.fileAt := by
      funext p
      rw [fileAt, hsame.filesByPath, fileAt]
    rw [hat]
    exact h.paths

theorem Stores.setFile (h : Stores r files) (hfree : f.path ∉ files.map (·.path)) :
    Stores (r.setFile f) (files ++ [f]) := by
  constructor
  · have hkey : f.path ∉ r.filesByPath.keys := h.keys ▸ hfree
    rw [List.map_append, ← h.keys]
    exact if_neg hkey
  · apply h.paths.add hfree
    intro p
    rw [fileAt, NamespacedFiles.setFile, Dict.get_set]
    split <;> rfl

theorem Stores.deleteFile (h : Stores r files) (p : String) :
    Stores (r.deleteFile p) (files.filter (·.path ≠ p)) := by
  constructor
  · change r.filesByPath.keys.filter (· ≠ p) = _
    rw [h.keys, List.filter_map]
    rfl
  · apply h.paths.remove (p := (· = p))
    intro q
    rw [fileAt, NamespacedFiles.deleteFile, Dict.get_delete]
    split <;> rfl

/-! ## Packages -/

theorem get_cleanup (r : NamespacedFiles) (ns : List FullName) (m : FullName) :
    (r.cleanup ns).descsByName.get m = r.descsByName.get m ∨
      m ∈ ns ∧ r.packageAt m = some [] ∧ (r.cleanup ns).descsByName.get m = none := by
  induction ns generalizing r with
  | nil => exact .inl rfl
  | cons n ns ih =>
    rw [cleanup]
    split
    · next hempty =>
      by_cases hm : m = n
      · subst hm
        refine .inr ⟨List.mem_cons_self .., packageAt_eq_some.mpr hempty, ?_⟩
        have hdel : (r.deleteName m).descsByName.get m = none := Dict.get_delete_self _ _
        obtain h | h := ih (r.deleteName m)
        · rw [h, hdel]
        · exact h.2.2
      · have hsame : (r.deleteName n).descsByName.get m = r.descsByName.get m := Dict.get_delete_of_ne _ hm
        obtain h | ⟨hmem, hat, hnone⟩ := ih (r.deleteName n)
        · exact .inl (h.trans hsame)
        · exact .inr ⟨List.mem_cons_of_mem _ hmem, by rwa [packageAt, hsame] at hat, hnone⟩
    · exact .inl rfl

theorem descriptorAt_cleanup (r : NamespacedFiles) (ns : List FullName) (m : FullName) :
    (r.cleanup ns).descriptorAt m = r.descriptorAt m := by
  obtain h | ⟨_, hat, hnone⟩ := r.get_cleanup ns m
  · rw [descriptorAt, h, descriptorAt]
  · rw [descriptorAt, hnone, descriptorAt, packageAt_eq_some.mp hat]
    rfl

theorem packageAt_cleanup (r : NamespacedFiles) (ns : List FullName) (m : FullName) :
    (r.cleanup ns).packageAt m = r.packageAt m ∨
      m ∈ ns ∧ r.packageAt m = some [] ∧ (r.cleanup ns).packageAt m = none := by
  obtain h | ⟨hmem, hat, hnone⟩ := r.get_cleanup ns m
  · exact .inl (by rw [packageAt, h, packageAt])
  · exact .inr ⟨hmem, hat, by rw [packageAt, hnone]; rfl⟩

/-- A package is the root, has files of its own, or has a package right below it. -/
def Rooted (r : NamespacedFiles) (n : FullName) : Prop :=
  (r.packageAt n).isSome → n = [] ∨ r.packageAt n ≠ some [] ∨ ∃ s, (r.packageAt (n ++ [s])).isSome

/-- The cleanup starts at the only package that may have become empty. A package it removes may have
been what kept the one around it, which is the next to be looked at. -/
theorem rooted_cleanup (h : ∀ m ≠ n, r.Rooted m) (m : FullName) : (r.cleanup n.chain).Rooted m := by
  induction n using List.reverseRecOn generalizing r with
  | nil =>
    intro hm
    by_cases hnil : m = []
    · exact .inl hnil
    · exact h m hnil hm
  | append_singleton n s ih =>
    rw [FullName.chain_concat, cleanup]
    split
    · apply ih
      intro m hm hsome
      by_cases heq : m = n ++ [s]
      · rw [packageAt, heq] at hsome
        change (Option.bind ((r.descsByName.delete (n ++ [s])).get (n ++ [s])) _).isSome at hsome
        rw [Dict.get_delete_self] at hsome
        cases hsome
      · have hother : ∀ k ≠ n ++ [s], (r.deleteName (n ++ [s])).packageAt k = r.packageAt k := by
          intro k hk
          change Option.bind ((r.descsByName.delete (n ++ [s])).get k) _ = _
          rw [Dict.get_delete_of_ne _ hk, packageAt]
        rw [hother m heq] at hsome ⊢
        obtain hnil | hfull | ⟨x, hx⟩ := h m heq hsome
        · exact .inl hnil
        · exact .inr (.inl hfull)
        · have hne : m ++ [x] ≠ n ++ [s] := fun heq => hm (List.append_inj' heq rfl).1
          exact .inr (.inr ⟨x, by rwa [hother _ hne]⟩)
    · next hnot =>
      by_cases heq : m = n ++ [s]
      · intro _
        refine .inr (.inl fun hempty => ?_)
        rw [heq, packageAt_eq_some] at hempty
        exact hnot hempty
      · exact h m heq

end NamespacedFiles

end ProtoRegistry
