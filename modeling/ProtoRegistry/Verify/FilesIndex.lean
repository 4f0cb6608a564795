import ProtoRegistry.Verify.FilesEntries

/-!
# What a registry of files holds

Files that can be registered together are found by their paths and by the names at their top level,
whatever the order in which they were added and whatever was removed between. The packages are less
regular: removing the last file of a package also removes the packages around it that have no file
themselves, even when other packages below those remain. No lookup can tell the difference.
-/

namespace ProtoRegistry

/-- The names at the top level of a file are all different, and none is one of its packages. -/
structure FileDescriptor.WellNamed (f : FileDescriptor) : Prop where
  nodup : f.topLevelNames.Nodup
  apart : ∀ n ∈ f.topLevelNames, n ∉ f.packageNames

instance (f : FileDescriptor) : Decidable f.WellNamed :=
  decidable_of_iff (f.topLevelNames.Nodup ∧ ∀ n ∈ f.topLevelNames, n ∉ f.packageNames)
    ⟨fun ⟨h₁, h₂⟩ => ⟨h₁, h₂⟩, fun h => ⟨h.nodup, h.apart⟩⟩

/-- The files do not stand in each other's way in an index: they differ in their paths and in the names at
their top level, and none of these names is a package of one of them. -/
structure Coexist (files : List FileDescriptor) : Prop where
  paths : (files.map (·.path)).Nodup
  topLevel : (files.flatMap (·.topLevelNames)).Nodup
  packages : ∀ f ∈ files, ∀ n ∈ f.packageNames, ∀ g ∈ files, n ∉ g.topLevelNames

namespace Coexist

variable {files files' : List FileDescriptor}

theorem sublist (h : Coexist files) (hsub : List.Sublist files' files) : Coexist files' where
  paths := h.paths.sublist (hsub.map _)
  topLevel := h.topLevel.sublist (hsub.flatMap _)
  packages f hf n hn g hg := h.packages f (hsub.subset hf) n hn g (hsub.subset hg)

theorem perm (h : Coexist files) (hperm : files.Perm files') : Coexist files' where
  paths := (hperm.map _).nodup_iff.mp h.paths
  topLevel := (hperm.flatMap_right _).nodup_iff.mp h.topLevel
  packages f hf n hn g hg := h.packages f (hperm.mem_iff.mpr hf) n hn g (hperm.mem_iff.mpr hg)

theorem path_not_mem (h : Coexist (files ++ [f])) : f.path ∉ files.map (·.path) := by
  have hnd := h.paths
  rw [List.map_append] at hnd
  intro hmem
  exact (List.nodup_append.mp hnd).2.2 _ hmem _ (by simp) rfl

end Coexist

theorem Registrable.coexist (h : Registrable files) : Coexist files :=
  ⟨h.paths, h.topLevelNames_nodup, h.packages⟩

namespace NamespacedFiles

variable {r : NamespacedFiles} {files : List FileDescriptor} {f : FileDescriptor}

/-! ## The index -/

/-- The files are there, each under its path and in its package. Which empty packages there are is left
open. -/
structure Tables (r : NamespacedFiles) (files : List FileDescriptor) : Prop where
  stores : Stores r files
  records : ∀ p rec, r.fileDescs.get p = some rec ↔
    ∃ f ∈ files, f.path = p ∧ rec = ⟨f.package, f.topLevelNames⟩
  packages : ∀ n fs, r.packageAt n = some fs → fs.Perm (files.filter (·.package = n))
  present : ∀ f ∈ files, (r.packageAt f.package).isSome
  root : (r.packageAt []).isSome

/-- The descriptors are those of the files, too. -/
structure Indexed (r : NamespacedFiles) (files : List FileDescriptor) : Prop extends Tables r files where
  descriptors : Indexes r.descriptorAt (·.fullName) (files.flatMap (·.topLevel))

/-- The registry holds exactly the files, and a package for a reason only. -/
structure Holds (r : NamespacedFiles) (files : List FileDescriptor) : Prop extends Indexed r files where
  rooted : ∀ n, r.Rooted n

theorem at_new (n : FullName) :
    new.descriptorAt n = none ∧ new.packageAt n = if n = [] then some [] else none := by
  simp only [descriptorAt, packageAt, new, Dict.get_set]
  split <;> exact ⟨rfl, rfl⟩

theorem Holds.new : Holds .new [] where
  stores := .new
  records p rec := by
    constructor
    · intro h
      cases h
    · rintro ⟨_, hf, _⟩
      cases hf
  descriptors n d := by simp [(at_new n).1]
  packages n fs h := by
    rw [(at_new n).2] at h
    split at h
    · cases h
      exact List.Perm.refl _
    · cases h
  present f hf := by cases hf
  root := rfl
  rooted n hn := by
    rw [(at_new n).2] at hn
    split at hn
    · exact .inl ‹_›
    · cases hn

theorem Tables.filter_eq_nil (h : Tables r files) (hn : r.packageAt n = none) :
    files.filter (·.package = n) = [] := by
  rw [List.filter_eq_nil_iff]
  intro g hg hgn
  have hsome := h.present g hg
  rw [of_decide_eq_true hgn, hn] at hsome
  cases hsome

theorem exists_length_bound (l : List (List α)) : ∃ bound, ∀ m ∈ l, m.length ≤ bound := by
  induction l with
  | nil => exact ⟨0, fun m hm => by cases hm⟩
  | cons n l ih =>
    obtain ⟨bound, hbound⟩ := ih
    refine ⟨max n.length bound, fun m hm => ?_⟩
    obtain rfl | hm := List.mem_cons.mp hm
    · exact Nat.le_max_left _ _
    · exact (hbound m hm).trans (Nat.le_max_right _ _)

theorem Holds.exists_of_package (h : Holds r files) (hn : (r.packageAt n).isSome)
    (hfull : r.packageAt n ≠ some []) : ∃ f ∈ files, f.package = n := by
  obtain ⟨fs, hfs⟩ := Option.isSome_iff_exists.mp hn
  cases fs with
  | nil => exact absurd hfs hfull
  | cons f fs =>
    have hf := (h.packages n _ hfs).mem_iff.mp (List.mem_cons_self ..)
    rw [List.mem_filter, decide_eq_true_eq] at hf
    exact ⟨f, hf⟩

theorem Holds.mem_of_full (h : Holds r files) (hn : (r.packageAt n).isSome)
    (hfull : r.packageAt n ≠ some []) : n = [] ∨ ∃ f ∈ files, n ∈ f.package.chain := by
  obtain ⟨f, hf, rfl⟩ := h.exists_of_package hn hfull
  by_cases hne : f.package = []
  · exact .inl hne
  · exact .inr ⟨f, hf, FullName.mem_chain_self hne⟩

theorem Holds.package_mem (h : Holds r files) (hn : (r.packageAt n).isSome) :
    n = [] ∨ ∃ f ∈ files, n ∈ f.package.chain := by
  obtain ⟨bound, hbound⟩ := exists_length_bound r.descsByName.keys
  have hlength : ∀ m, (r.packageAt m).isSome → m.length ≤ bound := by
    intro m hm
    obtain ⟨fs, hfs⟩ := Option.isSome_iff_exists.mp hm
    exact hbound m (Dict.mem_keys_of_get (packageAt_eq_some.mp hfs))
  induction hk : bound - n.length using Nat.strong_induction_on generalizing n with
  | _ k ih =>
    obtain hnil | hfull | ⟨s, hs⟩ := h.rooted n hn
    · exact .inl hnil
    · exact h.mem_of_full hn hfull
    · have hle := hlength _ hs
      rw [List.length_append, List.length_singleton] at hle
      obtain hnil | ⟨f, hf, hchain⟩ := ih (bound - (n ++ [s]).length)
        (by rw [List.length_append, List.length_singleton]; omega) hs rfl
      · simp at hnil
      · by_cases hne : n = []
        · exact .inl hne
        · exact .inr ⟨f, hf, FullName.chain_trans (FullName.mem_chain.mpr ⟨hne, [s], rfl⟩) hchain⟩

theorem Holds.not_topLevel {files' : List FileDescriptor} (h : Holds r files) (hco : Coexist files')
    (hsub : files ⊆ files') (hg : g ∈ files') (hn : (r.packageAt n).isSome) : n ∉ g.topLevelNames := by
  obtain rfl | ⟨f, hf, hchain⟩ := h.package_mem hn
  · exact hco.packages g hg [] (FileDescriptor.mem_packageNames.mpr (.inr rfl)) g hg
  · exact hco.packages f (hsub hf) n (FileDescriptor.mem_packageNames.mpr (.inl hchain)) g hg

theorem Holds.descriptorAt_eq_none (h : Holds r files) (hn : ∀ g ∈ files, n ∉ g.topLevelNames) :
    r.descriptorAt n = none := by
  rw [h.descriptors.eq_none_iff, List.mem_map]
  rintro ⟨d, hd, rfl⟩
  obtain ⟨g, hg, hdg⟩ := List.mem_flatMap.mp hd
  exact hn g hg (List.mem_map_of_mem hdg)

/-! ## Adding a file -/

theorem at_ensurePackages (r : NamespacedFiles) {ns : List FullName} (hfree : ∀ n ∈ ns, r.descriptorAt n = none)
    (n : FullName) :
    (r.ensurePackages ns).descriptorAt n = r.descriptorAt n ∧
      (r.ensurePackages ns).packageAt n = (r.packageAt n).or (if n ∈ ns then some [] else none) := by
  simp only [descriptorAt, packageAt, get_ensurePackages]
  cases hget : r.descsByName.get n with
  | none => split <;> exact ⟨rfl, rfl⟩
  | some e =>
    cases e with
    | package fs => exact ⟨rfl, rfl⟩
    | descriptor d =>
      have hn : n ∉ ns := by
        intro hn
        have hnone := hfree n hn
        rw [descriptorAt_eq_some.mpr hget] at hnone
        cases hnone
      simp only [if_neg hn]
      exact ⟨rfl, rfl⟩

/-- What `insertFileLocked` makes of a registry, when the package of the file has the files `fs`. -/
def enter (r : NamespacedFiles) (f : FileDescriptor) (fs : List FileDescriptor) : NamespacedFiles :=
  (f.topLevel.foldl setDescriptor ((r.ensurePackages f.package.chain).setPackage f.package (fs ++ [f]))).setFile f

theorem insertFileLocked_of_package (hfs : (r.ensurePackages f.package.chain).packageAt f.package = some fs) :
    r.insertFileLocked f = .ok (r.enter f fs) := by
  rw [insertFileLocked, packageAt_eq_some.mp hfs]
  rfl

theorem insertFileLocked_eq_ok_iff : r.insertFileLocked f = .ok r' ↔
    ∃ fs, (r.ensurePackages f.package.chain).packageAt f.package = some fs ∧ r' = r.enter f fs := by
  constructor
  · intro h
    rw [insertFileLocked] at h
    dsimp only at h
    split at h
    · next fs hget =>
      cases h
      exact ⟨fs, packageAt_eq_some.mpr hget, rfl⟩
    · cases h
  · rintro ⟨fs, hfs, rfl⟩
    exact insertFileLocked_of_package hfs

theorem packageAt_enter (r : NamespacedFiles) (f : FileDescriptor) (fs : List FileDescriptor) (n : FullName) :
    (r.enter f fs).packageAt n = if n ∈ f.topLevelNames then none else
      if n = f.package then some (fs ++ [f]) else (r.ensurePackages f.package.chain).packageAt n := by
  have hframe : (r.enter f fs).packageAt n = (f.topLevel.foldl setDescriptor
      ((r.ensurePackages f.package.chain).setPackage f.package (fs ++ [f]))).packageAt n := rfl
  rw [hframe, packageAt_foldl_setDescriptor, (at_setPackage ..).2]
  rfl

theorem root_enter (hroot : (r.packageAt []).isSome) (hnames : [] ∉ f.topLevelNames) (fs : List FileDescriptor) :
    ((r.enter f fs).packageAt []).isSome := by
  rw [packageAt_enter, if_neg hnames]
  split
  · rfl
  · obtain ⟨gs, hgs⟩ := Option.isSome_iff_exists.mp hroot
    rw [packageAt, get_ensurePackages, packageAt_eq_some.mp hgs]
    rfl

theorem sameFiles_enter (r : NamespacedFiles) (f : FileDescriptor) (fs : List FileDescriptor) :
    SameFiles r (f.topLevel.foldl setDescriptor
      ((r.ensurePackages f.package.chain).setPackage f.package (fs ++ [f]))) := by
  apply (sameFiles_ensurePackages r f.package.chain).trans
  have hset : SameFiles (r.ensurePackages f.package.chain)
      ((r.ensurePackages f.package.chain).setPackage f.package (fs ++ [f])) := ⟨rfl, rfl, rfl⟩
  apply hset.trans
  exact sameFiles_foldl (fun r d => (⟨rfl, rfl, rfl⟩ : SameFiles r (r.setDescriptor d))) _ _

/-- The registry can take the file: its path is free, its names are not packages, and its packages are
not descriptors. Descriptors under its names are left over from a file it replaces. -/
structure Admits (r : NamespacedFiles) (f : FileDescriptor) (files : List FileDescriptor) : Prop where
  path : f.path ∉ files.map (·.path)
  packages : ∀ n ∈ f.packageNames, r.descriptorAt n = none
  names : ∀ n ∈ f.topLevelNames, r.packageAt n = none
  others : ∀ n ∉ f.topLevelNames, ∀ d, r.descriptorAt n = some d ↔ d ∈ files.flatMap (·.topLevel) ∧ d.fullName = n
  fresh : ∀ g ∈ files, ∀ n ∈ f.topLevelNames, n ∉ g.topLevelNames
  wellNamed : f.WellNamed

theorem Admits.packageAt_ensured (had : r.Admits f files) (n : FullName) :
    (r.ensurePackages f.package.chain).packageAt n =
      (r.packageAt n).or (if n ∈ f.package.chain then some [] else none) :=
  (r.at_ensurePackages (fun _ hn => had.packages _ (FileDescriptor.mem_packageNames.mpr (.inl hn))) n).2

theorem Admits.descriptors_enter (had : r.Admits f files) :
    Indexes (r.enter f fs).descriptorAt (·.fullName) ((files ++ [f]).flatMap (·.topLevel)) := by
  intro n d
  have hbase : ((r.ensurePackages f.package.chain).setPackage f.package (fs ++ [f])).descriptorAt n =
      r.descriptorAt n := by
    rw [(at_setPackage ..).1, (r.at_ensurePackages (fun _ hn =>
      had.packages _ (FileDescriptor.mem_packageNames.mpr (.inl hn))) n).1]
    split
    · next hn => rw [hn, had.packages _ f.package_mem_packageNames]
    · rfl
  have hframe : (r.enter f fs).descriptorAt n = (f.topLevel.foldl setDescriptor
      ((r.ensurePackages f.package.chain).setPackage f.package (fs ++ [f]))).descriptorAt n := rfl
  rw [hframe, descriptorAt_foldl_setDescriptor had.wellNamed.nodup, hbase, List.flatMap_append, List.mem_append,
    List.flatMap_singleton]
  by_cases hn : n ∈ f.topLevelNames
  · have hold : ¬ (d ∈ files.flatMap (·.topLevel) ∧ d.fullName = n) := by
      intro ⟨hd, hname⟩
      obtain ⟨g, hg, hdg⟩ := List.mem_flatMap.mp hd
      exact had.fresh g hg n hn (hname ▸ List.mem_map_of_mem hdg)
    tauto
  · have hnew : ¬ (d ∈ f.topLevel ∧ d.fullName = n) := fun ⟨hd, hname⟩ => hn (hname ▸ List.mem_map_of_mem hd)
    rw [had.others n hn]
    tauto

theorem Admits.ensured_not_topLevel (had : r.Admits f files)
    (hn : ((r.ensurePackages f.package.chain).packageAt n).isSome) :
    n ∉ f.topLevelNames := by
  intro hmem
  rw [had.packageAt_ensured, had.names n hmem, Option.none_or] at hn
  split at hn
  · next hchain => exact had.wellNamed.apart n hmem (FileDescriptor.mem_packageNames.mpr (.inl hchain))
  · cases hn

theorem Admits.isSome_enter (had : r.Admits f files) (hn : ((r.ensurePackages f.package.chain).packageAt n).isSome) :
    ((r.enter f fs).packageAt n).isSome := by
  rw [packageAt_enter, if_neg (had.ensured_not_topLevel hn)]
  split
  · rfl
  · exact hn

theorem Admits.isSome_enter_of_old (had : r.Admits f files) (hn : (r.packageAt n).isSome) :
    ((r.enter f fs).packageAt n).isSome := by
  apply had.isSome_enter
  obtain ⟨gs, hgs⟩ := Option.isSome_iff_exists.mp hn
  rw [had.packageAt_ensured, hgs]
  rfl

section
variable (h : Tables r files) (had : r.Admits f files)
include h had

theorem Tables.exists_ensured :
    ∃ fs, (r.ensurePackages f.package.chain).packageAt f.package = some fs := by
  rw [had.packageAt_ensured]
  obtain hmem | hnil := FileDescriptor.mem_packageNames.mp f.package_mem_packageNames
  · rw [if_pos hmem]
    cases r.packageAt f.package with
    | none => exact ⟨_, rfl⟩
    | some fs => exact ⟨fs, rfl⟩
  · obtain ⟨fs, hfs⟩ := Option.isSome_iff_exists.mp h.root
    rw [hnil, hfs]
    exact ⟨fs, rfl⟩

theorem Tables.perm_ensured (hfs : (r.ensurePackages f.package.chain).packageAt n = some fs) :
    fs.Perm (files.filter (·.package = n)) := by
  rw [had.packageAt_ensured] at hfs
  cases hold : r.packageAt n with
  | some gs =>
    rw [hold] at hfs
    cases hfs
    exact h.packages n fs hold
  | none =>
    rw [hold] at hfs
    split at hfs
    · cases hfs
      rw [h.filter_eq_nil hold]
    · cases hfs

theorem Tables.records_enter (p : String) (rec : FileRecord) :
    (r.enter f fs).fileDescs.get p = some rec ↔
      ∃ g ∈ files ++ [f], g.path = p ∧ rec = ⟨g.package, g.topLevelNames⟩ := by
  have hrec : (r.enter f fs).fileDescs = r.fileDescs.set f.path ⟨f.package, f.topLevelNames⟩ := by
    rw [← (sameFiles_enter r f fs).fileDescs]
    rfl
  rw [hrec, Dict.get_set]
  split
  · next hp =>
    constructor
    · intro heq
      cases heq
      exact ⟨f, List.mem_append_right _ (List.mem_singleton_self f), hp.symm, rfl⟩
    · rintro ⟨g, hg, rfl, rfl⟩
      obtain hg | hg := List.mem_append.mp hg
      · exact absurd (List.mem_map.mpr ⟨g, hg, hp⟩) had.path
      · rw [List.mem_singleton.mp hg]
  · next hp =>
    rw [h.records]
    constructor
    · rintro ⟨g, hg, hrest⟩
      exact ⟨g, List.mem_append_left _ hg, hrest⟩
    · rintro ⟨g, hg, hpath, hrest⟩
      obtain hg | hg := List.mem_append.mp hg
      · exact ⟨g, hg, hpath, hrest⟩
      · rw [List.mem_singleton.mp hg] at hpath
        exact absurd hpath.symm hp

theorem Tables.packages_enter (hfs : (r.ensurePackages f.package.chain).packageAt f.package = some fs)
    (hgs : (r.enter f fs).packageAt n = some gs) : gs.Perm ((files ++ [f]).filter (·.package = n)) := by
  rw [packageAt_enter] at hgs
  rw [List.filter_append]
  split at hgs
  · cases hgs
  · split at hgs
    · next hn =>
      cases hgs
      rw [hn, List.filter_singleton, decide_eq_true rfl]
      exact (h.perm_ensured had hfs).append (List.Perm.refl _)
    · next hn =>
      have hother : decide (f.package = n) = false := decide_eq_false fun h => hn h.symm
      rw [List.filter_singleton, hother, cond_false, List.append_nil]
      exact h.perm_ensured had hgs

theorem Tables.insert : ∃ fs, (r.ensurePackages f.package.chain).packageAt f.package = some fs ∧
    r.insertFileLocked f = .ok (r.enter f fs) ∧ Indexed (r.enter f fs) (files ++ [f]) := by
  obtain ⟨fs, hfs⟩ := h.exists_ensured had
  refine ⟨fs, hfs, insertFileLocked_of_package hfs, ⟨?_, ?_, ?_, ?_, ?_⟩, had.descriptors_enter⟩
  · exact (h.stores.of_sameFiles (sameFiles_enter r f fs)).setFile had.path
  · exact h.records_enter had
  · exact fun n gs hgs => h.packages_enter had hfs hgs
  · intro g hg
    obtain hg | hg := List.mem_append.mp hg
    · exact had.isSome_enter_of_old (h.present g hg)
    · rw [List.mem_singleton.mp hg]
      exact had.isSome_enter (by rw [hfs]; rfl)
  · exact had.isSome_enter_of_old h.root

end

section
variable (h : Holds r files) (hco : Coexist (files ++ [f]))
include h hco

/-- Files that coexist are admitted. -/
theorem Holds.admits : r.Admits f files := by
  have hf : f ∈ files ++ [f] := List.mem_append_right _ (List.mem_singleton_self f)
  have hnd := hco.topLevel
  rw [List.flatMap_append, List.flatMap_singleton, List.nodup_append] at hnd
  refine ⟨hco.path_not_mem, fun n hn => ?_, fun n hn => ?_, fun n _ d => h.descriptors n d, fun g hg n hn hgn => ?_,
    hnd.2.1, fun n hn hpkg => hco.packages f hf n hpkg f hf hn⟩
  · apply h.descriptorAt_eq_none
    exact fun g hg => hco.packages f hf n hn g (List.mem_append_left _ hg)
  · by_contra hne
    exact h.not_topLevel hco (List.subset_append_left _ _) hf (Option.isSome_iff_ne_none.mpr hne) hn
  · exact hnd.2.2 _ (List.mem_flatMap.mpr ⟨g, hg, hgn⟩) _ hn rfl

theorem Holds.rooted_enter (n : FullName)
    (hfs : (r.ensurePackages f.package.chain).packageAt f.package = some fs) : (r.enter f fs).Rooted n := by
  have had := h.admits hco
  intro hn
  by_cases hpkg : n = f.package
  · refine .inr (.inl ?_)
    rw [packageAt_enter, if_neg (had.ensured_not_topLevel (by rw [hpkg, hfs]; rfl)), if_pos hpkg]
    simp
  · by_cases hmem : n ∈ f.package.chain
    · -- the next package of the chain is right below
      obtain ⟨s, hs⟩ := FullName.exists_child_mem_chain hmem hpkg
      refine .inr (.inr ⟨s, had.isSome_enter ?_⟩)
      rw [had.packageAt_ensured, if_pos hs]
      cases r.packageAt (n ++ [s]) <;> rfl
    · have hold : (r.enter f fs).packageAt n = r.packageAt n := by
        rw [packageAt_enter] at hn ⊢
        split at hn
        · cases hn
        · next hnot => rw [if_neg hnot, if_neg hpkg, had.packageAt_ensured, if_neg hmem, Option.or_none]
      rw [hold] at hn ⊢
      obtain hnil | hfull | ⟨s, hs⟩ := h.rooted n hn
      · exact .inl hnil
      · exact .inr (.inl hfull)
      · exact .inr (.inr ⟨s, had.isSome_enter_of_old hs⟩)

theorem Holds.insert : ∃ r', r.insertFileLocked f = .ok r' ∧ Holds r' (files ++ [f]) := by
  obtain ⟨fs, hfs, heq, hindexed⟩ := h.toTables.insert (h.admits hco)
  exact ⟨r.enter f fs, heq, hindexed, fun n => h.rooted_enter hco n hfs⟩

end

theorem Tables.fileDescs_eq_none (h : Tables r files) (hpath : p ∉ files.map (·.path)) : r.fileDescs.get p = none := by
  rw [Option.eq_none_iff_forall_ne_some]
  intro rec hrec
  obtain ⟨g, hg, heq, _⟩ := (h.records _ _).mp hrec
  exact hpath (List.mem_map.mpr ⟨g, hg, heq⟩)

/-- An update of a path that is not taken adds the file. -/
theorem Holds.update (h : Holds r files) (hco : Coexist (files ++ [f])) :
    ∃ r', r.updateFile f = .ok r' ∧ Holds r' (files ++ [f]) := by
  rw [updateFile, h.fileDescs_eq_none hco.path_not_mem]
  exact h.insert hco

/-- The checks of `RegisterFile` against the index. -/
structure Free (r : NamespacedFiles) (f : FileDescriptor) : Prop where
  packages : ∀ n ∈ f.package.chain, r.descriptorAt n = none
  names : ∀ n ∈ f.topLevelNames, r.descsByName.get n = none

theorem isDescriptor_iff : r.isDescriptor n ↔ (r.descriptorAt n).isSome := by
  rw [isDescriptor, descriptorAt]
  rcases r.descsByName.get n with _ | (fs | d) <;> simp [NamedEntry.descriptor?]

theorem unregisterFile_eq_ok_iff : r.unregisterFile path = .ok r' ↔ ∃ old, r.fileDescs.get path = some old ∧
    r' = ((old.names.foldl deleteName r).leavePackage old.pkg path).deleteFile path := by
  rw [unregisterFile]
  cases r.fileDescs.get path with
  | none => simp
  | some old => simp [eq_comm]

theorem registerFile_eq_ok_iff : r.registerFile f = .ok r' ↔
    r.fileAt f.path = none ∧ r.Free f ∧ r.insertFileLocked f = .ok r' := by
  have hfree : r.Free f ↔ f.package.chain.find? r.isDescriptor = none ∧
      f.topLevelNames.find? (fun name => (r.descsByName.get name).isSome) = none := by
    simp only [List.find?_eq_none, isDescriptor_iff, Option.not_isSome_iff_eq_none]
    exact ⟨fun h => ⟨h.packages, h.names⟩, fun h => ⟨h.1, h.2⟩⟩
  rw [registerFile, get_filesByPath, hfree]
  cases r.fileAt f.path with
  | some g => simp
  | none =>
    cases f.package.chain.find? r.isDescriptor with
    | some n => simp
    | none => cases f.topLevelNames.find? fun name => (r.descsByName.get name).isSome <;> simp

theorem Holds.register (h : Holds r files) (hco : Coexist (files ++ [f])) :
    ∃ r', r.registerFile f = .ok r' ∧ Holds r' (files ++ [f]) := by
  have had := h.admits hco
  obtain ⟨r', hins, hholds⟩ := h.insert hco
  refine ⟨r', registerFile_eq_ok_iff.mpr ⟨h.stores.paths.eq_none_iff.mpr had.path, ⟨?_, fun n hn => ?_⟩, hins⟩, hholds⟩
  · exact fun n hn => had.packages n (FileDescriptor.mem_packageNames.mpr (.inl hn))
  · rw [get_eq_none_iff]
    exact ⟨h.descriptorAt_eq_none fun g hg => had.fresh g hg n hn, had.names n hn⟩

/-! ## Taking a file out -/

theorem removeFileByPath_eq_filter {fs : List FileDescriptor} (hnd : (fs.map (·.path)).Nodup) (p : String) :
    removeFileByPath fs p = fs.filter (·.path ≠ p) := by
  rw [removeFileByPath]
  induction fs with
  | nil => rfl
  | cons g fs ih =>
    rw [List.map_cons, List.nodup_cons] at hnd
    by_cases hg : g.path = p
    · rw [List.eraseP_cons_of_pos (by simpa using hg), List.filter_cons_of_neg (by simpa using hg), eq_comm,
        List.filter_eq_self]
      intro g' hg'
      exact decide_eq_true fun hp => hnd.1 (List.mem_map.mpr ⟨g', hg', hp.trans hg.symm⟩)
    · rw [List.eraseP_cons_of_neg (by simpa using hg), List.filter_cons_of_pos (by simpa using hg), ih hnd.2]

/-- The registry without some names of a file and without the file in its package, which has the files `fs`. -/
def clear (r : NamespacedFiles) (f : FileDescriptor) (names : List FullName) (fs : List FileDescriptor) :
    NamespacedFiles :=
  (names.foldl deleteName r).setPackage f.package (removeFileByPath fs f.path)

/-- What a file leaves behind, when some of its names are deleted and some packages cleaned up. -/
def depart (r : NamespacedFiles) (f : FileDescriptor) (names : List FullName) (fs : List FileDescriptor)
    (ns : List FullName) : NamespacedFiles :=
  ((r.clear f names fs).cleanup ns).deleteFile f.path

theorem sameFiles_clear (r : NamespacedFiles) (f : FileDescriptor) (names : List FullName) (fs : List FileDescriptor)
    (ns : List FullName) : SameFiles r ((r.clear f names fs).cleanup ns) := by
  apply (sameFiles_foldl (fun r n => (⟨rfl, rfl, rfl⟩ : SameFiles r (r.deleteName n))) r names).trans
  have hset : SameFiles (names.foldl deleteName r) (r.clear f names fs) := ⟨rfl, rfl, rfl⟩
  exact hset.trans (sameFiles_cleanup _ _)

theorem Tables.records_depart {r' : NamespacedFiles} (h : Tables r files)
    (hrec : r'.fileDescs = r.fileDescs.delete f.path)
    (p : String) (rec : FileRecord) :
    r'.fileDescs.get p = some rec ↔
      ∃ g ∈ files.filter (·.path ≠ f.path), g.path = p ∧ rec = ⟨g.package, g.topLevelNames⟩ := by
  simp only [hrec, Dict.get_delete, List.mem_filter, decide_eq_true_eq]
  split
  · next hp =>
    constructor
    · intro heq
      cases heq
    · rintro ⟨g, ⟨_, hne⟩, hpath, _⟩
      exact absurd (hpath.trans hp) hne
  · next hp =>
    rw [h.records]
    constructor
    · rintro ⟨g, hg, hpath, hrest⟩
      exact ⟨g, ⟨hg, fun heq => hp (hpath.symm.trans heq)⟩, hpath, hrest⟩
    · rintro ⟨g, ⟨hg, _⟩, hrest⟩
      exact ⟨g, hg, hrest⟩

theorem eq_of_topLevelName {f g : FileDescriptor} (hnd : (files.flatMap (·.topLevelNames)).Nodup) (hf : f ∈ files)
    (hg : g ∈ files) (hn : n ∈ f.topLevelNames) (hn' : n ∈ g.topLevelNames) : f = g := by
  by_contra hne
  have : Std.Symm (Function.onFun List.Disjoint FileDescriptor.topLevelNames) :=
    ⟨fun g g' hdisj n hn hn' => hdisj hn' hn⟩
  exact (List.nodup_flatMap.mp hnd).2.forall hf hg hne hn hn'

theorem Stores.paths_nodup (h : Stores r files) : (files.map (·.path)).Nodup := h.keys ▸ r.filesByPath.nodup

theorem Indexed.descriptorAt_isSome (h : Indexed r files) (hg : g ∈ files) (hn : n ∈ g.topLevelNames) :
    (r.descriptorAt n).isSome := by
  obtain ⟨d, hd, rfl⟩ := List.mem_map.mp hn
  rw [h.descriptors.get (List.mem_flatMap.mpr ⟨g, hg, hd⟩)]
  rfl

theorem packageAt_of_descriptor (h : (r.descriptorAt n).isSome) : r.packageAt n = none := by
  obtain ⟨d, hd⟩ := Option.isSome_iff_exists.mp h
  rw [packageAt, descriptorAt_eq_some.mp hd]
  rfl

theorem descriptorAt_of_package (h : (r.packageAt n).isSome) : r.descriptorAt n = none := by
  obtain ⟨fs, hfs⟩ := Option.isSome_iff_exists.mp h
  rw [descriptorAt, packageAt_eq_some.mp hfs]
  rfl

theorem Indexed.descriptorAt_depart (h : Indexed r files) (hf : f ∈ files) (n : FullName) :
    (r.depart f names fs ns).descriptorAt n = if n ∈ names then none else r.descriptorAt n := by
  have hframe : (r.depart f names fs ns).descriptorAt n = ((r.clear f names fs).cleanup ns).descriptorAt n := rfl
  rw [hframe, descriptorAt_cleanup, clear, (at_setPackage ..).1, (at_foldl_deleteName ..).1]
  split
  · next hn => rw [hn, descriptorAt_of_package (h.present f hf), ite_self]
  · rfl

section
variable (h : Indexed r files) (hf : f ∈ files) {names : List FullName} (hnames : names ⊆ f.topLevelNames)
include h hf hnames

theorem Indexed.packageAt_deleted (n : FullName) : (names.foldl deleteName r).packageAt n = r.packageAt n := by
  rw [(at_foldl_deleteName ..).2]
  split
  · next hn => exact (packageAt_of_descriptor (h.descriptorAt_isSome hf (hnames hn))).symm
  · rfl

theorem Indexed.packageAt_clear (n : FullName) :
    (r.clear f names fs).packageAt n = if n = f.package then some (removeFileByPath fs f.path) else r.packageAt n := by
  rw [clear, (at_setPackage ..).2, h.packageAt_deleted hf hnames]

theorem Indexed.packages_clear (hfs : r.packageAt f.package = some fs)
    (hgs : (r.clear f names fs).packageAt n = some gs) :
    gs.Perm ((files.filter (·.path ≠ f.path)).filter (·.package = n)) := by
  have hpaths := h.stores.paths_nodup
  have hperm := h.packages _ _ hfs
  rw [h.packageAt_clear hf hnames] at hgs
  split at hgs
  · next hn =>
    cases hgs
    have hnd : (fs.map (·.path)).Nodup :=
      (hperm.map _).nodup_iff.mpr (hpaths.sublist (List.filter_sublist.map _))
    rw [removeFileByPath_eq_filter hnd, hn, List.filter_comm]
    exact hperm.filter _
  · next hn =>
    rw [List.filter_comm]
    have hsame : (files.filter (·.package = n)).filter (·.path ≠ f.path) = files.filter (·.package = n) := by
      rw [List.filter_eq_self]
      intro g hg
      rw [List.mem_filter, decide_eq_true_eq] at hg
      refine decide_eq_true fun hpath => hn ?_
      rw [← hg.2, List.inj_on_of_nodup_map hpaths hg.1 hf hpath]
    rw [hsame]
    exact h.packages n gs hgs

theorem Indexed.isSome_clear (hn : (r.packageAt n).isSome) : ((r.clear f names fs).packageAt n).isSome := by
  rw [h.packageAt_clear hf hnames]
  split
  · rfl
  · exact hn

/-- The other files stay where they are. -/
theorem Indexed.tables_depart (hfs : r.packageAt f.package = some fs) (hns : [] ∉ ns) :
    Tables (r.depart f names fs ns) (files.filter (·.path ≠ f.path)) := by
  have hframe : ∀ n, (r.depart f names fs ns).packageAt n = ((r.clear f names fs).cleanup ns).packageAt n :=
    fun _ => rfl
  have hsame := r.sameFiles_clear f names fs ns
  refine ⟨(h.stores.of_sameFiles hsame).deleteFile f.path, ?_, fun n gs hgs => ?_, fun g hg => ?_, ?_⟩
  · exact h.records_depart (congrArg (Dict.delete · f.path) hsame.fileDescs)
  · rw [hframe] at hgs
    obtain hsame | ⟨_, _, hnone⟩ := packageAt_cleanup (r.clear f names fs) ns n
    · exact h.packages_clear hf hnames hfs (hsame ▸ hgs)
    · rw [hnone] at hgs
      cases hgs
  · rw [hframe]
    obtain hsame | ⟨_, hempty, _⟩ := packageAt_cleanup (r.clear f names fs) ns g.package
    · rw [hsame]
      exact h.isSome_clear hf hnames (h.present g (List.mem_filter.mp hg).1)
    · -- the package still has this file
      have hmem := (h.packages_clear hf hnames hfs hempty).mem_iff.mpr
        (List.mem_filter.mpr ⟨hg, decide_eq_true rfl⟩)
      cases hmem
  · rw [hframe]
    obtain hsame | ⟨hmem, _⟩ := packageAt_cleanup (r.clear f names fs) ns []
    · rw [hsame]
      exact h.isSome_clear hf hnames h.root
    · exact absurd hmem hns

end

theorem nil_not_mem_chain (n : FullName) : [] ∉ n.chain := fun h => (FullName.mem_chain.mp h).1 rfl

section
variable (h : Indexed r files) (hnd : (files.flatMap (·.topLevelNames)).Nodup) (hf : f ∈ files)
include h hnd hf

theorem Indexed.descriptors_depart : Indexes (r.depart f f.topLevelNames fs ns).descriptorAt (·.fullName)
    ((files.filter (·.path ≠ f.path)).flatMap (·.topLevel)) := by
  apply (h.descriptors.remove (h.descriptorAt_depart hf)).congr
  intro d
  simp only [List.mem_filter, List.mem_flatMap, decide_eq_true_eq]
  constructor
  · rintro ⟨⟨g, hg, hd⟩, hnot⟩
    refine ⟨g, ⟨hg, fun hpath => hnot ?_⟩, hd⟩
    rw [← List.inj_on_of_nodup_map h.stores.paths_nodup hg hf hpath]
    exact List.mem_map_of_mem hd
  · rintro ⟨g, ⟨hg, hpath⟩, hd⟩
    refine ⟨⟨g, hg, hd⟩, fun hmem => ?_⟩
    rw [eq_of_topLevelName hnd hg hf (List.mem_map_of_mem hd) hmem] at hpath
    exact hpath rfl

theorem Indexed.unregister : ∃ fs, r.packageAt f.package = some fs ∧
    r.unregisterFile f.path = .ok (r.depart f f.topLevelNames fs f.package.chain) ∧
    Indexed (r.depart f f.topLevelNames fs f.package.chain) (files.filter (·.path ≠ f.path)) := by
  obtain ⟨fs, hfs⟩ := Option.isSome_iff_exists.mp (h.present f hf)
  refine ⟨fs, hfs, ?_, h.tables_depart hf (List.Subset.refl _) hfs (nil_not_mem_chain _), h.descriptors_depart hnd hf⟩
  rw [unregisterFile, (h.records _ _).mpr ⟨f, hf, rfl, rfl⟩]
  have hpkg := (h.packageAt_deleted hf (List.Subset.refl _) f.package).trans hfs
  simp only [leavePackage, packageAt_eq_some.mp hpkg]
  rfl

end

theorem Holds.unregister (h : Holds r files) (hco : Coexist files) (hf : f ∈ files) :
    ∃ r', r.unregisterFile f.path = .ok r' ∧ Holds r' (files.filter (·.path ≠ f.path)) := by
  obtain ⟨fs, hfs, heq, hindexed⟩ := h.toIndexed.unregister hco.topLevel hf
  refine ⟨_, heq, hindexed, rooted_cleanup (n := f.package) ?_⟩
  intro m hm hsome
  rw [h.packageAt_clear hf (List.Subset.refl _), if_neg hm] at hsome ⊢
  obtain hnil | hfull | ⟨s, hs⟩ := h.rooted m hsome
  · exact .inl hnil
  · exact .inr (.inl hfull)
  · exact .inr (.inr ⟨s, h.isSome_clear hf (List.Subset.refl _) hs⟩)

/-! ## Lookups -/

/-- What the innermost enclosing descriptor says about a name, whatever packages there are. -/
def resolveName (look : FullName → Option Descriptor) (name : FullName) (chain : List FullName) :
    Option Descriptor :=
  (chain.findSome? fun outer =>
    (look outer).map fun d => (NamedEntry.descriptor d).resolve name (name.drop outer.length)).join

theorem resolveName_eq_none {look : FullName → Option Descriptor} {chain : List FullName}
    (h : ∀ n ∈ chain, look n = none) : resolveName look name chain = none := by
  have hnone : (chain.findSome? fun outer =>
      (look outer).map fun d => (NamedEntry.descriptor d).resolve name (name.drop outer.length)) = none := by
    rw [List.findSome?_eq_none_iff]
    intro n hn
    rw [h n hn, Option.map_none]
  rw [resolveName, hnone, Option.join_none]

/-- A package ends the search, and outside of a package there are only packages. -/
theorem Holds.findDescriptorByNameLocal (h : Holds r files) (hco : Coexist files) (name : FullName) :
    r.findDescriptorByNameLocal name =
      match resolveName r.descriptorAt name name.chain with
      | some d => .ok d
      | none => .error .notFound := by
  suffices H : ∀ n : FullName, (n.chain.findSome? fun outer => (r.descsByName.get outer).map fun entry =>
      entry.resolve name (name.drop outer.length)).join = resolveName r.descriptorAt name n.chain by
    have hname := H name
    cases hres : resolveName r.descriptorAt name name.chain with
    | none =>
      rw [hres] at hname
      simp only [NamespacedFiles.findDescriptorByNameLocal, hname]
    | some d =>
      rw [hres] at hname
      simp only [NamespacedFiles.findDescriptorByNameLocal, hname]
  intro n
  induction n using List.reverseRecOn with
  | nil => rfl
  | append_singleton n s ih =>
    rw [FullName.chain_concat, resolveName, List.findSome?_cons, List.findSome?_cons]
    cases hget : r.descsByName.get (n ++ [s]) with
    | none =>
      rw [(get_eq_none_iff.mp hget).1]
      exact ih
    | some e =>
      cases e with
      | descriptor d =>
        rw [descriptorAt_eq_some.mpr hget]
        rfl
      | package fs =>
        have hpkg : (r.packageAt (n ++ [s])).isSome := by rw [packageAt_eq_some.mpr hget]; rfl
        have houter : ∀ m ∈ FullName.chain n, r.descriptorAt m = none := by
          intro m hm
          apply h.descriptorAt_eq_none
          intro g hg
          obtain hnil | ⟨f, hf, hchain⟩ := h.package_mem hpkg
          · simp at hnil
          · apply hco.packages f hf m (FileDescriptor.mem_packageNames.mpr (.inl ?_)) g hg
            apply FullName.chain_trans _ hchain
            rw [FullName.chain_concat]
            exact List.mem_cons_of_mem _ hm
        have hself : r.descriptorAt (n ++ [s]) = none := by
          rw [descriptorAt, hget]
          rfl
        rw [hself]
        exact (resolveName_eq_none houter).symm

/-- Registries of the same files answer alike. -/
theorem Holds.answers {r' : NamespacedFiles} {files' : List FileDescriptor} (h : Holds r files)
    (h' : Holds r' files') (hco : Coexist files) (hperm : files.Perm files') :
    r'.filesByPath.get = r.filesByPath.get ∧
      r'.findDescriptorByNameLocal = r.findDescriptorByNameLocal := by
  have hpaths := h'.stores.paths.look_eq h.stores.paths fun f => hperm.symm.mem_iff
  have hdescs := h'.descriptors.look_eq h.descriptors fun d => (hperm.symm.flatMap_right _).mem_iff
  constructor
  · funext p
    rw [get_filesByPath, get_filesByPath, hpaths]
  · funext name
    rw [h.findDescriptorByNameLocal hco, h'.findDescriptorByNameLocal (hco.perm hperm), hdescs]

end NamespacedFiles

end ProtoRegistry
