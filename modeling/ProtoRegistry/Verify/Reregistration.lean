import ProtoRegistry.Verify.Collisions
import ProtoRegistry.Verify.Lookup

/-!
# Removing a file and registering it again

`UpdateFile` takes out the stale part of a file and enters the new one, `UnregisterFile` takes out all of it.
Entering a file overwrites what is left under its names and fills in the packages around it, so both ways lead
to the same tables. Removing a file also removes the empty packages around it, those that were there before
included.
-/

namespace ProtoRegistry

/-- The entry once the file at a path is taken out of it. -/
def NamedEntry.without (path : String) : NamedEntry → NamedEntry
  | .package fs => .package (NamespacedFiles.removeFileByPath fs path)
  | .descriptor d => .descriptor d

/-- The names of a file are below its package. -/
def FileRecord.Nested (old : FileRecord) : Prop := ∀ n ∈ old.names, n ≠ [] ∧ n.parent = old.pkg

theorem FileRecord.Nested.nil_not_mem {old : FileRecord} (h : old.Nested) : [] ∉ old.names :=
  fun hmem => (h [] hmem).1 rfl

namespace NamespacedFiles

/-! ## Calls -/

/-- The file of the call is valid. -/
def FilesCall.Valid : FilesCall → Prop
  | .register f => f.WellScoped
  | .unregister _ => True
  | .update f => f.WellScoped

/-- A state that calls of some kind lead to. All of them return normally, and one that returns an error changes
nothing. -/
inductive Reachable (kind : FilesCall → Prop) : NamespacedFiles → Prop where
  | new : Reachable kind .new
  | call : Reachable kind r → kind c → c.exec r = .ok r' → Reachable kind r'

/-- The registries have the same entries under names and under paths, the same records and the same count. -/
structure SameState (r r' : NamespacedFiles) : Prop where
  descsByName : ∀ n, r'.descsByName.get n = r.descsByName.get n
  filesByPath : ∀ p, r'.filesByPath.get p = r.filesByPath.get p
  fileDescs : ∀ p, r'.fileDescs.get p = r.fileDescs.get p
  numFiles : r'.numFiles = r.numFiles

variable {r r' s : NamespacedFiles} {f : FileDescriptor} {old : FileRecord} {n : FullName}

/-! ## Entering a file -/

theorem get_foldl_setDescriptor (r : NamespacedFiles) (ds : List Descriptor) (n : FullName) :
    (ds.foldl setDescriptor r).descsByName.get n =
      ((ds.reverse.find? (·.fullName = n)).map .descriptor).or (r.descsByName.get n) := by
  have hfold : (ds.foldl setDescriptor r).descsByName =
      ds.foldl (fun descs d => descs.set d.fullName (.descriptor d)) r.descsByName := by
    induction ds generalizing r with
    | nil => rfl
    | cons d ds ih => exact ih (r.setDescriptor d)
  rw [hfold]
  exact Dict.get_foldl_set (·.fullName) .descriptor ds r.descsByName n

theorem get_enter (r : NamespacedFiles) (f : FileDescriptor) (fs : List FileDescriptor) (n : FullName) :
    (r.enter f fs).descsByName.get n = ((f.topLevel.reverse.find? (·.fullName = n)).map .descriptor).or
      (if n = f.package then some (.package (fs ++ [f])) else
        (r.descsByName.get n).or (if n ∈ f.package.chain then some (.package []) else none)) := by
  have hframe : (r.enter f fs).descsByName.get n = (f.topLevel.foldl setDescriptor
      ((r.ensurePackages f.package.chain).setPackage f.package (fs ++ [f]))).descsByName.get n := rfl
  rw [hframe, get_foldl_setDescriptor, setPackage, Dict.get_set, get_ensurePackages]

/-- The name has no entry, or that of an empty package. -/
def Vacant (r : NamespacedFiles) (n : FullName) : Prop :=
  r.descsByName.get n = none ∨ r.descsByName.get n = some (.package [])

/-- The registries differ only where entering the file leaves no trace: under its names, in empty packages
around it, and at its path. -/
structure AlikeFor (f : FileDescriptor) (r r' : NamespacedFiles) : Prop where
  entries : ∀ n ∉ f.topLevelNames, r'.descsByName.get n = r.descsByName.get n ∨
    n ∈ f.package.chain ∧ r.Vacant n ∧ r'.Vacant n
  filesByPath : ∀ p ≠ f.path, r'.filesByPath.get p = r.filesByPath.get p
  fileDescs : ∀ p ≠ f.path, r'.fileDescs.get p = r.fileDescs.get p
  numFiles : r'.numFiles = r.numFiles

theorem Vacant.ensured (h : r.Vacant n) :
    (r.descsByName.get n).or (some (.package [])) = some (.package []) := by
  obtain h | h := h <;> rw [h] <;> rfl

theorem AlikeFor.ensured (h : AlikeFor f r r') (hn : n ∉ f.topLevelNames) :
    (r'.ensurePackages f.package.chain).descsByName.get n = (r.ensurePackages f.package.chain).descsByName.get n := by
  rw [get_ensurePackages, get_ensurePackages]
  obtain heq | ⟨hchain, hvacant, hvacant'⟩ := h.entries n hn
  · rw [heq]
  · rw [if_pos hchain, hvacant.ensured, hvacant'.ensured]

theorem find_topLevel_eq_none (hn : n ∉ f.topLevelNames) : f.topLevel.reverse.find? (·.fullName = n) = none := by
  rw [List.find?_eq_none]
  intro d hd heq
  exact hn (of_decide_eq_true heq ▸ List.mem_map_of_mem (List.mem_reverse.mp hd))

theorem find_topLevel_isSome (hn : n ∈ f.topLevelNames) : (f.topLevel.reverse.find? (·.fullName = n)).isSome := by
  obtain ⟨d, hd, rfl⟩ := List.mem_map.mp hn
  exact List.find?_isSome.mpr ⟨d, List.mem_reverse.mpr hd, decide_eq_true rfl⟩

theorem filesByPath_enter (r : NamespacedFiles) (f : FileDescriptor) (fs : List FileDescriptor) :
    (r.enter f fs).filesByPath = r.filesByPath.set f.path [f] :=
  congrArg (Dict.set · f.path [f]) (sameFiles_enter r f fs).filesByPath

theorem fileDescs_enter (r : NamespacedFiles) (f : FileDescriptor) (fs : List FileDescriptor) :
    (r.enter f fs).fileDescs = r.fileDescs.set f.path ⟨f.package, f.topLevelNames⟩ :=
  congrArg (Dict.set · f.path _) (sameFiles_enter r f fs).fileDescs

theorem numFiles_enter (r : NamespacedFiles) (f : FileDescriptor) (fs : List FileDescriptor) :
    (r.enter f fs).numFiles = r.numFiles + 1 :=
  congrArg (· + 1) (sameFiles_enter r f fs).numFiles

theorem AlikeFor.sameState_enter (h : AlikeFor f r r') (fs : List FileDescriptor) :
    SameState (r.enter f fs) (r'.enter f fs) := by
  refine ⟨fun n => ?_, fun p => ?_, fun p => ?_, ?_⟩
  · rw [get_enter, get_enter]
    by_cases hn : n ∈ f.topLevelNames
    · obtain ⟨d, hd⟩ := Option.isSome_iff_exists.mp (find_topLevel_isSome hn)
      rw [hd]
      rfl
    · have hensured := h.ensured hn
      rw [get_ensurePackages, get_ensurePackages] at hensured
      rw [hensured]
  · rw [filesByPath_enter, filesByPath_enter, Dict.get_set, Dict.get_set]
    split
    · rfl
    · next hp => exact h.filesByPath p hp
  · rw [fileDescs_enter, fileDescs_enter, Dict.get_set, Dict.get_set]
    split
    · rfl
    · next hp => exact h.fileDescs p hp
  · rw [numFiles_enter, numFiles_enter, h.numFiles]

theorem AlikeFor.insert (h : AlikeFor f r r') (hpkg : f.package ∉ f.topLevelNames)
    (hins : r.insertFileLocked f = .ok s) :
    ∃ s', r'.insertFileLocked f = .ok s' ∧ SameState s s' := by
  obtain ⟨fs, hfs, rfl⟩ := insertFileLocked_eq_ok_iff.mp hins
  refine ⟨r'.enter f fs, insertFileLocked_eq_ok_iff.mpr ⟨fs, ?_, rfl⟩, h.sameState_enter fs⟩
  rw [packageAt_eq_some] at hfs ⊢
  rw [h.ensured hpkg, hfs]

/-! ## Taking out a file -/

theorem get_dropFromPackage (r : NamespacedFiles) (pkg : FullName) (path : String) (n : FullName) :
    (r.dropFromPackage pkg path).descsByName.get n =
      if n = pkg then (r.descsByName.get n).map (·.without path) else r.descsByName.get n := by
  rw [dropFromPackage]
  split
  · next fs hfs =>
    rw [setPackage, Dict.get_set]
    split
    · next hn =>
      rw [hn, hfs]
      rfl
    · rfl
  · next hnot =>
    split
    · next hn =>
      subst hn
      rcases hget : r.descsByName.get n with _ | (fs | d)
      · rfl
      · exact absurd hget (hnot fs)
      · rfl
    · rfl

theorem leavePackage_eq (r : NamespacedFiles) (pkg : FullName) (path : String) :
    r.leavePackage pkg path = (r.dropFromPackage pkg path).cleanupPackageChain pkg := by
  rw [leavePackage, dropFromPackage]
  split
  · rfl
  · next hnot =>
    rw [cleanupPackageChain]
    obtain rfl | ⟨outer, s, rfl⟩ := List.eq_nil_or_concat pkg
    · rfl
    · rw [List.concat_eq_append, FullName.chain_concat, cleanup_of_not_empty]
      rw [Ne, packageAt_eq_some, ← List.concat_eq_append]
      exact hnot []

theorem sameFiles_dropFromPackage (r : NamespacedFiles) (pkg : FullName) (path : String) :
    SameFiles r (r.dropFromPackage pkg path) := by
  rw [dropFromPackage]
  split <;> exact ⟨rfl, rfl, rfl⟩

theorem sameFiles_leavePackage (r : NamespacedFiles) (pkg : FullName) (path : String) :
    SameFiles r (r.leavePackage pkg path) := by
  rw [leavePackage_eq]
  exact (sameFiles_dropFromPackage r pkg path).trans (sameFiles_cleanup _ _)

theorem sameFiles_deleteNames (r : NamespacedFiles) (ns : List FullName) : SameFiles r (ns.foldl deleteName r) :=
  sameFiles_foldl (fun r n => (⟨rfl, rfl, rfl⟩ : SameFiles r (r.deleteName n))) r ns

theorem SameFiles.deleteFile (h : SameFiles r r') (path : String) :
    SameFiles (r.deleteFile path) (r'.deleteFile path) :=
  ⟨congrArg (Dict.delete · path) h.filesByPath, congrArg (Dict.delete · path) h.fileDescs, congrArg (· - 1) h.numFiles⟩

theorem sameFiles_removeStale (r : NamespacedFiles) (f : FileDescriptor) (old : FileRecord) :
    SameFiles (r.deleteFile f.path) (r.removeStale f old) := by
  have hstale := sameFiles_deleteNames r (old.names.filter (· ∉ f.topLevelNames))
  rw [removeStale]
  by_cases hpkg : old.pkg = f.package
  · rw [if_neg (not_not.mpr hpkg), if_pos hpkg]
    exact (hstale.deleteFile f.path).trans (sameFiles_dropFromPackage _ _ _)
  · rw [if_pos hpkg, if_neg hpkg]
    exact (hstale.trans (sameFiles_leavePackage _ _ _)).deleteFile f.path

/-! ## States that any calls lead to -/

/-- The root is a package, and every record is that of a valid file. Updates may have overwritten the rest. -/
structure Sound (r : NamespacedFiles) : Prop where
  root : (r.packageAt []).isSome
  records : ∀ p rec, r.fileDescs.get p = some rec → rec.Nested

theorem Sound.new : Sound .new where
  root := rfl
  records p rec h := by cases h

theorem root_deleteNames {ns : List FullName} (h : (r.packageAt []).isSome) (hns : [] ∉ ns) :
    ((ns.foldl deleteName r).packageAt []).isSome := by
  rwa [(at_foldl_deleteName ..).2, if_neg hns]

theorem root_dropFromPackage (h : (r.packageAt []).isSome) (pkg : FullName) (path : String) :
    ((r.dropFromPackage pkg path).packageAt []).isSome := by
  rw [dropFromPackage]
  split
  · rw [(at_setPackage ..).2]
    split
    · rfl
    · exact h
  · exact h

theorem root_leavePackage (h : (r.packageAt []).isSome) (pkg : FullName) (path : String) :
    ((r.leavePackage pkg path).packageAt []).isSome := by
  rw [leavePackage_eq, cleanupPackageChain]
  obtain hsame | ⟨hmem, -⟩ := packageAt_cleanup (r.dropFromPackage pkg path) pkg.chain []
  · rw [hsame]
    exact root_dropFromPackage h pkg path
  · exact absurd hmem (nil_not_mem_chain pkg)

theorem Sound.deleteFile (h : Sound r) (path : String) : Sound (r.deleteFile path) := by
  refine ⟨h.root, fun p rec hrec => h.records p rec ?_⟩
  rw [NamespacedFiles.deleteFile, Dict.get_delete] at hrec
  split at hrec
  · cases hrec
  · exact hrec

theorem Sound.of_sameFiles (h : Sound r) (hsame : SameFiles r r') (hroot : (r'.packageAt []).isSome) : Sound r' :=
  ⟨hroot, hsame.fileDescs ▸ h.records⟩

theorem Sound.deleteNames (h : Sound r) {ns : List FullName} (hns : [] ∉ ns) : Sound (ns.foldl deleteName r) :=
  h.of_sameFiles (sameFiles_deleteNames r ns) (root_deleteNames h.root hns)

theorem Sound.leavePackage (h : Sound r) (pkg : FullName) (path : String) : Sound (r.leavePackage pkg path) :=
  h.of_sameFiles (sameFiles_leavePackage r pkg path) (root_leavePackage h.root pkg path)

theorem Sound.dropFromPackage (h : Sound r) (pkg : FullName) (path : String) : Sound (r.dropFromPackage pkg path) :=
  h.of_sameFiles (sameFiles_dropFromPackage r pkg path) (root_dropFromPackage h.root pkg path)

theorem Sound.unregister (h : Sound r) (hun : r.unregisterFile path = .ok r') : Sound r' := by
  obtain ⟨old, hold, rfl⟩ := unregisterFile_eq_ok_iff.mp hun
  exact ((h.deleteNames (h.records path old hold).nil_not_mem).leavePackage old.pkg path).deleteFile path

theorem Sound.removeStale (h : Sound r) (hold : old.Nested) (f : FileDescriptor) : Sound (r.removeStale f old) := by
  have hstale : [] ∉ old.names.filter (· ∉ f.topLevelNames) :=
    fun hmem => hold.nil_not_mem (List.mem_filter.mp hmem).1
  rw [NamespacedFiles.removeStale]
  by_cases hpkg : old.pkg = f.package
  · rw [if_neg (not_not.mpr hpkg), if_pos hpkg]
    exact ((h.deleteNames hstale).deleteFile f.path).dropFromPackage f.package f.path
  · rw [if_pos hpkg, if_neg hpkg]
    exact ((h.deleteNames hstale).leavePackage old.pkg f.path).deleteFile f.path

theorem Sound.insert (h : Sound r) (hf : f.WellScoped) (hins : r.insertFileLocked f = .ok r') : Sound r' := by
  obtain ⟨fs, -, rfl⟩ := insertFileLocked_eq_ok_iff.mp hins
  constructor
  · exact root_enter h.root (fun hmem => (hf.topLevel.nested [] hmem).1 rfl) fs
  · intro p old hold
    rw [fileDescs_enter, Dict.get_set] at hold
    split at hold
    · cases hold
      exact hf.topLevel.nested
    · exact h.records p old hold

theorem Sound.step (h : Sound r) (hvalid : c.Valid) (hexec : FilesCall.exec r c = .ok r') : Sound r' := by
  cases c with
  | register f => exact h.insert hvalid (registerFile_eq_ok_iff.mp hexec).2.2
  | unregister path => exact h.unregister hexec
  | update f =>
    rw [FilesCall.exec, updateFile] at hexec
    split at hexec
    · next old hold => exact (h.removeStale (h.records _ _ hold) f).insert hvalid hexec
    · exact h.insert hvalid hexec

theorem Reachable.sound (h : Reachable FilesCall.Valid r) : Sound r := by
  induction h with
  | new => exact .new
  | call _ hvalid hexec ih => exact ih.step hvalid hexec

/-! ## Updating a file -/

theorem get_deleteStale (hn : n ∉ f.topLevelNames) :
    ((old.names.filter (· ∉ f.topLevelNames)).foldl deleteName r).descsByName.get n =
      (old.names.foldl deleteName r).descsByName.get n := by
  rw [get_foldl_deleteName, get_foldl_deleteName]
  refine if_congr ?_ rfl rfl
  rw [List.mem_filter, and_iff_left (decide_eq_true hn)]

theorem stale_of_moved (hf : f.WellScoped) (hold : old.Nested) (hpkg : old.pkg ≠ f.package) :
    old.names.filter (· ∉ f.topLevelNames) = old.names := by
  rw [List.filter_eq_self]
  intro n hn
  refine decide_eq_true fun hmem => hpkg ?_
  rw [← (hold n hn).2, (hf.topLevel.nested n hmem).2]

/-- What the two ways leave behind differs only where the new file is entered. -/
theorem alikeFor_removeStale (r : NamespacedFiles) (hf : f.WellScoped) (hold : old.Nested) :
    AlikeFor f (((old.names.foldl deleteName r).leavePackage old.pkg f.path).deleteFile f.path)
      (r.removeStale f old) := by
  have hleft := ((sameFiles_deleteNames r old.names).trans
    (sameFiles_leavePackage _ old.pkg f.path)).deleteFile f.path
  have hstale := sameFiles_removeStale r f old
  refine ⟨fun n hn => ?_, fun p _ => ?_, fun p _ => ?_, hstale.numFiles.trans hleft.numFiles.symm⟩
  · by_cases hpkg : old.pkg = f.package
    · rw [removeStale, if_neg (not_not.mpr hpkg), if_pos hpkg, hpkg]
      have hdrop : ((((old.names.filter (· ∉ f.topLevelNames)).foldl deleteName r).deleteFile f.path).dropFromPackage
          f.package f.path).descsByName.get n =
          ((old.names.foldl deleteName r).dropFromPackage f.package f.path).descsByName.get n := by
        rw [get_dropFromPackage, get_dropFromPackage, ← get_deleteStale hn]
        rfl
      rw [hdrop, leavePackage_eq, cleanupPackageChain]
      -- only the cleanup of the packages is left out
      obtain hsame | ⟨hchain, hempty, hnone⟩ :=
        get_cleanup ((old.names.foldl deleteName r).dropFromPackage f.package f.path) f.package.chain n
      · exact .inl hsame.symm
      · exact .inr ⟨hchain, .inl hnone, .inr (hdrop.trans (packageAt_eq_some.mp hempty))⟩
    · rw [removeStale, if_pos hpkg, if_neg hpkg, stale_of_moved hf hold hpkg]
      exact .inl rfl
  · rw [hstale.filesByPath, hleft.filesByPath]
  · rw [hstale.fileDescs, hleft.fileDescs]

/-- Where a file can be taken out and registered, an update leads to the same state. -/
theorem updateFile_sameState (h : Reachable FilesCall.Valid r) (hf : f.WellScoped)
    (hun : r.unregisterFile f.path = .ok r') (hreg : r'.registerFile f = .ok s) :
    ∃ s', r.updateFile f = .ok s' ∧ SameState s s' := by
  obtain ⟨old, hold, rfl⟩ := unregisterFile_eq_ok_iff.mp hun
  rw [updateFile, hold]
  have halike := alikeFor_removeStale r hf (h.sound.records _ _ hold)
  have hpkg : f.package ∉ f.topLevelNames := fun hmem => hf.wellNamed.apart _ hmem f.package_mem_packageNames
  exact halike.insert hpkg (registerFile_eq_ok_iff.mp hreg).2.2

/-- The only file of a package is replaced. -/
theorem updateFile_sameState_alone : ∃ r r' s s', new.registerFile (Sample.fileIn "a.proto" ["p"] "M") = .ok r ∧
    r.unregisterFile "a.proto" = .ok r' ∧ r'.registerFile (Sample.fileIn "a.proto" ["p"] "N") = .ok s ∧
    r.updateFile (Sample.fileIn "a.proto" ["p"] "N") = .ok s' ∧ SameState s s' := by
  obtain ⟨r, r', s, hr, hr', hs⟩ : ∃ r r' s, new.registerFile (Sample.fileIn "a.proto" ["p"] "M") = .ok r ∧
      r.unregisterFile "a.proto" = .ok r' ∧ r'.registerFile (Sample.fileIn "a.proto" ["p"] "N") = .ok s :=
    ⟨_, _, _, rfl, rfl, rfl⟩
  have hvalid : ∀ name ∈ ["M", "N"], (Sample.fileIn "a.proto" ["p"] name).WellScoped := by decide
  have hreach : Reachable FilesCall.Valid r := .call (c := .register _) .new (hvalid "M" (by decide)) hr
  obtain ⟨s', hs', hsame⟩ := updateFile_sameState hreach (hvalid "N" (by decide)) hr' hs
  exact ⟨r, r', s, s', hr, hr', hs, hs', hsame⟩

/-! ## Updates that return -/

/-- The package of the file is not the name of a descriptor, unless the file replaces it. -/
def HasRoom (r : NamespacedFiles) (f : FileDescriptor) : Prop :=
  ∀ d, r.descsByName.get f.package = some (.descriptor d) →
    ∃ old, r.fileDescs.get f.path = some old ∧ f.package ∈ old.names

theorem descriptorAt_dropFromPackage (r : NamespacedFiles) (pkg : FullName) (path : String) (n : FullName) :
    (r.dropFromPackage pkg path).descriptorAt n = r.descriptorAt n := by
  rw [descriptorAt, get_dropFromPackage, descriptorAt]
  split
  · rcases r.descsByName.get n with _ | (fs | d) <;> rfl
  · rfl

theorem descriptorAt_leavePackage (r : NamespacedFiles) (pkg : FullName) (path : String) (n : FullName) :
    (r.leavePackage pkg path).descriptorAt n = r.descriptorAt n := by
  rw [leavePackage_eq, cleanupPackageChain, descriptorAt_cleanup, descriptorAt_dropFromPackage]

theorem descriptorAt_removeStale (r : NamespacedFiles) (old : FileRecord) (hn : n ∉ f.topLevelNames) :
    (r.removeStale f old).descriptorAt n = if n ∈ old.names then none else r.descriptorAt n := by
  have hdeleted : ((old.names.filter (· ∉ f.topLevelNames)).foldl deleteName r).descriptorAt n =
      if n ∈ old.names then none else r.descriptorAt n := by
    rw [descriptorAt, get_deleteStale hn, ← (at_foldl_deleteName r old.names n).1, descriptorAt]
  rw [← hdeleted, removeStale]
  by_cases hpkg : old.pkg = f.package
  · rw [if_neg (not_not.mpr hpkg), if_pos hpkg, descriptorAt_dropFromPackage]
    rfl
  · rw [if_pos hpkg, if_neg hpkg]
    exact descriptorAt_leavePackage _ _ _ n

theorem Sound.insert_iff (h : Sound r) : (∃ r', r.insertFileLocked f = .ok r') ↔ r.descriptorAt f.package = none := by
  constructor
  · rintro ⟨r', hins⟩
    obtain ⟨fs, hfs, -⟩ := insertFileLocked_eq_ok_iff.mp hins
    rw [← descriptorAt_ensurePackages r f.package.chain]
    exact descriptorAt_of_package (Option.isSome_iff_exists.mpr ⟨fs, hfs⟩)
  · intro hnone
    suffices hsome : ((r.ensurePackages f.package.chain).packageAt f.package).isSome by
      obtain ⟨fs, hfs⟩ := Option.isSome_iff_exists.mp hsome
      exact ⟨_, insertFileLocked_of_package hfs⟩
    rw [packageAt, get_ensurePackages]
    rcases hget : r.descsByName.get f.package with _ | (fs | d)
    · obtain hchain | hroot := FileDescriptor.mem_packageNames.mp f.package_mem_packageNames
      · rw [if_pos hchain]
        rfl
      · have hsome := h.root
        rw [← hroot, packageAt, hget] at hsome
        cases hsome
    · rfl
    · rw [descriptorAt_eq_some.mpr hget] at hnone
      cases hnone

theorem Sound.update_iff (h : Sound r) (hf : f.WellScoped) : (∃ r', r.updateFile f = .ok r') ↔ r.HasRoom f := by
  have hpkg : f.package ∉ f.topLevelNames := fun hmem => hf.wellNamed.apart _ hmem f.package_mem_packageNames
  simp only [HasRoom, ← descriptorAt_eq_some]
  rw [updateFile]
  cases hold : r.fileDescs.get f.path with
  | none =>
    rw [h.insert_iff, Option.eq_none_iff_forall_ne_some]
    exact forall_congr' fun d => ⟨fun hne hd => absurd hd hne, fun himp hd => by simpa using himp hd⟩
  | some old =>
    change (∃ r', (r.removeStale f old).insertFileLocked f = .ok r') ↔ _
    rw [(h.removeStale (h.records _ _ hold) f).insert_iff, descriptorAt_removeStale r old hpkg]
    by_cases hmem : f.package ∈ old.names
    · rw [if_pos hmem]
      exact iff_of_true rfl fun d _ => ⟨old, rfl, hmem⟩
    · rw [if_neg hmem, Option.eq_none_iff_forall_ne_some]
      refine forall_congr' fun d => ⟨fun hne hd => absurd hd hne, fun himp hd => ?_⟩
      obtain ⟨old', heq, hmem'⟩ := himp hd
      cases heq
      exact hmem hmem'

/-- Updates made one after another all return if each finds room where those before it lead. -/
theorem Sound.foldlM_updateFile_iff (h : Sound r) {l : List FileDescriptor} (hl : ∀ f ∈ l, f.WellScoped) :
    (∃ r', l.foldlM updateFile r = .ok r') ↔
      ∀ done f rest, l = done ++ f :: rest → ∀ r', done.foldlM updateFile r = .ok r' → r'.HasRoom f := by
  induction l generalizing r with
  | nil =>
    refine iff_of_true ⟨r, rfl⟩ fun done f rest hnil => ?_
    simp at hnil
  | cons g l ih =>
    have hg := hl g (List.mem_cons_self ..)
    constructor
    · rintro ⟨r', hr'⟩ done f rest heq s hs
      rw [List.foldlM_cons, except_bind_eq_ok] at hr'
      obtain ⟨r₁, hr₁, hrest⟩ := hr'
      cases done with
      | nil =>
        cases heq
        cases hs
        exact (h.update_iff hg).mp ⟨r₁, hr₁⟩
      | cons g' done =>
        cases heq
        rw [List.foldlM_cons, hr₁] at hs
        have hsound : Sound r₁ := h.step (c := .update g) hg hr₁
        exact (ih hsound fun f hf => hl f (List.mem_cons_of_mem _ hf)).mp ⟨r', hrest⟩ done f rest rfl s hs
    · intro hroom
      obtain ⟨r₁, hr₁⟩ := (h.update_iff hg).mpr (hroom [] g l rfl r rfl)
      have hsound : Sound r₁ := h.step (c := .update g) hg hr₁
      have hlater := (ih hsound fun f hf => hl f (List.mem_cons_of_mem _ hf)).mpr fun done f rest heq s hs => by
        refine hroom (g :: done) f rest (congrArg (g :: ·) heq) s ?_
        rw [List.foldlM_cons, hr₁]
        exact hs
      rw [List.foldlM_cons, hr₁]
      exact hlater

/-- An update returns exactly when its package is not taken by a descriptor, and the files of schemas are
all applied exactly when this is so for each of them in turn. -/
theorem updateFile_returns_iff (h : Reachable FilesCall.Valid r) (hf : f.WellScoped) :
    ((∃ r', r.updateFile f = .ok r') ↔ r.HasRoom f) ∧
      ∀ (snap : Client.NsSnapshot) (types : NamespacedTypes), (∀ g ∈ snap.files, g.WellScoped) →
        ((∃ agg, (Client.applyAll snap).exec ⟨r, types⟩ = (.ok (), agg)) ↔
          ∀ done g rest, snap.files = done ++ g :: rest → ∀ r', done.foldlM updateFile r = .ok r' → r'.HasRoom g) := by
  refine ⟨h.sound.update_iff hf, fun snap types hsnap => ?_⟩
  rw [← h.sound.foldlM_updateFile_iff hsnap]
  constructor
  · rintro ⟨agg, hagg⟩
    exact ⟨_, (Client.exec_applyAll snap ⟨r, types⟩ agg.nsFiles).mp ⟨agg, hagg, rfl⟩⟩
  · rintro ⟨r', hr'⟩
    obtain ⟨agg, hagg, -⟩ := (Client.exec_applyAll snap ⟨r, types⟩ r').mpr hr'
    exact ⟨agg, hagg⟩

/-- The message `M` makes room for the package of the file that replaces it, next to a file of another package. -/
theorem updateFile_returns_iff_replaced :
    let f := Sample.fileIn "a.proto" ["M"] "N"
    let g := Sample.fileIn "c.proto" ["p"] "K"
    let server := Sample.server [] fun _ => [("s", [f, g])]
    ∃ r₁ r, new.registerFile (Sample.fileIn "a.proto" [] "M") = .ok r₁ ∧
      r₁.registerFile (Sample.fileIn "b.proto" ["p"] "N") = .ok r ∧ (∃ r', r.updateFile f = .ok r') ∧
      ∃ snap agg, Client.loadSchema Sample.env server (Sample.resolver "n") .new ⟨"s", some 1⟩ = .ok snap ∧
        (Client.applyAll snap).exec ⟨r, .new⟩ = (.ok (), agg) := by
  intro f g server
  obtain ⟨r₁, r, hr₁, hr, hroom, hlater⟩ : ∃ r₁ r, new.registerFile (Sample.fileIn "a.proto" [] "M") = .ok r₁ ∧
      r₁.registerFile (Sample.fileIn "b.proto" ["p"] "N") = .ok r ∧ r.HasRoom f ∧
      ∀ r', [f].foldlM updateFile r = .ok r' → r'.HasRoom g := by
    refine ⟨_, _, rfl, rfl, fun _ _ => ⟨_, rfl, by decide⟩, ?_⟩
    rintro r' ⟨⟩ d ⟨⟩
  obtain ⟨snap, hsnap, hfiles⟩ : ∃ snap, Client.loadSchema Sample.env server (Sample.resolver "n") .new ⟨"s", some 1⟩ =
      .ok snap ∧ snap.files = [f, g] := ⟨_, rfl, rfl⟩
  have hreach : Reachable FilesCall.Valid r :=
    .call (c := .register _) (.call (c := .register _) .new (by decide : FileDescriptor.WellScoped _) hr₁)
      (by decide : FileDescriptor.WellScoped _) hr
  have hreturns := updateFile_returns_iff hreach (by decide : f.WellScoped)
  obtain ⟨agg, hagg⟩ := (hreturns.2 snap .new (by rw [hfiles]; decide)).mpr fun done h rest heq r' hr' => by
    rw [hfiles] at heq
    obtain _ | ⟨_, _ | ⟨_, done⟩⟩ := done
    · cases heq
      cases hr'
      exact hroom
    · cases heq
      exact hlater r' hr'
    · simp at heq
  exact ⟨r₁, r, hr₁, hr, hreturns.1.mpr hroom, snap, agg, hsnap, hagg⟩

/-- A message and a package of the same name: the update does not return, and neither does the client that
applies the two files, which its name index lets through. -/
theorem updateFile_panics :
    (∃ r, new.registerFile (Sample.fileIn "a.proto" [] "M") = .ok r ∧ (Sample.fileIn "b.proto" ["M"] "N").WellScoped ∧
      r.updateFile (Sample.fileIn "b.proto" ["M"] "N") = .error .panic) ∧
    ∃ infos snap next agg, Client.listAllSchemas (Sample.server [] Sample.nestedPackage)
    (Sample.resolver "n") = .ok infos ∧
      infos.foldlM (Client.loadSchema Sample.env (Sample.server [] Sample.nestedPackage)
        (Sample.resolver "n")) .new = .ok snap ∧
      snap.buildNameIndex = .ok next ∧ (Client.applyAll next).exec ⟨.new, .new⟩ = (.error .panic, agg) :=
  ⟨⟨_, rfl, by decide, rfl⟩, _, _, _, _, rfl, rfl, rfl, rfl⟩

end NamespacedFiles

end ProtoRegistry
