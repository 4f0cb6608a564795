import ProtoRegistry.Verify.Reregistration

/-!
# Registering a file and taking it back

`UnregisterFile` removes the empty packages around a file from the inside out and stops at the first that has
files. It does not know which of them `RegisterFile` has created. An empty package that was there before goes
as well, and one that was created around a package with files stays. No lookup sees this, but the checks of
the next `RegisterFile` do.
-/

namespace ProtoRegistry.NamespacedFiles

/-- Calls that add and remove valid files. -/
def FilesCall.Plain : FilesCall → Prop
  | .register f => f.WellScoped
  | .unregister _ => True
  | .update _ => False

/-- Of these packages, from the inside out, the first that is there has files, and those around it are there,
too. -/
def Intact (r : NamespacedFiles) : List FullName → Prop
  | [] => True
  | n :: outer =>
    if r.descsByName.get n = none then r.Intact outer
    else r.packageAt n ≠ some [] ∧ ∀ m ∈ outer, r.descsByName.get m ≠ none

/-- Every lookup has the same answer. -/
structure AnswersLike (r r' : NamespacedFiles) : Prop where
  descriptor : ∀ n parent, (FilesChain.node r' parent).findDescriptorByName n =
    (FilesChain.node r parent).findDescriptorByName n
  file : ∀ path parent, (FilesChain.node r' parent).findFileByPath path = (FilesChain.node r parent).findFileByPath path
  files : r'.rangeFiles = r.rangeFiles
  package : ∀ n, r'.rangeFilesByPackage n = r.rangeFilesByPackage n
  count : r'.numFiles = r.numFiles

/-- The same files are accepted, and the others are refused for the same reasons. -/
def AcceptsLike (r r' : NamespacedFiles) : Prop :=
  ∀ g, (r'.registerFile g).map (fun _ => ()) = (r.registerFile g).map fun _ => ()

variable {r r' s : NamespacedFiles} {f : FileDescriptor} {n : FullName}

/-! ## What the cleanup restores -/

theorem nodup_chain (n : FullName) : n.chain.Nodup := by
  induction n using List.reverseRecOn with
  | nil => exact List.nodup_nil
  | append_singleton n s ih =>
    rw [FullName.chain_concat, List.nodup_cons]
    refine ⟨fun hmem => ?_, ih⟩
    obtain ⟨-, t, ht⟩ := FullName.mem_chain.mp hmem
    have hlen := congrArg List.length ht
    rw [List.length_append, List.length_append, List.length_singleton] at hlen
    omega

/-- Cleaning up undoes the creation of packages exactly where it meets nothing else. -/
theorem cleanup_restores_iff {ns : List FullName} (hnd : ns.Nodup)
    (hs : ∀ m, s.descsByName.get m = (r.descsByName.get m).or (if m ∈ ns then some (.package []) else none)) :
    (∀ m, (s.cleanup ns).descsByName.get m = r.descsByName.get m) ↔ r.Intact ns := by
  induction ns generalizing s with
  | nil =>
    rw [Intact, iff_true]
    intro m
    rw [cleanup, hs, if_neg List.not_mem_nil, Option.or_none]
  | cons n ns ih =>
    rw [List.nodup_cons] at hnd
    have hn := hs n
    rw [if_pos (List.mem_cons_self ..)] at hn
    rw [Intact]
    by_cases hnone : r.descsByName.get n = none
    · -- the package was created
      rw [if_pos hnone]
      rw [hnone] at hn
      rw [cleanup_of_empty (packageAt_eq_some.mpr hn)]
      apply ih hnd.2
      intro m
      rw [deleteName, Dict.get_delete]
      split
      · next hm => rw [hm, hnone, if_neg hnd.1]; rfl
      · next hm => simp only [hs, List.mem_cons, hm, false_or]
    · rw [if_neg hnone]
      obtain ⟨e, he⟩ := Option.ne_none_iff_exists'.mp hnone
      rw [he, Option.some_or] at hn
      have hat : s.packageAt n = r.packageAt n := by rw [packageAt, hn, packageAt, he]
      by_cases hempty : r.packageAt n = some []
      · -- the package goes although it was there
        refine iff_of_false (fun hall => hnone ?_) fun hintact => hintact.1 hempty
        obtain hkept | ⟨-, -, hgone⟩ := get_cleanup (s.deleteName n) ns n
        · rw [← hall n, cleanup_of_empty (hat.trans hempty), hkept]
          exact Dict.get_delete_self _ _
        · rw [← hall n, cleanup_of_empty (hat.trans hempty), hgone]
      · -- the cleanup ends here
        rw [cleanup_of_not_empty (hat ▸ hempty), and_iff_right hempty]
        constructor
        · intro hall m hm hmissing
          have hm' := hs m
          rw [hall, hmissing, if_pos (List.mem_cons_of_mem _ hm)] at hm'
          cases hm'
        · intro hall m
          rw [hs]
          split
          · next hm =>
            obtain rfl | hm := List.mem_cons.mp hm
            · rw [he]
              rfl
            · obtain ⟨e', he'⟩ := Option.ne_none_iff_exists'.mp (hall m hm)
              rw [he']
              rfl
          · exact Option.or_none

theorem cleanup_restores_or_vacant {ns : List FullName}
    (hs : ∀ m, s.descsByName.get m = (r.descsByName.get m).or (if m ∈ ns then some (.package []) else none))
    (n : FullName) :
    (s.cleanup ns).descsByName.get n = r.descsByName.get n ∨ n ∈ ns ∧ r.Vacant n ∧ (s.cleanup ns).Vacant n := by
  rw [Vacant, Vacant]
  obtain hkept | ⟨hmem, hempty, hgone⟩ := get_cleanup s ns n
  · rw [hkept, hs n]
    rcases hold : r.descsByName.get n with _ | e
    · split
      · next hmem => exact .inr ⟨hmem, .inl rfl, .inr rfl⟩
      · exact .inl rfl
    · exact .inl rfl
  · rw [packageAt_eq_some, hs n] at hempty
    rw [hgone]
    rcases hold : r.descsByName.get n with _ | e
    · exact .inl rfl
    · rw [hold] at hempty
      exact .inr ⟨hmem, .inr hempty, .inl rfl⟩

/-- A registry before a file is added and after it is removed again: an entry that differs is that of an empty
package around the file. -/
structure Withdrawn (f : FileDescriptor) (r r' : NamespacedFiles) : Prop where
  entries : ∀ n, r'.descsByName.get n = r.descsByName.get n ∨ n ∈ f.package.chain ∧ r.Vacant n ∧ r'.Vacant n
  filesByPath : ∀ p, r'.filesByPath.get p = r.filesByPath.get p
  fileDescs : ∀ p, r'.fileDescs.get p = r.fileDescs.get p
  files : r'.rangeFiles = r.rangeFiles
  count : r'.numFiles = r.numFiles
  restored : (∀ n, r'.descsByName.get n = r.descsByName.get n) ↔ r.Intact f.package.chain

/-- With its names gone and the file out of its package, what is left of it are the packages. -/
theorem get_withdrawn {fs : List FileDescriptor} (hf : f.WellScoped) (hfree : r.Free f)
    (hfs : (r.ensurePackages f.package.chain).packageAt f.package = some fs) (hnew : ∀ g ∈ fs, g.path ≠ f.path)
    (n : FullName) :
    ((f.topLevelNames.foldl deleteName (r.enter f fs)).dropFromPackage f.package f.path).descsByName.get n =
      (r.ensurePackages f.package.chain).descsByName.get n := by
  have hname : ∀ n ∈ f.topLevelNames, (r.ensurePackages f.package.chain).descsByName.get n = none := by
    intro n hn
    have hchain : n ∉ f.package.chain :=
      fun hmem => hf.wellNamed.apart n hn (FileDescriptor.mem_packageNames.mpr (.inl hmem))
    rw [get_ensurePackages, hfree.names n hn, if_neg hchain]
    rfl
  have hpkg : f.package ∉ f.topLevelNames := fun hmem => hf.wellNamed.apart _ hmem f.package_mem_packageNames
  rw [get_dropFromPackage, get_foldl_deleteName]
  by_cases hn : n ∈ f.topLevelNames
  · have hne : n ≠ f.package := fun heq => hpkg (heq ▸ hn)
    rw [if_pos hn, if_neg hne, hname n hn]
  · rw [if_neg hn, get_enter, find_topLevel_eq_none hn, Option.map_none, Option.none_or]
    split
    · next heq =>
      have hremove : removeFileByPath (fs ++ [f]) f.path = fs := by
        rw [removeFileByPath, List.eraseP_append_right _ (by simpa using hnew)]
        simp
      rw [Option.map_some, NamedEntry.without, hremove, heq, packageAt_eq_some.mp hfs]
    · rw [get_ensurePackages]

theorem Registers.withdraw (h : Registers r files) (hf : f.WellScoped) (hreg : r.registerFile f = .ok r') :
    ∃ s, r'.unregisterFile f.path = .ok s ∧ Withdrawn f r s := by
  obtain ⟨hpath, hfree, hins⟩ := registerFile_eq_ok_iff.mp hreg
  have hfresh := h.indexed.stores.paths.eq_none_iff.mp hpath
  have had := h.indexed.admits hfresh hfree hf.wellNamed
  have hregisters := h.indexed.toTables.registers_insert had h.distinct h.count hins
  obtain ⟨s, hs, hwithdrawn⟩ := hregisters.unregister (List.mem_append_right files (List.mem_singleton_self f))
  obtain ⟨fs, hfs, rfl⟩ := insertFileLocked_eq_ok_iff.mp hins
  have hnew : ∀ g ∈ fs, g.path ≠ f.path := by
    intro g hg heq
    have hmem := (h.indexed.toTables.perm_ensured had hfs).mem_iff.mp hg
    exact hfresh (List.mem_map.mpr ⟨g, (List.mem_filter.mp hmem).1, heq⟩)
  have hget := fun n => (get_withdrawn hf hfree hfs hnew n).trans (get_ensurePackages r f.package.chain n)
  refine ⟨s, hs, ?_⟩
  rw [unregisterFile, fileDescs_enter, Dict.get_set_self] at hs
  cases hs
  have hsame := ((sameFiles_deleteNames (r.enter f fs) f.topLevelNames).trans
    (sameFiles_leavePackage _ f.package f.path)).deleteFile f.path
  have hframe : ∀ n, (((f.topLevelNames.foldl deleteName (r.enter f fs)).leavePackage f.package f.path).deleteFile
      f.path).descsByName.get n = (((f.topLevelNames.foldl deleteName (r.enter f fs)).dropFromPackage f.package
        f.path).cleanup f.package.chain).descsByName.get n := by
    intro n
    rw [leavePackage_eq]
    rfl
  constructor
  · intro n
    have hn := cleanup_restores_or_vacant hget n
    rw [Vacant, Vacant] at hn ⊢
    rw [hframe]
    exact hn
  · intro p
    rw [hsame.filesByPath]
    change ((r.enter f fs).filesByPath.delete f.path).get p = _
    rw [filesByPath_enter]
    refine Dict.get_delete_set ?_ _ p
    rw [get_filesByPath, hpath]
    rfl
  · intro p
    rw [hsame.fileDescs]
    change ((r.enter f fs).fileDescs.delete f.path).get p = _
    rw [fileDescs_enter]
    exact Dict.get_delete_set (h.indexed.fileDescs_eq_none hfresh) _ p
  · rw [hwithdrawn.indexed.stores.rangeFiles, h.indexed.stores.rangeFiles, List.filter_append,
      List.filter_singleton, decide_eq_false (not_not.mpr rfl), cond_false, List.append_nil, List.filter_eq_self]
    exact fun g hg => decide_eq_true fun heq => hfresh (List.mem_map.mpr ⟨g, hg, heq⟩)
  · rw [hsame.numFiles]
    change (r.enter f fs).numFiles - 1 = _
    rw [numFiles_enter, Int.add_sub_cancel]
  · simp only [hframe]
    exact cleanup_restores_iff (nodup_chain _) hget

/-! ## Lookups -/

theorem findSome?_join_eq_none {l : List FullName} (target : FullName) (h : ∀ n ∈ l, r.descriptorAt n = none) :
    (l.findSome? fun outer =>
      (r.descsByName.get outer).map fun entry => entry.resolve target (target.drop outer.length)).join = none := by
  induction l with
  | nil => rfl
  | cons n l ih =>
    have hn := h n (List.mem_cons_self ..)
    rw [List.findSome?_cons]
    rcases hget : r.descsByName.get n with _ | (fs | d)
    · exact ih fun m hm => h m (List.mem_cons_of_mem _ hm)
    · rfl
    · rw [descriptorAt_eq_some.mpr hget] at hn
      cases hn

section
variable (h : Withdrawn f r r')
include h

theorem Withdrawn.descriptorAt_eq (n : FullName) : r'.descriptorAt n = r.descriptorAt n := by
  obtain hsame | ⟨-, hvacant, hvacant'⟩ := h.entries n
  · rw [descriptorAt, hsame, descriptorAt]
  · have hnone : ∀ {s : NamespacedFiles}, s.Vacant n → s.descriptorAt n = none := by
      rintro s (hs | hs) <;> rw [descriptorAt, hs] <;> rfl
    rw [hnone hvacant, hnone hvacant']

theorem Withdrawn.search_eq (hfree : r.Free f) (target n : FullName) :
    (n.chain.findSome? fun outer =>
      (r'.descsByName.get outer).map fun entry => entry.resolve target (target.drop outer.length)).join =
    (n.chain.findSome? fun outer =>
      (r.descsByName.get outer).map fun entry => entry.resolve target (target.drop outer.length)).join := by
  induction n using List.reverseRecOn with
  | nil => rfl
  | append_singleton n s ih =>
    obtain hsame | ⟨hchain, -⟩ := h.entries (n ++ [s])
    · rw [FullName.chain_concat, List.findSome?_cons, List.findSome?_cons, hsame]
      rcases r.descsByName.get (n ++ [s]) with _ | e
      · exact ih
      · rfl
    · -- from here on there are only packages
      have hnone : ∀ m ∈ FullName.chain (n ++ [s]), r.descriptorAt m = none :=
        fun m hm => hfree.packages m (FullName.chain_trans hm hchain)
      rw [findSome?_join_eq_none target hnone, findSome?_join_eq_none target]
      exact fun m hm => (h.descriptorAt_eq m).trans (hnone m hm)

theorem Withdrawn.answersLike (hfree : r.Free f) : AnswersLike r r' where
  descriptor n parent := by
    have hlocal : r'.findDescriptorByNameLocal n = r.findDescriptorByNameLocal n := by
      rw [findDescriptorByNameLocal, findDescriptorByNameLocal]
      rw [h.search_eq hfree n n]
    rw [FilesChain.findDescriptorByName, FilesChain.findDescriptorByName, hlocal]
  file p parent := by
    rw [FilesChain.findFileByPath, FilesChain.findFileByPath, h.filesByPath]
  files := h.files
  package n := by
    rw [rangeFilesByPackage, rangeFilesByPackage]
    obtain hsame | ⟨-, hvacant, hvacant'⟩ := h.entries n
    · rw [hsame]
    · have hnil : ∀ {s : NamespacedFiles}, s.Vacant n → s.rangeFilesByPackage n = [] := by
        rintro s (hs | hs) <;> rw [rangeFilesByPackage, hs]
      exact (hnil hvacant').trans (hnil hvacant).symm
  count := h.count

end

/-! ## The next registration -/

theorem SameState.isDescriptor_eq (h : SameState r r') : r'.isDescriptor = r.isDescriptor := by
  funext n
  rw [isDescriptor, h.descsByName, isDescriptor]

theorem SameState.acceptsLike (h : SameState r r') : AcceptsLike r r' := by
  intro g
  have hins : (r'.insertFileLocked g).map (fun _ => ()) = (r.insertFileLocked g).map fun _ => () := by
    have hget : (r'.ensurePackages g.package.chain).descsByName.get g.package =
        (r.ensurePackages g.package.chain).descsByName.get g.package := by
      rw [get_ensurePackages, get_ensurePackages, h.descsByName]
    rw [insertFileLocked, insertFileLocked, hget]
    rcases (r.ensurePackages g.package.chain).descsByName.get g.package with _ | (fs | d) <;> rfl
  rw [registerFile, registerFile, h.filesByPath, h.isDescriptor_eq]
  simp only [h.descsByName]
  split
  · rfl
  · split
    · rfl
    · split
      · rfl
      · exact hins

/-- A file with one message, which has the name of a package. -/
def probe (path : String) (n : FullName) : FileDescriptor := ⟨path, n.parent, [], [⟨n, [], [], [], [], []⟩], [], [], []⟩

theorem Sound.probe_iff (h : Sound r) (hpath : r.fileAt path = none) (hfree : ∀ m ∈ n.chain, r.descriptorAt m = none)
    (hne : n ≠ []) : (∃ s, r.registerFile (probe path n) = .ok s) ↔ r.descsByName.get n = none := by
  have hparent : ∀ m ∈ n.parent.chain, m ∈ n.chain := by
    intro m hm
    obtain ⟨l, s, rfl⟩ := (List.eq_nil_or_concat n).resolve_left hne
    rw [FullName.parent, List.concat_eq_append, List.dropLast_concat] at hm
    rw [List.concat_eq_append, FullName.chain_concat]
    exact List.mem_cons_of_mem _ hm
  simp only [registerFile_eq_ok_iff]
  constructor
  · rintro ⟨s, -, hchecks, -⟩
    exact hchecks.names n (List.mem_singleton_self n)
  · intro hnone
    have hinsert : ∃ s, r.insertFileLocked (probe path n) = .ok s := by
      rw [h.insert_iff]
      obtain hchain | hroot := FileDescriptor.mem_packageNames.mp (probe path n).package_mem_packageNames
      · exact hfree _ (hparent _ hchain)
      · rw [hroot]
        exact descriptorAt_of_package h.root
    obtain ⟨s, hs⟩ := hinsert
    refine ⟨s, hpath, ⟨fun m hm => hfree m (hparent m hm), fun m hm => ?_⟩, hs⟩
    rw [List.mem_singleton.mp hm]
    exact hnone

theorem Reachable.mono {kind kind' : FilesCall → Prop} (h : Reachable kind r) (hkind : ∀ c, kind c → kind' c) :
    Reachable kind' r := by
  induction h with
  | new => exact .new
  | call _ hc hexec ih => exact ih.call (hkind _ hc) hexec

theorem Reachable.reached (h : Reachable FilesCall.Plain r) : Reached r := by
  induction h with
  | new => exact .new
  | @call r c r' _ hc hexec ih =>
    refine ih.call ?_ hexec
    cases c with
    | register f => exact hc.wellNamed
    | unregister path => exact hc
    | update f => exact hc.elim

theorem FilesCall.Plain.valid {c : FilesCall} (h : c.Plain) : c.Valid := by
  cases c with
  | register f => exact h
  | unregister path => exact h
  | update f => exact h.elim

/-- Where an entry is not restored, some file is accepted before and refused after, or the other way round. -/
theorem Withdrawn.acceptsLike_iff (h : Withdrawn f r r') (hr : Sound r) (hr' : Sound r') (hfree : r.Free f)
    (hpath : r.fileAt f.path = none) : AcceptsLike r r' ↔ r.Intact f.package.chain := by
  rw [← h.restored]
  refine ⟨fun hlike n => ?_, fun hall => SameState.acceptsLike ⟨hall, h.filesByPath, h.fileDescs, h.count⟩⟩
  obtain hsame | ⟨hchain, hvacant, hvacant'⟩ := h.entries n
  · exact hsame
  · have hne := (FullName.mem_chain.mp hchain).1
    have hnone : ∀ m ∈ n.chain, r.descriptorAt m = none :=
      fun m hm => hfree.packages m (FullName.chain_trans hm hchain)
    have hpath' : r'.fileAt f.path = none := by rw [fileAt, h.filesByPath, ← fileAt, hpath]
    have hprobe := hr.probe_iff hpath hnone hne
    have hprobe' := hr'.probe_iff hpath' (fun m hm => (h.descriptorAt_eq m).trans (hnone m hm)) hne
    have hok : ∀ res : Except RegistryErr NamespacedFiles, (∃ s, res = .ok s) ↔ res.map (fun _ => ()) = .ok () := by
      intro res
      cases res <;> simp [Except.map]
    have hverdict : (∃ s, r'.registerFile (probe f.path n) = .ok s) ↔ ∃ s, r.registerFile (probe f.path n) = .ok s := by
      rw [hok, hok, hlike]
    rw [hprobe, hprobe'] at hverdict
    obtain hold | hold := hvacant
    · rw [hold, hverdict.mpr hold]
    · obtain hnew | hnew := hvacant'
      · rw [hverdict.mp hnew] at hold
        cases hold
      · rw [hold, hnew]

/-- A file that was accepted can be taken back, and no lookup sees a difference. The next registrations see
none exactly when the packages around the file were all there, or none of them up to one with files. -/
theorem unregisterFile_undoes_iff (h : Reachable FilesCall.Plain r) (hf : f.WellScoped)
    (hreg : r.registerFile f = .ok r') :
    ∃ s, r'.unregisterFile f.path = .ok s ∧ AnswersLike r s ∧ (AcceptsLike r s ↔ r.Intact f.package.chain) := by
  obtain ⟨files, hregisters⟩ := h.reached.registers
  obtain ⟨s, hs, hwithdrawn⟩ := hregisters.withdraw hf hreg
  obtain ⟨hpath, hfree, -⟩ := registerFile_eq_ok_iff.mp hreg
  have hsound : Sound r := (h.mono fun c => FilesCall.Plain.valid).sound
  have hsound' : Sound s := (hsound.step (c := .register f) hf hreg).unregister hs
  exact ⟨s, hs, hwithdrawn.answersLike hfree, hwithdrawn.acceptsLike_iff hsound hsound' hfree hpath⟩

/-- A file of package `a.c` comes and goes next to files of the packages `a.b` and `a`. -/
theorem unregisterFile_undoes_iff_nested :
    ∃ r₁ r r' s, new.registerFile (Sample.fileIn "b.proto" ["a", "b"] "M") = .ok r₁ ∧
    r₁.registerFile (Sample.fileIn "a.proto" ["a"] "N") = .ok r ∧
    r.registerFile (Sample.fileIn "c.proto" ["a", "c"] "M") = .ok r' ∧ r'.unregisterFile "c.proto" = .ok s ∧
    AnswersLike r s ∧ AcceptsLike r s := by
  have hfacts : ∃ r₁ r r', new.registerFile (Sample.fileIn "b.proto" ["a", "b"] "M") = .ok r₁ ∧
      r₁.registerFile (Sample.fileIn "a.proto" ["a"] "N") = .ok r ∧
      r.registerFile (Sample.fileIn "c.proto" ["a", "c"] "M") = .ok r' ∧ r.descsByName.get ["a", "c"] = none ∧
      r.descsByName.get ["a"] ≠ none ∧ r.packageAt ["a"] ≠ some [] :=
    ⟨_, _, _, rfl, rfl, rfl, rfl, by rintro ⟨⟩, by rintro ⟨⟩⟩
  obtain ⟨r₁, r, r', hr₁, hr, hr', hnone, hsome, hfiles⟩ := hfacts
  have hintact : r.Intact [["a", "c"], ["a"]] := by
    rw [Intact, if_pos hnone, Intact, if_neg hsome]
    exact ⟨hfiles, nofun⟩
  have hreach : Reachable FilesCall.Plain r :=
    .call (c := .register _) (.call (c := .register _) .new (by decide : FileDescriptor.WellScoped _) hr₁)
      (by decide : FileDescriptor.WellScoped _) hr
  obtain ⟨s, hs, hanswers, haccepts⟩ := unregisterFile_undoes_iff hreach (by decide) hr'
  exact ⟨r₁, r, r', s, hr₁, hr, hr', hs, hanswers, haccepts.mpr hintact⟩

/-- A file of package `a.c` comes and goes next to one of package `a.b`. Package `a` goes with it, and a message
of that name is accepted. -/
theorem unregisterFile_prunes : ∃ r r' s, new.registerFile (Sample.fileIn "b.proto" ["a", "b"] "M") = .ok r ∧
    r.registerFile (Sample.fileIn "c.proto" ["a", "c"] "M") = .ok r' ∧ r'.unregisterFile "c.proto" = .ok s ∧
    r.registerFile (Sample.fileIn "a.proto" [] "a") = .error (.nameConflict "a.proto" ["a"]) ∧
    ∃ t, s.registerFile (Sample.fileIn "a.proto" [] "a") = .ok t :=
  ⟨_, _, _, rfl, rfl, rfl, rfl, _, rfl⟩

end ProtoRegistry.NamespacedFiles
