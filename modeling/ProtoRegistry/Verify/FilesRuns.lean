import ProtoRegistry.Model.Sample
import ProtoRegistry.Verify.FilesIndex

/-!
# Runs of a registry of files

Whatever files are registered, updated and unregistered, the tables of the registry agree. An update is not
checked against the index, so it has to be made where it finds nothing in its way. The packages that a
removal takes with it may be missed by others for a while, but never by a file.
-/

namespace ProtoRegistry.NamespacedFiles

/-! ## Calls -/

inductive FilesCall where
  | register (f : FileDescriptor)
  | unregister (path : String)
  | update (f : FileDescriptor)

def FilesCall.exec (r : NamespacedFiles) : FilesCall → Except RegistryErr NamespacedFiles
  | .register f => r.registerFile f
  | .unregister path => r.unregisterFile path
  | .update f => r.updateFile f

/-- The index once the file at a path, if there is one, is removed. -/
def without (r : NamespacedFiles) (path : String) : NamespacedFiles :=
  match r.unregisterFile path with
  | .ok r' => r'
  | .error _ => r

/-- The files are valid, and an update conflicts with nothing but the file it replaces. -/
def FilesCall.Allowed (r : NamespacedFiles) : FilesCall → Prop
  | .register f => f.WellNamed
  | .unregister _ => True
  | .update f => f.WellNamed ∧ (r.without f.path).Free f

/-- A state that calls lead to. A call that fails changes nothing. -/
inductive Reached : NamespacedFiles → Prop where
  | new : Reached .new
  | call : Reached r → FilesCall.Allowed r c → c.exec r = .ok r' → Reached r'

variable {r r' : NamespacedFiles} {files : List FileDescriptor} {f g : FileDescriptor}

/-! ## What the registry keeps -/

/-- The registry holds the files, which share no name, and counts them. -/
structure Registers (r : NamespacedFiles) (files : List FileDescriptor) : Prop where
  indexed : Indexed r files
  distinct : (files.flatMap (·.topLevelNames)).Nodup
  count : r.numFiles = files.length

/-- A file that passes the checks is admitted. -/
theorem Indexed.admits (h : Indexed r files) (hpath : f.path ∉ files.map (·.path)) (hfree : r.Free f)
    (hwell : f.WellNamed) : r.Admits f files := by
  refine ⟨hpath, fun n hn => ?_, fun n hn => ?_, fun n _ d => h.descriptors n d, fun g hg n hn hgn => ?_, hwell⟩
  · rcases FileDescriptor.mem_packageNames.mp hn with hn | rfl
    · exact hfree.packages n hn
    · exact descriptorAt_of_package h.root
  · exact (get_eq_none_iff.mp (hfree.names n hn)).2
  · have hsome := h.descriptorAt_isSome hg hgn
    rw [(get_eq_none_iff.mp (hfree.names n hn)).1] at hsome
    cases hsome

theorem Tables.registers_insert (h : Tables r files) (had : r.Admits f files)
    (hdistinct : (files.flatMap (·.topLevelNames)).Nodup) (hcount : r.numFiles = files.length)
    (hins : r.insertFileLocked f = .ok r') : Registers r' (files ++ [f]) := by
  obtain ⟨fs, _, heq, hindexed⟩ := h.insert had
  rw [hins] at heq
  cases heq
  refine ⟨hindexed, ?_, ?_⟩
  · rw [List.flatMap_append, List.flatMap_singleton, List.nodup_append]
    refine ⟨hdistinct, had.wellNamed.nodup, fun n hn m hm heq => ?_⟩
    obtain ⟨g, hg, hgn⟩ := List.mem_flatMap.mp hn
    exact had.fresh g hg m hm (heq ▸ hgn)
  · have hnum : (r.enter f fs).numFiles = r.numFiles + 1 := congrArg (· + 1) (sameFiles_enter r f fs).numFiles
    rw [hnum, hcount, List.length_append, List.length_singleton]
    rfl

theorem length_filter_path (hnd : (files.map (·.path)).Nodup) (hg : g ∈ files) :
    (files.filter (·.path ≠ g.path)).length + 1 = files.length := by
  rw [← removeFileByPath_eq_filter hnd, removeFileByPath]
  have hlen : (files.eraseP (·.path = g.path)).length = files.length - 1 :=
    List.length_eraseP_of_mem hg (by simp)
  have hpos := List.length_pos_of_mem hg
  omega

theorem Registers.numFiles_depart (h : Registers r files) (hg : g ∈ files) (names : List FullName)
    (fs : List FileDescriptor) (ns : List FullName) :
    (r.depart g names fs ns).numFiles = (files.filter (·.path ≠ g.path)).length := by
  have hnum : (r.depart g names fs ns).numFiles = r.numFiles - 1 :=
    congrArg (· - 1) (r.sameFiles_clear g names fs ns).numFiles
  have hlen := length_filter_path h.indexed.stores.paths_nodup hg
  rw [hnum, h.count]
  omega

theorem Registers.distinct_filter (h : Registers r files) (p : FileDescriptor → Bool) :
    ((files.filter p).flatMap (·.topLevelNames)).Nodup := by
  have hsub : List.Sublist ((files.filter p).flatMap (·.topLevelNames)) (files.flatMap (·.topLevelNames)) :=
    List.filter_sublist.flatMap _
  exact h.distinct.sublist hsub

theorem Registers.unregister (h : Registers r files) (hg : g ∈ files) : ∃ r', r.unregisterFile g.path = .ok r' ∧
    Registers r' (files.filter (·.path ≠ g.path)) := by
  obtain ⟨fs, _, heq, hindexed⟩ := h.indexed.unregister h.distinct hg
  exact ⟨_, heq, hindexed, h.distinct_filter _, h.numFiles_depart hg _ _ _⟩

/-! ## Updating -/

theorem cleanup_of_empty (h : r.packageAt m = some []) (ns : List FullName) :
    r.cleanup (m :: ns) = (r.deleteName m).cleanup ns := by
  rw [cleanup, packageAt_eq_some.mp h]

theorem cleanup_of_not_empty (h : r.packageAt m ≠ some []) (ns : List FullName) : r.cleanup (m :: ns) = r := by
  rw [cleanup]
  split
  · next hget => exact absurd (packageAt_eq_some.mpr hget) h
  · rfl

theorem packageAt_cleanup_congr (ns : List FullName) {r r' : NamespacedFiles} (h : ∀ n, r'.packageAt n = r.packageAt n)
    (n : FullName) : (r'.cleanup ns).packageAt n = (r.cleanup ns).packageAt n := by
  induction ns generalizing r r' with
  | nil => exact h n
  | cons m ns ih =>
    by_cases hm : r.packageAt m = some []
    · have hdelete : ∀ (r : NamespacedFiles) k, (r.deleteName m).packageAt k = if k =
          m then none else r.packageAt k := by
        intro r k
        have hat := (at_foldl_deleteName r [m] k).2
        simpa using hat
      rw [cleanup_of_empty hm, cleanup_of_empty ((h m).trans hm)]
      refine ih fun k => ?_
      rw [hdelete, hdelete, h]
    · rw [cleanup_of_not_empty hm, cleanup_of_not_empty fun hm' => hm ((h m).symm.trans hm')]
      exact h n

def staleNames (old new : FileDescriptor) : List FullName := old.topLevelNames.filter (· ∉ new.topLevelNames)

theorem staleNames_subset (old new : FileDescriptor) : staleNames old new ⊆ old.topLevelNames :=
  List.filter_subset_self _

/-- An update keeps the names that the files share, and the package if it is the same. -/
theorem Indexed.removeStale_eq (h : Indexed r files) (hg : g ∈ files) (hpath : g.path = f.path)
    (hfs : r.packageAt g.package = some fs) :
    r.removeStale f ⟨g.package, g.topLevelNames⟩ =
      r.depart g (staleNames g f) fs (if g.package = f.package then [] else g.package.chain) := by
  have hpkg := (h.packageAt_deleted hg (staleNames_subset g f) g.package).trans hfs
  rw [packageAt_eq_some] at hpkg
  rw [removeStale, ← hpath]
  by_cases hsame : g.package = f.package
  · rw [if_neg (not_not.mpr hsame), if_pos hsame, if_pos hsame, ← hsame]
    have hdrop : (((staleNames g f).foldl deleteName r).deleteFile g.path).dropFromPackage g.package g.path =
        (((staleNames g f).foldl deleteName r).deleteFile g.path).setPackage g.package
          (removeFileByPath fs g.path) := by
      have hget : (((staleNames g f).foldl deleteName r).deleteFile g.path).descsByName.get g.package =
          some (.package fs) := hpkg
      rw [dropFromPackage, hget]
    exact hdrop
  · rw [if_pos hsame, if_neg hsame, if_neg hsame]
    have hleave : ((staleNames g f).foldl deleteName r).leavePackage g.package g.path =
        (r.clear g (staleNames g f) fs).cleanup g.package.chain := by
      rw [leavePackage, hpkg]
      rfl
    exact congrArg (deleteFile · g.path) hleave

section
variable (h : Registers r files) (hg : g ∈ files) (hpath : g.path = f.path)
include h hg hpath

/-- After the stale part of the old file is gone, the new one is admitted. -/
theorem Registers.admits_stale (hfs : r.packageAt g.package = some fs) (hwell : f.WellNamed)
    (hfree : (r.depart g g.topLevelNames fs g.package.chain).Free f) :
    (r.depart g (staleNames g f) fs (if g.package = f.package then [] else g.package.chain)).Admits f
      (files.filter (·.path ≠ g.path)) := by
  have hindexed := h.indexed
  have hdeparted : Indexed (r.depart g g.topLevelNames fs g.package.chain) (files.filter (·.path ≠ g.path)) :=
    ⟨hindexed.tables_depart hg (List.Subset.refl _) hfs (nil_not_mem_chain _),
      hindexed.descriptors_depart h.distinct hg⟩
  have hstale : ∀ n ∉ f.topLevelNames, (n ∈ staleNames g f ↔ n ∈ g.topLevelNames) := by
    intro n hn
    simp [staleNames, hn]
  have hdesc : ∀ n ∉ f.topLevelNames, (r.depart g (staleNames g f) fs
      (if g.package = f.package then [] else g.package.chain)).descriptorAt n =
      (r.depart g g.topLevelNames fs g.package.chain).descriptorAt n := by
    intro n hn
    rw [hindexed.descriptorAt_depart hg, hindexed.descriptorAt_depart hg]
    exact if_congr (hstale n hn) rfl rfl
  have hclear : ∀ n, (r.clear g (staleNames g f) fs).packageAt n = (r.clear g g.topLevelNames fs).packageAt n := by
    intro n
    rw [hindexed.packageAt_clear hg (staleNames_subset g f), hindexed.packageAt_clear hg (List.Subset.refl _)]
  have hadmits := hdeparted.admits (f := f) ?_ hfree hwell
  · refine ⟨hadmits.path, fun n hn => ?_, fun n hn => ?_, fun n hn d => ?_, hadmits.fresh, hwell⟩
    · rw [hdesc n fun hmem => hwell.apart n hmem hn]
      exact hadmits.packages n hn
    · have hnone : ((r.clear g g.topLevelNames fs).cleanup g.package.chain).packageAt n = none := hadmits.names n hn
      change ((r.clear g (staleNames g f) fs).cleanup _).packageAt n = none
      by_cases hsame : g.package = f.package
      · -- the package stays, and its name is not one of the file
        rw [if_pos hsame, cleanup, hclear]
        obtain heq | ⟨hchain, _⟩ := packageAt_cleanup (r.clear g g.topLevelNames fs) g.package.chain n
        · exact heq.symm.trans hnone
        · rw [hsame] at hchain
          exact absurd (FileDescriptor.mem_packageNames.mpr (.inl hchain)) (hwell.apart n hn)
      · rw [if_neg hsame, packageAt_cleanup_congr _ hclear]
        exact hnone
    · rw [hdesc n hn]
      exact hadmits.others n hn d
  · intro hmem
    obtain ⟨g', hg', hp⟩ := List.mem_map.mp hmem
    exact of_decide_eq_true (List.mem_filter.mp hg').2 (hp.trans hpath.symm)

theorem Registers.replace (hwell : f.WellNamed) (hfree : (r.without f.path).Free f) (hup : r.updateFile f = .ok r') :
    Registers r' (files.filter (·.path ≠ g.path) ++ [f]) := by
  obtain ⟨fs, hfs, heq, _⟩ := h.indexed.unregister h.distinct hg
  have hwithout : r.without f.path = r.depart g g.topLevelNames fs g.package.chain := by
    rw [without, ← hpath, heq]
  have hrec : r.fileDescs.get f.path = some ⟨g.package, g.topLevelNames⟩ :=
    (h.indexed.records _ _).mpr ⟨g, hg, hpath, rfl⟩
  have hns : [] ∉ if g.package = f.package then [] else g.package.chain := by
    split
    · exact List.not_mem_nil
    · exact nil_not_mem_chain _
  rw [updateFile, hrec] at hup
  simp only [h.indexed.removeStale_eq hg hpath hfs] at hup
  refine Tables.registers_insert ?_ (h.admits_stale hg hpath hfs hwell (hwithout ▸ hfree)) (h.distinct_filter _) ?_ hup
  · exact h.indexed.tables_depart hg (staleNames_subset g f) hfs hns
  · exact h.numFiles_depart hg _ _ _

end

theorem Tables.mem_of_record (h : Tables r files) (hrec : r.fileDescs.get p = some record) :
    ∃ g ∈ files, g.path = p := by
  obtain ⟨g, hg, hpath, _⟩ := (h.records _ _).mp hrec
  exact ⟨g, hg, hpath⟩

/-- Every call that is allowed keeps the tables in step. -/
theorem Registers.step (h : Registers r files) (hallowed : FilesCall.Allowed r c) (hexec : c.exec r = .ok r') :
    ∃ files', Registers r' files' := by
  cases c with
  | register f =>
    obtain ⟨hpath, hfree, hins⟩ := registerFile_eq_ok_iff.mp hexec
    have hadmits := h.indexed.admits (h.indexed.stores.paths.eq_none_iff.mp hpath) hfree hallowed
    exact ⟨_, h.indexed.toTables.registers_insert hadmits h.distinct h.count hins⟩
  | unregister path =>
    cases hrec : r.fileDescs.get path with
    | none =>
      have hfail : r.unregisterFile path = .error .notFound := by rw [unregisterFile, hrec]
      exact absurd (hfail.symm.trans hexec) (by simp)
    | some record =>
      obtain ⟨g, hg, rfl⟩ := h.indexed.mem_of_record hrec
      obtain ⟨r'', heq, hreg⟩ := h.unregister hg
      cases heq.symm.trans hexec
      exact ⟨_, hreg⟩
  | update f =>
    obtain ⟨hwell, hfree⟩ := hallowed
    cases hrec : r.fileDescs.get f.path with
    | none =>
      have hwithout : r.without f.path = r := by rw [without, unregisterFile, hrec]
      have hpath : f.path ∉ files.map (·.path) := by
        intro hmem
        obtain ⟨g, hg, hp⟩ := List.mem_map.mp hmem
        have hsome := (h.indexed.records f.path _).mpr ⟨g, hg, hp, rfl⟩
        rw [hrec] at hsome
        cases hsome
      have hins : r.insertFileLocked f = .ok r' := by
        rw [FilesCall.exec, updateFile, hrec] at hexec
        exact hexec
      have hadmits := h.indexed.admits hpath (hwithout ▸ hfree) hwell
      exact ⟨_, h.indexed.toTables.registers_insert hadmits h.distinct h.count hins⟩
    | some record =>
      obtain ⟨g, hg, hpath⟩ := h.indexed.mem_of_record hrec
      exact ⟨_, h.replace hg hpath hwell hfree hexec⟩

theorem Reached.registers (h : Reached r) : ∃ files, Registers r files := by
  induction h with
  | new => exact ⟨[], Holds.new.toIndexed, List.nodup_nil, rfl⟩
  | call _ hallowed hexec ih =>
    obtain ⟨files, hreg⟩ := ih
    exact hreg.step hallowed hexec

/-! ## The tables agree -/

/-- The index, the packages and the count describe the registered files. -/
structure Consistent (r : NamespacedFiles) : Prop where
  descriptor : ∀ n, (∃ d, r.descsByName.get n = some (.descriptor d)) ↔ ∃! f, f ∈ r.rangeFiles ∧ n ∈ f.topLevelNames
  own : ∀ n d, r.descsByName.get n = some (.descriptor d) →
    ∀ f ∈ r.rangeFiles, n ∈ f.topLevelNames → d ∈ f.topLevel ∧ d.fullName = n
  package : ∀ n, (r.rangeFilesByPackage n).Perm (r.rangeFiles.filter (·.package = n)) ∧ (r.rangeFilesByPackage n).Nodup
  count : r.numFiles = r.filesByPath.keys.length

theorem Tables.perm_rangeFilesByPackage (h : Tables r files) (n : FullName) :
    (r.rangeFilesByPackage n).Perm (files.filter (·.package = n)) := by
  have hrange : r.rangeFilesByPackage n = (r.packageAt n).getD [] := by
    rw [rangeFilesByPackage, packageAt]
    rcases r.descsByName.get n with _ | (fs | d) <;> rfl
  rw [hrange]
  cases hpkg : r.packageAt n with
  | some fs => exact h.packages n fs hpkg
  | none =>
    rw [h.filter_eq_nil hpkg]
    exact List.Perm.refl _

theorem Registers.consistent (h : Registers r files) : r.Consistent := by
  have hrange := h.indexed.stores.rangeFiles
  have hnodup : files.Nodup := List.Nodup.of_map _ h.indexed.stores.paths_nodup
  refine ⟨fun n => ⟨?_, ?_⟩, fun n d hd f hf hn => ?_, fun n => ?_, ?_⟩
  · intro ⟨d, hd⟩
    obtain ⟨hmem, rfl⟩ := (h.indexed.descriptors n d).mp (descriptorAt_eq_some.mpr hd)
    obtain ⟨f, hf, hdf⟩ := List.mem_flatMap.mp hmem
    have hn : d.fullName ∈ f.topLevelNames := List.mem_map_of_mem hdf
    exact ⟨f, ⟨hrange ▸ hf, hn⟩, fun g ⟨hg, hgn⟩ => eq_of_topLevelName h.distinct (hrange ▸ hg) hf hgn hn⟩
  · intro ⟨f, ⟨hf, hn⟩, _⟩
    obtain ⟨d, hd⟩ := Option.isSome_iff_exists.mp (h.indexed.descriptorAt_isSome (hrange ▸ hf) hn)
    exact ⟨d, descriptorAt_eq_some.mp hd⟩
  · obtain ⟨hmem, hname⟩ := (h.indexed.descriptors n d).mp (descriptorAt_eq_some.mpr hd)
    obtain ⟨g, hg, hdg⟩ := List.mem_flatMap.mp hmem
    have hgn : n ∈ g.topLevelNames := hname ▸ List.mem_map_of_mem hdg
    rw [eq_of_topLevelName h.distinct (hrange ▸ hf) hg hn hgn]
    exact ⟨hdg, hname⟩
  · have hperm := h.indexed.perm_rangeFilesByPackage n
    rw [hrange]
    exact ⟨hperm, hperm.nodup_iff.mpr (hnodup.filter _)⟩
  · rw [h.count, h.indexed.stores.keys, List.length_map]

/-- In every state that calls lead to, the tables agree. -/
theorem reached_consistent (h : Reached r) : r.Consistent := by
  obtain ⟨files, hreg⟩ := h.registers
  exact hreg.consistent

theorem reached_consistent_updated : ∃ r₁ r₂, new.registerFile (Sample.file "a.proto" [1]) = .ok r₁ ∧
    r₁.updateFile (Sample.file "a.proto" [2]) = .ok r₂ ∧ r₂.Consistent := by
  obtain ⟨r₁, r₂, hreg, hup, hnames⟩ : ∃ r₁ r₂, new.registerFile (Sample.file "a.proto" [1]) = .ok r₁ ∧
      r₁.updateFile (Sample.file "a.proto" [2]) = .ok r₂ ∧
      (r₁.without "a.proto").descsByName.get ["M2"] = none := ⟨_, _, rfl, rfl, rfl⟩
  have hwell₁ : (Sample.file "a.proto" [1]).WellNamed := by decide
  have hwell₂ : (Sample.file "a.proto" [2]).WellNamed := by decide
  refine ⟨r₁, r₂, hreg, hup, reached_consistent (.call (c := .update _) (.call (c := .register _) .new hwell₁ hreg)
    ⟨hwell₂, ⟨fun n hn => (by cases hn), fun n hn => ?_⟩⟩ hup)⟩
  cases List.mem_singleton.mp hn
  exact hnames

end ProtoRegistry.NamespacedFiles
