import ProtoRegistry.Verify.FilesRuns

/-!
# Registering files one after another

As long as nothing is taken out again, `RegisterFile` accepts a valid file exactly when the file coexists with
those that are there. What it checks is not symmetric: the packages of the new file against the names of the
old ones, and the names of the new file against all entries. Coexisting is, so the order of registration does
not matter.
-/

namespace ProtoRegistry.NamespacedFiles

variable {r r' : NamespacedFiles} {files files' : List FileDescriptor} {f g : FileDescriptor}

/-- A registry to which the files were added, and from which nothing was taken: it has all packages of the
files, those around them included. -/
structure Gathered (r : NamespacedFiles) (files : List FileDescriptor) : Prop extends Holds r files where
  coexist : Coexist files
  chains : ∀ f ∈ files, ∀ n ∈ f.packageNames, (r.packageAt n).isSome

theorem Gathered.new : Gathered .new [] where
  toHolds := .new
  coexist := ⟨List.nodup_nil, List.nodup_nil, fun f hf => by cases hf⟩
  chains f hf := by cases hf

theorem Gathered.package_iff (h : Gathered r files) :
    (r.packageAt n).isSome ↔ n = [] ∨ ∃ f ∈ files, n ∈ f.package.chain := by
  refine ⟨h.package_mem, ?_⟩
  rintro (rfl | ⟨f, hf, hn⟩)
  · exact h.root
  · exact h.chains f hf n (FileDescriptor.mem_packageNames.mpr (.inl hn))

theorem Gathered.apart (h : Gathered r files) (hf : f ∈ files) (hn : n ∈ f.package.chain) (hg : g ∈ files) :
    n ∉ g.topLevelNames :=
  h.coexist.packages f hf n (FileDescriptor.mem_packageNames.mpr (.inl hn)) g hg

section
variable (h : Gathered r files) (had : r.Admits f files)
include h had

theorem Gathered.packages_of_admits (g : FileDescriptor) (hg : g ∈ files ++ [f]) (n : FullName)
    (hn : n ∈ g.packageNames) (g' : FileDescriptor) (hg' : g' ∈ files ++ [f]) : n ∉ g'.topLevelNames := by
  intro hname
  obtain hold | hnew := List.mem_append.mp hg
  · obtain hold' | hnew' := List.mem_append.mp hg'
    · exact h.coexist.packages g hold n hn g' hold' hname
    · -- the package was there when the name was checked
      obtain rfl := List.mem_singleton.mp hnew'
      have hsome := h.chains g hold n hn
      rw [had.names n hname] at hsome
      cases hsome
  · obtain rfl := List.mem_singleton.mp hnew
    obtain hold' | hnew' := List.mem_append.mp hg'
    · -- the name was there when the package was checked
      have hsome := h.descriptorAt_isSome hold' hname
      rw [had.packages n hn] at hsome
      cases hsome
    · obtain rfl := List.mem_singleton.mp hnew'
      exact had.wellNamed.apart n hname hn

theorem Gathered.coexist_of_admits : Coexist (files ++ [f]) where
  paths := by
    rw [List.map_append, List.map_singleton]
    exact List.nodup_append.mpr ⟨h.coexist.paths, List.nodup_singleton _, fun p hp q hq heq =>
      had.path (List.mem_singleton.mp hq ▸ heq ▸ hp)⟩
  topLevel := by
    rw [List.flatMap_append, List.flatMap_singleton, List.nodup_append]
    refine ⟨h.coexist.topLevel, had.wellNamed.nodup, fun n hn m hm heq => ?_⟩
    obtain ⟨g, hg, hgn⟩ := List.mem_flatMap.mp hn
    exact had.fresh g hg m hm (heq ▸ hgn)
  packages := h.packages_of_admits had

theorem Gathered.chains_enter (hg : g ∈ files ++ [f]) (hn : n ∈ g.packageNames) :
    ((r.enter f fs).packageAt n).isSome := by
  obtain hold | hnew := List.mem_append.mp hg
  · exact had.isSome_enter_of_old (h.chains g hold n hn)
  · obtain rfl := List.mem_singleton.mp hnew
    obtain hchain | rfl := FileDescriptor.mem_packageNames.mp hn
    · apply had.isSome_enter
      rw [had.packageAt_ensured, if_pos hchain]
      cases r.packageAt n <;> rfl
    · exact had.isSome_enter_of_old h.root

end

/-- A valid file that passes the checks is added to those that are there. -/
theorem Gathered.register (h : Gathered r files) (hwell : f.WellNamed) (hreg : r.registerFile f = .ok r') :
    Gathered r' (files ++ [f]) := by
  obtain ⟨hpath, hfree, hins⟩ := registerFile_eq_ok_iff.mp hreg
  have had := h.toIndexed.admits (h.stores.paths.eq_none_iff.mp hpath) hfree hwell
  have hco := h.coexist_of_admits had
  obtain ⟨fs, -, heq, -⟩ := h.toTables.insert had
  obtain ⟨r'', hins', hholds⟩ := h.insert hco
  cases hins.symm.trans heq
  cases hins.symm.trans hins'
  exact ⟨hholds, hco, fun g hg n hn => h.chains_enter had hg hn⟩

/-! ## Lists of files -/

/-- `RegisterFile` for the files of a list, up to the first that is rejected. -/
def registerFiles (files : List FileDescriptor) : Except RegistryErr NamespacedFiles := files.foldlM registerFile .new

theorem registerFiles_concat (h : registerFiles files = .ok r) (hf : r.registerFile f = .ok r') :
    registerFiles (files ++ [f]) = .ok r' := by
  rw [registerFiles] at h
  rw [registerFiles, List.foldlM_append, h]
  change [f].foldlM registerFile r = _
  rw [List.foldlM_cons, hf]
  rfl

theorem gathered_registerFiles (hwell : ∀ f ∈ files, f.WellNamed) (h : registerFiles files = .ok r) :
    Gathered r files :=
  foldlM_inv (J := fun done r => Gathered r done) .new (fun _ f _ _ hf hdone hreg => hdone.register (hwell f hf) hreg) h

theorem registerFiles_ok_iff (hwell : ∀ f ∈ files, f.WellNamed) :
    (∃ r, registerFiles files = .ok r) ↔ Coexist files := by
  refine ⟨fun ⟨r, hr⟩ => (gathered_registerFiles hwell hr).coexist, fun hco => ?_⟩
  induction files using List.reverseRecOn with
  | nil => exact ⟨.new, rfl⟩
  | append_singleton files f ih =>
    have hwell' : ∀ g ∈ files, g.WellNamed := fun g hg => hwell g (List.mem_append_left _ hg)
    obtain ⟨r, hr⟩ := ih hwell' (hco.sublist (List.sublist_append_left _ _))
    obtain ⟨r', hr', -⟩ := (gathered_registerFiles hwell' hr).toHolds.register hco
    exact ⟨r', registerFiles_concat hr hr'⟩

/-! ## Answers -/

theorem Tables.numFilesByPackage (h : Tables r files) (n : FullName) :
    r.numFilesByPackage n = (files.filter (·.package = n)).length := by
  rw [← (h.perm_rangeFilesByPackage n).length_eq, NamespacedFiles.numFilesByPackage, rangeFilesByPackage]
  rcases r.descsByName.get n with _ | (fs | d) <;> rfl

/-- The registries answer every lookup alike, whatever they fall back to. -/
structure SameAnswers (r r' : NamespacedFiles) : Prop where
  findFileByPath : ∀ parent path,
    (FilesChain.node r parent).findFileByPath path = (FilesChain.node r' parent).findFileByPath path
  findDescriptorByName : ∀ parent n,
    (FilesChain.node r parent).findDescriptorByName n = (FilesChain.node r' parent).findDescriptorByName n
  numFilesByPackage : ∀ n, r.numFilesByPackage n = r'.numFilesByPackage n

theorem Gathered.sameAnswers (h : Gathered r files) (h' : Gathered r' files') (hperm : files.Perm files') :
    r.SameAnswers r' := by
  obtain ⟨hpath, hname⟩ := h.toHolds.answers h'.toHolds h.coexist hperm
  refine ⟨fun parent path => ?_, fun parent n => ?_, fun n => ?_⟩
  · rw [FilesChain.findFileByPath, FilesChain.findFileByPath, hpath]
  · rw [FilesChain.findDescriptorByName, FilesChain.findDescriptorByName, hname]
  · rw [h.numFilesByPackage, h'.numFilesByPackage]
    exact (hperm.filter _).length_eq

end ProtoRegistry.NamespacedFiles
