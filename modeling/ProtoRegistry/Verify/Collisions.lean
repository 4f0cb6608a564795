import ProtoRegistry.Verify.Populated
import ProtoRegistry.Model.Sample

/-!
# When a namespace can be populated

The name index looks at the schemas only, not at the files the names come from: a file that two schemas
have in their sets counts as a collision. What it lets through can still fail later, at a file whose
package has the name of a descriptor.
-/

namespace ProtoRegistry

/-! ## Applying files -/

namespace NamespacedFiles

variable {r : NamespacedFiles} {done : List FileDescriptor} {f : FileDescriptor}

/-- The files were applied one after another. Their packages are left open. -/
structure Applied (r : NamespacedFiles) (done : List FileDescriptor) : Prop where
  root : (r.packageAt []).isSome
  descriptors : ∀ n, (r.descriptorAt n).isSome ↔ n ∈ done.flatMap (·.topLevelNames)
  records : ∀ p rec, r.fileDescs.get p = some rec →
    ∃ g ∈ done, g.path = p ∧ rec = ⟨g.package, g.topLevelNames⟩

theorem Applied.new : Applied .new [] where
  root := rfl
  descriptors n := by simp [(at_new n).1]
  records p rec h := by cases h

theorem Applied.descriptorAt_eq_none (h : Applied r done) (hn : n ∉ done.flatMap (·.topLevelNames)) :
    r.descriptorAt n = none := by
  rwa [← h.descriptors, Bool.not_eq_true, Option.isSome_eq_false_iff, Option.isNone_iff_eq_none] at hn

theorem descriptorAt_ensurePackages (r : NamespacedFiles) (ns : List FullName) (n : FullName) :
    (r.ensurePackages ns).descriptorAt n = r.descriptorAt n := by
  rw [descriptorAt, get_ensurePackages, descriptorAt]
  cases r.descsByName.get n with
  | some e => rfl
  | none => split <;> rfl

theorem isSome_descriptorAt_foldl (r : NamespacedFiles) (ds : List Descriptor) (n : FullName) :
    ((ds.foldl setDescriptor r).descriptorAt n).isSome ↔
      n ∈ ds.map (·.fullName) ∨ (r.descriptorAt n).isSome := by
  induction ds generalizing r with
  | nil => simp
  | cons d ds ih =>
    rw [List.foldl_cons, ih, (at_setDescriptor r d n).1, List.map_cons, List.mem_cons]
    split
    · next hn => simp [hn]
    · next hn => simp [hn]

/-- A file is entered when no descriptor has the name of its package. -/
theorem Applied.insert (h : Applied r done) (hroot : [] ∉ f.topLevelNames)
    (hfree : f.package ∉ done.flatMap (·.topLevelNames)) :
    ∃ r', r.insertFileLocked f = .ok r' ∧ Applied r' (done ++ [f]) := by
  have hnone := h.descriptorAt_eq_none hfree
  have hbelow := hnone
  rw [← descriptorAt_ensurePackages r f.package.chain] at hbelow
  obtain ⟨fs, hfs⟩ : ∃ fs, (r.ensurePackages f.package.chain).packageAt f.package = some fs := by
    rw [packageAt, get_ensurePackages]
    cases hget : r.descsByName.get f.package with
    | some e =>
      cases e with
      | package fs => exact ⟨fs, rfl⟩
      | descriptor d =>
        rw [descriptorAt_eq_some.mpr hget] at hnone
        cases hnone
    | none =>
      have hne : f.package ≠ [] := by
        intro hnil
        have hsome := h.root
        rw [← hnil, (get_eq_none_iff.mp hget).2] at hsome
        cases hsome
      rw [if_pos (FullName.mem_chain_self hne)]
      exact ⟨[], rfl⟩
  refine ⟨r.enter f fs, insertFileLocked_of_package hfs, root_enter h.root hroot fs, fun n => ?_, fun p rec hrec => ?_⟩
  · change (Option.isSome ((f.topLevel.foldl setDescriptor _).descriptorAt n)) ↔ _
    rw [isSome_descriptorAt_foldl, (at_setPackage ..).1, List.flatMap_append, List.flatMap_singleton,
      List.mem_append, ← h.descriptors, or_comm]
    apply or_congr_left
    split
    · next hn => rw [hn, hnone]
    · rw [descriptorAt_ensurePackages]
  · have hset : (r.enter f fs).fileDescs = r.fileDescs.set f.path ⟨f.package, f.topLevelNames⟩ := by
      rw [← (sameFiles_enter r f fs).2]
      rfl
    rw [hset, Dict.get_set] at hrec
    split at hrec
    · next hp =>
      cases hrec
      exact ⟨f, List.mem_append_right _ (List.mem_singleton_self f), hp.symm, rfl⟩
    · obtain ⟨g, hg, hrest⟩ := h.records p rec hrec
      exact ⟨g, List.mem_append_left _ hg, hrest⟩

theorem Applied.insert_panics (h : Applied r done) (htaken : f.package ∈ done.flatMap (·.topLevelNames)) :
    r.insertFileLocked f = .error .panic := by
  obtain ⟨d, hd⟩ := Option.isSome_iff_exists.mp ((h.descriptors _).mpr htaken)
  rw [← descriptorAt_ensurePackages r f.package.chain, descriptorAt_eq_some] at hd
  rw [insertFileLocked, hd]

theorem Applied.removeStale (h : Applied r done) :
    Applied (r.removeStale f ⟨f.package, f.topLevelNames⟩) done := by
  have hstale : f.topLevelNames.filter (· ∉ f.topLevelNames) = [] := by
    rw [List.filter_eq_nil_iff]
    intro n hn
    simp [hn]
  rw [NamespacedFiles.removeStale, hstale]
  simp only [List.foldl_nil, ne_eq, not_true, if_false, if_true, dropFromPackage]
  have hdeleted : Applied (r.deleteFile f.path) done := by
    refine ⟨h.root, h.descriptors, fun p rec hrec => h.records p rec ?_⟩
    change (r.fileDescs.delete f.path).get p = some rec at hrec
    rw [Dict.get_delete] at hrec
    split at hrec
    · cases hrec
    · exact hrec
  split
  · next fs hfs =>
    have hnone : (r.deleteFile f.path).descriptorAt f.package = none := by
      rw [descriptorAt, hfs]
      rfl
    refine ⟨?_, fun n => ?_, hdeleted.records⟩
    · rw [(at_setPackage ..).2]
      split
      · rfl
      · exact hdeleted.root
    · rw [← hdeleted.descriptors, (at_setPackage ..).1]
      split
      · next hn => rw [hn, hnone]
      · rfl
  · exact hdeleted

section
variable (h : Applied r done) (hagree : ∀ g ∈ done, g.path = f.path → g = f)
include h hagree

theorem Applied.updateFile_eq :
    ∃ r', Applied r' done ∧ r.updateFile f = r'.insertFileLocked f := by
  rw [updateFile]
  split
  · next old hold =>
    obtain ⟨g, hg, hpath, rfl⟩ := h.records _ _ hold
    rw [hagree g hg hpath]
    exact ⟨_, h.removeStale, rfl⟩
  · exact ⟨r, h, rfl⟩

end

/-- Files that agree at each path are all applied, unless the package of one is a top-level name of a file
before it. -/
theorem Applied.foldlM_updateFile (h : Applied r done) {l : List FileDescriptor}
    (hagree : ∀ f ∈ done ++ l, ∀ g ∈ done ++ l, g.path = f.path → g = f)
    (hroot : ∀ f ∈ l, [] ∉ f.topLevelNames) :
    (∃ r', l.foldlM updateFile r = .ok r') ↔
      (∀ f ∈ l, f.package ∉ done.flatMap (·.topLevelNames)) ∧
        l.Pairwise fun g f => f.package ∉ g.topLevelNames := by
  induction l generalizing r done with
  | nil => simp [pure, Except.pure]
  | cons f l ih =>
    have hf : f ∈ done ++ f :: l := List.mem_append_right _ (List.mem_cons_self ..)
    obtain ⟨r₀, h₀, hupdate⟩ := h.updateFile_eq fun g hg => hagree f hf g (List.mem_append_left _ hg)
    rw [List.foldlM_cons, hupdate]
    by_cases htaken : f.package ∈ done.flatMap (·.topLevelNames)
    · rw [h₀.insert_panics htaken]
      constructor
      · rintro ⟨r', hr'⟩
        cases hr'
      · exact fun hall => absurd htaken (hall.1 f (List.mem_cons_self ..))
    · obtain ⟨r₁, hr₁, h₁⟩ := h₀.insert (hroot f (List.mem_cons_self ..)) htaken
      rw [hr₁]
      change (∃ r', l.foldlM updateFile r₁ = .ok r') ↔ _
      rw [List.append_cons] at hagree
      rw [ih h₁ hagree fun g hg => hroot g (List.mem_cons_of_mem _ hg), List.pairwise_cons]
      simp only [List.flatMap_append, List.flatMap_singleton, List.mem_append, not_or, List.forall_mem_cons]
      constructor
      · rintro ⟨hrest, hpair⟩
        exact ⟨⟨htaken, fun g hg => (hrest g hg).1⟩, fun g hg => (hrest g hg).2, hpair⟩
      · rintro ⟨⟨_, hrest⟩, hfirst, hpair⟩
        exact ⟨fun g hg => ⟨hrest g hg, hfirst g hg⟩, hpair⟩

end NamespacedFiles

namespace Client

/-! ## Applying schemas -/

theorem exec_applyFiles (sc : String) (l : List FileDescriptor) (agg : Aggregate) (files : NamespacedFiles) :
    (∃ agg', (l.forM fun fd => StateE.change (applyFile sc fd)).exec agg = (.ok (), agg') ∧
      agg'.nsFiles = files) ↔ l.foldlM NamespacedFiles.updateFile agg.nsFiles = .ok files := by
  induction l generalizing agg with
  | nil =>
    constructor
    · rintro ⟨agg', h, rfl⟩
      cases h
      rfl
    · intro h
      cases h
      exact ⟨agg, rfl, rfl⟩
  | cons f l ih =>
    rw [StateE.exec_forM_cons, List.foldlM_cons, StateE.exec_change, applyFile]
    cases agg.nsFiles.updateFile f with
    | error e =>
      constructor
      · rintro ⟨agg', h, _⟩
        cases h
      · intro h
        cases h
    | ok files₁ => exact ih ⟨files₁, registerFileTypesUpdate agg.nsTypes f⟩

theorem exec_applyAll (snap : NsSnapshot) (agg : Aggregate) (files : NamespacedFiles) :
    (∃ agg', (applyAll snap).exec agg = (.ok (), agg') ∧ agg'.nsFiles = files) ↔
      snap.files.foldlM NamespacedFiles.updateFile agg.nsFiles = .ok files := by
  rw [applyAll, NsSnapshot.files]
  induction snap.sorted generalizing agg with
  | nil =>
    constructor
    · rintro ⟨agg', h, rfl⟩
      cases h
      rfl
    · intro h
      cases h
      exact ⟨agg, rfl, rfl⟩
  | cons e l ih =>
    rw [StateE.exec_forM_cons, List.flatMap_cons, List.foldlM_append]
    have hone := exec_applyFiles e.2.schemaID e.2.files.rangeFiles agg
    rw [except_bind_eq_ok]
    constructor
    · rintro ⟨agg', h, hfiles⟩
      split at h
      · next agg₁ h₁ => exact ⟨_, (hone _).mp ⟨agg₁, h₁, rfl⟩, (ih agg₁).mp ⟨agg', h, hfiles⟩⟩
      · cases h
    · rintro ⟨files₁, hfiles₁, hrest⟩
      obtain ⟨agg₁, h₁, rfl⟩ := (hone files₁).mpr hfiles₁
      rw [applyToAggregate, h₁]
      exact (ih agg₁).mpr hrest

/-! ## The sets of a namespace -/

/-- A set the registry stores: it could be registered, it can be read back, and it contains what its files
import. -/
structure Stored (env : External) (fdset : List FileDescriptor) : Prop where
  registered : env.registerFiles fdset = .ok ()
  readable : ∃ files, env.newFiles fdset = .ok files
  closed : ∀ f ∈ fdset, ∀ path ∈ f.imports, path ∈ fdset.map (·.path)

/-- The server answers, and every current set is one the registry stores. -/
structure Server.ServesStored (env : External) (server : Server) (ns : String) : Prop where
  lists : (server.listSchemas ns).failure = none
  once : server.ListsOnce
  stored : ∀ sc v, ⟨sc, some v⟩ ∈ (server.listSchemas ns).pages.flatten →
    ∃ v' fdset, server.getDescriptor ns sc v = .ok (v', fdset) ∧ Stored env fdset

namespace Server

variable (server : Server) (cfg : Config) (ns : String)

def Across (p : FileDescriptor → FileDescriptor → Prop) : Prop :=
  ∃ i j S T, i ≠ j ∧ server.Current cfg ns i S ∧ server.Current cfg ns j T ∧ ∃ f ∈ S, ∃ g ∈ T, p f g

/-- Two schemas have the same file in their sets, and it is not empty. -/
def SharesFile : Prop := server.Across cfg ns fun f g => f = g ∧ rangeFileDescriptors f ≠ []

/-- Two different files of two schemas define a name of those that are looked at. -/
def Redefines (names : FileDescriptor → List FullName) : Prop :=
  server.Across cfg ns fun f g => f ≠ g ∧ ∃ n ∈ names f, n ∈ names g

/-- Each name is defined at one path, and each path has the same contents in all sets. -/
def Coherent : Prop :=
  ∀ i j S T, server.Current cfg ns i S → server.Current cfg ns j T → ∀ f ∈ S, ∀ g ∈ T,
    ((∃ n ∈ f.declared, n ∈ g.declared) → f.path = g.path) ∧ (f.path = g.path → f = g)

/-- No file has a package that is a top-level name of a schema before it. -/
def PackagesFree : Prop :=
  ∀ i j S T, i < j → server.Current cfg ns i S → server.Current cfg ns j T → ∀ g ∈ S, ∀ f ∈ T,
    f.package ∉ g.topLevelNames

end Server

/-- `populate` gets to the name index, which reports a collision. -/
def Collides (env : External) (server : Server) (r : Resolver) : Prop :=
  ∃ infos snap e, listAllSchemas server r = .ok infos ∧
    infos.foldlM (loadSchema env server r) .new = .ok snap ∧ snap.buildNameIndex = .error e

/-- A coherent namespace can be populated, and a collision is a redefinition. -/
structure PopulatesCoherent (env : External) (server : Server) (r : Resolver) : Prop where
  populates : server.Coherent r.cfg r.ns → ¬ Collides env server r ∧ ∃ r', populate env server r = .ok r'
  collides : Collides env server r ↔ server.Redefines r.cfg r.ns (·.declared)

section
variable {env : External} {server : Server} {r : Resolver}

theorem rangeFileDescriptors_sublist (f : FileDescriptor) :
    List.Sublist (rangeFileDescriptors f) f.declared := by
  rw [rangeFileDescriptors, FileDescriptor.types, FileDescriptor.declared, List.map_append,
    List.map_append, List.map_map, List.map_map]
  apply List.Sublist.append _ (List.Sublist.refl _)
  apply List.Sublist.append _ (List.Sublist.refl _)
  exact (messagesTypes_sublist _).append (enumNames_sublist _)

theorem Server.Redefines.declared (h : server.Redefines cfg ns rangeFileDescriptors) :
    server.Redefines cfg ns (·.declared) := by
  obtain ⟨i, j, S, T, hne, hS, hT, f, hf, g, hg, hfg, n, hn, hn'⟩ := h
  exact ⟨i, j, S, T, hne, hS, hT, f, hf, g, hg, hfg, n, (rangeFileDescriptors_sublist f).subset hn,
    (rangeFileDescriptors_sublist g).subset hn'⟩

theorem Server.Coherent.not_redefines (h : server.Coherent cfg ns) : ¬ server.Redefines cfg ns (·.declared) := by
  intro ⟨i, j, S, T, _, hS, hT, f, hf, g, hg, hfg, hn⟩
  obtain ⟨hpath, hsame⟩ := h i j S T hS hT f hf g hg
  exact hfg (hsame (hpath hn))

/-! ## Populating from them -/

variable (hlaw : env.Lawful) (hserves : server.ServesStored env r.ns)
include hlaw hserves

theorem loadSchemas_eq_ok : ∃ infos snap, listAllSchemas server r = .ok infos ∧
    infos.foldlM (loadSchema env server r) .new = .ok snap := by
  have hround : ∀ info ∈ (server.listSchemas r.ns).pages.flatten.filter fun info => r.cfg.tracksSchema info.schemaID,
      ∀ snap, ∃ snap', loadSchema env server r snap info = .ok snap' := by
    intro ⟨sc, version⟩ hinfo snap
    cases version with
    | none => exact ⟨snap, rfl⟩
    | some v =>
      obtain ⟨v', fdset, hget, hstored⟩ := hserves.stored sc v (List.mem_filter.mp hinfo).1
      obtain ⟨files, hfiles⟩ := hstored.readable
      have hreg := (hlaw.registrable_of_registerFiles hstored.registered).perm (hlaw.newFiles_perm hfiles).symm
      obtain ⟨ss, hss⟩ : ∃ ss, compileSchema env r.ns sc v' fdset = .ok ss :=
        compileSchema_of_registrable hfiles hreg
      refine ⟨snap.put sc ss, ?_⟩
      simp only [loadSchema, fetchSchema, hget, hss]
      rfl
  obtain ⟨snap, hsnap⟩ := foldlM_eq_ok hround .new
  refine ⟨_, snap, ?_, hsnap⟩
  rw [listAllSchemas, hserves.lists]

omit hlaw in
theorem Server.ServesStored.of_current (h : server.Current r.cfg r.ns sc S) : Stored env S := by
  obtain ⟨v, v', hv, _, hget⟩ := h
  obtain ⟨v'', S', hget', hstored⟩ := hserves.stored sc v hv
  rw [hget] at hget'
  cases hget'
  exact hstored

/-- The name index reports the files that two schemas share as well. -/
theorem collides_iff :
    Collides env server r ↔
      server.SharesFile r.cfg r.ns ∨ server.Redefines r.cfg r.ns rangeFileDescriptors := by
  obtain ⟨infos, snap, hinfos, hsnap⟩ := loadSchemas_eq_ok hlaw hserves
  obtain ⟨hloaded, hempty⟩ := loadSchemas_spec hsnap
  have hvisit : ∀ sc n, (sc, n) ∈ snap.visits ↔
      ∃ S, server.Current r.cfg r.ns sc S ∧ ∃ f ∈ S, n ∈ rangeFileDescriptors f := by
    intro sc n
    rw [NsSnapshot.mem_visits]
    constructor
    · intro ⟨ss, hss, f, hf, hn⟩
      obtain ⟨S, hS, hfS⟩ := (hloaded.mem_schema hlaw hinfos hserves.once).mp ⟨ss, hss, hf⟩
      exact ⟨S, hS, f, hfS, hn⟩
    · intro ⟨S, hS, f, hf, hn⟩
      obtain ⟨ss, hss, hfss⟩ := (hloaded.mem_schema hlaw hinfos hserves.once).mpr ⟨S, hS, hf⟩
      exact ⟨ss, hss, f, hfss, hn⟩
  have hcollides : Collides env server r ↔ ¬ Consistent snap.visits := by
    constructor
    · intro ⟨infos', snap', e, hinfos', hsnap', he⟩ hcons
      rw [hinfos] at hinfos'
      cases hinfos'
      rw [hsnap] at hsnap'
      cases hsnap'
      rw [(NsSnapshot.buildNameIndex_eq_ok_iff hempty).mpr ⟨hcons, rfl⟩] at he
      cases he
    · intro hcons
      cases hindex : snap.buildNameIndex with
      | error e => exact ⟨infos, snap, e, hinfos, hsnap, hindex⟩
      | ok snap' => exact absurd ((NsSnapshot.buildNameIndex_eq_ok_iff hempty).mp hindex).1 hcons
  rw [hcollides]
  constructor
  · intro hcons
    obtain ⟨i, hcons⟩ := not_forall.mp hcons
    obtain ⟨j, hcons⟩ := not_forall.mp hcons
    obtain ⟨n, hcons⟩ := not_forall.mp hcons
    obtain ⟨hi, hcons⟩ := Classical.not_imp.mp hcons
    obtain ⟨hj, hne⟩ := Classical.not_imp.mp hcons
    obtain ⟨S, hS, f, hf, hn⟩ := (hvisit i n).mp hi
    obtain ⟨T, hT, g, hg, hn'⟩ := (hvisit j n).mp hj
    by_cases hfg : f = g
    · exact .inl ⟨i, j, S, T, hne, hS, hT, f, hf, g, hg, hfg, List.ne_nil_of_mem hn⟩
    · exact .inr ⟨i, j, S, T, hne, hS, hT, f, hf, g, hg, hfg, n, hn, hn'⟩
  · intro h hcons
    rcases h with ⟨i, j, S, T, hne, hS, hT, f, hf, _, hg, rfl, hnil⟩ |
      ⟨i, j, S, T, hne, hS, hT, f, hf, g, hg, _, n, hn, hn'⟩
    · obtain ⟨n, hn⟩ := List.exists_mem_of_ne_nil _ hnil
      exact hne (hcons i j n ((hvisit i n).mpr ⟨S, hS, f, hf, hn⟩) ((hvisit j n).mpr ⟨T, hT, f, hg, hn⟩))
    · exact hne (hcons i j n ((hvisit i n).mpr ⟨S, hS, f, hf, hn⟩) ((hvisit j n).mpr ⟨T, hT, g, hg, hn'⟩))

/-- In the order of the schemas, no package is a top-level name of a file before it. -/
theorem pairwise_files_iff (hinfos : listAllSchemas server r = .ok infos)
    (hloaded : NsSnapshot.Loaded env server r infos snap) :
    (snap.files.Pairwise fun g f => f.package ∉ g.topLevelNames) ↔ server.PackagesFree r.cfg r.ns := by
  let Free (a b : String × SchemaSnapshot) : Prop :=
    ∀ g ∈ a.2.files.rangeFiles, ∀ f ∈ b.2.files.rangeFiles, f.package ∉ g.topLevelNames
  have hblock : ∀ a ∈ snap.sorted,
      a.2.files.rangeFiles.Pairwise fun g f => f.package ∉ g.topLevelNames := by
    intro e ha
    obtain ⟨sc, ss⟩ := e
    obtain ⟨S, hS, hperm⟩ := hloaded.current hlaw hinfos (NsSnapshot.mem_sorted.mp ha)
    have hreg := (hlaw.registrable_of_registerFiles (hserves.of_current hS).registered).perm hperm.symm
    apply List.pairwise_of_forall_mem_list
    intro g hg f hf
    exact hreg.packages f hf f.package f.package_mem_packageNames g hg
  rw [NsSnapshot.files, List.pairwise_flatMap]
  change (_ ∧ snap.sorted.Pairwise Free) ↔ _
  constructor
  · intro hfiles i j S T hlt hS hT g hg f hf
    obtain ⟨-, hpair⟩ := hfiles
    obtain ⟨ss, hss, hgss⟩ := (hloaded.mem_schema hlaw hinfos hserves.once).mpr ⟨S, hS, hg⟩
    obtain ⟨ss', hss', hfss⟩ := (hloaded.mem_schema hlaw hinfos hserves.once).mpr ⟨T, hT, hf⟩
    -- read both ways, the relation does not depend on which of the two comes first
    let Ordered (a b : String × SchemaSnapshot) : Prop := (a.1 < b.1 → Free a b) ∧ (b.1 < a.1 → Free b a)
    have : Std.Symm Ordered := ⟨fun a b h => ⟨h.2, h.1⟩⟩
    have hordered : snap.sorted.Pairwise Ordered := (hpair.and snap.sorted_pairwise_lt).imp fun h =>
      ⟨fun _ => h.1, fun hgt => absurd h.2 (String.lt_asymm hgt)⟩
    have hne : (i, ss) ≠ (j, ss') := fun heq => Std.lt_irrefl ((Prod.mk.inj heq).1 ▸ hlt)
    exact (hordered.forall (NsSnapshot.mem_sorted.mpr hss) (NsSnapshot.mem_sorted.mpr hss') hne).1 hlt
      g hgss f hfss
  · intro hfree
    refine ⟨hblock, snap.sorted_pairwise_lt.imp_of_mem ?_⟩
    intro a b ha hb hlt g hg f hf
    obtain ⟨i, ss⟩ := a
    obtain ⟨j, ss'⟩ := b
    obtain ⟨S, hS, hgS⟩ := (hloaded.mem_schema hlaw hinfos hserves.once).mp ⟨ss, NsSnapshot.mem_sorted.mp ha, hg⟩
    obtain ⟨T, hT, hfT⟩ := (hloaded.mem_schema hlaw hinfos hserves.once).mp ⟨ss', NsSnapshot.mem_sorted.mp hb, hf⟩
    exact hfree i j S T hlt hS hT g hgS f hfT

theorem populate_iff (hnew : r.nsFiles = .new) (hcoherent : server.Coherent r.cfg r.ns)
    (hcollides : ¬ Collides env server r) :
    (∃ r', populate env server r = .ok r') ↔ server.PackagesFree r.cfg r.ns := by
  obtain ⟨infos, snap, hinfos, hsnap⟩ := loadSchemas_eq_ok hlaw hserves
  obtain ⟨hloaded, hempty⟩ := loadSchemas_spec hsnap
  obtain ⟨next, hnext⟩ : ∃ next, snap.buildNameIndex = .ok next := by
    cases hindex : snap.buildNameIndex with
    | error e => exact absurd ⟨infos, snap, e, hinfos, hsnap, hindex⟩ hcollides
    | ok next => exact ⟨next, rfl⟩
  have hfiles : next.files = snap.files := by
    rw [((NsSnapshot.buildNameIndex_eq_ok_iff hempty).mp hnext).2]
    rfl
  have hmem : ∀ f ∈ snap.files, ∃ sc S, server.Current r.cfg r.ns sc S ∧ f ∈ S := by
    intro f hf
    obtain ⟨sc, hsc⟩ := NsSnapshot.mem_files.mp hf
    obtain ⟨S, hS, hfS⟩ := (hloaded.mem_schema hlaw hinfos hserves.once).mp hsc
    exact ⟨sc, S, hS, hfS⟩
  have hroot : ∀ f ∈ snap.files, [] ∉ f.topLevelNames := by
    intro f hf
    obtain ⟨sc, S, hS, hfS⟩ := hmem f hf
    have hreg := hlaw.registrable_of_registerFiles (hserves.of_current hS).registered
    exact hreg.packages f hfS [] (FileDescriptor.mem_packageNames.mpr (.inr rfl)) f hfS
  have hagree : ∀ f ∈ snap.files, ∀ g ∈ snap.files, g.path = f.path → g = f := by
    intro f hf g hg
    obtain ⟨i, S, hS, hfS⟩ := hmem f hf
    obtain ⟨j, T, hT, hgT⟩ := hmem g hg
    exact (hcoherent j i T S hT hS g hgT f hfS).2
  have happly := NamespacedFiles.Applied.new.foldlM_updateFile (l := snap.files) hagree hroot
  rw [← pairwise_files_iff hlaw hserves hinfos hloaded]
  have hpopulate : (∃ r', populate env server r = .ok r') ↔
      ∃ files, snap.files.foldlM NamespacedFiles.updateFile .new = .ok files := by
    rw [← hfiles, ← hnew]
    simp only [← exec_applyAll, populate, hinfos, hsnap, hnext, bind, Except.bind]
    constructor
    · intro hpopulated
      obtain ⟨r', h⟩ := hpopulated
      split at h
      · cases h
      · next agg hagg => exact ⟨agg.nsFiles, agg, hagg, rfl⟩
    · intro happlied
      obtain ⟨files, agg, hagg, -⟩ := happlied
      rw [hagg]
      exact ⟨_, rfl⟩
  rw [hpopulate, happly]
  exact and_iff_right fun f _ => List.not_mem_nil

/-- A client populates coherent namespaces and reports redefinitions exactly when schemas that share a file
also redefine something, schemas that redefine something share or redefine a name the index visits, and in
a coherent namespace no package has the name of a descriptor. -/
theorem populatesCoherent_iff (hnew : r.nsFiles = .new) :
    PopulatesCoherent env server r ↔
      (server.SharesFile r.cfg r.ns → server.Redefines r.cfg r.ns (·.declared)) ∧
      (server.Redefines r.cfg r.ns (·.declared) →
        server.SharesFile r.cfg r.ns ∨ server.Redefines r.cfg r.ns rangeFileDescriptors) ∧
      (server.Coherent r.cfg r.ns → server.PackagesFree r.cfg r.ns) := by
  have hcollides := collides_iff hlaw hserves
  constructor
  · intro h
    refine ⟨fun hshare => h.collides.mp (hcollides.mpr (.inl hshare)),
      fun hredefine => hcollides.mp (h.collides.mpr hredefine), fun hcoherent => ?_⟩
    obtain ⟨hnot, hok⟩ := h.populates hcoherent
    exact (populate_iff hlaw hserves hnew hcoherent hnot).mp hok
  · intro ⟨hshare, hredefine, hpackages⟩
    constructor
    · intro hcoherent
      have hnot : ¬ Collides env server r := by
        rw [hcollides]
        intro h
        exact hcoherent.not_redefines (h.elim hshare (·.declared))
      exact ⟨hnot, (populate_iff hlaw hserves hnew hcoherent hnot).mpr (hpackages hcoherent)⟩
    · rw [hcollides]
      exact ⟨fun h => h.elim hshare (·.declared), hredefine⟩

end

/-! ## Two schemas -/

section
variable {chain : List String} {schemas : String → List (String × List FileDescriptor)}

theorem mem_of_lookup_eq_some {l : List (String × α)} (h : l.lookup k = some a) : (k, a) ∈ l := by
  obtain ⟨l₁, l₂, hl, _⟩ := List.lookup_eq_some_iff.mp h
  rw [hl]
  exact List.mem_append_right _ (List.mem_cons_self ..)

theorem mem_of_sample_current (h : (Sample.server chain schemas).Current cfg ns sc S) : (sc, S) ∈ schemas ns := by
  obtain ⟨v, v', _, _, hget⟩ := h
  simp only [Sample.server] at hget
  split at hget
  · next fdset hlookup =>
    cases hget
    exact mem_of_lookup_eq_some hlookup
  · cases hget

theorem servesStored_sample (hkeys : ∀ ns, ((schemas ns).map Prod.fst).Nodup)
    (hstored : ∀ e ∈ schemas ns, Sample.env.registerFiles e.2 = .ok () ∧
      ∀ f ∈ e.2, ∀ path ∈ f.imports, path ∈ e.2.map (·.path)) :
    (Sample.server chain schemas).ServesStored Sample.env ns where
  lists := rfl
  once ns := by simpa [Sample.server, Function.comp_def] using hkeys ns
  stored sc v hlisted := by
    obtain ⟨⟨i, S⟩, hS, hinfo⟩ : ∃ e ∈ schemas ns, (⟨e.1, some 1⟩ : SchemaInfo) = ⟨sc, some v⟩ := by
      simpa [Sample.server] using hlisted
    cases hinfo
    obtain ⟨fdset, hlookup⟩ : ∃ fdset, (schemas ns).lookup i = some fdset := by
      rw [← Option.isSome_iff_exists, List.lookup_isSome_iff]
      exact ⟨(i, S), hS, by simp⟩
    obtain ⟨hreg, hclosed⟩ := hstored _ (mem_of_lookup_eq_some hlookup)
    refine ⟨1, fdset, ?_, hreg, ⟨fdset, rfl⟩, hclosed⟩
    simp only [Sample.server, hlookup]

end

/-- Two schemas without a common file. -/
theorem populatesCoherent_apart :
    PopulatesCoherent Sample.env (Sample.server [] Sample.twoFiles) (Sample.resolver "n") := by
  have hserves : (Sample.server [] Sample.twoFiles).ServesStored Sample.env "n" :=
    servesStored_sample (fun _ => (by decide : ["a", "b"].Nodup)) (by decide)
  have hfiles : ∀ e ∈ Sample.twoFiles "n", ∀ e' ∈ Sample.twoFiles "n", e.1 ≠ e'.1 → ∀ f ∈ e.2, ∀ g ∈ e'.2,
      f.path ≠ g.path ∧ ∀ n ∈ f.declared, n ∉ g.declared := by
    decide
  have hpackages : ∀ e ∈ Sample.twoFiles "n", ∀ e' ∈ Sample.twoFiles "n", ∀ f ∈ e.2, ∀ g ∈ e'.2,
      f.package ∉ g.topLevelNames := by
    decide
  refine (populatesCoherent_iff Sample.lawful_env hserves rfl).mpr ⟨?_, ?_, ?_⟩
  · intro ⟨i, j, S, T, hne, hS, hT, f, hf, g, hg, hfg, _⟩
    exact absurd (congrArg (·.path) hfg)
      (hfiles _ (mem_of_sample_current hS) _ (mem_of_sample_current hT) hne f hf g hg).1
  · intro ⟨i, j, S, T, hne, hS, hT, f, hf, g, hg, _, n, hn, hn'⟩
    exact absurd hn' ((hfiles _ (mem_of_sample_current hS) _ (mem_of_sample_current hT) hne f hf g hg).2 n hn)
  · intro _ i j S T _ hS hT g hg f hf
    exact hpackages _ (mem_of_sample_current hT) _ (mem_of_sample_current hS) f hf g hg

/-- Two schemas that import the same file. -/
theorem shared_import_collides :
    (Sample.server [] Sample.sharedFile).ServesStored Sample.env "n" ∧
      (Sample.server [] Sample.sharedFile).Coherent {} "n" ∧
      ¬ PopulatesCoherent Sample.env (Sample.server [] Sample.sharedFile) (Sample.resolver "n") := by
  have hserves : (Sample.server [] Sample.sharedFile).ServesStored Sample.env "n" :=
    servesStored_sample (fun _ => (by decide : ["a", "b"].Nodup)) (by decide)
  have hcoherent : (Sample.server [] Sample.sharedFile).Coherent {} "n" := by
    have hfiles : ∀ e ∈ Sample.sharedFile "n", ∀ f ∈ e.2, f = Sample.file "m.proto" [1] ∨
        f = { Sample.file "a.proto" [] with imports := ["m.proto"] } ∨
        f = { Sample.file "b.proto" [] with imports := ["m.proto"] } := by
      simp [Sample.sharedFile]
    intro i j S T hS hT f hf g hg
    rcases hfiles _ (mem_of_sample_current hS) f hf with rfl | rfl | rfl <;>
      rcases hfiles _ (mem_of_sample_current hT) g hg with rfl | rfl | rfl <;>
      first
        | exact ⟨fun _ => rfl, fun _ => rfl⟩
        | exact ⟨by decide, fun h => absurd h (by decide)⟩
  refine ⟨hserves, hcoherent, fun h => (h.populates hcoherent).1 ?_⟩
  exact (collides_iff Sample.lawful_env hserves).mpr (.inl ⟨"a", "b", _, _, by decide,
    ⟨1, 1, by decide, rfl, rfl⟩, ⟨1, 1, by decide, rfl, rfl⟩, _, List.mem_cons_self .., _, List.mem_cons_self ..,
    rfl, by decide⟩)

end Client

end ProtoRegistry
