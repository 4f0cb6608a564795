import Mathlib.Logic.Equiv.List
import ProtoRegistry.Verify.Recovery

/-!
# Restoring over staged versions

A version of another build is compiled again when the registry restarts, against the versions that are
proposed for the other schemas of its namespace: staged ones where there are any. So what is restored as
current can depend on what is staged.
-/

namespace ProtoRegistry
open RegistryM

/-! ## Foreign keys -/

namespace Store

variable {s s' : Store}

/-- The foreign keys of the parent column and of the files of versions. -/
structure Intact (s : Store) : Prop where
  parents : s.ParentsExist
  blobs : ∀ {ns sc v row}, s.versions.get (ns, sc, v) = some row →
    ∀ f ∈ row.files, (s.blobs.get (ns, f.blobSHA256)).isSome

theorem isSome_blobs_perform (op : StoreOp) {k : String × String} (hk : (s.blobs.get k).isSome) :
    ((s.perform op).2.blobs.get k).isSome := by
  obtain ⟨source, hk⟩ := Option.isSome_iff_exists.mp hk
  rw [get_blobs_perform op hk]
  rfl

theorem Intact.perform (hs : s.Intact) (op : StoreOp) : (s.perform op).2.Intact := by
  refine ⟨hs.parents.perform op, fun {ns sc v row} hrow f hf => isSome_blobs_perform op ?_⟩
  obtain hrow | ⟨-, hnone⟩ := of_get_versions_perform hrow
  · exact hs.blobs hrow f hf
  · exact (versionViolation_eq_none_iff.mp hnone).2.2.1.2 f hf

theorem intact_empty : empty.Intact := ⟨parentsExist_empty, by simp [empty]⟩

/-! ## What a recompilation sees -/

def ownSources (s : Store) (cs : CurrentSchema) : Sources :=
  .ofAssignments <| cs.files.map fun f => (f.filename, (s.blobs.get (cs.namespaceID, f.blobSHA256)).getD [])

/-- The files of the other schemas of the namespace, in their proposed versions. -/
def siblingSources (s : Store) (cs : CurrentSchema) : List DepSource :=
  s.depSources cs.namespaceID ((s.loadNamespaceProposed cs.namespaceID).filter (·.schemaID ≠ cs.schemaID))

def tiersAbove (s : Store) (cs : CurrentSchema) : List ChainTier :=
  (ancestorsOf s.parentOf cs.namespaceID).map fun a => ⟨a, s.currentSources a⟩

def builtinSources (s : Store) (cs : CurrentSchema) : List DepSource :=
  if cs.namespaceID ≠ builtinsNamespace then s.currentSources builtinsNamespace else []

/-- What a path resolves to when the schema is compiled again, before the schemas bundled with the
registry. -/
def sees (s : Store) (cs : CurrentSchema) : Resolver := fun path =>
  (sourceMapResolver (s.ownSources cs) (s.siblingSources cs) path).or <|
    ((s.tiersAbove cs).findSome? fun t => sourceMapResolver .empty t.files path).or <|
      sourceMapResolver .empty (s.builtinSources cs) path

theorem fetch_loadSchemas {context : CurrentSchema → VersionFile → String} (hs : s.Intact)
    {pointer : SchemaRow → Option Nat} {schemas : List CurrentSchema}
    (h : ∀ cs ∈ schemas, cs ∈ s.loadSchemas pointer (· = ns)) :
    s.fetch ns context schemas = .ok (s.depSources ns schemas) := by
  refine fetch_eq_depSources context fun cs hcs f hf => ?_
  obtain ⟨hns, schema, row, -, -, hrow, -, heq⟩ := mem_loadSchemas.mp (h cs hcs)
  have hfile : f ∈ row.files := by
    rw [heq] at hf
    exact List.mem_insertionSort _ |>.mp hf
  rw [← of_decide_eq_true hns]
  exact hs.blobs hrow f hfile

theorem fetchDeps_eq (hs : s.Intact) (cs : CurrentSchema) :
    s.fetchDeps cs.namespaceID cs.schemaID = .ok (s.siblingSources cs) :=
  fetch_loadSchemas hs fun _ hcs => List.mem_of_mem_filter hcs

theorem fetchTiers_ok (hs : s.Intact) (ancestors : List String) :
    s.fetchTiers ancestors = .ok (ancestors.map fun a => ⟨a, s.currentSources a⟩) := by
  refine mapM_eq_map fun a _ => ?_
  have hfetch : s.fetch a (fun _ f => "fetching blob " ++ f.filename ++ " from ancestor " ++ a)
      (s.loadNamespaceCurrent a) = .ok (s.currentSources a) := fetch_loadSchemas hs fun _ hcs => hcs
  rw [hfetch]
  rfl

theorem fetchTiers_eq (hs : s.Intact) (cs : CurrentSchema) :
    s.fetchTiers (ancestorsOf s.parentOf cs.namespaceID) = .ok (s.tiersAbove cs) := fetchTiers_ok hs _

theorem fetchBuiltinsFor_eq (hs : s.Intact) (cs : CurrentSchema) :
    s.fetchBuiltinsFor cs.namespaceID = .ok (s.builtinSources cs) := by
  unfold fetchBuiltinsFor builtinSources
  split
  · exact fetch_loadSchemas hs fun _ hcs => hcs
  · rfl

theorem fetchFiles_eq (hs : s.Intact) {cs : CurrentSchema} (hcs : cs ∈ s.loadAllCurrent) (context : String) :
    s.fetchFiles cs.namespaceID context cs.files = .ok (s.ownSources cs) := by
  obtain ⟨-, schema, row, -, -, hrow, -, heq⟩ := mem_loadSchemas.mp hcs
  have hentries := mapM_eq_map (ε := Err) (l := cs.files)
    (f := fun f => do
      let blob ← (s.getBlob cs.namespaceID f.blobSHA256).mapError (·.wrap (context ++ f.blobSHA256))
      return (f.filename, blob))
    (g := fun f => (f.filename, (s.blobs.get (cs.namespaceID, f.blobSHA256)).getD [])) fun f hf => by
      rw [heq] at hf
      obtain ⟨blob, hblob⟩ := Option.isSome_iff_exists.mp (hs.blobs hrow f (List.mem_insertionSort _ |>.mp hf))
      simp only [getBlob, hblob]
      rfl
  rw [fetchFiles, hentries]
  rfl

end Store

theorem buildResolverChain_eq (env : External) (sources : Sources) (deps : List DepSource)
    (tiers : List ChainTier) (builtins : List DepSource) (path : String) :
    buildResolverChain env sources deps tiers builtins path =
      ((sourceMapResolver sources deps path).or <|
        (tiers.findSome? fun t => sourceMapResolver .empty t.files path).or <|
          sourceMapResolver .empty builtins path).or (bundledResolver env path) := by
  have htiers : ((tiers.filter (!·.files.isEmpty)).map fun t => sourceMapResolver .empty t.files).findSome? (· path) =
      tiers.findSome? fun t => sourceMapResolver .empty t.files path := by
    induction tiers with
    | nil => rfl
    | cons t tiers ih =>
      obtain ⟨a, _ | ⟨d, files⟩⟩ := t
      · exact ih
      · simp only [List.filter_cons, List.isEmpty_cons, Bool.not_false, if_true, List.map_cons,
          List.findSome?_cons, ih]
  have hbuiltins : (if builtins.isEmpty then [] else [sourceMapResolver .empty builtins]).findSome? (· path) =
      sourceMapResolver .empty builtins path := by
    cases builtins with
    | nil => rfl
    | cons d builtins => simp
  simp only [buildResolverChain, resolverTiers, List.findSome?_append, htiers, hbuiltins, List.findSome?_singleton,
    Option.or_assoc]

theorem Compiler.compile_of_resolver {c : Compiler} {env : External} {v : Nat} {sources : Sources}
    {deps deps' : List DepSource} {tiers tiers' : List ChainTier} {builtins builtins' : List DepSource}
    (h : buildResolverChain env sources deps tiers builtins = buildResolverChain env sources deps' tiers' builtins')
    (hres : c.compile env v sources deps tiers builtins = .ok res) :
    ∃ res', c.compile env v sources deps' tiers' builtins' = .ok res' ∧ res'.snapshot = res.snapshot := by
  obtain ⟨fileResults, linked, snap, hcaps, hresults, hlinked, hsnap, rfl⟩ := compile_eq_ok.mp hres
  rw [h] at hlinked
  exact ⟨_, compile_eq_ok.mpr ⟨fileResults, linked, snap, hcaps, hresults, hlinked, hsnap, rfl⟩, rfl⟩

/-! ## Rebuilding over two stores -/

section
variable {r : Registry} {s s' : Store} {cs : CurrentSchema}

theorem Registry.rebuild_eq_ok (hs : s.Intact) (hcs : cs ∈ s.loadAllCurrent)
    (hne : cs.compilerVersion ≠ r.env.compilerVersion) : r.rebuild s s.parentOf cs = .ok snap ↔
      ∃ res, r.compiler.compile r.env cs.version (s.ownSources cs) (s.siblingSources cs) (s.tiersAbove cs)
        (s.builtinSources cs) = .ok res ∧ res.snapshot = snap := by
  rw [rebuild, if_neg hne, Store.fetchFiles_eq hs hcs, Store.fetchDeps_eq hs, Store.fetchTiers_eq hs,
    Store.fetchBuiltinsFor_eq hs]
  change ((r.compiler.compile r.env cs.version (s.ownSources cs) (s.siblingSources cs) (s.tiersAbove cs)
    (s.builtinSources cs)).mapError (fun e => ({ text := "recompiling: " ++ e } : Err)) >>=
      fun result => pure result.snapshot) = .ok snap ↔ _
  refine ⟨fun h => ?_, fun ⟨res, hres, hsnap⟩ => ?_⟩
  · obtain ⟨res, hres, h⟩ := except_bind_eq_ok.mp h
    cases h
    exact ⟨res, mapError_eq_ok.mp hres, rfl⟩
  · exact except_bind_eq_ok.mpr ⟨res, mapError_eq_ok.mpr hres, congrArg Except.ok hsnap⟩

/-- The tables agree in everything but the staged pointers. -/
structure Store.SameButStaged (s s' : Store) : Prop where
  namespaces : ∀ id, s.namespaces.get id = s'.namespaces.get id
  current : ∀ k, (s.schemas.get k).map (·.currentVersion) = (s'.schemas.get k).map (·.currentVersion)
  versions : ∀ k, s.versions.get k = s'.versions.get k
  blobs : ∀ k, s.blobs.get k = s'.blobs.get k

/-- `Restore` fails over both stores, or it succeeds over both and every schema has the same current
snapshot. -/
def Registry.SameRestore (r : Registry) (s s' : Store) : Prop :=
  ((r.restart ⟨s, .empty⟩).1 ≠ .ok () ∧ (r.restart ⟨s', .empty⟩).1 ≠ .ok ()) ∨
    ((r.restart ⟨s, .empty⟩).1 = .ok () ∧ (r.restart ⟨s', .empty⟩).1 = .ok () ∧ ∀ ns sc,
      (r.restart ⟨s, .empty⟩).2.memory.current ns sc = (r.restart ⟨s', .empty⟩).2.memory.current ns sc)

namespace Store.SameButStaged

theorem symm (h : s.SameButStaged s') : s'.SameButStaged s :=
  ⟨fun id => (h.namespaces id).symm, fun k => (h.current k).symm, fun k => (h.versions k).symm,
    fun k => (h.blobs k).symm⟩

theorem parentOf (h : s.SameButStaged s') : s.parentOf = s'.parentOf := by
  funext id
  rw [Store.parentOf, h.namespaces]
  rfl

theorem discardStaging (s : Store) (ns : String) : s.SameButStaged (s.discardStaging ns) := by
  refine ⟨fun _ => rfl, fun k => ?_, fun _ => rfl, fun _ => rfl⟩
  rw [Store.discardStaging, Dict.get_mapValues, Option.map_map]
  congr 1
  funext row
  simp only [Function.comp_apply]
  split <;> rfl

theorem intact (h : s.SameButStaged s') (hs : s.Intact) : s'.Intact where
  parents n p hp := by
    rw [← h.parentOf] at hp
    rw [← h.namespaces]
    exact hs.parents n p hp
  blobs hrow f hf := by
    rw [← h.versions] at hrow
    rw [← h.blobs]
    exact hs.blobs hrow f hf

theorem mem_loadAllCurrent (h : s.SameButStaged s') (hcs : cs ∈ s.loadAllCurrent) : cs ∈ s'.loadAllCurrent := by
  obtain ⟨hselect, schema, row, hschema, hv, hrow, hfiles, heq⟩ := Store.mem_loadSchemas.mp hcs
  have hcurrent := h.current (cs.namespaceID, cs.schemaID)
  rw [hschema] at hcurrent
  obtain ⟨schema', hschema', hv'⟩ := Option.map_eq_some_iff.mp hcurrent.symm
  rw [h.versions] at hrow
  exact Store.mem_loadSchemas.mpr ⟨hselect, schema', row, hschema', hv'.trans hv, hrow, hfiles, heq⟩

theorem ownSources (h : s.SameButStaged s') (cs : CurrentSchema) : s.ownSources cs = s'.ownSources cs := by
  simp only [Store.ownSources, h.blobs]

theorem rebuild (h : s.SameButStaged s') (hs : s.Intact) (hcs : cs ∈ s.loadAllCurrent)
    (hsees : cs.compilerVersion ≠ r.env.compilerVersion → ∀ path, s.sees cs path = s'.sees cs path)
    (hsnap : r.rebuild s s.parentOf cs = .ok snap) : r.rebuild s' s'.parentOf cs = .ok snap := by
  by_cases hv : cs.compilerVersion = r.env.compilerVersion
  · rw [Registry.rebuild, if_pos hv] at hsnap ⊢
    exact hsnap
  · obtain ⟨res, hres, rfl⟩ := (Registry.rebuild_eq_ok hs hcs hv).mp hsnap
    refine (Registry.rebuild_eq_ok (h.intact hs) (h.mem_loadAllCurrent hcs) hv).mpr ?_
    rw [h.ownSources] at hres
    refine Compiler.compile_of_resolver (funext fun path => ?_) hres
    have hpath := hsees hv path
    rw [Store.sees, Store.sees, h.ownSources] at hpath
    rw [buildResolverChain_eq, buildResolverChain_eq, hpath]

end Store.SameButStaged

/-- Two stores whose current versions are rebuilt alike are restored alike. -/
theorem Registry.sameRestore_of_rebuild (hs : s.ParentsExist) (hs' : s'.ParentsExist)
    (hmem : ∀ cs, cs ∈ s.loadAllCurrent ↔ cs ∈ s'.loadAllCurrent)
    (h : ∀ cs ∈ s.loadAllCurrent, ∀ snap, r.rebuild s s.parentOf cs = .ok snap ↔
      r.rebuild s' s'.parentOf cs = .ok snap) :
    r.SameRestore s s' := by
  have hiff : (∀ cs ∈ s.loadAllCurrent, ∃ snap, r.rebuild s s.parentOf cs = .ok snap) ↔
      ∀ cs ∈ s'.loadAllCurrent, ∃ snap, r.rebuild s' s'.parentOf cs = .ok snap := by
    refine forall_congr' fun cs => ?_
    rw [← hmem]
    exact forall_congr' fun hcs => exists_congr (h cs hcs)
  by_cases hall : ∀ cs ∈ s.loadAllCurrent, ∃ snap, r.rebuild s s.parentOf cs = .ok snap
  · obtain ⟨hok, hr⟩ := restart_ok (w := ⟨s, .empty⟩) hs hall
    obtain ⟨hok', hr'⟩ := restart_ok (w := ⟨s', .empty⟩) hs' (hiff.mp hall)
    refine .inr ⟨hok, hok', fun ns sc => ?_⟩
    by_cases hkey : (ns, sc) ∈ s.loadAllCurrent.map (·.key)
    · obtain ⟨cs, hcs, hkey⟩ := List.mem_map.mp hkey
      cases hkey
      obtain ⟨snap, hsnap, hcurrent⟩ := hr.current cs hcs
      obtain ⟨snap', hsnap', hcurrent'⟩ := hr'.current cs ((hmem cs).mp hcs)
      rw [(h cs hcs snap).mp hsnap] at hsnap'
      cases hsnap'
      exact hcurrent.trans hcurrent'.symm
    · have hkey' : (ns, sc) ∉ s'.loadAllCurrent.map (·.key) := by
        intro hkey'
        obtain ⟨cs, hcs, hcskey⟩ := List.mem_map.mp hkey'
        exact hkey (List.mem_map.mpr ⟨cs, (hmem cs).mpr hcs, hcskey⟩)
      exact (hr.absent ns sc hkey).trans (hr'.absent ns sc hkey').symm
  · refine .inl ⟨fun hok => hall ?_, fun hok => hall (hiff.mpr ?_)⟩
    · exact (restart_ok_iff hs).mp hok
    · exact (restart_ok_iff hs').mp hok

end

/-! ## A compiler that shows what it sees -/

/-- A file that imports a path, and shows what the path has resolved to. -/
def shownFile (path : String) (source : Option Bytes) : FileDescriptor :=
  ⟨"", [], [path], [], [⟨["E"], [⟨["V"], Encodable.encode (source.map (·.map UInt8.toNat))⟩]⟩], [], []⟩

theorem shownFile_injective (path : String) : Function.Injective (shownFile path) := by
  intro a b h
  simp only [shownFile, FileDescriptor.mk.injEq, List.cons.injEq, EnumDescriptor.mk.injEq, EnumValueDescriptor.mk.injEq,
    Nat.cast_inj, Encodable.encode_inj] at h
  have hbytes : Function.Injective fun source : Bytes => source.map UInt8.toNat :=
    List.map_injective_iff.mpr fun _ _ => UInt8.toNat_inj.mp
  exact Option.map_injective hbytes h.2.2.2.2.1.1.2.1.2

theorem registrable_shownFile (path : String) (source : Option Bytes) : Registrable [shownFile path source] where
  paths := List.nodup_singleton _
  declared := (by decide : [["E"], ["V"]].Nodup)
  packages f hf n hn g hg := by
    cases List.mem_singleton.mp hf
    cases List.mem_singleton.mp hg
    exact (by decide : ∀ n ∈ [([] : FullName)], n ∉ [["E"], ["V"]]) n hn
  extensions := List.nodup_nil

/-- A registry of the given build, with a compiler that takes every source for a file that imports the path. -/
def probe (compilerVersion path : String) : Registry where
  env :=
    { parse _ _ := .ok []
      sha256Hex := id
      protocompile resolver _ := .ok [⟨shownFile path (resolver path), []⟩]
      openBundled _ := none
      isStandardImport _ := false
      inGlobalFiles _ := false
      openFile _ := none
      newFiles := .ok
      registerFiles files := if Registrable files then .ok () else .error "already registered"
      rangeKeys := id
      compilerVersion }
  compiler := ⟨0, 0⟩

theorem lawful_probe (cv path : String) : (probe cv path).env.Lawful where
  newFiles_perm := by
    rintro fds files ⟨⟩
    rfl
  rangeKeys_perm _ := .refl _
  registrable_of_registerFiles {files} h := by
    by_contra hnot
    simp [probe, hnot] at h

theorem probe_rebuild {s : Store} {cs : CurrentSchema} (hs : s.Intact) (hcs : cs ∈ s.loadAllCurrent)
    (hreg : cs.compilerVersion = cv → Registrable cs.compiled) (path : String) :
    ∃ snap, (probe cv path).rebuild s s.parentOf cs = .ok snap ∧
      (cs.compilerVersion ≠ cv → snap.fileList = [shownFile path (s.sees cs path)]) := by
  have hregister : ∀ {files}, Registrable files → (probe cv path).env.registerFiles files = .ok () := fun h => if_pos h
  by_cases hv : cs.compilerVersion = (probe cv path).env.compilerVersion
  · refine ⟨⟨cs.version, cs.compiled⟩, ?_, fun hne => (hne hv).elim⟩
    have hnew : (probe cv path).env.newFiles cs.compiled = .ok cs.compiled := rfl
    simp only [Registry.rebuild, if_pos hv, Snapshot.new, hnew, hregister (hreg hv)]
    rfl
  · have hresolver : buildResolverChain (probe cv path).env (s.ownSources cs) (s.siblingSources cs) (s.tiersAbove cs)
        (s.builtinSources cs) path = s.sees cs path := by
      have hbundled : bundledResolver (probe cv path).env path = none := ite_self none
      rw [buildResolverChain_eq, hbundled, Option.or_none]
      rfl
    refine ⟨⟨cs.version, [shownFile path (s.sees cs path)]⟩, ?_, fun _ => rfl⟩
    refine (Registry.rebuild_eq_ok hs hcs hv).mpr ⟨_, Compiler.compile_eq_ok.mpr ⟨_, _, _, rfl,
      mapM_eq_map fun _ _ => rfl, rfl, ?_, rfl⟩, rfl⟩
    rw [hresolver]
    change Snapshot.newFromFiles _ cs.version [shownFile path (s.sees cs path)] = _
    rw [Snapshot.newFromFiles, hregister (registrable_shownFile path _)]

namespace Registry

variable {s s' : Store}

theorem registrable_of_rebuild {r : Registry} (hlaw : r.env.Lawful) (hsnap : r.rebuild s s.parentOf cs = .ok snap)
    (hv : cs.compilerVersion = r.env.compilerVersion) : Registrable cs.compiled := by
  rw [rebuild, if_pos hv] at hsnap
  obtain ⟨files, hfiles, hregister⟩ := Snapshot.new_registers (mapError_eq_ok.mp hsnap)
  exact (hlaw.registrable_of_registerFiles hregister).perm (hlaw.newFiles_perm hfiles)

/-- **Restore and staging**: what is staged makes no difference, whatever the compiler, exactly when the
schemas to compile again see the same sources. Where a set of the running build cannot be registered, no process
comes up. -/
theorem restore_same_iff (hs : s.Intact) (hsame : s.SameButStaged s') (cv : String) :
    (∀ r : Registry, r.env.Lawful → r.env.compilerVersion = cv → r.SameRestore s s') ↔
      ((∀ cs ∈ s.loadAllCurrent, cs.compilerVersion = cv → Registrable cs.compiled) →
        ∀ cs ∈ s.loadAllCurrent, cs.compilerVersion ≠ cv → ∀ path, s.sees cs path = s'.sees cs path) := by
  have hs' := hsame.intact hs
  have hmem : ∀ cs, cs ∈ s.loadAllCurrent ↔ cs ∈ s'.loadAllCurrent :=
    fun cs => ⟨hsame.mem_loadAllCurrent, hsame.symm.mem_loadAllCurrent⟩
  refine ⟨fun h hreg cs hcs hne path => ?_, fun h r hlaw hr => ?_⟩
  · obtain ⟨snap, hsnap, hfiles⟩ := probe_rebuild hs hcs (hreg cs hcs) path
    obtain ⟨snap', hsnap', hfiles'⟩ := probe_rebuild hs' ((hmem cs).mp hcs) (hreg cs hcs) path
    obtain ⟨-, hrebuilt⟩ := restart_ok (r := probe cv path) (w := ⟨s, .empty⟩) hs.parents
      fun cs hcs => (probe_rebuild hs hcs (hreg cs hcs) path).imp fun _ => And.left
    obtain ⟨hok', hrebuilt'⟩ := restart_ok (r := probe cv path) (w := ⟨s', .empty⟩) hs'.parents
      fun cs hcs => (probe_rebuild hs' hcs (hreg cs ((hmem cs).mpr hcs)) path).imp fun _ => And.left
    obtain ⟨-, hfail⟩ | ⟨-, -, hcurrent⟩ := h (probe cv path) (lawful_probe cv path) rfl
    · exact (hfail hok').elim
    · obtain ⟨_, heq, hcs₁⟩ := hrebuilt.current cs hcs
      obtain ⟨_, heq', hcs₂⟩ := hrebuilt'.current cs ((hmem cs).mp hcs)
      cases hsnap.symm.trans heq
      cases hsnap'.symm.trans heq'
      have hsnaps : snap = snap' := Option.some.inj (hcs₁.symm.trans ((hcurrent _ _).trans hcs₂))
      have hshown := (hfiles hne).symm.trans ((congrArg Snapshot.fileList hsnaps).trans (hfiles' hne))
      exact shownFile_injective path (List.cons.inj hshown).1
  · subst hr
    by_cases hreg : ∀ cs ∈ s.loadAllCurrent, cs.compilerVersion = r.env.compilerVersion → Registrable cs.compiled
    · refine sameRestore_of_rebuild hs.parents hs'.parents hmem fun cs hcs snap => ⟨?_, ?_⟩
      · exact hsame.rebuild hs hcs (h hreg cs hcs)
      · exact hsame.symm.rebuild hs' ((hmem cs).mp hcs) fun hne path => (h hreg cs hcs hne path).symm
    · refine .inl ⟨fun hok => hreg fun cs hcs hv => ?_, fun hok => hreg fun cs hcs hv => ?_⟩
      · obtain ⟨snap, hsnap⟩ := (restart_ok_iff hs.parents).mp hok cs hcs
        exact registrable_of_rebuild hlaw hsnap hv
      · obtain ⟨snap, hsnap⟩ := (restart_ok_iff hs'.parents).mp hok cs ((hmem cs).mp hcs)
        exact registrable_of_rebuild hlaw hsnap hv

end Registry

theorem Registry.intact_runAll (r : Registry) (calls : List Call) : (r.runAll calls .empty).store.Intact :=
  r.store_runAll Store.intact_empty (fun op _ hs => hs.perform op) calls

/-- A schema below another is compiled again, while a version of its own is staged. -/
theorem restore_same_staged :
    let s := ((Sample.importing "v1").runAll (Sample.family ++
      [Sample.publishParent [1], .promote "p", Sample.publish [2],
      .promote "n", Sample.publish [3]]) .empty).store
    (s.pointers "n" "s").stagedVersion = some 2 ∧ (∃ cs ∈ s.loadAllCurrent, cs.compilerVersion ≠ "v2") ∧
      ∀ r : Registry, r.env.Lawful → r.env.compilerVersion = "v2" → r.SameRestore s (s.discardStaging "n") := by
  intro s
  have hsame : s.SameButStaged (s.discardStaging "n") := .discardStaging s "n"
  refine ⟨by decide +kernel, by decide +kernel,
    (Registry.restore_same_iff (Registry.intact_runAll _ _) hsame "v2").mpr ?_⟩
  intro _ cs hcs _ path
  have hgathered : ∀ cs ∈ s.loadAllCurrent, s.siblingSources cs = (s.discardStaging "n").siblingSources cs ∧
      s.tiersAbove cs = (s.discardStaging "n").tiersAbove cs ∧
      s.builtinSources cs = (s.discardStaging "n").builtinSources cs := by
    decide +kernel
  obtain ⟨hsiblings, htiers, hbuiltins⟩ := hgathered cs hcs
  rw [Store.sees, Store.sees, hsame.ownSources, hsiblings, htiers, hbuiltins]

/-- A staged version of a file that another schema imports is restored in the current snapshot of that
schema. -/
theorem staged_sibling_restored :
    let s := ((Sample.importing "v1").runAll [Sample.publishShared [1], .promote "n", Sample.publish [2], .promote "n",
      Sample.publishShared [3]] .empty).store
    s.Intact ∧ s.SameButStaged (s.discardStaging "n") ∧
      ¬ (Sample.importing "v2").SameRestore s (s.discardStaging "n") := by
  intro s
  refine ⟨Registry.intact_runAll _ _, .discardStaging s "n", fun h => ?_⟩
  obtain ⟨hfail, -⟩ | ⟨-, -, hcurrent⟩ := h
  · have hok : ((Sample.importing "v2").restart ⟨s, .empty⟩).1.isOk = true := by decide +kernel
    cases hres : ((Sample.importing "v2").restart ⟨s, .empty⟩).1 with
    | ok u => exact hfail hres
    | error e =>
      rw [hres] at hok
      cases hok
  · have hnames := congrArg (Option.map fun snap => snap.fileList.flatMap fun f => f.messages.map (·.fullName))
      (hcurrent "n" "s")
    exact absurd hnames (by decide +kernel)

end ProtoRegistry
