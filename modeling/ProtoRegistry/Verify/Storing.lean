import ProtoRegistry.Verify.Staging
import ProtoRegistry.Verify.Redefinition
import ProtoRegistry.Verify.Sources

/-!
# A request that compiles is stored

Over a store that keeps its keys, everything a publish reads can be read, and nothing that it writes is
refused. So an authorized request that compiles against what is gathered for it, without a conflict with an
ancestor, succeeds.
-/

namespace ProtoRegistry
open RegistryM

/-! ## Keys -/

namespace Store

variable {s : Store}

/-- The foreign keys, and the primary key of the files of versions. -/
structure Keyed (s : Store) : Prop extends Intact s where
  schemas : ∀ {ns sc}, (s.schemas.get (ns, sc)).isSome → (s.namespaces.get ns).isSome
  files : ∀ {ns sc v row}, s.versions.get (ns, sc, v) = some row → (row.files.map (·.filename)).Nodup

theorem isSome_namespaces_perform (op : StoreOp) (h : (s.namespaces.get n).isSome) :
    ((s.perform op).2.namespaces.get n).isSome := by
  cases op with
  | createNamespace id p =>
    simp only [perform, createNamespace]
    repeat' split
    all_goals first | exact h | exact Dict.isSome_get_set _ _ h
  | setNamespaceParent id p actor => exact (s.isSome_setNamespaceParent id p actor n).symm ▸ h
  | _ => rwa [namespaces_perform (by simp) (by simp)]

theorem Keyed.perform (hs : s.Keyed) (op : StoreOp) : (s.perform op).2.Keyed := by
  refine ⟨hs.toIntact.perform op, fun {ns sc} h => isSome_namespaces_perform op ?_, fun {ns sc v row} hrow => ?_⟩
  · obtain h | ⟨-, h⟩ := isSome_schemas_perform_iff.mp h
    · exact hs.schemas h
    · exact h
  · obtain hrow | ⟨-, hnone⟩ := of_get_versions_perform hrow
    · exact hs.files hrow
    · exact (versionViolation_eq_none_iff.mp hnone).2.2.1.1

theorem keyed_empty : empty.Keyed := ⟨intact_empty, by simp [empty], by simp [empty]⟩

end Store

theorem World.keyed_exec {w : World} (x : RegistryM α) (hw : w.store.Keyed) : (x.exec w).2.store.Keyed := by
  refine Prog.exec_inv World.perform (J := fun w => w.store.Keyed) (fun op w hw => ?_) x.run hw
  cases op with
  | store op => exact hw.perform op
  | mem op => exact hw

theorem Session.keyed_of_reached {r : Registry} {s : Session} (h : Reached r ok s) : s.world.store.Keyed := by
  induction h with
  | start => exact Store.keyed_empty
  | call c _ _ ih => exact World.keyed_exec (r.run c) ih
  | restart _ _ ih => exact World.keyed_exec r.restore ih

/-! ## The records of dependencies -/

namespace Store

variable {s : Store}

def depKey (d : DepSource) : String × String × String := (d.namespaceID, d.schemaID, d.filename)

theorem depKey_nodup (hs : s.Keyed) {schemas : List CurrentSchema}
    (h : List.Sublist schemas (s.loadSchemas pointer (· = a))) : ((s.depSources a schemas).map depKey).Nodup := by
  have hkeys : (schemas.map CurrentSchema.key).Nodup := (h.map CurrentSchema.key).nodup (s.loadSchemas_nodup ..)
  rw [depSources, List.map_flatMap, List.nodup_flatMap]
  refine ⟨fun cs hcs => ?_, ?_⟩
  · obtain ⟨-, schema, row, -, -, hrow, -, heq⟩ := mem_loadSchemas.mp (h.subset hcs)
    have hfiles : (cs.files.map (·.filename)).Nodup := by
      rw [heq]
      exact ((List.perm_insertionSort _ row.files).map _).nodup_iff.mpr (hs.files hrow)
    rw [List.map_map]
    refine List.Nodup.of_map (·.2.2) ?_
    rw [List.map_map]
    exact hfiles
  · refine (List.pairwise_map.mp hkeys).imp_of_mem fun {cs cs'} hcs hcs' hne => ?_
    obtain ⟨hns, -⟩ := mem_loadSchemas.mp (h.subset hcs)
    obtain ⟨hns', -⟩ := mem_loadSchemas.mp (h.subset hcs')
    intro k hk hk'
    obtain ⟨d, hd, rfl⟩ := List.mem_map.mp hk
    obtain ⟨d', hd', heq⟩ := List.mem_map.mp hk'
    obtain ⟨f, -, rfl⟩ := List.mem_map.mp hd
    obtain ⟨f', -, rfl⟩ := List.mem_map.mp hd'
    refine hne (Prod.ext ?_ (congrArg (·.2.1) heq).symm)
    exact (of_decide_eq_true hns).trans (of_decide_eq_true hns').symm

/-- What a compilation records can be stored: each file once, and of namespaces that exist. -/
theorem records_nodup (hs : s.Keyed) {ancestors : List String} (hdeps : s.fetchDeps ns sc = .ok deps)
    (htiers : s.fetchTiers ancestors = .ok tiers) (hnd : (ns :: ancestors).Nodup) :
    ((deps.map depRecord ++ tiers.flatMap fun t => t.files.map depRecord).map fun d =>
      (d.depNamespaceID, d.depSchemaID, d.depFilename)).Nodup := by
  have hrecords : ∀ l : List DepSource,
      (l.map depRecord).map (fun d => (d.depNamespaceID, d.depSchemaID, d.depFilename)) =
      l.map depKey := fun l => List.map_map
  obtain ⟨hns, hancestors⟩ := List.nodup_cons.mp hnd
  rw [eq_depSources_of_fetch hdeps, eq_of_fetchTiers htiers, List.map_append, hrecords,
    List.flatMap_map, List.map_flatMap]
  simp only [hrecords]
  refine List.Nodup.append ?_ ?_ ?_
  · exact depKey_nodup hs List.filter_sublist
  · refine List.nodup_flatMap.mpr ⟨fun a _ => depKey_nodup hs (List.Sublist.refl _), ?_⟩
    refine hancestors.imp fun {a b} hne k hk hk' => ?_
    obtain ⟨d, hd, rfl⟩ := List.mem_map.mp hk
    obtain ⟨d', hd', heq⟩ := List.mem_map.mp hk'
    exact hne ((of_mem_depSources hd).1.symm.trans ((congrArg Prod.fst heq).symm.trans (of_mem_depSources hd').1))
  · intro k hk hk'
    obtain ⟨d, hd, rfl⟩ := List.mem_map.mp hk
    obtain ⟨a, ha, hd'⟩ := List.mem_flatMap.mp hk'
    obtain ⟨d', hd', heq⟩ := List.mem_map.mp hd'
    have : a = ns := (of_mem_depSources hd').1.symm.trans ((congrArg Prod.fst heq).trans (of_mem_depSources hd).1)
    exact hns (this ▸ ha)

theorem records_exist (hs : s.Keyed) {ancestors : List String} (hdeps : s.fetchDeps ns sc = .ok deps)
    (htiers : s.fetchTiers ancestors = .ok tiers) :
    ∀ d ∈ deps.map depRecord ++ tiers.flatMap fun t => t.files.map depRecord,
      (s.namespaces.get d.depNamespaceID).isSome := by
  have hloaded : ∀ {a pointer schemas} {d : DepSource}, schemas ⊆ s.loadSchemas pointer (· = a) →
      d ∈ s.depSources a schemas → (s.namespaces.get d.namespaceID).isSome := by
    intro a pointer schemas d hsub hd
    obtain ⟨hns, cs, hcs, -, -⟩ := of_mem_depSources hd
    obtain ⟨hselect, schema, row, hschema, -⟩ := mem_loadSchemas.mp (hsub hcs)
    rw [hns, ← of_decide_eq_true hselect]
    exact hs.schemas (Option.isSome_of_eq_some hschema)
  intro d hd
  rw [eq_depSources_of_fetch hdeps, eq_of_fetchTiers htiers] at hd
  obtain hd | hd := List.mem_append.mp hd
  · obtain ⟨source, hsource, rfl⟩ := List.mem_map.mp hd
    exact hloaded List.filter_sublist.subset hsource
  · obtain ⟨tier, htier, hd⟩ := List.mem_flatMap.mp hd
    obtain ⟨a, -, rfl⟩ := List.mem_map.mp htier
    obtain ⟨source, hsource, rfl⟩ := List.mem_map.mp hd
    exact hloaded (List.Subset.refl _) hsource

end Store

/-! ## Writing -/

namespace Registry

variable {r : Registry} {req : PublishRequest} {w : World} {ns sc : String}

/-- The blobs of a namespace that exists are not refused. -/
theorem exec_putBlobs_ok {w : World} (files : List FileResult) (context : FileResult → String)
    (hns : (w.store.namespaces.get ns).isSome) :
    ∃ s : Store, (files.forM fun f => (store (.putBlob ns f.blobSHA256 f.originalSource)).wrap (context f)).exec w =
        (.ok ⟨⟩, ⟨s, w.memory⟩) ∧
      s.namespaces = w.store.namespaces ∧ s.schemas = w.store.schemas ∧ s.versions = w.store.versions := by
  induction files generalizing w with
  | nil => exact ⟨w.store, rfl, rfl, rfl, rfl⟩
  | cons f files ih =>
    have hput : ∃ s : Store, w.store.putBlob ns f.blobSHA256 f.originalSource = (.ok (), s) ∧
        s.namespaces = w.store.namespaces ∧ s.schemas = w.store.schemas ∧ s.versions = w.store.versions := by
      unfold Store.putBlob
      rw [if_neg (Option.isSome_iff_ne_none.mp hns)]
      split
      · exact ⟨_, rfl, rfl, rfl, rfl⟩
      · exact ⟨_, rfl, rfl, rfl, rfl⟩
    obtain ⟨s₁, hput, hns₁, hsc₁, hv₁⟩ := hput
    have hfirst : ((store (.putBlob ns f.blobSHA256 f.originalSource)).wrap (context f)).exec w =
        (.ok (), ⟨s₁, w.memory⟩) := by
      refine (exec_wrap_of (exec_store (.putBlob ns f.blobSHA256 f.originalSource) w) _).trans ?_
      simp only [Store.perform, hput]
      rfl
    obtain ⟨s, hrest, hns', hsc', hv'⟩ := ih (w := ⟨s₁, w.memory⟩) (hns₁ ▸ hns)
    refine ⟨s, ?_, hns'.trans hns₁, hsc'.trans hsc₁, hv'.trans hv₁⟩
    rw [RegistryM.exec, execute_forM_cons]
    exact (execute_bind_of_ok hfirst).trans hrest

theorem exec_storeVersion_ok {result : CompileResult} (hready : w.Ready req.namespaceID req.schemaID)
    (hnew : w.store.versions.get (req.namespaceID, req.schemaID, v) = none)
    (hfiles : (result.files.map (·.filename)).Nodup)
    (hnd : (result.deps.map fun d => (d.depNamespaceID, d.depSchemaID, d.depFilename)).Nodup)
    (hexist : ∀ d ∈ result.deps, (w.store.namespaces.get d.depNamespaceID).isSome) (fingerprint : String) :
    ∃ res w', (r.storeVersion req v result fingerprint).exec w = (.ok res, w') := by
  obtain ⟨s, hblobs, hns, hsc, hv⟩ := exec_putBlobs_ok result.files (fun f => "storing blob for " ++ f.filename)
    hready.namespaces
  have hviolation : s.versionViolation req.namespaceID req.schemaID v (r.versionRow result) = none := by
    refine Store.versionViolation_eq_none_iff.mpr
      ⟨hv ▸ hnew, hsc ▸ hready.schema, ⟨?_, ?_⟩, hnd, hns ▸ hexist⟩
    · rw [versionRow, List.map_map]
      exact hfiles
    · intro g hg
      obtain ⟨f, hf, rfl⟩ := List.mem_map.mp hg
      have hstored := get_blobs_putBlobs hblobs f.blobSHA256
      rw [hstored, Option.isSome_or, Option.isSome_map, Bool.or_eq_true]
      exact .inr (List.find?_isSome.mpr ⟨f, hf, decide_eq_true rfl⟩)
  have hput : ((store (.putVersion req.namespaceID req.schemaID v (r.versionRow result))).wrap
      "storing version").exec ⟨s, w.memory⟩ =
        (.ok (), ⟨(s.putVersion req.namespaceID req.schemaID v (r.versionRow result)).2, w.memory⟩) := by
    refine (exec_wrap_of (exec_store (.putVersion req.namespaceID req.schemaID v (r.versionRow result)) _) _).trans ?_
    simp only [Store.perform, Store.putVersion, hviolation]
    rfl
  exact ⟨_, _, (execute_bind_of_ok hblobs).trans ((execute_bind_of_ok hput).trans rfl)⟩

end Registry

/-! ## The publish -/

namespace Registry

variable {r : Registry} {req : PublishRequest} {w : World}

/-- The request compiles against what is gathered for it. -/
def CompilesIn (r : Registry) (req : PublishRequest) (w : World) : Prop :=
  ∀ deps tiers builtins, w.store.fetchDeps req.namespaceID req.schemaID = .ok deps →
    w.store.fetchTiers (ancestorsOf w.memory.parent req.namespaceID) = .ok tiers →
    w.store.fetchBuiltinsFor req.namespaceID = .ok builtins →
    ∃ v result, r.compiler.compile r.env v req.sources deps tiers builtins = .ok result

/-- **A request that compiles is published** unless an ancestor has a conflict with it. -/
theorem publish_of_compiles (hlaw : r.env.Lawful) (hsound : w.Sound r.env) (hw : w.store.Keyed)
    (hauthz : r.authz.canPublish req.namespaceID req.schemaID = .ok ()) (hrequest : r.checkRequest req = .ok ())
    (hcompiles : r.CompilesIn req w) (hfree : ¬ r.Conflicts req w) :
    ∃ res w', (r.publish req).exec w = (.ok res, w') := by
  have hdeps := Store.fetchDeps_eq hw.toIntact ⟨req.namespaceID, req.schemaID, 0, [], "", []⟩
  have htiers := Store.fetchTiers_ok hw.toIntact (ancestorsOf w.memory.parent req.namespaceID)
  have hbuiltins := Store.fetchBuiltinsFor_eq hw.toIntact ⟨req.namespaceID, req.schemaID, 0, [], "", []⟩
  obtain ⟨result, hcompile⟩ : ∃ result, r.compiler.compile r.env
      (nextVersion (w.store.listVersions req.namespaceID req.schemaID)) req.sources _ _ _ = .ok result := by
    obtain ⟨v, result, hresult⟩ := hcompiles _ _ _ hdeps htiers hbuiltins
    exact ⟨_, Compiler.compile_version hresult _⟩
  have hnext := compileNext_eq_ok.mpr ⟨rfl, rfl, _, _, _, hdeps, htiers, hbuiltins, hcompile⟩
  have hnone : ∀ a ∈ ancestorsOf w.memory.parent req.namespaceID, w.memory.conflictsWith result.snapshot a = [] := by
    by_contra hsome
    push Not at hsome
    exact hfree ⟨_, result, hnext, (conflicts_iff hlaw hsound hnext).mp hsome⟩
  obtain ⟨w₂, hready, hinputs, hexec⟩ := publish_stores hauthz hrequest hnext hnone
  obtain ⟨hfiles, -⟩ := Compiler.files_of_compile hcompile
  have hrecorded := Compiler.deps_of_compile hcompile
  have hnd : (req.namespaceID :: ancestorsOf w.memory.parent req.namespaceID).Nodup :=
    List.nodup_cons.mpr ⟨not_mem_ancestorsOf _ _, (chainOf_nodup _ _ _ List.nodup_nil).tail⟩
  have hnew : w₂.store.versions.get (req.namespaceID, req.schemaID,
      nextVersion (w.store.listVersions req.namespaceID req.schemaID)) = none := by
    rw [hinputs.versions, ← Option.not_isSome_iff_eq_none]
    exact fun hsome => (Store.lt_nextVersion hsome).false
  have hsame := exec_isUnchanged r.env req.namespaceID req.schemaID (computeFingerprint r.env result.files) w₂
  rw [hexec]
  cases hunchanged : w₂.store.unchanged r.env req.namespaceID req.schemaID (computeFingerprint r.env result.files) with
  | true =>
    rw [hunchanged] at hsame
    exact ⟨_, _, (execute_bind_of_ok hsame).trans rfl⟩
  | false =>
    rw [hunchanged] at hsame
    obtain ⟨res, w', hstore⟩ := exec_storeVersion_ok (r := r) hready hnew (hfiles ▸ req.sources.nodup)
      (hrecorded ▸ Store.records_nodup hw hdeps htiers hnd)
      (fun d hd => hinputs.namespaces (Store.records_exist hw hdeps htiers d (hrecorded ▸ hd)))
      (computeFingerprint r.env result.files)
    exact ⟨res, w', (execute_bind_of_ok hsame).trans hstore⟩

end Registry

end ProtoRegistry
