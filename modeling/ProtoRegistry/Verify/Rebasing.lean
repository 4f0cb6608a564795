import ProtoRegistry.Verify.Gathering

/-!
# Pins after a rebase

A version that is compiled records the version of each file it was given by the namespaces above. `Rebase`
compiles the current sources again, so once its version is promoted every pin is the version that the
namespace above has now.
-/

namespace ProtoRegistry
open RegistryM

/-! ## Programs that only read -/

def Op.IsRead : Op → Prop
  | .mem (.get _) | .mem (.parent _) | .mem (.schemaIDs _) | .mem (.current ..) | .mem (.staged ..) => True
  | _ => False

theorem World.perform_of_isRead {op : Op} (hop : op.IsRead) (w : World) : (World.perform op w).2 = w := by
  unfold Op.IsRead at hop
  split at hop <;> first | rfl | exact hop.elim

theorem keeps_of_uses {x : RegistryM α} {A : Op → Prop} {w w' : World} {β : Type} {g : World → β} (hx : Uses A x)
    (hstep : ∀ op w, A op → g (World.perform op w).2 = g w) (h : x.exec w = (res, w')) : g w' = g w := by
  have hkept := Prog.Relies.exec_eq hstep hx w
  exact (congrArg (fun p => g p.2) h).symm.trans hkept

theorem inv_of_uses {x : RegistryM α} {A : Op → Prop} {w w' : World} {J : World → Prop} (hx : Uses A x)
    (hstep : ∀ op w, A op → J w → J (World.perform op w).2) (hw : J w) (h : x.exec w = (res, w')) : J w' := by
  have hkept := Prog.Relies.exec_inv hstep hx hw
  exact (congrArg (fun p => J p.2) h).mp hkept

theorem eq_of_reads {x : RegistryM α} {w w' : World} (hx : Uses Op.IsRead x) (h : x.exec w = (res, w')) : w' = w :=
  keeps_of_uses (g := id) hx (fun _ w hop => World.perform_of_isRead hop w) h

theorem isRead_of_readsIn (op : MemOp) (h : Op.ReadsIn P (.mem op)) : Op.IsRead (.mem op) := by
  cases op <;> trivial

theorem checkAncestorFQNConflicts_reads (child : Snapshot) (ns : String) :
    Uses Op.IsRead (checkAncestorFQNConflicts child ns) :=
  (checkAncestorFQNConflicts_scoped isRead_of_readsIn (climbs_true _) trivial child).done

theorem checkStaged_reads (ns sc : String) : Uses Op.IsRead (Registry.checkStaged ns sc) :=
  (Registry.checkStaged_scoped (P := fun _ => True) isRead_of_readsIn trivial sc).done

/-! ## Pins -/

/-- Every record of another namespace is the version that is current there. -/
def Store.Pinned (s : Store) (ns : String) (deps : List Dep) : Prop :=
  ∀ d ∈ deps, d.depNamespaceID ≠ ns → (s.pointers d.depNamespaceID d.depSchemaID).currentVersion = some d.depVersion

namespace Store

variable {s s' : Store} {ns : String} {deps : List Dep}

theorem Pinned.mono (h : s.Pinned ns deps) (hs : ∀ a sc, a ≠ ns → s'.pointers a sc = s.pointers a sc) :
    s'.Pinned ns deps := by
  intro d hd hne
  rw [hs _ _ hne]
  exact h d hd hne

theorem of_mem_depSources {schemas : List CurrentSchema} (hd : d ∈ s.depSources ns schemas) :
    d.namespaceID = ns ∧ ∃ cs ∈ schemas, d.schemaID = cs.schemaID ∧ d.version = cs.version := by
  obtain ⟨cs, hcs, hd⟩ := List.mem_flatMap.mp hd
  obtain ⟨f, hf, rfl⟩ := List.mem_map.mp hd
  exact ⟨rfl, cs, hcs, rfl, rfl⟩

theorem current_of_mem_currentSources (hd : d ∈ s.currentSources a) :
    d.namespaceID = a ∧ (s.pointers a d.schemaID).currentVersion = some d.version := by
  obtain ⟨hns, cs, hcs, hsc, hv⟩ := of_mem_depSources hd
  obtain ⟨hselect, schema, row, hschema, hcurrent, -⟩ := mem_loadSchemas.mp hcs
  rw [of_decide_eq_true hselect] at hschema
  rw [hsc, hv, pointers, hschema]
  exact ⟨hns, hcurrent⟩

theorem pinned_of_fetch {ancestors : List String} {deps : List DepSource} (hdeps : s.fetchDeps ns sc = .ok deps)
    (htiers : s.fetchTiers ancestors = .ok tiers) :
    s.Pinned ns (deps.map depRecord ++ tiers.flatMap fun t => t.files.map depRecord) := by
  intro d hd hne
  rcases List.mem_append.mp hd with hd | hd
  · obtain ⟨source, hsource, rfl⟩ := List.mem_map.mp hd
    rw [eq_depSources_of_fetch hdeps] at hsource
    exact (hne (of_mem_depSources hsource).1).elim
  · rw [eq_of_fetchTiers htiers] at hd
    obtain ⟨tier, htier, hd⟩ := List.mem_flatMap.mp hd
    obtain ⟨a, -, rfl⟩ := List.mem_map.mp htier
    obtain ⟨source, hsource, rfl⟩ := List.mem_map.mp hd
    obtain ⟨hns, hcurrent⟩ := current_of_mem_currentSources hsource
    rw [← hns] at hcurrent
    exact hcurrent

end Store

namespace Namespaces

variable {m : Namespaces} {ns sc : String}

/-- `promoteSlot` as a function of memory. -/
def promoteSlot (m : Namespaces) (ns sc : String) : Namespaces :=
  match m.staged ns sc with
  | none => m.clearStaged ns sc
  | some staged => (m.clearStaged ns sc).setCurrent ns sc (some staged)

theorem isSome_promoteSlot (sc : String) (hns : (m.namespaces.get ns).isSome) :
    ((m.promoteSlot ns sc).namespaces.get ns).isSome := by
  unfold promoteSlot
  split
  · exact isSome_modify ns hns
  · exact isSome_modify ns (isSome_modify ns hns)

theorem current_promoteSlot (hstaged : m.staged ns sc = some snap) :
    (m.promoteSlot ns sc).current ns sc = some snap := by
  rw [promoteSlot, hstaged]
  exact current_setCurrent (isSome_modify ns (isSome_of_staged hstaged))

theorem slot_promoteSlot_of_ne (hne : a ≠ sc) : (m.promoteSlot ns a).slot ns sc = m.slot ns sc := by
  have hkey : ¬ (ns = ns ∧ a = sc) := fun hkey => hne hkey.2
  unfold promoteSlot
  split
  · exact slot_clearStaged.trans (if_neg hkey)
  · exact (slot_modifySlot_of_ne hkey).trans (slot_clearStaged.trans (if_neg hkey))

end Namespaces

/-! ## The version that `Rebase` stages -/

namespace Registry

variable {r : Registry} {req : PublishRequest} {w w' : World}

/-- The next version is compiled from what the store has, and nothing is written on the way. -/
theorem compileNext_eq_ok : (r.compileNext req).exec w = (.ok (v, result), w') ↔
    w' = w ∧ v = nextVersion (w.store.listVersions req.namespaceID req.schemaID) ∧ ∃ deps tiers builtins,
      w.store.fetchDeps req.namespaceID req.schemaID = .ok deps ∧
      w.store.fetchTiers (ancestorsOf w.memory.parent req.namespaceID) = .ok tiers ∧
      w.store.fetchBuiltinsFor req.namespaceID = .ok builtins ∧
      r.compiler.compile r.env v req.sources deps tiers builtins = .ok result := by
  have hversions : ((store (.listVersions req.namespaceID req.schemaID)).wrap "listing versions").exec w =
      (.ok (w.store.listVersions req.namespaceID req.schemaID), w) := exec_wrap_of (exec_store ..) _
  refine ⟨fun h => ?_, fun ⟨hw, hv, deps, tiers, builtins, hdeps, htiers, hbuiltins, hcompile⟩ => ?_⟩
  · obtain ⟨deps, hdeps, h⟩ := (execute_bind_eq_ok_of (exec_wrap_of (exec_gatherDeps w ..) _)).mp h
    obtain ⟨tiers, htiers, h⟩ := (execute_bind_eq_ok_of (exec_wrap_of (exec_gatherChainTiers w _) _)).mp h
    obtain ⟨builtins, hbuiltins, h⟩ := (execute_bind_eq_ok_of (exec_wrap_of (exec_gatherBuiltinsFor w _) _)).mp h
    obtain ⟨versions, hlist, h⟩ := (execute_bind_eq_ok_of hversions).mp h
    cases hlist
    obtain ⟨result', hcompile, h⟩ := (execute_bind_eq_ok_of (execute_liftExcept ..)).mp h
    cases h
    rw [mapError_eq_ok] at hdeps htiers hbuiltins hcompile
    exact ⟨rfl, rfl, deps, tiers, builtins, hdeps, htiers, hbuiltins, hcompile⟩
  · subst hw hv
    rw [← mapError_eq_ok (f := (·.wrap "gathering dependencies"))] at hdeps
    rw [← mapError_eq_ok (f := (·.wrap "gathering parent chain"))] at htiers
    rw [← mapError_eq_ok (f := (·.wrap "gathering builtins"))] at hbuiltins
    refine (execute_bind_eq_ok_of (exec_wrap_of (exec_gatherDeps ..) _)).mpr ⟨deps, hdeps, ?_⟩
    refine (execute_bind_eq_ok_of (exec_wrap_of (exec_gatherChainTiers ..) _)).mpr ⟨tiers, htiers, ?_⟩
    refine (execute_bind_eq_ok_of (exec_wrap_of (exec_gatherBuiltinsFor ..) _)).mpr ⟨builtins, hbuiltins, ?_⟩
    refine (execute_bind_eq_ok_of hversions).mpr ⟨_, rfl, ?_⟩
    exact (execute_bind_eq_ok_of (execute_liftExcept ..)).mpr ⟨result, mapError_eq_ok.mpr hcompile, rfl⟩

theorem pinned_of_compileNext (h : (r.compileNext req).exec w = (.ok (v, result), w')) :
    w' = w ∧ result.snapshot.version = v ∧ w.store.Pinned req.namespaceID result.deps := by
  obtain ⟨hw, -, deps, tiers, builtins, hdeps, htiers, -, hcompile⟩ := compileNext_eq_ok.mp h
  obtain ⟨fileResults, linked, snap, -, -, -, hsnap, rfl⟩ := Compiler.compile_eq_ok.mp hcompile
  obtain ⟨rfl, -⟩ := Snapshot.newFromFiles_eq_ok hsnap
  exact ⟨hw, rfl, Store.pinned_of_fetch hdeps htiers⟩

theorem get_of_putVersion {s : Store} {row : VersionRow} (h : (s.putVersion ns sc v row).1 = .ok u) :
    (s.putVersion ns sc v row).2.versions.get (ns, sc, v) = some row := by
  unfold Store.putVersion at h ⊢
  split at h
  · cases h
  · exact Dict.get_set_self ..

theorem isSome_of_putVersion {s : Store} {row : VersionRow} (h : (s.putVersion ns sc v row).1 = .ok u) :
    ((s.putVersion ns sc v row).2.schemas.get (ns, sc)).isSome := by
  unfold Store.putVersion at h ⊢
  split at h
  · cases h
  · next hnone => exact (Store.versionViolation_eq_none_iff.mp hnone).2.1

theorem exec_putBlobs {w₁ : World} {files : List FileResult} {context : FileResult → String}
    (h : (files.forM fun f => (store (.putBlob ns f.blobSHA256 f.originalSource)).wrap (context f)).exec w =
      (.ok u, w₁)) :
    w₁.memory = w.memory ∧ w₁.store.pointers = w.store.pointers := by
  have huses : Uses (fun op : Op => ∃ sha source, op = .store (.putBlob ns sha source))
      (files.forM fun f => (store (.putBlob ns f.blobSHA256 f.originalSource)).wrap (context f)) :=
    Within.forM fun f _ => (uses_store ⟨f.blobSHA256, f.originalSource, rfl⟩).wrap (context f)
  refine Prod.mk.inj (keeps_of_uses (g := fun w => (w.memory, w.store.pointers)) huses ?_ h)
  intro op w ⟨sha, source, heq⟩
  subst heq
  refine Prod.ext rfl (funext fun a => funext fun sc => ?_)
  exact Store.pointers_perform id

/-- Storing a version: its row is there and is staged, in the store and in memory, and the other namespaces are
left alone. -/
theorem storeVersion_eq_ok (hns : (w.memory.namespaces.get req.namespaceID).isSome)
    (h : (r.storeVersion req v result fingerprint).exec w = (.ok res, w')) :
    res = ⟨v, fingerprint, some result.snapshot, false⟩ ∧
      (∃ row, w'.store.versions.get (req.namespaceID, req.schemaID, v) = some row ∧
        row.files = (result.files.map fun f => ⟨f.filename, f.blobSHA256⟩) ∧ row.deps = result.deps) ∧
      w'.memory.staged req.namespaceID req.schemaID = some result.snapshot ∧
      (v ≠ 0 → (w'.store.pointers req.namespaceID req.schemaID).stagedVersion = some v) ∧
      ∀ a sc, a ≠ req.namespaceID → w'.store.pointers a sc = w.store.pointers a sc := by
  unfold storeVersion at h
  obtain ⟨_, w₁, hblobs, h⟩ := execute_bind_eq_ok.mp h
  obtain ⟨hmemory, hpointers⟩ := exec_putBlobs hblobs
  obtain ⟨_, hput, h⟩ := (execute_bind_eq_ok_of (exec_wrap_of (exec_store (.putVersion ..) w₁) _)).mp h
  obtain ⟨_, -, h⟩ := (execute_bind_eq_ok_of (exec_wrap_of (exec_store (.setStaged ..) _) _)).mp h
  cases h
  have hput := mapError_eq_ok.mp hput
  have hrow := get_of_putVersion hput
  refine ⟨rfl, ⟨_, (congrArg (Dict.get · _) (Store.versions_perform (by simp))).trans hrow, rfl, rfl⟩, ?_, fun hv => ?_,
    fun a sc hne => ?_⟩
  · exact Namespaces.staged_setStaged (hmemory ▸ hns)
  · exact congrArg SchemaRow.stagedVersion (Store.pointers_setStaged (isSome_of_putVersion hput) hv)
  · refine (Store.pointers_setStaged_of_ne fun hkey => hne hkey.1.symm).trans ?_
    refine (Store.pointers_perform ?_).trans (congrFun (congrFun hpointers a) sc)
    exact id

theorem publishInternal_eq_ok (h : (r.publishInternal req { forceNewVersion := true }).exec w = (.ok res, w')) :
    ∃ snap row, w'.memory.staged req.namespaceID req.schemaID = some snap ∧
      w'.store.versions.get (req.namespaceID, req.schemaID, snap.version) = some row ∧
      w'.store.Pinned req.namespaceID row.deps := by
  obtain ⟨_, -, h⟩ := (execute_bind_eq_ok_of (execute_liftExcept ..)).mp h
  obtain ⟨_, w₁, -, h⟩ := execute_bind_eq_ok.mp h
  obtain ⟨_, -, h⟩ := (execute_bind_eq_ok_of (exec_mem (.getOrCreate _) w₁)).mp h
  obtain ⟨⟨v, result⟩, w₂, hcompile, h⟩ := execute_bind_eq_ok.mp h
  obtain ⟨rfl, hv, hpinned⟩ := pinned_of_compileNext hcompile
  obtain ⟨_, w₃, hcheck, h⟩ := execute_bind_eq_ok.mp h
  cases eq_of_reads (checkAncestorFQNConflicts_reads ..) hcheck
  have hns : ((w₁.memory.getOrCreate req.namespaceID).namespaces.get req.namespaceID).isSome :=
    Namespaces.isSome_getOrCreate _
  obtain ⟨-, ⟨row, hrow, -, hdeps⟩, hstaged, -, hpointers⟩ := storeVersion_eq_ok hns h
  refine ⟨result.snapshot, row, hstaged, hv ▸ hrow, ?_⟩
  rw [hdeps]
  exact hpinned.mono hpointers

theorem rebase_eq_ok (h : (r.rebase ns sc).exec w = (.ok res, w')) :
    ∃ snap row, w'.memory.staged ns sc = some snap ∧ w'.store.versions.get (ns, sc, snap.version) = some row ∧
      w'.store.Pinned ns row.deps := by
  obtain ⟨_, -, h⟩ := (execute_bind_eq_ok_of (execute_liftExcept ..)).mp h
  obtain ⟨found, -, h⟩ := (execute_bind_eq_ok_of (exec_mem (.get ns) w)).mp h
  cases found with
  | false => cases h
  | true =>
    obtain ⟨current, -, h⟩ := (execute_bind_eq_ok_of (exec_mem (.current ns sc) w)).mp h
    cases current with
    | none => cases h
    | some cur =>
      obtain ⟨files, -, h⟩ := (execute_bind_eq_ok_of (exec_wrap_of (exec_store (.getVersionFiles ..) w) _)).mp h
      obtain ⟨sources, -, h⟩ := (execute_bind_eq_ok_of (exec_fetchSources ..)).mp h
      exact publishInternal_eq_ok h

/-! ## Its promotion -/

theorem exec_promoteSlot (ns a : String) (w : World) :
    (promoteSlot ns a).exec w = (.ok ⟨⟩, ⟨w.store, w.memory.promoteSlot ns a⟩) := by
  refine (execute_bind_of_ok (exec_mem (.swapStaged ns a) w)).trans ?_
  unfold Namespaces.promoteSlot
  simp only [Namespaces.perform]
  cases w.memory.staged ns a with
  | none => rfl
  | some staged => rfl

/-- The slot of a schema while the slots of its namespace are promoted. -/
structure Promoting (ns sc : String) (snap : Snapshot) (s : Store) (done : List String) (w : World) : Prop where
  store : w.store = s
  current : sc ∈ done → w.memory.current ns sc = some snap
  staged : sc ∉ done → w.memory.staged ns sc = some snap
  found : (w.memory.namespaces.get ns).isSome

theorem Promoting.promoteSlot {s : Store} {done : List String} {a : String} (hw : Promoting ns sc snap s done w)
    (ha : a ∉ done) : ∃ w', (promoteSlot ns a).exec w = (.ok ⟨⟩, w') ∧ Promoting ns sc snap s (done ++ [a]) w' := by
  refine ⟨_, exec_promoteSlot ns a w, ?_⟩
  have hfound := Namespaces.isSome_promoteSlot a hw.found
  obtain rfl | hne := eq_or_ne a sc
  · refine ⟨hw.store, fun _ => Namespaces.current_promoteSlot (hw.staged ha), fun hnot => ?_, hfound⟩
    exact (hnot (by simp)).elim
  · have hslot : (w.memory.promoteSlot ns a).slot ns sc = w.memory.slot ns sc := Namespaces.slot_promoteSlot_of_ne hne
    have hmem : sc ∈ done ++ [a] ↔ sc ∈ done := by simp [hne.symm]
    refine ⟨hw.store, fun hsc => ?_, fun hsc => ?_, hfound⟩
    · rw [Namespaces.current, hslot]
      exact hw.current (hmem.mp hsc)
    · rw [Namespaces.staged, hslot]
      exact hw.staged (mt hmem.mpr hsc)

theorem exec_promoteSlots {ids : List String} (hnd : ids.Nodup) (hmem : sc ∈ ids)
    (hstaged : w.memory.staged ns sc = some snap) :
    ∃ w', (ids.forM (promoteSlot ns)).exec w = (.ok ⟨⟩, w') ∧ w'.store = w.store ∧
      w'.memory.current ns sc = some snap ∧ (w'.memory.namespaces.get ns).isSome := by
  have hinit : Promoting ns sc snap w.store [] w :=
    ⟨rfl, by simp, fun _ => hstaged, Namespaces.isSome_of_staged hstaged⟩
  have hloop : ∃ w', (ids.forM (promoteSlot ns)).exec w = (.ok ⟨⟩, w') ∧ Promoting ns sc snap w.store ids w' := by
    refine execute_forM hinit fun done a rest w' hl hw' => hw'.promoteSlot fun hmem => ?_
    rw [hl] at hnd
    exact (List.nodup_append.mp hnd).2.2 a hmem a (List.mem_cons_self ..) rfl
  obtain ⟨w', hexec, hw'⟩ := hloop
  exact ⟨w', hexec, hw'.store, hw'.current hmem, hw'.found⟩

theorem promote_eq_ok (hstaged : w.memory.staged ns sc = some snap)
    (h : (r.promote ns).exec w = (.ok promoted, w')) :
    w'.memory.current ns sc = some snap ∧ (w'.memory.namespaces.get ns).isSome ∧
      w'.store.versions = w.store.versions ∧ ∀ a sc, a ≠ ns → w'.store.pointers a sc = w.store.pointers a sc := by
  obtain ⟨_, -, h⟩ := (execute_bind_eq_ok_of (execute_liftExcept ..)).mp h
  obtain ⟨found, -, h⟩ := (execute_bind_eq_ok_of (exec_mem (.get ns) w)).mp h
  cases found with
  | false => cases h
  | true =>
    obtain ⟨ids, -, h⟩ := (execute_bind_eq_ok_of (exec_mem (.schemaIDs ns) w)).mp h
    obtain ⟨_, w₁, hcheck, h⟩ := execute_bind_eq_ok.mp h
    cases eq_of_reads (Within.forM fun a _ => checkStaged_reads ns a) hcheck
    obtain ⟨_, -, h⟩ := (execute_bind_eq_ok_of (exec_wrap_of (exec_store (.promote ns) w) _)).mp h
    obtain ⟨ids', hids, h⟩ := (execute_bind_eq_ok_of (exec_mem (.schemaIDs ns) _)).mp h
    cases hids
    have hslot : sc ∈ w.memory.schemaIDs ns := by
      obtain ⟨slot, hslot, -⟩ := Option.bind_eq_some_iff.mp hstaged
      exact Namespaces.mem_schemaIDs.mpr (by rw [hslot]; rfl)
    obtain ⟨w₂, hslots, hstore, hcurrent, hfound⟩ := exec_promoteSlots (w := ⟨(w.store.promote ns).2, w.memory⟩)
      (Namespaces.schemaIDs_nodup ..) hslot hstaged
    obtain ⟨_, -, h⟩ := (execute_bind_eq_ok_of hslots).mp h
    cases h
    refine ⟨hcurrent, hfound, ?_, fun a sc hne => ?_⟩
    · rw [hstore]
      rfl
    · rw [hstore]
      exact Store.pointers_promote_of_ne hne.symm

/-! ## The status -/

/-- A pin as its status, when it is the current version. -/
def upToDate (d : Dep) : ParentPinStatus :=
  ⟨d.depNamespaceID, d.depSchemaID, d.depFilename, d.depVersion, d.depVersion⟩

theorem exec_pinStatus {d : Dep}
    (h : (w.store.pointers d.depNamespaceID d.depSchemaID).currentVersion = some d.depVersion) :
    (pinStatus d).exec w = (.ok (upToDate d), w) := by
  have hget : (attempt (store (.getSchema d.depNamespaceID d.depSchemaID))).exec w =
      (.ok (w.store.getSchema d.depNamespaceID d.depSchemaID), w) := exec_attempt _ w
  refine (execute_bind_of_ok hget).trans ?_
  cases hrow : w.store.schemas.get (d.depNamespaceID, d.depSchemaID) with
  | none => simp [Store.pointers, hrow] at h
  | some row =>
    have hcurrent : row.currentVersion = some d.depVersion := by simpa [Store.pointers, hrow] using h
    simp only [Store.getSchema, hrow, hcurrent]
    rfl

/-- The status of a version whose pins are the current versions. -/
theorem exec_getRebaseStatus {row : VersionRow} (hfound : (w.memory.namespaces.get ns).isSome)
    (hcurrent : w.memory.current ns sc = some snap) (hrow : w.store.versions.get (ns, sc, snap.version) = some row)
    (hpinned : w.store.Pinned ns row.deps) : (getRebaseStatus ns sc).exec w =
      (.ok ⟨(row.deps.filter (·.depNamespaceID ≠ ns)).map upToDate, false⟩, w) := by
  refine (execute_bind_of_ok (exec_mem (.get ns) w)).trans ?_
  simp only [Namespaces.perform, hfound]
  refine (execute_bind_of_ok (exec_mem (.current ns sc) w)).trans ?_
  simp only [Namespaces.perform, hcurrent]
  refine (execute_bind_of_ok (exec_wrap_of (exec_store (.getVersionDeps ns sc snap.version) w) _)).trans ?_
  have hdeps : w.store.getVersionDeps ns sc snap.version = row.deps := by rw [Store.getVersionDeps, hrow]
  have hpins : ((row.deps.filter (·.depNamespaceID ≠ ns)).mapM pinStatus).exec w =
      (.ok ((row.deps.filter (·.depNamespaceID ≠ ns)).map upToDate), w) := by
    refine (execute_mapM_of_read (g := fun d => .ok (upToDate d)) fun d hd => ?_).trans ?_
    · obtain ⟨hd, hne⟩ := List.mem_filter.mp hd
      exact exec_pinStatus (hpinned d hd (by simpa using hne))
    · rw [mapM_eq_map fun _ _ => rfl]
  simp only [Store.perform, hdeps]
  refine (execute_bind_of_ok hpins).trans ?_
  have hany : ((row.deps.filter (·.depNamespaceID ≠ ns)).map upToDate).any
      (fun ps => ps.pinnedVersion < ps.currentVersion) = false := by
    simp [upToDate]
  rw [hany]
  rfl

end Registry

theorem Session.sound_of_reached {r : Registry} (hlaw : r.env.Lawful) {s : Session} {ok : World → Call → Prop}
    (h : Reached r ok s) : s.world.Sound r.env := by
  induction h with
  | start => exact World.sound_empty _
  | call c _ _ ih => exact Registry.sound_exec hlaw ih c
  | restart _ hok ih => exact (Registry.restored hlaw ih hok).sound

/-- **Rebase brings every pin up to date.** -/
theorem Registry.rebased_pins_current {r : Registry} (hlaw : r.env.Lawful) {s : Session}
    (hs : Session.Reached r (fun _ _ => True) s) {w w' : World}
    (hrebase : r.exec (.rebase ns sc) s.world = (.ok reply, w))
    (hpromote : r.exec (.promote ns) w = (.ok reply', w')) :
    ∃ status, (getRebaseStatus ns sc).exec w' = (.ok status, w') ∧ status.rebaseAvailable = false ∧
      ∀ ps ∈ status.pinStatuses, ps.pinnedVersion = ps.currentVersion ∧ ps.currentVersion ≠ 0 := by
  have hw' : w'.Sound r.env := by
    have hsound := sound_exec hlaw (sound_exec hlaw (Session.sound_of_reached hlaw hs) (.rebase ns sc)) (.promote ns)
    rwa [hrebase, hpromote] at hsound
  obtain ⟨res, w₁, hrebase, hreply⟩ := execute_bind_eq_ok.mp hrebase
  cases hreply
  obtain ⟨promoted, w₂, hpromote, hreply⟩ := execute_bind_eq_ok.mp hpromote
  cases hreply
  obtain ⟨snap, row, hstaged, hrow, hpinned⟩ := rebase_eq_ok hrebase
  obtain ⟨hcurrent, hfound, hversions, hpointers⟩ := promote_eq_ok hstaged hpromote
  rw [← hversions] at hrow
  have hpinned' := hpinned.mono hpointers
  refine ⟨_, exec_getRebaseStatus hfound hcurrent hrow hpinned', rfl, fun ps hps => ?_⟩
  obtain ⟨d, hd, rfl⟩ := List.mem_map.mp hps
  obtain ⟨hd, hne⟩ := List.mem_filter.mp hd
  obtain ⟨row', hrow'⟩ := Option.isSome_iff_exists.mp (hw'.pointer (.inl (hpinned' d hd (by simpa using hne))))
  exact ⟨rfl, (hw'.version hrow').1⟩

theorem Session.reached_calls {r : Registry} {s : Session} (hs : Reached r (fun _ _ => True) s) (calls : List Call) :
    Reached r (fun _ _ => True) (calls.foldl (·.call r) s) := by
  induction calls generalizing s with
  | nil => exact hs
  | cons c calls ih => exact ih (.call c hs trivial)

/-- The parent moves on to version 2, and the child is rebased. -/
theorem rebased_pins_current_family :
    let s := (Sample.family ++ [Sample.publishParent [1], .promote "p", Sample.publish [2], .promote "n",
      Sample.publishParent [1, 3], .promote "p"]).foldl (·.call Sample.registry) Session.start
    let w := (Sample.registry.exec (.rebase "n" "s") s.world).2
    let w' := (Sample.registry.exec (.promote "n") w).2
    (∃ status, ((Registry.getRebaseStatus "n" "s").exec s.world).1 = .ok status ∧ status.rebaseAvailable) ∧
    ∃ status, (Registry.getRebaseStatus "n" "s").exec w' = (.ok status, w') ∧ status.rebaseAvailable = false ∧
      ∀ ps ∈ status.pinStatuses, ps.pinnedVersion = ps.currentVersion ∧ ps.currentVersion ≠ 0 := by
  -- the theorem at a session that is not unfolded
  have happly : ∀ s : Session, Session.Reached Sample.registry (fun _ _ => True) s →
      let w := (Sample.registry.exec (.rebase "n" "s") s.world).2
      let w' := (Sample.registry.exec (.promote "n") w).2
      (Sample.registry.exec (.rebase "n" "s") s.world).1.toOption.any (fun _ => true) →
      (Sample.registry.exec (.promote "n") w).1.toOption.any (fun _ => true) →
      ∃ status, (Registry.getRebaseStatus "n" "s").exec w' = (.ok status, w') ∧ status.rebaseAvailable = false ∧
        ∀ ps ∈ status.pinStatuses, ps.pinnedVersion = ps.currentVersion ∧ ps.currentVersion ≠ 0 := by
    intro s hs w w' hrebase hpromote
    obtain ⟨reply, hrebase, -⟩ := exists_of_any hrebase
    obtain ⟨reply', hpromote, -⟩ := exists_of_any hpromote
    exact Registry.rebased_pins_current Sample.lawful_env hs (Prod.ext hrebase rfl) (Prod.ext hpromote rfl)
  intro s w w'
  have hbefore := exists_of_any (x := ((Registry.getRebaseStatus "n" "s").exec s.world).1)
    (p := (·.rebaseAvailable)) (by decide +kernel)
  exact ⟨hbefore, happly s (Session.reached_calls .start _) (by decide +kernel) (by decide +kernel)⟩

end ProtoRegistry
