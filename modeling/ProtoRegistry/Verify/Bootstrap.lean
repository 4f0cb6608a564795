import ProtoRegistry.Model.Bootstrap
import ProtoRegistry.Verify.Builtins
import ProtoRegistry.Verify.Fingerprints
import ProtoRegistry.Verify.Storing
import ProtoRegistry.Verify.Tiers

/-!
# What the bootstrap leaves

The bootstrap publishes each built-in as a version of its own of one schema. A version has the files of its request
only, and a newer one takes the place of the one that was staged, so that after the promotion the current version
has a single file.
-/

namespace ProtoRegistry
open RegistryM

variable {r : Registry} {w w' : World}

/-! ## The proposed version -/

/-- A publish leaves the proposed version alone, or it proposes the files of the request. -/
theorem comparedFiles_of_publish {req : PublishRequest} (h : (r.publish req).exec w = (.ok res, w')) :
    (w.store.comparedFiles req.namespaceID req.schemaID).isSome ∧
        w'.store.comparedFiles req.namespaceID req.schemaID = w.store.comparedFiles req.namespaceID req.schemaID ∨
      ∃ files : List FileResult, files.map (·.filename) = req.sources.keys ∧
        (∀ {f}, f ∈ files ↔ req.sources.get f.filename = some f.originalSource ∧
          normalizeAndHash r.env f.filename f.originalSource = .ok f) ∧
        w'.store.comparedFiles req.namespaceID req.schemaID =
          some ((Store.sortVersionFiles (files.map fun f => ⟨f.filename, f.blobSHA256⟩)).map fun f =>
            ⟨f.filename, f.blobSHA256, []⟩) ∧
        ∀ sha, w'.store.blobs.get (req.namespaceID, sha) = (w.store.blobs.get (req.namespaceID, sha)).or
          ((files.find? (·.blobSHA256 = sha)).map (·.originalSource)) := by
  obtain ⟨-, -, w₁, w₂, v, result, hrows, hw₂, hnext, -, hstored⟩ := Registry.publish_eq_ok h
  obtain ⟨-, hv, deps, tiers, builtins, -, -, -, hcompile⟩ := Registry.compileNext_eq_ok.mp hnext
  obtain ⟨-, hres, rfl⟩ | hstored := hstored
  · obtain ⟨_, _, -, hcompared, -⟩ := noChange_of_publish h (by rw [hres])
    left
    have hkept := comparedFiles_ensureNamespaceAndSchema hrows
    rw [hw₂]
    exact ⟨Option.isSome_of_eq_some hcompared, hkept⟩
  · obtain ⟨hnames, hfiles⟩ := Compiler.files_of_compile hcompile
    have hfound : (w₂.memory.namespaces.get req.namespaceID).isSome := by
      rw [hw₂]
      exact Namespaces.isSome_getOrCreate _
    have hblobs := Registry.get_blobs_storeVersion hstored
    rw [hw₂, Registry.blobs_ensureNamespaceAndSchema hrows] at hblobs
    obtain ⟨-, ⟨row, hrow, hrowFiles, -⟩, -, hpointer, -⟩ := Registry.storeVersion_eq_ok hfound hstored
    have hstaged := hpointer (hv ▸ Registry.nextVersion_ne_zero _)
    refine .inr ⟨result.files, hnames, hfiles, ?_, hblobs⟩
    simp [Store.comparedFiles, SchemaRow.proposed, hstaged, Store.getVersionFiles, hrow, hrowFiles]

/-- The version that is proposed for the built-ins has these files. -/
def World.Proposes (w : World) (files : List FileResult) : Prop :=
  w.store.comparedFiles builtinsNamespace builtinsSchema = some files

theorem proposes_of_publish {b : DepSource} (h : (r.publish (builtInRequest b)).exec w = (.ok res, w')) :
    (∃ files, w.Proposes files ∧ w'.Proposes files) ∨
      ∃ f : FileResult, w'.Proposes [⟨b.filename, f.blobSHA256, []⟩] ∧
        w'.store.blobs.get (builtinsNamespace, f.blobSHA256) =
          (w.store.blobs.get (builtinsNamespace, f.blobSHA256)).or (some b.source) := by
  obtain ⟨hsome, hsame⟩ | ⟨files, hnames, hfiles, hcompared, hblobs⟩ := comparedFiles_of_publish h
  · obtain ⟨files, hproposes⟩ := Option.isSome_iff_exists.mp hsome
    exact .inl ⟨files, hproposes, hsame.trans hproposes⟩
  · obtain ⟨f, rfl⟩ : ∃ f, files = [f] := by
      rw [← List.length_eq_one_iff, ← List.length_map, hnames]
      rfl
    have hname : f.filename = b.filename := (List.cons.inj hnames).1
    have hsource : f.originalSource = b.source := by
      have hget := (hfiles.mp (List.mem_singleton_self f)).1
      rw [hname] at hget
      exact Option.some.inj (hget.symm.trans (Dict.get_set_self ..))
    refine .inr ⟨f, ?_, ?_⟩
    · rw [← hname]
      exact hcompared
    · refine (hblobs f.blobSHA256).trans ?_
      simp [hsource]
      rfl

theorem pointers_of_publish {req : PublishRequest} (h : (r.publish req).exec w = (.ok res, w'))
    (hne : sc ≠ req.schemaID) : w'.store.pointers ns sc = w.store.pointers ns sc := by
  have huses : Uses (fun op : Op => Quiet op ∨ op.Stores req.namespaceID req.schemaID) (r.publish req) :=
    (Uses.liftExcept _).bind fun _ => (Registry.publishInternal_stores r req _).done
  refine keeps_of_uses (g := fun w => w.store.pointers ns sc) huses (fun op w hop => ?_) h
  refine (World.pointers_perform fun htouch => ?_).1
  unfold Op.Touches at htouch
  split at htouch
  all_goals rcases hop with hop | hop
  all_goals first
    | exact hop
    | exact htouch
    | exact hne (htouch.2.symm.trans hop.2)

/-! ## The loop and the promotion -/

theorem exec_of_wrap {x : RegistryM α} (h : (x.wrap context).exec w = (.ok a, w')) : x.exec w = (.ok a, w') := by
  rcases hx : x.exec w with ⟨res, w₁⟩
  obtain ⟨hres, rfl⟩ := Prod.mk.inj ((exec_wrap_of hx context).symm.trans h)
  rw [mapError_eq_ok.mp hres]

theorem publish_of_publishBuiltIn {b : DepSource} (h : (r.publishBuiltIn b).exec w = (.ok u, w')) :
    ∃ res, (r.publish (builtInRequest b)).exec w = (.ok res, w') := by
  obtain ⟨res, w₁, hpublish, h⟩ := execute_bind_eq_ok.mp h
  cases h
  exact ⟨res, exec_of_wrap hpublish⟩

theorem proposes_of_publishes {builtins : List DepSource} (hne : builtins ≠ [])
    (hw : ∀ files, w.Proposes files → files.length = 1) (h : (builtins.forM r.publishBuiltIn).exec w = (.ok u, w')) :
    ∃ files, w'.Proposes files ∧ files.length = 1 := by
  induction builtins generalizing w with
  | nil => exact absurd rfl hne
  | cons b builtins ih =>
    obtain ⟨_, w₁, hfirst, hrest⟩ := execute_bind_eq_ok.mp h
    obtain ⟨res, hpublish⟩ := publish_of_publishBuiltIn hfirst
    have hone : ∃ files, w₁.Proposes files ∧ files.length = 1 := by
      obtain ⟨files, hbefore, hafter⟩ | ⟨f, hproposes, -⟩ := proposes_of_publish hpublish
      · exact ⟨files, hafter, hw files hbefore⟩
      · exact ⟨_, hproposes, rfl⟩
    cases builtins with
    | nil =>
      cases hrest
      exact hone
    | cons next builtins =>
      refine ih (by simp) (fun files hfiles => ?_) hrest
      obtain ⟨files', hproposes, hlength⟩ := hone
      cases Option.some.inj (hproposes.symm.trans hfiles)
      exact hlength

theorem bootstrap_eq_ok {ext : Ctl.LoadExternal} (hdir : dir ≠ "") (hload : loadBuiltIns ext dir = .ok builtins)
    (h : (r.bootstrap ext dir).exec w = (.ok u, w')) : ∃ w₁, (builtins.forM r.publishBuiltIn).exec w = (.ok ⟨⟩, w₁) ∧
      w'.store = (w₁.store.promote builtinsNamespace).2 := by
  unfold Registry.bootstrap at h
  rw [if_pos hdir, hload] at h
  obtain ⟨_, hloaded, h⟩ := (execute_bind_eq_ok_of (execute_liftExcept ..)).mp h
  cases hloaded
  obtain ⟨_, w₁, hpublishes, h⟩ := execute_bind_eq_ok.mp h
  obtain ⟨promoted, w₂, hpromote, h⟩ := execute_bind_eq_ok.mp h
  cases h
  refine ⟨w₁, hpublishes, ?_⟩
  have hpromote := exec_of_wrap hpromote
  obtain ⟨-, _, hexec⟩ | ⟨-, _, hexec⟩ := Registry.exec_promote r builtinsNamespace w₁
  · exact congrArg (·.2.store) (hpromote.symm.trans hexec)
  · cases congrArg Prod.fst (hpromote.symm.trans hexec)

theorem current_promote {s : Store} (h : s.comparedFiles ns sc = some files) :
    ∃ v, ((s.promote ns).2.pointers ns sc).currentVersion = some v ∧
      ((s.promote ns).2.getVersionFiles ns sc v).map (fun f => (⟨f.filename, f.blobSHA256, []⟩ : FileResult)) =
        files := by
  obtain ⟨v, hv, rfl⟩ := Option.map_eq_some_iff.mp h
  refine ⟨v, ?_, ?_⟩
  · rw [Store.pointers_promote, SchemaRow.currentVersion_promote, hv]
  · have hversions : (s.promote ns).2.versions = s.versions := @Store.versions_perform s (.promote ns) (by simp)
    simp only [Store.getVersionFiles, hversions]

/-! ## What is loaded -/

/-- The current version of the schema `builtins` has exactly these files, and every namespace can import them. -/
structure World.HasBuiltIns (w : World) (builtins : List DepSource) : Prop where
  current : ∃ v, (w.store.pointers builtinsNamespace builtinsSchema).currentVersion = some v ∧ ∀ filename source,
    (∃ f ∈ w.store.getVersionFiles builtinsNamespace builtinsSchema v, f.filename = filename ∧
      w.store.blobs.get (builtinsNamespace, f.blobSHA256) = some source) ↔
    ∃ b ∈ builtins, b.filename = filename ∧ b.source = source
  importable : ∀ ns ≠ builtinsNamespace, ∃ gathered, (gatherBuiltinsFor ns).exec w = (.ok gathered, w) ∧
    ∀ b ∈ builtins, sourceMapResolver .empty gathered b.filename = some b.source

theorem length_le_one_of_hasBuiltIns {builtins : List DepSource} (hnd : (builtins.map (·.filename)).Nodup)
    (hcurrent : (w.store.pointers builtinsNamespace builtinsSchema).currentVersion = some v)
    (hfiles : (w.store.getVersionFiles builtinsNamespace builtinsSchema v).length = 1)
    (h : w.HasBuiltIns builtins) : builtins.length ≤ 1 := by
  obtain ⟨v', hcurrent', hiff⟩ := h.current
  cases Option.some.inj (hcurrent.symm.trans hcurrent')
  obtain ⟨f, hf⟩ := List.length_eq_one_iff.mp hfiles
  have hname : ∀ b ∈ builtins, b.filename = f.filename := by
    intro b hb
    obtain ⟨g, hg, hname, -⟩ := (hiff b.filename b.source).mpr ⟨b, hb, rfl, rfl⟩
    rw [hf, List.mem_singleton] at hg
    rw [← hname, hg]
  rcases builtins with _ | ⟨b, _ | ⟨b', builtins⟩⟩
  · simp
  · simp
  · have heq := (hname b (by simp)).trans (hname b' (by simp)).symm
    simp [heq] at hnd

theorem sourceMapResolver_eq_some {deps : List DepSource} (hmem : ∃ d ∈ deps, d.filename = path)
    (hall : ∀ d ∈ deps, d.filename = path → d.source = source) : sourceMapResolver .empty deps path = some source := by
  rw [sourceMapResolver_eq]
  cases hlast : lastOf deps path with
  | none =>
    obtain ⟨d, hd, hname⟩ := hmem
    have hnot := List.find?_eq_none.mp hlast d (List.mem_reverse.mpr hd)
    simp [hname] at hnot
  | some d =>
    have hname : d.filename = path := by simpa using List.find?_some hlast
    exact congrArg some (hall d (mem_of_lastOf hlast) hname)

theorem Store.mem_currentSources {s : Store} : d ∈ s.currentSources ns ↔
    d.namespaceID = ns ∧ (s.pointers ns d.schemaID).currentVersion = some d.version ∧
      ∃ f ∈ s.getVersionFiles ns d.schemaID d.version, d.filename = f.filename ∧
        d.source = (s.blobs.get (ns, f.blobSHA256)).getD [] := by
  have hcs (cs : CurrentSchema) : cs ∈ s.loadNamespaceCurrent ns ↔ _ := mem_loadSchemas_pointers rfl
  have hd : d ∈ s.currentSources ns ↔ ∃ cs ∈ s.loadNamespaceCurrent ns, ∃ f ∈ cs.files,
      ⟨ns, cs.schemaID, cs.version, f.filename, (s.blobs.get (ns, f.blobSHA256)).getD []⟩ = d := by
    simp only [currentSources, depSources, List.mem_flatMap, List.mem_map]
  rw [hd]
  constructor
  · rintro ⟨cs, hmem, f, hf, rfl⟩
    obtain ⟨hns, row, hpointer, hrow, -, heq⟩ := (hcs cs).mp hmem
    rw [of_decide_eq_true hns] at hpointer hrow
    rw [heq] at hf
    refine ⟨rfl, hpointer, f, ?_, rfl, rfl⟩
    simpa only [getVersionFiles, hrow] using hf
  · rintro ⟨rfl, hpointer, f, hf, hname, hsource⟩
    unfold getVersionFiles at hf
    cases hrow : s.versions.get (d.namespaceID, d.schemaID, d.version) with
    | none => simp [hrow] at hf
    | some row =>
      simp only [hrow] at hf
      have hne : row.files ≠ [] := List.ne_nil_of_mem ((List.mem_insertionSort _).mp hf)
      refine ⟨⟨d.namespaceID, d.schemaID, d.version, row.compiled, row.compilerVersion, sortVersionFiles row.files⟩,
        (hcs _).mpr ⟨decide_eq_true rfl, row, hpointer, hrow, hne, rfl⟩, f, hf, ?_⟩
      rw [← hname, ← hsource]

theorem hasBuiltIns_of_single {b : DepSource} {s : Store} (hkeyed : w.store.Keyed)
    (hproposes : s.comparedFiles builtinsNamespace builtinsSchema = some [⟨b.filename, sha, []⟩])
    (hblob : s.blobs.get (builtinsNamespace, sha) = some b.source)
    (hothers : ∀ sc ≠ builtinsSchema, s.pointers builtinsNamespace sc = ⟨none, none⟩)
    (hw : w.store = (s.promote builtinsNamespace).2) : w.HasBuiltIns [b] := by
  obtain ⟨v, hcurrent, hfiles⟩ := current_promote hproposes
  have hblobs : w.store.blobs = s.blobs := hw ▸ @Store.blobs_perform s (.promote builtinsNamespace) (by simp)
  rw [← hw] at hcurrent hfiles
  obtain ⟨f, hf, hentry⟩ := List.map_eq_singleton_iff.mp hfiles
  obtain ⟨hname, hsha, -⟩ := FileResult.mk.inj hentry
  have hstored : w.store.blobs.get (builtinsNamespace, f.blobSHA256) = some b.source := by rw [hblobs, hsha, hblob]
  refine ⟨⟨v, hcurrent, fun filename source => ?_⟩, fun ns hns => ?_⟩
  · simp only [hf, List.mem_singleton, exists_eq_left, hname, hstored, Option.some.injEq]
  · have hgathered := Store.fetchBuiltinsFor_eq hkeyed.toIntact ⟨ns, "", 0, [], "", []⟩
    rw [Store.builtinSources, if_pos hns] at hgathered
    refine ⟨_, (exec_gatherBuiltinsFor w ns).trans (congrArg (·, w) hgathered), ?_⟩
    simp only [List.mem_singleton, forall_eq]
    apply sourceMapResolver_eq_some
    · refine ⟨⟨builtinsNamespace, builtinsSchema, v, b.filename, b.source⟩, ?_, rfl⟩
      refine Store.mem_currentSources.mpr ⟨rfl, hcurrent, f, by simp [hf], hname.symm, ?_⟩
      rw [hstored, Option.getD_some]
    · intro d hd _
      obtain ⟨-, hpointer, g, hg, -, hsource⟩ := Store.mem_currentSources.mp hd
      have hschema : d.schemaID = builtinsSchema := by
        by_contra hne
        rw [hw, Store.pointers_promote, hothers _ hne] at hpointer
        cases hpointer
      rw [hschema, hcurrent] at hpointer
      rw [hschema, ← Option.some.inj hpointer, hf, List.mem_singleton] at hg
      rw [hsource, hg, hstored, Option.getD_some]

/-- **The bootstrap loads the directory if it has one file.** -/
theorem bootstrap_hasBuiltIns_iff {ext : Ctl.LoadExternal} {builtins : List DepSource} (hdir : dir ≠ "")
    (hload : loadBuiltIns ext dir = .ok builtins) (hne : builtins ≠ []) (hnd : (builtins.map (·.filename)).Nodup)
    (h : (r.bootstrap ext dir).exec .empty = (.ok u, w)) : w.HasBuiltIns builtins ↔ builtins.length = 1 := by
  obtain ⟨w₁, hpublishes, hw⟩ := bootstrap_eq_ok hdir hload h
  have hfresh : ∀ files, ¬World.empty.Proposes files := by
    intro files hfiles
    cases hfiles
  constructor
  · intro hbuiltins
    obtain ⟨files, hproposes, hlength⟩ :=
      proposes_of_publishes hne (fun files hfiles => (hfresh files hfiles).elim) hpublishes
    obtain ⟨v, hcurrent, hfiles⟩ := current_promote hproposes
    rw [← hw] at hcurrent hfiles
    have hone : (w.store.getVersionFiles builtinsNamespace builtinsSchema v).length = 1 := by
      rw [← hlength, ← hfiles, List.length_map]
    have hle := length_le_one_of_hasBuiltIns hnd hcurrent hone hbuiltins
    have hpos := List.length_pos_iff.mpr hne
    omega
  · intro hlength
    obtain ⟨b, rfl⟩ := List.length_eq_one_iff.mp hlength
    obtain ⟨_, w₂, hfirst, hrest⟩ := execute_bind_eq_ok.mp hpublishes
    cases hrest
    obtain ⟨res, hpublish⟩ := publish_of_publishBuiltIn hfirst
    have hkeyed : w.store.Keyed := by
      have hexec := World.keyed_exec (w := .empty) (r.bootstrap ext dir) Store.keyed_empty
      rwa [h] at hexec
    obtain ⟨files, hfiles, -⟩ | ⟨f, hproposes, hblob⟩ := proposes_of_publish hpublish
    · exact (hfresh files hfiles).elim
    · refine hasBuiltIns_of_single hkeyed hproposes hblob (fun sc hsc => ?_) hw
      exact pointers_of_publish hpublish hsc

/-- A directory with these files, each with the bytes of one message. -/
def Sample.builtInsDir (files : List (String × Bytes)) : Ctl.LoadExternal where
  clean := id
  walkDir _ := files.map fun f => .ok ⟨"dir/" ++ f.1, false, .ok f.2, .ok f.1⟩
  parseImports _ _ := .ok []
  trimSpace := id

theorem bootstrap_hasBuiltIns_iff_single :
    let w := (Sample.registry.bootstrap (Sample.builtInsDir [("a.proto", [1])]) "dir").exec .empty
    w.1 = .ok () ∧ w.2.HasBuiltIns [⟨"", "", 0, "a.proto", [1]⟩] := by
  intro w
  have hok : w.1 = .ok () := by decide +kernel
  have hload : loadBuiltIns (Sample.builtInsDir [("a.proto", [1])]) "dir" = .ok [⟨"", "", 0, "a.proto", [1]⟩] := by
    decide +kernel
  exact ⟨hok, (bootstrap_hasBuiltIns_iff (by decide) hload (by simp) (by simp) (Prod.ext hok rfl)).mpr rfl⟩

/-- Two files: the current version has the second one only. -/
theorem bootstrap_loses_files :
    let w := (Sample.registry.bootstrap (Sample.builtInsDir [("a.proto", [1]), ("b.proto", [2])]) "dir").exec .empty
    w.1 = .ok () ∧ (w.2.store.pointers builtinsNamespace builtinsSchema).currentVersion = some 2 ∧
      (w.2.store.getVersionFiles builtinsNamespace builtinsSchema 2).map (·.filename) = ["b.proto"] ∧
      ¬w.2.HasBuiltIns [⟨"", "", 0, "a.proto", [1]⟩, ⟨"", "", 0, "b.proto", [2]⟩] := by
  intro w
  have hcurrent : (w.2.store.pointers builtinsNamespace builtinsSchema).currentVersion = some 2 := by decide +kernel
  have hfiles : (w.2.store.getVersionFiles builtinsNamespace builtinsSchema 2).map (·.filename) = ["b.proto"] := by
    decide +kernel
  refine ⟨by decide +kernel, hcurrent, hfiles, fun h => ?_⟩
  have hlength := congrArg List.length hfiles
  rw [List.length_map] at hlength
  exact absurd (length_le_one_of_hasBuiltIns (by decide) hcurrent hlength h) (by decide)

end ProtoRegistry
