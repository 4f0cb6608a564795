import ProtoRegistry.Model.Server
import ProtoRegistry.Verify.Idempotence

/-!
# The sources of a version

A namespace keeps one blob for each stream of tokens, and the bytes of a blob are those of the file that
came first. So `GetSource` returns what was published exactly when no file of another spelling was there
before, and the files of the request do not get in each other's way.
-/

namespace ProtoRegistry
open RegistryM ServerM

/-! ## Blobs -/

theorem Store.get_blobs_putBlob {s : Store} (h : (s.putBlob ns sha source).1 = .ok u) (sha' : String) :
    (s.putBlob ns sha source).2.blobs.get (ns, sha') =
      (s.blobs.get (ns, sha')).or (if sha = sha' then some source else none) := by
  unfold putBlob at h ⊢
  split at h
  · cases h
  · next hns =>
    rw [if_neg hns]
    split
    · next hblob =>
      split
      · next heq =>
        obtain ⟨b, hb⟩ := Option.isSome_iff_exists.mp hblob
        rw [← heq, hb]
        rfl
      · rw [Option.or_none]
    · next hblob =>
      rw [Option.not_isSome_iff_eq_none] at hblob
      split
      · next heq =>
        rw [← heq, hblob]
        exact Dict.get_set_self ..
      · next hne =>
        rw [Option.or_none]
        refine Dict.get_set_of_ne _ _ fun hkey => hne ?_
        exact (Prod.mk.inj hkey).2.symm

theorem get_blobs_putBlobs {files : List FileResult} {context : FileResult → String} {w w' : World}
    (h : (files.forM fun f => (store (.putBlob ns f.blobSHA256 f.originalSource)).wrap (context f)).exec w =
      (.ok u, w'))
    (sha : String) : w'.store.blobs.get (ns, sha) =
      (w.store.blobs.get (ns, sha)).or ((files.find? (·.blobSHA256 = sha)).map (·.originalSource)) := by
  induction files generalizing w with
  | nil =>
    cases h
    rw [List.find?_nil, Option.map_none, Option.or_none]
  | cons f files ih =>
    rw [RegistryM.exec, execute_forM_cons] at h
    obtain ⟨_, hput, h⟩ := (execute_bind_eq_ok_of (exec_wrap_of (exec_store (.putBlob ..) w) _)).mp h
    have hfirst := Store.get_blobs_putBlob (mapError_eq_ok.mp hput) sha
    rw [ih h]
    simp only [Store.perform, hfirst, List.find?_cons]
    by_cases heq : f.blobSHA256 = sha <;> simp [heq]

/-! ## What a publish stores -/

theorem normalizeAndHash_eq_ok {env : External} (h : normalizeAndHash env path source = .ok f) :
    f.filename = path ∧ f.originalSource = source := by
  unfold normalizeAndHash at h
  split at h
  · cases h
  · cases h
    exact ⟨rfl, rfl⟩

theorem Compiler.files_of_compile {c : Compiler} {env : External} {sources : Sources}
    (h : c.compile env v sources deps tiers builtins = .ok result) :
    result.files.map (·.filename) = sources.keys ∧ ∀ {f}, f ∈ result.files ↔
      sources.get f.filename = some f.originalSource ∧ normalizeAndHash env f.filename f.originalSource = .ok f := by
  obtain ⟨fileResults, linked, snap, -, hresults, -, -, rfl⟩ := compile_eq_ok.mp h
  refine ⟨?_, fun {f} => ?_⟩
  · have hnames : List.Forall₂ (fun e f => e.1 = f.filename) sources.toList fileResults :=
      (mapM_eq_ok_iff.mp hresults).imp fun e f hf => (normalizeAndHash_eq_ok (mapError_eq_ok.mp hf)).1.symm
    rw [← Dict.keys_toList, ← List.forall₂_eq_eq_eq, List.forall₂_map_left_iff, List.forall₂_map_right_iff]
    exact hnames.flip.imp fun _ _ heq => heq.symm
  · rw [mem_of_mapM_eq_ok hresults]
    refine ⟨fun ⟨e, he, hf⟩ => ?_, fun ⟨hget, hf⟩ => ?_⟩
    · obtain ⟨hpath, hsource⟩ := normalizeAndHash_eq_ok (mapError_eq_ok.mp hf)
      rw [hpath, hsource]
      exact ⟨Dict.mem_toList.mp he, mapError_eq_ok.mp hf⟩
    · exact ⟨(f.filename, f.originalSource), Dict.mem_toList.mpr hget, mapError_eq_ok.mpr hf⟩

namespace Registry

variable {r : Registry} {req : PublishRequest} {w w' : World}

theorem get_blobs_storeVersion (h : (r.storeVersion req v result fingerprint).exec w = (.ok res, w')) (sha : String) :
    w'.store.blobs.get (req.namespaceID, sha) = (w.store.blobs.get (req.namespaceID, sha)).or
      ((result.files.find? (·.blobSHA256 = sha)).map (·.originalSource)) := by
  obtain ⟨_, w₁, hblobs, h⟩ := execute_bind_eq_ok.mp h
  obtain ⟨_, -, h⟩ := (execute_bind_eq_ok_of (exec_wrap_of (exec_store (.putVersion ..) w₁) _)).mp h
  obtain ⟨_, -, h⟩ := (execute_bind_eq_ok_of (exec_wrap_of (exec_store (.setStaged ..) _) _)).mp h
  cases h
  rw [← get_blobs_putBlobs hblobs]
  simp only [World.perform, Store.blobs_perform, ne_eq, reduceCtorEq, not_false_eq_true, implies_true]

theorem blobs_ensureNamespaceAndSchema (h : (ensureNamespaceAndSchema ns sc).exec w = (.ok u, w')) :
    w'.store.blobs = w.store.blobs := by
  refine keeps_of_uses (A := fun op : Op => ∀ ns sha source, op ≠ .store (.putBlob ns sha source))
    (g := (·.store.blobs)) ?_ (fun op w hop => ?_) h
  · exact (ensureNamespaceAndSchema_scoped (by simp) (by simp) (by simp) (by simp)).done
  · cases op with
    | store op => exact Store.blobs_perform fun ns sha source heq => hop ns sha source (congrArg Op.store heq)
    | mem op => rfl

/-- A publish that creates a version stores the files of its sources, and keeps the blobs that were there. -/
theorem stored_of_publish (h : (r.publish req).exec w = (.ok res, w')) (hnew : res.noChange = false) :
    res.version ≠ 0 ∧ ∃ row, ∃ files : List FileResult,
      w'.store.versions.get (req.namespaceID, req.schemaID, res.version) = some row ∧
      row.files = files.map (fun f => ⟨f.filename, f.blobSHA256⟩) ∧ files.map (·.filename) = req.sources.keys ∧
      (∀ {f}, f ∈ files ↔ req.sources.get f.filename = some f.originalSource ∧
        normalizeAndHash r.env f.filename f.originalSource = .ok f) ∧
      ∀ sha, w'.store.blobs.get (req.namespaceID, sha) = (w.store.blobs.get (req.namespaceID, sha)).or
        ((files.find? (·.blobSHA256 = sha)).map (·.originalSource)) := by
  obtain ⟨-, -, w₁, w₂, v, result, hrows, hw₂, hnext, -, hstored⟩ := publish_eq_ok h
  obtain ⟨-, hres, -⟩ | hstored := hstored
  · rw [hres] at hnew
    cases hnew
  · obtain ⟨-, hv, deps, tiers, builtins, -, -, -, hcompile⟩ := compileNext_eq_ok.mp hnext
    obtain ⟨hnames, hfiles⟩ := Compiler.files_of_compile hcompile
    have hfound : (w₂.memory.namespaces.get req.namespaceID).isSome := by
      rw [hw₂]
      exact Namespaces.isSome_getOrCreate _
    have hblobs := get_blobs_storeVersion hstored
    rw [hw₂, blobs_ensureNamespaceAndSchema hrows] at hblobs
    obtain ⟨rfl, ⟨row, hrow, hrowFiles, -⟩, -⟩ := storeVersion_eq_ok hfound hstored
    exact ⟨hv ▸ nextVersion_ne_zero _, row, result.files, hrow, hrowFiles, hnames, hfiles, hblobs⟩

end Registry

/-! ## Reading them -/

/-- Publishing the sources stores each under its own bytes: a blob that is there already has the bytes of the
file, and files with one hash have the same bytes. -/
structure Store.Faithful (s : Store) (env : External) (ns : String) (sources : Sources) : Prop where
  stored : ∀ {path source sha blob}, sources.get path = some source →
    normalizeAndHash env path source = .ok ⟨path, sha, source⟩ → s.blobs.get (ns, sha) = some blob → blob = source
  shared : ∀ {path path' source source' sha}, sources.get path = some source →
    normalizeAndHash env path source = .ok ⟨path, sha, source⟩ → sources.get path' = some source' →
    normalizeAndHash env path' source' = .ok ⟨path', sha, source'⟩ → source = source'

theorem faithful_iff {s : Store} {env : External} {sources : Sources} {files : List FileResult}
    (hfiles : ∀ {f}, f ∈ files ↔ sources.get f.filename = some f.originalSource ∧
      normalizeAndHash env f.filename f.originalSource = .ok f) :
    (∀ f ∈ files, (s.blobs.get (ns, f.blobSHA256)).or
      ((files.find? (·.blobSHA256 = f.blobSHA256)).map (·.originalSource)) = some f.originalSource) ↔
      s.Faithful env ns sources := by
  refine ⟨fun h => ⟨fun {path source sha blob} hget hhash hblob => ?_,
    fun {path path' source source' sha} hget hhash hget' hhash' => ?_⟩, fun h f hf => ?_⟩
  · have hsame := h ⟨path, sha, source⟩ (hfiles.mpr ⟨hget, hhash⟩)
    rw [hblob] at hsame
    exact Option.some.inj hsame
  · have hsame := h ⟨path, sha, source⟩ (hfiles.mpr ⟨hget, hhash⟩)
    have hsame' := h ⟨path', sha, source'⟩ (hfiles.mpr ⟨hget', hhash'⟩)
    exact Option.some.inj (hsame.symm.trans hsame')
  · obtain ⟨hget, hhash⟩ := hfiles.mp hf
    cases hblob : s.blobs.get (ns, f.blobSHA256) with
    | some blob => exact congrArg some (h.stored hget hhash hblob)
    | none =>
      -- the blob is that of the first file with the hash
      have hfirst : (files.find? (·.blobSHA256 = f.blobSHA256)).isSome :=
        List.find?_isSome.mpr ⟨f, hf, by simp⟩
      obtain ⟨g, hg⟩ := Option.isSome_iff_exists.mp hfirst
      obtain ⟨hget', hhash'⟩ := hfiles.mp (List.mem_of_find?_eq_some hg)
      have hsha : g.blobSHA256 = f.blobSHA256 := by simpa using List.find?_some hg
      obtain ⟨path', sha', source'⟩ := g
      cases hsha
      rw [hg]
      exact congrArg some (h.shared hget' hhash' hget hhash)

theorem Registry.get_versions_runAll (r : Registry) (h : w.store.versions.get key = some row) (calls : List Call) :
    (r.runAll calls w).store.versions.get key = some row :=
  r.store_runAll (P := fun st => st.versions.get key = some row) h (fun op _ => Store.get_versions_perform op) calls

theorem Registry.get_blobs_runAll (r : Registry) (h : w.store.blobs.get key = some blob) (calls : List Call) :
    (r.runAll calls w).store.blobs.get key = some blob :=
  r.store_runAll (P := fun st => st.blobs.get key = some blob) h (fun op _ => Store.get_blobs_perform op) calls

theorem execute_translating_of {x : RegistryM α} {w w' : World} (h : x.exec w = (res, w')) (f : Err → Status) :
    execute World.perform (translating f x) w = (res.mapError f, w') := by
  refine (Prog.exec_bind (I := registryInterface) World.perform x.run _ w).trans ?_
  rw [show Prog.exec World.perform x.run w = (res, w') from h]
  rfl

namespace Server

variable {s : Server} {req : PublishRequest} {w w' : World}

theorem execute_getSource {row : VersionRow} (hid : s.checkRead ns sc = .ok ()) (hv : v ≠ 0)
    (hrow : w.store.versions.get (ns, sc, v) = some row) {g : VersionFile → Bytes}
    (hblobs : ∀ f ∈ row.files, w.store.blobs.get (ns, f.blobSHA256) = some (g f)) :
    execute World.perform (s.getSource ns sc v) w =
      (.ok ⟨v, .ofAssignments ((Store.sortVersionFiles row.files).map fun f => (f.filename, g f))⟩, w) := by
  have hversion : execute World.perform (resolveVersion ns sc v) w = (.ok v, w) := by
    rw [resolveVersion, if_pos hv]
    rfl
  have hfiles : execute World.perform (translating (internalError "get_source_files")
      (store (.getVersionFiles ns sc v))) w = (.ok (Store.sortVersionFiles row.files), w) := by
    refine (execute_translating_of (exec_store (.getVersionFiles ns sc v) w) _).trans ?_
    simp only [Store.perform, Store.getVersionFiles, hrow]
    rfl
  refine (execute_bind_eq_ok_of (execute_liftExcept ..)).mpr ⟨(), hid, ?_⟩
  refine (execute_bind_of_ok hversion).trans ((execute_bind_of_ok hfiles).trans ?_)
  refine execute_bind_of_ok ((execute_mapM_of_read (g := fun f => .ok (f.filename, g f)) fun f hf => ?_).trans ?_)
  · have hblob : w.store.getBlob ns f.blobSHA256 = .ok (g f) := by
      rw [Store.getBlob, hblobs f ((List.mem_insertionSort _).mp hf)]
    refine execute_bind_of_ok ((execute_translating_of (exec_store (.getBlob ns f.blobSHA256) w) _).trans ?_)
    simp only [Store.perform, hblob]
    rfl
  · rw [mapM_eq_map fun _ _ => rfl]

/-- What `GetSource` makes of the files of a version: each under its name, with the bytes of its blob. -/
def readBack (files : List FileResult) (blob : String → Bytes) : Sources :=
  .ofAssignments ((Store.sortVersionFiles (files.map fun f => ⟨f.filename, f.blobSHA256⟩)).map
    fun f => (f.filename, blob f.blobSHA256))

theorem get_readBack {files : List FileResult} {blob : String → Bytes} (hnames : (files.map (·.filename)).Nodup) :
    (readBack files blob).get path = some b ↔ ∃ f ∈ files, f.filename = path ∧ blob f.blobSHA256 = b := by
  have hperm : (Store.sortVersionFiles (files.map fun f => ⟨f.filename, f.blobSHA256⟩)).Perm
      (files.map fun f => ⟨f.filename, f.blobSHA256⟩) := List.perm_insertionSort _ _
  have hentries : ((Store.sortVersionFiles (files.map fun f => ⟨f.filename, f.blobSHA256⟩)).map
      fun f => (f.filename, blob f.blobSHA256)).Perm (files.map fun f => (f.filename, blob f.blobSHA256)) := by
    simpa only [List.map_map, Function.comp_def] using hperm.map fun f => (f.filename, blob f.blobSHA256)
  have hkeys : ((files.map fun f => (f.filename, blob f.blobSHA256)).map Prod.fst).Nodup := by
    rw [List.map_map]
    exact hnames
  rw [readBack, Dict.get_ofAssignments ((hentries.map _).nodup_iff.mpr hkeys), hentries.mem_iff, List.mem_map]
  simp only [Prod.mk.injEq]

theorem sources_eq_iff {sources : Sources} {files : List FileResult} {blob : String → Bytes}
    (hnames : files.map (·.filename) = sources.keys)
    (hsources : ∀ f ∈ files, sources.get f.filename = some f.originalSource) :
    (∀ path, (readBack files blob).get path = sources.get path) ↔
    ∀ f ∈ files, blob f.blobSHA256 = f.originalSource := by
  have hget : ∀ path b, (readBack files blob).get path = some b ↔
      ∃ f ∈ files, f.filename = path ∧ blob f.blobSHA256 = b := fun path b => get_readBack (hnames ▸ sources.nodup)
  refine ⟨fun h f hf => ?_, fun h path => Option.ext fun b => ?_⟩
  · have hblob := (hget f.filename _).mpr ⟨f, hf, rfl, rfl⟩
    rw [h, hsources f hf] at hblob
    exact (Option.some.inj hblob).symm
  · rw [hget]
    refine ⟨fun ⟨f, hf, hpath, hb⟩ => ?_, fun hb => ?_⟩
    · rw [← hpath, ← hb, h f hf]
      exact hsources f hf
    · obtain ⟨f, hf, hpath⟩ := List.mem_map.mp (hnames ▸ Dict.mem_keys_of_get hb)
      refine ⟨f, hf, hpath, (h f hf).trans ?_⟩
      exact Option.some.inj ((hsources f hf).symm.trans (hpath ▸ hb))

theorem execute_getSource_refused (hid : s.checkRead ns sc = .error e) :
    execute World.perform (s.getSource ns sc v) w = (.error e, w) := by
  refine execute_bind_of_error ((execute_liftExcept ..).trans ?_)
  rw [hid]

/-- What a publish stored is read back from the blobs that were there before it, or from its own files. -/
theorem getSource_after_publish (s : Server) (hpublish : s.registry.exec (.publish req) w = (.ok (.published res), w'))
    (hnew : res.noChange = false) (hid : s.checkRead req.namespaceID req.schemaID = .ok ()) (later : List Call)
    (id : Identity) : ∃ (files : List FileResult) (blob : String → Bytes), files.map (·.filename) = req.sources.keys ∧
      (∀ {f}, f ∈ files ↔ req.sources.get f.filename = some f.originalSource ∧
        normalizeAndHash s.registry.env f.filename f.originalSource = .ok f) ∧
      (∀ f ∈ files, (w.store.blobs.get (req.namespaceID, f.blobSHA256)).or
        ((files.find? (·.blobSHA256 = f.blobSHA256)).map (·.originalSource)) = some (blob f.blobSHA256)) ∧
      (s.handle id (.getSource req.namespaceID req.schemaID res.version) (s.registry.runAll later w')).1 =
        .ok (.source ⟨res.version, readBack files blob⟩) := by
  obtain ⟨res', w₁, h, hreply⟩ := execute_bind_eq_ok.mp hpublish
  cases hreply
  obtain ⟨hv, row, files, hrow, hrowFiles, hnames, hfiles, hblobs⟩ := Registry.stored_of_publish h hnew
  -- the blob a file is read from, which nothing later changes
  let blob : String → Bytes := fun sha => ((w'.store.blobs.get (req.namespaceID, sha))).getD []
  have hblob : ∀ f ∈ files, w'.store.blobs.get (req.namespaceID, f.blobSHA256) = some (blob f.blobSHA256) := by
    intro f hf
    have hfirst : (files.find? (·.blobSHA256 = f.blobSHA256)).isSome := List.find?_isSome.mpr ⟨f, hf, by simp⟩
    have hsome : (w'.store.blobs.get (req.namespaceID, f.blobSHA256)).isSome := by
      rw [hblobs, Option.isSome_or, Option.isSome_map, hfirst, Bool.or_true]
    obtain ⟨b, hb⟩ := Option.isSome_iff_exists.mp hsome
    simp only [blob, hb, Option.getD_some]
  have hrow' := s.registry.get_versions_runAll hrow later
  have hblob' : ∀ f ∈ row.files, (s.registry.runAll later w').store.blobs.get (req.namespaceID, f.blobSHA256) =
      some (blob f.blobSHA256) := by
    intro f hf
    rw [hrowFiles] at hf
    obtain ⟨f, hfile, rfl⟩ := List.mem_map.mp hf
    exact s.registry.get_blobs_runAll (hblob f hfile) later
  refine ⟨files, blob, hnames, hfiles, fun f hf => ?_, ?_⟩
  · rw [← hblobs]
    exact hblob f hf
  · rw [readBack, ← hrowFiles]
    exact congrArg Prod.fst (execute_bind_of_ok (execute_getSource hid hv hrow' hblob'))

/-- **The sources of a version are what was published** exactly when its files can be addressed, and were
stored under their own bytes. -/
theorem getSource_published (s : Server) (hpublish : s.registry.exec (.publish req) w = (.ok (.published res), w'))
    (hnew : res.noChange = false) (later : List Call) (id : Identity) :
    (∃ sources, (s.handle id (.getSource req.namespaceID req.schemaID res.version)
        (s.registry.runAll later w')).1 = .ok (.source ⟨res.version, sources⟩) ∧
        ∀ path, sources.get path = req.sources.get path) ↔
      s.checkRead req.namespaceID req.schemaID = .ok () ∧
        w.store.Faithful s.registry.env req.namespaceID req.sources := by
  cases hid : s.checkRead req.namespaceID req.schemaID with
  | error e =>
    refine iff_of_false ?_ fun hboth => by cases hboth.1
    rintro ⟨sources, hreply, -⟩
    cases (congrArg Prod.fst (execute_bind_of_error (execute_getSource_refused hid))).symm.trans hreply
  | ok u =>
    obtain ⟨files, blob, hnames, hfiles, hblob, hreply⟩ := s.getSource_after_publish hpublish hnew hid later id
    have hfaithful : (∀ f ∈ files, blob f.blobSHA256 = f.originalSource) ↔
        w.store.Faithful s.registry.env req.namespaceID req.sources := by
      rw [← faithful_iff hfiles]
      refine forall₂_congr fun f hf => ?_
      rw [hblob f hf, Option.some_inj]
    rw [← hfaithful, ← sources_eq_iff hnames fun f hf => (hfiles.mp hf).1, hreply]
    refine ⟨fun ⟨sources, hsame, hsources⟩ => ?_, fun ⟨_, hsources⟩ => ⟨_, rfl, hsources⟩⟩
    cases hsame
    exact ⟨rfl, hsources⟩

end Server

/-- A version of one schema and the next one of it. -/
theorem getSource_published_sample :
    let s := Sample.service Sample.registry
    let w := (s.registry.exec (Sample.publish [1, 2]) .empty).2
    ∃ sources, (s.handle anonymousIdentity (.getSource "n" "s" 1) (s.registry.runAll [Sample.publish [3]] w)).1 =
      .ok (.source ⟨1, sources⟩) ∧ sources.get "a.proto" = some [1, 2] := by
  intro s w
  have hreply : (s.registry.exec (Sample.publish [1, 2]) .empty).1 =
      .ok (.published
        { version := 1, fingerprint := "a.proto:1 2 \n", snapshot := some ⟨1, [Sample.file "a.proto" [1, 2]]⟩ }) :=
    rfl
  have hfaithful : Store.empty.Faithful s.registry.env "n" (Dict.empty.set "a.proto" [1, 2]) := by
    have hsource : ∀ {path source}, (Dict.empty.set "a.proto" [1, 2] : Sources).get path = some source →
        source = [1, 2] := by
      intro path source hget
      rw [Dict.get_set] at hget
      split at hget
      · exact (Option.some.inj hget).symm
      · cases hget
    exact ⟨fun _ _ hblob => (by cases hblob), fun hget _ hget' _ => (hsource hget).trans (hsource hget').symm⟩
  obtain ⟨sources, hget, hsources⟩ := (s.getSource_published (Prod.ext hreply rfl) rfl [Sample.publish [3]]
    anonymousIdentity).mpr ⟨by decide +kernel, hfaithful⟩
  exact ⟨sources, hget, (hsources "a.proto").trans (by decide +kernel)⟩

/-- The file of the second schema differs in its white space from the file of the first, which was there
before. -/
theorem getSource_respelled :
    let s := Sample.service Sample.spaced
    let w := s.registry.runAll [Sample.publish [1], Sample.publishShared [0, 1]] .empty
    Function.Injective s.registry.env.sha256Hex ∧ w.store.listVersions "n" "t" = [1] ∧
    ∃ sources, (s.handle anonymousIdentity (.getSource "n" "t" 1) w).1 = .ok (.source ⟨1, sources⟩) ∧
      sources.get "b.proto" = some [1] ∧ sources.get "b.proto" ≠ some [0, 1] := by
  refine ⟨Function.injective_id, by decide +kernel, _, rfl, by decide +kernel, by decide +kernel⟩

end ProtoRegistry
