import ProtoRegistry.Verify.Shadowing

/-!
# What a compilation is given

The sources for a compilation are read from the store, blob by blob, and nothing is written on the way. So
each program that gathers them is a function of the store and of the parents in memory, and so is the
snapshot that `Restore` builds for a stored version.
-/

namespace ProtoRegistry
open RegistryM

/-! ## The chain -/

/-- `Namespace.Chain` as a function of the parents. -/
def chainOf (parent : String → Option String) : Nat → String → List String → List String
  | 0, _, chain => chain
  | n + 1, cur, chain =>
    if cur ∈ chain then chain else
      match parent cur with
      | none => chain ++ [cur]
      | some p => chainOf parent n p (chain ++ [cur])

theorem exec_chainFrom (n : Nat) (cur : String) (chain : List String) (w : World) :
    (chainFrom n cur chain).exec w = (.ok (chainOf w.memory.parent n cur chain), w) := by
  induction n generalizing cur chain with
  | zero => rfl
  | succ n ih =>
    unfold chainFrom chainOf
    split
    · rfl
    · refine (execute_bind_of_ok (exec_mem (.parent cur) w)).trans ?_
      simp only [Namespaces.perform]
      cases w.memory.parent cur with
      | none => rfl
      | some p => exact ih p _

def ancestorsOf (parent : String → Option String) (ns : String) : List String :=
  (chainOf parent chainMaxDepth ns []).tail

theorem chainOf_extends (parent : String → Option String) (n : Nat) (cur : String) (chain : List String) :
    ∃ rest, chainOf parent n cur chain = chain ++ rest := by
  induction n generalizing cur chain with
  | zero => exact ⟨[], (List.append_nil _).symm⟩
  | succ n ih =>
    unfold chainOf
    split
    · exact ⟨[], (List.append_nil _).symm⟩
    · cases parent cur with
      | none => exact ⟨[cur], rfl⟩
      | some p =>
        obtain ⟨rest, hrest⟩ := ih p (chain ++ [cur])
        exact ⟨cur :: rest, hrest.trans (List.append_assoc ..)⟩

theorem chainOf_nodup (parent : String → Option String) (n : Nat) (cur : String) {chain : List String}
    (hchain : chain.Nodup) : (chainOf parent n cur chain).Nodup := by
  induction n generalizing cur chain with
  | zero => exact hchain
  | succ n ih =>
    unfold chainOf
    split
    · exact hchain
    · next hcur =>
      have hnext : (chain ++ [cur]).Nodup := by
        rw [List.nodup_append]
        exact ⟨hchain, List.nodup_singleton cur, fun a ha b hb hab => hcur (List.mem_singleton.mp hb ▸ hab ▸ ha)⟩
      cases parent cur with
      | none => exact hnext
      | some p => exact ih p hnext

theorem not_mem_ancestorsOf (parent : String → Option String) (ns : String) : ns ∉ ancestorsOf parent ns := by
  have hnd := chainOf_nodup parent chainMaxDepth ns List.nodup_nil
  have hhead : ∃ rest, chainOf parent chainMaxDepth ns [] = ns :: rest := by
    rw [chainMaxDepth, chainOf]
    cases parent ns with
    | none => exact ⟨[], rfl⟩
    | some p => exact chainOf_extends parent 63 p [ns]
  obtain ⟨rest, hrest⟩ := hhead
  rw [ancestorsOf, hrest]
  rw [hrest] at hnd
  exact (List.nodup_cons.mp hnd).1

/-! ## Sources -/

namespace Store

/-- `gatherSources` as a function of the store. -/
def fetch (s : Store) (ns : String) (context : CurrentSchema → VersionFile → String)
    (schemas : List CurrentSchema) : Except Err (List DepSource) := do
  let sources ← schemas.mapM fun cs => cs.files.mapM fun f => do
    let blob ← (s.getBlob ns f.blobSHA256).mapError (·.wrap (context cs f))
    return (⟨ns, cs.schemaID, cs.version, f.filename, blob⟩ : DepSource)
  return sources.flatten

/-- The sources that `fetch` returns when it finds the blobs. -/
def depSources (s : Store) (ns : String) (schemas : List CurrentSchema) : List DepSource :=
  schemas.flatMap fun cs => cs.files.map fun f =>
    ⟨ns, cs.schemaID, cs.version, f.filename, (s.blobs.get (ns, f.blobSHA256)).getD []⟩

theorem eq_of_getBlob {s : Store} (h : s.getBlob ns sha = .ok blob) : blob = (s.blobs.get (ns, sha)).getD [] := by
  unfold getBlob at h
  split at h
  · cases h
  · next hblob =>
    cases h
    rw [hblob]
    rfl

theorem blobs_perform {s : Store} {op : StoreOp} (hop : ∀ ns sha source, op ≠ .putBlob ns sha source) :
    (s.perform op).2.blobs = s.blobs := by
  cases op with
  | putBlob ns sha source => exact (hop ns sha source rfl).elim
  | setNamespaceParent id p actor => exact (setNamespaceParent_frame id p actor).2.2
  | _ =>
    simp only [perform, createNamespace, createSchema, putVersion, setStaged, promote, discardStaging]
    repeat' split
    all_goals rfl

theorem get_blobs_perform {s : Store} (op : StoreOp) {k : String × String} (hk : s.blobs.get k = some source) :
    (s.perform op).2.blobs.get k = some source := by
  cases op with
  | putBlob ns sha source' =>
    simp only [perform, putBlob]
    grind [Dict.get_set]
  | _ => rwa [blobs_perform (by simp)]

theorem of_get_blobs_perform {s : Store} {op : StoreOp} (h : (s.perform op).2.blobs.get (ns, sha) = some blob) :
    s.blobs.get (ns, sha) = some blob ∨ op = .putBlob ns sha blob := by
  cases op with
  | putBlob ns' sha' source =>
    simp only [perform, putBlob] at h
    grind [Dict.get_set]
  | _ =>
    rw [blobs_perform (by simp)] at h
    exact .inl h

theorem eq_depSources_of_fetch {s : Store} {schemas : List CurrentSchema} (h : s.fetch ns context schemas = .ok ds) :
    ds = s.depSources ns schemas := by
  obtain ⟨sources, hsources, h⟩ := except_bind_eq_ok.mp h
  cases h
  rw [depSources, List.flatMap_def]
  refine congrArg List.flatten (eq_map_of_mapM_eq_ok (fun cs _ l hl => ?_) hsources)
  refine eq_map_of_mapM_eq_ok (fun f _ d hd => ?_) hl
  obtain ⟨blob, hblob, hd⟩ := except_bind_eq_ok.mp hd
  cases hd
  rw [eq_of_getBlob (mapError_eq_ok.mp hblob)]

theorem fetch_eq_depSources {s : Store} {schemas : List CurrentSchema} (context : CurrentSchema → VersionFile → String)
    (h : ∀ cs ∈ schemas, ∀ f ∈ cs.files, (s.blobs.get (ns, f.blobSHA256)).isSome) :
    s.fetch ns context schemas = .ok (s.depSources ns schemas) := by
  have hsources := mapM_eq_map (ε := Err) (l := schemas) (g := fun cs => cs.files.map fun f =>
    (⟨ns, cs.schemaID, cs.version, f.filename, (s.blobs.get (ns, f.blobSHA256)).getD []⟩ : DepSource))
    fun cs hcs => mapM_eq_map (f := fun f => do
      let blob ← (s.getBlob ns f.blobSHA256).mapError (·.wrap (context cs f))
      return (⟨ns, cs.schemaID, cs.version, f.filename, blob⟩ : DepSource)) fun f hf => by
        obtain ⟨blob, hblob⟩ := Option.isSome_iff_exists.mp (h cs hcs f hf)
        simp only [getBlob, hblob]
        rfl
  rw [fetch, hsources, depSources, List.flatMap_def]
  rfl

def fetchDeps (s : Store) (ns sc : String) : Except Err (List DepSource) :=
  s.fetch ns (fun cs f => "fetching blob for " ++ cs.schemaID ++ "/" ++ f.filename)
    ((s.loadNamespaceProposed ns).filter (·.schemaID ≠ sc))

def fetchTiers (s : Store) (ancestors : List String) : Except Err (List ChainTier) :=
  ancestors.mapM fun a => do
    let files ← s.fetch a (fun _ f => "fetching blob " ++ f.filename ++ " from ancestor " ++ a)
      (s.loadNamespaceCurrent a)
    return ⟨a, files⟩

def currentSources (s : Store) (ns : String) : List DepSource := s.depSources ns (s.loadNamespaceCurrent ns)

theorem eq_of_fetchTiers {s : Store} {ancestors : List String} (h : s.fetchTiers ancestors = .ok tiers) :
    tiers = ancestors.map fun a => ⟨a, s.currentSources a⟩ := by
  refine eq_map_of_mapM_eq_ok (fun a _ tier htier => ?_) h
  obtain ⟨files, hfiles, htier⟩ := except_bind_eq_ok.mp htier
  cases htier
  rw [eq_depSources_of_fetch hfiles]
  rfl

def fetchBuiltinsFor (s : Store) (ns : String) : Except Err (List DepSource) :=
  if ns ≠ builtinsNamespace then
    s.fetch builtinsNamespace
      (fun cs f => "fetching builtin blob for " ++ cs.schemaID ++ "/" ++ f.filename)
      (s.loadNamespaceCurrent builtinsNamespace)
  else .ok []

/-- `fetchSources` as a function of the store. -/
def fetchFiles (s : Store) (ns context : String) (files : List VersionFile) : Except Err Sources := do
  let entries ← files.mapM fun f => do
    let blob ← (s.getBlob ns f.blobSHA256).mapError (·.wrap (context ++ f.blobSHA256))
    return (f.filename, blob)
  return .ofAssignments entries

end Store

theorem exec_wrap_of {x : RegistryM α} {w w' : World} (h : x.exec w = (res, w')) (context : String) :
    (x.wrap context).exec w = (res.mapError (·.wrap context), w') := by
  refine (exec_wrap x context w).trans ?_
  rw [h]

section
variable (w : World)

theorem exec_gatherSources (ns : String) (context : CurrentSchema → VersionFile → String)
    (schemas : List CurrentSchema) :
    (gatherSources ns context schemas).exec w = (w.store.fetch ns context schemas, w) := by
  refine execute_bind_of_read (execute_mapM_of_read fun cs _ => execute_mapM_of_read fun f _ => ?_) fun _ _ => rfl
  exact execute_bind_of_read (exec_wrap_of rfl _) fun _ _ => rfl

theorem exec_gatherDeps (ns sc : String) : (gatherDeps ns sc).exec w = (w.store.fetchDeps ns sc, w) :=
  (execute_bind_of_ok (exec_store (.loadNamespaceProposed ns) w)).trans (exec_gatherSources w ..)

theorem exec_gatherChainTiers (ns : String) : (gatherChainTiers ns).exec w =
    (w.store.fetchTiers (ancestorsOf w.memory.parent ns), w) := by
  refine (execute_bind_of_ok (exec_chainFrom ..)).trans (execute_mapM_of_read fun a _ => ?_)
  have hload : ((store (.loadNamespaceCurrent a)).wrap ("loading current state of ancestor " ++ a)).exec w =
      (.ok (w.store.loadNamespaceCurrent a), w) := (exec_wrap_of rfl _).trans rfl
  refine (execute_bind_of_ok hload).trans ?_
  exact execute_bind_of_read (exec_gatherSources w ..) fun _ _ => rfl

theorem exec_gatherBuiltinsFor (ns : String) :
    (gatherBuiltinsFor ns).exec w = (w.store.fetchBuiltinsFor ns, w) := by
  unfold gatherBuiltinsFor Store.fetchBuiltinsFor
  split
  · exact (execute_bind_of_ok (exec_store (.loadNamespaceCurrent builtinsNamespace) w)).trans
      (exec_gatherSources w ..)
  · rfl

theorem exec_fetchSources (ns context : String) (files : List VersionFile) :
    (Registry.fetchSources ns context files).exec w = (w.store.fetchFiles ns context files, w) := by
  refine execute_bind_of_read (execute_mapM_of_read fun f _ => ?_) fun _ _ => rfl
  exact execute_bind_of_read (exec_wrap_of rfl _) fun _ _ => rfl

end

/-! ## Rebuilding a version -/

/-- `buildSnapshot` as a function of the store and of the parents. -/
def Registry.rebuild (r : Registry) (s : Store) (parent : String → Option String) (cs : CurrentSchema) :
    Except Err Snapshot :=
  if cs.compilerVersion = r.env.compilerVersion then
    (Snapshot.new r.env cs.version cs.compiled).mapError fun e => ({ text := e } : Err)
  else do
    let sources ← s.fetchFiles cs.namespaceID "fetching blob " cs.files
    let deps ← (s.fetchDeps cs.namespaceID cs.schemaID).mapError (·.wrap "gathering deps for recompile")
    let chainTiers ← (s.fetchTiers (ancestorsOf parent cs.namespaceID)).mapError
      (·.wrap "gathering parent chain for recompile")
    let builtins ← (s.fetchBuiltinsFor cs.namespaceID).mapError (·.wrap "gathering builtins for recompile")
    let result ← (r.compiler.compile r.env cs.version sources deps chainTiers builtins).mapError fun e =>
      ({ text := "recompiling: " ++ e } : Err)
    return result.snapshot

/-- Building a snapshot at most creates the namespace. -/
theorem Registry.exec_buildSnapshot (r : Registry) (cs : CurrentSchema) (w : World) :
    ∃ m, (r.buildSnapshot cs r.env.compilerVersion).exec w = (r.rebuild w.store w.memory.parent cs, ⟨w.store, m⟩) ∧
      (m = w.memory ∨ m = w.memory.getOrCreate cs.namespaceID) := by
  unfold Registry.buildSnapshot Registry.rebuild
  split
  · exact ⟨w.memory, execute_liftExcept .., .inl rfl⟩
  · have hfiles := exec_fetchSources w cs.namespaceID "fetching blob " cs.files
    have hdeps := exec_wrap_of (exec_gatherDeps w cs.namespaceID cs.schemaID) "gathering deps for recompile"
    cases hfetch : w.store.fetchFiles cs.namespaceID "fetching blob " cs.files with
    | error e =>
      rw [hfetch] at hfiles
      exact ⟨w.memory, execute_bind_of_error hfiles, .inl rfl⟩
    | ok sources =>
      rw [hfetch] at hfiles
      cases hfetch' : w.store.fetchDeps cs.namespaceID cs.schemaID with
      | error e =>
        rw [hfetch'] at hdeps
        exact ⟨w.memory, (execute_bind_of_ok hfiles).trans (execute_bind_of_error hdeps), .inl rfl⟩
      | ok deps =>
        rw [hfetch'] at hdeps
        refine ⟨w.memory.getOrCreate cs.namespaceID, ?_, .inr rfl⟩
        refine (execute_bind_of_ok hfiles).trans ((execute_bind_of_ok hdeps).trans ?_)
        refine (execute_bind_of_ok (exec_mem (.getOrCreate cs.namespaceID) w)).trans ?_
        have hparent : (w.memory.getOrCreate cs.namespaceID).parent = w.memory.parent :=
          Namespaces.parent_getOrCreate _
        rw [← hparent]
        refine execute_bind_of_read (exec_wrap_of (exec_gatherChainTiers ..) _) fun tiers _ => ?_
        refine execute_bind_of_read (exec_wrap_of (exec_gatherBuiltinsFor ..) _) fun builtins _ => ?_
        exact execute_bind_of_read (execute_liftExcept ..) fun result _ => rfl

end ProtoRegistry
