import ProtoRegistry.Verify.Builtins
import ProtoRegistry.Verify.Loading
import ProtoRegistry.Verify.Storing

/-!
# Loading a directory into a registry

A file that the server accepts is staged as a schema of its own, and the files that are published after it are
compiled against it. So a directory whose files compile in the order of their imports is loaded as a whole,
unless the server refuses the ID of a schema: it is the path of the file, and IDs have no slashes. A file that
compiles can still be refused for a name that an ancestor defines, and `--promote` for what it would break.
-/

namespace ProtoRegistry.Ctl
open RegistryM

section
variable {r : Registry} {ns : String} {force : Bool} {protos : List ProtoFile} {p q : ProtoFile} {w w' : World}

/-! ## What a publish leaves -/

/-- The version that is proposed for the schema of the file has the fingerprint of the file: this is what the
registry takes for the same content. -/
def Published (env : External) (ns : String) (w : World) (p : ProtoFile) : Prop :=
  ∃ f, normalizeAndHash env p.filename p.content = .ok f ∧
    w.store.unchanged env ns p.filename (computeFingerprint env [f]) = true

theorem fingerprint_of_publish (h : (r.publish (publishRequest ns force p)).exec w = (.ok res, w')) :
    ∃ f, normalizeAndHash r.env p.filename p.content = .ok f ∧ res.fingerprint = computeFingerprint r.env [f] := by
  obtain ⟨-, -, w₁, w₂, v, result, -, hw₂, hnext, -, hstored⟩ := Registry.publish_eq_ok h
  obtain ⟨-, -, deps, tiers, builtins, -, -, -, hcompile⟩ := Registry.compileNext_eq_ok.mp hnext
  obtain ⟨hnames, hfiles⟩ := Compiler.files_of_compile hcompile
  have hsingle : ∃ f, result.files = [f] := by
    rw [← List.length_eq_one_iff, ← List.length_map, hnames]
    rfl
  obtain ⟨f, hf⟩ := hsingle
  obtain ⟨hget, hhash⟩ := hfiles.mp (hf ▸ List.mem_singleton_self f)
  have hname : f.filename = p.filename := by
    rw [hf] at hnames
    exact (List.cons.inj hnames).1
  rw [hname] at hget hhash
  have hsource : f.originalSource = p.content :=
    Option.some.inj (hget.symm.trans (Dict.get_set_self ..))
  refine ⟨f, hsource ▸ hhash, ?_⟩
  rw [hf] at hstored
  obtain ⟨-, hres, -⟩ | hstored := hstored
  · rw [hres]
  · have hfound : (w₂.memory.namespaces.get ns).isSome := by
      rw [hw₂]
      exact Namespaces.isSome_getOrCreate _
    obtain ⟨rfl, -⟩ := Registry.storeVersion_eq_ok hfound hstored
    rfl

theorem published_of_publish (h : (r.publish (publishRequest ns force p)).exec w = (.ok res, w')) :
    Published r.env ns w' p := by
  obtain ⟨f, hf, hfp⟩ := fingerprint_of_publish h
  exact ⟨f, hf, hfp ▸ (Registry.compiles_of_publish h).2⟩

theorem unchanged_congr {s s' : Store} (hproposed : (s'.pointers ns sc).proposed = (s.pointers ns sc).proposed)
    (hversions : ∀ v, s'.versions.get (ns, sc, v) = s.versions.get (ns, sc, v)) (env : External)
    (fingerprint : String) :
    s'.unchanged env ns sc fingerprint = s.unchanged env ns sc fingerprint := by
  have hfiles : ∀ v, s'.getVersionFiles ns sc v = s.getVersionFiles ns sc v := by
    intro v
    rw [Store.getVersionFiles, Store.getVersionFiles, hversions]
  unfold Store.unchanged
  rw [hproposed]
  cases (s.pointers ns sc).proposed with
  | none => rfl
  | some v => simp only [hfiles]

/-- The publish of one schema leaves the others of the namespace alone. -/
theorem Published.publish (hq : Published r.env ns w q) (hne : q.filename ≠ p.filename)
    (h : (r.publish (publishRequest ns force p)).exec w = (.ok res, w')) : Published r.env ns w' q := by
  obtain ⟨f, hf, hsame⟩ := hq
  obtain ⟨-, -, w₁, w₂, v, result, hrows, hw₂, -, -, hstored⟩ := Registry.publish_eq_ok h
  obtain ⟨s, hprepared, -, hinputs⟩ := Registry.exec_prepare w ns p.filename
  have hinputs : w.SameInputs ns w₂ := by
    rw [hw₂, show w₁ = ⟨s, w.memory⟩ from congrArg Prod.snd (hrows.symm.trans hprepared)]
    exact hinputs
  have hkept : w₂.store.unchanged r.env ns q.filename (computeFingerprint r.env [f]) = true := by
    rw [unchanged_congr (congrArg SchemaRow.proposed (hinputs.pointers ns q.filename))
      fun v => by rw [hinputs.versions]]
    exact hsame
  refine ⟨f, hf, ?_⟩
  obtain ⟨-, -, rfl⟩ | hstored := hstored
  · exact hkept
  · have hview : w₂.SameView ns p.filename w' := Registry.sameView_of_storeVersion hstored
    rw [unchanged_congr (hview.proposed hne) (hview.versions fun hkey => hne hkey.2)]
    exact hkept

/-! ## What the next file is compiled against -/

/-- Among the dependencies are the files of a version of the schema of `q`, which has the fingerprint of `q`. -/
def Carries (env : External) (ns : String) (s : Store) (deps : List DepSource) (q : ProtoFile) : Prop :=
  ∃ f v files, normalizeAndHash env q.filename q.content = .ok f ∧ files ≠ [] ∧
    computeFingerprint env (files.map fun g : VersionFile => ⟨g.filename, g.blobSHA256, []⟩) =
      computeFingerprint env [f] ∧
    ∀ g ∈ files, ∃ source, s.blobs.get (ns, g.blobSHA256) = some source ∧ ⟨ns, q.filename, v, g.filename, source⟩ ∈ deps

/-- A published file is among the dependencies of the others. -/
theorem Published.carries (hw : w.Sound r.env) (hkeyed : w.store.Keyed) (hq : Published r.env ns w q)
    (hne : q.filename ≠ p.filename) (hdeps : w.store.fetchDeps ns p.filename = .ok deps) :
    Carries r.env ns w.store deps q := by
  obtain ⟨f, hf, hsame⟩ := hq
  unfold Store.unchanged at hsame
  split at hsame
  · cases hsame
  · next v hproposed =>
    have hpointer : (w.store.pointers ns q.filename).currentVersion = some v ∨
        (w.store.pointers ns q.filename).stagedVersion = some v := by
      unfold SchemaRow.proposed at hproposed
      cases hstaged : (w.store.pointers ns q.filename).stagedVersion with
      | none => exact .inl (by simpa [hstaged] using hproposed)
      | some v' => exact .inr (by simpa [hstaged] using hproposed)
    obtain ⟨row, hrow⟩ := Option.isSome_iff_exists.mp (hw.pointer hpointer)
    have hnonempty : row.files ≠ [] := (hw.version hrow).2.files
    have hloaded : (⟨ns, q.filename, v, row.compiled, row.compilerVersion,
        Store.sortVersionFiles row.files⟩ : CurrentSchema) ∈
        w.store.loadNamespaceProposed ns :=
      (Store.mem_loadSchemas_pointers rfl).mpr ⟨decide_eq_true rfl, row, hproposed, hrow, hnonempty, rfl⟩
    rw [Store.eq_depSources_of_fetch hdeps]
    refine ⟨f, v, Store.sortVersionFiles row.files, hf, ?_, ?_, fun g hg => ?_⟩
    · rw [Ne, ← List.length_eq_zero_iff, Store.sortVersionFiles, List.length_insertionSort, List.length_eq_zero_iff]
      exact hnonempty
    · simpa [Store.getVersionFiles, hrow] using hsame
    · have hblob := hkeyed.blobs hrow g ((List.mem_insertionSort _).mp hg)
      obtain ⟨source, hsource⟩ := Option.isSome_iff_exists.mp hblob
      refine ⟨source, hsource, List.mem_flatMap.mpr ⟨_, List.mem_filter.mpr ⟨hloaded, decide_eq_true hne⟩, ?_⟩⟩
      refine List.mem_map.mpr ⟨g, hg, ?_⟩
      rw [hsource]
      rfl

end

/-! ## The requests of a load -/

section
variable {σ : Type} (client : RegistryClient σ) (ns : String) (force : Bool) (protos : List ProtoFile)

/-- The load sends the file when the registry is in the given state. -/
def Sends (s : σ) (p : ProtoFile) (registry : σ) : Prop :=
  ∃ rest x, Comes client ns force protos s (p :: rest, x) ∧ x.registry = registry ∧ p.filename ∉ x.loaded ∧
    x.failed.get p.filename = none ∧ readiness (fileSet protos) x.loaded x.failed p.imports = .canPublish

variable {client ns force protos} {s : σ}

theorem Visited.registry {x y : Load σ} (h : Visited client ns force protos x p y) :
    y.registry = x.registry ∨ y.registry = (client.publish (publishRequest ns force p) x.registry).2 := by
  cases h with
  | settled | waits | dependency => exact .inl rfl
  | refused _ _ _ hpublish => exact .inr (congrArg Prod.snd hpublish).symm
  | accepted _ _ _ hpublish => exact .inr (congrArg Prod.snd hpublish).symm

/-- When no file has failed, every file that was sent was accepted. -/
theorem Sends.accepted (hfailed : ∀ filename, (publishAll client ns force protos s).failed.get filename = none)
    (h : Sends client ns force protos s p registry) :
    ∃ res registry', client.publish (publishRequest ns force p) registry = (.ok res, registry') := by
  obtain ⟨rest, x, hx, rfl, hnew, hpending, hready⟩ := h
  rcases hpublish : client.publish (publishRequest ns force p) x.registry with ⟨err | res, registry'⟩
  · have hlost : (visit client ns force protos x p).failed.get p.filename = some (.publish err) := by
      rw [visit, if_neg (by simp [hnew, hpending]), hready]
      dsimp only
      rw [hpublish]
      exact Dict.get_set_self ..
    cases (hfailed _).symm.trans (Comes.below (hx.tail .visit) |>.failed hlost)
  · exact ⟨res, registry', rfl⟩

end

/-! ## The server -/

theorem publish_clientOf_eq_ok {server : Server} {caller : Identity} {req : PublishRequest} {w w' : World} :
    (clientOf server caller).publish req w = (.ok response, w') ↔ server.checkPublish caller req = .ok () ∧
      ∃ res, (server.registry.publish req).exec w = (.ok res, w') ∧ res.toResponse = response := by
  refine (execute_bind_eq_ok_of (execute_liftExcept ..)).trans ⟨?_, ?_⟩
  · rintro ⟨_, hcheck, h⟩
    rcases hexec : (server.registry.publish req).exec w with ⟨res, w''⟩
    obtain ⟨res', hres, h⟩ := (execute_bind_eq_ok_of (execute_translating_of hexec _)).mp h
    cases mapError_eq_ok.mp hres
    cases h
    exact ⟨hcheck, res', rfl, rfl⟩
  · rintro ⟨hcheck, res, hexec, rfl⟩
    exact ⟨(), hcheck, (execute_bind_eq_ok_of (execute_translating_of hexec _)).mpr ⟨res, rfl, rfl⟩⟩

/-- A request that the server refuses does not get to the registry. -/
theorem snd_publish_clientOf (server : Server) (caller : Identity) (req : PublishRequest) (w : World) :
    ((clientOf server caller).publish req w).2 = w ∨
      ((clientOf server caller).publish req w).2 = (server.registry.exec (.publish req) w).2 := by
  have hsnd : ((clientOf server caller).publish req w).2 =
      (server.callOf caller (.publish req)).elim w fun c => (server.registry.exec c w).2 :=
    (snd_execute_bind_pure _ Response.published w).symm.trans (server.snd_handle caller (.publish req) w)
  rw [hsnd, Server.callOf]
  cases server.checkPublish caller req with
  | error st => exact .inl rfl
  | ok u => exact .inr rfl

/-- The registry is in a state of a session all along. -/
theorem Comes.reached {server : Server} {caller : Identity} {s : Session}
    (hs : Session.Reached server.registry (fun _ _ => True) s)
    (h : Comes (clientOf server caller) ns force protos s.world c) :
    ∃ s', Session.Reached server.registry (fun _ _ => True) s' ∧ s'.world = c.2.registry := by
  refine h.inv (J := fun x => ∃ s', Session.Reached server.registry (fun _ _ => True) s' ∧ s'.world = x.registry)
    ⟨s, hs, rfl⟩ (fun _ hx => hx) ?_
  rintro p rest x y - - ⟨s', hs', hw⟩ hvisited
  obtain hsame | hsent := hvisited.registry
  · exact ⟨s', hs', hw.trans hsame.symm⟩
  · obtain hsame | hexec := snd_publish_clientOf server caller (publishRequest ns force p) x.registry
    · exact ⟨s', hs', hw.trans (hsent.trans hsame).symm⟩
    · refine ⟨_, hs'.call (.publish (publishRequest ns force p)) trivial, ?_⟩
      rw [hsent, hexec, ← hw]
      rfl

/-- When the load sends a file, and its imports are among its dependencies, it compiles. -/
def CompilesInTurn (server : Server) (caller : Identity) (ns : String) (force : Bool) (protos : List ProtoFile)
    (w₀ : World) : Prop :=
  ∀ p ∈ protos, ∀ w, Sends (clientOf server caller) ns force protos w₀ p w →
    (∀ deps, w.store.fetchDeps ns p.filename = .ok deps → ∀ q ∈ needs protos p,
      Carries server.registry.env ns w.store deps q) →
    server.registry.CompilesIn (publishRequest ns force p) w

/-- What the server asks of a writer, of the namespace and of the files, the IDs of the schemas apart. -/
structure Admitted (server : Server) (caller : Identity) (ns : String) (protos : List ProtoFile) : Prop where
  writer : server.requireWriter caller = .ok ()
  namespaceID : server.validateNamespaceID ns = .ok ()
  filename : ∀ p ∈ protos, validateFilename server.ext p.filename server.limits.maxFilenameLength = .ok ()
  length : ∀ p ∈ protos, (p.filename.utf8ByteSize : Int) ≤ server.limits.maxIDLength.toInt
  count : 1 ≤ server.limits.maxSourcesPerRequest.toInt
  fileSize : ∀ p ∈ protos, (p.content.length : Int) ≤ server.limits.maxFileSourceBytes.toInt
  totalSize : ∀ p ∈ protos, (p.content.length : Int) ≤ server.limits.maxTotalSourceBytes.toInt
  notWellKnown : ∀ p ∈ protos, isWellKnownType server.registry.env p.filename = false

/-- What else it takes to publish a file: its path is an ID, the builtins and `--force` are for admins, and the
authorizer allows it. -/
structure Allowed (server : Server) (caller : Identity) (ns : String) (force : Bool) (p : ProtoFile) : Prop where
  id : matchesIDPattern p.filename = true
  admin : ns = builtinsNamespace ∨ force = true → caller.admin = true
  authorized : server.registry.authz.canPublish ns p.filename = .ok ()

section
variable {server : Server} {caller : Identity} {ns : String} {force : Bool} {protos : List ProtoFile} {p : ProtoFile}
  (h : Admitted server caller ns protos) (hp : p ∈ protos)
include h hp

theorem validateSources_publishRequest :
    validateSources server.ext (publishRequest ns force p).sources server.limits = .ok () := by
  have hkeys : (publishRequest ns force p).sources.keys = [p.filename] := rfl
  have hlist : (publishRequest ns force p).sources.toList = [(p.filename, p.content)] :=
    Dict.toList_set _ _ List.not_mem_nil
  have hfile : validateSource server.ext server.limits p.filename p.content = .ok () := by
    rw [validateSource, h.filename p hp]
    exact if_neg (Int.not_lt.mpr (h.fileSize p hp))
  have hcount := Int.not_lt.mpr h.count
  have htotal := Int.not_lt.mpr (h.totalSize p hp)
  rw [validateSources, hkeys, hlist]
  simpa [hcount, htotal] using hfile

/-- The server accepts an admitted file exactly when its path is an ID and the caller may ask for it. -/
theorem checkPublish_iff : server.checkPublish caller (publishRequest ns force p) = .ok () ↔
    matchesIDPattern p.filename = true ∧ (ns = builtinsNamespace ∨ force = true → caller.admin = true) := by
  have hadmin : (do
      if ns = builtinsNamespace then Server.requireAdmin caller "writing to __builtins__"
      if force then Server.requireAdmin caller "force=true" : Except Status Unit) = .ok () ↔
        (ns = builtinsNamespace ∨ force = true → caller.admin = true) := by
    cases hcaller : caller.admin <;> cases force <;> by_cases hns : ns = builtinsNamespace <;>
      simp [hns, Server.requireAdmin, hcaller, pure, Except.pure, bind, Except.bind]
  have hcheck : server.checkPublish caller (publishRequest ns force p) =
      (validateID p.filename "schema_id" server.limits.maxIDLength >>= fun _ => do
        if ns = builtinsNamespace then Server.requireAdmin caller "writing to __builtins__"
        if force then Server.requireAdmin caller "force=true") := by
    rw [Server.checkPublish, h.writer, validateSources_publishRequest h hp,
      show server.validateNamespaceID (publishRequest ns force p).namespaceID = .ok () from h.namespaceID]
    rfl
  rw [hcheck, except_bind_eq_ok, ← hadmin]
  constructor
  · rintro ⟨_, hid, hrest⟩
    exact ⟨(validateID_eq_ok.mp hid).2.2, hrest⟩
  · rintro ⟨hmatch, hrest⟩
    refine ⟨(), validateID_eq_ok.mpr ⟨?_, h.length p hp, hmatch⟩, hrest⟩
    intro hempty
    rw [hempty] at hmatch
    cases hmatch

theorem checkRequest_publishRequest : server.registry.checkRequest (publishRequest ns force p) = .ok () := by
  have hkeys : (publishRequest ns force p).sources.keys = [p.filename] := rfl
  have hknown := h.notWellKnown p hp
  rw [Registry.checkRequest, hkeys]
  cases hforce : (publishRequest ns force p).force with
  | true => rfl
  | false =>
    simp [hknown]
    rfl

end

/-! ## The loop -/

/-- Nothing has failed, and what is loaded is published. -/
structure Going (env : External) (ns : String) (protos : List ProtoFile) (x : Load World) : Prop where
  failed : ∀ filename, x.failed.get filename = none
  loaded : ∀ p ∈ protos, p.filename ∈ x.loaded → Published env ns x.registry p

section
variable {server : Server} {caller : Identity} {ns : String} {force : Bool} {protos rest : List ProtoFile} {s : Session}
  {x : Load World} {p : ProtoFile}
  (hlaw : server.registry.env.Lawful) (hs : Session.Reached server.registry (fun _ _ => True) s)
  (hnd : (fileSet protos).Nodup) (hadmitted : Admitted server caller ns protos)
  (hallowed : ∀ p ∈ protos, Allowed server caller ns force p)
  (hcompiles : CompilesInTurn server caller ns force protos s.world)
  (hfree : ∀ p ∈ protos, ∀ w, Sends (clientOf server caller) ns force protos s.world p w →
    ¬ server.registry.Conflicts (publishRequest ns force p) w)
include hlaw hs hnd hadmitted hallowed hcompiles hfree

/-- A file is published in its turn. -/
theorem Going.publish (hx : Going server.registry.env ns protos x) (hp : p ∈ protos)
    (hcomes : Comes (clientOf server caller) ns force protos s.world (p :: rest, x)) (hnew : p.filename ∉ x.loaded)
    (hneeds : ∀ q ∈ needs protos p, q.filename ∈ x.loaded) :
    ∃ res w', (clientOf server caller).publish (publishRequest ns force p) x.registry = (.ok res, w') ∧
      ∀ q ∈ protos, q.filename ∈ p.filename :: x.loaded → Published server.registry.env ns w' q := by
  obtain ⟨s', hs', hw⟩ := hcomes.reached hs
  have hsound := Session.sound_of_reached hlaw hs'
  have hkeyed := Session.keyed_of_reached hs'
  rw [hw] at hsound hkeyed
  have hsends : Sends (clientOf server caller) ns force protos s.world p x.registry :=
    ⟨rest, x, hcomes, rfl, hnew, hx.failed _, readiness_eq_canPublish hneeds⟩
  have hcompiled : server.registry.CompilesIn (publishRequest ns force p) x.registry := by
    refine hcompiles p hp x.registry hsends fun deps hdeps q hq => ?_
    refine (hx.loaded q (mem_of_mem_needs hq) (hneeds q hq)).carries hsound hkeyed (fun heq => hnew ?_) hdeps
    exact heq ▸ hneeds q hq
  obtain ⟨res, w', hexec⟩ := Registry.publish_of_compiles hlaw hsound hkeyed (hallowed p hp).authorized
    (checkRequest_publishRequest hadmitted hp) hcompiled (hfree p hp x.registry hsends)
  have hcheck : server.checkPublish caller (publishRequest ns force p) = .ok () :=
    (checkPublish_iff hadmitted hp).mpr ⟨(hallowed p hp).id, (hallowed p hp).admin⟩
  refine ⟨res.toResponse, w', publish_clientOf_eq_ok.mpr ⟨hcheck, res, hexec, rfl⟩, fun q hq hmem => ?_⟩
  by_cases heq : q.filename = p.filename
  · cases eq_of_filename hnd hq hp heq
    exact published_of_publish hexec
  · exact (hx.loaded q hq ((List.mem_cons.mp hmem).resolve_left heq)).publish heq hexec

theorem going_publishAll :
    Going server.registry.env ns protos (publishAll (clientOf server caller) ns force protos s.world) := by
  refine comes_publishAll.1.inv (J := Going server.registry.env ns protos) ⟨fun _ => rfl, by simp⟩
    (fun _ hx => ⟨hx.failed, hx.loaded⟩) fun hp hcomes hx hvisited => ?_
  have hpublish := hx.publish hlaw hs hnd hadmitted hallowed hcompiles hfree hp hcomes
  cases hvisited with
  | settled | waits => exact hx
  | dependency _ _ hdep => simp [hx.failed] at hdep
  | refused hnew _ hneeds hrefused =>
    obtain ⟨res, w', haccepted, -⟩ := hpublish hnew hneeds
    cases haccepted.symm.trans hrefused
  | accepted hnew _ hneeds haccepted =>
    obtain ⟨res, w', haccepted', hpublished⟩ := hpublish hnew hneeds
    cases haccepted'.symm.trans haccepted
    exact ⟨hx.failed, hpublished⟩

end

/-- What is loaded was accepted by the server and by the registry. -/
theorem allowed_of_loaded {server : Server} {caller : Identity} (hnd : (fileSet protos).Nodup)
    (hadmitted : Admitted server caller ns protos) (w : World) : ∀ p ∈ protos,
      p.filename ∈ (publishAll (clientOf server caller) ns force protos w).loaded →
        Allowed server caller ns force p := by
  refine comes_publishAll.1.inv (J := fun x => ∀ q ∈ protos, q.filename ∈ x.loaded → Allowed server caller ns force q)
    (by simp) (fun _ hx => hx) fun hp _ hx hvisited => ?_
  cases hvisited with
  | settled | waits | dependency | refused => exact hx
  | accepted _ _ _ hpublish =>
    obtain ⟨hcheck, res, hexec, -⟩ := publish_clientOf_eq_ok.mp hpublish
    obtain ⟨hid, hadmin⟩ := (checkPublish_iff hadmitted hp).mp hcheck
    intro q hq hmem
    obtain heq | hmem := List.mem_cons.mp hmem
    · cases eq_of_filename hnd hq hp heq
      exact ⟨hid, hadmin, (Registry.publish_eq_ok hexec).1⟩
    · exact hx q hq hmem

/-! ## The command -/

/-- The command succeeds when it finds files, none of them fails, and the promotion that it asks for succeeds. -/
theorem runLoad_eq_ok_iff {ext : LoadExternal} {client : RegistryClient σ} (hscan : scanProtos ext dir = .ok protos)
    (hloaded : ∀ p ∈ protos, p.filename ∈ (publishAll client ns force protos s).loaded) :
    (runLoad ext client ns dir promote force s).1 = .ok () ↔
      protos ≠ [] ∧ (∀ filename, (publishAll client ns force protos s).failed.get filename = none) ∧
        (promote = true → ∃ schemas, (client.promote ns (publishAll client ns force protos s).registry).1 =
          .ok schemas) := by
  have hresult : loadResult (publishAll client ns force protos s).failed = .ok () ↔
      ∀ filename, (publishAll client ns force protos s).failed.get filename = none := by
    have hkeys : (publishAll client ns force protos s).failed.keys = [] ↔
        ∀ filename, (publishAll client ns force protos s).failed.get filename = none := by
      simp [List.eq_nil_iff_forall_not_mem, Dict.mem_keys]
    rw [← hkeys, loadResult]
    split
    · next hempty => exact iff_of_true rfl (List.isEmpty_iff.mp hempty)
    · next hempty => exact iff_of_false (by simp) (fun hnil => hempty (List.isEmpty_iff.mpr hnil))
  rw [runLoad, hscan]
  dsimp only
  by_cases hempty : protos = []
  · simp [hempty]
  · obtain ⟨p, hp⟩ := List.exists_mem_of_ne_nil _ hempty
    have hsome : (publishAll client ns force protos s).loaded.isEmpty = false :=
      List.isEmpty_eq_false_iff_exists_mem.mpr ⟨_, hloaded p hp⟩
    rw [if_neg (by simpa using hempty)]
    cases promote with
    | false => simp [hempty, hresult]
    | true =>
      rcases hcall : client.promote ns (publishAll client ns force protos s).registry with ⟨e | schemas, registry⟩
      · simp [hsome]
      · simp [hsome, hempty, hresult]

/-- **A directory is loaded as a whole** exactly when it has a file, every file may be published, none conflicts with
an ancestor when it is sent, and the promotion, if there is one, is not refused. -/
theorem load_publishes_iff {server : Server} {caller : Identity} {ext : LoadExternal} {s : Session}
    (hlaw : server.registry.env.Lawful) (hs : Session.Reached server.registry (fun _ _ => True) s)
    (hscan : scanProtos ext dir = .ok protos) (hnd : (fileSet protos).Nodup)
    (hadmitted : Admitted server caller ns protos)
    (hacyclic : ∀ p ∈ protos, ¬ Relation.TransGen (fun p q => q ∈ needs protos p) p p)
    (hcompiles : CompilesInTurn server caller ns force protos s.world) :
    ((∀ p ∈ protos, p.filename ∈ (publishAll (clientOf server caller) ns force protos s.world).loaded ∧
        Published server.registry.env ns (publishAll (clientOf server caller) ns force protos s.world).registry p) ∧
      (runLoad ext (clientOf server caller) ns dir promote force s.world).1 = .ok ()) ↔
      protos ≠ [] ∧ (∀ p ∈ protos, Allowed server caller ns force p) ∧
        (∀ p ∈ protos, ∀ w, Sends (clientOf server caller) ns force protos s.world p w →
          ¬ server.registry.Conflicts (publishRequest ns force p) w) ∧
        (promote = true → ∃ schemas, ((clientOf server caller).promote ns
          (publishAll (clientOf server caller) ns force protos s.world).registry).1 = .ok schemas) := by
  constructor
  · rintro ⟨hloaded, hrun⟩
    obtain ⟨hne, hfailed, hpromote⟩ := (runLoad_eq_ok_iff hscan fun p hp => (hloaded p hp).1).mp hrun
    refine ⟨hne, fun p hp => allowed_of_loaded hnd hadmitted s.world p hp (hloaded p hp).1,
      fun p _ w hsends => ?_, hpromote⟩
    obtain ⟨res, w', hpublish⟩ := hsends.accepted hfailed
    obtain ⟨-, res', hexec, -⟩ := publish_clientOf_eq_ok.mp hpublish
    obtain ⟨rest, x, hx, rfl, -⟩ := hsends
    obtain ⟨s', hs', hw⟩ := hx.reached hs
    exact Registry.not_conflicts_of_publish hlaw (hw ▸ Session.sound_of_reached hlaw hs') hexec
  · rintro ⟨hne, hallowed, hfree, hpromote⟩
    have hgoing := going_publishAll hlaw hs hnd hadmitted hallowed hcompiles hfree
    have hloaded := fun p => loaded_publishAll (p := p) hgoing.failed hacyclic
    refine ⟨fun p hp => ⟨hloaded p hp, hgoing.loaded p hp (hloaded p hp)⟩, ?_⟩
    exact (runLoad_eq_ok_iff hscan hloaded).mpr ⟨hne, hgoing.failed, hpromote⟩

end ProtoRegistry.Ctl

namespace ProtoRegistry.Sample
open Ctl

/-- Every file compiles to a file without declarations. -/
def blank : Registry where
  env := { env with protocompile _ names := .ok (names.map fun name => ⟨file name [], []⟩) }

theorem lawful_blank : blank.env.Lawful :=
  ⟨lawful_env.newFiles_perm, lawful_env.rangeKeys_perm, lawful_env.registrable_of_registerFiles⟩

/-- The files of `directory`, the second of which imports the first. -/
def ordered : List ProtoFile := [⟨"a.proto", [1], []⟩, ⟨"b.proto", [2], ["a.proto"]⟩]

theorem ordered_acyclic : ∀ p ∈ ordered, ¬ Relation.TransGen (fun p q => q ∈ needs ordered p) p p := by
  exact acyclic_of_rank (·.imports.length) (by decide)

def nested : LoadExternal where
  clean := id
  walkDir dir := [.ok ⟨dir ++ "/x/a.proto", false, .ok [1], .ok "x/a.proto"⟩]
  parseImports _ _ := .ok []
  trimSpace := id

def nestedFile : ProtoFile := ⟨"x/a.proto", [1], []⟩

/-- The files compile, whatever they are compiled against. -/
def CompileBlank (ns : String) (force : Bool) (protos : List ProtoFile) : Prop :=
  ∀ p ∈ protos, ∀ v deps tiers builtins, ∃ result,
    blank.compiler.compile blank.env v (publishRequest ns force p).sources deps tiers builtins = .ok result ∧
      result.snapshot.fileList = [file p.filename []]

theorem compilesInTurn_blank (h : CompileBlank ns force protos) (w₀ : World) :
    CompilesInTurn (service blank) caller ns force protos w₀ := by
  intro p hp w _ _ deps tiers builtins _ _ _
  obtain ⟨result, hresult, -⟩ := h p hp 0 deps tiers builtins
  exact ⟨0, result, hresult⟩

theorem not_conflicts_blank (h : CompileBlank ns force protos) (hp : p ∈ protos) (w : World) :
    ¬ blank.Conflicts (publishRequest ns force p) w := by
  rintro ⟨v, result, hcompile, a, -, sc, snap, -, f, hf, g, -, -, n, hn, -⟩
  obtain ⟨-, -, deps, tiers, builtins, -, -, -, hcompiled⟩ := Registry.compileNext_eq_ok.mp hcompile
  obtain ⟨result', hresult', hfiles⟩ := h p hp v deps tiers builtins
  cases hcompiled.symm.trans hresult'
  rw [hfiles] at hf
  cases List.mem_singleton.mp hf
  cases hn

end ProtoRegistry.Sample

namespace ProtoRegistry.Ctl

/-- Two files, one of which imports the other, are loaded and promoted below a namespace that has a schema. -/
theorem load_publishes_iff_ordered :
    let s := (Sample.family ++ [Sample.publishParent [1], .promote "p"]).foldl (·.call Sample.blank) Session.start
    (∀ p ∈ Sample.ordered, p.filename ∈ (publishAll (clientOf (Sample.service Sample.blank) anonymousIdentity) "n" false
        Sample.ordered s.world).loaded ∧
      Published Sample.blank.env "n" (publishAll (clientOf (Sample.service Sample.blank) anonymousIdentity) "n" false
        Sample.ordered s.world).registry p) ∧
    (runLoad (Sample.directory [] ["a.proto"]) (clientOf (Sample.service Sample.blank) anonymousIdentity) "n" "d" true
      false s.world).1 = .ok () := by
  intro s
  have hadmitted : Admitted (Sample.service Sample.blank) anonymousIdentity "n" Sample.ordered := by
    constructor <;> decide
  have hallowed : ∀ p ∈ Sample.ordered, Allowed (Sample.service Sample.blank) anonymousIdentity "n" false p :=
    List.forall_mem_cons.mpr ⟨⟨by decide, by decide, rfl⟩, List.forall_mem_singleton.mpr ⟨by decide, by decide, rfl⟩⟩
  have hcompile : Sample.CompileBlank "n" false Sample.ordered :=
    List.forall_mem_cons.mpr ⟨fun _ _ _ _ => ⟨_, rfl, rfl⟩,
    List.forall_mem_singleton.mpr fun _ _ _ _ => ⟨_, rfl, rfl⟩⟩
  exact (load_publishes_iff Sample.lawful_blank (Session.reached_calls .start _) rfl (by decide) hadmitted
    Sample.ordered_acyclic (Sample.compilesInTurn_blank hcompile _)).mpr
    ⟨by decide, hallowed, fun p hp w _ => Sample.not_conflicts_blank hcompile hp w, fun _ => ⟨_, rfl⟩⟩

/-- The server accepts the name of the file, but not the same name as an ID. -/
theorem load_refuses_nested : scanProtos Sample.nested "d" = .ok [Sample.nestedFile] ∧
    Admitted (Sample.service Sample.blank) anonymousIdentity "n" [Sample.nestedFile] ∧
    needs [Sample.nestedFile] Sample.nestedFile = [] ∧
    CompilesInTurn (Sample.service Sample.blank) anonymousIdentity "n" false [Sample.nestedFile] Session.start.world ∧
    (runLoad Sample.nested (clientOf (Sample.service Sample.blank) anonymousIdentity) "n" "d" false false
      Session.start.world).1 = .error "1 file(s) failed to load" := by
  refine ⟨rfl, ?_, rfl, ?_, by decide +kernel⟩
  · constructor <;> decide
  · exact Sample.compilesInTurn_blank (List.forall_mem_singleton.mpr fun _ _ _ _ => ⟨_, rfl, rfl⟩) _

end ProtoRegistry.Ctl
