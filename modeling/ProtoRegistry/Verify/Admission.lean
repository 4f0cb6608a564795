import ProtoRegistry.Model.Bootstrap
import ProtoRegistry.Verify.Builtins
import ProtoRegistry.Verify.Families
import ProtoRegistry.Verify.Listing
import ProtoRegistry.Verify.Scopes
import ProtoRegistry.Verify.Sources

/-!
# What the server lets into the store

The handlers check IDs, filenames and sizes before they call the registry, and the registry and the store check
nothing of the kind. A rebase publishes files that no handler has seen, but these come from the store. So what is
stored has passed the checks, whatever requests are served concurrently, however they fail and however often the
process restarts. The exceptions are the files of the built-ins, which `serve` publishes without a handler.
-/

namespace ProtoRegistry
open RegistryM ServerM

/-! ## Deployments of the server -/

/-- The worlds that a deployment of the server leads to. A request that only reads changes nothing. -/
inductive Server.Runs (s : Server) (w : World) : World → Prop
  | refl : Runs s w w
  /-- Requests are served concurrently, and stop anywhere. -/
  | requests {reqs : List (Identity × Rpc)} {p : Pool registryInterface (Except Err Reply) World} : Runs s w w₁ →
      Pool.Reach World.MayFail (fun _ _ _ _ => True)
        (s.registry.pool (reqs.filterMap fun req => s.callOf req.1 req.2) w₁) p → Runs s w p.state
  /-- `serve` publishes the built-ins before it serves requests. -/
  | bootstrap {ext : Ctl.LoadExternal} {dir : String} {p : Pool registryInterface (Except Err Unit) World} :
      Runs s w w₁ → Pool.Reach World.MayFail (fun _ _ _ _ => True) ⟨w₁, [(s.registry.bootstrap ext dir).run], []⟩ p →
      Runs s w p.state
  | restart : Runs s w w₁ → (s.registry.restart w₁).1 = .ok () → Runs s w (s.registry.restart w₁).2

/-! ## Checks -/

theorem validateSource_eq_ok {ext : ServerExternal} {l : Limits} : validateSource ext l path source = .ok u ↔
    validateFilename ext path l.maxFilenameLength = .ok () ∧ (source.length : Int) ≤ l.maxFileSourceBytes.toInt := by
  rw [validateSource, except_bind_eq_ok, ← Int.not_lt]
  refine ⟨fun ⟨_, hname, hsize⟩ => ⟨hname, fun hlong => ?_⟩, fun ⟨hname, hsize⟩ => ⟨(), hname, if_neg hsize⟩⟩
  rw [if_pos hlong] at hsize
  cases hsize

theorem validateSource_of_validateSources {ext : ServerExternal} {l : Limits} {sources : Sources}
    (h : validateSources ext sources l = .ok u) (hget : sources.get path = some source) :
    validateSource ext l path source = .ok () := by
  obtain ⟨-, h⟩ := check_eq_ok.mp h
  obtain ⟨-, h⟩ := check_eq_ok.mp h
  obtain ⟨_, hfiles, -⟩ := except_bind_eq_ok.mp h
  exact forM_eq_ok_iff.mp hfiles (path, source) (Dict.mem_toList.mpr hget)

/-- The namespace is that of the builtins or has passed the check of IDs. -/
def Server.AdmitsNamespace (s : Server) (n : String) : Prop :=
  n = builtinsNamespace ∨ validateID n "id" s.limits.maxIDLength = .ok ()

def Server.AdmitsSchema (s : Server) (sc : String) : Prop := validateID sc "id" s.limits.maxIDLength = .ok ()

section
variable {s : Server}

theorem Server.admitsSchema_of_validateID (h : validateID sc field s.limits.maxIDLength = .ok u) : s.AdmitsSchema sc :=
  validateID_eq_ok.mpr (validateID_eq_ok.mp h)

theorem Server.admitsNamespace_of_validateNamespaceID (h : s.validateNamespaceID n = .ok u) : s.AdmitsNamespace n := by
  unfold validateNamespaceID at h
  split at h
  · next hn => exact .inl hn
  · exact .inr (admitsSchema_of_validateID h)

/-- What the server lets through to the registry. -/
def Call.Admissible (s : Server) : Call → Prop
  | .publish req => s.AdmitsNamespace req.namespaceID ∧ s.AdmitsSchema req.schemaID ∧
      (req.namespaceID ≠ builtinsNamespace →
        ∀ path source, req.sources.get path = some source → validateSource s.ext s.limits path source = .ok ())
  | .rebase ns sc => s.AdmitsNamespace ns ∧ s.AdmitsSchema sc
  | .createNamespace ns _ _ => s.AdmitsNamespace ns
  | _ => True

theorem Server.admissible_of_callOf {id : Identity} {rpc : Rpc} {c : Call} (hc : c ∈ s.callOf id rpc) :
    c.Admissible s := by
  cases rpc with
  | publish req =>
    obtain ⟨hcheck, rfl⟩ := mem_whenOk.mp hc
    obtain ⟨_, -, hcheck⟩ := except_bind_eq_ok.mp hcheck
    obtain ⟨_, hns, hcheck⟩ := except_bind_eq_ok.mp hcheck
    obtain ⟨_, hsc, hcheck⟩ := except_bind_eq_ok.mp hcheck
    obtain ⟨_, hsources, -⟩ := except_bind_eq_ok.mp hcheck
    exact ⟨admitsNamespace_of_validateNamespaceID hns, admitsSchema_of_validateID hsc,
      fun _ _ _ => validateSource_of_validateSources hsources⟩
  | rebase ns sc =>
    obtain ⟨hcheck, rfl⟩ := mem_whenOk.mp hc
    obtain ⟨_, -, hcheck⟩ := except_bind_eq_ok.mp hcheck
    obtain ⟨_, hns, hsc⟩ := except_bind_eq_ok.mp hcheck
    exact ⟨.inr (admitsSchema_of_validateID hns), admitsSchema_of_validateID hsc⟩
  | createNamespace n p =>
    obtain ⟨hcheck, rfl⟩ := mem_whenOk.mp hc
    obtain ⟨_, -, hcheck⟩ := except_bind_eq_ok.mp hcheck
    by_cases hn : n = builtinsNamespace
    · exact .inl hn
    · rw [if_neg hn] at hcheck
      obtain ⟨_, hid, -⟩ := except_bind_eq_ok.mp hcheck
      exact .inr hid
  | promote | discardStaging | rollback | setNamespaceParent =>
    obtain ⟨-, rfl⟩ := mem_whenOk.mp hc
    trivial
  | _ => cases hc

/-! ## Operations -/

def Op.Admissible (s : Server) : Op → Prop
  | .store (.createNamespace n _) => s.AdmitsNamespace n
  | .store (.createSchema _ sc) => s.AdmitsSchema sc
  | .store (.putVersion n _ _ row) => n ≠ builtinsNamespace →
      ∀ f ∈ row.files, validateFilename s.ext f.filename s.limits.maxFilenameLength = .ok ()
  | .store (.putBlob n _ source) => n ≠ builtinsNamespace → (source.length : Int) ≤ s.limits.maxFileSourceBytes.toInt
  | _ => True

def Op.Delivers (s : Server) : (op : Op) → op.Res → Prop
  | .store (.getVersionFiles n ..), .ok files => n ≠ builtinsNamespace →
      ∀ f ∈ files, validateFilename s.ext f.filename s.limits.maxFilenameLength = .ok ()
  | .store (.getBlob n _), .ok source => n ≠ builtinsNamespace →
      (source.length : Int) ≤ s.limits.maxFileSourceBytes.toInt
  | _, _ => True

/-- What is stored has passed the checks. -/
structure Store.Admissible (s : Server) (st : Store) : Prop where
  namespaces : ∀ n, (st.namespaces.get n).isSome → s.AdmitsNamespace n
  schemas : ∀ n sc, (st.schemas.get (n, sc)).isSome → s.AdmitsSchema sc
  files : ∀ {n sc v row}, n ≠ builtinsNamespace → st.versions.get (n, sc, v) = some row →
    ∀ f ∈ row.files, validateFilename s.ext f.filename s.limits.maxFilenameLength = .ok ()
  blobs : ∀ {n sha source}, n ≠ builtinsNamespace → st.blobs.get (n, sha) = some source →
    (source.length : Int) ≤ s.limits.maxFileSourceBytes.toInt

theorem Store.of_isSome_namespaces_perform {st : Store} {op : StoreOp}
    (h : ((st.perform op).2.namespaces.get n).isSome) :
    (st.namespaces.get n).isSome ∨ ∃ p, op = .createNamespace n p := by
  cases op with
  | createNamespace m p =>
    simp only [perform, createNamespace] at h
    split at h
    · exact .inl h
    · split at h
      · exact .inl h
      · rw [Dict.get_set] at h
        split at h
        · next hm => exact .inr ⟨p, by rw [hm]⟩
        · exact .inl h
  | setNamespaceParent m p actor => exact .inl (st.isSome_setNamespaceParent m p actor n ▸ h)
  | _ =>
    rw [namespaces_perform (by simp) (by simp)] at h
    exact .inl h

theorem Store.Admissible.perform {st : Store} (h : st.Admissible s) {op : StoreOp} (hop : Op.Admissible s (.store op)) :
    (st.perform op).2.Admissible s := by
  refine ⟨fun n hn => ?_, fun n sc hsc => ?_, fun hne hrow => ?_, fun hne hblob => ?_⟩
  · obtain hn | ⟨p, rfl⟩ := of_isSome_namespaces_perform hn
    · exact h.namespaces n hn
    · exact hop
  · obtain hsc | ⟨rfl, -⟩ := isSome_schemas_perform_iff.mp hsc
    · exact h.schemas n sc hsc
    · exact hop
  · obtain hrow | ⟨rfl, -⟩ := of_get_versions_perform hrow
    · exact h.files hne hrow
    · exact hop hne
  · obtain hblob | rfl := of_get_blobs_perform hblob
    · exact h.blobs hne hblob
    · exact hop hne

theorem Store.Admissible.delivers {st : Store} (h : st.Admissible s) (op : StoreOp) :
    Op.Delivers s (.store op) (st.perform op).1 := by
  cases op with
  | getVersionFiles n sc v =>
    intro hne f hf
    have hf : f ∈ st.getVersionFiles n sc v := hf
    cases hrow : st.versions.get (n, sc, v) with
    | none =>
      rw [getVersionFiles, hrow] at hf
      cases hf
    | some row =>
      rw [getVersionFiles, hrow] at hf
      exact h.files hne hrow f ((List.mem_insertionSort _).mp hf)
  | getBlob n sha =>
    simp only [Store.perform, getBlob]
    cases hblob : st.blobs.get (n, sha) with
    | none => trivial
    | some source => exact fun hne => h.blobs hne hblob
  | _ => trivial

theorem World.MayFail.admissible {op : Op} {res : op.Res} {w w' : World} (hop : op.Admissible s)
    (hw : w.store.Admissible s) (hstep : World.MayFail op w res w') : op.Delivers s res ∧ w'.store.Admissible s := by
  cases op with
  | mem op =>
    rw [World.Executes.state hstep]
    exact ⟨trivial, hw⟩
  | store op =>
    obtain heq | ⟨⟨e, rfl⟩, rfl⟩ := hstep
    · cases heq
      exact ⟨hw.delivers op, hw.perform hop⟩
    · refine ⟨?_, hw⟩
      cases op <;> trivial

/-! ## Calls -/

theorem Op.ReadsIn.admissible {op : Op} (h : op.ReadsIn fun _ => True) : op.Admissible s := by
  unfold Op.ReadsIn at h
  split at h
  all_goals trivial

namespace Registry

variable {r : Registry}

theorem publishInternal_admissible {req : PublishRequest} (h : (Call.publish req).Admissible s) (opts : PublishOpts) :
    Scoped (Op.Admissible s) (Op.Delivers s) (r.publishInternal req opts) fun _ => True := by
  obtain ⟨hns, hsc, hsources⟩ := h
  refine publishInternal_scoped (P := fun _ => True) (fun _ => Op.ReadsIn.admissible) r (fun _ _ _ _ => trivial) trivial
    trivial hns hsc trivial (fun hcompile _ => ?_) opts
  have hfile : ∀ {f}, f ∈ CompileResult.files _ → req.namespaceID ≠ builtinsNamespace →
      validateSource s.ext s.limits f.filename f.originalSource = .ok () :=
    fun hf hne => hsources hne _ _ (((Compiler.files_of_compile hcompile).2).mp hf).1
  refine storeVersion_scoped r (fun f hf hne => (validateSource_eq_ok.mp (hfile hf hne)).2) (fun hne f hf => ?_) trivial
    (fun _ => trivial) _
  obtain ⟨g, hg, rfl⟩ := List.mem_map.mp hf
  exact (validateSource_eq_ok.mp (hfile hg hne)).1

theorem rebase_admissible (h : (Call.rebase ns sc).Admissible s) :
    Scoped (Op.Admissible s) (Op.Delivers s) (r.rebase ns sc) fun _ => True := by
  refine rebase_scoped (P := fun _ => True) (fun _ => Op.ReadsIn.admissible) r trivial
    fun {_ _ sources} hfiles hsources => ?_
  have hadmissible : (Call.publish ⟨ns, sc, sources, false⟩).Admissible s := by
    refine ⟨h.1, h.2, fun hne path source hget => ?_⟩
    obtain ⟨f, hf, rfl, hblob⟩ := hsources path source hget
    exact validateSource_eq_ok.mpr ⟨hfiles hne f hf, hblob hne⟩
  exact publishInternal_admissible hadmissible _

theorem run_admissible {c : Call} (hc : c.Admissible s) :
    Scoped (Op.Admissible s) (Op.Delivers s) (r.run c) fun _ => True := by
  have hmem : ∀ op : MemOp, Op.ReadsIn (fun _ => True) (.mem op) → Op.Admissible s (.mem op) := fun _ _ => trivial
  cases c with
  | publish req => exact Within.reply (Within.bind scoped_check fun _ _ => publishInternal_admissible hc _)
  | rebase ns sc => exact Within.reply (rebase_admissible hc)
  | rollback ns sc v force =>
    exact Within.reply (rollback_scoped hmem r trivial trivial trivial trivial (fun _ => trivial) force)
  | discardStaging ns => exact Within.reply (discardStaging_scoped hmem trivial trivial fun _ => trivial)
  | promote ns => exact Within.reply (promote_scoped hmem r trivial trivial (fun _ => trivial) fun _ _ => trivial)
  | createNamespace ns p actor =>
    exact Within.reply (createNamespace_scoped r hc (fun _ => trivial) (fun _ => trivial) trivial
      fun _ _ => ⟨trivial, trivial⟩)
  | setNamespaceParent ns p actor =>
    exact Within.reply (setNamespaceParent_scoped r trivial trivial trivial fun _ _ => trivial)

theorem bootstrap_admissible (hsize : (builtinsNamespace.utf8ByteSize : Int) ≤ s.limits.maxIDLength.toInt)
    (ext : Ctl.LoadExternal) (dir : String) :
    Scoped (Op.Admissible s) (Op.Delivers s) (r.bootstrap ext dir) fun _ => True := by
  unfold bootstrap
  split
  · refine Within.bind scoped_check fun builtins _ => ?_
    refine Within.bind (Within.forM fun b _ => ?_) fun _ _ => ?_
    · have hschema : s.AdmitsSchema builtinsSchema :=
        validateID_eq_ok.mpr ⟨by decide, le_trans (by decide) hsize, by decide⟩
      have hadmissible : (Call.publish (builtInRequest b)).Admissible s :=
        ⟨.inl rfl, hschema, fun hne => (hne rfl).elim⟩
      refine Within.bind (Within.wrap (Q := fun _ => True) ?_ _) fun _ _ => .pure trivial
      exact Within.bind scoped_check fun _ _ => publishInternal_admissible hadmissible _
    · refine Within.bind (Within.wrap (Q := fun _ => True) ?_ _) fun _ _ => .pure trivial
      exact promote_scoped (P := fun _ => True) (fun _ _ => trivial) r trivial trivial (fun _ => trivial)
        fun _ _ => trivial
  · exact .pure trivial

end Registry

/-! ## Deployments store what is admissible -/

theorem Server.Runs.admissible (hsize : (builtinsNamespace.utf8ByteSize : Int) ≤ s.limits.maxIDLength.toInt)
    (h : s.Runs w w') (hw : w.store.Admissible s) : w'.store.Admissible s := by
  induction h with
  | refl => exact hw
  | @requests w₁ reqs p _ hreach ih =>
    refine Pool.Reach.upholds (A := Op.Admissible s) (C := Op.Delivers s) (J := fun w => w.store.Admissible s)
      (fun hop hw hstep => World.MayFail.admissible hop hw hstep) ?_ ih hreach
    intro t ht
    obtain ⟨c, hc, rfl⟩ := List.mem_map.mp ht
    obtain ⟨req, -, hcall⟩ := List.mem_filterMap.mp hc
    exact Prog.Relies.mono (Registry.run_admissible (admissible_of_callOf hcall)) fun _ _ => trivial
  | @bootstrap w₁ ext dir p _ hreach ih =>
    refine Pool.Reach.upholds (A := Op.Admissible s) (C := Op.Delivers s) (J := fun w => w.store.Admissible s)
      (fun hop hw hstep => World.MayFail.admissible hop hw hstep) ?_ ih hreach
    intro t ht
    obtain rfl := List.mem_singleton.mp ht
    exact Prog.Relies.mono (Registry.bootstrap_admissible hsize ext dir) fun _ _ => trivial
  | restart _ _ ih =>
    rw [Registry.store_restart]
    exact ih

theorem Store.admissible_empty : Store.empty.Admissible s := by
  constructor
  · rintro _ ⟨⟩
  · rintro _ _ ⟨⟩
  · rintro _ _ _ _ - ⟨⟩
  · rintro _ _ _ - ⟨⟩

/-! ## Reading -/

namespace Server

theorem getSource_delivers (hne : ns ≠ builtinsNamespace) (sc : String) (v : Nat) :
    Within (I := registryInterface) (Op.Admissible s) (Op.Delivers s) (s.getSource ns sc v) fun res =>
      ∀ path source, res.sources.get path = some source → validateSource s.ext s.limits path source = .ok () := by
  refine (getSource_scoped trivial trivial (fun _ => trivial) (fun _ => trivial) v).mono ?_
  rintro res ⟨v, files, hfiles, hsources⟩ path source hget
  obtain ⟨f, hf, rfl, hsource⟩ := hsources path source hget
  exact validateSource_eq_ok.mpr ⟨hfiles hne f hf, hsource hne⟩

/-- **What is stored has passed the checks.** In every world of a deployment, the IDs of namespaces, that of the
builtins apart, and of schemas are as `validateID` admits them, and the files that `GetSource` returns, of namespaces
other than that of the builtins, are as `Publish` accepts them. -/
theorem stored_admissible (hsize : (builtinsNamespace.utf8ByteSize : Int) ≤ s.limits.maxIDLength.toInt)
    (h : s.Runs .empty w) :
    (∀ n, (w.store.namespaces.get n).isSome → s.AdmitsNamespace n) ∧
    (∀ n sc, (w.store.schemas.get (n, sc)).isSome → s.AdmitsSchema sc) ∧
    ∀ id ns sc v res, ns ≠ builtinsNamespace → (s.handle id (.getSource ns sc v) w).1 = .ok (.source res) →
      ∀ path source, res.sources.get path = some source → validateSource s.ext s.limits path source = .ok () := by
  have hw := h.admissible hsize Store.admissible_empty
  refine ⟨hw.namespaces, hw.schemas, fun id ns sc v res hne hres => ?_⟩
  have hstep : ∀ (op : Op) (w : World), op.Admissible s → w.store.Admissible s →
      op.Delivers s (w.perform op).1 ∧ (w.perform op).2.store.Admissible s :=
    fun op w hop hw => World.MayFail.admissible hop hw (World.executes_perform op w).mayFail
  have hdelivers := Prog.Relies.exec (J := fun w : World => w.store.Admissible s) hstep
    (getSource_delivers (s := s) hne sc v) hw
  have hexec : s.handle id (.getSource ns sc v) w = (.ok (.source res), _) := Prod.ext hres rfl
  obtain ⟨res', w', hget, heq⟩ := execute_bind_eq_ok.mp hexec
  cases heq
  exact hdelivers.1 res (congrArg Prod.fst hget)

end Server

/-- A file that two publishes share comes back from a process that was stopped and restarted. -/
theorem stored_admissible_restart : ∃ w res, Server.Runs (Sample.service Sample.registry) .empty w ∧
    ((Sample.service Sample.registry).handle anonymousIdentity (.getSource "n" "s" 1) w).1 = .ok (.source res) ∧
      res.sources.get "a.proto" = some [1] ∧
      validateSource (Sample.service Sample.registry).ext (Sample.service Sample.registry).limits "a.proto" [1] =
        .ok () := by
  let req : PublishRequest := { namespaceID := "n", schemaID := "s", sources := Dict.empty.set "a.proto" [1] }
  have hcheck : (Sample.service Sample.registry).checkPublish anonymousIdentity req = .ok () := by decide +kernel
  have hcalls : [(anonymousIdentity, Rpc.publish req), (anonymousIdentity, Rpc.publish req)].filterMap
      (fun req => (Sample.service Sample.registry).callOf req.1 req.2) = [Sample.publish [1], Sample.publish [1]] := by
    simp [Server.callOf, hcheck, Server.whenOk, req, Sample.publish]
  have hrun : ∃ p, Pool.Reach World.Executes (fun _ _ _ _ => True)
      (Sample.registry.pool [Sample.publish [1], Sample.publish [1]] .empty) p ∧
      (Sample.registry.restart p.state).1 = .ok () ∧
      ((Sample.service Sample.registry).handle anonymousIdentity (.getSource "n" "s" 1)
        (Sample.registry.restart p.state).2).1 = .ok (.source ⟨1, Dict.empty.set "a.proto" [1]⟩) :=
    World.exists_reach (List.replicate 9 0 ++ List.replicate 9 1 ++ List.replicate 6 0) (Pool.along_true _ _ _)
      ⟨_, rfl, rfl, rfl⟩
  obtain ⟨p, hreach, hrestart, hsource⟩ := hrun
  rw [← hcalls] at hreach
  have hruns : Server.Runs (Sample.service Sample.registry) .empty (Sample.registry.restart p.state).2 :=
    .restart (.requests .refl (hreach.mono World.Executes.mayFail)) hrestart
  obtain ⟨-, -, hsources⟩ := Server.stored_admissible (by decide +kernel) hruns
  exact ⟨_, _, hruns, hsource, rfl, hsources _ "n" "s" 1 _ (by decide) hsource "a.proto" [1] rfl⟩

end

end ProtoRegistry
