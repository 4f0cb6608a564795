import ProtoRegistry.Model.Registry
import ProtoRegistry.Theory.Isolation

/-!
# What a call performs, following what it reads

The rules of `Within` for the calls of the registry. The namespaces that a call reads are those it is asked for, the
builtins, and the parents that it finds on its way up; `Climbs P C` says that these stay in `P` as long as the results
are as `C` says. What a call writes is left to the caller of the rule, together with what is known when it is written.
-/

namespace ProtoRegistry
open RegistryM

/-- The operation only reads, and what it reads is of namespaces with `P`. -/
def Op.ReadsIn (P : String → Prop) : Op → Prop
  | .store (.getNamespace n) | .store (.getBlob n _) | .store (.getSchema n _) | .store (.getVersion n ..)
  | .store (.getVersionFiles n ..) | .store (.getVersionDeps n ..) | .store (.listVersions n _)
  | .store (.loadNamespaceCurrent n) | .store (.loadNamespaceProposed n) | .mem (.get n) | .mem (.parent n)
  | .mem (.schemaIDs n) | .mem (.current n _) | .mem (.staged n _) => P n
  | _ => False

/-- The parents of namespaces of `P` are told to be of `P`. -/
def Climbs (P : String → Prop) (C : (op : Op) → op.Res → Prop) : Prop :=
  ∀ n p, C (.mem (.parent n)) (some p) → P n → P p

theorem climbs_true (C : (op : Op) → op.Res → Prop) : Climbs (fun _ => True) C := fun _ _ _ _ => trivial

theorem Compiler.deps_of_compile {c : Compiler} {env : External} {sources : Sources}
    (h : c.compile env v sources deps tiers builtins = .ok result) :
    result.deps = deps.map depRecord ++ tiers.flatMap fun t => t.files.map depRecord := by
  obtain ⟨fileResults, linked, snap, -, -, -, -, rfl⟩ := compile_eq_ok.mp h
  rfl

section
variable {A : Op → Prop} {C : (op : Op) → op.Res → Prop} {P : String → Prop} {α : Type}

/-- `Within` for programs of the registry. -/
abbrev Scoped (A : Op → Prop) (C : (op : Op) → op.Res → Prop) (x : RegistryM α) (Q : α → Prop) : Prop :=
  Within (I := registryInterface) A C x Q

theorem scoped_store {op : StoreOp} (hop : A (.store op)) :
    Scoped A C (store op) fun val => C (.store op) (.ok val) := by
  refine ⟨hop, fun res hres a ha => ?_⟩
  cases ha
  exact hres

theorem scoped_mem {op : MemOp} (hop : A (.mem op)) : Scoped A C (mem op) fun val => C (.mem op) val := by
  refine ⟨hop, fun res hres a ha => ?_⟩
  cases ha
  exact hres

namespace Within

variable {x : RegistryM α} {Q : α → Prop}

theorem wrap (hx : Scoped A C x Q) (context : String) : Scoped A C (x.wrap context) Q := by
  refine Prog.Relies.bind (Prog.Relies.mono hx fun res hres a ha => ?_)
  cases res with
  | error e => cases ha
  | ok b => exact hres a ha

theorem attempt (hx : Scoped A C x Q) : Scoped A C (attempt x) fun res => ∀ a, res = .ok a → Q a := by
  refine Prog.Relies.bind (Prog.Relies.mono hx fun res hres a ha => ?_)
  cases ha
  exact hres

theorem reply {g : α → β} (hx : Scoped A C x Q) : Scoped A C (do return g (← x)) fun _ => True :=
  hx.bind fun _ _ => .pure trivial

end Within

theorem scoped_check {res : Except Err α} : Scoped A C (liftExcept res) fun a => res = .ok a :=
  Within.liftExcept fun _ h => h

/-! ## Reading memory -/

section
variable (hmem : ∀ op : MemOp, Op.ReadsIn P (.mem op) → A (.mem op))
include hmem

theorem chainFrom_scoped (hC : Climbs P C) (fuel : Nat) {cur : String} {chain : List String} (hcur : P cur)
    (hchain : ∀ a ∈ chain, P a) : Scoped A C (chainFrom fuel cur chain) fun res => ∀ a ∈ res, P a := by
  induction fuel generalizing cur chain with
  | zero => exact .pure hchain
  | succ fuel ih =>
    have hnext : ∀ a ∈ chain ++ [cur], P a := by
      intro a ha
      obtain ha | ha := List.mem_append.mp ha
      · exact hchain a ha
      · exact List.mem_singleton.mp ha ▸ hcur
    unfold chainFrom
    split
    · exact .pure hchain
    · refine Within.bind (scoped_mem (hmem (.parent cur) hcur)) fun p hp => ?_
      cases p with
      | none => exact .pure hnext
      | some p => exact ih (hC cur p hp hcur) hnext

theorem ancestorConflicts_scoped (ha : P a) (child : Snapshot) :
    Scoped A C (ancestorConflicts child a) fun _ => True := by
  refine Within.bind (scoped_mem (hmem (.schemaIDs a) ha)) fun ids _ => ?_
  refine Within.bind (Within.mapM (Q := fun _ _ => True) fun sc _ => ?_) fun _ _ => .pure trivial
  refine Within.bind (scoped_mem (hmem (.current a sc) ha)) fun current _ => ?_
  cases current <;> exact .pure trivial

theorem checkAncestorFQNConflicts_scoped (hC : Climbs P C) (hns : P ns) (child : Snapshot) :
    Scoped A C (checkAncestorFQNConflicts child ns) fun _ => True := by
  refine Within.bind (chainFrom_scoped hmem hC chainMaxDepth hns (by simp)) fun chain hchain =>
    Within.forM fun a ha => ?_
  refine Within.bind (ancestorConflicts_scoped hmem (hchain a (List.mem_of_mem_tail ha)) child) fun conflicts _ => ?_
  split
  · exact .pure trivial
  · exact .throw _

namespace Registry

theorem checkStaged_scoped (hns : P ns) (sc : String) : Scoped A C (checkStaged ns sc) fun _ => True := by
  refine Within.bind (scoped_mem (hmem (.staged ns sc) hns)) fun staged _ => ?_
  cases staged with
  | none => exact .pure trivial
  | some staged =>
    refine Within.bind (scoped_mem (hmem (.current ns sc) hns)) fun current _ => ?_
    split
    · exact .pure trivial
    · dsimp only
      split
      · exact .pure trivial
      · exact .throw _

theorem checkRollback_scoped (hns : P ns) (sc : String) (snap : Snapshot) :
    Scoped A C (checkRollback ns sc snap) fun _ => True := by
  refine Within.bind (P := fun _ => True) ?_ fun current _ => ?_
  · refine Within.bind (scoped_mem (hmem (.get ns) hns)) fun found _ => ?_
    cases found with
    | true => exact Within.done (scoped_mem (hmem (.current ns sc) hns))
    | false => exact .pure trivial
  · cases current with
    | none => exact .pure trivial
    | some cur =>
      dsimp only
      split
      · exact .pure trivial
      · exact .throw _

end Registry

end

/-! ## Reading -/

section
variable (hread : ∀ op : Op, op.ReadsIn P → A op)
include hread

theorem gatherSources_scoped (hns : P ns) (context : CurrentSchema → VersionFile → String)
    (schemas : List CurrentSchema) :
    Scoped A C (gatherSources ns context schemas) fun res => ∀ d ∈ res, d.namespaceID = ns := by
  refine Within.bind (Within.mapM (Q := fun _ ds => ∀ d ∈ ds, DepSource.namespaceID d = ns) fun cs _ => ?_)
    fun res hres => ?_
  · refine Within.mono (Within.mapM (Q := fun _ d => DepSource.namespaceID d = ns) fun f _ => ?_) fun ds hds d hd => ?_
    · exact Within.bind (Within.wrap (scoped_store (hread (.store (.getBlob ns f.blobSHA256)) hns)) _)
        fun blob _ => .pure rfl
    · obtain ⟨f, -, hd⟩ := hds d hd
      exact hd
  · refine .pure fun d hd => ?_
    obtain ⟨ds, hds, hd⟩ := List.mem_flatten.mp hd
    obtain ⟨cs, -, hall⟩ := hres ds hds
    exact hall d hd

theorem gatherDeps_scoped (hns : P ns) (sc : String) :
    Scoped A C (gatherDeps ns sc) fun res => ∀ d ∈ res, d.namespaceID = ns :=
  Within.bind (scoped_store (hread (.store (.loadNamespaceProposed ns)) hns)) fun _ _ =>
    gatherSources_scoped hread hns ..

theorem gatherChainTiers_scoped (hC : Climbs P C) (hns : P ns) :
    Scoped A C (gatherChainTiers ns) fun res => ∀ t ∈ res, ∀ d ∈ t.files, P d.namespaceID := by
  refine Within.bind (chainFrom_scoped (fun op => hread (.mem op)) hC chainMaxDepth hns (by simp))
    fun chain hchain => ?_
  refine Within.mono (Within.mapM (Q := fun _ t => ∀ d ∈ ChainTier.files t, P d.namespaceID) fun a ha => ?_)
    fun res hres t ht => ?_
  · have hP := hchain a (List.mem_of_mem_tail ha)
    refine Within.bind (Within.wrap (scoped_store (hread (.store (.loadNamespaceCurrent a)) hP)) _) fun currents _ => ?_
    refine Within.bind (gatherSources_scoped hread hP ..) fun files hfiles => .pure fun d hd => ?_
    exact (hfiles d hd).symm ▸ hP
  · obtain ⟨a, -, hall⟩ := hres t ht
    exact hall

theorem gatherBuiltinsFor_scoped (hbuiltins : P builtinsNamespace) (ns : String) :
    Scoped A C (gatherBuiltinsFor ns) fun _ => True := by
  unfold gatherBuiltinsFor
  split
  · refine Within.bind (scoped_store (hread (.store (.loadNamespaceCurrent builtinsNamespace)) hbuiltins)) fun _ _ => ?_
    exact Within.done (gatherSources_scoped hread hbuiltins ..)
  · exact .pure trivial

theorem isUnchanged_scoped (hns : P ns) (env : External) (sc fingerprint : String) :
    Scoped A C (isUnchanged env ns sc fingerprint) fun _ => True := by
  refine Within.bind (Within.attempt (scoped_store (hread (.store (.getSchema ns sc)) hns))) fun res _ => ?_
  rcases res with _ | schema
  · exact .pure trivial
  · dsimp only
    split
    · next v _ =>
      refine Within.bind (Within.attempt (scoped_store (hread (.store (.getVersionFiles ns sc v)) hns))) fun res _ => ?_
      rcases res with _ | files <;> exact .pure trivial
    · exact .pure trivial

/-- The check for changes of `publishInternal`, which a new version can be forced past. -/
theorem noChange_scoped (hns : P ns) (env : External) (forced : Bool) (sc fingerprint : String) :
    Scoped A C (if forced then pure false else isUnchanged env ns sc fingerprint) fun _ => True := by
  split
  · exact .pure trivial
  · exact isUnchanged_scoped hread hns ..

theorem fetchSources_scoped (hns : P ns) (context : String) (files : List VersionFile) :
    Scoped A C (Registry.fetchSources ns context files) fun sources =>
      ∀ path blob, sources.get path = some blob →
        ∃ f ∈ files, f.filename = path ∧ C (.store (.getBlob ns f.blobSHA256)) (.ok blob) := by
  refine Within.bind (Within.mapM (Q := fun f e => f.filename = e.1 ∧ C (.store (.getBlob ns f.blobSHA256)) (.ok e.2))
    fun f _ => ?_) fun entries hentries => .pure fun path blob hget => ?_
  · exact Within.bind (Within.wrap (scoped_store (hread (.store (.getBlob ns f.blobSHA256)) hns)) _)
      fun blob hblob => .pure ⟨rfl, hblob⟩
  · exact hentries (path, blob) (Dict.mem_of_get_ofAssignments hget)

namespace Registry

/-- What is compiled, and against what. -/
theorem compileNext_scoped (hC : Climbs P C) (hbuiltins : P builtinsNamespace) (r : Registry) {req : PublishRequest}
    (hns : P req.namespaceID) : Scoped A C (r.compileNext req) fun res => ∃ deps tiers builtins,
      r.compiler.compile r.env res.1 req.sources deps tiers builtins = .ok res.2 ∧
      ∀ d ∈ res.2.deps, P d.depNamespaceID := by
  refine Within.bind (Within.wrap (gatherDeps_scoped hread hns _) _) fun deps hdeps => ?_
  refine Within.bind (Within.wrap (gatherChainTiers_scoped hread hC hns) _) fun tiers htiers => ?_
  refine Within.bind (Within.wrap (gatherBuiltinsFor_scoped hread hbuiltins _) _) fun builtins _ => ?_
  refine Within.bind (Within.wrap (scoped_store (hread (.store (.listVersions _ _)) hns)) _) fun versions _ => ?_
  refine Within.bind scoped_check fun result hresult => .pure ⟨deps, tiers, builtins, mapError_eq_ok.mp hresult, ?_⟩
  intro d hd
  rw [Compiler.deps_of_compile (mapError_eq_ok.mp hresult), List.mem_append, List.mem_map, List.mem_flatMap] at hd
  obtain ⟨source, hsource, rfl⟩ | ⟨tier, htier, hd⟩ := hd
  · have hsame : (depRecord source).depNamespaceID = req.namespaceID := hdeps source hsource
    exact hsame.symm ▸ hns
  · obtain ⟨source, hsource, rfl⟩ := List.mem_map.mp hd
    exact htiers tier htier source hsource

end Registry

end

/-! ## Writing -/

theorem ensureRow_scoped {get create : StoreOp} (hget : A (.store get)) (hcreate : A (.store create))
    (context : String) :
    Scoped A C (ensureRow get create context) fun _ => True := by
  refine Within.bind (Within.attempt (scoped_store hget)) fun res _ => ?_
  rcases res with _ | _
  · refine Within.bind (Within.attempt (scoped_store hcreate)) fun res _ => ?_
    rcases res with _ | _
    · refine Within.bind (Within.attempt (scoped_store hget)) fun res _ => ?_
      rcases res with _ | _
      · exact .throw _
      · exact .pure trivial
    · exact .pure trivial
  · exact .pure trivial

theorem ensureNamespaceAndSchema_scoped {sc : String} (hget : A (.store (.getNamespace ns)))
    (hcreate : A (.store (.createNamespace ns none))) (hget' : A (.store (.getSchema ns sc)))
    (hcreate' : A (.store (.createSchema ns sc))) : Scoped A C (ensureNamespaceAndSchema ns sc) fun _ => True :=
  Within.bind (ensureRow_scoped hget hcreate _) fun _ _ => ensureRow_scoped hget' hcreate' _

namespace Registry

variable (hread : ∀ op : Op, op.ReadsIn P → A op) (hmem : ∀ op : MemOp, Op.ReadsIn P (.mem op) → A (.mem op))
  (r : Registry)

/-- The row that is stored for a compiled version. -/
def versionRow (r : Registry) (result : CompileResult) : VersionRow where
  compiled := result.compiled
  compilerVersion := r.env.compilerVersion
  files := result.files.map fun f => ⟨f.filename, f.blobSHA256⟩
  deps := result.deps

theorem storeVersion_scoped {req : PublishRequest} {result : CompileResult}
    (hblob : ∀ f ∈ result.files, A (.store (.putBlob req.namespaceID f.blobSHA256 f.originalSource)))
    (hput : A (.store (.putVersion req.namespaceID req.schemaID v (r.versionRow result))))
    (hstage : A (.store (.setStaged req.namespaceID req.schemaID v)))
    (hslot : ∀ snap, A (.mem (.setStaged req.namespaceID req.schemaID snap))) (fingerprint : String) :
    Scoped A C (r.storeVersion req v result fingerprint) fun _ => True := by
  refine Within.bind (Within.forM fun f hf => Within.done (Within.wrap (scoped_store (hblob f hf)) _)) fun _ _ => ?_
  refine Within.bind (Within.wrap (scoped_store hput) _) fun _ _ => ?_
  refine Within.bind (Within.wrap (scoped_store hstage) _) fun _ _ => ?_
  exact Within.bind (scoped_mem (hslot _)) fun _ _ => .pure trivial

include hread

theorem publishInternal_scoped (hC : Climbs P C) (hbuiltins : P builtinsNamespace) {req : PublishRequest}
    (hns : P req.namespaceID) (hcreate : A (.store (.createNamespace req.namespaceID none)))
    (hschema : A (.store (.createSchema req.namespaceID req.schemaID)))
    (hobject : A (.mem (.getOrCreate req.namespaceID)))
    (hstore : ∀ {v result deps tiers builtins}, r.compiler.compile r.env v req.sources deps tiers builtins =
      .ok result →
      (∀ d ∈ result.deps, P d.depNamespaceID) →
      Scoped A C (r.storeVersion req v result (computeFingerprint r.env result.files)) fun _ => True)
    (opts : PublishOpts) : Scoped A C (r.publishInternal req opts) fun _ => True := by
  refine Within.bind scoped_check fun _ _ => ?_
  refine Within.bind (ensureNamespaceAndSchema_scoped (hread (.store (.getNamespace _)) hns) hcreate
    (hread (.store (.getSchema _ _)) hns) hschema) fun _ _ => ?_
  refine Within.bind (scoped_mem hobject) fun _ _ => ?_
  refine Within.bind (compileNext_scoped hread hC hbuiltins r hns) fun compiled hcompiled => ?_
  obtain ⟨v, result⟩ := compiled
  obtain ⟨deps, tiers, builtins, hresult, hdeps⟩ := hcompiled
  refine Within.bind (checkAncestorFQNConflicts_scoped (fun op => hread (.mem op)) hC hns _) fun _ _ => ?_
  refine Within.bind (noChange_scoped hread hns ..) fun noChange _ => ?_
  cases noChange with
  | true => exact .pure trivial
  | false => exact hstore hresult hdeps

theorem rebase_scoped (hns : P ns) (hpublish : ∀ {v files sources},
      C (.store (.getVersionFiles ns sc v)) (.ok files) →
      (∀ path blob, Dict.get sources path = some blob →
        ∃ f ∈ files, f.filename = path ∧ C (.store (.getBlob ns f.blobSHA256)) (.ok blob)) →
      Scoped A C (r.publishInternal ⟨ns, sc, sources, false⟩ { forceNewVersion := true }) fun _ => True) :
    Scoped A C (r.rebase ns sc) fun _ => True := by
  refine Within.bind scoped_check fun _ _ => ?_
  refine Within.bind (scoped_mem (hread (.mem (.get ns)) hns)) fun found _ => ?_
  cases found with
  | false => exact .throw _
  | true =>
    refine Within.bind (scoped_mem (hread (.mem (.current ns sc)) hns)) fun current _ => ?_
    cases current with
    | none => exact .throw _
    | some cur =>
      refine Within.bind (Within.wrap (scoped_store (hread (.store (.getVersionFiles ns sc cur.version)) hns)) _)
        fun files hfiles => ?_
      exact Within.bind (fetchSources_scoped hread hns _ files) fun sources hsources => hpublish hfiles hsources

omit hread
include hmem

theorem rollback_scoped (hns : P ns) (hget : A (.store (.getVersion ns sc v)))
    (hstage : A (.store (.setStaged ns sc v)))
    (hobject : A (.mem (.getOrCreate ns))) (hslot : ∀ snap, A (.mem (.setStaged ns sc snap))) (force : Bool) :
    Scoped A C (r.rollback ns sc v force) fun _ => True := by
  refine Within.bind (Within.wrap (scoped_store hget) _) fun row _ => ?_
  refine Within.bind scoped_check fun snap _ => ?_
  have hwrite : Scoped A C (do
      (store (.setStaged ns sc v)).wrap ("setting staged to version " ++ toString v)
      mem (.getOrCreate ns)
      mem (.setStaged ns sc snap)) fun _ => True := by
    refine Within.bind (Within.wrap (scoped_store hstage) _) fun _ _ => ?_
    exact Within.bind (scoped_mem hobject) fun _ _ => Within.done (scoped_mem (hslot snap))
  cases force with
  | true => exact hwrite
  | false => exact Within.bind (checkRollback_scoped hmem hns sc snap) fun _ _ => hwrite

theorem discardStaging_scoped (hns : P ns) (hdiscard : A (.store (.discardStaging ns)))
    (hslot : ∀ sc, A (.mem (.clearStaged ns sc))) : Scoped A C (discardStaging ns) fun _ => True := by
  refine Within.bind (Within.wrap (scoped_store hdiscard) _) fun _ _ => ?_
  refine Within.bind (scoped_mem (hmem (.get ns) hns)) fun found _ => ?_
  cases found with
  | false => exact .pure trivial
  | true =>
    refine Within.bind (scoped_mem (hmem (.schemaIDs ns) hns)) fun ids _ => ?_
    exact Within.forM fun sc _ => Within.done (scoped_mem (hslot sc))

theorem promote_scoped (hns : P ns) (hpromote : A (.store (.promote ns))) (hswap : ∀ sc, A (.mem (.swapStaged ns sc)))
    (hslot : ∀ sc snap, A (.mem (.storeCurrent ns sc snap))) : Scoped A C (r.promote ns) fun _ => True := by
  refine Within.bind scoped_check fun _ _ => ?_
  refine Within.bind (scoped_mem (hmem (.get ns) hns)) fun found _ => ?_
  cases found with
  | false => exact .throw _
  | true =>
    refine Within.bind (scoped_mem (hmem (.schemaIDs ns) hns)) fun ids _ => ?_
    refine Within.bind (Within.forM fun sc _ => checkStaged_scoped hmem hns sc) fun _ _ => ?_
    refine Within.bind (Within.wrap (scoped_store hpromote) _) fun promoted _ => ?_
    refine Within.bind (scoped_mem (hmem (.schemaIDs ns) hns)) fun ids _ => ?_
    refine Within.bind (Within.forM fun sc _ => ?_) fun _ _ => .pure trivial
    refine Within.bind (scoped_mem (hswap sc)) fun staged _ => ?_
    cases staged with
    | none => exact .pure trivial
    | some snap => exact Within.done (scoped_mem (hslot sc snap))

omit hmem in
theorem createNamespace_scoped (hcreate : A (.store (.createNamespace ns none)))
    (hset : p ≠ none → A (.store (.setNamespaceParent ns p actor))) (hparent : p ≠ none → A (.mem (.setParent ns p)))
    (hmem : A (.mem (.getOrCreate ns))) (hget : ∀ q, p = some q → A (.mem (.get q)) ∧ A (.mem (.getOrCreate q))) :
    Scoped A C (r.createNamespace ns p actor) fun _ => True := by
  refine Within.bind scoped_check fun _ _ => ?_
  refine Within.bind (Within.wrap (scoped_store hcreate) _) fun _ _ => ?_
  refine Within.bind (scoped_mem hmem) fun _ _ => ?_
  cases p with
  | none => exact .pure trivial
  | some q =>
    have hwrite : Scoped A C (mem (.setParent ns (some q))) fun _ => True :=
      Within.done (scoped_mem (hparent (by simp)))
    refine Within.bind (Within.wrap (scoped_store (hset (by simp))) _) fun _ _ => ?_
    refine Within.bind (scoped_mem (hget q rfl).1) fun found _ => ?_
    cases found with
    | true => exact hwrite
    | false => exact Within.bind (scoped_mem (hget q rfl).2) fun _ _ => hwrite

omit hmem in
theorem setNamespaceParent_scoped (hset : A (.store (.setNamespaceParent ns p actor)))
    (hparent : A (.mem (.setParent ns p)))
    (hmem : A (.mem (.getOrCreate ns))) (hget : ∀ q, p = some q → A (.mem (.getOrCreate q))) :
    Scoped A C (r.setNamespaceParent ns p actor) fun _ => True := by
  have hwrite : Scoped A C (mem (.setParent ns p)) fun _ => True := Within.done (scoped_mem hparent)
  refine Within.bind scoped_check fun _ _ => ?_
  refine Within.bind (scoped_store hset) fun _ _ => ?_
  refine Within.bind (scoped_mem hmem) fun _ _ => ?_
  cases p with
  | none => exact hwrite
  | some q => exact Within.bind (scoped_mem (hget q rfl)) fun _ _ => hwrite

end Registry

end

end ProtoRegistry
