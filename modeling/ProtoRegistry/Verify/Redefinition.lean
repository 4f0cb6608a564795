import ProtoRegistry.Verify.Chains

/-!
# Redefining a type of an ancestor

The conflict check of decision D2 takes a name that the child and an ancestor define under the same path for
one that the child imports. A file of the child that stands under the path of the ancestor's file is not
imported, but it passes the check in the same way.
-/

namespace ProtoRegistry
open RegistryM

/-! ## The conflict check -/

/-- `ancestorConflicts` as a function of memory. -/
def Namespaces.conflictsWith (m : Namespaces) (child : Snapshot) (a : String) : List FQNConflict :=
  ((m.schemaIDs a).map fun sc => (m.current a sc).elim [] (detectFQNConflicts child)).flatten

theorem exec_ancestorConflicts (child : Snapshot) (a : String) (w : World) :
    (ancestorConflicts child a).exec w = (.ok (w.memory.conflictsWith child a), w) := by
  refine (execute_bind_of_ok (exec_mem (.schemaIDs a) w)).trans ?_
  refine (execute_bind_of_ok (a := (w.memory.schemaIDs a).map fun sc =>
    (w.memory.current a sc).elim [] (detectFQNConflicts child)) (show _ = (_, w) from ?_)).trans rfl
  refine (execute_mapM_of_read (g := fun sc => .ok ((w.memory.current a sc).elim [] (detectFQNConflicts child)))
    fun sc _ => ?_).trans ?_
  · refine (execute_bind_of_ok (exec_mem (.current a sc) w)).trans ?_
    simp only [Namespaces.perform]
    cases w.memory.current a sc <;> rfl
  · rw [mapM_eq_map fun _ _ => rfl]
    rfl

theorem Namespaces.conflictsWith_eq_nil_iff {m : Namespaces} {child : Snapshot} (hchild : DisjointNames child.fileList)
    (hcurrent : ∀ sc snap, m.current a sc = some snap → DisjointNames snap.fileList) :
    m.conflictsWith child a = [] ↔
      ∀ sc snap, m.current a sc = some snap → ¬ Shadows child.fileList snap.fileList := by
  rw [conflictsWith, List.flatten_eq_nil_iff, List.forall_mem_map]
  constructor
  · intro h sc snap hsnap
    have hmem : sc ∈ m.schemaIDs a := by
      obtain ⟨slot, hslot, -⟩ := Option.bind_eq_some_iff.mp hsnap
      rw [mem_schemaIDs, hslot]
      rfl
    have hnil := h sc hmem
    rw [hsnap] at hnil
    exact (detectFQNConflicts_eq_nil_iff hchild (hcurrent sc snap hsnap)).mp hnil
  · intro h sc _
    cases hsnap : m.current a sc with
    | none => rfl
    | some snap => exact (detectFQNConflicts_eq_nil_iff hchild (hcurrent sc snap hsnap)).mpr (h sc snap hsnap)

def Err.IsFQNConflict (e : Err) : Prop := ∃ a conflicts, e.kind = .fqnConflict a conflicts

/-- The check stops at the first ancestor that has a conflict. -/
theorem exec_checkAncestors (child : Snapshot) (ancestors : List String) (w : World) :
    (ancestors.forM (checkAncestor child)).exec w = (.ok ⟨⟩, w) ∧
    (∀ a ∈ ancestors, w.memory.conflictsWith child a = []) ∨
      (∃ e : Err, e.IsFQNConflict ∧ (ancestors.forM (checkAncestor child)).exec w = (.error e, w)) ∧
        ∃ a ∈ ancestors, w.memory.conflictsWith child a ≠ [] := by
  induction ancestors with
  | nil => exact .inl ⟨rfl, by simp⟩
  | cons a ancestors ih =>
    have hround : (checkAncestor child a).exec w = (if (w.memory.conflictsWith child a).isEmpty then .ok () else
        .error ⟨fqnConflictText a (w.memory.conflictsWith child a), .fqnConflict a (w.memory.conflictsWith child a)⟩,
          w) := by
      refine (execute_bind_of_ok (exec_ancestorConflicts child a w)).trans ?_
      cases (w.memory.conflictsWith child a).isEmpty <;> rfl
    rw [RegistryM.exec, execute_forM_cons, List.forall_mem_cons]
    by_cases hnil : w.memory.conflictsWith child a = []
    · rw [hnil] at hround
      rw [execute_bind_of_ok hround]
      obtain ⟨hrest, hall⟩ | ⟨hrest, a', ha', hne⟩ := ih
      · exact .inl ⟨hrest, hnil, hall⟩
      · exact .inr ⟨hrest, a', List.mem_cons_of_mem _ ha', hne⟩
    · rw [if_neg (by simpa using hnil)] at hround
      refine .inr ⟨⟨_, ⟨a, _, rfl⟩, execute_bind_of_error hround⟩, a, List.mem_cons_self .., hnil⟩

/-! ## What a publish reads -/

/-- What a publish to the namespace gathers and checks is the same in both worlds. -/
structure World.SameInputs (ns : String) (w w' : World) : Prop where
  namespaces : ∀ {n}, (w.store.namespaces.get n).isSome → (w'.store.namespaces.get n).isSome
  pointers : ∀ a sc, w'.store.pointers a sc = w.store.pointers a sc
  versions : w'.store.versions = w.store.versions
  blobs : w'.store.blobs = w.store.blobs
  parent : w'.memory.parent = w.memory.parent
  memory : ∀ a, a ≠ ns → w'.memory.namespaces.get a = w.memory.namespaces.get a

namespace World.SameInputs

variable {w w' : World} {ns : String}

theorem loadSchemas (h : w.SameInputs ns w') {pointer : SchemaRow → Option Nat} (hnone : pointer ⟨none, none⟩ = none)
    (select : String → Bool) : w'.store.loadSchemas pointer select = w.store.loadSchemas pointer select := by
  refine Store.loadSchemas_eq fun cs => ?_
  rw [Store.mem_loadSchemas_pointers hnone, Store.mem_loadSchemas_pointers hnone, h.pointers, h.versions]

theorem loadNamespaceCurrent (h : w.SameInputs ns w') (a : String) :
    w'.store.loadNamespaceCurrent a = w.store.loadNamespaceCurrent a := h.loadSchemas rfl _

theorem fetch (h : w.SameInputs ns w') (a : String) (context : CurrentSchema → VersionFile → String)
    (schemas : List CurrentSchema) : w'.store.fetch a context schemas = w.store.fetch a context schemas := by
  simp only [Store.fetch, Store.getBlob, h.blobs]

theorem fetchDeps (h : w.SameInputs ns w') (sc : String) : w'.store.fetchDeps ns sc = w.store.fetchDeps ns sc := by
  rw [Store.fetchDeps, Store.fetchDeps, h.fetch, Store.loadNamespaceProposed, h.loadSchemas rfl]
  rfl

theorem fetchTiers (h : w.SameInputs ns w') (ancestors : List String) :
    w'.store.fetchTiers ancestors = w.store.fetchTiers ancestors := by
  simp only [Store.fetchTiers, h.fetch, h.loadNamespaceCurrent]

theorem fetchBuiltinsFor (h : w.SameInputs ns w') (a : String) :
    w'.store.fetchBuiltinsFor a = w.store.fetchBuiltinsFor a := by
  simp only [Store.fetchBuiltinsFor, h.fetch, h.loadNamespaceCurrent]

theorem conflictsWith (h : w.SameInputs ns w') (child : Snapshot) (ha : a ≠ ns) :
    w'.memory.conflictsWith child a = w.memory.conflictsWith child a := by
  simp only [Namespaces.conflictsWith, Namespaces.schemaIDs, Namespaces.current, Namespaces.slot, h.memory a ha]

end World.SameInputs

namespace Registry

variable {r : Registry} {req : PublishRequest} {w : World}

theorem get_getOrCreate_of_ne {m : Namespaces} (ha : a ≠ ns) :
    (m.getOrCreate ns).namespaces.get a = m.namespaces.get a := by
  unfold Namespaces.getOrCreate
  split
  · exact Dict.get_set_of_ne _ _ ha
  · rfl

/-- The rows that a publish makes sure of do not matter to what it gathers. -/
theorem exec_prepare (w : World) (ns sc : String) :
    ∃ s : Store, (ensureNamespaceAndSchema ns sc).exec w = (.ok (), ⟨s, w.memory⟩) ∧
      World.Ready ⟨s, w.memory.getOrCreate ns⟩ ns sc ∧ w.SameInputs ns ⟨s, w.memory.getOrCreate ns⟩ := by
  obtain ⟨s₁, hfirst, hnamespace⟩ := exec_ensureNamespace w ns
  have hs₁ : (s₁.namespaces.get ns).isSome ∧ s₁.schemas = w.store.schemas ∧ s₁.versions = w.store.versions ∧
      s₁.blobs = w.store.blobs ∧ ∀ {n}, (w.store.namespaces.get n).isSome → (s₁.namespaces.get n).isSome := by
    obtain ⟨rfl, hns⟩ | ⟨-, rfl⟩ := hnamespace
    · exact ⟨hns, rfl, rfl, rfl, id⟩
    · exact ⟨by simp [Store.insertRoot], rfl, rfl, rfl, Dict.isSome_get_set _ _⟩
  obtain ⟨hns, hschemas, hversions, hblobs, hnamespaces⟩ := hs₁
  obtain ⟨s₂, hsecond, hschema⟩ := exec_ensureSchema (w := ⟨s₁, w.memory⟩) ns sc hns
  have hs₂ : (s₂.schemas.get (ns, sc)).isSome ∧ s₂.namespaces = s₁.namespaces ∧ s₂.versions = s₁.versions ∧
      s₂.blobs = s₁.blobs ∧ ∀ a sc', s₂.pointers a sc' = s₁.pointers a sc' := by
    obtain ⟨rfl, hsc⟩ | ⟨hnone, rfl⟩ := hschema
    · exact ⟨hsc, rfl, rfl, rfl, fun _ _ => rfl⟩
    · refine ⟨by simp, rfl, rfl, rfl, fun a sc' => ?_⟩
      simp only [Store.pointers, Dict.get_set]
      split
      · next hkey =>
        cases hkey
        rw [hnone]
        rfl
      · rfl
  obtain ⟨hsc, hns', hversions', hblobs', hpointers⟩ := hs₂
  refine ⟨s₂, (execute_bind_of_ok hfirst).trans hsecond, ?_, ?_⟩
  · exact ⟨hns' ▸ hns, hsc, Namespaces.isSome_getOrCreate ns⟩
  · refine ⟨fun hn => hns' ▸ hnamespaces hn, fun a sc' => ?_, hversions'.trans hversions,
      hblobs'.trans hblobs, Namespaces.parent_getOrCreate ns,
      fun a ha => get_getOrCreate_of_ne ha⟩
    refine (hpointers a sc').trans ?_
    rw [Store.pointers, Store.pointers, hschemas]

theorem compileNext_sameInputs_iff {w' : World} (hw : w.SameInputs req.namespaceID w') :
    (r.compileNext req).exec w' = (.ok (v, result), w') ↔ (r.compileNext req).exec w = (.ok (v, result), w) := by
  have hversions : w'.store.listVersions req.namespaceID req.schemaID =
      w.store.listVersions req.namespaceID req.schemaID := by
    rw [Store.listVersions, Store.listVersions, hw.versions]
  rw [compileNext_eq_ok, compileNext_eq_ok, hw.fetchDeps, hw.fetchTiers, hw.fetchBuiltinsFor, hw.parent, hversions]
  simp

end Registry

/-! ## What the check sees -/

/-- One of the files has a name that a current schema of an ancestor defines under another path. -/
def Namespaces.ShadowsAbove (m : Namespaces) (ns : String) (files : List FileDescriptor) : Prop :=
  ∃ a ∈ ancestorsOf m.parent ns, ∃ sc snap, m.current a sc = some snap ∧ Shadows files snap.fileList

/-- Some file among the sources of the request has a name that a current schema of an ancestor defines. The names of
a file are read off its text by `defines`: a request need not compile to redefine one. -/
def PublishRequest.Redefines (req : PublishRequest) (defines : String → Bytes → List FullName) (m : Namespaces) :
    Prop :=
  ∃ path source, req.sources.get path = some source ∧ ∃ n ∈ defines path source,
    ∃ a ∈ ancestorsOf m.parent req.namespaceID, ∃ sc snap, m.current a sc = some snap ∧
      ∃ g ∈ snap.fileList, n ∈ g.typeNames

namespace Registry

variable {r : Registry} {req : PublishRequest} {w w' : World}

/-- The request compiles, and some file that it compiles or imports has a name that a current schema of an ancestor
defines under another path. -/
def Conflicts (r : Registry) (req : PublishRequest) (w : World) : Prop :=
  ∃ v result, (r.compileNext req).exec w = (.ok (v, result), w) ∧
    w.memory.ShadowsAbove req.namespaceID result.snapshot.fileList

/-- The publish is refused with an `FQNConflictError`, and stages nothing. -/
def Rejects (r : Registry) (req : PublishRequest) (w : World) : Prop :=
  ∃ e w', r.exec (.publish req) w = (.error e, w') ∧ e.IsFQNConflict ∧
    (∀ ns sc, w'.memory.staged ns sc = w.memory.staged ns sc) ∧
    (∀ ns sc, w'.store.pointers ns sc = w.store.pointers ns sc) ∧ w'.store.versions = w.store.versions

end Registry

/-! ## Errors of another kind -/

namespace Store

variable {s : Store}

theorem kind_of_insertViolation [DecidableEq κ] {key : α → κ} {inserted : List κ} {rows : List α}
    (h : insertViolation table foreignKey key dangling context inserted rows = some e) : e.kind = .other := by
  induction rows generalizing inserted with
  | nil => cases h
  | cons row rows ih =>
    unfold insertViolation at h
    split at h
    · cases h
      rfl
    · split at h
      · cases h
        rfl
      · exact ih h

theorem kind_of_versionViolation (h : s.versionViolation ns sc v row = some e) : e.kind = .other := by
  unfold versionViolation at h
  split at h
  · cases h
    rfl
  · split at h
    · cases h
      rfl
    · obtain h | ⟨-, h⟩ := Option.or_eq_some_iff.mp h
      · exact kind_of_insertViolation h
      · exact kind_of_insertViolation h

/-- No error of the store is an `FQNConflictError`. -/
theorem not_isFQNConflict_perform (op : StoreOp) (h : (s.perform op).1 = .error e) : ¬ e.IsFQNConflict := by
  rintro ⟨a, conflicts, hkind⟩
  cases op with
  | putVersion ns sc v row =>
    simp only [perform, putVersion] at h
    split at h
    · next hviolation =>
      cases h
      cases (kind_of_versionViolation hviolation).symm.trans hkind
    · cases h
  | _ =>
    simp only [perform, getNamespace, createNamespace, setNamespaceParent, putBlob, getBlob, createSchema, getSchema,
      getVersion] at h
    repeat' split at h
    all_goals cases h <;> cases hkind

end Store

namespace Registry

variable {r : Registry} {req : PublishRequest} {w w' : World}

/-- The program does not end with an `FQNConflictError`. -/
abbrev NeverConflicts (x : RegistryM α) : Prop := Fails World.perform (fun e : Err => ¬ e.IsFQNConflict) x

theorem fails_mem (op : MemOp) : NeverConflicts (mem op) := fun w _ _ h => by
  cases (exec_mem op w).symm.trans h

theorem fails_store (op : StoreOp) : NeverConflicts (store op) :=
  fun w _ _ h => Store.not_isFQNConflict_perform op (congrArg Prod.fst ((exec_store op w).symm.trans h))

theorem fails_wrap {x : RegistryM α} (hx : NeverConflicts x) (context : String) :
    NeverConflicts (x.wrap context) := by
  intro w _ w' h
  rcases hexec : x.exec w with ⟨e | a, w₁⟩
  · cases (exec_wrap_of hexec context).symm.trans h
    exact hx w e w' hexec
  · cases (exec_wrap_of hexec context).symm.trans h

theorem fails_gatherSources (ns : String) (context : CurrentSchema → VersionFile → String)
    (schemas : List CurrentSchema) :
    NeverConflicts (gatherSources ns context schemas) :=
  (Fails.mapM fun _ _ => Fails.mapM fun _ _ => (fails_wrap (fails_store _) _).bind fun _ => .pure _ _).bind
    fun _ => .pure _ _

theorem fails_chainFrom (n : Nat) (cur : String) (chain : List String) :
    NeverConflicts (chainFrom n cur chain) := by
  induction n generalizing cur chain with
  | zero => exact .pure _ _
  | succ n ih =>
    unfold chainFrom
    split
    · exact .pure _ _
    · refine (fails_mem _).bind fun parent => ?_
      cases parent with
      | none => exact .pure _ _
      | some p => exact ih p _

theorem fails_compileNext : NeverConflicts (r.compileNext req) := by
  refine (fails_wrap ?_ _).bind fun deps => (fails_wrap ?_ _).bind fun tiers => (fails_wrap ?_ _).bind fun builtins =>
    (fails_wrap (fails_store _) _).bind fun versions => Fails.bind (fun w e w' h => ?_) fun result => .pure _ _
  · exact (fails_store _).bind fun proposed => fails_gatherSources _ _ _
  · refine (fails_chainFrom _ _ _).bind fun chain => Fails.mapM fun a _ => ?_
    exact (fails_wrap (fails_store _) _).bind fun currents => (fails_gatherSources _ _ _).bind fun files => .pure _ _
  · unfold gatherBuiltinsFor
    split
    · exact (fails_store _).bind fun current => fails_gatherSources _ _ _
    · exact .pure _ _
  · rw [execute_liftExcept] at h
    rintro ⟨a, conflicts, hkind⟩
    cases hcompile : r.compiler.compile r.env (nextVersion versions) req.sources deps tiers builtins with
    | ok result =>
      rw [hcompile] at h
      cases h
    | error text =>
      rw [hcompile] at h
      cases h
      cases hkind

theorem fails_storeVersion (v : Nat) (result : CompileResult) (fingerprint : String) :
    NeverConflicts (r.storeVersion req v result fingerprint) :=
  (Fails.forM fun _ _ => fails_wrap (fails_store _) _).bind fun _ => (fails_wrap (fails_store _) _).bind fun _ =>
    (fails_wrap (fails_store _) _).bind fun _ => (fails_mem _).bind fun _ => .pure _ _

theorem not_isFQNConflict_checkRequest (h : r.checkRequest req = .error e) : ¬ e.IsFQNConflict := by
  rintro ⟨a, conflicts, hkind⟩
  unfold checkRequest at h
  repeat' split at h
  all_goals cases h <;> cases hkind

/-! ## The publish -/

theorem exec_publish_of_error (h : r.exec (.publish req) w = (.error e, w')) :
    (r.publish req).exec w = (.error e, w') := by
  rcases hpublish : (r.publish req).exec w with ⟨res, w₁⟩
  cases res with
  | ok res => cases (execute_bind_of_ok hpublish).symm.trans h
  | error e' =>
    cases (execute_bind_of_error hpublish).symm.trans h
    rfl

theorem exec_publish_of_denied (h : r.authz.canPublish req.namespaceID req.schemaID = .error e) (w : World) :
    (r.publish req).exec w = (.error e, w) := by
  refine execute_bind_of_error ?_
  rw [execute_liftExcept, h]

theorem exec_publish_of_refused (hauthz : r.authz.canPublish req.namespaceID req.schemaID = .ok ())
    (h : r.checkRequest req = .error e) (w : World) : (r.publish req).exec w = (.error e, w) := by
  have hallowed : RegistryM.exec (liftExcept (r.authz.canPublish req.namespaceID req.schemaID)) w = (.ok (), w) := by
    rw [RegistryM.exec, execute_liftExcept, hauthz]
  refine (execute_bind_of_ok hallowed).trans (execute_bind_of_error ?_)
  rw [execute_liftExcept, h]

/-- The last steps of a publish. -/
def storeIfChanged (r : Registry) (req : PublishRequest) (v : Nat) (result : CompileResult) :
    RegistryM PublishResult := do
  let noChange ← isUnchanged r.env req.namespaceID req.schemaID (computeFingerprint r.env result.files)
  if noChange then return { noChange, fingerprint := computeFingerprint r.env result.files }
  r.storeVersion req v result (computeFingerprint r.env result.files)

/-- A request that passes the first checks is compiled next. -/
theorem publish_compiles (hauthz : r.authz.canPublish req.namespaceID req.schemaID = .ok ())
    (hrequest : r.checkRequest req = .ok ()) (w : World) :
    ∃ w₂, World.Ready w₂ req.namespaceID req.schemaID ∧ w.SameInputs req.namespaceID w₂ ∧
      (∀ ns sc, w₂.memory.slot ns sc = w.memory.slot ns sc) ∧ (r.publish req).exec w = RegistryM.exec (do
        let (v, result) ← r.compileNext req
        checkAncestorFQNConflicts result.snapshot req.namespaceID
        r.storeIfChanged req v result) w₂ := by
  obtain ⟨s, hrows, hready, hinputs⟩ := exec_prepare w req.namespaceID req.schemaID
  have hget : (mem (.getOrCreate req.namespaceID)).exec ⟨s, w.memory⟩ =
      (.ok (), ⟨s, w.memory.getOrCreate req.namespaceID⟩) := exec_mem (.getOrCreate req.namespaceID) _
  refine ⟨_, hready, hinputs, fun _ _ => Namespaces.slot_getOrCreate, ?_⟩
  have hallowed : RegistryM.exec (liftExcept (r.authz.canPublish req.namespaceID req.schemaID)) w = (.ok (), w) := by
    rw [RegistryM.exec, execute_liftExcept, hauthz]
  have hchecked : RegistryM.exec (liftExcept (r.checkRequest req)) w = (.ok (), w) := by
    rw [RegistryM.exec, execute_liftExcept, hrequest]
  refine (execute_bind_of_ok hallowed).trans ((execute_bind_of_ok hchecked).trans ?_)
  exact (execute_bind_of_ok hrows).trans ((execute_bind_of_ok hget).trans rfl)

theorem compiles_of_conflict (hauthz : r.authz.canPublish req.namespaceID req.schemaID = .ok ())
    (hrequest : r.checkRequest req = .ok ()) (hexec : (r.publish req).exec w = (.error e, w')) (he : e.IsFQNConflict) :
    ∃ v result, (r.compileNext req).exec w = (.ok (v, result), w) := by
  obtain ⟨w₂, -, hinputs, -, hcompiles⟩ := publish_compiles hauthz hrequest w
  have hworld := snd_exec_compileNext r req w₂
  rcases hcompile : (r.compileNext req).exec w₂ with ⟨e' | ⟨v, result⟩, w₃⟩
  · cases (hcompiles.symm.trans hexec).symm.trans (execute_bind_of_error hcompile)
    exact absurd he (fails_compileNext _ _ _ hcompile)
  · rw [hcompile] at hworld
    cases hworld
    exact ⟨v, result, (compileNext_sameInputs_iff hinputs).mp hcompile⟩

section
variable (hauthz : r.authz.canPublish req.namespaceID req.schemaID = .ok ()) (hrequest : r.checkRequest req = .ok ())
  (hcompile : (r.compileNext req).exec w = (.ok (v, result), w))
include hauthz hrequest hcompile

theorem publish_checks : ∃ w₂, World.Ready w₂ req.namespaceID req.schemaID ∧ w.SameInputs req.namespaceID w₂ ∧
    (∀ ns sc, w₂.memory.slot ns sc = w.memory.slot ns sc) ∧ (r.publish req).exec w = RegistryM.exec (do
      checkAncestorFQNConflicts result.snapshot req.namespaceID
      r.storeIfChanged req v result) w₂ := by
  obtain ⟨w₂, hready, hinputs, hslots, hcompiles⟩ := publish_compiles hauthz hrequest w
  refine ⟨w₂, hready, hinputs, hslots, hcompiles.trans ?_⟩
  exact (execute_bind_of_ok ((compileNext_sameInputs_iff hinputs).mpr hcompile)).trans rfl

theorem publish_of_conflict {a : String} (ha : a ∈ ancestorsOf w.memory.parent req.namespaceID)
    (hconflict : w.memory.conflictsWith result.snapshot a ≠ []) :
    ∃ e w', e.IsFQNConflict ∧ (r.publish req).exec w = (.error e, w') ∧ w.SameInputs req.namespaceID w' ∧
      ∀ ns sc, w'.memory.slot ns sc = w.memory.slot ns sc := by
  obtain ⟨w₂, -, hinputs, hslots, hexec⟩ := publish_checks hauthz hrequest hcompile
  have hne : a ≠ req.namespaceID := fun heq => not_mem_ancestorsOf _ _ (heq ▸ ha)
  obtain ⟨-, hnone⟩ | ⟨⟨e, he, hcheck⟩, -⟩ := exec_checkAncestors result.snapshot
    (ancestorsOf w₂.memory.parent req.namespaceID) w₂
  · exact absurd ((hinputs.conflictsWith _ hne).symm.trans (hnone a (hinputs.parent ▸ ha))) hconflict
  · refine ⟨e, w₂, he, ?_, hinputs, hslots⟩
    rw [hexec]
    exact execute_bind_of_error ((exec_checkAncestorFQNConflicts ..).trans hcheck)

theorem publish_stores
    (hnone : ∀ a ∈ ancestorsOf w.memory.parent req.namespaceID, w.memory.conflictsWith result.snapshot a = []) :
    ∃ w₂, World.Ready w₂ req.namespaceID req.schemaID ∧ w.SameInputs req.namespaceID w₂ ∧
      (r.publish req).exec w = (r.storeIfChanged req v result).exec w₂ := by
  obtain ⟨w₂, hready, hinputs, -, hchecks⟩ := publish_checks hauthz hrequest hcompile
  refine ⟨w₂, hready, hinputs, hchecks.trans ?_⟩
  obtain ⟨hcheck, -⟩ | ⟨-, a, ha, hconflict⟩ := exec_checkAncestors result.snapshot
    (ancestorsOf w₂.memory.parent req.namespaceID) w₂
  · exact execute_bind_of_ok ((exec_checkAncestorFQNConflicts _ req.namespaceID w₂).trans hcheck)
  · rw [hinputs.parent] at ha
    have hne : a ≠ req.namespaceID := fun heq => not_mem_ancestorsOf _ _ (heq ▸ ha)
    exact absurd ((hinputs.conflictsWith _ hne).trans (hnone a ha)) hconflict

theorem publish_of_no_conflict
    (hnone : ∀ a ∈ ancestorsOf w.memory.parent req.namespaceID, w.memory.conflictsWith result.snapshot a = [])
    (hexec : (r.publish req).exec w = (.error e, w')) : ¬ e.IsFQNConflict := by
  obtain ⟨w₂, -, -, hstores⟩ := publish_stores hauthz hrequest hcompile hnone
  have herror := hstores.symm.trans hexec
  refine Fails.bind (K := fun e : Err => ¬ e.IsFQNConflict) (fun w₁ e₁ w₂ h₁ => ?_) (fun noChange => ?_) _ _ _ herror
  · cases (exec_isUnchanged ..).symm.trans h₁
  · cases noChange with
    | true => exact .pure _ _
    | false => exact fails_storeVersion _ _ _

end

end Registry

namespace Registry

variable {r : Registry} {req : PublishRequest} {w : World} {s : Session}

theorem conflicts_iff (hlaw : r.env.Lawful) (hw : w.Sound r.env)
    (hcompile : (r.compileNext req).exec w = (.ok (v, result), w)) :
    (∃ a ∈ ancestorsOf w.memory.parent req.namespaceID, w.memory.conflictsWith result.snapshot a ≠ []) ↔
      w.memory.ShadowsAbove req.namespaceID result.snapshot.fileList := by
  have hchild : DisjointNames result.snapshot.fileList := by
    obtain ⟨-, -, deps, tiers, builtins, -, -, -, hcompiled⟩ := compileNext_eq_ok.mp hcompile
    have hvalid := Compiler.compile_spec hcompiled
    rw [hvalid.snapshot]
    exact (hlaw.registrable_of_registerFiles hvalid.registered).disjointNames
  have hcurrent : ∀ a sc snap, w.memory.current a sc = some snap → DisjointNames snap.fileList := by
    intro a sc snap hsnap
    obtain ⟨row, hrow, hperm⟩ := hw.slot (.inl hsnap)
    exact (hlaw.registrable_of_registerFiles (hw.version hrow).2.registered).disjointNames.perm hperm.symm
  refine exists_congr fun a => and_congr_right fun _ => ?_
  rw [Ne, Namespaces.conflictsWith_eq_nil_iff hchild (hcurrent a)]
  push Not
  rfl

theorem not_conflicts_of_publish (hlaw : r.env.Lawful) (hw : w.Sound r.env)
    (h : (r.publish req).exec w = (.ok res, w')) : ¬ r.Conflicts req w := by
  rintro ⟨v, result, hcompile, hshadows⟩
  obtain ⟨hauthz, hrequest, -⟩ := publish_eq_ok h
  obtain ⟨a, ha, hconflict⟩ := (conflicts_iff hlaw hw hcompile).mpr hshadows
  obtain ⟨e, w', -, hexec, -⟩ := publish_of_conflict hauthz hrequest hcompile ha hconflict
  cases hexec.symm.trans h

/-- **Redefining a type of an ancestor** is refused exactly when the request gets as far as the check and some
name is defined under another path, too. -/
theorem redefinition_rejected_iff (defines : String → Bytes → List FullName) (hlaw : r.env.Lawful)
    (hdenials : ∀ ns sc e, r.authz.canPublish ns sc = .error e → ¬ e.IsFQNConflict)
    (hs : Session.Reached r (fun _ _ => True) s) :
    (req.Redefines defines s.world.memory → r.Rejects req s.world) ↔
      (req.Redefines defines s.world.memory → r.authz.canPublish req.namespaceID req.schemaID = .ok () ∧
        r.checkRequest req = .ok () ∧ r.Conflicts req s.world) := by
  refine forall_congr' fun _ => ?_
  have hsound := Session.sound_of_reached hlaw hs
  constructor
  · rintro ⟨e, w', hexec, he, -⟩
    have herror := exec_publish_of_error hexec
    have hauthz : r.authz.canPublish req.namespaceID req.schemaID = .ok () := by
      cases hauthz : r.authz.canPublish req.namespaceID req.schemaID with
      | ok u => rfl
      | error e' =>
        have hdenied := exec_publish_of_denied hauthz s.world
        cases hdenied.symm.trans herror
        exact absurd he (hdenials _ _ _ hauthz)
    have hrequest : r.checkRequest req = .ok () := by
      cases hrequest : r.checkRequest req with
      | ok u => rfl
      | error e' =>
        have hrefused := exec_publish_of_refused hauthz hrequest s.world
        cases hrefused.symm.trans herror
        exact absurd he (not_isFQNConflict_checkRequest hrequest)
    obtain ⟨v, result, hcompile⟩ := compiles_of_conflict hauthz hrequest herror he
    refine ⟨hauthz, hrequest, v, result, hcompile, (conflicts_iff hlaw hsound hcompile).mp ?_⟩
    by_contra hnone
    push Not at hnone
    exact publish_of_no_conflict hauthz hrequest hcompile hnone herror he
  · rintro ⟨hauthz, hrequest, v, result, hcompile, hshadows⟩
    obtain ⟨a, ha, hconflict⟩ := (conflicts_iff hlaw hsound hcompile).mpr hshadows
    obtain ⟨e, w', he, hexec, hinputs, hslots⟩ := publish_of_conflict hauthz hrequest hcompile ha hconflict
    refine ⟨e, w', execute_bind_of_error hexec, he, fun ns sc => ?_, hinputs.pointers, hinputs.versions⟩
    rw [Namespaces.staged, Namespaces.staged, hslots]

end Registry

/-- The parent promotes a message in `b.proto`. -/
def Sample.parentPromoted : Session :=
  (Sample.family ++ [Sample.publishParent [1], .promote "p"]).foldl (·.call Sample.registry) Session.start

theorem Sample.reached_parentPromoted : Session.Reached Sample.registry (fun _ _ => True) Sample.parentPromoted :=
  Session.reached_calls .start _

theorem Sample.parent_parentPromoted : "p" ∈ ancestorsOf Sample.parentPromoted.world.memory.parent "n" := by
  decide +kernel

theorem Sample.current_parentPromoted :
    Sample.parentPromoted.world.memory.current "p" "t" = some ⟨1, [Sample.file "b.proto" [1]]⟩ := rfl

/-- The child defines the parent's message, under a path of its own or under the parent's. -/
def Sample.redefining (schemaID path : String) (source : Bytes) : PublishRequest :=
  { namespaceID := "n", schemaID, sources := Dict.empty.set path source }

theorem Sample.redefines (schemaID path : String) (source : Bytes) (h : ["M1"] ∈ (Sample.file path source).typeNames) :
    (Sample.redefining schemaID path source).Redefines (fun path source => (Sample.file path source).typeNames)
      Sample.parentPromoted.world.memory :=
  ⟨path, source, Dict.get_set_self .., ["M1"], h, "p", Sample.parent_parentPromoted, "t", _,
    Sample.current_parentPromoted, _,
    List.mem_singleton_self _, by decide⟩

theorem Sample.compileNext_apart : ∃ v result,
    (Sample.registry.compileNext (Sample.redefining "s" "a.proto" [1])).exec Sample.parentPromoted.world =
        (.ok (v, result), Sample.parentPromoted.world) ∧ result.snapshot.fileList = [Sample.file "a.proto" [1]] :=
  ⟨_, _, rfl, rfl⟩

/-- The child defines the message in a file of its own. -/
theorem redefinition_rejected_iff_apart :
    (Sample.redefining "s" "a.proto" [1]).Redefines (fun path source => (Sample.file path source).typeNames)
        Sample.parentPromoted.world.memory ∧
      Sample.registry.Rejects (Sample.redefining "s" "a.proto" [1]) Sample.parentPromoted.world := by
  obtain ⟨v, result, hcompile, hfiles⟩ := Sample.compileNext_apart
  have hredefines := Sample.redefines "s" "a.proto" [1] (by decide)
  have hconflicts : Sample.registry.Conflicts (Sample.redefining "s" "a.proto" [1]) Sample.parentPromoted.world := by
    refine ⟨v, result, hcompile, "p", Sample.parent_parentPromoted, "t", _, Sample.current_parentPromoted, ?_⟩
    rw [hfiles]
    exact ⟨_, List.mem_singleton_self _, _, List.mem_singleton_self _, by decide, ["M1"], by decide, by decide⟩
  refine ⟨hredefines, (Registry.redefinition_rejected_iff _ Sample.lawful_env (fun _ _ _ h => by cases h)
    Sample.reached_parentPromoted).mpr (fun _ => ?_) hredefines⟩
  exact ⟨rfl, rfl, hconflicts⟩

/-- The child defines it in a file of the same path. -/
theorem redefinition_accepted :
    (Sample.redefining "t" "b.proto" [1, 2]).Redefines (fun path source => (Sample.file path source).typeNames)
        Sample.parentPromoted.world.memory ∧
      ¬ Sample.registry.Rejects (Sample.redefining "t" "b.proto" [1, 2]) Sample.parentPromoted.world := by
  refine ⟨Sample.redefines "t" "b.proto" [1, 2] (by decide), ?_⟩
  have hstores : storesVersion (Sample.registry.exec (.publish (Sample.redefining "t" "b.proto" [1, 2]))
      Sample.parentPromoted.world).1 = true := by
    decide +kernel
  obtain ⟨res, hres, -⟩ := exists_of_storesVersion hstores
  rintro ⟨e, w', hexec, -⟩
  rw [hexec] at hres
  cases hres

end ProtoRegistry
