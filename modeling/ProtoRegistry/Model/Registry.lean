import ProtoRegistry.Model.Compat
import ProtoRegistry.Model.Namespace
import ProtoRegistry.Model.Store
import ProtoRegistry.Theory.Fallible

/-!
# The registry

Each method of `Registry` is a program over the operations of the store and of the in-memory
namespaces, in the order in which the source performs them. `World.perform` executes one operation of a
call that runs alone, `World.Executes` one of a call that runs beside others.
-/

namespace ProtoRegistry

/-! ## Programs of the registry -/

inductive Op where
  | store (op : StoreOp)
  | mem (op : MemOp)

/-- Calls of the store can fail, accesses to memory cannot. -/
abbrev Op.Res : Op → Type
  | .store op => Except Err op.Val
  | .mem op => op.Val

abbrev registryInterface : Interface := ⟨Op, Op.Res⟩

structure World where
  store : Store
  memory : Namespaces

namespace World

def empty : World := ⟨.empty, .empty⟩

def perform : (op : Op) → World → op.Res × World
  | .store op, w => ((w.store.perform op).1, { w with store := (w.store.perform op).2 })
  | .mem op, w => ((w.memory.perform op).1, { w with memory := (w.memory.perform op).2 })

/-- One operation of a call that runs beside others. It is never blocked, and only the keys of a `Range`
are not determined by the world in which it begins. -/
def Executes : (op : Op) → World → op.Res → World → Prop
  | .mem (.schemaIDs id), w, visited, w' => w.memory.Visits id visited ∧ w' = w
  | op, w, res, w' => perform op w = (res, w')

end World

abbrev RegistryM := ExceptT Err (Prog registryInterface)

namespace RegistryM

def store (op : StoreOp) : RegistryM op.Val :=
  ExceptT.mk (Prog.perform (I := registryInterface) (.store op))

def mem (op : MemOp) : RegistryM op.Val :=
  ExceptT.lift (Prog.perform (I := registryInterface) (.mem op))

/-- `if err != nil { return fmt.Errorf("…: %w", err) }`. -/
def wrap (x : RegistryM α) (context : String) : RegistryM α :=
  ExceptT.mk (x.run >>= fun res => pure (res.mapError (·.wrap context)))

/-- Hand the error to the caller, for the places that do not return it. -/
def attempt (x : RegistryM α) : RegistryM (Except Err α) := ExceptT.lift x.run

/-- Run a program without interference. -/
abbrev exec (x : RegistryM α) (w : World) : Except Err α × World := execute World.perform x w

-- The type of a result computes, so it must not be a key of the simp set.
@[simp] theorem exec_store (op : StoreOp) (w : World) :
    @execute _ _ (no_index op.Val) _ World.perform (store op) w =
      ((w.store.perform op).1, { w with store := (w.store.perform op).2 }) := rfl

@[simp] theorem exec_mem (op : MemOp) (w : World) :
    @execute _ _ (no_index op.Val) _ World.perform (mem op) w =
      (.ok (w.memory.perform op).1, { w with memory := (w.memory.perform op).2 }) := rfl

@[simp] theorem exec_wrap (x : RegistryM α) (context : String) (w : World) :
    exec (x.wrap context) w = ((exec x w).1.mapError (·.wrap context), (exec x w).2) :=
  Prog.exec_bind (I := registryInterface) World.perform x.run _ w

@[simp] theorem exec_attempt (x : RegistryM α) (w : World) :
    exec (attempt x) w = (.ok (exec x w).1, (exec x w).2) :=
  Prog.exec_bind (I := registryInterface) World.perform x.run _ w

end RegistryM

open RegistryM

/-- `authz.Authorizer`. -/
structure Authorizer where
  canCreateNamespace : String → Option String → Except Err Unit
  canSetNamespaceParent : String → Option String → Except Err Unit
  canPublish : String → String → Except Err Unit
  canPromote : String → Except Err Unit
  canRebase : String → String → Except Err Unit

/-- `authz.AllowAll`. -/
def Authorizer.allowAll : Authorizer where
  canCreateNamespace _ _ := .ok ()
  canSetNamespaceParent _ _ := .ok ()
  canPublish _ _ := .ok ()
  canPromote _ := .ok ()
  canRebase _ _ := .ok ()

/-- The configuration of a `Registry`. Its store and its namespaces are the `World`. -/
structure Registry where
  env : External
  compiler : Compiler := {}
  authz : Authorizer := .allowAll

def builtinsNamespace : String := "__builtins__"

/-! ## The parent chain -/

/-- The loop of `Namespace.Chain`, with the iterations left before `chainMaxDepth`. -/
def chainFrom : Nat → String → List String → RegistryM (List String)
  | 0, _, chain => return chain
  | n + 1, cur, chain => do
    if cur ∈ chain then return chain
    match ← mem (.parent cur) with
    | none => return chain ++ [cur]
    | some p => chainFrom n p (chain ++ [cur])

def chainMaxDepth : Nat := 64

def chain (namespaceID : String) : RegistryM (List String) := chainFrom chainMaxDepth namespaceID []

/-! ## Gathering sources -/

/-- The sources of loaded schemas, fetched blob by blob. -/
def gatherSources (namespaceID : String) (context : CurrentSchema → VersionFile → String)
    (schemas : List CurrentSchema) : RegistryM (List DepSource) := do
  let sources ← schemas.mapM fun cs => cs.files.mapM fun f => do
    let blob ← (store (.getBlob namespaceID f.blobSHA256)).wrap (context cs f)
    return (⟨namespaceID, cs.schemaID, cs.version, f.filename, blob⟩ : DepSource)
  return sources.flatten

def gatherDeps (namespaceID schemaID : String) : RegistryM (List DepSource) := do
  let proposed ← store (.loadNamespaceProposed namespaceID)
  gatherSources namespaceID (fun cs f => "fetching blob for " ++ cs.schemaID ++ "/" ++ f.filename)
    (proposed.filter (·.schemaID ≠ schemaID))

def gatherChainTiers (namespaceID : String) : RegistryM (List ChainTier) := do
  (← chain namespaceID).tail.mapM fun ancestorID => do
    let currents ← (store (.loadNamespaceCurrent ancestorID)).wrap
      ("loading current state of ancestor " ++ ancestorID)
    let files ← gatherSources ancestorID
      (fun _ f => "fetching blob " ++ f.filename ++ " from ancestor " ++ ancestorID) currents
    return ⟨ancestorID, files⟩

def gatherBuiltins : RegistryM (List DepSource) := do
  let current ← store (.loadNamespaceCurrent builtinsNamespace)
  gatherSources builtinsNamespace
    (fun cs f => "fetching builtin blob for " ++ cs.schemaID ++ "/" ++ f.filename) current

/-- The builtins a namespace compiles against: none for the builtins themselves. -/
def gatherBuiltinsFor (namespaceID : String) : RegistryM (List DepSource) :=
  if namespaceID ≠ builtinsNamespace then gatherBuiltins else return []

/-! ## Publishing -/

structure PublishRequest where
  namespaceID : String
  schemaID : String
  sources : Sources
  force : Bool := false

structure PublishOpts where
  forceNewVersion : Bool := false

structure PublishResult where
  version : Nat := 0
  fingerprint : String
  snapshot : Option Snapshot := none
  noChange : Bool := false

/-- Create a row that `get` does not find. A failure is ignored when the row is there afterwards: it
may have been created concurrently. -/
def ensureRow (get create : StoreOp) (context : String) : RegistryM Unit := do
  let .error _ ← attempt (store get) | return ()
  let .error e ← attempt (store create) | return ()
  let .error _ ← attempt (store get) | return ()
  throw (e.wrap context)

def ensureNamespaceAndSchema (namespaceID schemaID : String) : RegistryM Unit := do
  ensureRow (.getNamespace namespaceID) (.createNamespace namespaceID none) "creating namespace"
  ensureRow (.getSchema namespaceID schemaID) (.createSchema namespaceID schemaID) "creating schema"

/-- `FQNConflictError.Error`. -/
def fqnConflictText (ancestorNamespaceID : String) (conflicts : List FQNConflict) : String :=
  match conflicts with
  | [c] => "FQN " ++ quote c.fqn.toText ++ " (" ++ c.kind.toText ++
      ") is already defined in namespace " ++ quote ancestorNamespaceID ++ " at " ++ c.ancestorFile
  | cs => toString cs.length ++ " FQNs in namespace " ++ quote ((cs.head?.map (·.fqn.toText)).getD "") ++
      " conflict with ancestor " ++ quote ancestorNamespaceID ++ ": [" ++
      " ".intercalate (cs.map (·.fqn.toText)) ++ "]"

/-- The conflicts of a child with the current schemas of one ancestor. -/
def ancestorConflicts (child : Snapshot) (ancestorID : String) : RegistryM (List FQNConflict) := do
  let conflicts ← (← mem (.schemaIDs ancestorID)).mapM fun schemaID => do
    match ← mem (.current ancestorID schemaID) with
    | none => return []
    | some ancestorSnap => return detectFQNConflicts child ancestorSnap
  return conflicts.flatten

def checkAncestorFQNConflicts (child : Snapshot) (namespaceID : String) : RegistryM Unit := do
  (← chain namespaceID).tail.forM fun ancestorID => do
    let allConflicts ← ancestorConflicts child ancestorID
    unless allConflicts.isEmpty do
      throw ⟨fqnConflictText ancestorID allConflicts, .fqnConflict ancestorID allConflicts⟩

def isUnchanged (env : External) (namespaceID schemaID fingerprint : String) : RegistryM Bool := do
  let .ok schema ← attempt (store (.getSchema namespaceID schemaID)) | return false
  let some checkVersion := schema.proposed | return false
  let .ok files ← attempt (store (.getVersionFiles namespaceID schemaID checkVersion)) | return false
  return computeFingerprint env (files.map fun f => ⟨f.filename, f.blobSHA256, []⟩) = fingerprint

namespace Registry

variable (r : Registry)

/-- The checks of a request that need neither the store nor memory. -/
def checkRequest (req : PublishRequest) : Except Err Unit := do
  if req.sources.keys.isEmpty then
    throw { text := "no source files provided" }
  unless req.force do
    if let some filename := req.sources.keys.find? (isWellKnownType r.env) then
      throw { text := "file " ++ quote filename ++ " shadows a well-known type; use force=true to override" }

theorem checkRequest_eq_ok {r : Registry} {req : PublishRequest} (h : r.checkRequest req = .ok ()) :
    req.sources.keys ≠ [] := by
  intro hkeys
  rw [checkRequest, hkeys] at h
  cases h

def nextVersion (versions : List Nat) : Nat :=
  match versions.getLast? with
  | none => 1
  | some v => v + 1

/-- The first part of `publishInternal`: allocate a version and compile it against the resolved
chain. -/
def compileNext (req : PublishRequest) : RegistryM (Nat × CompileResult) := do
  let deps ← (gatherDeps req.namespaceID req.schemaID).wrap "gathering dependencies"
  let chainTiers ← (gatherChainTiers req.namespaceID).wrap "gathering parent chain"
  let builtins ← (gatherBuiltinsFor req.namespaceID).wrap "gathering builtins"
  let versions ← (store (.listVersions req.namespaceID req.schemaID)).wrap "listing versions"
  let nextVersion := nextVersion versions
  let result ← liftExcept <|
    (r.compiler.compile r.env nextVersion req.sources deps chainTiers builtins).mapError fun e =>
      ({ text := "compilation failed: " ++ e } : Err)
  return (nextVersion, result)

/-- The last part of `publishInternal`: store the compiled version and stage it. -/
def storeVersion (req : PublishRequest) (nextVersion : Nat) (result : CompileResult)
    (fingerprint : String) : RegistryM PublishResult := do
  result.files.forM fun f =>
    (store (.putBlob req.namespaceID f.blobSHA256 f.originalSource)).wrap
      ("storing blob for " ++ f.filename)
  let row : VersionRow := {
    compiled := result.compiled
    compilerVersion := r.env.compilerVersion
    files := result.files.map fun f => ⟨f.filename, f.blobSHA256⟩
    deps := result.deps }
  (store (.putVersion req.namespaceID req.schemaID nextVersion row)).wrap "storing version"
  (store (.setStaged req.namespaceID req.schemaID nextVersion)).wrap "staging version"
  mem (.setStaged req.namespaceID req.schemaID result.snapshot)
  return { version := nextVersion, fingerprint, snapshot := some result.snapshot }

def publishInternal (req : PublishRequest) (opts : PublishOpts) : RegistryM PublishResult := do
  liftExcept (r.checkRequest req)
  ensureNamespaceAndSchema req.namespaceID req.schemaID
  mem (.getOrCreate req.namespaceID)
  let (nextVersion, result) ← r.compileNext req
  checkAncestorFQNConflicts result.snapshot req.namespaceID
  let fingerprint := computeFingerprint r.env result.files
  let noChange ← (if opts.forceNewVersion then pure false else
    isUnchanged r.env req.namespaceID req.schemaID fingerprint)
  if noChange then return { noChange, fingerprint }
  r.storeVersion req nextVersion result fingerprint

def publish (req : PublishRequest) : RegistryM PublishResult := do
  liftExcept (r.authz.canPublish req.namespaceID req.schemaID)
  r.publishInternal req {}

/-! ## Promotion -/

/-- The check of one schema before promotion. A staged version that is not newer than the current one
is a rollback and is not checked. -/
def checkStaged (namespaceID schemaID : String) : RegistryM Unit := do
  let some staged ← mem (.staged namespaceID schemaID) | return ()
  let current ← mem (.current namespaceID schemaID)
  if ∃ c ∈ current, staged.version ≤ c.version then return ()
  let result := Compat.check current staged
  unless result.isEmpty do
    throw { text := "compatibility check failed for " ++ namespaceID ++ "/" ++ schemaID ++ ": " ++
      Compat.errorText result }

/-- `Namespace.Promote` on one slot. -/
def promoteSlot (namespaceID schemaID : String) : RegistryM Unit := do
  let some staged ← mem (.swapStaged namespaceID schemaID) | return ()
  mem (.storeCurrent namespaceID schemaID staged)

def promote (namespaceID : String) : RegistryM (List PromotedSchema) := do
  liftExcept (r.authz.canPromote namespaceID)
  unless ← mem (.get namespaceID) do
    throw { text := "namespace " ++ namespaceID ++ " not found" }
  (← mem (.schemaIDs namespaceID)).forM (checkStaged namespaceID)
  let promoted ← (store (.promote namespaceID)).wrap "promoting"
  (← mem (.schemaIDs namespaceID)).forM (promoteSlot namespaceID)
  return promoted

def discardStaging (namespaceID : String) : RegistryM Unit := do
  (store (.discardStaging namespaceID)).wrap "discarding staging"
  if ← mem (.get namespaceID) then
    (← mem (.schemaIDs namespaceID)).forM fun schemaID => mem (.clearStaged namespaceID schemaID)

/-! ## Rollback and rebase -/

/-- `Registry.Current`. -/
def current (namespaceID schemaID : String) : RegistryM (Option Snapshot) := do
  if ← mem (.get namespaceID) then mem (.current namespaceID schemaID) else return none

/-- `Registry.Staged`. -/
def staged (namespaceID schemaID : String) : RegistryM (Option Snapshot) := do
  if ← mem (.get namespaceID) then mem (.staged namespaceID schemaID) else return none

def checkRollback (namespaceID schemaID : String) (snap : Snapshot) : RegistryM Unit := do
  let some cur ← current namespaceID schemaID | return ()
  let result := Compat.check (some cur) snap
  unless result.isEmpty do
    throw { text := "rollback to version " ++ toString snap.version ++ " would break consumers of " ++
      namespaceID ++ "/" ++ schemaID ++ ": " ++ Compat.errorText result ++
      "; pass force=true to override" }

def rollback (namespaceID schemaID : String) (version : Nat) (force : Bool) : RegistryM Unit := do
  let ver ← (store (.getVersion namespaceID schemaID version)).wrap
    ("getting version " ++ toString version)
  let snap ← liftExcept <| (Snapshot.new r.env version ver.compiled).mapError fun e =>
    ({ text := "building snapshot: " ++ e } : Err)
  unless force do checkRollback namespaceID schemaID snap
  (store (.setStaged namespaceID schemaID version)).wrap
    ("setting staged to version " ++ toString version)
  mem (.getOrCreate namespaceID)
  mem (.setStaged namespaceID schemaID snap)

def fetchSources (namespaceID context : String) (files : List VersionFile) : RegistryM Sources := do
  let entries ← files.mapM fun f => do
    let blob ← (store (.getBlob namespaceID f.blobSHA256)).wrap (context ++ f.blobSHA256)
    return (f.filename, blob)
  return entries.foldl (fun sources e => sources.set e.1 e.2) .empty

def rebase (namespaceID schemaID : String) : RegistryM PublishResult := do
  liftExcept (r.authz.canRebase namespaceID "")
  unless ← mem (.get namespaceID) do
    throw { text := "namespace " ++ namespaceID ++ " not found" }
  let some cur ← mem (.current namespaceID schemaID)
    | throw { text := "schema " ++ namespaceID ++ "/" ++ schemaID ++
        " has no current version to rebase" }
  let files ← (store (.getVersionFiles namespaceID schemaID cur.version)).wrap "loading version files"
  let sources ← fetchSources namespaceID "loading blob " files
  r.publishInternal { namespaceID, schemaID, sources } { forceNewVersion := true }

structure ParentPinStatus where
  parentNamespaceID : String
  depSchemaID : String
  depFilename : String
  pinnedVersion : Nat
  /-- Zero when the parent has no current version of the schema. -/
  currentVersion : Nat
  deriving DecidableEq, Repr

structure RebaseStatus where
  pinStatuses : List ParentPinStatus
  rebaseAvailable : Bool
  deriving DecidableEq, Repr

def pinStatus (d : Dep) : RegistryM ParentPinStatus := do
  let parentSchema ← attempt (store (.getSchema d.depNamespaceID d.depSchemaID))
  let currentVersion := match parentSchema with
    | .ok row => row.currentVersion.getD 0
    | .error _ => 0
  return ⟨d.depNamespaceID, d.depSchemaID, d.depFilename, d.depVersion, currentVersion⟩

def getRebaseStatus (namespaceID schemaID : String) : RegistryM RebaseStatus := do
  unless ← mem (.get namespaceID) do
    throw { text := "namespace " ++ namespaceID ++ " not found" }
  let some cur ← mem (.current namespaceID schemaID)
    | throw { text := "schema " ++ namespaceID ++ "/" ++ schemaID ++ " has no current version" }
  let deps ← (store (.getVersionDeps namespaceID schemaID cur.version)).wrap
    ("loading deps for " ++ namespaceID ++ "/" ++ schemaID ++ "@" ++ toString cur.version)
  let statuses ← (deps.filter (·.depNamespaceID ≠ namespaceID)).mapM pinStatus
  return ⟨statuses, statuses.any fun ps => ps.pinnedVersion < ps.currentVersion⟩

/-! ## The hierarchy -/

def createNamespace (namespaceID : String) (parentID : Option String) (actorID : String) :
    RegistryM Unit := do
  liftExcept (r.authz.canCreateNamespace namespaceID parentID)
  (store (.createNamespace namespaceID none)).wrap ("creating namespace " ++ namespaceID)
  mem (.getOrCreate namespaceID)
  let some p := parentID | return ()
  (store (.setNamespaceParent namespaceID parentID actorID)).wrap "setting parent on new namespace"
  unless ← mem (.get p) do mem (.getOrCreate p)
  mem (.setParent namespaceID parentID)

def setNamespaceParent (namespaceID : String) (parentID : Option String) (actorID : String) :
    RegistryM Unit := do
  liftExcept (r.authz.canSetNamespaceParent namespaceID parentID)
  store (.setNamespaceParent namespaceID parentID actorID)
  mem (.getOrCreate namespaceID)
  if let some p := parentID then mem (.getOrCreate p)
  mem (.setParent namespaceID parentID)

def getNamespaceChain (namespaceID : String) : RegistryM (List String) := do
  unless ← mem (.get namespaceID) do
    throw { text := "namespace " ++ namespaceID ++ " not found" }
  chain namespaceID

/-! ## Recovery -/

/-- The snapshot of a stored version: from its descriptors when this build compiled it, by compiling
its sources again otherwise. -/
def buildSnapshot (cs : CurrentSchema) (compilerVer : String) : RegistryM Snapshot := do
  if cs.compilerVersion = compilerVer then
    liftExcept ((Snapshot.new r.env cs.version cs.compiled).mapError fun e => ({ text := e } : Err))
  else
    let sources ← fetchSources cs.namespaceID "fetching blob " cs.files
    let deps ← (gatherDeps cs.namespaceID cs.schemaID).wrap "gathering deps for recompile"
    mem (.getOrCreate cs.namespaceID)
    let chainTiers ← (gatherChainTiers cs.namespaceID).wrap "gathering parent chain for recompile"
    let builtins ← (gatherBuiltinsFor cs.namespaceID).wrap "gathering builtins for recompile"
    let result ← liftExcept <|
      (r.compiler.compile r.env cs.version sources deps chainTiers builtins).mapError fun e =>
        ({ text := "recompiling: " ++ e } : Err)
    return result.snapshot

def restoreParent (n : String × NamespaceRow) : RegistryM Unit := do
  let some p := n.2.parentNamespaceID | return ()
  unless ← mem (.get p) do
    throw { text := "namespace " ++ n.1 ++ " references unknown parent " ++ p }
  mem (.setParent n.1 (some p))

def restoreSchema (compilerVer : String) (cs : CurrentSchema) : RegistryM Unit := do
  let snap ← (r.buildSnapshot cs compilerVer).wrap
    ("restoring " ++ cs.namespaceID ++ "/" ++ cs.schemaID ++ "@" ++ toString cs.version)
  mem (.getOrCreate cs.namespaceID)
  let _ ← mem (.setCurrent cs.namespaceID cs.schemaID snap)

def restore : RegistryM Unit := do
  let nsRows ← (store .listNamespaces).wrap "listing namespaces"
  nsRows.forM fun n => mem (.getOrCreate n.1)
  nsRows.forM restoreParent
  let schemas ← (store .loadAllCurrent).wrap "loading current schemas"
  schemas.forM (r.restoreSchema r.env.compilerVersion)

end Registry

/-! ## Calls -/

/-- The calls of a `Registry` that change its state. -/
inductive Call where
  | publish (req : PublishRequest)
  | rebase (namespaceID schemaID : String)
  | rollback (namespaceID schemaID : String) (version : Nat) (force : Bool)
  | discardStaging (namespaceID : String)
  | promote (namespaceID : String)
  | createNamespace (namespaceID : String) (parentID : Option String) (actorID : String)
  | setNamespaceParent (namespaceID : String) (parentID : Option String) (actorID : String)

inductive Reply where
  | published (res : PublishResult)
  | promoted (schemas : List PromotedSchema)
  | done

def Registry.run (r : Registry) : Call → RegistryM Reply
  | .publish req => return .published (← r.publish req)
  | .rebase ns sc => return .published (← r.rebase ns sc)
  | .rollback ns sc v force => do r.rollback ns sc v force; return .done
  | .discardStaging ns => do discardStaging ns; return .done
  | .promote ns => return .promoted (← r.promote ns)
  | .createNamespace ns p actor => do r.createNamespace ns p actor; return .done
  | .setNamespaceParent ns p actor => do r.setNamespaceParent ns p actor; return .done

def Registry.exec (r : Registry) (c : Call) (w : World) : Except Err Reply × World :=
  (r.run c).exec w

/-- The world after a list of calls, executed one after another. -/
def Registry.runAll (r : Registry) (calls : List Call) (w : World) : World :=
  calls.foldl (fun w c => (r.exec c w).2) w

@[simp] theorem Registry.runAll_append (r : Registry) (calls : List Call) (c : Call) (w : World) :
    r.runAll (calls ++ [c]) w = (r.exec c (r.runAll calls w)).2 := by
  simp [runAll]

/-- Execute an operation when the call of the store with number `n` fails with the error `fails n`. A call
that fails has no effect. -/
def World.performFailing (fails : Nat → Option Err) : (op : Op) → World × Nat → op.Res × (World × Nat)
  | .store op, (w, n) =>
    match fails n with
    | some e => (.error e, (w, n + 1))
    | none => ((w.perform (.store op)).1, ((w.perform (.store op)).2, n + 1))
  | .mem op, (w, n) => ((w.perform (.mem op)).1, ((w.perform (.mem op)).2, n))

/-- A call executed without interference, over a store whose calls fail as `fails` says. -/
def Registry.execFailing (r : Registry) (fails : Nat → Option Err) (c : Call) (w : World) :
    Except Err Reply × World :=
  let res := execute (World.performFailing fails) (r.run c) (w, 0)
  (res.1, res.2.1)

/-- A process restart: a new `Registry` over the same store, and `Restore`. -/
def Registry.restart (r : Registry) (w : World) : Except Err Unit × World :=
  r.restore.exec { w with memory := .empty }

end ProtoRegistry
