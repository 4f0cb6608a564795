import ProtoRegistry.Model.Client

/-!
# The disk cache of a client

`client/cache.go`. A `Disk` is what lies in the cache directory: the manifest of each namespace, and the
descriptor sets of its schemas. What is written can be read back.
-/

namespace ProtoRegistry.Client

structure CacheSchemaManifest where
  schemaID : String
  version : Nat
  file : String
  deriving DecidableEq, Repr

structure CacheManifest where
  version : Nat
  «namespace» : String
  schemas : List CacheSchemaManifest
  serverChain : List String
  deriving DecidableEq, Repr

def cacheManifestVersion : Nat := 1

structure Disk where
  /-- By namespace: `<namespace>/manifest.json`. -/
  manifests : Dict String CacheManifest := .empty
  /-- By namespace and file: `<namespace>/schemas/<file>`. -/
  schemas : Dict (String × String) (List FileDescriptor) := .empty

/-! ## Writing -/

def cacheFile (id : String) (version : Nat) : String := id ++ "@" ++ toString version ++ ".pb"

/-- The schemas of a snapshot that `persist` writes, in the order of their IDs. A set without files has no
bytes, and is left out. -/
def NsSnapshot.cached (snap : NsSnapshot) : List (String × SchemaSnapshot) :=
  snap.sorted.filter fun e => !e.2.rawDescriptorSet.isEmpty

def cacheManifest (ns : String) (chain : List String) (snap : NsSnapshot) : CacheManifest :=
  ⟨cacheManifestVersion, ns, snap.cached.map fun e => ⟨e.1, e.2.version, cacheFile e.1 e.2.version⟩, chain⟩

def Disk.writeSchema (disk : Disk) (ns : String) (e : String × SchemaSnapshot) : Disk :=
  { disk with schemas := disk.schemas.set (ns, cacheFile e.1 e.2.version) e.2.rawDescriptorSet }

def Disk.writeManifest (disk : Disk) (man : CacheManifest) : Disk :=
  { disk with manifests := disk.manifests.set man.namespace man }

/-- What `persist` writes for a namespace before it goes on to the ancestors. -/
def Disk.write (disk : Disk) (ns : String) (chain : List String) (snap : NsSnapshot) : Disk :=
  (snap.cached.foldl (·.writeSchema ns) disk).writeManifest (cacheManifest ns chain snap)

mutual
/-- `persist`, with a cache directory. A namespace without schemas is not written, nor are its ancestors. -/
def Resolver.persist : Resolver → Disk → Disk
  | ⟨_, ns, _, snapshot, ancestors, _⟩, disk =>
    match snapshot with
    | none => disk
    | some snap =>
      if snap.schemas.keys.isEmpty then disk else
        persistAll ancestors
          (disk.write ns (if ancestors.isEmpty then [] else ns :: ancestors.map (·.ns)) snap)
def persistAll : List Resolver → Disk → Disk
  | [], disk => disk
  | a :: rest, disk => persistAll rest (a.persist disk)
end

/-! ## Reading -/

def readManifest (disk : Disk) (ns : String) : Except ClientErr CacheManifest :=
  let path := ns ++ "/manifest.json"
  match disk.manifests.get ns with
  | none => .error (.error ("read manifest " ++ path ++ ": file does not exist"))
  | some man =>
    if man.version ≠ cacheManifestVersion then
      .error (.error ("manifest " ++ path ++ " has version " ++ toString man.version ++ "; want " ++
        toString cacheManifestVersion))
    else if man.namespace ≠ ns then
      .error (.error ("manifest " ++ path ++ " namespace mismatch: got " ++ quote man.namespace ++
        " want " ++ quote ns))
    else .ok man

/-- `file == filepath.Base(file)`. -/
def isBase (file : String) : Bool := file = "/" || (file ≠ "" && !file.toList.contains '/')

section
variable (env : External) (disk : Disk)

/-- One round of the loop of `loadSingleNamespaceFromCache` over the schemas of the manifest. -/
def loadCachedSchema (r : Resolver) (snap : NsSnapshot) (sm : CacheSchemaManifest) : Except ClientErr NsSnapshot :=
  if !r.cfg.tracksSchema sm.schemaID then .ok snap
  else if !isBase sm.file then
    .error (.error ("cached schema file name " ++ quote sm.file ++ " contains path separators"))
  else
    let path := r.ns ++ "/schemas/" ++ sm.file
    match disk.schemas.get (r.ns, sm.file) with
    | none => .error (.error ("read cached schema " ++ path ++ ": file does not exist"))
    | some raw => do
      let ss ← (compileSchema env r.ns sm.schemaID sm.version raw).mapError
        (·.context ("compile cached schema " ++ path))
      return snap.put sm.schemaID ss

def loadSingleNamespaceFromCache (ns : String) (cfg : Config) (parent : Option Resolver) :
    Except ClientErr Resolver := do
  let man ← readManifest disk ns
  let cfg := match parent with
    | none => cfg
    | some p => { cfg with parentFiles := p.files, parentTypes := p.types }
  let r : Resolver :=
    { ns, cfg, snapshot := none, nsFiles := .new, nsTypes := .new, ancestors := [], fromCache := true }
  let snap ← man.schemas.foldlM (loadCachedSchema env disk r) .new
  let snap ← snap.buildNameIndex
  match (applyAll snap).exec r.toAggregate with
  | (.error e, _) => .error e
  | (.ok (), agg) => .ok { r with toAggregate := agg, snapshot := some snap }

/-- One round of the loop of `loadFromCache` over the recorded chain, from its end. -/
def loadCachedAncestor (cfg : Config) (ancestors : List Resolver) (ns : String) :
    Except ClientErr (List Resolver) := do
  let a ← (loadSingleNamespaceFromCache env disk ns cfg ancestors.getLast?).mapError
    (·.context ("loading cached ancestor " ++ ns))
  return ancestors ++ [a]

def loadFromCache (ns : String) (cfg : Config) : Except ClientErr Resolver := do
  let mainMan ← readManifest disk ns
  if !cfg.useServerChain || mainMan.serverChain.length ≤ 1 then
    loadSingleNamespaceFromCache env disk ns cfg none
  else
    let ancestorCfg := { cfg with schemas := [], useServerChain := false }
    let ancestors ← mainMan.serverChain.tail.reverse.foldlM (loadCachedAncestor env disk ancestorCfg) []
    let main ← loadSingleNamespaceFromCache env disk ns cfg ancestors.getLast?
    return { main with ancestors }

end

end ProtoRegistry.Client
