import ProtoRegistry.Model.Cache
import ProtoRegistry.Theory.Fallible

/-!
# The disk cache as files

`client/cache.go` down to its calls of the operating system, for processes that share a cache directory. A process
may be stopped between any two calls, and every call may fail.
-/

namespace ProtoRegistry.Client

/-! ## The cache directory -/

/-- The files that are read: `<namespace>/manifest.json` and `<namespace>/schemas/<file>`. -/
inductive CachePath where
  | manifest (ns : String)
  | schema (ns file : String)
  deriving DecidableEq, Repr

/-- The calls of the operating system. A temporary file stands for its name, which ends in `.tmp` and is never
given out twice. -/
inductive FsOp where
  | mkdirAll (ns : String)
  | createTemp (path : CachePath)
  | write (tmp : Nat) (data : Bytes)
  | sync (tmp : Nat)
  | close (tmp : Nat)
  | rename (tmp : Nat) (path : CachePath)
  | stat (tmp : Nat)
  | remove (tmp : Nat)
  | readFile (path : CachePath)

inductive FsErr where
  | notExist
  | io (text : String)
  deriving DecidableEq, Repr

def FsErr.text : FsErr → String
  | .notExist => "file does not exist"
  | .io text => text

abbrev FsOp.Val : FsOp → Type
  | .createTemp _ => Nat
  | .readFile _ => Bytes
  | _ => Unit

abbrev FsOp.Res (op : FsOp) : Type := Except FsErr op.Val

def fsInterface : Interface := ⟨FsOp, FsOp.Res⟩

structure Fs where
  files : Dict CachePath Bytes := .empty
  temps : Dict Nat Bytes := .empty
  /-- The next temporary file. -/
  next : Nat := 0

/-- A call that does not fail. What is written to a file that was removed is not seen. -/
def Fs.perform : (op : FsOp) → Fs → op.Res × Fs
  | .mkdirAll _, s => (.ok (), s)
  | .createTemp _, s => (.ok s.next, { s with temps := s.temps.set s.next [], next := s.next + 1 })
  | .write t data, s =>
    match s.temps.get t with
    | none => (.ok (), s)
    | some old => (.ok (), { s with temps := s.temps.set t (old ++ data) })
  | .sync _, s => (.ok (), s)
  | .close _, s => (.ok (), s)
  | .rename t path, s =>
    match s.temps.get t with
    | none => (.error .notExist, s)
    | some data => (.ok (), { s with files := s.files.set path data, temps := s.temps.delete t })
  | .stat t, s => if (s.temps.get t).isSome then (.ok (), s) else (.error .notExist, s)
  | .remove t, s =>
    if (s.temps.get t).isSome then (.ok (), { s with temps := s.temps.delete t }) else (.error .notExist, s)
  | .readFile path, s =>
    match s.files.get path with
    | none => (.error .notExist, s)
    | some data => (.ok data, s)

/-- A call is executed or fails. A write that fails may have written a part. -/
def Fs.MayFail (op : FsOp) (s : Fs) (res : op.Res) (s' : Fs) : Prop :=
  s.perform op = (res, s') ∨ (∃ e, res = .error (.io e)) ∧
    (s' = s ∨ ∃ t data n old, op = .write t data ∧ s.temps.get t = some old ∧
      s' = { s with temps := s.temps.set t (old ++ data.take n) })

/-! ## Writing -/

/-- `encoding/json` for manifests, and the wire format of descriptor sets. -/
structure CacheExternal where
  marshalManifest : CacheManifest → Bytes
  unmarshalManifest : Bytes → Except String CacheManifest
  marshalSet : List FileDescriptor → Bytes
  unmarshalSet : Bytes → Except String (List FileDescriptor)

abbrev FsM := ExceptT FsErr (Prog fsInterface)

abbrev CacheM := ExceptT ClientErr (Prog fsInterface)

def fs (op : FsOp) : FsM op.Val := ExceptT.mk (Prog.perform (I := fsInterface) op)

/-- Run `x` and go on with its result or its error. -/
def attemptFs (x : FsM α) : FsM (Except FsErr α) := ExceptT.lift x.run

/-- `fmt.Errorf("<text>: %w", err)`. -/
def inContext (text : String) (x : FsM α) : CacheM α :=
  ExceptT.mk (x.run >>= fun res => pure (res.mapError fun e => .error (text ++ ": " ++ e.text)))

def wrapContext (text : String) (x : CacheM α) : CacheM α :=
  ExceptT.mk (x.run >>= fun res => pure (res.mapError (·.context text)))

/-- If `x` fails, close the file and return the error. -/
def orClose (tmp : Nat) (x : FsM Unit) : FsM Unit := do
  let .error e ← attemptFs x | return ()
  let _ ← attemptFs (fs (.close tmp))
  throw e

def atomicWrite (path : CachePath) (data : Bytes) : FsM Unit := do
  let tmp ← fs (.createTemp path)
  let res ← attemptFs (do
    orClose tmp (fs (.write tmp data))
    orClose tmp (fs (.sync tmp))
    fs (.close tmp)
    fs (.rename tmp path))
  -- the deferred function
  let .ok _ ← attemptFs (fs (.stat tmp)) | liftExcept res
  let _ ← attemptFs (fs (.remove tmp))
  liftExcept res

section
variable (ext : CacheExternal)

/-- One round of the loop of `persist` over the schemas. -/
def writeSchemaFile (ns : String) (e : String × SchemaSnapshot) : CacheM Unit :=
  let fname := cacheFile e.1 e.2.version
  inContext ("write schema cache " ++ ns ++ "/schemas/" ++ fname)
    (atomicWrite (.schema ns fname) (ext.marshalSet e.2.rawDescriptorSet))

def writeNamespace (ns : String) (chain : List String) (snap : NsSnapshot) : CacheM Unit := do
  inContext ("creating cache dir " ++ ns ++ "/schemas") (fs (.mkdirAll ns))
  snap.cached.forM (writeSchemaFile ext ns)
  inContext ("write manifest " ++ ns ++ "/manifest.json")
    (atomicWrite (.manifest ns) (ext.marshalManifest (cacheManifest ns chain snap)))

mutual
/-- `persist`, with a cache directory. -/
def Resolver.persistFiles : Resolver → CacheM Unit
  | ⟨_, ns, _, snapshot, ancestors, _⟩ =>
    match snapshot with
    | none => pure ()
    | some snap =>
      if snap.schemas.keys.isEmpty then pure () else do
        writeNamespace ext ns (if ancestors.isEmpty then [] else ns :: ancestors.map (·.ns)) snap
        persistAllFiles ancestors
def persistAllFiles : List Resolver → CacheM Unit
  | [] => pure ()
  | a :: rest => do
    wrapContext ("persist ancestor " ++ a.ns) a.persistFiles
    persistAllFiles rest
end

/-! ## Reading -/

def readManifestFile (ns : String) : CacheM CacheManifest := do
  let path := ns ++ "/manifest.json"
  let bytes ← inContext ("read manifest " ++ path) (fs (.readFile (.manifest ns)))
  let man ← liftExcept ((ext.unmarshalManifest bytes).mapError fun e =>
    ClientErr.error ("unmarshal manifest " ++ path ++ ": " ++ e))
  if man.version ≠ cacheManifestVersion then
    throw (.error ("manifest " ++ path ++ " has version " ++ toString man.version ++ "; want " ++
      toString cacheManifestVersion))
  if man.namespace ≠ ns then
    throw (.error ("manifest " ++ path ++ " namespace mismatch: got " ++ quote man.namespace ++ " want " ++ quote ns))
  return man

variable (env : External)

/-- One round of the loop of `loadSingleNamespaceFromCache` over the schemas of the manifest. -/
def loadSchemaFile (r : Resolver) (snap : NsSnapshot) (sm : CacheSchemaManifest) : CacheM NsSnapshot := do
  if !r.cfg.tracksSchema sm.schemaID then return snap
  if !isBase sm.file then
    throw (.error ("cached schema file name " ++ quote sm.file ++ " contains path separators"))
  let path := r.ns ++ "/schemas/" ++ sm.file
  let bytes ← inContext ("read cached schema " ++ path) (fs (.readFile (.schema r.ns sm.file)))
  let raw ← liftExcept ((ext.unmarshalSet bytes).mapError fun e =>
    ClientErr.error ("unmarshal cached schema " ++ path ++ ": " ++ e))
  let ss ← liftExcept ((compileSchema env r.ns sm.schemaID sm.version raw).mapError
    (·.context ("compile cached schema " ++ path)))
  return snap.put sm.schemaID ss

/-- `loadSingleNamespaceFromCache`. -/
def loadNamespaceFiles (ns : String) (cfg : Config) (parent : Option Resolver) : CacheM Resolver := do
  let man ← readManifestFile ext ns
  let cfg := match parent with
    | none => cfg
    | some p => { cfg with parentFiles := p.files, parentTypes := p.types }
  let r : Resolver :=
    { ns, cfg, snapshot := none, nsFiles := .new, nsTypes := .new, ancestors := [], fromCache := true }
  let snap ← man.schemas.foldlM (loadSchemaFile ext env r) .new
  let snap ← liftExcept snap.buildNameIndex
  match (applyAll snap).exec r.toAggregate with
  | (.error e, _) => throw e
  | (.ok (), agg) => return { r with toAggregate := agg, snapshot := some snap }

/-- One round of the loop of `loadFromCache` over the recorded chain, from its end. -/
def loadAncestorFiles (cfg : Config) (ancestors : List Resolver) (ns : String) : CacheM (List Resolver) := do
  let a ← wrapContext ("loading cached ancestor " ++ ns) (loadNamespaceFiles ext env ns cfg ancestors.getLast?)
  return ancestors ++ [a]

/-- `loadFromCache`. -/
def loadFiles (ns : String) (cfg : Config) : CacheM Resolver := do
  let mainMan ← readManifestFile ext ns
  if !cfg.useServerChain || mainMan.serverChain.length ≤ 1 then
    loadNamespaceFiles ext env ns cfg none
  else
    let ancestorCfg := { cfg with schemas := [], useServerChain := false }
    let ancestors ← mainMan.serverChain.tail.reverse.foldlM (loadAncestorFiles ext env ancestorCfg) []
    let main ← loadNamespaceFiles ext env ns cfg ancestors.getLast?
    return { main with ancestors }

/-- Processes that share a cache directory: some write, others read. -/
def cachePool (writers : List Resolver) (readers : List (String × Config)) (s : Fs) :
    Pool fsInterface (Except ClientErr (Option Resolver)) Fs where
  state := s
  threads := writers.map (fun r => (do r.persistFiles ext; return none : CacheM (Option Resolver)).run) ++
    readers.map fun l => (do return some (← loadFiles ext env l.1 l.2) : CacheM (Option Resolver)).run
  trace := []

end

end ProtoRegistry.Client
