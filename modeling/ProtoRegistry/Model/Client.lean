import ProtoRegistry.Model.ClientSnapshot
import ProtoRegistry.Theory.Stateful

/-!
# The client

`client.Resolver`: the snapshot of a namespace and the registries of all its schemas together, filled by
`populate` and kept up to date by `Refresh`. `New` builds one, with one for each ancestor of the namespace
when the server is asked for the chain.
-/

namespace ProtoRegistry.Client

/-! ## The server -/

structure SchemaInfo where
  schemaID : String
  currentVersion : Option Nat
  deriving DecidableEq, Repr

/-- What `ListSchemas` answers, page after page. -/
structure Listing where
  pages : List (List SchemaInfo)
  /-- The error of the request after the last page, if it failed. -/
  failure : Option String

/-- The answers of a server. -/
structure Server where
  listSchemas : String → Listing
  /-- By namespace, schema and version: the version and the set of the response. -/
  getDescriptor : String → String → Nat → Except String (Nat × List FileDescriptor)
  getNamespaceChain : String → Except String (List String)

/-! ## Resolvers -/

structure Config where
  schemas : List String := []
  useServerChain : Bool := false
  parentFiles : FilesChain := .nil
  parentTypes : TypesChain := .nil

def Config.tracksSchema (cfg : Config) (id : String) : Bool := cfg.schemas.isEmpty || cfg.schemas.contains id

structure Aggregate where
  nsFiles : NamespacedFiles
  nsTypes : NamespacedTypes

structure Resolver extends Aggregate where
  ns : String
  cfg : Config
  snapshot : Option NsSnapshot
  ancestors : List Resolver
  fromCache : Bool

namespace Resolver

/-- What a lookup in `nsFiles` reaches. -/
def files (r : Resolver) : FilesChain := .node r.nsFiles r.cfg.parentFiles

/-- What a lookup in `nsTypes` reaches. -/
def types (r : Resolver) : TypesChain := .node r.nsTypes r.cfg.parentTypes

end Resolver

/-! ## Changing the registries of a namespace -/

/-- One round of the loop of `applyToAggregate`. -/
def applyFile (schemaID : String) (fd : FileDescriptor) (agg : Aggregate) : Except ClientErr Aggregate :=
  match agg.nsFiles.updateFile fd with
  | .error e => .error (wrap ("aggregating file " ++ fd.path ++ " from schema " ++ schemaID) e)
  | .ok files => .ok ⟨files, registerFileTypesUpdate agg.nsTypes fd⟩

/-- The files come in the order of a `RangeFiles`, which is not specified. -/
def applyToAggregate (ss : SchemaSnapshot) (order : List FileDescriptor) : StateE Aggregate ClientErr PUnit :=
  order.forM fun fd => StateE.change (applyFile ss.schemaID fd)

def unregisterFile (schemaID path : String) (agg : Aggregate) : Except ClientErr Aggregate :=
  match agg.nsFiles.unregisterFile path with
  | .error e => .error (wrap ("unregister file " ++ path ++ " (schema " ++ schemaID ++ ")") e)
  | .ok files => .ok { agg with nsFiles := files }

/-- The methods `UnregisterMessage`, `UnregisterEnum` and `UnregisterExtension`. -/
def unregisterOfKind (types : NamespacedTypes) (name : FullName) :
    TypeKind → Except RegistryErr NamespacedTypes
  | .message => types.unregisterMessage name
  | .enum => types.unregisterEnum name
  | .extension => types.unregisterExtension name

/-- One round of a loop over the names of a fingerprint. -/
def unregisterName (schemaID : String) (kind : TypeKind) (name : FullName) (agg : Aggregate) :
    Except ClientErr Aggregate :=
  match unregisterOfKind agg.nsTypes name kind with
  | .error e =>
    .error (wrap ("unregister " ++ kind.toText ++ " " ++ name.toText ++ " (schema " ++ schemaID ++ ")") e)
  | .ok types => .ok { agg with nsTypes := types }

def removeFromAggregate (ss : SchemaSnapshot) : StateE Aggregate ClientErr PUnit := do
  ss.aggFingerprint.filePaths.forM fun path => StateE.change (unregisterFile ss.schemaID path)
  ss.aggFingerprint.messages.forM fun name => StateE.change (unregisterName ss.schemaID .message name)
  ss.aggFingerprint.enums.forM fun name => StateE.change (unregisterName ss.schemaID .enum name)
  ss.aggFingerprint.extensions.forM fun name => StateE.change (unregisterName ss.schemaID .extension name)

/-! ## Populating -/

section
variable (env : External) (server : Server)

def listAllSchemas (r : Resolver) : Except String (List SchemaInfo) :=
  match (server.listSchemas r.ns).failure with
  | some e => .error e
  | none =>
    .ok ((server.listSchemas r.ns).pages.flatten.filter fun info => r.cfg.tracksSchema info.schemaID)

def fetchSchema (r : Resolver) (schemaID : String) (version : Nat) : Except ClientErr SchemaSnapshot :=
  match server.getDescriptor r.ns schemaID version with
  | .error e => .error (.error ("get_descriptor " ++ versionText r.ns schemaID version ++ ": " ++ e))
  | .ok (version, fdset) => compileSchema env r.ns schemaID version fdset

/-- One round of the loop of `populate` over the listed schemas. -/
def loadSchema (r : Resolver) (snap : NsSnapshot) (info : SchemaInfo) : Except ClientErr NsSnapshot :=
  match info.currentVersion with
  | none => .ok snap
  | some version => do
    let ss ← fetchSchema env server r info.schemaID version
    return snap.put info.schemaID ss

/-- The last loop of `populate`. The files of a schema come as `newFiles` has delivered them, in any order. -/
def applyAll (snap : NsSnapshot) : StateE Aggregate ClientErr PUnit :=
  snap.sorted.forM fun e => applyToAggregate e.2 e.2.files.rangeFiles

def populate (r : Resolver) : Except ClientErr Resolver :=
  match listAllSchemas server r with
  | .error e => .error (.error ("populating namespace " ++ quote r.ns ++ ": " ++ e))
  | .ok infos => do
    let snap ← infos.foldlM (loadSchema env server r) .new
    let snap ← snap.buildNameIndex
    match (applyAll snap).exec r.toAggregate with
    | (.error e, _) => .error e
    | (.ok (), agg) => .ok { r with toAggregate := agg, snapshot := some snap }

/-! ## Refreshing -/

/-- What `Refresh` has decided about the schemas listed so far. -/
structure RefreshPlan where
  next : NsSnapshot
  added : List SchemaSnapshot
  /-- The old and the new snapshot of each schema whose version changed. -/
  replaced : List (SchemaSnapshot × SchemaSnapshot)

def fetchForRefresh (r : Resolver) (schemaID : String) (version : Nat) : Except ClientErr SchemaSnapshot :=
  (fetchSchema env server r schemaID version).mapError
    (·.context ("refresh fetch " ++ schemaID ++ "@" ++ toString version))

/-- One round of the loop of `Refresh` over the listed schemas. -/
def planSchema (r : Resolver) (plan : RefreshPlan) (info : SchemaInfo) : Except ClientErr RefreshPlan :=
  match info.currentVersion with
  | none => .ok plan
  | some version =>
    match r.snapshot.bind (·.schemas.get info.schemaID) with
    | some existing =>
      if existing.version = version then
        .ok { plan with next := plan.next.put info.schemaID existing }
      else do
        let fresh ← fetchForRefresh env server r info.schemaID version
        return { plan with
          next := plan.next.put info.schemaID fresh
          replaced := plan.replaced ++ [(existing, fresh)] }
    | none => do
      let fresh ← fetchForRefresh env server r info.schemaID version
      return { plan with
        next := plan.next.put info.schemaID fresh
        added := plan.added ++ [fresh] }

/-- The schemas of the current snapshot that the next one lacks, in the order of a loop over the map. -/
def removedBy (order : List String → List String) (cur : Option NsSnapshot) (next : NsSnapshot) : List SchemaSnapshot :=
  match cur with
  | none => []
  | some cur => (order cur.schemas.keys).filterMap fun id =>
      if (next.schemas.get id).isNone then cur.schemas.get id else none

/-- The schemas to apply, in the order of their IDs. -/
def RefreshPlan.toApply (plan : RefreshPlan) : List SchemaSnapshot :=
  (plan.added ++ plan.replaced.map (·.2)).insertionSort fun a b => a.schemaID ≤ b.schemaID

def applyDiff (plan : RefreshPlan) (removed : List SchemaSnapshot) : StateE Aggregate ClientErr PUnit := do
  removed.forM fun ss => (removeFromAggregate ss).mapError (·.context "refresh aggregate remove")
  plan.replaced.forM fun rep =>
    (removeFromAggregate rep.1).mapError (·.context "refresh aggregate replace (remove old)")
  plan.toApply.forM fun ss =>
    (applyToAggregate ss ss.files.rangeFiles).mapError (·.context "refresh aggregate apply")

def errStaleResolver : ClientErr :=
  .error "protoregistry/client: resolver loaded from disk cache; refresh not possible"

/-- `Refresh`: the error it returns, and the resolver it leaves. -/
def refresh (r : Resolver) : Except ClientErr Unit × Resolver :=
  if r.fromCache then (.error errStaleResolver, r) else
    match listAllSchemas server r with
    | .error e => (.error (.error ("refresh list_schemas: " ++ e)), r)
    | .ok infos =>
      match infos.foldlM (planSchema env server r) ⟨.new, [], []⟩ with
      | .error e => (.error e, r)
      | .ok plan =>
        let removed := removedBy env.rangeKeys r.snapshot plan.next
        if plan.added.isEmpty && plan.replaced.isEmpty && removed.isEmpty && r.snapshot.isSome then
          (.ok (), r)
        else
          match plan.next.buildNameIndex with
          | .error e => (.error e, r)
          | .ok next =>
            match (applyDiff plan removed).exec r.toAggregate with
            | (.error e, agg) => (.error e, { r with toAggregate := agg })
            | (.ok (), agg) => (.ok (), { r with toAggregate := agg, snapshot := some next })

/-! ## Construction -/

def newSingleNamespace (ns : String) (cfg : Config) (parent : Option Resolver) :
    Except ClientErr Resolver :=
  let cfg := match parent with
    | none => cfg
    | some p => { cfg with parentFiles := p.files, parentTypes := p.types }
  populate env server
    { ns, cfg, snapshot := none, nsFiles := .new, nsTypes := .new, ancestors := [], fromCache := false }

/-- One round of the loop of `New` over the chain, from the root down. The resolver loaded last is the
parent of the next one. -/
def loadAncestor (cfg : Config) (ancestors : List Resolver) (ns : String) :
    Except ClientErr (List Resolver) := do
  let a ← (newSingleNamespace env server ns cfg ancestors.getLast?).mapError
    (·.context ("protoregistry/client: loading ancestor " ++ ns))
  return ancestors ++ [a]

/-- `New`. -/
def new (ns : String) (cfg : Config) : Except ClientErr Resolver :=
  if ns = "" then .error (.error "protoregistry/client: empty namespace") else
    if !cfg.useServerChain then newSingleNamespace env server ns cfg none else
      match server.getNamespaceChain ns with
      | .error e =>
        .error (.error ("protoregistry/client: fetching namespace chain for " ++ ns ++ ": " ++ e))
      | .ok chain =>
        if chain.head? ≠ some ns then
          .error (.error ("protoregistry/client: malformed chain for " ++ ns ++ ": [" ++
            " ".intercalate chain ++ "]"))
        else do
          let ancestorCfg := { cfg with schemas := [], useServerChain := false }
          let ancestors ← chain.tail.reverse.foldlM (loadAncestor env server ancestorCfg) []
          let main ← newSingleNamespace env server ns cfg ancestors.getLast?
          return { main with ancestors }

end

/-! ## Lookups -/

namespace Resolver

def findMessageByName (r : Resolver) (name : FullName) : Except LookupErr MessageDescriptor :=
  match r.snapshot.bind (·.schemaFor name) with
  | some ss => (TypesChain.node ss.types r.cfg.parentTypes).findMessageByName name
  | none => r.types.findMessageByName name

def findExtensionByName (r : Resolver) (name : FullName) : Except LookupErr FieldDescriptor :=
  match r.snapshot.bind (·.schemaFor name) with
  | some ss => (TypesChain.node ss.types r.cfg.parentTypes).findExtensionByName name
  | none => r.types.findExtensionByName name

def findExtensionByNumber (r : Resolver) (message : FullName) (field : Nat) :
    Except LookupErr FieldDescriptor :=
  r.types.findExtensionByNumber message field

def findFileByPath (r : Resolver) (path : String) : Except LookupErr FileDescriptor :=
  r.files.findFileByPath path

def findDescriptorByName (r : Resolver) (name : FullName) : Except LookupErr Descriptor :=
  match r.snapshot.bind (·.schemaFor name) with
  | some ss => (FilesChain.node ss.files r.cfg.parentFiles).findDescriptorByName name
  | none => r.files.findDescriptorByName name

/-- The registries `RangeMessages` walks, each with the namespace it belongs to and the messages it is
left with. The registry of a configured parent has no namespace. -/
def tiers (r : Resolver) : List (String × List MessageDescriptor) :=
  (r.ns, r.nsTypes.rangeMessages) :: r.ancestors.map (fun a => (a.ns, a.nsTypes.rangeMessages)) ++
    match r.ancestors, r.cfg.parentTypes with
    | [], .global types => [("", types.rangeMessages)]
    | [], .node types _ => [("", types.rangeMessages)]
    | _, _ => []

def rangeMessages (r : Resolver) : List MessageDescriptor := r.tiers.flatMap (·.2)

end Resolver

def findLocalMessage (types : NamespacedTypes) (name : FullName) : Option MessageDescriptor :=
  types.rangeMessages.find? (·.fullName = name)

def findLocalFile (files : NamespacedFiles) (path : String) : Option FileDescriptor :=
  files.rangeFiles.find? (·.path = path)

/-- The lookups with origin: the registry of the namespace, then those of `ancestors`, and without
ancestors the configured parent. -/
def findWithOrigin (r : Resolver) (findLocal : Aggregate → Option α) (findParent : Except LookupErr α) :
    Except LookupErr (α × String) :=
  match (r :: r.ancestors).findSome? fun a => (findLocal a.toAggregate).map fun found => (found, a.ns) with
  | some res => .ok res
  | none =>
    match r.ancestors, findParent with
    | [], .ok found => .ok (found, "")
    | _, _ => .error .notFound

namespace Resolver

def findMessageByNameWithOrigin (r : Resolver) (name : FullName) :
    Except LookupErr (MessageDescriptor × String) :=
  findWithOrigin r (fun agg => findLocalMessage agg.nsTypes name) (r.cfg.parentTypes.findMessageByName name)

def findFileByPathWithOrigin (r : Resolver) (path : String) :
    Except LookupErr (FileDescriptor × String) :=
  findWithOrigin r (fun agg => findLocalFile agg.nsFiles path) (r.cfg.parentFiles.findFileByPath path)

end Resolver

end ProtoRegistry.Client
