import ProtoRegistry.Model.Cache

/-!
# Resolvers with and without a connection

`Dial`, `Pin` and `GetSource` of the client, and the resolvers that a process holds. The field `rpc` of a
resolver, and of each of its ancestors, is nil when it was loaded from the disk cache. A method called on it
does not return then.
-/

namespace ProtoRegistry.Client

/-- A server with its `GetSource`: by namespace, schema and version, the files of the version. -/
structure SourceServer extends Server where
  getSource : String → String → Nat → Except String (Dict String Bytes)

/-- What an operation ends with when it does not succeed. -/
inductive CallErr where
  | client (e : ClientErr)
  /-- A method was called on a nil `rpc`. -/
  | nilClient
  deriving DecidableEq, Repr

structure Handle where
  resolver : Resolver
  /-- `rpc` is not nil. -/
  rpc : Bool
  /-- The same for each ancestor, in their order. -/
  ancestorRpc : List Bool

/-- The order of a loop over the map of schemas, which is not specified. -/
structure MapOrder where
  order : Dict String SchemaSnapshot → List SchemaSnapshot
  perm : ∀ d, (order d).Perm d.values

/-- The order in which the keys were written. -/
def MapOrder.written : MapOrder := ⟨Dict.values, fun _ => .refl _⟩

/-- `protoregistry.NotFound`. -/
def errNotFound : ClientErr := .error notFoundText

namespace Handle

/-- The resolver and its ancestors, each with its `rpc`. -/
def tiers (h : Handle) : List (Resolver × Bool) := (h.resolver, h.rpc) :: h.resolver.ancestors.zip h.ancestorRpc

/-! ## Construction -/

section
variable (env : External)

/-- `New`, on a connection or on nil. All resolvers share the connection. -/
def new (conn : Option Server) (ns : String) (cfg : Config) : Except ClientErr Handle :=
  match conn with
  | none => .error (.error "protoregistry/client: nil grpc.ClientConn")
  | some server => (Client.new env server ns cfg).map fun r => ⟨r, true, r.ancestors.map fun _ => true⟩

/-- `loadFromCache`, with the field `rpc` of every resolver nil. -/
def loadFromCache (disk : Disk) (ns : String) (cfg : Config) : Except ClientErr Handle :=
  (Client.loadFromCache env disk ns cfg).map fun r => ⟨r, false, r.ancestors.map fun _ => false⟩

def dialOnline (conn : Except String Server) (addr ns : String) (cfg : Config) : Except ClientErr Handle :=
  match conn with
  | .error e => .error (.error ("protoregistry/client: dialing " ++ addr ++ ": " ++ e))
  | .ok server => new env (some server) ns cfg

/-- `Dial`. Without a cache directory there is no disk to fall back to. -/
def dial (conn : Except String Server) (cache : Option Disk) (addr ns : String) (cfg : Config) :
    Except ClientErr Handle :=
  match dialOnline env conn addr ns cfg with
  | .ok h => .ok h
  | .error .panic => .error .panic
  | .error (.error onlineErr) =>
    match cache with
    | none => .error (.error onlineErr)
    | some disk =>
      match loadFromCache env disk ns cfg with
      | .ok h => .ok h
      | .error .panic => .error .panic
      | .error (.error cacheErr) =>
        .error (.error ("registry unreachable (" ++ onlineErr ++ ") and cache load failed (" ++ cacheErr ++ ")"))

/-! ## Pinning -/

/-- What `Pin` starts from: a resolver with the configuration of the parent, and its `rpc`. -/
def toPin (h : Handle) : Handle where
  resolver :=
    { ns := h.resolver.ns
      cfg := h.resolver.cfg
      snapshot := none
      nsFiles := .new
      nsTypes := .new
      ancestors := []
      fromCache := false }
  rpc := h.rpc
  ancestorRpc := []

/-- One round of the loop of `Pin`. `fetchSchema` starts with a call to the server. -/
def pinSchema (server : Server) (h : Handle) (snap : NsSnapshot) (e : String × Nat) : Except CallErr NsSnapshot :=
  if !h.rpc then .error .nilClient else
    match fetchSchema env server h.resolver e.1 e.2 with
    | .error err => .error (.client (err.context ("pinning " ++ versionText h.resolver.ns e.1 e.2)))
    | .ok ss => .ok (snap.put e.1 ss)

def pin (server : Server) (h : Handle) (versions : Dict String Nat) : Except CallErr Handle :=
  if versions.keys.isEmpty then .error (.client (.error "protoregistry/client: empty pin map")) else do
    let snap ← versions.toList.foldlM (pinSchema env server h.toPin) .new
    let snap ← snap.buildNameIndex.mapError .client
    match (applyAll snap).exec h.toPin.resolver.toAggregate with
    | (.error e, _) => .error (.client e)
    | (.ok (), agg) =>
      return { h.toPin with resolver := { h.toPin.resolver with toAggregate := agg, snapshot := some snap } }

/-! ## Refreshing -/

/-- `Refresh`. It starts with a call to the server, unless the resolver was loaded from the cache. -/
def refresh (server : Server) (h : Handle) : Except CallErr Unit × Handle :=
  if !h.resolver.fromCache && !h.rpc then (.error .nilClient, h) else
    let res := Client.refresh env server h.resolver
    (res.1.mapError .client, { h with resolver := res.2 })

end

/-! ## Sources -/

section
variable (server : SourceServer) (order : MapOrder) (path : String)

/-- `fetchOwnSource` of a resolver and its `rpc`: nothing when no schema of the namespace mentions the path. -/
def fetchOwnSource (r : Resolver) (rpc : Bool) : Except CallErr (Option Bytes) :=
  match r.snapshot with
  | none => .ok none
  | some snap =>
    match (order.order snap.schemas).find? fun ss => ss.aggFingerprint.filePaths.contains path with
    | none => .ok none
    | some owner =>
      let version := versionText r.ns owner.schemaID owner.version
      if !rpc then .error .nilClient else
        match server.getSource r.ns owner.schemaID owner.version with
        | .error e => .error (.client (.error ("get_source " ++ version ++ ": " ++ e)))
        | .ok sources =>
          match sources.get path with
          | none =>
            .error (.client (.error ("server returned schema " ++ version ++ " sources without " ++
              quote path ++ ": " ++
              notFoundText)))
          | some content => .ok (some content)

/-- The walk of `GetSource` over the tiers. -/
def fetchFrom : List (Resolver × Bool) → Except CallErr Bytes
  | [] => .error (.client errNotFound)
  | (r, rpc) :: tiers =>
    match fetchOwnSource server order path r rpc with
    | .error e => .error e
    | .ok (some content) => .ok content
    | .ok none => fetchFrom tiers

def getSource (h : Handle) : Except CallErr Bytes := fetchFrom server order path h.tiers

end

end Handle

/-! ## Operations without calls -/

/-- The operations that read what was loaded. -/
inductive ReadOp where
  | findMessageByName (name : FullName)
  | findExtensionByName (name : FullName)
  | findExtensionByNumber (message : FullName) (field : Nat)
  | findFileByPath (path : String)
  | findDescriptorByName (name : FullName)
  | findMessageByNameWithOrigin (name : FullName)
  | findFileByPathWithOrigin (path : String)
  | rangeMessages
  /-- `Schema`, and a lookup in it. -/
  | schemaMessage (schemaID : String) (name : FullName)
  | isStale

inductive Answer where
  /-- A resolver, which the process then holds. -/
  | created
  | done
  | source (content : Bytes)
  | message (res : Except LookupErr MessageDescriptor)
  | extension (res : Except LookupErr FieldDescriptor)
  | file (res : Except LookupErr FileDescriptor)
  | descriptor (res : Except LookupErr Descriptor)
  | messageWithOrigin (res : Except LookupErr (MessageDescriptor × String))
  | fileWithOrigin (res : Except LookupErr (FileDescriptor × String))
  | messages (ms : List MessageDescriptor)
  | flag (b : Bool)

/-- `SchemaResolver.FindMessageByName`. -/
def Resolver.schemaMessage (r : Resolver) (schemaID : String) (name : FullName) : Except LookupErr MessageDescriptor :=
  match r.snapshot.bind (·.schemas.get schemaID) with
  | none => .error .notFound
  | some ss => (TypesChain.node ss.types r.cfg.parentTypes).findMessageByName name

def Resolver.read (r : Resolver) : ReadOp → Answer
  | .findMessageByName name => .message (r.findMessageByName name)
  | .findExtensionByName name => .extension (r.findExtensionByName name)
  | .findExtensionByNumber message field => .extension (r.findExtensionByNumber message field)
  | .findFileByPath path => .file (r.findFileByPath path)
  | .findDescriptorByName name => .descriptor (r.findDescriptorByName name)
  | .findMessageByNameWithOrigin name => .messageWithOrigin (r.findMessageByNameWithOrigin name)
  | .findFileByPathWithOrigin path => .fileWithOrigin (r.findFileByPathWithOrigin path)
  | .rangeMessages => .messages r.rangeMessages
  | .schemaMessage schemaID name => .message (r.schemaMessage schemaID name)
  | .isStale => .flag r.fromCache

/-! ## A process -/

/-- A public operation: a constructor, or a method of the resolver at an index. Each comes with what the server,
and the disk, answer at that time. -/
inductive Op where
  | new (conn : Option Server) (ns : String) (cfg : Config)
  | dial (conn : Except String Server) (cache : Option Disk) (addr ns : String) (cfg : Config)
  | pin (i : Nat) (server : Server) (versions : Dict String Nat)
  | refresh (i : Nat) (server : Server)
  | getSource (i : Nat) (server : SourceServer) (order : MapOrder) (path : String)
  | read (i : Nat) (op : ReadOp)
  /-- `Close`. It stops the refresh loop and closes a connection, which stays in its field. -/
  | close (i : Nat)

/-- The resolver an operation returned is added to those the process holds. -/
def keep (hs : List Handle) : Except CallErr Handle → Except CallErr Answer × List Handle
  | .error e => (.error e, hs)
  | .ok h => (.ok .created, hs ++ [h])

/-- A method of the resolver at an index. There is nothing to do where there is none. -/
def atIndex (hs : List Handle) (i : Nat) (f : Handle → Except CallErr Answer × List Handle) :
    Except CallErr Answer × List Handle :=
  match hs[i]? with
  | none => (.ok .done, hs)
  | some h => f h

def step (env : External) (hs : List Handle) : Op → Except CallErr Answer × List Handle
  | .new conn ns cfg => keep hs ((Handle.new env conn ns cfg).mapError .client)
  | .dial conn cache addr ns cfg => keep hs ((Handle.dial env conn cache addr ns cfg).mapError .client)
  | .pin i server versions => atIndex hs i fun h => keep hs (h.pin env server versions)
  | .refresh i server => atIndex hs i fun h =>
    let res := h.refresh env server
    (res.1.map fun _ => .done, hs.set i res.2)
  | .getSource i server order path => atIndex hs i fun h => ((h.getSource server order path).map .source, hs)
  | .read i op => atIndex hs i fun h => (.ok (h.resolver.read op), hs)
  | .close i => atIndex hs i fun _ => (.ok .done, hs)

def outcomes (env : External) : List Handle → List Op → List (Except CallErr Answer)
  | _, [] => []
  | hs, op :: ops => (step env hs op).1 :: outcomes env (step env hs op).2 ops

def runOps (env : External) : List Handle → List Op → List Handle := List.foldl fun hs op => (step env hs op).2

end ProtoRegistry.Client
