import ProtoRegistry.Model.Registry
import Mathlib.Algebra.Ring.Int.Defs
import Mathlib.Data.String.Basic
import Mathlib.Data.List.Infix

/-!
# The server

The handlers of `RegistryService`. A handler checks the caller and the request, calls the registry or the
store, and translates an error to a status. The handlers that list a page only read one table and are
functions of the store.
-/

namespace ProtoRegistry
open RegistryM

/-! ## Statuses and callers -/

/-- The `codes.Code` that handlers return. -/
inductive Code where
  | invalidArgument | notFound | permissionDenied | failedPrecondition | internal
  deriving DecidableEq, Repr

structure Status where
  code : Code
  message : String
  deriving DecidableEq, Repr

structure Identity where
  subject : String
  admin : Bool := false
  deriving DecidableEq, Repr

def anonymousIdentity : Identity := ⟨"anonymous", false⟩

/-! ## Limits and validation -/

/-- `Limits`. An `int` has 64 bits. -/
structure Limits where
  maxIDLength : Int64 := 256
  maxFilenameLength : Int64 := 512
  maxSourcesPerRequest : Int64 := 1000
  maxTotalSourceBytes : Int64 := 32 * 1024 * 1024
  maxFileSourceBytes : Int64 := 8 * 1024 * 1024
  defaultListPageSize : Int64 := 100
  maxListPageSize : Int64 := 1000
  deriving DecidableEq, Repr

def Limits.resolvePageSize (l : Limits) (requested : UInt32) : Int64 :=
  if requested = 0 then l.defaultListPageSize
  else if l.maxListPageSize.toInt < requested.toNat then l.maxListPageSize
  else Int64.ofNat requested.toNat

def idPatternText : String := "^[A-Za-z0-9][A-Za-z0-9_.-]*$"

/-- `idPattern.MatchString`. -/
def matchesIDPattern (value : String) : Bool :=
  match value.toList with
  | [] => false
  | c :: cs => c.isAlphanum && cs.all fun c => c.isAlphanum || c = '_' || c = '.' || c = '-'

def validateID (value fieldName : String) (maxLen : Int64) : Except Status Unit := do
  if value = "" then
    throw ⟨.invalidArgument, fieldName ++ " is required"⟩
  if maxLen.toInt < value.utf8ByteSize then
    throw ⟨.invalidArgument, fieldName ++ " exceeds " ++ toString maxLen ++ " byte limit"⟩
  unless matchesIDPattern value do
    throw ⟨.invalidArgument, fieldName ++ " must match " ++ idPatternText⟩

theorem validateID_eq_ok {maxLen : Int64} : validateID value fieldName maxLen = .ok u ↔
    value ≠ "" ∧ (value.utf8ByteSize : Int) ≤ maxLen.toInt ∧ matchesIDPattern value = true := by
  by_cases hempty : value = ""
  · simp [validateID, hempty, bind, Except.bind, throw, throwThe, MonadExceptOf.throw]
  · by_cases hlong : maxLen.toInt < value.utf8ByteSize
    · simp [validateID, hempty, hlong, bind, Except.bind, throw, throwThe, MonadExceptOf.throw]
    · cases hmatch : matchesIDPattern value with
      | true =>
        simp [validateID, hempty, hlong, hmatch, Int.not_lt.mp hlong]
        rfl
      | false => simp [validateID, hempty, hlong, hmatch, throw, throwThe, MonadExceptOf.throw]

/-- The functions of the standard library and of the database that only the server relies on. -/
structure ServerExternal where
  /-- `path.Clean`. -/
  clean : String → String
  /-- `base64.RawURLEncoding`. -/
  encodeToString : String → String
  decodeString : String → Except String String
  /-- The order of the database on IDs. -/
  less : String → String → Bool

def validateFilename (ext : ServerExternal) (name : String) (maxLen : Int64) : Except Status Unit := do
  if name = "" then
    throw ⟨.invalidArgument, "source filename must not be empty"⟩
  if maxLen.toInt < name.utf8ByteSize then
    throw ⟨.invalidArgument, "source filename exceeds " ++ toString maxLen ++ " byte limit"⟩
  if name.toList.contains (Char.ofNat 0) then
    throw ⟨.invalidArgument, "source filename contains NUL byte"⟩
  if name.toList.head? = some '/' then
    throw ⟨.invalidArgument, "source filename must be relative"⟩
  if ext.clean name ≠ name then
    throw ⟨.invalidArgument, "source filename " ++ quote name ++ " is not in canonical form"⟩
  if ['.', '.'] ∈ name.toList.splitOn '/' then
    throw ⟨.invalidArgument, "source filename " ++ quote name ++ " contains parent traversal"⟩

/-- One round of the loop of `validateSources`. -/
def validateSource (ext : ServerExternal) (l : Limits) (filename : String) (source : Bytes) :
    Except Status Unit := do
  validateFilename ext filename l.maxFilenameLength
  if l.maxFileSourceBytes.toInt < source.length then
    throw ⟨.invalidArgument, "source " ++ quote filename ++ " exceeds " ++ toString l.maxFileSourceBytes ++
      " byte limit (" ++ toString source.length ++ " bytes)"⟩

def validateSources (ext : ServerExternal) (sources : Sources) (l : Limits) : Except Status Unit := do
  if sources.keys.isEmpty then
    throw ⟨.invalidArgument, "sources must not be empty"⟩
  if l.maxSourcesPerRequest.toInt < sources.keys.length then
    throw ⟨.invalidArgument, "too many sources (" ++ toString sources.keys.length ++ " > " ++
      toString l.maxSourcesPerRequest ++ ")"⟩
  sources.toList.forM fun f => validateSource ext l f.1 f.2
  let total := (sources.toList.map (·.2.length)).sum
  if l.maxTotalSourceBytes.toInt < total then
    throw ⟨.invalidArgument, "total source size " ++ toString total ++ " exceeds " ++
      toString l.maxTotalSourceBytes ++ " byte limit"⟩

/-! ## Page tokens and pages -/

def encodePageToken (ext : ServerExternal) (cursor : String) : String := ext.encodeToString cursor

def decodePageToken (ext : ServerExternal) (token : String) : Except String String :=
  if token = "" then .ok "" else ext.decodeString token

def intToInt32Clamp (n : Int64) : Int32 :=
  if 2147483647 < n then 2147483647 else if n < 0 then 0 else n.toInt32

/-- `WHERE id > $1 ORDER BY id LIMIT $2`. -/
def selectPage (less : String → String → Bool) (rows : List (String × α)) (after : String) (limit : Int64) :
    List (String × α) :=
  ((rows.filter fun row => less after row.1).insertionSort fun a b => less b.1 a.1 = false).take
    (intToInt32Clamp limit).toInt.toNat

def Store.listSchemasPage (s : Store) (less : String → String → Bool) (namespaceID after : String) (limit : Int64) :
    List (String × SchemaRow) :=
  selectPage less (s.schemas.toList.filterMap fun e => if e.1.1 = namespaceID then some (e.1.2, e.2) else none)
    after limit

def Store.listNamespacesPage (s : Store) (less : String → String → Bool) (after : String) (limit : Int64) :
    List (String × NamespaceRow) :=
  selectPage less s.namespaces.toList after limit

/-! ## The service -/

structure Server where
  registry : Registry
  ext : ServerExternal
  limits : Limits := {}
  allowAnonymousWrites : Bool := true

/-- A handler runs over the operations of the registry and fails with a status. -/
abbrev ServerM := ExceptT Status (Prog registryInterface)

namespace ServerM

/-- Run a program of the registry and translate its error. -/
def translating (f : Err → Status) (x : RegistryM α) : ServerM α :=
  ExceptT.mk (x.run >>= fun res => pure (res.mapError f))

end ServerM

open ServerM

def internalError (op : String) (_ : Err) : Status := ⟨.internal, op ++ " failed"⟩

def containsText (text part : String) : Bool := part.toList <:+: text.toList

def isCompatError (e : Err) : Bool := containsText e.text "compatibility check failed"

def translateHierarchyError (op : String) (e : Err) : Status :=
  match e.kind with
  | .parentCycle => ⟨.failedPrecondition, "setting parent would create a cycle"⟩
  | .namespaceNotFound => ⟨.notFound, "namespace or parent not found"⟩
  | .permissionDenied => ⟨.permissionDenied, e.text⟩
  | _ => internalError op e

structure PublishResponse where
  version : Nat
  fingerprint : String
  noChange : Bool

def PublishResult.toResponse (res : PublishResult) : PublishResponse := ⟨res.version, res.fingerprint, res.noChange⟩

structure SchemaInfo where
  namespaceID : String
  schemaID : String
  currentVersion : Option Nat
  stagedVersion : Option Nat
  versions : List Nat

def schemaToProto (namespaceID schemaID : String) (schema : SchemaRow) (versions : List Nat) : SchemaInfo :=
  ⟨namespaceID, schemaID, schema.currentVersion, schema.stagedVersion, versions⟩

structure ListSchemasResponse where
  schemas : List SchemaInfo
  nextPageToken : String

structure ListNamespacesResponse where
  namespaces : List String
  nextPageToken : String

structure GetDescriptorResponse where
  version : Nat
  fileDescriptorSet : List FileDescriptor

structure GetSourceResponse where
  version : Nat
  sources : Sources

namespace Server

variable (s : Server)

def requireWriter (id : Identity) : Except Status Unit :=
  if (id.subject = "" ∨ id = anonymousIdentity) ∧ s.allowAnonymousWrites = false then
    .error ⟨.permissionDenied, "write operations require authentication"⟩
  else .ok ()

def requireAdmin (id : Identity) (op : String) : Except Status Unit :=
  if id.admin then .ok () else .error ⟨.permissionDenied, op ++ " requires admin"⟩

def validateNamespaceID (namespaceID : String) : Except Status Unit :=
  if namespaceID = builtinsNamespace then .ok ()
  else validateID namespaceID "namespace_id" s.limits.maxIDLength

/-! ### Writing -/

/-- The checks of `Publish`, in their order. -/
def checkPublish (id : Identity) (req : PublishRequest) : Except Status Unit := do
  s.requireWriter id
  s.validateNamespaceID req.namespaceID
  validateID req.schemaID "schema_id" s.limits.maxIDLength
  validateSources s.ext req.sources s.limits
  if req.namespaceID = builtinsNamespace then requireAdmin id "writing to __builtins__"
  if req.force then requireAdmin id "force=true"

def publish (id : Identity) (req : PublishRequest) : ServerM PublishResponse := do
  liftExcept (s.checkPublish id req)
  let result ← translating (internalError "publish") (s.registry.publish req)
  return result.toResponse

/-- The checks of the calls on a whole namespace. -/
def checkNamespaceWrite (id : Identity) (namespaceID : String) : Except Status Unit := do
  s.requireWriter id
  s.validateNamespaceID namespaceID

def promote (id : Identity) (namespaceID : String) : ServerM (List PromotedSchema) := do
  liftExcept (s.checkNamespaceWrite id namespaceID)
  translating (fun e => if isCompatError e then ⟨.failedPrecondition, e.text⟩ else internalError "promote" e)
    (s.registry.promote namespaceID)

def discardStaging (id : Identity) (namespaceID : String) : ServerM Unit := do
  liftExcept (s.checkNamespaceWrite id namespaceID)
  translating (internalError "discard_staging") (Registry.discardStaging namespaceID)

def checkRollback (id : Identity) (namespaceID schemaID : String) (version : Nat) (force : Bool) :
    Except Status Unit := do
  s.checkNamespaceWrite id namespaceID
  validateID schemaID "schema_id" s.limits.maxIDLength
  if version = 0 then throw ⟨.invalidArgument, "version is required"⟩
  if force then requireAdmin id "force=true"

def rollback (id : Identity) (namespaceID schemaID : String) (version : Nat) (force : Bool) : ServerM Unit := do
  liftExcept (s.checkRollback id namespaceID schemaID version force)
  translating (fun e => if containsText e.text "would break consumers" then ⟨.failedPrecondition, e.text⟩
      else internalError "rollback" e)
    (s.registry.rollback namespaceID schemaID version force)

def checkParent (parentID : Option String) : Except Status Unit :=
  match parentID with
  | none => .ok ()
  | some p =>
    if p = builtinsNamespace then
      .error ⟨.invalidArgument, "parent_namespace_id cannot be __builtins__; it is the implicit root"⟩
    else validateID p "parent_namespace_id" s.limits.maxIDLength

def checkCreateNamespace (caller : Identity) (id : String) (parentID : Option String) : Except Status Unit := do
  s.requireWriter caller
  if id = builtinsNamespace then requireAdmin caller "creating __builtins__"
  else validateID id "id" s.limits.maxIDLength
  s.checkParent parentID

def createNamespace (caller : Identity) (id : String) (parentID : Option String) : ServerM Unit := do
  liftExcept (s.checkCreateNamespace caller id parentID)
  translating (translateHierarchyError "create_namespace")
    (s.registry.createNamespace id parentID caller.subject)

def checkSetNamespaceParent (caller : Identity) (namespaceID : String) (parentID : Option String) :
    Except Status Unit := do
  s.requireWriter caller
  validateID namespaceID "namespace_id" s.limits.maxIDLength
  s.checkParent parentID

def setNamespaceParent (caller : Identity) (namespaceID : String) (parentID : Option String) : ServerM Unit := do
  liftExcept (s.checkSetNamespaceParent caller namespaceID parentID)
  translating (translateHierarchyError "set_namespace_parent")
    (s.registry.setNamespaceParent namespaceID parentID caller.subject)

/-- The checks of an addressed schema. Unlike most handlers, those with these checks refuse `__builtins__`. -/
def checkSchema (namespaceID schemaID : String) : Except Status Unit := do
  validateID namespaceID "namespace_id" s.limits.maxIDLength
  validateID schemaID "schema_id" s.limits.maxIDLength

def rebase (caller : Identity) (namespaceID schemaID : String) : ServerM PublishResponse := do
  liftExcept (do s.requireWriter caller; s.checkSchema namespaceID schemaID)
  let result ← translating (translateHierarchyError "rebase") (s.registry.rebase namespaceID schemaID)
  return result.toResponse

/-! ### Reading -/

/-- The checks of a read of a schema. -/
def checkRead (namespaceID schemaID : String) : Except Status Unit := do
  s.validateNamespaceID namespaceID
  validateID schemaID "schema_id" s.limits.maxIDLength

def getSchema (namespaceID schemaID : String) : ServerM SchemaInfo := do
  liftExcept (s.checkRead namespaceID schemaID)
  let schema ← translating (fun _ => ⟨.notFound, "schema " ++ namespaceID ++ "/" ++ schemaID ++ " not found"⟩)
    (store (.getSchema namespaceID schemaID))
  let versions ← translating (internalError "get_schema_versions") (store (.listVersions namespaceID schemaID))
  return schemaToProto namespaceID schemaID schema versions

/-- The version a request means: version 0 is the current one. `Registry.Current` does not fail. -/
def resolveVersion (namespaceID schemaID : String) (version : Nat) : ServerM Nat := do
  if version ≠ 0 then return version
  let some snap ← translating (internalError "") (Registry.current namespaceID schemaID)
    | throw ⟨.notFound, "no current version"⟩
  return snap.version

def getDescriptor (namespaceID schemaID : String) (version : Nat) : ServerM GetDescriptorResponse := do
  liftExcept (s.checkRead namespaceID schemaID)
  let version ← resolveVersion namespaceID schemaID version
  let ver ← translating (fun _ => ⟨.notFound, "version " ++ toString version ++ " not found"⟩)
    (store (.getVersion namespaceID schemaID version))
  return ⟨version, ver.compiled⟩

def getSource (namespaceID schemaID : String) (version : Nat) : ServerM GetSourceResponse := do
  liftExcept (s.checkRead namespaceID schemaID)
  let version ← resolveVersion namespaceID schemaID version
  let files ← translating (internalError "get_source_files") (store (.getVersionFiles namespaceID schemaID version))
  let entries ← files.mapM fun f => do
    let blob ← translating (internalError "get_source_blob") (store (.getBlob namespaceID f.blobSHA256))
    return (f.filename, blob)
  return ⟨version, entries.foldl (fun sources e => sources.set e.1 e.2) .empty⟩

def getNamespaceChain (namespaceID : String) : ServerM (List String) := do
  liftExcept (validateID namespaceID "namespace_id" s.limits.maxIDLength)
  translating (fun e => ⟨.notFound, e.text⟩) (Registry.getNamespaceChain namespaceID)

def getRebaseStatus (namespaceID schemaID : String) : ServerM Registry.RebaseStatus := do
  liftExcept (s.checkSchema namespaceID schemaID)
  translating (internalError "get_rebase_status") (Registry.getRebaseStatus namespaceID schemaID)

/-! ### Listing -/

def cursor (pageToken : String) : Except Status String := do
  let after ← (decodePageToken s.ext pageToken).mapError fun _ => ⟨.invalidArgument, "invalid page_token"⟩
  if s.limits.maxIDLength.toInt < after.utf8ByteSize then
    throw ⟨.invalidArgument, "page_token cursor exceeds id length limit"⟩
  return after

/-- The rows of a page of positive size and the token of the next one, from what was fetched with one row
more. -/
def cutPage (pageSize : Int64) (rows : List (String × α)) : List (String × α) × String :=
  if pageSize.toInt < rows.length then
    let page := rows.take pageSize.toInt.toNat
    (page, encodePageToken s.ext ((page.getLast?.map (·.1)).getD ""))
  else (rows, "")

def listSchemas (st : Store) (namespaceID : String) (pageSize : UInt32) (pageToken : String) :
    Except Status ListSchemasResponse := do
  s.validateNamespaceID namespaceID
  let pageSize := s.limits.resolvePageSize pageSize
  let after ← s.cursor pageToken
  let schemas := st.listSchemasPage s.ext.less namespaceID after (pageSize + 1)
  let (schemas, nextToken) := s.cutPage pageSize schemas
  return ⟨schemas.map fun schema => schemaToProto namespaceID schema.1 schema.2 [], nextToken⟩

def listNamespaces (st : Store) (pageSize : UInt32) (pageToken : String) :
    Except Status ListNamespacesResponse := do
  let pageSize := s.limits.resolvePageSize pageSize
  let after ← s.cursor pageToken
  let namespaces := st.listNamespacesPage s.ext.less after (pageSize + 1)
  let (namespaces, nextToken) := s.cutPage pageSize namespaces
  return ⟨namespaces.map (·.1), nextToken⟩

end Server

/-! ## Requests -/

inductive Rpc where
  | publish (req : PublishRequest)
  | promote (namespaceID : String)
  | discardStaging (namespaceID : String)
  | rollback (namespaceID schemaID : String) (version : Nat) (force : Bool)
  | getSchema (namespaceID schemaID : String)
  | listSchemas (namespaceID : String) (pageSize : UInt32) (pageToken : String)
  | getDescriptor (namespaceID schemaID : String) (version : Nat)
  | getSource (namespaceID schemaID : String) (version : Nat)
  | listNamespaces (pageSize : UInt32) (pageToken : String)
  | createNamespace (id : String) (parentID : Option String)
  | setNamespaceParent (namespaceID : String) (parentID : Option String)
  | getNamespaceChain (namespaceID : String)
  | getRebaseStatus (namespaceID schemaID : String)
  | rebase (namespaceID schemaID : String)

inductive Response where
  | published (res : PublishResponse)
  | promoted (schemas : List PromotedSchema)
  | schema (info : SchemaInfo)
  | schemas (res : ListSchemasResponse)
  | descriptor (res : GetDescriptorResponse)
  | source (res : GetSourceResponse)
  | namespaces (res : ListNamespacesResponse)
  | chain (namespaceIDs : List String)
  | rebaseStatus (status : Registry.RebaseStatus)
  | done

/-- One request of a caller, handled without interference. -/
def Server.handle (s : Server) (id : Identity) : Rpc → World → Except Status Response × World
  | .publish req, w => execute World.perform (do return .published (← s.publish id req)) w
  | .promote ns, w => execute World.perform (do return .promoted (← s.promote id ns)) w
  | .discardStaging ns, w => execute World.perform (do s.discardStaging id ns; return .done) w
  | .rollback ns sc v force, w => execute World.perform (do s.rollback id ns sc v force; return .done) w
  | .getSchema ns sc, w => execute World.perform (do return .schema (← s.getSchema ns sc)) w
  | .listSchemas ns size token, w => ((s.listSchemas w.store ns size token).map .schemas, w)
  | .getDescriptor ns sc v, w => execute World.perform (do return .descriptor (← s.getDescriptor ns sc v)) w
  | .getSource ns sc v, w => execute World.perform (do return .source (← s.getSource ns sc v)) w
  | .listNamespaces size token, w => ((s.listNamespaces w.store size token).map .namespaces, w)
  | .createNamespace n p, w => execute World.perform (do s.createNamespace id n p; return .done) w
  | .setNamespaceParent ns p, w => execute World.perform (do s.setNamespaceParent id ns p; return .done) w
  | .getNamespaceChain ns, w => execute World.perform (do return .chain (← s.getNamespaceChain ns)) w
  | .getRebaseStatus ns sc, w => execute World.perform (do return .rebaseStatus (← s.getRebaseStatus ns sc)) w
  | .rebase ns sc, w => execute World.perform (do return .published (← s.rebase id ns sc)) w

end ProtoRegistry
