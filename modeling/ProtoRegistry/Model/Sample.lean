import ProtoRegistry.Model.Client
import ProtoRegistry.Model.Server

/-!
# A sample environment

A stand-in for the external code, small enough to evaluate: each byte of a source file declares a
message, and files import nothing. It serves the concrete runs that show what the registry does.
-/

namespace ProtoRegistry.Sample

def message (b : UInt8) : MessageDescriptor := ⟨["M" ++ toString b.toNat], [], [], [], [], []⟩

/-- The file a source compiles to: one message for each byte. -/
def file (path : String) (source : Bytes) : FileDescriptor :=
  ⟨path, [], [], source.map message, [], [], []⟩

def env : External where
  parse _ source := .ok (source.map fun b => ⟨toString b.toNat, false, false⟩)
  sha256Hex := id
  protocompile resolver names := names.mapM fun name =>
    match resolver name with
    | none => .error ("file not found: " ++ name)
    | some source => .ok ⟨file name source, []⟩
  openBundled _ := none
  isStandardImport _ := false
  inGlobalFiles _ := false
  openFile _ := none
  newFiles := .ok
  registerFiles files :=
    if Registrable files then .ok () else .error "already registered"
  rangeKeys := id
  compilerVersion := "v1"

def registry : Registry := { env }

theorem lawful_env : env.Lawful where
  newFiles_perm := by
    rintro fds files ⟨⟩
    rfl
  rangeKeys_perm _ := .refl _
  registrable_of_registerFiles {files} h := by
    by_contra hnot
    simp [env, hnot] at h

/-- Publish a schema whose only file has the given source. -/
def publish (source : Bytes) : Call :=
  .publish { namespaceID := "n", schemaID := "s", sources := Dict.empty.set "a.proto" source }

def publishParent (source : Bytes) : Call :=
  .publish { namespaceID := "p", schemaID := "t", sources := Dict.empty.set "b.proto" source }

/-- Publish the schema of the namespace `n` with the file that the others import. -/
def publishShared (source : Bytes) : Call :=
  .publish { namespaceID := "n", schemaID := "t", sources := Dict.empty.set "b.proto" source }

/-- Publish a schema with a file of its own and one that other schemas have too. -/
def publishSharing (schemaID path : String) (source : Bytes) : Call :=
  .publish { namespaceID := "n", schemaID, sources := (Dict.empty.set path source).set "common.proto" [9] }

def builtin (source : Bytes) : PublishRequest :=
  { namespaceID := builtinsNamespace, schemaID := "b", sources := Dict.empty.set "b.proto" source }

/-- Every file imports `b.proto`, if there is one. -/
def importing (compilerVersion : String) : Registry where
  env :=
    { env with
      compilerVersion
      protocompile resolver names := names.mapM fun name =>
        match resolver name, resolver "b.proto" with
        | none, _ => .error ("file not found: " ++ name)
        | some source, none => .ok ⟨file name source, []⟩
        | some source, some shared =>
          if name = "b.proto" then .ok ⟨file name source, []⟩
          else .ok ⟨{ file name source with imports := ["b.proto"] }, [⟨file "b.proto" shared, []⟩]⟩ }

def family : List Call := [.createNamespace "p" none "", .createNamespace "n" (some "p") ""]

def denying : Registry :=
  { registry with
    authz :=
      { canCreateNamespace _ _ := .error { text := "denied", kind := .permissionDenied }
        canSetNamespaceParent _ _ := .error { text := "denied", kind := .permissionDenied }
        canPublish _ _ := .error { text := "denied", kind := .permissionDenied }
        canPromote _ := .error { text := "denied", kind := .permissionDenied }
        canRebase _ _ := .error { text := "denied", kind := .permissionDenied } } }

/-- White space is spelled as the byte 0. -/
def spaced : Registry where
  env :=
    { env with
      parse _ source := .ok (source.map fun b => ⟨toString b.toNat, false, b = 0⟩)
      protocompile resolver names := names.mapM fun name =>
        match resolver name with
        | none => .error ("file not found: " ++ name)
        | some source => .ok ⟨file name (source.filter (· ≠ 0)), []⟩ }

/-- A service over the registry, with tokens that are not encoded. -/
def service (registry : Registry) : Server where
  registry
  ext :=
    { clean := id
      encodeToString := id
      decodeString := .ok
      less a b := a < b }

/-- A server with the given chain, and for each namespace the set of the only version of each schema. -/
def server (chain : List String) (schemas : String → List (String × List FileDescriptor)) : Client.Server where
  listSchemas ns := ⟨[(schemas ns).map fun s => ⟨s.1, some 1⟩], none⟩
  getDescriptor ns id version :=
    match (schemas ns).lookup id with
    | some fdset => .ok (version, fdset)
    | none => .error "schema not found"
  getNamespaceChain _ := .ok chain

/-- Every namespace but `a` has the same file. -/
def oneFile (ns : String) : List (String × List FileDescriptor) :=
  if ns = "a" then [] else [("s", [file "m.proto" [1]])]

/-- Every namespace has a file, and all but `a` have it at the same path. -/
def layered (ns : String) : List (String × List FileDescriptor) :=
  if ns = "a" then [("s", [file "a.proto" [0]])]
  else if ns = "b" then [("s", [file "m.proto" [1]])]
  else [("s", [file "m.proto" [2]])]

/-- The schemas `a` and `b` both import `m.proto`. -/
def sharedFile (_ : String) : List (String × List FileDescriptor) :=
  ["a", "b"].map fun id =>
    (id, [file "m.proto" [1], { file (id ++ ".proto") [] with imports := ["m.proto"] }])

def twoFiles (_ : String) : List (String × List FileDescriptor) :=
  [("a", [file "a.proto" [1]]), ("b", [file "b.proto" [2]])]

/-- A schema with a message and an empty file of a path that other such schemas have too. -/
def sharing (sc : String) (message : UInt8) : String × List FileDescriptor :=
  (sc, [file "common.proto" [], file (sc ++ ".proto") [message]])

/-- A file with one message, in the given package. -/
def fileIn (path : String) (package : FullName) (name : String) : FileDescriptor :=
  ⟨path, package, [], [⟨package ++ [name], [], [], [], [], []⟩], [], [], []⟩

/-- The package of the schema `b` has the name of the message of `a`. -/
def nestedPackage (_ : String) : List (String × List FileDescriptor) :=
  [("a", [fileIn "a.proto" [] "M"]), ("b", [fileIn "b.proto" ["M"] "N"])]

def globalFiles (files : List FileDescriptor) : GlobalFiles where
  findDescriptorByName _ := .error .notFound
  findFileByPath path :=
    match files.find? (·.path = path) with
    | some fd => .ok fd
    | none => .error .notFound
  rangeFiles := files

/-- A file with an enum of package `p`, whose only value is `p.X`. -/
def enumFile (path enum : String) : FileDescriptor :=
  ⟨path, ["p"], [], [], [⟨["p", enum], [⟨["p", "X"], 0⟩]⟩], [], []⟩

/-- A file with a message, a field and an extension of it, and a method. -/
def rpcFile (streaming : Bool) (extensions : List FieldDescriptor) : FileDescriptor :=
  ⟨"r.proto", ["p"], [], [⟨["p", "M"], [⟨["p", "M", "x"], 1, .int32, .optional, [], [], ["p", "M"]⟩], [], [], [], []⟩],
    [], extensions, [⟨["p", "S"], [⟨["p", "S", "Get"], ["p", "M"], ["p", "M"], false, streaming⟩]⟩]⟩

/-- An extension of the message of `rpcFile`. -/
def extension : FieldDescriptor := ⟨["p", "e"], 100, .int32, .optional, [], [], ["p", "M"]⟩

def resolver (ns : String) : Client.Resolver where
  ns := ns
  cfg := {}
  snapshot := none
  nsFiles := .new
  nsTypes := .new
  ancestors := []
  fromCache := false

end ProtoRegistry.Sample
