import ProtoRegistry.Model.Server
import ProtoRegistry.Theory.Rounds

/-!
# Loading a directory

The `load` command publishes every file below a directory as a schema of its own. It visits the files again
and again, publishes those whose imports are loaded, and stops after a pass that publishes nothing.
-/

namespace ProtoRegistry.Ctl

/-! ## Scanning -/

structure ProtoFile where
  filename : String
  content : Bytes
  imports : List String
  deriving DecidableEq, Repr

structure ImportDecl where
  importPath : String
  isOption : Bool

structure DirEntry where
  path : String
  isDir : Bool
  /-- `os.ReadFile`. -/
  content : Except String Bytes
  /-- `filepath.Rel`, in slashes. -/
  rel : Except String String

/-- The file system, and the functions of the standard library and of the parser that the command relies on. -/
structure LoadExternal where
  /-- `filepath.Clean`. -/
  clean : String → String
  /-- `filepath.WalkDir`. -/
  walkDir : String → List (Except String DirEntry)
  parseImports : String → Bytes → Except String (List ImportDecl)
  trimSpace : String → String

/-- An `import option` is not a dependency. -/
def extractImports (ext : LoadExternal) (filename : String) (content : Bytes) : Except String (List String) := do
  let decls ← ext.parseImports filename content
  return (decls.filter (!·.isOption)).map fun decl => ext.trimSpace decl.importPath

/-- The function that `scanProtos` calls for each entry. -/
def scanEntry (ext : LoadExternal) (entry : Except String DirEntry) : Except String (Option ProtoFile) := do
  let d ← entry
  if d.isDir ∨ ¬ ".proto".toList <:+ d.path.toList then return none
  let content ← d.content.mapError fun e => "reading " ++ d.path ++ ": " ++ e
  let filename ← d.rel
  let imports ← (extractImports ext filename content).mapError fun e =>
    "parsing imports from " ++ filename ++ ": " ++ e
  return some { filename, content, imports }

def scanProtos (ext : LoadExternal) (dir : String) : Except String (List ProtoFile) :=
  let dir := ext.clean dir
  match (ext.walkDir dir).mapM (scanEntry ext) with
  | .error e => .error ("walking " ++ dir ++ ": " ++ e)
  | .ok found => .ok found.reduceOption

/-! ## Publishing -/

/-- The registry as the command sees it, with whatever state is behind it. -/
structure RegistryClient (σ : Type) where
  publish : PublishRequest → σ → Except Status PublishResponse × σ
  promote : String → σ → Except Status (List PromotedSchema) × σ

inductive LoadError where
  | publish (err : Status)
  | dependency (imp : String) (err : LoadError)

/-- The maps `loaded` and `failed`, whether the current pass made progress, and the state of the registry. -/
structure Load (σ : Type) where
  loaded : List String
  failed : Dict String LoadError
  progress : Bool
  registry : σ

/-- What the imports of a file say about it. -/
inductive Readiness where
  | canPublish
  | waiting
  | depFailed (imp : String) (err : LoadError)

/-- The loop over the imports of a file. An import that is not in the set is left to the compiler. -/
def readiness (fileSet loaded : List String) (failed : Dict String LoadError) : List String → Readiness
  | [] => .canPublish
  | imp :: imports =>
    if imp ∈ loaded then readiness fileSet loaded failed imports
    else if imp ∈ fileSet then
      match failed.get imp with
      | some err => .depFailed imp err
      | none => .waiting
    else readiness fileSet loaded failed imports

/-- The request that publishes a file as its own schema. -/
def publishRequest (ns : String) (force : Bool) (p : ProtoFile) : PublishRequest where
  namespaceID := ns
  schemaID := p.filename
  sources := Dict.empty.set p.filename p.content
  force := force

section
variable {σ : Type} (client : RegistryClient σ) (ns : String) (force : Bool) (protos : List ProtoFile)

def fileSet : List String := protos.map (·.filename)

/-- One round of the inner loop. -/
def visit (x : Load σ) (p : ProtoFile) : Load σ :=
  if p.filename ∈ x.loaded ∨ (x.failed.get p.filename).isSome then x
  else match readiness (fileSet protos) x.loaded x.failed p.imports with
    | .depFailed imp err => { x with failed := x.failed.set p.filename (.dependency imp err) }
    | .waiting => x
    | .canPublish =>
      match client.publish (publishRequest ns force p) x.registry with
      | (.error err, registry) => { x with failed := x.failed.set p.filename (.publish err), registry }
      | (.ok _, registry) => { x with loaded := p.filename :: x.loaded, progress := true, registry }

/-- One round of the outer loop. -/
def pass (x : Load σ) : Load σ := protos.foldl (visit client ns force protos) { x with progress := false }

/-- The publishing loop. Each pass but the last loads a file, so there are at most `protos.length + 1`. -/
def publishAll (s : σ) : Load σ :=
  repeatWhile (pass client ns force protos) (·.progress) (protos.length + 1) ⟨[], .empty, false, s⟩

end

/-! ## The command -/

def Code.toText : Code → String
  | .invalidArgument => "InvalidArgument"
  | .notFound => "NotFound"
  | .permissionDenied => "PermissionDenied"
  | .failedPrecondition => "FailedPrecondition"
  | .internal => "Internal"

/-- `Error.Error` of a gRPC status. -/
def statusText (st : Status) : String := "rpc error: code = " ++ Code.toText st.code ++ " desc = " ++ st.message

/-- The error that `runLoad` returns after publishing, if there is one. -/
def loadResult (failed : Dict String LoadError) : Except String Unit :=
  if failed.keys.isEmpty then .ok () else .error (toString failed.keys.length ++ " file(s) failed to load")

def runLoad {σ : Type} (ext : LoadExternal) (client : RegistryClient σ) (ns dir : String)
    (promote force : Bool) (s : σ) :
    Except String Unit × σ :=
  match scanProtos ext dir with
  | .error e => (.error e, s)
  | .ok protos =>
    if protos.isEmpty then (.error ("no .proto files found in " ++ dir), s)
    else
      let x := publishAll client ns force protos s
      if promote ∧ ¬ x.loaded.isEmpty then
        match client.promote ns x.registry with
        | (.error e, registry) => (.error ("promote failed: " ++ statusText e), registry)
        | (.ok _, registry) => (loadResult x.failed, registry)
      else (loadResult x.failed, x.registry)

/-- The client of a server, for a caller. -/
def clientOf (server : Server) (caller : Identity) : RegistryClient World where
  publish req w := execute World.perform (server.publish caller req) w
  promote ns w := execute World.perform (server.promote caller ns) w

end ProtoRegistry.Ctl
