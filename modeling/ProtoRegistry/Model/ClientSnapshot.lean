import ProtoRegistry.Model.NsRegistry
import ProtoRegistry.Model.Snapshot
import Mathlib.Data.List.Sort

/-!
# What a client keeps of a schema

`client/snapshot.go`: a descriptor set compiled into registries of its own, with the fingerprint of what it
contributes to the registries of the namespace, and the index of the names of all schemas.
-/

namespace ProtoRegistry.Client

/-- What a method of the client ends with when it does not succeed. -/
inductive ClientErr where
  | error (text : String)
  /-- The call does not return. -/
  | panic
  deriving DecidableEq, Repr

/-- `fmt.Errorf("...: %w", err)`. -/
def ClientErr.context (text : String) : ClientErr → ClientErr
  | .error e => .error (text ++ ": " ++ e)
  | .panic => .panic

def wrap (text : String) : RegistryErr → ClientErr
  | .panic => .panic
  | e => .error (text ++ ": " ++ e.text)

/-! ## The walks over a file -/

/-- The names `rangeFileDescriptors` visits. Fields, oneofs and enum values are not among them. -/
def rangeFileDescriptors (fd : FileDescriptor) : List FullName :=
  fd.types.map (·.fullName) ++ fd.services.flatMap fun s => s.fullName :: s.methods.map (·.fullName)

def registerTypeOf (types : NamespacedTypes) : TypeDescriptor → Except RegistryErr NamespacedTypes
  | .message m => types.registerMessage m
  | .enum e => types.registerEnum e
  | .extension x => types.registerExtension x

def registerFileTypes (types : NamespacedTypes) (fd : FileDescriptor) :
    Except RegistryErr NamespacedTypes :=
  fd.types.foldlM registerTypeOf types

def updateTypeOf (types : NamespacedTypes) : TypeDescriptor → NamespacedTypes
  | .message m => types.updateMessage m
  | .enum e => types.updateEnum e
  | .extension x => types.updateExtension x

def registerFileTypesUpdate (types : NamespacedTypes) (fd : FileDescriptor) : NamespacedTypes :=
  fd.types.foldl updateTypeOf types

/-! ## Schema snapshots -/

structure AggFingerprint where
  filePaths : List String
  messages : List FullName
  enums : List FullName
  extensions : List FullName
  deriving DecidableEq, Repr

/-- The names of the types of one kind, in the order of the walk. -/
def namesOfKind (kind : TypeKind) (ts : List TypeDescriptor) : List FullName :=
  (ts.filter (·.kind = kind)).map (·.fullName)

def AggFingerprint.collect (fp : AggFingerprint) (fd : FileDescriptor) : AggFingerprint where
  filePaths := fp.filePaths ++ [fd.path]
  messages := fp.messages ++ namesOfKind .message fd.types
  enums := fp.enums ++ namesOfKind .enum fd.types
  extensions := fp.extensions ++ namesOfKind .extension fd.types

structure SchemaSnapshot where
  schemaID : String
  version : Nat
  files : NamespacedFiles
  types : NamespacedTypes
  aggFingerprint : AggFingerprint
  /-- The serialized set, as the set. -/
  rawDescriptorSet : List FileDescriptor

/-- The variables of `compileSchema` that its loop over the files writes. -/
structure Compiling where
  files : NamespacedFiles := .new
  types : NamespacedTypes := .new
  fp : AggFingerprint := ⟨[], [], [], []⟩

/-- One round of the loop. -/
def Compiling.addFile (c : Compiling) (fd : FileDescriptor) : Except ClientErr Compiling :=
  match c.files.registerFile fd with
  | .error e => .error (wrap ("register file " ++ fd.path) e)
  | .ok files =>
    match registerFileTypes c.types fd with
    | .error e => .error (wrap ("register types in " ++ fd.path) e)
    | .ok types => .ok ⟨files, types, c.fp.collect fd⟩

/-- How messages name a version of a schema. -/
def versionText (ns schemaID : String) (version : Nat) : String :=
  ns ++ "/" ++ schemaID ++ "@" ++ toString version

def compileSchema (env : External) (ns schemaID : String) (version : Nat) (fdset : List FileDescriptor) :
    Except ClientErr SchemaSnapshot :=
  match env.newFiles fdset with
  | .error e =>
    .error (.error ("compiling descriptors for " ++ versionText ns schemaID version ++ ": " ++ e))
  | .ok compiled =>
    match compiled.foldlM Compiling.addFile {} with
    | .error e => .error (e.context ("populating registries for " ++ versionText ns schemaID version))
    | .ok c => .ok ⟨schemaID, version, c.files, c.types, c.fp, fdset⟩

/-! ## The snapshot of a namespace -/

structure NsSnapshot where
  schemas : Dict String SchemaSnapshot
  nameIndex : Dict FullName String

namespace NsSnapshot

/-- `newSnapshot`. -/
def new : NsSnapshot := ⟨.empty, .empty⟩

/-- `snap.schemas[id] = ss`. -/
def put (s : NsSnapshot) (id : String) (ss : SchemaSnapshot) : NsSnapshot :=
  { s with schemas := s.schemas.set id ss }

def schemaFor (s : NsSnapshot) (name : FullName) : Option SchemaSnapshot :=
  (s.nameIndex.get name).bind s.schemas.get

def sorted (s : NsSnapshot) : List (String × SchemaSnapshot) :=
  s.schemas.toList.insertionSort fun a b => a.1 ≤ b.1

end NsSnapshot

/-- The maps `buildNameIndex` writes. -/
structure NameIndexing where
  nameIndex : Dict FullName String
  conflicts : Dict FullName (List String)

/-- What `buildNameIndex` does at a name of a schema. -/
def NameIndexing.visit (st : NameIndexing) (v : String × FullName) : NameIndexing :=
  match st.nameIndex.get v.2 with
  | some existing =>
    if existing = v.1 then st else
      { st with conflicts := st.conflicts.set v.2 ((st.conflicts.get v.2).getD [existing] ++ [v.1]) }
  | none => { st with nameIndex := st.nameIndex.set v.2 v.1 }

def collisionText (conflicts : Dict FullName (List String)) : String :=
  let entries := conflicts.toList.insertionSort fun a b => a.1.toText ≤ b.1.toText
  "protoregistry/client: name collisions across schemas:" ++ ";".intercalate (entries.map fun c =>
    " " ++ c.1.toText ++ " in [" ++ ", ".intercalate c.2 ++ "]")

/-- The names of the schemas, in the order `buildNameIndex` visits them. -/
def NsSnapshot.visits (s : NsSnapshot) : List (String × FullName) :=
  s.sorted.flatMap fun e => (e.2.files.rangeFiles.flatMap rangeFileDescriptors).map (e.1, ·)

def NsSnapshot.buildNameIndex (s : NsSnapshot) : Except ClientErr NsSnapshot :=
  let st := s.visits.foldl NameIndexing.visit ⟨s.nameIndex, .empty⟩
  if st.conflicts.keys.isEmpty then .ok { s with nameIndex := st.nameIndex }
  else .error (.error (collisionText st.conflicts))

end ProtoRegistry.Client
