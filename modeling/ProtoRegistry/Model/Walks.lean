import ProtoRegistry.Model.ClientSnapshot

/-!
# The walks over a file

The four traversals of `client/snapshot.go`, each written out as in the source: `registerFileTypes`,
`registerFileTypesUpdate`, `aggFingerprint.collect` and `rangeFileDescriptors`. The first two get the methods
of the registry that they call as a parameter, so that their calls can be recorded.
-/

namespace ProtoRegistry.Client.Walks

variable {σ ε : Type}

/-- Three methods of a registry of types, one for each kind. -/
structure TypeMethods (σ ε : Type) where
  message : σ → MessageDescriptor → Except ε σ
  enum : σ → EnumDescriptor → Except ε σ
  extension : σ → FieldDescriptor → Except ε σ

/-- `RegisterMessage`, `RegisterEnum` and `RegisterExtension`. -/
def registering : TypeMethods NamespacedTypes RegistryErr where
  message := NamespacedTypes.registerMessage
  enum := NamespacedTypes.registerEnum
  extension := NamespacedTypes.registerExtension

/-- `UpdateMessage`, `UpdateEnum` and `UpdateExtension`. -/
def updating : TypeMethods NamespacedTypes RegistryErr where
  message types m := .ok (types.updateMessage m)
  enum types e := .ok (types.updateEnum e)
  extension types x := .ok (types.updateExtension x)

/-- Methods that note what they are called with. -/
def recording : TypeMethods (List TypeDescriptor) ε where
  message calls m := .ok (calls ++ [.message m])
  enum calls e := .ok (calls ++ [.enum e])
  extension calls x := .ok (calls ++ [.extension x])

/-! ## Registering -/

mutual
def registerMessageTypes (on : TypeMethods σ ε) (types : σ) : MessageDescriptor → Except ε σ
  | ⟨n, fs, os, nested, enums, exts⟩ => do
    let types ← on.message types ⟨n, fs, os, nested, enums, exts⟩
    let types ← registerNestedTypes on types nested
    let types ← enums.foldlM on.enum types
    exts.foldlM on.extension types
def registerNestedTypes (on : TypeMethods σ ε) (types : σ) : List MessageDescriptor → Except ε σ
  | [] => .ok types
  | msg :: nested => do
    let types ← registerMessageTypes on types msg
    registerNestedTypes on types nested
end

def registerFileTypes (on : TypeMethods σ ε) (types : σ) (fd : FileDescriptor) : Except ε σ := do
  let types ← registerNestedTypes on types fd.messages
  let types ← fd.enums.foldlM on.enum types
  fd.extensions.foldlM on.extension types

/-! ## Updating -/

mutual
def registerMessageTypesUpdate (on : TypeMethods σ ε) (types : σ) : MessageDescriptor → Except ε σ
  | ⟨n, fs, os, nested, enums, exts⟩ => do
    let types ← on.message types ⟨n, fs, os, nested, enums, exts⟩
    let types ← registerNestedTypesUpdate on types nested
    let types ← enums.foldlM on.enum types
    exts.foldlM on.extension types
def registerNestedTypesUpdate (on : TypeMethods σ ε) (types : σ) : List MessageDescriptor → Except ε σ
  | [] => .ok types
  | msg :: nested => do
    let types ← registerMessageTypesUpdate on types msg
    registerNestedTypesUpdate on types nested
end

def registerFileTypesUpdate (on : TypeMethods σ ε) (types : σ) (fd : FileDescriptor) : Except ε σ := do
  let types ← registerNestedTypesUpdate on types fd.messages
  let types ← fd.enums.foldlM on.enum types
  fd.extensions.foldlM on.extension types

/-! ## Collecting -/

def collectEnum (fp : AggFingerprint) (e : EnumDescriptor) : AggFingerprint :=
  { fp with enums := fp.enums ++ [e.fullName] }

def collectExtension (fp : AggFingerprint) (x : FieldDescriptor) : AggFingerprint :=
  { fp with extensions := fp.extensions ++ [x.fullName] }

mutual
def collectMessage (fp : AggFingerprint) : MessageDescriptor → AggFingerprint
  | ⟨n, _, _, nested, enums, exts⟩ =>
    let fp := { fp with messages := fp.messages ++ [n] }
    let fp := collectNested fp nested
    let fp := enums.foldl collectEnum fp
    exts.foldl collectExtension fp
def collectNested (fp : AggFingerprint) : List MessageDescriptor → AggFingerprint
  | [] => fp
  | msg :: nested => collectNested (collectMessage fp msg) nested
end

def collect (fp : AggFingerprint) (fd : FileDescriptor) : AggFingerprint :=
  let fp := { fp with filePaths := fp.filePaths ++ [fd.path] }
  let fp := collectNested fp fd.messages
  let fp := fd.enums.foldl collectEnum fp
  fd.extensions.foldl collectExtension fp

/-! ## Visiting names -/

mutual
def rangeMessageDescriptors (fn : σ → FullName → σ) (s : σ) : MessageDescriptor → σ
  | ⟨n, _, _, nested, enums, exts⟩ =>
    let s := fn s n
    let s := rangeNestedDescriptors fn s nested
    let s := enums.foldl (fun s e => fn s e.fullName) s
    exts.foldl (fun s x => fn s x.fullName) s
def rangeNestedDescriptors (fn : σ → FullName → σ) (s : σ) : List MessageDescriptor → σ
  | [] => s
  | msg :: nested => rangeNestedDescriptors fn (rangeMessageDescriptors fn s msg) nested
end

def rangeService (fn : σ → FullName → σ) (s : σ) (svc : ServiceDescriptor) : σ :=
  svc.methods.foldl (fun s m => fn s m.fullName) (fn s svc.fullName)

def rangeFileDescriptors (fn : σ → FullName → σ) (s : σ) (fd : FileDescriptor) : σ :=
  let s := rangeNestedDescriptors fn s fd.messages
  let s := fd.enums.foldl (fun s e => fn s e.fullName) s
  let s := fd.extensions.foldl (fun s x => fn s x.fullName) s
  fd.services.foldl (rangeService fn) s

end ProtoRegistry.Client.Walks
