import ProtoRegistry.Model.Descriptor
import ProtoRegistry.Theory.Dict
import ProtoRegistry.Theory.Ranging

/-!
# Registries of files and types

`nsregistry.NamespacedFiles` and `nsregistry.NamespacedTypes`. The fields of a registry are one structure,
on which the writing methods work. What a lookup sees, the registry and everything it falls back to, is a
`FilesChain` or a `TypesChain`.
-/

namespace ProtoRegistry

/-! ## Errors -/

inductive TypeKind where
  | message | enum | extension
  deriving DecidableEq, Repr

/-- `typeName`. -/
def TypeKind.toText : TypeKind → String
  | .message => "message" | .enum => "enum" | .extension => "extension"

def TypeDescriptor.kind : TypeDescriptor → TypeKind
  | .message _ => .message
  | .enum _ => .enum
  | .extension _ => .extension

/-- What the writing methods return, or raise, instead of succeeding. -/
inductive RegistryErr where
  /-- `protoregistry.NotFound`. -/
  | notFound
  | fileRegistered (path : String)
  | packageConflict (path : String) (name : FullName)
  | nameConflict (path : String) (name : FullName)
  | typeRegistered (kind : TypeKind) (name : FullName)
  | numberRegistered (number : Nat) (message : FullName)
  /-- The type assertion on the package entry of a file fails. This is not an error that is returned. -/
  | panic
  deriving DecidableEq, Repr

/-- The text of `protoregistry.NotFound`. The blank, or a plain one, depends on the build of protobuf-go. -/
def notFoundText : String := "proto:\u00a0not found"

def RegistryErr.text : RegistryErr → String
  | .notFound => notFoundText
  | .fileRegistered path => "nsregistry: file " ++ quote path ++ " is already registered"
  | .packageConflict path name =>
    "nsregistry: file " ++ quote path ++ " has a package name conflict over " ++ name.toText
  | .nameConflict path name =>
    "nsregistry: file " ++ quote path ++ " has a name conflict over " ++ name.toText
  | .typeRegistered kind name =>
    "nsregistry: " ++ kind.toText ++ " " ++ name.toText ++ " is already registered"
  | .numberRegistered number message =>
    "nsregistry: extension number " ++ toString number ++ " is already registered on message " ++
      message.toText
  | .panic => "interface conversion: interface is not *packageDescriptor"

/-- What a lookup returns when it finds nothing to return. -/
inductive LookupErr where
  | notFound
  | multipleFiles (path : String)
  | wrongType (got want : TypeKind)
  deriving DecidableEq, Repr

/-! ## Files -/

/-- An entry of `descsByName`: a `packageDescriptor` with the files of the package, or a top-level
descriptor. -/
inductive NamedEntry where
  | package (files : List FileDescriptor)
  | descriptor (d : Descriptor)

structure FileRecord where
  pkg : FullName
  names : List FullName
  deriving DecidableEq, Repr

/-- The own fields of a `NamespacedFiles`. Descriptors are stored under their full names, files one by one
under their paths, and each file has its record. -/
structure NamespacedFiles where
  descsByName : Dict FullName NamedEntry
  filesByPath : Dict String (List FileDescriptor)
  numFiles : Int
  fileDescs : Dict String FileRecord
  fullName_of_get : ∀ {n d}, descsByName.get n = some (.descriptor d) → d.fullName = n
  singleton_of_get : ∀ {p fds}, filesByPath.get p = some fds → ∃ f, fds = [f] ∧ f.path = p
  isSome_record : ∀ p, (fileDescs.get p).isSome = (filesByPath.get p).isSome

namespace NamespacedFiles

/-- `NewNamespacedFiles`. -/
def new : NamespacedFiles where
  descsByName := Dict.empty.set [] (.package [])
  filesByPath := .empty
  numFiles := 0
  fileDescs := .empty
  fullName_of_get h := by
    rw [Dict.get_set] at h
    split at h <;> cases h
  singleton_of_get h := by cases h
  isSome_record _ := rfl

/-- Write the files of a package, whose entry is created when it is missing. -/
def setPackage (r : NamespacedFiles) (name : FullName) (files : List FileDescriptor) :
    NamespacedFiles where
  descsByName := r.descsByName.set name (.package files)
  filesByPath := r.filesByPath
  numFiles := r.numFiles
  fileDescs := r.fileDescs
  fullName_of_get h := by
    rw [Dict.get_set] at h
    split at h
    · cases h
    · exact r.fullName_of_get h
  singleton_of_get := r.singleton_of_get
  isSome_record := r.isSome_record

/-- `r.descsByName[d.FullName()] = d`. -/
def setDescriptor (r : NamespacedFiles) (d : Descriptor) : NamespacedFiles where
  descsByName := r.descsByName.set d.fullName (.descriptor d)
  filesByPath := r.filesByPath
  numFiles := r.numFiles
  fileDescs := r.fileDescs
  fullName_of_get h := by
    rw [Dict.get_set] at h
    split at h
    · next hn =>
      cases h
      exact hn.symm
    · exact r.fullName_of_get h
  singleton_of_get := r.singleton_of_get
  isSome_record := r.isSome_record

/-- `delete(r.descsByName, name)`. -/
def deleteName (r : NamespacedFiles) (name : FullName) : NamespacedFiles where
  descsByName := r.descsByName.delete name
  filesByPath := r.filesByPath
  numFiles := r.numFiles
  fileDescs := r.fileDescs
  fullName_of_get h := by
    rw [Dict.get_delete] at h
    split at h
    · cases h
    · exact r.fullName_of_get h
  singleton_of_get := r.singleton_of_get
  isSome_record := r.isSome_record

/-- Enter a file into `filesByPath` and `fileDescs`, and count it. -/
def setFile (r : NamespacedFiles) (file : FileDescriptor) : NamespacedFiles where
  descsByName := r.descsByName
  filesByPath := r.filesByPath.set file.path [file]
  numFiles := r.numFiles + 1
  fileDescs := r.fileDescs.set file.path ⟨file.package, file.topLevelNames⟩
  fullName_of_get := r.fullName_of_get
  singleton_of_get h := by
    rw [Dict.get_set] at h
    split at h
    · next hp =>
      cases h
      exact ⟨file, rfl, hp.symm⟩
    · exact r.singleton_of_get h
  isSome_record p := by
    rw [Dict.get_set, Dict.get_set]
    split
    · rfl
    · exact r.isSome_record p

/-- Remove a path from `filesByPath` and `fileDescs`, and count it off. -/
def deleteFile (r : NamespacedFiles) (path : String) : NamespacedFiles where
  descsByName := r.descsByName
  filesByPath := r.filesByPath.delete path
  numFiles := r.numFiles - 1
  fileDescs := r.fileDescs.delete path
  fullName_of_get := r.fullName_of_get
  singleton_of_get h := by
    rw [Dict.get_delete] at h
    split at h
    · cases h
    · exact r.singleton_of_get h
  isSome_record p := by
    rw [Dict.get_delete, Dict.get_delete]
    split
    · rfl
    · exact r.isSome_record p

/-! ### Writing -/

/-- The loop of `insertFileLocked` that makes sure of the package entries. -/
def ensurePackages (r : NamespacedFiles) (names : List FullName) : NamespacedFiles :=
  names.foldl (fun r name => if (r.descsByName.get name).isNone then r.setPackage name [] else r) r

def insertFileLocked (r : NamespacedFiles) (file : FileDescriptor) :
    Except RegistryErr NamespacedFiles :=
  let r := r.ensurePackages file.package.chain
  match r.descsByName.get file.package with
  | some (.package files) =>
    let r := r.setPackage file.package (files ++ [file])
    .ok ((file.topLevel.foldl setDescriptor r).setFile file)
  | _ => .error .panic

def isDescriptor (r : NamespacedFiles) (name : FullName) : Bool :=
  match r.descsByName.get name with
  | some (.descriptor _) => true
  | _ => false

def registerFile (r : NamespacedFiles) (file : FileDescriptor) : Except RegistryErr NamespacedFiles :=
  if (r.filesByPath.get file.path).any (!·.isEmpty) then .error (.fileRegistered file.path) else
    match file.package.chain.find? r.isDescriptor with
    | some name => .error (.packageConflict file.path name)
    | none =>
      match file.topLevelNames.find? fun name => (r.descsByName.get name).isSome with
      | some name => .error (.nameConflict file.path name)
      | none => r.insertFileLocked file

def removeFileByPath (files : List FileDescriptor) (path : String) : List FileDescriptor :=
  files.eraseP (·.path = path)

/-- Remove the empty packages from a list of names, up to the first that is not one. -/
def cleanup : NamespacedFiles → List FullName → NamespacedFiles
  | r, [] => r
  | r, name :: rest =>
    match r.descsByName.get name with
    | some (.package []) => cleanup (r.deleteName name) rest
    | _ => r

def cleanupPackageChain (r : NamespacedFiles) (pkg : FullName) : NamespacedFiles := r.cleanup pkg.chain

/-- Take a file out of its package, and remove the packages that this leaves empty. -/
def leavePackage (r : NamespacedFiles) (pkg : FullName) (path : String) : NamespacedFiles :=
  match r.descsByName.get pkg with
  | some (.package files) => (r.setPackage pkg (removeFileByPath files path)).cleanupPackageChain pkg
  | _ => r

def dropFromPackage (r : NamespacedFiles) (pkg : FullName) (path : String) : NamespacedFiles :=
  match r.descsByName.get pkg with
  | some (.package files) => r.setPackage pkg (removeFileByPath files path)
  | _ => r

/-- The first part of `UpdateFile`: take out what is registered at the path of the new file. -/
def removeStale (r : NamespacedFiles) (file : FileDescriptor) (old : FileRecord) : NamespacedFiles :=
  let r := (old.names.filter (· ∉ file.topLevelNames)).foldl deleteName r
  let r := if old.pkg ≠ file.package then r.leavePackage old.pkg file.path else r
  let r := r.deleteFile file.path
  if old.pkg = file.package then r.dropFromPackage file.package file.path else r

def updateFile (r : NamespacedFiles) (file : FileDescriptor) : Except RegistryErr NamespacedFiles :=
  match r.fileDescs.get file.path with
  | some old => (r.removeStale file old).insertFileLocked file
  | none => r.insertFileLocked file

def unregisterFile (r : NamespacedFiles) (path : String) : Except RegistryErr NamespacedFiles :=
  match r.fileDescs.get path with
  | none => .error .notFound
  | some old => .ok (((old.names.foldl deleteName r).leavePackage old.pkg path).deleteFile path)

/-! ### Reading -/

/-- The files a `RangeFiles` visits. -/
def rangeFiles (r : NamespacedFiles) : List FileDescriptor := r.filesByPath.values.flatten

/-- The files a `RangeFilesByPackage` visits. -/
def rangeFilesByPackage (r : NamespacedFiles) (name : FullName) : List FileDescriptor :=
  match r.descsByName.get name with
  | some (.package files) => files
  | _ => []

def numFilesByPackage (r : NamespacedFiles) (name : FullName) : Nat :=
  match r.descsByName.get name with
  | some (.package files) => files.length
  | _ => 0

end NamespacedFiles

/-- `ByName` of a list of descriptors. -/
def byName (fullName : α → FullName) (ds : List α) (name : String) : Option α :=
  ds.find? fun d => (fullName d).name = name

/-- The innermost declarations of `findDescriptorInMessage`. -/
def findLeafInMessage (md : MessageDescriptor) (name : String) : Option Descriptor :=
  ((byName (·.fullName) md.enums name).map .enum).or <|
    (md.enums.reverse.findSome? fun e => (byName (·.fullName) e.values name).map .enumValue).or <|
      ((byName (·.fullName) md.extensions name).map .extension).or <|
        ((byName (·.fullName) md.fields name).map .field).or <|
          (byName (·.fullName) md.oneofs name).map .oneof

/-- The suffix is what follows the name of the message, segment by segment. -/
def findDescriptorInMessage (md : MessageDescriptor) : List String → Option Descriptor
  | [] => none
  | [name] => (findLeafInMessage md name).or ((byName (·.fullName) md.messages name).map .message)
  | name :: suffix =>
    match byName (·.fullName) md.messages name with
    | none => none
    | some nested => findDescriptorInMessage nested suffix

/-- What the entry found at a name says about a name that continues with `suffix`. -/
def NamedEntry.resolve (name : FullName) (suffix : List String) : NamedEntry → Option Descriptor
  | .package _ => none
  | .descriptor d =>
    if d.fullName = name then some d else
      match d with
      | .message md => (findDescriptorInMessage md suffix).filter (·.fullName = name)
      | .service sd =>
        ((byName (·.fullName) sd.methods (suffix.headD "")).map .method).filter (·.fullName = name)
      | _ => none

/-- The innermost enclosing name that has an entry decides. -/
def NamespacedFiles.findDescriptorByNameLocal (r : NamespacedFiles) (name : FullName) :
    Except LookupErr Descriptor :=
  let found := name.chain.findSome? fun outer =>
    (r.descsByName.get outer).map fun entry => entry.resolve name (name.drop outer.length)
  match found.join with
  | some d => .ok d
  | none => .error .notFound

/-- `protoregistry.Files`, as far as it is read. -/
structure GlobalFiles where
  findDescriptorByName : FullName → Except LookupErr Descriptor
  findFileByPath : String → Except LookupErr FileDescriptor
  rangeFiles : List FileDescriptor

/-- A pointer to a `NamespacedFiles`, with everything its lookups reach. -/
inductive FilesChain where
  | nil
  /-- The read-only wrapper of the global registry. -/
  | global (files : GlobalFiles)
  | node (files : NamespacedFiles) (parent : FilesChain)

namespace FilesChain

def findDescriptorByName (name : FullName) : FilesChain → Except LookupErr Descriptor
  | .nil => .error .notFound
  | .global files => files.findDescriptorByName name
  | .node files parent =>
    match files.findDescriptorByNameLocal name with
    | .error .notFound => parent.findDescriptorByName name
    | res => res

def findFileByPath (path : String) : FilesChain → Except LookupErr FileDescriptor
  | .nil => .error .notFound
  | .global files => files.findFileByPath path
  | .node files parent =>
    match (files.filesByPath.get path).getD [] with
    | [f] => .ok f
    | [] => parent.findFileByPath path
    | _ => .error (.multipleFiles path)

/-- The callback of the loop over the global registry, with the paths seen next to the state of `f`. -/
def visitFile (f : FileDescriptor → σ → Bool × σ) (fd : FileDescriptor) (st : List String × σ) :
    Bool × List String × σ :=
  if fd.path ∈ st.1 then (true, st)
  else
    let res := f fd st.2
    (res.1, fd.path :: st.1, res.2)

/-- The method `rangeFilesAll`. Go leaves open in which order a map is iterated: for the registry with number
`i` of the chain it is `order i`. -/
def rangeFrom (order : Nat → List (String × List FileDescriptor) → List (String × List FileDescriptor))
    (f : FileDescriptor → σ → Bool × σ) : Nat → FilesChain → List String × σ → Bool × List String × σ
  | _, .nil, st => (true, st)
  | _, .global files, st => rangeWhile (visitFile f) files.rangeFiles st
  | i, .node files parent, st =>
    match rangeWhile (visitEntry f) (order i files.filesByPath.toList) st with
    | (true, st') => rangeFrom order f (i + 1) parent st'
    | (false, st') => (false, st')

/-- `RangeFilesAll`, as the state that the callback is left in. -/
def rangeFilesAll (order : Nat → List (String × List FileDescriptor) → List (String × List FileDescriptor))
    (f : FileDescriptor → σ → Bool × σ) (c : FilesChain) (s : σ) : σ :=
  (rangeFrom order f 0 c ([], s)).2.2

end FilesChain

/-! ## Types -/

/-- The own fields of a `NamespacedTypes`. Types are stored under their full names, and extensions also
under their extendee and number. -/
structure NamespacedTypes where
  typesByName : Dict FullName TypeDescriptor
  extensionsByMessage : Dict FullName (Dict Nat FieldDescriptor)
  numEnums : Int
  numMessages : Int
  numExtensions : Int
  fullName_of_get : ∀ {n t}, typesByName.get n = some t → t.fullName = n

namespace NamespacedTypes

/-- `NewNamespacedTypes`. -/
def new : NamespacedTypes where
  typesByName := .empty
  extensionsByMessage := .empty
  numEnums := 0
  numMessages := 0
  numExtensions := 0
  fullName_of_get h := by cases h

def count (r : NamespacedTypes) (kind : TypeKind) (k : Int) : NamespacedTypes :=
  match kind with
  | .enum => { r with numEnums := r.numEnums + k }
  | .message => { r with numMessages := r.numMessages + k }
  | .extension => { r with numExtensions := r.numExtensions + k }

def setType (r : NamespacedTypes) (t : TypeDescriptor) : NamespacedTypes where
  typesByName := r.typesByName.set t.fullName t
  extensionsByMessage := r.extensionsByMessage
  numEnums := r.numEnums
  numMessages := r.numMessages
  numExtensions := r.numExtensions
  fullName_of_get h := by
    rw [Dict.get_set] at h
    split at h
    · next hn =>
      cases h
      exact hn.symm
    · exact r.fullName_of_get h

def deleteType (r : NamespacedTypes) (name : FullName) : NamespacedTypes where
  typesByName := r.typesByName.delete name
  extensionsByMessage := r.extensionsByMessage
  numEnums := r.numEnums
  numMessages := r.numMessages
  numExtensions := r.numExtensions
  fullName_of_get h := by
    rw [Dict.get_delete] at h
    split at h
    · cases h
    · exact r.fullName_of_get h

/-- `r.extensionsByMessage[message][field]`. -/
def extensionAt (r : NamespacedTypes) (message : FullName) (field : Nat) : Option FieldDescriptor :=
  (r.extensionsByMessage.get message).bind (·.get field)

def setExtension (r : NamespacedTypes) (x : FieldDescriptor) : NamespacedTypes :=
  { r with
    extensionsByMessage := r.extensionsByMessage.set x.containingMessage
      (((r.extensionsByMessage.get x.containingMessage).getD .empty).set x.number x) }

/-- Remove an extension number, and the map of the message with its last one. -/
def deleteExtension (r : NamespacedTypes) (message : FullName) (field : Nat) : NamespacedTypes :=
  match r.extensionsByMessage.get message with
  | none => r
  | some exts =>
    let exts := exts.delete field
    { r with
      extensionsByMessage :=
        if exts.keys.isEmpty then r.extensionsByMessage.delete message
        else r.extensionsByMessage.set message exts }

/-! ### Writing -/

/-- `RegisterMessage` and `RegisterEnum`. -/
def registerType (r : NamespacedTypes) (t : TypeDescriptor) : Except RegistryErr NamespacedTypes :=
  if (r.typesByName.get t.fullName).isSome then .error (.typeRegistered t.kind t.fullName)
  else .ok ((r.setType t).count t.kind 1)

def registerMessage (r : NamespacedTypes) (m : MessageDescriptor) : Except RegistryErr NamespacedTypes :=
  r.registerType (.message m)

def registerEnum (r : NamespacedTypes) (e : EnumDescriptor) : Except RegistryErr NamespacedTypes :=
  r.registerType (.enum e)

def registerExtension (r : NamespacedTypes) (x : FieldDescriptor) :
    Except RegistryErr NamespacedTypes :=
  if (r.typesByName.get x.fullName).isSome then .error (.typeRegistered .extension x.fullName)
  else if (r.extensionAt x.containingMessage x.number).isSome then
    .error (.numberRegistered x.number x.containingMessage)
  else .ok (((r.setType (.extension x)).setExtension x).count .extension 1)

/-- `UpdateMessage` and `UpdateEnum`, which always succeed. -/
def updateType (r : NamespacedTypes) (t : TypeDescriptor) : NamespacedTypes :=
  (if (r.typesByName.get t.fullName).isNone then r.count t.kind 1 else r).setType t

def updateMessage (r : NamespacedTypes) (m : MessageDescriptor) : NamespacedTypes :=
  r.updateType (.message m)

def updateEnum (r : NamespacedTypes) (e : EnumDescriptor) : NamespacedTypes := r.updateType (.enum e)

def updateExtension (r : NamespacedTypes) (x : FieldDescriptor) : NamespacedTypes :=
  (r.updateType (.extension x)).setExtension x

/-- `UnregisterMessage` and `UnregisterEnum`. -/
def unregisterType (r : NamespacedTypes) (kind : TypeKind) (name : FullName) :
    Except RegistryErr NamespacedTypes :=
  match r.typesByName.get name with
  | some t => if t.kind = kind then .ok ((r.deleteType name).count kind (-1)) else .error .notFound
  | none => .error .notFound

def unregisterMessage (r : NamespacedTypes) (name : FullName) : Except RegistryErr NamespacedTypes :=
  r.unregisterType .message name

def unregisterEnum (r : NamespacedTypes) (name : FullName) : Except RegistryErr NamespacedTypes :=
  r.unregisterType .enum name

def unregisterExtension (r : NamespacedTypes) (name : FullName) : Except RegistryErr NamespacedTypes :=
  match r.typesByName.get name with
  | some (.extension x) =>
    .ok (((r.deleteType name).deleteExtension x.containingMessage x.number).count .extension (-1))
  | _ => .error .notFound

/-! ### Reading -/

/-- The messages a `RangeMessages` visits. -/
def rangeMessages (r : NamespacedTypes) : List MessageDescriptor :=
  r.typesByName.values.filterMap fun
    | .message m => some m
    | _ => none

end NamespacedTypes

/-- `protoregistry.Types`, as far as it is read. -/
structure GlobalTypes where
  typesByName : FullName → Option TypeDescriptor
  extensionAt : FullName → Nat → Option FieldDescriptor
  rangeMessages : List MessageDescriptor

/-- A pointer to a `NamespacedTypes`, with everything its lookups reach. -/
inductive TypesChain where
  | nil
  /-- The read-only wrapper of the global registry. -/
  | global (types : GlobalTypes)
  | node (types : NamespacedTypes) (parent : TypesChain)

namespace TypesChain

/-- The nearest type of a name. -/
def typeByName (name : FullName) : TypesChain → Option TypeDescriptor
  | .nil => none
  | .global types => types.typesByName name
  | .node types parent => (types.typesByName.get name).or (parent.typeByName name)

/-- The lookups by name. A type of another kind hides those further up. -/
def findByName (want : TypeKind) (select : TypeDescriptor → Option α) (c : TypesChain)
    (name : FullName) : Except LookupErr α :=
  match c.typeByName name with
  | none => .error .notFound
  | some t =>
    match select t with
    | some a => .ok a
    | none => .error (.wrongType t.kind want)

def findMessageByName (c : TypesChain) (name : FullName) : Except LookupErr MessageDescriptor :=
  c.findByName .message (fun | .message m => some m | _ => none) name

def findEnumByName (c : TypesChain) (name : FullName) : Except LookupErr EnumDescriptor :=
  c.findByName .enum (fun | .enum e => some e | _ => none) name

def findExtensionByName (c : TypesChain) (name : FullName) : Except LookupErr FieldDescriptor :=
  c.findByName .extension (fun | .extension x => some x | _ => none) name

def findExtensionByNumber (message : FullName) (field : Nat) : TypesChain → Except LookupErr FieldDescriptor
  | .nil => .error .notFound
  | .global types =>
    match types.extensionAt message field with
    | some x => .ok x
    | none => .error .notFound
  | .node types parent =>
    match types.extensionAt message field with
    | some x => .ok x
    | none => parent.findExtensionByNumber message field

/-- The messages a `RangeMessages` visits. It does not go on to the parent. -/
def rangeMessages : TypesChain → List MessageDescriptor
  | .nil => []
  | .global types => types.rangeMessages
  | .node types _ => types.rangeMessages

end TypesChain

end ProtoRegistry
