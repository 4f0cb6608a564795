import ProtoRegistry.Model.Compiler
import ProtoRegistry.Theory.Grounded

/-!
# The store

The tables of the PostgreSQL schema, and each method of `store.Store` as one atomic operation on them.
A row of `schema_versions` is kept together with its rows of `schema_version_files` and
`schema_version_deps`, which only `putVersion` writes, in the same transaction. Rows are never deleted.
-/

namespace ProtoRegistry

/-- What callers tell apart with `errors.Is` and `errors.As`. -/
inductive ErrKind where
  | other
  | parentCycle
  | namespaceNotFound
  | permissionDenied
  | fqnConflict (ancestorNamespaceID : String) (conflicts : List FQNConflict)
  deriving DecidableEq, Repr

structure Err where
  text : String
  kind : ErrKind := .other
  deriving DecidableEq, Repr

/-- `fmt.Errorf("…: %w", err)`. -/
def Err.wrap (context : String) (e : Err) : Err := { e with text := context ++ ": " ++ e.text }

def errParentCycle : Err := ⟨"setting parent would create a cycle", .parentCycle⟩

def errNamespaceNotFound : Err := ⟨"namespace not found", .namespaceNotFound⟩

def errNoRows : Err := { text := "no rows in result set" }

def duplicateKey (constraint : String) : Err :=
  { text := "duplicate key value violates unique constraint \"" ++ constraint ++ "\"" }

def foreignKeyViolation (table constraint : String) : Err :=
  { text := "insert or update on table \"" ++ table ++ "\" violates foreign key constraint \"" ++
      constraint ++ "\"" }

/-! ## Tables -/

structure NamespaceRow where
  parentNamespaceID : Option String
  deriving DecidableEq, Repr

@[ext] structure SchemaRow where
  currentVersion : Option Nat
  stagedVersion : Option Nat
  deriving DecidableEq, Repr

/-- A schema row after `PromoteAllStaged` on its namespace. -/
def SchemaRow.promote (row : SchemaRow) : SchemaRow :=
  match row.stagedVersion with
  | none => row
  | some v => ⟨some v, none⟩

/-- `COALESCE(s.staged_version, s.current_version)`. -/
def SchemaRow.proposed (row : SchemaRow) : Option Nat := row.stagedVersion <|> row.currentVersion

structure VersionFile where
  filename : String
  blobSHA256 : String
  deriving DecidableEq, Repr

/-- A schema version with its file mappings and dependency records. -/
structure VersionRow where
  compiled : List FileDescriptor
  compilerVersion : String
  files : List VersionFile
  deps : List Dep

structure NamespaceParentEvent where
  namespaceID : String
  previousParentID : Option String
  newParentID : Option String
  actorID : String
  deriving DecidableEq, Repr

structure PromotedSchema where
  schemaID : String
  priorVersion : Option Nat := none
  currentVersion : Nat
  deriving DecidableEq, Repr

structure CurrentSchema where
  namespaceID : String
  schemaID : String
  version : Nat
  compiled : List FileDescriptor
  compilerVersion : String
  files : List VersionFile

structure Store where
  namespaces : Dict String NamespaceRow
  schemas : Dict (String × String) SchemaRow
  versions : Dict (String × String × Nat) VersionRow
  /-- Keyed by namespace and SHA-256. -/
  blobs : Dict (String × String) Bytes
  /-- In the order of insertion. -/
  parentEvents : List NamespaceParentEvent

namespace Store

/-- The store after the migrations. -/
def empty : Store := ⟨.empty, .empty, .empty, .empty, []⟩

/-! ## Namespaces -/

def parentOf (s : Store) (id : String) : Option String :=
  (s.namespaces.get id).bind (·.parentNamespaceID)

def getNamespace (s : Store) (id : String) : Except Err NamespaceRow :=
  match s.namespaces.get id with
  | none => .error (errNoRows.wrap ("getting namespace " ++ id))
  | some row => .ok row

/-- `INSERT INTO namespaces`. A row may be its own parent as far as the foreign key goes. -/
def createNamespace (s : Store) (id : String) (parent : Option String) : Except Err Unit × Store :=
  if (s.namespaces.get id).isSome then
    (.error (duplicateKey "namespaces_pkey"), s)
  else if ∃ p ∈ parent, p ≠ id ∧ s.namespaces.get p = none then
    (.error (foreignKeyViolation "namespaces" "namespaces_parent_namespace_id_fkey"), s)
  else
    (.ok (), { s with namespaces := s.namespaces.set id ⟨parent⟩ })

def listNamespaces (s : Store) : List (String × NamespaceRow) :=
  s.namespaces.toList.insertionSort fun a b => a.1 ≤ b.1

/-- The common table expression `ancestors`: the rows met from `id` upwards, at most `depth`. -/
def ancestors (s : Store) : Nat → String → List String
  | 0, _ => []
  | depth + 1, id =>
    match s.namespaces.get id with
    | none => []
    | some row => id :: match row.parentNamespaceID with
      | none => []
      | some p => s.ancestors depth p

/-- The bound on the depth of the recursive query. -/
def maxDepth : Nat := 64

/-- The `WHERE` clause of the query `SetNamespaceParent`, for the ancestors that its recursive part has
found. -/
def AcceptsUpdate (s : Store) (namespaceID newParentID : String) (ancestors : List String) : Prop :=
  (s.namespaces.get namespaceID).isSome ∧ namespaceID ≠ newParentID ∧
    (s.namespaces.get newParentID).isSome ∧ namespaceID ∉ ancestors

instance : Decidable (AcceptsUpdate s n p found) := inferInstanceAs (Decidable (_ ∧ _ ∧ _ ∧ _))

/-- The `WHERE` clause when nothing changes while the query runs. -/
def AcceptsParent (s : Store) (namespaceID newParentID : String) : Prop :=
  s.AcceptsUpdate namespaceID newParentID (s.ancestors maxDepth newParentID)

instance : Decidable (AcceptsParent s n p) := inferInstanceAs (Decidable (AcceptsUpdate ..))

/-- `UPDATE namespaces SET parent_namespace_id`. -/
def writeParent (s : Store) (namespaceID : String) (parentID : Option String) : Store :=
  match s.namespaces.get namespaceID with
  | none => s
  | some _ => { s with namespaces := s.namespaces.set namespaceID ⟨parentID⟩ }

def recordNamespaceParentEvent (s : Store) (ev : NamespaceParentEvent) : Store :=
  { s with parentEvents := s.parentEvents ++ [ev] }

def setNamespaceParent (s : Store) (namespaceID : String) (parentID : Option String)
    (actorID : String) : Except Err Unit × Store :=
  match s.namespaces.get namespaceID with
  | none => (.error errNamespaceNotFound, s)
  | some existing =>
    let commit := (s.writeParent namespaceID parentID).recordNamespaceParentEvent
      ⟨namespaceID, existing.parentNamespaceID, parentID, actorID⟩
    match parentID with
    | none => (.ok (), commit)
    | some p =>
      if s.namespaces.get p = none then (.error errNamespaceNotFound, s)
      else if s.AcceptsParent namespaceID p then (.ok (), commit)
      else (.error errParentCycle, s)

/-! ## Blobs -/

def putBlob (s : Store) (namespaceID sha256 : String) (source : Bytes) : Except Err Unit × Store :=
  if s.namespaces.get namespaceID = none then
    (.error (foreignKeyViolation "proto_blobs" "proto_blobs_namespace_id_fkey"), s)
  else if (s.blobs.get (namespaceID, sha256)).isSome then
    (.ok (), s)
  else
    (.ok (), { s with blobs := s.blobs.set (namespaceID, sha256) source })

def getBlob (s : Store) (namespaceID sha256 : String) : Except Err Bytes :=
  match s.blobs.get (namespaceID, sha256) with
  | none => .error (errNoRows.wrap ("getting blob " ++ namespaceID ++ "/" ++ sha256))
  | some source => .ok source

/-! ## Schemas and versions -/

def createSchema (s : Store) (namespaceID schemaID : String) : Except Err Unit × Store :=
  if (s.schemas.get (namespaceID, schemaID)).isSome then
    (.error (duplicateKey "schemas_pkey"), s)
  else if s.namespaces.get namespaceID = none then
    (.error (foreignKeyViolation "schemas" "schemas_namespace_id_fkey"), s)
  else
    (.ok (), { s with schemas := s.schemas.set (namespaceID, schemaID) ⟨none, none⟩ })

def getSchema (s : Store) (namespaceID schemaID : String) : Except Err SchemaRow :=
  match s.schemas.get (namespaceID, schemaID) with
  | none => .error (errNoRows.wrap ("getting schema " ++ namespaceID ++ "/" ++ schemaID))
  | some row => .ok row

/-- The first of the rows that its table refuses, for a primary key inserted before or for a foreign key that has no
row. -/
def insertViolation [DecidableEq κ] (table foreignKey : String) (key : α → κ) (dangling : α → Bool)
    (context : α → String) : List κ → List α → Option Err
  | _, [] => none
  | inserted, row :: rows =>
    if key row ∈ inserted then
      some ((duplicateKey (table ++ "_pkey")).wrap (context row))
    else if dangling row then
      some ((foreignKeyViolation table foreignKey).wrap (context row))
    else
      insertViolation table foreignKey key dangling context (key row :: inserted) rows

/-- The constraints on the rows `putVersion` inserts, in the order it inserts them. -/
def versionViolation (s : Store) (namespaceID schemaID : String) (version : Nat) (row : VersionRow) :
    Option Err :=
  if (s.versions.get (namespaceID, schemaID, version)).isSome then
    some ((duplicateKey "schema_versions_pkey").wrap "inserting version")
  else if s.schemas.get (namespaceID, schemaID) = none then
    some ((foreignKeyViolation "schema_versions" "schema_versions_namespace_id_schema_id_fkey").wrap
      "inserting version")
  else
    (insertViolation "schema_version_files" "schema_version_files_namespace_id_blob_sha256_fkey"
      (·.filename) (fun f => (s.blobs.get (namespaceID, f.blobSHA256)).isNone)
      (fun f => "inserting version file " ++ f.filename) [] row.files).or
    (insertViolation "schema_version_deps" "schema_version_deps_dep_namespace_id_fkey"
      (fun d => (d.depNamespaceID, d.depSchemaID, d.depFilename))
      (fun d => (s.namespaces.get d.depNamespaceID).isNone)
      (fun _ => "inserting version dep") [] row.deps)

def putVersion (s : Store) (namespaceID schemaID : String) (version : Nat) (row : VersionRow) :
    Except Err Unit × Store :=
  match s.versionViolation namespaceID schemaID version row with
  | some e => (.error e, s)
  | none =>
    (.ok (), { s with versions := s.versions.set (namespaceID, schemaID, version) row })

def getVersion (s : Store) (namespaceID schemaID : String) (version : Nat) : Except Err VersionRow :=
  match s.versions.get (namespaceID, schemaID, version) with
  | none => .error (errNoRows.wrap
      ("getting version " ++ namespaceID ++ "/" ++ schemaID ++ "@" ++ toString version))
  | some row => .ok row

def sortVersionFiles (files : List VersionFile) : List VersionFile :=
  files.insertionSort fun a b => a.filename ≤ b.filename

def getVersionFiles (s : Store) (namespaceID schemaID : String) (version : Nat) :
    List VersionFile :=
  match s.versions.get (namespaceID, schemaID, version) with
  | none => []
  | some row => sortVersionFiles row.files

def getVersionDeps (s : Store) (namespaceID schemaID : String) (version : Nat) : List Dep :=
  match s.versions.get (namespaceID, schemaID, version) with
  | none => []
  | some row => row.deps

def listVersions (s : Store) (namespaceID schemaID : String) : List Nat :=
  (s.versions.keys.filterMap fun (n, sc, v) =>
    if n = namespaceID ∧ sc = schemaID then some v else none).insertionSort (· ≤ ·)

/-! ## Staging and promotion -/

/-- `setStaged` clears the pointer for version 0. A schema that does not exist is not updated. -/
def setStaged (s : Store) (namespaceID schemaID : String) (version : Nat) : Store :=
  match s.schemas.get (namespaceID, schemaID) with
  | none => s
  | some row =>
    let staged := if version = 0 then none else some version
    { s with schemas := s.schemas.set (namespaceID, schemaID) { row with stagedVersion := staged } }

def promote (s : Store) (namespaceID : String) : List PromotedSchema × Store :=
  let promoted := s.schemas.toList.filterMap fun ((n, schemaID), row) =>
    if n = namespaceID then row.stagedVersion.map fun v => { schemaID, currentVersion := v } else none
  (promoted, { s with
    schemas := s.schemas.mapValues fun k row =>
      if k.1 = namespaceID then row.promote else row })

def discardStaging (s : Store) (namespaceID : String) : Store :=
  { s with
    schemas := s.schemas.mapValues fun k row =>
      if k.1 = namespaceID then { row with stagedVersion := none } else row }

/-! ## Loading -/

/-- One schema of a `Load…` query: the version its row points to, joined with the version's files. The
inner join has no row for a version without files. -/
def loadSchema (s : Store) (pointer : SchemaRow → Option Nat) (k : String × String)
    (row : SchemaRow) : Option CurrentSchema :=
  match pointer row with
  | none => none
  | some v =>
    match s.versions.get (k.1, k.2, v) with
    | none => none
    | some ver =>
      if ver.files.isEmpty then none else
        some ⟨k.1, k.2, v, ver.compiled, ver.compilerVersion, sortVersionFiles ver.files⟩

def loadSchemas (s : Store) (pointer : SchemaRow → Option Nat) (select : String → Bool) :
    List CurrentSchema :=
  ((s.schemas.toList.filter (select ·.1.1)).filterMap fun e => s.loadSchema pointer e.1 e.2
    ).insertionSort fun a b =>
      a.namespaceID < b.namespaceID ∨ (a.namespaceID = b.namespaceID ∧ a.schemaID ≤ b.schemaID)

def loadAllCurrent (s : Store) : List CurrentSchema :=
  s.loadSchemas (·.currentVersion) fun _ => true

def loadNamespaceCurrent (s : Store) (namespaceID : String) : List CurrentSchema :=
  s.loadSchemas (·.currentVersion) (· = namespaceID)

def loadNamespaceProposed (s : Store) (namespaceID : String) : List CurrentSchema :=
  s.loadSchemas SchemaRow.proposed (· = namespaceID)

end Store

/-! ## The operations -/

/-- The calls of `store.Store` that the registry makes. -/
inductive StoreOp where
  | getNamespace (id : String)
  | createNamespace (id : String) (parent : Option String)
  | listNamespaces
  | setNamespaceParent (namespaceID : String) (parentID : Option String) (actorID : String)
  | putBlob (namespaceID sha256 : String) (source : Bytes)
  | getBlob (namespaceID sha256 : String)
  | createSchema (namespaceID schemaID : String)
  | getSchema (namespaceID schemaID : String)
  | putVersion (namespaceID schemaID : String) (version : Nat) (row : VersionRow)
  | getVersion (namespaceID schemaID : String) (version : Nat)
  | getVersionFiles (namespaceID schemaID : String) (version : Nat)
  | getVersionDeps (namespaceID schemaID : String) (version : Nat)
  | listVersions (namespaceID schemaID : String)
  | setStaged (namespaceID schemaID : String) (version : Nat)
  | promote (namespaceID : String)
  | discardStaging (namespaceID : String)
  | loadAllCurrent
  | loadNamespaceCurrent (namespaceID : String)
  | loadNamespaceProposed (namespaceID : String)

/-- What a call returns when it succeeds. -/
abbrev StoreOp.Val : StoreOp → Type
  | .getNamespace _ => NamespaceRow
  | .listNamespaces => List (String × NamespaceRow)
  | .getBlob .. => Bytes
  | .getSchema .. => SchemaRow
  | .getVersion .. => VersionRow
  | .getVersionFiles .. => List VersionFile
  | .getVersionDeps .. => List Dep
  | .listVersions .. => List Nat
  | .promote _ => List PromotedSchema
  | .loadAllCurrent | .loadNamespaceCurrent _ | .loadNamespaceProposed _ => List CurrentSchema
  | .createNamespace .. | .setNamespaceParent .. | .putBlob .. | .createSchema .. | .putVersion ..
  | .setStaged .. | .discardStaging _ => Unit

/-- One call, executed atomically. -/
def Store.perform : (op : StoreOp) → Store → Except Err op.Val × Store
  | .getNamespace id, s => (s.getNamespace id, s)
  | .createNamespace id parent, s => s.createNamespace id parent
  | .listNamespaces, s => (.ok s.listNamespaces, s)
  | .setNamespaceParent n p actor, s => s.setNamespaceParent n p actor
  | .putBlob n sha source, s => s.putBlob n sha source
  | .getBlob n sha, s => (s.getBlob n sha, s)
  | .createSchema n sc, s => s.createSchema n sc
  | .getSchema n sc, s => (s.getSchema n sc, s)
  | .putVersion n sc v row, s => s.putVersion n sc v row
  | .getVersion n sc v, s => (s.getVersion n sc v, s)
  | .getVersionFiles n sc v, s => (.ok (s.getVersionFiles n sc v), s)
  | .getVersionDeps n sc v, s => (.ok (s.getVersionDeps n sc v), s)
  | .listVersions n sc, s => (.ok (s.listVersions n sc), s)
  | .setStaged n sc v, s => (.ok (), s.setStaged n sc v)
  | .promote n, s => (.ok (s.promote n).1, (s.promote n).2)
  | .discardStaging n, s => (.ok (), s.discardStaging n)
  | .loadAllCurrent, s => (.ok s.loadAllCurrent, s)
  | .loadNamespaceCurrent n, s => (.ok (s.loadNamespaceCurrent n), s)
  | .loadNamespaceProposed n, s => (.ok (s.loadNamespaceProposed n), s)

end ProtoRegistry
