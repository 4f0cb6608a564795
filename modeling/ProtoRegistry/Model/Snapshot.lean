import ProtoRegistry.Model.Descriptor
import Mathlib.Data.List.Flatten
import Mathlib.Data.List.Pairwise

/-!
# Snapshots, and the code the repository calls but does not contain

`External` collects the functions of other modules that the registry relies on: `protocompile`, the
parser, SHA-256 and the descriptor registries of protobuf-go. They are parameters of the model. What
the development assumes of them is stated in `External.Lawful`.
-/

namespace ProtoRegistry

/-- `[]byte`. -/
abbrev Bytes := List UInt8

/-- A token of the stream `ast.File.Stream` yields. -/
structure Token where
  text : String
  isSynthetic : Bool
  isSkippable : Bool
  deriving DecidableEq, Repr

/-- A compiled file with the compiled files it imports, as `protoreflect.FileImports` links them. -/
structure LinkedFile where
  file : FileDescriptor
  imports : List LinkedFile

/-- The code outside the repository. -/
structure External where
  /-- `parser.Parse`: the tokens of a source file, or its first error. -/
  parse : String → Bytes → Except String (List Token)
  /-- Hex-encoded SHA-256. -/
  sha256Hex : String → String
  /-- `protocompile.Compiler.Compile` with the given source resolver, inside the standard imports. -/
  protocompile : (String → Option Bytes) → List String → Except String (List LinkedFile)
  /-- `protos.Files.Open`: the schemas bundled with the registry. -/
  openBundled : String → Option Bytes
  /-- The standard imports of protocompile. -/
  isStandardImport : String → Bool
  /-- The paths that `protoregistry.GlobalFiles` of the running build has. -/
  inGlobalFiles : String → Bool
  /-- The files that a `protocompile.SourceResolver` without paths opens: those of the working directory. -/
  openFile : String → Option Bytes
  /-- `protodesc.NewFiles` followed by `RangeFiles`: the files of a descriptor set. -/
  newFiles : List FileDescriptor → Except String (List FileDescriptor)
  /-- Registering files and their types, one after another, in fresh `protoregistry` registries. -/
  registerFiles : List FileDescriptor → Except String Unit
  /-- The order in which Go ranges over a map with these keys. -/
  rangeKeys : List String → List String
  /-- `compiler.Version()` of the running build. -/
  compilerVersion : String

/-- No name is declared by two of the files. -/
def DisjointNames (files : List FileDescriptor) : Prop :=
  files.Pairwise fun f g => ∀ n ∈ f.declared, n ∉ g.declared

instance : Decidable (DisjointNames files) := inferInstanceAs (Decidable (List.Pairwise ..))

theorem DisjointNames.perm {files files' : List FileDescriptor} (h : DisjointNames files)
    (hperm : files.Perm files') : DisjointNames files' :=
  hperm.pairwise h fun hfg n hg hf => hfg n hf hg

theorem DisjointNames.eq_of_mem {files : List FileDescriptor} (h : DisjointNames files) (hf : f ∈ files)
    (hg : g ∈ files) (hnf : n ∈ f.declared) (hng : n ∈ g.declared) : f = g := by
  by_contra hne
  have : Std.Symm fun f g : FileDescriptor => ∀ n ∈ f.declared, n ∉ g.declared :=
    ⟨fun f g hfg n hg hf => hfg n hf hg⟩
  exact h.forall hf hg hne n hnf hng

/-- The packages a file is in: its own, those around it, and the root package. -/
def FileDescriptor.packageNames (fd : FileDescriptor) : List FullName := fd.package.chain ++ [[]]

/-- The files can be registered together: they differ in their paths, in the names they declare and in the
numbers they use for extensions of a message, and none has the name of a package at its top level. -/
structure Registrable (files : List FileDescriptor) : Prop where
  paths : (files.map (·.path)).Nodup
  declared : (files.flatMap (·.declared)).Nodup
  packages : ∀ f ∈ files, ∀ n ∈ f.packageNames, ∀ g ∈ files, n ∉ g.topLevelNames
  extensions : (files.flatMap fun f => f.types.filterMap (·.extensionKey)).Nodup

instance : Decidable (Registrable files) :=
  decidable_of_iff
    ((files.map (·.path)).Nodup ∧ (files.flatMap (·.declared)).Nodup ∧
      (∀ f ∈ files, ∀ n ∈ f.packageNames, ∀ g ∈ files, n ∉ g.topLevelNames) ∧
      (files.flatMap fun f => f.types.filterMap (·.extensionKey)).Nodup)
    ⟨fun ⟨h₁, h₂, h₃, h₄⟩ => ⟨h₁, h₂, h₃, h₄⟩, fun h => ⟨h.paths, h.declared, h.packages, h.extensions⟩⟩

namespace Registrable

variable {files files' : List FileDescriptor}

theorem sublist (h : Registrable files) (hsub : List.Sublist files' files) : Registrable files' where
  paths := h.paths.sublist (hsub.map _)
  declared := h.declared.sublist (hsub.flatMap _)
  packages f hf n hn g hg := h.packages f (hsub.subset hf) n hn g (hsub.subset hg)
  extensions := h.extensions.sublist (hsub.flatMap _)

theorem perm (h : Registrable files) (hperm : files.Perm files') : Registrable files' where
  paths := (hperm.map _).nodup_iff.mp h.paths
  declared := (hperm.flatMap_right _).nodup_iff.mp h.declared
  packages f hf n hn g hg := h.packages f (hperm.mem_iff.mpr hf) n hn g (hperm.mem_iff.mpr hg)
  extensions := (hperm.flatMap_right _).nodup_iff.mp h.extensions

theorem disjointNames (h : Registrable files) : DisjointNames files := by
  have hpairwise := (List.nodup_flatMap.mp h.declared).2
  exact hpairwise.imp fun hfg n hf hg => hfg hf hg

theorem topLevelNames_nodup (h : Registrable files) : (files.flatMap (·.topLevelNames)).Nodup := by
  have hdeclared := List.nodup_flatMap.mp h.declared
  apply List.nodup_flatMap.mpr
  constructor
  · intro f hf
    obtain ⟨l, hperm, hsub⟩ := f.topLevelNames_subperm_declared
    exact hperm.nodup_iff.mp ((hdeclared.1 f hf).sublist hsub)
  · apply hdeclared.2.imp
    intro f g hfg n hf hg
    exact hfg (f.topLevelNames_subperm_declared.subset hf) (g.topLevelNames_subperm_declared.subset hg)

end Registrable

/-- The documented behaviour of the external code that the development relies on. -/
structure External.Lawful (env : External) : Prop where
  /-- `protodesc.NewFiles` registers every file of the set, and `RangeFiles` visits each once, in an
  order that is not specified. -/
  newFiles_perm : ∀ {fds files}, env.newFiles fds = .ok files → files.Perm fds
  /-- A loop over a map visits each key once, in an order that is not specified. -/
  rangeKeys_perm : ∀ keys, (env.rangeKeys keys).Perm keys
  /-- The registries reject what conflicts with a file registered before. -/
  registrable_of_registerFiles : ∀ {files}, env.registerFiles files = .ok () → Registrable files

/-- An immutable, compiled view of a schema at a version. The registries `files` and `types` of the
source are determined by the list of files. -/
structure Snapshot where
  version : Nat
  fileList : List FileDescriptor
  deriving Repr

namespace Snapshot

/-- `snapshot.New`: from a stored descriptor set. -/
def new (env : External) (version : Nat) (fds : List FileDescriptor) : Except String Snapshot :=
  match env.newFiles fds with
  | .error e => .error ("building file registry: " ++ e)
  | .ok files =>
    match env.registerFiles files with
    | .error e => .error ("registering types: " ++ e)
    | .ok () => .ok ⟨version, files⟩

/-- `snapshot.NewFromFiles`: from freshly compiled files. -/
def newFromFiles (env : External) (version : Nat) (files : List FileDescriptor) :
    Except String Snapshot :=
  match env.registerFiles files with
  | .error e => .error ("registering file " ++ e)
  | .ok () => .ok ⟨version, files⟩

/-- `Files().FindFileByPath`. -/
def findFileByPath (s : Snapshot) (path : String) : Option FileDescriptor :=
  ProtoRegistry.findFileByPath s.fileList path

theorem new_eq_ok {env : External} {v : Nat} (h : new env v fds = .ok snap) :
    snap.version = v ∧ env.newFiles fds = .ok snap.fileList := by
  unfold new at h
  split at h
  · cases h
  · next files hfiles =>
    split at h
    · cases h
    · cases h
      exact ⟨rfl, hfiles⟩

theorem new_registers {env : External} {v : Nat} (h : new env v fds = .ok snap) :
    ∃ files, env.newFiles fds = .ok files ∧ env.registerFiles files = .ok () := by
  unfold new at h
  split at h
  · cases h
  · next files hfiles =>
    split at h
    · cases h
    · next hregister => exact ⟨files, hfiles, hregister⟩

theorem newFromFiles_eq_ok {env : External} {v : Nat} (h : newFromFiles env v files = .ok snap) :
    snap = ⟨v, files⟩ ∧ env.registerFiles files = .ok () := by
  unfold newFromFiles at h
  split at h
  · cases h
  · next hfiles =>
    cases h
    exact ⟨rfl, hfiles⟩

end Snapshot

end ProtoRegistry
