import ProtoRegistry.Model.Snapshot
import ProtoRegistry.Theory.Dict
import ProtoRegistry.Theory.Except
import Mathlib.Data.List.Sort

/-!
# Compilation and the conflict check of decision D2

`Compiler.compile` bounds and hashes the sources, resolves imports through the tiers of
`buildResolverChain`, hands them to protocompile, and collects the compiled files with everything they
import. `detectFQNConflicts` compares the names two snapshots define.
-/

namespace ProtoRegistry

/-- A `map[string][]byte` of source files. -/
abbrev Sources := Dict String Bytes

structure FileResult where
  filename : String
  blobSHA256 : String
  originalSource : Bytes
  deriving DecidableEq, Repr

structure Dep where
  depNamespaceID : String
  depSchemaID : String
  depFilename : String
  depVersion : Nat
  deriving DecidableEq, Repr

structure DepSource where
  namespaceID : String
  schemaID : String
  version : Nat
  filename : String
  source : Bytes
  deriving DecidableEq, Repr

structure ChainTier where
  namespaceID : String
  files : List DepSource
  deriving DecidableEq, Repr

structure CompileResult where
  snapshot : Snapshot
  /-- The serialized `FileDescriptorSet`, as the set. -/
  compiled : List FileDescriptor
  files : List FileResult
  deps : List Dep

/-- The caps of a `Compiler`; zero disables a cap. -/
structure Compiler where
  maxFileSourceBytes : Nat := 8 * 1024 * 1024
  maxFiles : Nat := 1000
  deriving DecidableEq, Repr

/-! ## Normalization -/

def writeCanonical (tokens : List Token) : String :=
  String.join <| tokens.map fun t =>
    if t.isSynthetic || t.isSkippable || t.text.isEmpty then "" else t.text ++ " "

def normalizeAndHash (env : External) (filename : String) (source : Bytes) :
    Except String FileResult :=
  match env.parse filename source with
  | .error e => .error ("parsing " ++ filename ++ ": " ++ e)
  | .ok tokens => .ok ⟨filename, env.sha256Hex (writeCanonical tokens), source⟩

def sortFileResults (files : List FileResult) : List FileResult :=
  files.insertionSort fun a b => a.filename ≤ b.filename

def computeFingerprint (env : External) (files : List FileResult) : String :=
  env.sha256Hex <| String.join <|
    (sortFileResults files).map fun f => f.filename ++ ":" ++ f.blobSHA256 ++ "\n"

/-! ## The resolver chain -/

/-- A `SourceResolver`: the content of a path, if the tier provides it. -/
abbrev Resolver := String → Option Bytes

/-- Later writes to the merged map win, so a dep replaces an own source of the same name. -/
def sourceMapResolver (sources : Sources) (deps : List DepSource) : Resolver :=
  (deps.foldl (fun merged d => merged.set d.filename d.source) sources).get

def bundledImports : List String :=
  ["protowire/schema/v1/annotations.proto", "pxf/annotations.proto"]

def bundledResolver (env : External) : Resolver := fun path =>
  if path ∈ bundledImports then env.openBundled path else none

/-- The tiers in the order they are tried, without the standard imports that protocompile adds. -/
def resolverTiers (env : External) (sources : Sources) (deps : List DepSource)
    (parentChain : List ChainTier) (builtins : List DepSource) : List Resolver :=
  [sourceMapResolver sources deps] ++
    (parentChain.filter (!·.files.isEmpty)).map (fun t => sourceMapResolver .empty t.files) ++
    (if builtins.isEmpty then [] else [sourceMapResolver .empty builtins]) ++
    [bundledResolver env]

def buildResolverChain (env : External) (sources : Sources) (deps : List DepSource)
    (parentChain : List ChainTier) (builtins : List DepSource) : Resolver := fun path =>
  (resolverTiers env sources deps parentChain builtins).findSome? (· path)

/-- A `protocompile.SearchResult`: a source, or a descriptor that protocompile has. -/
inductive SearchResult where
  | source (content : Bytes)
  | desc (path : String)
  deriving DecidableEq, Repr

/-- `protocompile.WithStandardImports`: the standard imports are tried when the resolver has no answer. -/
def withStandardImports (env : External) (resolver : Resolver) (path : String) : Option SearchResult :=
  match resolver path with
  | some content => some (.source content)
  | none => if env.isStandardImport path then some (.desc path) else none

def isWellKnownType (env : External) (filename : String) : Bool :=
  env.inGlobalFiles filename || (withStandardImports env env.openFile filename).isSome

/-! ## The transitive descriptor set -/

/-- The closure variables of `addFile`. -/
structure AddState where
  seen : List String
  files : List FileDescriptor

mutual
/-- Add a file after the files it imports, unless its path was added before. -/
def addFile : LinkedFile → AddState → AddState
  | ⟨fd, imports⟩, st =>
    if fd.path ∈ st.seen then st else
      let st' := addFiles imports { st with seen := fd.path :: st.seen }
      { st' with files := st'.files ++ [fd] }
def addFiles : List LinkedFile → AddState → AddState
  | [], st => st
  | f :: fs, st => addFiles fs (addFile f st)
end

/-- The files of a compilation with everything they import, dependencies first. -/
def transitiveFiles (compiled : List LinkedFile) : List FileDescriptor :=
  (addFiles compiled ⟨[], []⟩).files

def depRecord (d : DepSource) : Dep := ⟨d.namespaceID, d.schemaID, d.filename, d.version⟩

/-- The up-front caps on the number and the size of the sources. -/
def Compiler.checkCaps (c : Compiler) (sources : Sources) : Except String Unit := do
  if 0 < c.maxFiles ∧ c.maxFiles < sources.keys.length then
    throw ("too many files (" ++ toString sources.keys.length ++ " > " ++ toString c.maxFiles ++ ")")
  if 0 < c.maxFileSourceBytes then
    for (filename, source) in sources.toList do
      if c.maxFileSourceBytes < source.length then
        throw ("source " ++ quote filename ++ " exceeds " ++ toString c.maxFileSourceBytes ++
          " byte limit (" ++ toString source.length ++ " bytes)")

def Compiler.compile (c : Compiler) (env : External) (version : Nat) (sources : Sources)
    (deps : List DepSource) (parentChain : List ChainTier) (builtins : List DepSource) :
    Except String CompileResult := do
  c.checkCaps sources
  let fileResults ← sources.toList.mapM fun (filename, source) =>
    (normalizeAndHash env filename source).mapError fun e => "normalizing " ++ filename ++ ": " ++ e
  let resolver := buildResolverChain env sources deps parentChain builtins
  let compiled ← (env.protocompile resolver sources.keys).mapError ("compilation failed: " ++ ·)
  let files := transitiveFiles compiled
  let snap ← (Snapshot.newFromFiles env version files).mapError ("building snapshot: " ++ ·)
  return {
    snapshot := snap
    compiled := files
    files := fileResults
    deps := deps.map depRecord ++ parentChain.flatMap fun t => t.files.map depRecord }

structure AddState.Extends (st st' : AddState) : Prop where
  seen : st.seen ⊆ st'.seen
  files : ∃ added, st'.files = st.files ++ added ∧ (added.map (·.path)).Nodup ∧
    ∀ f ∈ added, f.path ∈ st'.seen ∧ f.path ∉ st.seen

theorem AddState.Extends.refl (st : AddState) : st.Extends st where
  seen := List.Subset.refl _
  files := ⟨[], by simp⟩

theorem AddState.Extends.trans {st st' st'' : AddState} (h : st.Extends st') (h' : st'.Extends st'') :
    st.Extends st'' := by
  obtain ⟨added, hfiles, hnd, hadded⟩ := h.files
  obtain ⟨added', hfiles', hnd', hadded'⟩ := h'.files
  refine ⟨List.Subset.trans h.seen h'.seen, added ++ added', by rw [hfiles', hfiles, List.append_assoc], ?_, ?_⟩
  · rw [List.map_append]
    refine List.nodup_append.mpr ⟨hnd, hnd', fun a ha b hb hab => ?_⟩
    obtain ⟨f, hf, rfl⟩ := List.mem_map.mp ha
    obtain ⟨g, hg, rfl⟩ := List.mem_map.mp hb
    exact (hadded' g hg).2 (hab ▸ (hadded f hf).1)
  · intro f hf
    rcases List.mem_append.mp hf with hf | hf
    · exact ⟨h'.seen (hadded f hf).1, (hadded f hf).2⟩
    · exact ⟨(hadded' f hf).1, fun hs => (hadded' f hf).2 (h.seen hs)⟩

mutual
theorem addFile_extends : ∀ (f : LinkedFile) (st : AddState), st.Extends (addFile f st)
  | ⟨fd, imports⟩, st => by
    rw [addFile]
    split
    · exact .refl st
    · next hnew =>
      have h := addFiles_extends imports { st with seen := fd.path :: st.seen }
      obtain ⟨added, hfiles, hnd, hadded⟩ := h.files
      have hpath := h.seen (List.mem_cons_self ..)
      refine ⟨List.Subset.trans (List.subset_cons_self _ _) h.seen, added ++ [fd], ?_, ?_, ?_⟩
      · simp [hfiles]
      · rw [List.map_append]
        refine List.nodup_append.mpr ⟨hnd, by simp, fun a ha b hb hab => ?_⟩
        obtain ⟨g, hg, rfl⟩ := List.mem_map.mp ha
        rw [List.map_singleton, List.mem_singleton] at hb
        exact (hadded g hg).2 (by rw [hab, hb]; exact List.mem_cons_self ..)
      · intro g hg
        rcases List.mem_append.mp hg with hg | hg
        · exact ⟨(hadded g hg).1, fun hs => (hadded g hg).2 (List.mem_cons_of_mem _ hs)⟩
        · rw [List.mem_singleton.mp hg]
          exact ⟨hpath, hnew⟩
theorem addFiles_extends : ∀ (fs : List LinkedFile) (st : AddState), st.Extends (addFiles fs st)
  | [], st => by
    rw [addFiles]
    exact .refl st
  | f :: fs, st => by
    rw [addFiles]
    exact (addFile_extends f st).trans (addFiles_extends fs _)
end

theorem transitiveFiles_nodup (compiled : List LinkedFile) :
    ((transitiveFiles compiled).map (·.path)).Nodup := by
  obtain ⟨added, hfiles, hnd, _⟩ := (addFiles_extends compiled ⟨[], []⟩).files
  rw [transitiveFiles, hfiles]
  exact hnd

/-- The files are those of a compilation, with everything they import. -/
def External.Compiles (env : External) (files : List FileDescriptor) : Prop :=
  ∃ resolver names linked, env.protocompile resolver names = .ok linked ∧ files = transitiveFiles linked

/-- What a successful compilation returns: the snapshot of the stored descriptor set at the requested
version, each path once, files that can be registered together, and one file result for each source. -/
structure CompileResult.Valid (env : External) (v : Nat) (sources : Sources) (res : CompileResult) : Prop where
  snapshot : res.snapshot = ⟨v, res.compiled⟩
  paths : (res.compiled.map (·.path)).Nodup
  registered : env.registerFiles res.compiled = .ok ()
  compiles : env.Compiles res.compiled
  files : res.files.length = sources.toList.length

/-- A compilation succeeds when each of its steps does. -/
theorem Compiler.compile_eq_ok {c : Compiler} {env : External} {v : Nat} {sources : Sources} :
    c.compile env v sources deps parentChain builtins = .ok res ↔
      ∃ fileResults linked snap, c.checkCaps sources = .ok () ∧
        (sources.toList.mapM fun (filename, source) => (normalizeAndHash env filename source).mapError
          fun e => "normalizing " ++ filename ++ ": " ++ e) = .ok fileResults ∧
        env.protocompile (buildResolverChain env sources deps parentChain builtins) sources.keys = .ok linked ∧
        Snapshot.newFromFiles env v (transitiveFiles linked) = .ok snap ∧
        res = ⟨snap, transitiveFiles linked, fileResults,
          deps.map depRecord ++ parentChain.flatMap fun t => t.files.map depRecord⟩ := by
  unfold Compiler.compile
  refine ⟨fun h => ?_, fun ⟨fileResults, linked, snap, hcaps, hresults, hlinked, hsnap, heq⟩ => ?_⟩
  · obtain ⟨_, hcaps, h⟩ := except_bind_eq_ok.mp h
    obtain ⟨fileResults, hresults, h⟩ := except_bind_eq_ok.mp h
    obtain ⟨linked, hlinked, h⟩ := except_bind_eq_ok.mp h
    obtain ⟨snap, hsnap, h⟩ := except_bind_eq_ok.mp h
    cases h
    exact ⟨fileResults, linked, snap, hcaps, hresults, mapError_eq_ok.mp hlinked, mapError_eq_ok.mp hsnap, rfl⟩
  · refine except_bind_eq_ok.mpr ⟨_, hcaps, except_bind_eq_ok.mpr ⟨_, hresults, ?_⟩⟩
    refine except_bind_eq_ok.mpr ⟨_, mapError_eq_ok.mpr hlinked, ?_⟩
    exact except_bind_eq_ok.mpr ⟨_, mapError_eq_ok.mpr hsnap, congrArg Except.ok heq.symm⟩

theorem Compiler.compile_spec {c : Compiler} {env : External} {v : Nat} {sources : Sources}
    (h : c.compile env v sources deps parentChain builtins = .ok res) : res.Valid env v sources := by
  obtain ⟨fileResults, linked, snap, -, hresults, hlinked, hsnap, rfl⟩ := compile_eq_ok.mp h
  obtain ⟨hsnap, hregister⟩ := Snapshot.newFromFiles_eq_ok hsnap
  exact ⟨hsnap, transitiveFiles_nodup linked, hregister, ⟨_, _, linked, hlinked, rfl⟩,
    length_of_mapM_eq_ok hresults⟩

/-! ## Conflicting names (decision D2) -/

inductive FQNKind where
  | message | enum | service | extension
  deriving DecidableEq, Repr

def FQNKind.toText : FQNKind → String
  | .message => "message" | .enum => "enum" | .service => "service" | .extension => "extension"

structure FQNConflict where
  fqn : FullName
  kind : FQNKind
  childFile : String
  ancestorFile : String
  deriving DecidableEq, Repr

structure FQNEntry where
  kind : FQNKind
  file : String
  deriving DecidableEq, Repr

def TypeDescriptor.fqnKind : TypeDescriptor → FQNKind
  | .message _ => .message
  | .enum _ => .enum
  | .extension _ => .extension

/-- The assignments `walkFile` makes, in order. -/
def walkFile (fd : FileDescriptor) : List (FullName × FQNEntry) :=
  (messagesTypes fd.messages).map (fun t => (t.fullName, ⟨t.fqnKind, fd.path⟩)) ++
    fd.enums.map (fun e => (e.fullName, ⟨.enum, fd.path⟩)) ++
    fd.services.map (fun s => (s.fullName, ⟨.service, fd.path⟩)) ++
    fd.extensions.map fun x => (x.fullName, ⟨.extension, fd.path⟩)

def collectFQNs (snap : Snapshot) : Dict FullName FQNEntry :=
  .ofAssignments (snap.fileList.flatMap walkFile)

def detectFQNConflicts (child ancestor : Snapshot) : List FQNConflict :=
  let ancestorFQNs := collectFQNs ancestor
  ((collectFQNs child).toList.filterMap fun (fqn, cd) =>
    match ancestorFQNs.get fqn with
    | none => none
    | some ad => if cd.file = ad.file then none else some ⟨fqn, cd.kind, cd.file, ad.file⟩
  ).insertionSort fun a b => a.fqn.toText ≤ b.fqn.toText

/-- A name of a message, enum, service or extension is defined in files of both lists, at different
paths. -/
def Shadows (files files' : List FileDescriptor) : Prop :=
  ∃ f ∈ files, ∃ g ∈ files', f.path ≠ g.path ∧ ∃ n ∈ f.typeNames, n ∈ g.typeNames

theorem mem_walkFile_iff {fd : FileDescriptor} :
    (∃ e, (n, e) ∈ walkFile fd) ↔ n ∈ fd.typeNames := by
  simp only [walkFile, FileDescriptor.typeNames, FileDescriptor.types, List.mem_append, List.mem_map,
    Prod.mk.injEq, List.map_append, List.map_map, Function.comp_def, exists_or, TypeDescriptor.fullName]
  constructor
  · rintro (((⟨e, t, ht, rfl, -⟩ | ⟨e, t, ht, rfl, -⟩) | ⟨e, t, ht, rfl, -⟩) | ⟨e, t, ht, rfl, -⟩)
    · exact .inl (.inl (.inl ⟨t, ht, rfl⟩))
    · exact .inl (.inl (.inr ⟨t, ht, rfl⟩))
    · exact .inr ⟨t, ht, rfl⟩
    · exact .inl (.inr ⟨t, ht, rfl⟩)
  · rintro (((⟨t, ht, rfl⟩ | ⟨t, ht, rfl⟩) | ⟨t, ht, rfl⟩) | ⟨t, ht, rfl⟩)
    · exact .inl (.inl (.inl ⟨_, t, ht, rfl, rfl⟩))
    · exact .inl (.inl (.inr ⟨_, t, ht, rfl, rfl⟩))
    · exact .inr ⟨_, t, ht, rfl, rfl⟩
    · exact .inl (.inr ⟨_, t, ht, rfl, rfl⟩)

theorem file_of_mem_walkFile {fd : FileDescriptor} (h : (n, e) ∈ walkFile fd) : e.file = fd.path := by
  simp only [walkFile, List.mem_append, List.mem_map, Prod.mk.injEq] at h
  obtain ((⟨_, _, -, rfl⟩ | ⟨_, _, -, rfl⟩) | ⟨_, _, -, rfl⟩) | ⟨_, _, -, rfl⟩ := h <;> rfl

theorem get_collectFQNs {snap : Snapshot} (hdisj : DisjointNames snap.fileList)
    (hf : f ∈ snap.fileList) (hn : n ∈ f.typeNames) :
    ∃ e, (collectFQNs snap).get n = some e ∧ e.file = f.path := by
  obtain ⟨e, he⟩ := mem_walkFile_iff.mpr hn
  have hsome := Dict.isSome_get_ofAssignments (List.mem_flatMap.mpr ⟨f, hf, he⟩)
  obtain ⟨e', he'⟩ := Option.isSome_iff_exists.mp hsome
  obtain ⟨g, hg, hmem⟩ := List.mem_flatMap.mp (Dict.mem_of_get_ofAssignments he')
  have hng := mem_walkFile_iff.mp ⟨e', hmem⟩
  have heq := hdisj.eq_of_mem hf hg (f.typeNames_sublist_declared.subset hn)
    (g.typeNames_sublist_declared.subset hng)
  exact ⟨e', he', heq ▸ file_of_mem_walkFile hmem⟩

/-- **The conflict check** finds a conflict exactly when a name is shadowed. -/
theorem detectFQNConflicts_eq_nil_iff {child ancestor : Snapshot}
    (hchild : DisjointNames child.fileList) (hancestor : DisjointNames ancestor.fileList) :
    detectFQNConflicts child ancestor = [] ↔ ¬ Shadows child.fileList ancestor.fileList := by
  rw [List.eq_nil_iff_forall_not_mem]
  simp only [detectFQNConflicts, List.mem_insertionSort, List.mem_filterMap, Prod.exists,
    Dict.mem_toList, not_exists, not_and]
  constructor
  · rintro h ⟨f, hf, g, hg, hpath, n, hnf, hng⟩
    obtain ⟨cd, hcd, hfile⟩ := get_collectFQNs hchild hf hnf
    obtain ⟨ad, had, hfile'⟩ := get_collectFQNs hancestor hg hng
    refine h ⟨n, cd.kind, cd.file, ad.file⟩ n cd hcd ?_
    rw [had]
    exact if_neg fun heq => hpath (hfile.symm.trans (heq.trans hfile'))
  · intro h c n cd hcd hc
    obtain ⟨f, hf, hmem⟩ := List.mem_flatMap.mp (Dict.mem_of_get_ofAssignments hcd)
    split at hc
    · cases hc
    · next ad had =>
      obtain ⟨g, hg, hmem'⟩ := List.mem_flatMap.mp (Dict.mem_of_get_ofAssignments had)
      rw [file_of_mem_walkFile hmem, file_of_mem_walkFile hmem'] at hc
      split at hc
      · cases hc
      · next hpath =>
        exact h ⟨f, hf, g, hg, hpath, n, mem_walkFile_iff.mp ⟨cd, hmem⟩, mem_walkFile_iff.mp ⟨ad, hmem'⟩⟩

end ProtoRegistry
