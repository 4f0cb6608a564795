import ProtoRegistry.Model.Sample
import ProtoRegistry.Verify.Staging

/-!
# Which file a compilation reads

The first tier merges the sources of the schema and the files of its namespace into one map, in which the
latter are written last. Every other tier is a map of its own. Which file an answer comes from does not
matter for the dependencies that are recorded: those are all the files that could have answered.
-/

namespace ProtoRegistry

/-! ## The file behind an answer -/

/-- The file that a tier has at a path: the last one written there. -/
def lastOf (files : List DepSource) (path : String) : Option DepSource := files.reverse.find? (·.filename = path)

/-- Where an answer of the resolver chain comes from. -/
inductive Supplier where
  | own (content : Bytes)
  /-- A file of the same namespace or of an ancestor. -/
  | dep (d : DepSource)
  | builtin (d : DepSource)
  | bundled (content : Bytes)

def Supplier.content : Supplier → Bytes
  | .own content => content
  | .dep d => d.source
  | .builtin d => d.source
  | .bundled content => content

def supplier (env : External) (sources : Sources) (deps : List DepSource) (parentChain : List ChainTier)
    (builtins : List DepSource) (path : String) : Option Supplier :=
  ((lastOf deps path).map .dep).or <| ((sources.get path).map .own).or <|
    (parentChain.findSome? fun t => (lastOf t.files path).map .dep).or <|
      ((lastOf builtins path).map .builtin).or <| (bundledResolver env path).map .bundled

theorem mem_of_lastOf {files : List DepSource} (h : lastOf files path = some d) : d ∈ files :=
  List.mem_reverse.mp (List.mem_of_find?_eq_some h)

theorem sourceMapResolver_eq (sources : Sources) (deps : List DepSource) (path : String) :
    sourceMapResolver sources deps path = ((lastOf deps path).map (·.source)).or (sources.get path) :=
  Dict.get_foldl_set DepSource.filename DepSource.source deps sources path

section
variable {env : External} {sources : Sources} {deps builtins : List DepSource} {parentChain : List ChainTier}
  {path : String}

theorem buildResolverChain_eq_supplier : buildResolverChain env sources deps parentChain builtins path =
    (supplier env sources deps parentChain builtins path).map (·.content) := by
  have hempty : ∀ files : List DepSource, sourceMapResolver .empty files path = (lastOf files path).map (·.source) := by
    intro files
    rw [sourceMapResolver_eq]
    exact Option.or_none
  have hdep : ∀ found : Option DepSource, (found.map Supplier.dep).map (·.content) = found.map (·.source) :=
    fun found => by cases found <;> rfl
  have htiers : ((parentChain.findSome? fun t => (lastOf t.files path).map Supplier.dep).map (·.content)) =
      parentChain.findSome? fun t => sourceMapResolver .empty t.files path := by
    rw [List.map_findSome?]
    congr 1
    funext t
    rw [Function.comp_apply, hdep, hempty]
  rw [buildResolverChain_eq, supplier, sourceMapResolver_eq]
  simp only [Option.map_or, hdep, htiers, hempty, Option.or_assoc, Option.map_map]
  congr 1
  cases sources.get path <;> cases lastOf builtins path <;> cases bundledResolver env path <;> rfl

theorem available_of_supplier (h : supplier env sources deps parentChain builtins path = some (.dep d)) :
    d ∈ deps ∨ ∃ t ∈ parentChain, d ∈ t.files := by
  simp only [supplier, Option.or_eq_some_iff, Option.map_eq_some_iff] at h
  obtain ⟨e, he, heq⟩ | ⟨-, ⟨content, -, heq⟩ | ⟨-, htier | ⟨-, ⟨e, -, heq⟩ | ⟨-, content, -, heq⟩⟩⟩⟩ := h
  · cases heq
    exact .inl (mem_of_lastOf he)
  · cases heq
  · obtain ⟨t, ht, hfound⟩ := List.exists_of_findSome?_eq_some htier
    obtain ⟨e, he, heq⟩ := Option.map_eq_some_iff.mp hfound
    cases heq
    exact .inr ⟨t, ht, mem_of_lastOf he⟩
  · cases heq
  · cases heq

/-! ## Own sources -/

/-- What the tiers have, in the order in which they are to be tried after the own sources. -/
def laterTiers (env : External) (deps : List DepSource) (parentChain : List ChainTier) (builtins : List DepSource) :
    List (String → Option SearchResult) :=
  ([deps] ++ parentChain.map (·.files) ++ [builtins]).map
      (fun files path => (lastOf files path).map (.source ·.source)) ++
    [fun path => (bundledResolver env path).map .source] ++
    [fun path => if env.isStandardImport path then some (.desc path) else none]

theorem resolve_of_not_own (h : sources.get path = none) :
    withStandardImports env (buildResolverChain env sources deps parentChain builtins) path =
      (laterTiers env deps parentChain builtins).findSome? (· path) := by
  have hstandard : ∀ resolver : Resolver, withStandardImports env resolver path =
      ((resolver path).map .source).or (if env.isStandardImport path then some (.desc path) else none) := by
    intro resolver
    rw [withStandardImports]
    cases resolver path <;> rfl
  have hempty : (Dict.empty : Sources).get path = none := rfl
  rw [hstandard, buildResolverChain_eq]
  simp only [sourceMapResolver_eq, h, hempty, Option.or_none, laterTiers, List.findSome?_append, List.findSome?_map,
    List.map_append, List.map_singleton, List.findSome?_singleton, Option.map_or, Option.or_assoc, Option.map_map,
    List.map_findSome?, Function.comp_def]

theorem resolve_of_own (h : sources.get path = some content) :
    withStandardImports env (buildResolverChain env sources deps parentChain builtins) path = some (.source content) ↔
      ∀ d, lastOf deps path = some d → d.source = content := by
  rw [withStandardImports, buildResolverChain_eq_supplier, supplier, h]
  cases lastOf deps path with
  | none => simp [Supplier.content]
  | some d => simp [Supplier.content]

end

/-- The resolver of a compilation has the first tier's answer at every path that is not an own source, and the
own source at every other exactly when each file of the namespace that was written over one has its content. -/
theorem compile_resolves_own_iff {c : Compiler} {env : External}
    (h : c.compile env v sources deps parentChain builtins = .ok res) :
    (∃ linked, env.protocompile (buildResolverChain env sources deps parentChain builtins) sources.keys = .ok linked ∧
      res.compiled = transitiveFiles linked) ∧
    (∀ path, sources.get path = none →
      withStandardImports env (buildResolverChain env sources deps parentChain builtins) path =
        (laterTiers env deps parentChain builtins).findSome? (· path)) ∧
    ((∀ path content, sources.get path = some content →
      withStandardImports env (buildResolverChain env sources deps parentChain builtins) path =
        some (.source content)) ↔
        ∀ path content d, sources.get path = some content → lastOf deps path = some d → d.source = content) := by
  obtain ⟨fileResults, linked, snap, -, -, hlinked, -, rfl⟩ := Compiler.compile_eq_ok.mp h
  refine ⟨⟨linked, hlinked, rfl⟩, fun path => resolve_of_not_own, ?_⟩
  constructor
  · intro hown path content d hcontent
    exact (resolve_of_own hcontent).mp (hown path content hcontent) d
  · intro hsame path content hcontent
    exact (resolve_of_own hcontent).mpr fun d => hsame path content d hcontent

/-- Two other schemas have a file of the same name. The last has the text of the own source. -/
theorem compile_resolves_own_iff_overwritten :
    let deps := [⟨"n", "t", 1, "a.proto", [2]⟩, ⟨"n", "u", 1, "a.proto", [1]⟩]
    withStandardImports Sample.env (buildResolverChain Sample.env (Dict.empty.set "a.proto" [1]) deps [] []) "a.proto" =
      some (.source [1]) := by
  intro deps
  have h : ∃ res, Compiler.compile {} Sample.env 1 (Dict.empty.set "a.proto" [1]) deps [] [] = .ok res := ⟨_, rfl⟩
  obtain ⟨res, hres⟩ := h
  refine (compile_resolves_own_iff hres).2.2.mpr (fun path content d hcontent hlast => ?_) "a.proto" [1] rfl
  obtain rfl : path = "a.proto" := by
    by_contra hne
    rw [Dict.get_set_of_ne _ _ hne] at hcontent
    cases hcontent
  cases hcontent
  cases hlast
  rfl

/-- A schema of the same namespace has a file of the same name: its text is compiled, and the hash is that of
the own source. -/
theorem own_source_replaced :
    ∃ res, Compiler.compile {} Sample.env 1 (Dict.empty.set "a.proto" [1])
    [⟨"n", "t", 1, "a.proto", [2]⟩] [] [] = .ok res ∧
      withStandardImports Sample.env (buildResolverChain Sample.env (Dict.empty.set "a.proto" [1])
        [⟨"n", "t", 1, "a.proto", [2]⟩] [] []) "a.proto" = some (.source [2]) ∧
      res.compiled = [Sample.file "a.proto" [2]] ∧ res.files.map (·.originalSource) = [[1]] :=
  ⟨_, rfl, rfl, rfl, rfl⟩

/-! ## Dependencies -/

/-- The path is that of the file or of one it imports, directly or not. -/
inductive LinkedFile.Reaches : LinkedFile → String → Prop where
  | self (f : LinkedFile) : Reaches f f.file.path
  | imports : g ∈ f.imports → Reaches g path → Reaches f path

/-- A file of the namespace or of an ancestor was read for one of the compiled files or for what they import. -/
def Used (env : External) (sources : Sources) (deps : List DepSource) (parentChain : List ChainTier)
    (builtins : List DepSource) (linked : List LinkedFile) (d : DepSource) : Prop :=
  ∃ f ∈ linked, ∃ path, f.Reaches path ∧ supplier env sources deps parentChain builtins path = some (.dep d)

/-- The dependencies that are recorded are those that were used exactly when everything available was used. -/
theorem compile_deps_exact_iff {c : Compiler} {env : External}
    (h : c.compile env v sources deps parentChain builtins = .ok res) :
    ∃ linked, env.protocompile (buildResolverChain env sources deps parentChain builtins) sources.keys = .ok linked ∧
      res.compiled = transitiveFiles linked ∧
      ((∀ record, record ∈ res.deps ↔
          ∃ d, Used env sources deps parentChain builtins linked d ∧ depRecord d = record) ↔
        ∀ d, (d ∈ deps ∨ ∃ t ∈ parentChain, d ∈ t.files) →
          ∃ d', Used env sources deps parentChain builtins linked d' ∧ depRecord d' = depRecord d) := by
  obtain ⟨fileResults, linked, snap, -, -, hlinked, -, rfl⟩ := Compiler.compile_eq_ok.mp h
  have hrecorded : ∀ record, record ∈ deps.map depRecord ++ (parentChain.flatMap fun t => t.files.map depRecord) ↔
      ∃ d, (d ∈ deps ∨ ∃ t ∈ parentChain, d ∈ t.files) ∧ depRecord d = record := by
    intro record
    simp only [List.mem_append, List.mem_map, List.mem_flatMap]
    constructor
    · rintro (⟨d, hd, heq⟩ | ⟨t, ht, d, hd, heq⟩)
      · exact ⟨d, .inl hd, heq⟩
      · exact ⟨d, .inr ⟨t, ht, hd⟩, heq⟩
    · rintro ⟨d, hd | ⟨t, ht, hd⟩, heq⟩
      · exact .inl ⟨d, hd, heq⟩
      · exact .inr ⟨t, ht, d, hd, heq⟩
  refine ⟨linked, hlinked, rfl, ?_⟩
  dsimp only
  simp only [hrecorded]
  constructor
  · intro hexact d hd
    exact (hexact (depRecord d)).mp ⟨d, hd, rfl⟩
  · intro hall record
    constructor
    · rintro ⟨d, hd, rfl⟩
      exact hall d hd
    · rintro ⟨d, hused, rfl⟩
      obtain ⟨f, -, path, -, hsupplier⟩ := hused
      exact ⟨d, available_of_supplier hsupplier, rfl⟩

/-- The only file that is available is imported. -/
theorem compile_deps_exact_iff_imported :
    ∃ res linked, Compiler.compile {} (Sample.importing "v1").env 1 (Dict.empty.set "a.proto" [1])
        [⟨"n", "t", 1, "b.proto", [2]⟩] [] [] = .ok res ∧
      ∀ record, record ∈ res.deps ↔ ∃ d, Used (Sample.importing "v1").env (Dict.empty.set "a.proto" [1])
        [⟨"n", "t", 1, "b.proto", [2]⟩] [] [] linked d ∧ depRecord d = record := by
  obtain ⟨res, hres⟩ : ∃ res, Compiler.compile {} (Sample.importing "v1").env 1 (Dict.empty.set "a.proto" [1])
      [⟨"n", "t", 1, "b.proto", [2]⟩] [] [] = .ok res := ⟨_, rfl⟩
  obtain ⟨linked, hlinked, -, hexact⟩ := compile_deps_exact_iff hres
  refine ⟨res, linked, hres, hexact.mpr fun d hd => ?_⟩
  cases hlinked
  obtain hd | ⟨t, ht, -⟩ := hd
  · rw [List.mem_singleton.mp hd]
    refine ⟨_, ⟨_, List.mem_cons_self .., "b.proto", ?_, rfl⟩, rfl⟩
    exact .imports (List.mem_cons_self ..) (.self _)
  · cases ht

/-- A file of another schema that nothing imports, and a file of an ancestor below an own source. Both are
recorded, and neither was read. -/
theorem unused_deps_recorded :
    ∃ res linked, Compiler.compile {} Sample.env 1 (Dict.empty.set "a.proto" [1]) [⟨"n", "t", 1, "b.proto", [2]⟩]
        [⟨"p", [⟨"p", "s", 3, "a.proto", [4]⟩]⟩] [] = .ok res ∧
      Sample.env.protocompile (buildResolverChain Sample.env (Dict.empty.set "a.proto" [1])
        [⟨"n", "t", 1, "b.proto", [2]⟩]
        [⟨"p", [⟨"p", "s", 3, "a.proto", [4]⟩]⟩] []) ["a.proto"] = .ok linked ∧
      res.deps = [⟨"n", "t", "b.proto", 1⟩, ⟨"p", "s", "a.proto", 3⟩] ∧
      ∀ d, ¬ Used Sample.env (Dict.empty.set "a.proto" [1]) [⟨"n", "t", 1, "b.proto", [2]⟩]
        [⟨"p", [⟨"p", "s", 3, "a.proto", [4]⟩]⟩] [] linked d := by
  refine ⟨_, [⟨Sample.file "a.proto" [1], []⟩], rfl, rfl, rfl, fun d hused => ?_⟩
  obtain ⟨f, hf, path, hreaches, hsupplier⟩ := hused
  obtain rfl := List.mem_singleton.mp hf
  cases hreaches with
  | self => cases hsupplier
  | imports hg => cases hg

end ProtoRegistry
