import ProtoRegistry.Verify.OwnFiles
import ProtoRegistry.Verify.Resolution

/-!
# The origin of a descriptor

`resolve.Resolver` reports the namespace in whose snapshots it has found a descriptor. A snapshot has copies of the
files that its schema imports, so this is the namespace that published the file only as long as no nearer one imports
it.
-/

namespace ProtoRegistry
open RegistryM

/-! ## Lookups -/

/-- What a resolver is asked for. -/
inductive Lookup where
  | file (path : String)
  | descriptor (name : FullName)
  | message (name : FullName)

def Lookup.hits : Lookup → FileDescriptor → Bool
  | file path, f => f.path = path
  | descriptor name, f => f.descriptors.any (·.fullName = name)
  | message name, f => f.types.any fun
    | .message m => m.fullName = name
    | _ => false

namespace Namespaces

variable {m : Namespaces} {find : Snapshot → Option α} {order : String → List String}

/-- What the namespace answers. -/
def answer (m : Namespaces) (find : Snapshot → Option α) (order : String → List String) (a : String) : Option α :=
  (order a).findSome? fun sc => (m.current a sc).bind find

/-- The file of the descriptor that the namespace answers with, its `ParentFile`. -/
def parentFile (m : Namespaces) (q : Lookup) : (order : String → List String) → String → Option FileDescriptor :=
  m.answer (·.fileList.find? q.hits)

/-- The first namespace with an answer gives it. -/
theorem findInTiers_eq_ok : m.findInTiers find order tiers = .ok (x, origin) ↔ ∃ near far,
    tiers = near ++ origin :: far ∧ (∀ a ∈ near, m.answer find order a = none) ∧
      m.answer find order origin = some x := by
  induction tiers with
  | nil => simp [findInTiers]
  | cons a rest ih =>
    unfold findInTiers
    rw [← answer]
    cases hanswer : m.answer find order a with
    | some y =>
      constructor
      · intro h
        cases h
        exact ⟨[], rest, rfl, by simp, hanswer⟩
      · rintro ⟨near, far, htiers, hnear, horigin⟩
        cases near with
        | nil =>
          cases htiers
          cases hanswer.symm.trans horigin
          rfl
        | cons b near =>
          cases htiers
          cases hanswer.symm.trans (hnear a (List.mem_cons_self ..))
    | none =>
      refine ih.trans ⟨?_, ?_⟩
      · rintro ⟨near, far, rfl, hnear, horigin⟩
        exact ⟨a :: near, far, rfl, List.forall_mem_cons.mpr ⟨hanswer, hnear⟩, horigin⟩
      · rintro ⟨near, far, htiers, hnear, horigin⟩
        cases near with
        | nil =>
          cases htiers
          cases hanswer.symm.trans horigin
        | cons b near =>
          cases htiers
          exact ⟨near, far, rfl, (List.forall_mem_cons.mp hnear).2, horigin⟩

theorem exists_findInTiers (h : (m.answer find order a).isSome) (near far : List String) :
    ∃ x, ∃ origin ∈ near ++ [a], m.findInTiers find order (near ++ a :: far) = .ok (x, origin) := by
  induction near with
  | nil =>
    obtain ⟨x, hx⟩ := Option.isSome_iff_exists.mp h
    exact ⟨x, a, by simp, findInTiers_eq_ok.mpr ⟨[], far, rfl, by simp, hx⟩⟩
  | cons b near ih =>
    cases hb : m.answer find order b with
    | some x => exact ⟨x, b, by simp, findInTiers_eq_ok.mpr ⟨[], near ++ a :: far, rfl, by simp, hb⟩⟩
    | none =>
      obtain ⟨x, origin, horigin, hfound⟩ := ih
      obtain ⟨near', far', htiers, hnear, hx⟩ := findInTiers_eq_ok.mp hfound
      refine ⟨x, origin, List.mem_cons_of_mem _ horigin, findInTiers_eq_ok.mpr ⟨b :: near', far', ?_, ?_, hx⟩⟩
      · rw [List.cons_append, htiers, List.cons_append]
      · exact List.forall_mem_cons.mpr ⟨hb, hnear⟩

theorem isSome_answer (horder : m.IterationOrder order) :
    (m.answer find order a).isSome ↔ ∃ sc snap, m.current a sc = some snap ∧ (find snap).isSome := by
  rw [answer, List.findSome?_isSome_iff]
  constructor
  · rintro ⟨sc, -, hsc⟩
    rw [Option.isSome_bind, Option.any_eq_true] at hsc
    exact ⟨sc, hsc⟩
  · rintro ⟨sc, snap, hcurrent, hfind⟩
    refine ⟨sc, ((horder a).2 sc).mpr (Option.isSome_of_eq_some hcurrent), ?_⟩
    rwa [hcurrent]

theorem isSome_answer_congr {find' : Snapshot → Option β} (h : ∀ s, (find s).isSome = (find' s).isSome) (a : String) :
    (m.answer find order a).isSome = (m.answer find' order a).isSome := by
  rw [Bool.eq_iff_iff, answer, answer, List.findSome?_isSome_iff, List.findSome?_isSome_iff]
  refine exists_congr fun sc => and_congr_right fun _ => ?_
  cases m.current a sc with
  | none => rfl
  | some snap => exact Bool.eq_iff_iff.mp (h snap)

theorem of_answer {q : Lookup} (h : m.answer (·.fileList.find? q.hits) order a = some f) :
    ∃ sc snap, m.current a sc = some snap ∧ f ∈ snap.fileList ∧ q.hits f := by
  obtain ⟨sc, -, hfind⟩ := List.exists_of_findSome?_eq_some h
  obtain ⟨snap, hcurrent, hfind⟩ := Option.bind_eq_some_iff.mp hfind
  exact ⟨sc, snap, hcurrent, List.mem_of_find?_eq_some hfind, List.find?_some hfind⟩

def currentIDs (m : Namespaces) (a : String) : List String :=
  (m.schemaIDs a).filter fun sc => (m.current a sc).isSome

theorem iterationOrder_currentIDs (m : Namespaces) : m.IterationOrder m.currentIDs := by
  refine fun a => ⟨(m.schemaIDs_nodup a).filter _, fun sc => ?_⟩
  rw [currentIDs, List.mem_filter, and_iff_right_iff_imp]
  exact mem_schemaIDs_of_current

theorem exists_iterationOrder (h : m.current a sc = some snap) :
    ∃ order, m.IterationOrder order ∧ ∃ rest, order a = sc :: rest := by
  have hids := m.iterationOrder_currentIDs
  have hsc : sc ∈ m.currentIDs a := ((hids a).2 sc).mpr (Option.isSome_of_eq_some h)
  refine ⟨fun b => if b = a then sc :: (m.currentIDs a).erase sc else m.currentIDs b, fun b => ?_, _, if_pos rfl⟩
  by_cases hb : b = a
  · subst hb
    have hperm := List.perm_cons_erase hsc
    simp only [if_true]
    exact ⟨hperm.nodup_iff.mp (hids b).1, fun id => hperm.mem_iff.symm.trans ((hids b).2 id)⟩
  · simp only [if_neg hb]
    exact hids b

end Namespaces

/-- The namespaces that a resolver of `ns` asks, in this order. -/
def World.chain (w : World) (ns : String) : List String := chainOf w.memory.parent chainMaxDepth ns []

/-- The resolver of `ns` returns a descriptor of the file `f`, and `origin`. -/
def Lookup.Returns (w : World) (order : String → List String) (ns : String) (f : FileDescriptor) (origin : String) :
    Lookup → Prop
  | file path => (Resolver.findFileByPathWithOrigin order ns path).exec w = (.ok (.ok (f, origin)), w)
  | descriptor name => w.memory.parentFile (descriptor name) order origin = some f ∧
      ∃ d, (Resolver.findDescriptorByNameWithOrigin order ns name).exec w = (.ok (.ok (d, origin)), w)
  | message name => w.memory.parentFile (message name) order origin = some f ∧
      ∃ m, (Resolver.findMessageByNameWithOrigin order ns name).exec w = (.ok (.ok (m, origin)), w)

theorem Snapshot.isSome_findDescriptorByName (s : Snapshot) (name : FullName) :
    (s.findDescriptorByName name).isSome = (s.fileList.find? (Lookup.descriptor name).hits).isSome := by
  rw [Bool.eq_iff_iff, findDescriptorByName, List.find?_isSome, List.find?_isSome]
  simp only [Lookup.hits, List.mem_flatMap, List.any_eq_true]
  exact ⟨fun ⟨d, ⟨f, hf, hd⟩, hname⟩ => ⟨f, hf, d, hd, hname⟩, fun ⟨f, hf, d, hd, hname⟩ => ⟨d, ⟨f, hf, hd⟩, hname⟩⟩

theorem Snapshot.isSome_findMessageByName (s : Snapshot) (name : FullName) :
    (s.findMessageByName name).isSome = (s.fileList.find? (Lookup.message name).hits).isSome := by
  rw [Bool.eq_iff_iff, findMessageByName, List.findSome?_isSome_iff, List.find?_isSome]
  simp only [Lookup.hits, List.mem_flatMap, List.any_eq_true]
  constructor
  · rintro ⟨t, ⟨f, hf, ht⟩, hname⟩
    refine ⟨f, hf, t, ht, ?_⟩
    cases t with
    | message m => simpa using hname
    | enum | extension => cases hname
  · rintro ⟨f, hf, t, ht, hname⟩
    refine ⟨t, ⟨f, hf, ht⟩, ?_⟩
    cases t with
    | message m => simpa using hname
    | enum | extension => cases hname

/-- The lookup of a descriptor, as a lookup of its file. -/
theorem returns_iff_of_isSome {w : World} {find : Snapshot → Option α} {q : Lookup}
    (h : ∀ s, (find s).isSome = (s.fileList.find? q.hits).isSome) :
    (w.memory.parentFile q order origin = some f ∧
      ∃ x, (findWithOrigin find order ns).exec w = (.ok (.ok (x, origin)), w)) ↔
      w.memory.findInTiers (·.fileList.find? q.hits) order (w.chain ns) = .ok (f, origin) := by
  have hanswer (a : String) : (w.memory.answer find order a).isSome = (w.memory.parentFile q order a).isSome :=
    Namespaces.isSome_answer_congr h a
  have hnone : ∀ a, w.memory.answer find order a = none ↔ w.memory.parentFile q order a = none := by
    intro a
    rw [← Option.isNone_iff_eq_none, ← Option.isNone_iff_eq_none, ← Option.not_isSome, ← Option.not_isSome, hanswer]
  simp only [exec_findWithOrigin, Prod.mk.injEq, Except.ok.injEq, and_true, Namespaces.findInTiers_eq_ok]
  constructor
  · rintro ⟨hfile, x, near, far, hchain, hnear, -⟩
    exact ⟨near, far, hchain, fun a ha => (hnone a).mp (hnear a ha), hfile⟩
  · rintro ⟨near, far, hchain, hnear, hfile⟩
    have hsome := (hanswer origin).trans (Option.isSome_of_eq_some hfile)
    obtain ⟨x, hx⟩ := Option.isSome_iff_exists.mp hsome
    exact ⟨hfile, x, near, far, hchain, fun a ha => (hnone a).mpr (hnear a ha), hx⟩

theorem Lookup.returns_iff {w : World} (q : Lookup) : q.Returns w order ns f origin ↔
    w.memory.findInTiers (·.fileList.find? q.hits) order (w.chain ns) = .ok (f, origin) := by
  cases q with
  | file path =>
    unfold Returns Resolver.findFileByPathWithOrigin
    simp only [exec_findWithOrigin, Prod.mk.injEq, Except.ok.injEq, and_true]
    rfl
  | descriptor name => exact returns_iff_of_isSome fun s => s.isSome_findDescriptorByName name
  | message name => exact returns_iff_of_isSome fun s => s.isSome_findMessageByName name

theorem Lookup.mem_declared_of_descriptor (h : (descriptor name).hits f) : name ∈ f.declared := by
  obtain ⟨d, hd, hname⟩ := List.any_eq_true.mp h
  cases of_decide_eq_true hname
  exact f.map_descriptors ▸ List.mem_map_of_mem hd

theorem Lookup.mem_declared_of_message (h : (message name).hits f) : name ∈ f.declared := by
  obtain ⟨t, ht, hname⟩ := List.any_eq_true.mp h
  cases t with
  | message m =>
    cases of_decide_eq_true hname
    exact f.map_descriptors ▸ List.mem_map_of_mem (f.message_mem_descriptors ht)
  | enum | extension => cases hname

/-! ## Owners and copies -/

/-- The files of the current snapshots of a namespace. -/
def Namespaces.files (m : Namespaces) (a : String) : List FileDescriptor :=
  (m.schemaIDs a).flatMap fun sc => (m.current a sc).elim [] (·.fileList)

theorem Namespaces.mem_files {m : Namespaces} :
    f ∈ m.files a ↔ ∃ sc snap, m.current a sc = some snap ∧ f ∈ snap.fileList := by
  simp only [files, List.mem_flatMap]
  constructor
  · rintro ⟨sc, -, hf⟩
    cases hcurrent : m.current a sc with
    | none => simp [hcurrent] at hf
    | some snap => exact ⟨sc, snap, hcurrent, by simpa [hcurrent] using hf⟩
  · rintro ⟨sc, snap, hcurrent, hf⟩
    exact ⟨sc, mem_schemaIDs_of_current (Option.isSome_of_eq_some hcurrent), by rwa [hcurrent]⟩

/-- The paths of the files that the current version of the schema was published with. -/
def World.ownPaths (w : World) (ns sc : String) : List String :=
  (w.memory.current ns sc).elim [] fun snap => (w.store.getVersionFiles ns sc snap.version).map (·.filename)

namespace World

variable {w : World} {chain : List String}

/-- Each path is an own source of one schema of the chain only. -/
def OwnedOnce (w : World) (chain : List String) : Prop :=
  ∀ a ∈ chain, ∀ b ∈ chain, ∀ sc sc' path, path ∈ w.ownPaths a sc → path ∈ w.ownPaths b sc' → a = b ∧ sc = sc'

/-- The owner of a file is the first namespace that lookups find its declarations in. -/
structure OwnersFirst (w : World) (chain : List String) : Prop where
  /-- No namespace has a file that imports one which a namespace behind it owns. -/
  nearer : ∀ near a far, chain = near ++ a :: far → ∀ owner ∈ far, ∀ sc, ∀ path ∈ w.ownPaths owner sc,
    ∀ f ∈ w.memory.files a, path ∉ f.imports
  /-- If a namespace has a copy of a file which a namespace before it owns, what is in the copy is also before it. -/
  farther : ∀ near a far, chain = near ++ a :: far → ∀ owner ∈ near, ∀ sc, ∀ path ∈ w.ownPaths owner sc,
    ∀ f ∈ w.memory.files a, f.path = path → ∀ q : Lookup, q.hits f → ∃ b ∈ near, ∃ g ∈ w.memory.files b, q.hits g

theorem mem_schemaIDs_of_ownPaths (h : path ∈ w.ownPaths a sc) : sc ∈ w.memory.schemaIDs a := by
  refine Namespaces.mem_schemaIDs_of_current ?_
  unfold ownPaths at h
  cases hcurrent : w.memory.current a sc with
  | none => simp [hcurrent] at h
  | some snap => rfl

theorem ownedOnce_of_schemaIDs (h : ∀ a ∈ chain, ∀ b ∈ chain, ∀ sc ∈ w.memory.schemaIDs a, ∀ sc' ∈ w.memory.schemaIDs b,
    ∀ path ∈ w.ownPaths a sc, path ∈ w.ownPaths b sc' → a = b ∧ sc = sc') : w.OwnedOnce chain := by
  intro a ha b hb sc sc' path hpath hpath'
  exact h a ha b hb sc (mem_schemaIDs_of_ownPaths hpath) sc' (mem_schemaIDs_of_ownPaths hpath') path hpath hpath'

theorem ownersFirst_of_apart (hnodup : chain.Nodup) (h : ∀ a ∈ chain, ∀ owner ∈ chain, a ≠ owner →
    ∀ sc ∈ w.memory.schemaIDs owner, ∀ path ∈ w.ownPaths owner sc, ∀ f ∈ w.memory.files a,
      path ∉ f.imports ∧ f.path ≠ path) : w.OwnersFirst chain where
  nearer near a far hchain owner howner sc path hown f hf := by
    subst hchain
    have hne : a ≠ owner := by
      rintro rfl
      exact (List.nodup_cons.mp hnodup.of_append_right).1 howner
    exact (h a (by simp) owner (by simp [howner]) hne sc (mem_schemaIDs_of_ownPaths hown) path hown f hf).1
  farther near a far hchain owner howner sc path hown f hf hpath := by
    subst hchain
    have hne := (List.nodup_append.mp hnodup).2.2 owner howner a (List.mem_cons_self ..)
    exact absurd hpath
      (h a (by simp) owner (by simp [howner]) hne.symm sc (mem_schemaIDs_of_ownPaths hown) path hown f hf).2

section
variable {env : External} (hlaw : env.Lawful) (hw : w.Sound env) (hcomplete : w.store.Complete)
include hw hcomplete

theorem own_or_imported (hcurrent : w.memory.current a sc = some snap) (hf : f ∈ snap.fileList) :
    f.path ∈ w.ownPaths a sc ∨ ∃ g ∈ w.memory.files a, f.path ∈ g.imports := by
  obtain ⟨row, hrow, hperm⟩ := hw.slot (.inl hcurrent)
  obtain hown | ⟨g, hg, hpath⟩ := (hcomplete _ _ _ _ hrow).imported f (hperm.mem_iff.mp hf)
  · left
    have hfiles : w.store.getVersionFiles a sc snap.version = Store.sortVersionFiles row.files := by
      simp only [Store.getVersionFiles, hrow]
    rw [ownPaths, hcurrent, Option.elim_some, hfiles]
    exact ((List.perm_insertionSort _ row.files).map _).mem_iff.mpr hown
  · exact .inr ⟨g, Namespaces.mem_files.mpr ⟨sc, snap, hcurrent, hperm.mem_iff.mpr hg⟩, hpath⟩

theorem exists_imported (hf : f ∈ w.memory.files a) (hpath : path ∈ f.imports) :
    ∃ g ∈ w.memory.files a, g.path = path := by
  obtain ⟨sc, snap, hcurrent, hf⟩ := Namespaces.mem_files.mp hf
  obtain ⟨row, hrow, hperm⟩ := hw.slot (.inl hcurrent)
  have himported := (hcomplete _ _ _ _ hrow).closed f (hperm.mem_iff.mp hf) path hpath
  obtain ⟨g, hg, hgpath⟩ := List.mem_map.mp himported
  exact ⟨g, Namespaces.mem_files.mpr ⟨sc, snap, hcurrent, hperm.mem_iff.mpr hg⟩, hgpath⟩

omit hcomplete in
include hlaw in
theorem eq_of_hits (hcurrent : w.memory.current a sc = some snap) (hf : f ∈ snap.fileList) (hg : g ∈ snap.fileList)
    {q : Lookup} (hhits : q.hits f) (hhits' : q.hits g) : f = g := by
  obtain ⟨row, hrow, hperm⟩ := hw.slot (.inl hcurrent)
  have hreg := (hlaw.registrable_of_registerFiles (hw.version hrow).2.registered).perm hperm.symm
  cases q with
  | file path =>
    have hpath : f.path = path := of_decide_eq_true hhits
    have hpath' : g.path = path := of_decide_eq_true hhits'
    exact List.inj_on_of_nodup_map hreg.paths hf hg (hpath.trans hpath'.symm)
  | descriptor name =>
    exact hreg.disjointNames.eq_of_mem hf hg (Lookup.mem_declared_of_descriptor hhits)
      (Lookup.mem_declared_of_descriptor hhits')
  | message name =>
    exact hreg.disjointNames.eq_of_mem hf hg (Lookup.mem_declared_of_message hhits)
      (Lookup.mem_declared_of_message hhits')

/-- A lookup whose answer is a copy of a file that another namespace owns. -/
theorem origin_eq_owner (honce : w.OwnedOnce chain) (hfirst : w.OwnersFirst chain)
    (horder : w.memory.IterationOrder order) {q : Lookup}
    (h : w.memory.findInTiers (·.fileList.find? q.hits) order chain = .ok (f, origin)) (howner : owner ∈ chain)
    (hown : f.path ∈ w.ownPaths owner sc) : origin = owner := by
  obtain ⟨near, far, hchain, hnear, hanswer⟩ := Namespaces.findInTiers_eq_ok.mp h
  obtain ⟨sc', snap, hcurrent, hf, hhits⟩ := Namespaces.of_answer hanswer
  have hfiles : f ∈ w.memory.files origin := Namespaces.mem_files.mpr ⟨sc', snap, hcurrent, hf⟩
  have horigin : origin ∈ chain := hchain ▸ List.mem_append_right _ (List.mem_cons_self ..)
  rw [hchain, List.mem_append, List.mem_cons] at howner
  obtain howner | rfl | howner := howner
  · -- the copy is hidden by what is before it
    obtain ⟨b, hb, g, hg, hhits'⟩ :=
      hfirst.farther near origin far hchain owner howner sc f.path hown f hfiles rfl q hhits
    obtain ⟨sc'', snap', hcurrent', hg⟩ := Namespaces.mem_files.mp hg
    have hsome : (w.memory.answer (·.fileList.find? q.hits) order b).isSome :=
      (Namespaces.isSome_answer horder).mpr ⟨sc'', snap', hcurrent', List.find?_isSome.mpr ⟨g, hg, hhits'⟩⟩
    rw [hnear b hb] at hsome
    cases hsome
  · rfl
  · obtain hself | ⟨g, hg, himports⟩ := own_or_imported hw hcomplete hcurrent hf
    · exact (honce origin horigin owner (by simp [hchain, howner]) sc' sc f.path hself hown).1
    · exact (hfirst.nearer near origin far hchain owner howner sc f.path hown g hg himports).elim

include hlaw in
/-- A chain whose lookups all name the owner. -/
theorem ownersFirst_of_origins (hnodup : chain.Nodup)
    (h : ∀ order, w.memory.IterationOrder order → ∀ (q : Lookup) f origin,
      w.memory.findInTiers (·.fileList.find? q.hits) order chain = .ok (f, origin) →
      ∀ owner ∈ chain, ∀ sc, f.path ∈ w.ownPaths owner sc → origin = owner) : w.OwnersFirst chain where
  nearer near a far hchain owner howner sc path hown f hf himports := by
    obtain ⟨g, hg, hpath⟩ := exists_imported hw hcomplete hf himports
    obtain ⟨sc', snap, hcurrent, hg⟩ := Namespaces.mem_files.mp hg
    obtain ⟨order, horder, -⟩ := Namespaces.exists_iterationOrder hcurrent
    have hsome : (w.memory.answer (·.fileList.find? (Lookup.file path).hits) order a).isSome :=
      (Namespaces.isSome_answer horder).mpr ⟨sc', snap, hcurrent,
        List.find?_isSome.mpr ⟨g, hg, decide_eq_true hpath⟩⟩
    obtain ⟨x, origin, horigin, hfound⟩ := Namespaces.exists_findInTiers hsome near far
    obtain ⟨-, -, -, -, hanswer⟩ := Namespaces.findInTiers_eq_ok.mp hfound
    obtain ⟨-, -, -, -, hhits⟩ := Namespaces.of_answer hanswer
    have hx : x.path = path := of_decide_eq_true hhits
    have heq := h order horder (.file path) x origin (hchain ▸ hfound) owner (by simp [hchain, howner]) sc (hx ▸ hown)
    have hsplit : ((near ++ [a]) ++ far).Nodup := by rwa [List.append_assoc, List.singleton_append, ← hchain]
    exact (List.nodup_append.mp hsplit).2.2 origin horigin owner howner heq
  farther near a far hchain owner howner sc path hown f hf hpath q hhits := by
    by_contra hnone
    obtain ⟨sc', snap, hcurrent, hf⟩ := Namespaces.mem_files.mp hf
    obtain ⟨order, horder, rest, hrest⟩ := Namespaces.exists_iterationOrder hcurrent
    have hsome : (snap.fileList.find? q.hits).isSome := List.find?_isSome.mpr ⟨f, hf, hhits⟩
    obtain ⟨g, hg⟩ := Option.isSome_iff_exists.mp hsome
    cases eq_of_hits hlaw hw hcurrent hf (List.mem_of_find?_eq_some hg) hhits (List.find?_some hg)
    have hanswer : w.memory.answer (·.fileList.find? q.hits) order a = some f := by
      rw [Namespaces.answer, hrest, List.findSome?_cons, hcurrent, Option.bind_some, hg]
    have hfound : w.memory.findInTiers (·.fileList.find? q.hits) order chain = .ok (f, a) := by
      refine Namespaces.findInTiers_eq_ok.mpr ⟨near, far, hchain, fun b hb => ?_, hanswer⟩
      rw [Option.eq_none_iff_forall_not_mem]
      intro g hg
      obtain ⟨sc'', snap', hcurrent', hmem, hhits'⟩ := Namespaces.of_answer hg
      exact hnone ⟨b, hb, g, Namespaces.mem_files.mpr ⟨sc'', snap', hcurrent', hmem⟩, hhits'⟩
    have heq := h order horder q f a hfound owner (by simp [hchain, howner]) sc (hpath ▸ hown)
    rw [hchain] at hnodup
    exact (List.nodup_append.mp hnodup).2.2 owner howner a (List.mem_cons_self ..) heq.symm

end

end World

/-- **The origin of a descriptor is the namespace that published its file**, in every lookup from a namespace, exactly
when the owners come first in its chain. -/
theorem Resolver.origin_is_owner_iff {r : Registry} (hlaw : r.env.Lawful) (hlinks : r.env.Links) {s : Session}
    (hs : Session.Reached r (fun _ _ => True) s) (ns : String) (honce : s.world.OwnedOnce (s.world.chain ns)) :
    (∀ order, s.world.memory.IterationOrder order → ∀ (q : Lookup) f origin, q.Returns s.world order ns f origin →
      ∀ owner ∈ s.world.chain ns, ∀ sc, f.path ∈ s.world.ownPaths owner sc → origin = owner) ↔
      s.world.OwnersFirst (s.world.chain ns) := by
  have hsound := Session.sound_of_reached hlaw hs
  have hcomplete := Session.complete_of_reached hlinks hs
  simp only [Lookup.returns_iff]
  constructor
  · exact World.ownersFirst_of_origins hlaw hsound hcomplete (chainOf_nodup _ _ _ List.nodup_nil)
  · intro hfirst order horder q f origin h owner howner sc hown
    exact World.origin_eq_owner hsound hcomplete honce hfirst horder h howner hown

theorem Sample.links_importing : (Sample.importing "v1").env.Links where
  paths {resolver names compiled} h := by
    refine List.forall₂_eq_eq_eq ▸ List.forall₂_map_left_iff.mpr ?_
    refine ((mapM_eq_ok_iff.mp h).imp fun name f hf => ?_).flip
    split at hf
    · cases hf
    · cases hf
      rfl
    · split at hf <;> cases hf <;> rfl
  linked {resolver names compiled} h f hf := by
    obtain ⟨name, -, hname⟩ := (mem_of_mapM_eq_ok h).mp hf
    split at hname
    · cases hname
    · cases hname
      exact .mk rfl (by simp)
    · split at hname <;> cases hname
      · exact .mk rfl (by simp)
      · exact .mk rfl (List.forall_mem_singleton.mpr (.mk rfl (by simp)))

/-- The parent publishes `b.proto` and the child `a.proto`. -/
def Sample.publishedFamily (r : Registry) : Session :=
  (Sample.family ++ [Sample.publishParent [1], .promote "p", Sample.publish [2], .promote "n"]).foldl (·.call r) .start

/-- The parent publishes `c.proto`. The child publishes `b.proto` and `a.proto`, in different schemas. -/
def Sample.publishedSiblings (r : Registry) : Session :=
  (Sample.family ++ [.publish { namespaceID := "p", schemaID := "u", sources := Dict.empty.set "c.proto" [3] },
    .promote "p", Sample.publishShared [1], .promote "n", Sample.publish [2], .promote "n"]).foldl (·.call r) .start

/-- A schema imports the file of another one of its namespace. -/
theorem Resolver.origin_is_owner_siblings :
    let w := (Sample.publishedSiblings (Sample.importing "v1")).world
    w.chain "n" = ["n", "p"] ∧ w.ownPaths "n" "s" = ["a.proto"] ∧ w.ownPaths "n" "t" = ["b.proto"] ∧
      w.ownPaths "p" "u" = ["c.proto"] ∧ (∃ f ∈ w.memory.files "n", f.imports = ["b.proto"]) ∧
      ∀ order, w.memory.IterationOrder order → ∀ (q : Lookup) f origin, q.Returns w order "n" f origin →
        ∀ owner ∈ w.chain "n", ∀ sc, f.path ∈ w.ownPaths owner sc → origin = owner := by
  intro w
  have hchain : w.chain "n" = ["n", "p"] := by decide +kernel
  have honce : w.OwnedOnce (w.chain "n") := World.ownedOnce_of_schemaIDs (by decide +kernel)
  have hfirst : w.OwnersFirst (w.chain "n") := by
    refine World.ownersFirst_of_apart ?_ (by decide +kernel)
    rw [hchain]
    decide
  have hlaw : (Sample.importing "v1").env.Lawful := { Sample.lawful_env with }
  refine ⟨hchain, by decide +kernel, by decide +kernel, by decide +kernel, by decide +kernel, ?_⟩
  exact (origin_is_owner_iff hlaw Sample.links_importing (Session.reached_calls .start _) "n" honce).mpr hfirst

/-- The child imports the file of its parent. -/
theorem Resolver.origin_of_importer :
    let s := Sample.publishedFamily (Sample.importing "v1")
    Session.Reached (Sample.importing "v1") (fun _ _ => True) s ∧ s.world.OwnedOnce (s.world.chain "n") ∧
      s.world.chain "n" = ["n", "p"] ∧ "b.proto" ∈ s.world.ownPaths "p" "t" ∧
      ∃ order, s.world.memory.IterationOrder order ∧
        ∀ q ∈ [Lookup.file "b.proto", .descriptor ["M1"], .message ["M1"]], ∃ f, f.path = "b.proto" ∧
          q.Returns s.world order "n" f "n" := by
  intro s
  refine ⟨Session.reached_calls .start _, World.ownedOnce_of_schemaIDs (by decide +kernel), by decide +kernel,
    by decide +kernel, _, s.world.memory.iterationOrder_currentIDs, ?_⟩
  have hfound : ∀ q ∈ [Lookup.file "b.proto", .descriptor ["M1"], .message ["M1"]],
      (s.world.memory.findInTiers (·.fileList.find? q.hits) s.world.memory.currentIDs (s.world.chain "n")).toOption.any
        fun found => found.1.path = "b.proto" ∧ found.2 = "n" := by decide +kernel
  intro q hq
  obtain ⟨found, hfound, hpath⟩ := exists_of_any (hfound q hq)
  obtain ⟨hpath, horigin⟩ := of_decide_eq_true hpath
  refine ⟨found.1, hpath, q.returns_iff.mpr (hfound.trans ?_)⟩
  rw [← horigin]

end ProtoRegistry
