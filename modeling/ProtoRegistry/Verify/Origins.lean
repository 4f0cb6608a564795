import ProtoRegistry.Verify.Populated
import ProtoRegistry.Model.Sample

/-!
# Lookups with and without origin

A resolver built with the server's chain looks a name up in two ways: through registries linked from the
child to the root, and, with the origin, through the slice of its ancestors. The slice is filled from the
root down and read as if the nearest came first.
-/

namespace ProtoRegistry

/-! ## Looking up in one registry -/

theorem NamespacedFiles.mem_rangeFiles {r : NamespacedFiles} : f ∈ r.rangeFiles ↔ r.fileAt f.path = some f := by
  rw [rangeFiles, List.mem_flatten]
  constructor
  · rintro ⟨fds, hfds, hf⟩
    obtain ⟨p, hp⟩ := Dict.mem_values.mp hfds
    obtain ⟨g, rfl, rfl⟩ := r.singleton_of_get hp
    rw [List.mem_singleton.mp hf, fileAt, hp]
    rfl
  · intro hat
    refine ⟨[f], Dict.mem_values.mpr ⟨f.path, ?_⟩, List.mem_singleton_self f⟩
    rw [get_filesByPath, hat]
    rfl

theorem NamespacedFiles.path_of_fileAt {r : NamespacedFiles} (h : r.fileAt p = some f) : f.path = p := by
  have hget := r.get_filesByPath p
  rw [h] at hget
  obtain ⟨g, hg, hpath⟩ := r.singleton_of_get hget
  cases hg
  exact hpath

namespace Client

theorem findLocalFile_eq (files : NamespacedFiles) (p : String) : findLocalFile files p = files.fileAt p := by
  apply Option.ext
  intro f
  rw [findLocalFile]
  constructor
  · intro hfind
    have hpath : f.path = p := by simpa using List.find?_some hfind
    exact hpath ▸ NamespacedFiles.mem_rangeFiles.mp (List.mem_of_find?_eq_some hfind)
  · intro hat
    have hpath := NamespacedFiles.path_of_fileAt hat
    subst hpath
    cases hfind : files.rangeFiles.find? (·.path = f.path) with
    | none => simpa using List.find?_eq_none.mp hfind f (NamespacedFiles.mem_rangeFiles.mpr hat)
    | some g =>
      have hg := NamespacedFiles.mem_rangeFiles.mp (List.mem_of_find?_eq_some hfind)
      have hgpath : g.path = f.path := by simpa using List.find?_some hfind
      rw [hgpath, hat] at hg
      exact congrArg some (Option.some.inj hg).symm

/-- The message among the types of one name. -/
def messageOf : TypeDescriptor → Option MessageDescriptor
  | .message m => some m
  | _ => none

theorem mem_rangeMessages {types : NamespacedTypes} :
    m ∈ types.rangeMessages ↔ types.typesByName.get m.fullName = some (.message m) := by
  rw [NamespacedTypes.rangeMessages, List.mem_filterMap]
  constructor
  · rintro ⟨t, ht, hm⟩
    obtain ⟨n, hn⟩ := Dict.mem_values.mp ht
    cases t with
    | message m' =>
      cases hm
      have hname : m.fullName = n := types.fullName_of_get hn
      rw [hname, hn]
    | _ => cases hm
  · exact fun hget => ⟨_, Dict.mem_values.mpr ⟨_, hget⟩, rfl⟩

theorem findLocalMessage_eq (types : NamespacedTypes) (n : FullName) :
    findLocalMessage types n = (types.typesByName.get n).bind messageOf := by
  apply Option.ext
  intro m
  have hiff : (types.typesByName.get n).bind messageOf = some m ↔
      types.typesByName.get n = some (.message m) := by
    rcases types.typesByName.get n with _ | (_ | _ | _) <;> simp [messageOf]
  rw [hiff, findLocalMessage]
  constructor
  · intro hfind
    have hname : m.fullName = n := by simpa using List.find?_some hfind
    exact hname ▸ mem_rangeMessages.mp (List.mem_of_find?_eq_some hfind)
  · intro hget
    have hname : m.fullName = n := types.fullName_of_get hget
    subst hname
    cases hfind : types.rangeMessages.find? (·.fullName = m.fullName) with
    | none => simpa using List.find?_eq_none.mp hfind m (mem_rangeMessages.mpr hget)
    | some m' =>
      have hm' := mem_rangeMessages.mp (List.mem_of_find?_eq_some hfind)
      have hname : m'.fullName = m.fullName := by simpa using List.find?_some hfind
      rw [hname, hget] at hm'
      cases hm'
      rfl

theorem findFileByPath_node (files : NamespacedFiles) (parent : FilesChain) (p : String) :
    (FilesChain.node files parent).findFileByPath p =
      match files.fileAt p with
      | some f => .ok f
      | none => parent.findFileByPath p := by
  rw [FilesChain.findFileByPath, files.get_filesByPath]
  cases files.fileAt p <;> rfl

theorem findMessageByName_node (types : NamespacedTypes) (parent : TypesChain) (n : FullName) :
    (TypesChain.node types parent).findMessageByName n =
      match types.typesByName.get n with
      | some (.message m) => .ok m
      | some t => .error (.wrongType t.kind .message)
      | none => parent.findMessageByName n := by
  simp only [TypesChain.findMessageByName, TypesChain.findByName, TypesChain.typeByName]
  rcases types.typesByName.get n with _ | (_ | _ | _) <;> rfl

/-! ## What the server declares -/

/-- The type is declared by the current version of a schema of the namespace that is tracked. -/
def Server.Declares (server : Server) (cfg : Config) (ns : String) (t : TypeDescriptor) : Prop :=
  ∃ sc v v' fdset, ⟨sc, some v⟩ ∈ (server.listSchemas ns).pages.flatten ∧ cfg.tracksSchema sc ∧
    server.getDescriptor ns sc v = .ok (v', fdset) ∧ ∃ f ∈ fdset, t ∈ f.types

theorem NsSnapshot.Loaded.mem_types {server : Server} {infos : List SchemaInfo} (hlaw : env.Lawful)
    (hinfos : listAllSchemas server r = .ok infos) (honce : server.ListsOnce)
    (h : NsSnapshot.Loaded env server r infos snap) :
    t ∈ snap.files.flatMap (·.types) ↔ server.Declares r.cfg r.ns t := by
  rw [List.mem_flatMap]
  constructor
  · rintro ⟨f, hf, ht⟩
    obtain ⟨sc, hsc⟩ := NsSnapshot.mem_files.mp hf
    obtain ⟨fdset, ⟨v, v', hv, htrack, hget⟩, hmem⟩ := (h.mem_schema hlaw hinfos honce).mp hsc
    exact ⟨sc, v, v', fdset, hv, htrack, hget, f, hmem, ht⟩
  · rintro ⟨sc, v, v', fdset, hv, htrack, hget, f, hf, ht⟩
    have hsc := (h.mem_schema hlaw hinfos honce).mpr ⟨fdset, ⟨v, v', hv, htrack, hget⟩, hf⟩
    exact ⟨f, NsSnapshot.mem_files.mpr ⟨sc, hsc⟩, ht⟩

/-! ## Building the chain -/

/-- The resolver stands for one namespace, and falls back to the given one. -/
structure Resolver.Over (cfg : Config) (parent : Option Resolver) (r : Resolver) : Prop where
  ancestors : r.ancestors = []
  schemas : r.cfg.schemas = cfg.schemas
  parentFiles : r.cfg.parentFiles = parent.elim cfg.parentFiles (·.files)
  parentTypes : r.cfg.parentTypes = parent.elim cfg.parentTypes (·.types)

/-- The resolver was loaded for the namespace, with `parent` as its fallback. -/
structure IsTier (env : External) (server : Server) (cfg : Config) (ns : String) (parent : Option Resolver)
    (r : Resolver) : Prop extends r.Over cfg parent where
  populated : ∃ snap, r.Populated env snap
  bound : r.ns = ns
  declares : ∀ n t, r.nsTypes.typesByName.get n = some t ↔ server.Declares cfg ns t ∧ t.fullName = n

theorem isTier_of_newSingleNamespace {env : External} {server : Server} (hlaw : env.Lawful)
    (honce : server.ListsOnce) (h : newSingleNamespace env server ns cfg parent = .ok r) :
    IsTier env server cfg ns parent r := by
  obtain ⟨infos, snap, hinfos, hloaded, hpop, hns, hcfg, hanc⟩ := populate_spec rfl h
  refine ⟨?_, ⟨snap, hpop⟩, hns, fun n t => ?_⟩
  · constructor <;> try rw [hcfg]
    · exact hanc
    all_goals cases parent <;> rfl
  · rw [hpop.types n t, hloaded.mem_types hlaw hinfos honce]
    cases parent <;> rfl

theorem new_eq_ok_of_chain {env : External} {server : Server} {chain : List String} (hcfg : cfg.useServerChain)
    (hchain : server.getNamespaceChain ns = .ok chain) (h : Client.new env server ns cfg = .ok r) :
    ∃ tail ancestors main, chain = ns :: tail ∧
      tail.reverse.foldlM
        (loadAncestor env server { cfg with schemas := [], useServerChain := false }) [] = .ok ancestors ∧
      newSingleNamespace env server ns cfg ancestors.getLast? = .ok main ∧ r = { main with ancestors } := by
  rw [Client.new] at h
  split at h
  · cases h
  · rw [hcfg, hchain] at h
    simp only [Bool.not_true, Bool.false_eq_true, if_false] at h
    split at h
    · cases h
    · next hhead =>
      obtain ⟨ancestors, hanc, h⟩ := except_bind_eq_ok.mp h
      obtain ⟨main, hmain, h⟩ := except_bind_eq_ok.mp h
      cases h
      obtain ⟨tail, rfl⟩ := List.head?_eq_some_iff.mp (not_not.mp hhead)
      exact ⟨tail, ancestors, main, rfl, hanc, hmain, rfl⟩

theorem loadAncestor_eq_ok {env : External} {server : Server} {ancestors : List Resolver}
    (h : loadAncestor env server cfg ancestors ns = .ok ancestors') :
    ∃ a, newSingleNamespace env server ns cfg ancestors.getLast? = .ok a ∧ ancestors' = ancestors ++ [a] := by
  obtain ⟨a, ha, h⟩ := except_bind_eq_ok.mp h
  cases h
  exact ⟨a, mapError_eq_ok.mp ha, rfl⟩

theorem map_ns_of_loadAncestors {env : External} {server : Server} {l : List String}
    {ancestors : List Resolver} (h : l.foldlM (loadAncestor env server cfg) [] = .ok ancestors) :
    ancestors.map (·.ns) = l := by
  refine foldlM_inv (J := fun done (ancestors : List Resolver) => ancestors.map (·.ns) = done) rfl ?_ h
  intro done ns anc anc' _ hns hstep
  obtain ⟨a, ha, rfl⟩ := loadAncestor_eq_ok hstep
  obtain ⟨_, _, _, _, _, hans, _⟩ := populate_spec rfl ha
  rw [List.map_append, hns, List.map_singleton, hans]

theorem mem_loadAncestors {env : External} {server : Server} {l : List String} {ancestors : List Resolver}
    (h : l.foldlM (loadAncestor env server cfg) [] = .ok ancestors) :
    ∀ a ∈ ancestors, ∃ ns parent, newSingleNamespace env server ns cfg parent = .ok a := by
  refine foldlM_inv (J := fun _ ancestors => ∀ a ∈ ancestors, ∃ ns parent,
    newSingleNamespace env server ns cfg parent = .ok a) (by simp) ?_ h
  intro _ ns anc anc' _ hanc hstep a ha
  obtain ⟨b, hb, rfl⟩ := loadAncestor_eq_ok hstep
  rcases List.mem_append.mp ha with ha | ha
  · exact hanc a ha
  · cases List.mem_singleton.mp ha
    exact ⟨ns, _, hb⟩

/-! ## Agreement -/

/-- The registries of a namespace of the chain. -/
def Resolver.tierAt (r : Resolver) (ns : String) : Option Aggregate :=
  ((r :: r.ancestors).find? (·.ns = ns)).map (·.toAggregate)

/-- The lookups with origin find what the others find, and name the first namespace of the chain that
has it itself. `RangeMessages` follows the chain. -/
structure Resolver.OriginsAgree (r : Resolver) (chain : List String) : Prop where
  message : ∀ name m, r.findMessageByName name = .ok m ↔
    ∃ ns, r.findMessageByNameWithOrigin name = .ok (m, ns)
  messageOrigin : ∀ name m ns, r.findMessageByNameWithOrigin name = .ok (m, ns) →
    chain.find? (fun c => (r.tierAt c).any fun tier => (findLocalMessage tier.nsTypes name).isSome) = some ns
  file : ∀ path f, r.findFileByPath path = .ok f ↔ ∃ ns, r.findFileByPathWithOrigin path = .ok (f, ns)
  fileOrigin : ∀ path f ns, r.findFileByPathWithOrigin path = .ok (f, ns) →
    chain.find? (fun c => (r.tierAt c).any fun tier => (findLocalFile tier.nsFiles path).isSome) = some ns
  tiers : r.tiers.map (·.1) = chain

def orNotFound : Option α → Except LookupErr α
  | some a => .ok a
  | none => .error .notFound

section
variable {r : Resolver} {parent : Option Resolver} (hanc : r.ancestors = parent.toList)
include hanc

theorem findWithOrigin_eq (look : Aggregate → Option α) (hparent : r.ancestors = [] → fallback = .error e) :
    findWithOrigin r look fallback = orNotFound (((look r.toAggregate).map (·, r.ns)).or
      (parent.bind fun a => (look a.toAggregate).map (·, a.ns))) := by
  cases parent with
  | none =>
    have hfallback := hparent hanc
    simp only [findWithOrigin, hanc, Option.toList_none, List.findSome?_cons, List.findSome?_nil, hfallback,
      Option.bind_none]
    cases look r.toAggregate <;> rfl
  | some a =>
    simp only [findWithOrigin, hanc, Option.toList_some, List.findSome?_cons, List.findSome?_nil,
      Option.bind_some]
    cases look r.toAggregate with
    | some found => rfl
    | none => cases look a.toAggregate <;> rfl

theorem find_tierAt {chain : List String} (hnd : chain.Nodup) (hchain : chain = r.ns :: parent.toList.map (·.ns))
    (p : Aggregate → Bool) :
    chain.find? (fun c => (r.tierAt c).any p) =
      if p r.toAggregate then some r.ns else
        parent.bind fun a => if p a.toAggregate then some a.ns else none := by
  subst hchain
  have hself : r.tierAt r.ns = some r.toAggregate := by
    rw [Resolver.tierAt, List.find?_cons_of_pos (by simp)]
    rfl
  rw [List.find?_cons, hself, Option.any_some]
  cases hp : p r.toAggregate with
  | true => rfl
  | false =>
    cases parent with
    | none => rfl
    | some a =>
      have hne : ¬ r.ns = a.ns := fun heq => (List.nodup_cons.mp hnd).1 (by simp [heq])
      have hat : r.tierAt a.ns = some a.toAggregate := by
        rw [Resolver.tierAt, List.find?_cons_of_neg (by simpa using hne), hanc]
        simp
      simp only [Option.toList_some, List.map_cons, List.map_nil, List.find?_cons, hat, Option.any_some,
        List.find?_nil, Option.bind_some]
      cases p a.toAggregate <;> rfl

theorem find_eq_of_withOrigin {chain : List String} (hnd : chain.Nodup)
    (hchain : chain = r.ns :: parent.toList.map (·.ns)) (look : Aggregate → Option α)
    (h : orNotFound (((look r.toAggregate).map (·, r.ns)).or
      (parent.bind fun a => (look a.toAggregate).map (·, a.ns))) = .ok (x, ns)) :
    chain.find? (fun c => (r.tierAt c).any fun tier => (look tier).isSome) = some ns := by
  rw [find_tierAt hanc hnd hchain]
  cases hlook : look r.toAggregate with
  | some y =>
    rw [hlook] at h
    cases h
    rfl
  | none =>
    rw [hlook, Option.map_none, Option.none_or] at h
    cases parent with
    | none => cases h
    | some a =>
      rw [Option.bind_some] at h ⊢
      cases hup : look a.toAggregate with
      | none =>
        rw [hup] at h
        cases h
      | some y =>
        rw [hup] at h
        cases h
        rfl

end

/-- A resolver with at most one ancestor, which is its fallback. -/
structure Resolver.Linked (env : External) (r : Resolver) (parent : Option Resolver) : Prop where
  populated : ∃ snap, r.Populated env snap
  ancestors : r.ancestors = parent.toList
  parentFiles : r.cfg.parentFiles = parent.elim .nil (·.files)
  parentTypes : r.cfg.parentTypes = parent.elim .nil (·.types)
  root : ∀ a ∈ parent, a.cfg.parentFiles = .nil ∧ a.cfg.parentTypes = .nil

namespace Resolver.Linked

variable {env : External} {r : Resolver} {parent : Option Resolver}

theorem withOrigin_message (h : r.Linked env parent) (name : FullName) :
    r.findMessageByNameWithOrigin name =
      orNotFound ((((r.nsTypes.typesByName.get name).bind messageOf).map (·, r.ns)).or
        (parent.bind fun a => ((a.nsTypes.typesByName.get name).bind messageOf).map (·, a.ns))) := by
  have hfallback : r.ancestors = [] → r.cfg.parentTypes.findMessageByName name = .error .notFound := by
    intro hnil
    cases parent with
    | none =>
      rw [h.parentTypes]
      rfl
    | some a =>
      rw [h.ancestors] at hnil
      cases hnil
  rw [Resolver.findMessageByNameWithOrigin, findWithOrigin_eq h.ancestors _ hfallback]
  simp only [findLocalMessage_eq]

theorem withOrigin_file (h : r.Linked env parent) (path : String) :
    r.findFileByPathWithOrigin path = orNotFound (((r.nsFiles.fileAt path).map (·, r.ns)).or
      (parent.bind fun a => (a.nsFiles.fileAt path).map (·, a.ns))) := by
  have hfallback : r.ancestors = [] → r.cfg.parentFiles.findFileByPath path = .error .notFound := by
    intro hnil
    cases parent with
    | none =>
      rw [h.parentFiles]
      rfl
    | some a =>
      rw [h.ancestors] at hnil
      cases hnil
  rw [Resolver.findFileByPathWithOrigin, findWithOrigin_eq h.ancestors _ hfallback]
  simp only [findLocalFile_eq]

theorem file (h : r.Linked env parent) (path : String) (f : FileDescriptor) :
    r.findFileByPath path = .ok f ↔ ∃ ns, r.findFileByPathWithOrigin path = .ok (f, ns) := by
  rw [h.withOrigin_file, Resolver.findFileByPath, Resolver.files, findFileByPath_node, h.parentFiles]
  cases r.nsFiles.fileAt path with
  | some g => simp [orNotFound]
  | none =>
    cases parent with
    | none => simp [FilesChain.findFileByPath, orNotFound]
    | some a =>
      have hroot := (h.root a rfl).1
      simp only [Option.elim_some, Resolver.files, findFileByPath_node, hroot, Option.bind_some]
      cases a.nsFiles.fileAt path <;> simp [FilesChain.findFileByPath, orNotFound]

/-- A type that is not a message hides a message of the ancestor only from the lookup without origin. -/
theorem message (h : r.Linked env parent) (name : FullName)
    (hclear : ∀ a ∈ parent, ∀ t m, r.nsTypes.typesByName.get name = some t →
      a.nsTypes.typesByName.get name = some (.message m) → t.kind = .message) (m : MessageDescriptor) :
    r.findMessageByName name = .ok m ↔ ∃ ns, r.findMessageByNameWithOrigin name = .ok (m, ns) := by
  obtain ⟨snap, hpop⟩ := h.populated
  rw [h.withOrigin_message, hpop.findMessageByName, Resolver.types, findMessageByName_node, h.parentTypes]
  have hother : ∀ t, r.nsTypes.typesByName.get name = some t → t.kind ≠ .message →
      (parent.bind fun a => ((a.nsTypes.typesByName.get name).bind messageOf).map (·, a.ns)) = none := by
    intro t ht hkind
    cases parent with
    | none => rfl
    | some a =>
      rw [Option.bind_some, Option.map_eq_none_iff]
      cases hget : a.nsTypes.typesByName.get name with
      | none => rfl
      | some u =>
        cases u with
        | message m' => exact absurd (hclear a rfl t m' ht hget) hkind
        | _ => rfl
  cases hget : r.nsTypes.typesByName.get name with
  | some t =>
    cases t with
    | message m' => simp [messageOf, orNotFound]
    | enum e =>
      rw [hother _ hget (by simp [TypeDescriptor.kind])]
      simp [messageOf, orNotFound]
    | extension x =>
      rw [hother _ hget (by simp [TypeDescriptor.kind])]
      simp [messageOf, orNotFound]
  | none =>
    cases parent with
    | none => simp [TypesChain.findMessageByName, TypesChain.findByName, TypesChain.typeByName, orNotFound]
    | some a =>
      have hroot := (h.root a rfl).2
      simp only [Option.elim_some, Resolver.types, findMessageByName_node, hroot, Option.bind_some,
        Option.bind_none]
      rcases a.nsTypes.typesByName.get name with _ | (_ | _ | _) <;>
        simp [messageOf, orNotFound, TypesChain.findMessageByName, TypesChain.findByName, TypesChain.typeByName]

theorem tiers (h : r.Linked env parent) : r.tiers.map (·.1) = r.ns :: parent.toList.map (·.ns) := by
  cases parent with
  | none => simp [Resolver.tiers, h.ancestors, h.parentTypes]
  | some a => simp [Resolver.tiers, h.ancestors]

theorem originsAgree (h : r.Linked env parent) {chain : List String} (hnd : chain.Nodup)
    (hchain : chain = r.ns :: parent.toList.map (·.ns))
    (hclear : ∀ name, ∀ a ∈ parent, ∀ t m, r.nsTypes.typesByName.get name = some t →
      a.nsTypes.typesByName.get name = some (.message m) → t.kind = .message) :
    r.OriginsAgree chain where
  message name m := h.message name (hclear name) m
  messageOrigin name m ns hres := by
    rw [h.withOrigin_message] at hres
    simp only [findLocalMessage_eq]
    exact find_eq_of_withOrigin h.ancestors hnd hchain
      (fun agg => (agg.nsTypes.typesByName.get name).bind messageOf) hres
  file := h.file
  fileOrigin path f ns hres := by
    rw [h.withOrigin_file] at hres
    simp only [findLocalFile_eq]
    exact find_eq_of_withOrigin h.ancestors hnd hchain (fun agg => agg.nsFiles.fileAt path) hres
  tiers := h.tiers.trans hchain.symm

theorem not_originsAgree (h : r.Linked env (some a)) (ht : r.nsTypes.typesByName.get name = some t)
    (hkind : t.kind ≠ .message) (hm : a.nsTypes.typesByName.get name = some (.message m))
    (chain : List String) : ¬ r.OriginsAgree chain := by
  intro hagree
  have hnone : messageOf t = none := by
    cases t with
    | message m' => exact absurd rfl hkind
    | _ => rfl
  have horigin : r.findMessageByNameWithOrigin name = .ok (m, a.ns) := by
    rw [h.withOrigin_message, ht, Option.bind_some, hnone, Option.map_none, Option.none_or, Option.bind_some, hm]
    rfl
  have hfound := (hagree.message name m).mpr ⟨a.ns, horigin⟩
  obtain ⟨snap, hpop⟩ := h.populated
  rw [hpop.findMessageByName, Resolver.types, findMessageByName_node, ht] at hfound
  cases t with
  | message m' => exact hkind rfl
  | _ => cases hfound

end Resolver.Linked

/-- A resolver for the chain, when the chain has at most one ancestor. -/
theorem linked_of_new {env : External} {server : Server} {cfg : Config} {chain : List String}
    (hlaw : env.Lawful) (honce : server.ListsOnce) (hcfg : cfg.useServerChain)
    (hfiles : cfg.parentFiles = .nil) (htypes : cfg.parentTypes = .nil)
    (hchain : server.getNamespaceChain ns = .ok chain) (hnew : Client.new env server ns cfg = .ok r)
    (hlength : chain.length ≤ 2) :
    ∃ parent, r.Linked env parent ∧ chain = r.ns :: parent.toList.map (·.ns) ∧
      (∀ n t, r.nsTypes.typesByName.get n = some t ↔ server.Declares cfg ns t ∧ t.fullName = n) ∧
      ∀ a ∈ parent, ∀ n t, a.nsTypes.typesByName.get n = some t ↔
        server.Declares { cfg with schemas := [] } a.ns t ∧ t.fullName = n := by
  obtain ⟨tail, ancestors, main, rfl, hanc, hmain, rfl⟩ := new_eq_ok_of_chain hcfg hchain hnew
  have htier := isTier_of_newSingleNamespace hlaw honce hmain
  obtain ⟨snap, hpop⟩ := htier.populated
  have hpop' : Resolver.Populated env { main with ancestors } snap :=
    ⟨hpop.snapshot, hpop.sound, hpop.consistent, hpop.schemaFor, hpop.types⟩
  cases tail with
  | nil =>
    cases hanc
    refine ⟨none, ⟨⟨snap, hpop'⟩, rfl, ?_, ?_, fun a ha => (by cases ha)⟩, ?_, htier.declares,
      fun a ha => (by cases ha)⟩
    · exact htier.parentFiles.trans hfiles
    · exact htier.parentTypes.trans htypes
    · exact congrArg (· :: []) htier.bound.symm
  | cons c₁ tail =>
    have hnil : tail = [] := by
      rw [List.length_cons, List.length_cons] at hlength
      exact List.length_eq_zero_iff.mp (by omega)
    subst hnil
    rw [List.reverse_singleton, List.foldlM_cons] at hanc
    obtain ⟨anc, hstep, hrest⟩ := except_bind_eq_ok.mp hanc
    cases hrest
    obtain ⟨a, ha, rfl⟩ := loadAncestor_eq_ok hstep
    have hroot := isTier_of_newSingleNamespace hlaw honce ha
    refine ⟨some a, ⟨⟨snap, hpop'⟩, rfl, htier.parentFiles, htier.parentTypes, ?_⟩, ?_, htier.declares, ?_⟩
    · intro b hb
      cases hb
      exact ⟨hroot.parentFiles.trans hfiles, hroot.parentTypes.trans htypes⟩
    · exact congrArg₂ (fun x y => [x, y]) htier.bound.symm hroot.bound.symm
    · intro b hb n t
      cases hb
      rw [hroot.declares n t, hroot.bound]
      rfl

/-- The ancestors are listed from the root, so only one of them is in its place. -/
theorem length_le_of_tiers {env : External} {server : Server} {cfg : Config} {chain : List String}
    (hcfg : cfg.useServerChain) (hchain : server.getNamespaceChain ns = .ok chain) (hnd : chain.Nodup)
    (hnew : Client.new env server ns cfg = .ok r) (htiers : r.tiers.map (·.1) = chain) :
    chain.length ≤ 2 := by
  obtain ⟨tail, ancestors, main, rfl, hanc, hmain, rfl⟩ := new_eq_ok_of_chain hcfg hchain hnew
  have hns := map_ns_of_loadAncestors hanc
  rcases tail with _ | ⟨c₁, _ | ⟨c₂, rest⟩⟩
  · simp
  · simp
  · -- the first ancestor would be the last one too
    have hne : ancestors ≠ [] := by
      rintro rfl
      simp at hns
    have hrev : (c₁ :: c₂ :: rest).reverse = c₁ :: c₂ :: rest := by
      have := congrArg List.tail htiers
      simpa [Resolver.tiers, hne, ← hns, Function.comp_def] using this
    have hlast := congrArg List.head? hrev
    rw [List.head?_reverse, List.getLast?_cons_cons, List.head?_cons] at hlast
    exact ((List.nodup_cons.mp (List.nodup_cons.mp hnd).2).1 (List.mem_of_getLast? hlast)).elim

/-- With the server's chain, the lookups with origin agree with those without exactly when the namespace
has at most one ancestor and no type hides a message of it. -/
theorem originsAgree_iff {env : External} {server : Server} {cfg : Config} {chain : List String}
    (hlaw : env.Lawful) (honce : server.ListsOnce) (hcfg : cfg.useServerChain)
    (hfiles : cfg.parentFiles = .nil) (htypes : cfg.parentTypes = .nil)
    (hchain : server.getNamespaceChain ns = .ok chain) (hnd : chain.Nodup)
    (hnew : Client.new env server ns cfg = .ok r) :
    r.OriginsAgree chain ↔ chain.length ≤ 2 ∧ ∀ c₁ ∈ chain.tail, ∀ m t,
      server.Declares { cfg with schemas := [] } c₁ (.message m) → server.Declares cfg ns t →
        t.fullName = m.fullName → t.kind = .message := by
  constructor
  · intro hagree
    have hlength := length_le_of_tiers hcfg hchain hnd hnew hagree.tiers
    refine ⟨hlength, fun c₁ hc₁ m t hm ht hname => ?_⟩
    obtain ⟨parent, hlinked, hnames, hown, hup⟩ :=
      linked_of_new hlaw honce hcfg hfiles htypes hchain hnew hlength
    by_contra hkind
    cases parent with
    | none =>
      rw [hnames] at hc₁
      cases hc₁
    | some a =>
      rw [hnames] at hc₁
      cases List.mem_singleton.mp hc₁
      exact hlinked.not_originsAgree ((hown m.fullName t).mpr ⟨ht, hname⟩) hkind
        ((hup a rfl m.fullName (.message m)).mpr ⟨hm, rfl⟩) chain hagree
  · intro ⟨hlength, hclear⟩
    obtain ⟨parent, hlinked, hnames, hown, hup⟩ :=
      linked_of_new hlaw honce hcfg hfiles htypes hchain hnew hlength
    refine hlinked.originsAgree hnd hnames fun name a ha t m ht hm => ?_
    have hmem : a.ns ∈ chain.tail := by
      rw [hnames, Option.mem_def.mp ha]
      exact List.mem_singleton_self _
    obtain ⟨htd, htn⟩ := (hown name t).mp ht
    obtain ⟨hmd, hmn⟩ := (hup a ha name (.message m)).mp hm
    exact hclear a.ns hmem m t hmd htd (htn.trans hmn.symm)

theorem listsOnce_oneFile (chain : List String) : (Sample.server chain Sample.oneFile).ListsOnce := by
  intro ns
  by_cases h : ns = "a" <;> simp [Sample.server, Sample.oneFile, h]

theorem originsAgree_two_namespaces : ∃ r,
    Client.new Sample.env (Sample.server ["a", "b"] Sample.oneFile) "a" { useServerChain := true } = .ok r ∧
      r.OriginsAgree ["a", "b"] := by
  obtain ⟨r, hr⟩ : ∃ r, Client.new Sample.env (Sample.server ["a", "b"] Sample.oneFile) "a"
    { useServerChain := true } = .ok r := ⟨_, rfl⟩
  refine ⟨r, hr, (originsAgree_iff Sample.lawful_env (listsOnce_oneFile ["a", "b"]) rfl rfl rfl rfl
    (by decide) hr).mpr ⟨by decide, ?_⟩⟩
  intro _ _ _ _ _ ⟨_, _, _, _, hlisted, _⟩
  exact absurd hlisted List.not_mem_nil

/-- With two ancestors, the origin of what both have is the root. -/
theorem origin_of_root : ∃ r,
    Client.new Sample.env (Sample.server ["a", "b", "c"] Sample.oneFile) "a" { useServerChain := true } = .ok r ∧
      r.findFileByPathWithOrigin "m.proto" = .ok (Sample.file "m.proto" [1], "c") ∧
      ¬ r.OriginsAgree ["a", "b", "c"] := by
  refine ⟨_, rfl, rfl, fun hagree => ?_⟩
  have := hagree.fileOrigin "m.proto" (Sample.file "m.proto" [1]) "c" rfl
  revert this
  decide +kernel

end Client

end ProtoRegistry
