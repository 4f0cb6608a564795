import ProtoRegistry.Verify.Connections
import ProtoRegistry.Verify.Origins

/-!
# The sources of visible files

`GetSource` takes the first schema it meets whose descriptor set has the path for its owner. A set has the files that
the schema imports too, and their sources are not among those of the schema.
-/

namespace ProtoRegistry.Client

variable {env : External} {server : SourceServer} {cfg : Config} {chain : List String} {r : Resolver} {h : Handle}

/-! ## Owning and mentioning -/

/-- The current version of the schema was published with these bytes at the path. -/
def SourceServer.Owns (server : SourceServer) (ns sc path : String) (content : Bytes) : Prop :=
  ∃ v sources, ⟨sc, some v⟩ ∈ (server.listSchemas ns).pages.flatten ∧ server.getSource ns sc v = .ok sources ∧
    sources.get path = some content

/-- Each path is an own source of one current schema of the chain only. -/
def SourceServer.OwnedOnce (server : SourceServer) (chain : List String) : Prop :=
  ∀ a ∈ chain, ∀ b ∈ chain, ∀ sc sc' path content content',
    server.Owns a sc path content → server.Owns b sc' path content' → a = b ∧ sc = sc'

/-- `GetDescriptor` answers with the version it is asked for, if that is the current one. -/
def Server.AnswersVersion (server : Server) : Prop :=
  ∀ ns sc v v' fdset, ⟨sc, some v⟩ ∈ (server.listSchemas ns).pages.flatten →
    server.getDescriptor ns sc v = .ok (v', fdset) → v' = v

/-- The set of the current version of the schema has a file at the path. -/
def Server.Mentions (server : Server) (cfg : Config) (ns sc path : String) : Prop :=
  ∃ fdset, server.Current cfg ns sc fdset ∧ path ∈ fdset.map (·.path)

/-- With what `New` loads a namespace of the chain of `ns`: the schemas are selected in `ns` only. -/
def Config.forTier (cfg : Config) (ns a : String) : Config :=
  if a = ns then cfg else { cfg with schemas := [], useServerChain := false }

/-- `GetSource` meets the owner of the path first: the namespaces that it asks before (the bound one, then the others
from the root down) have no schema that mentions the path, and the namespace of the owner has no other. -/
def Server.OwnerFirst (server : Server) (cfg : Config) (ns : String) (chain : List String) (a sc path : String) :
    Prop :=
  ∃ near far, ns :: chain.tail.reverse = near ++ a :: far ∧
    (∀ b ∈ near, ∀ sc', ¬ server.Mentions (cfg.forTier ns b) b sc' path) ∧
    ∀ sc', server.Mentions (cfg.forTier ns a) a sc' path ↔ sc' = sc

/-- The schemas of the resolver are the current ones of its namespace. -/
structure Resolver.LoadedFrom (server : Server) (cfg : Config) (r : Resolver) (snap : NsSnapshot) : Prop where
  snapshot : r.snapshot = some snap
  listed : ∀ {sc ss}, snap.schemas.get sc = some ss → ss.schemaID = sc ∧
    ⟨sc, some ss.version⟩ ∈ (server.listSchemas r.ns).pages.flatten
  mentions : ∀ sc path, (∃ ss, snap.schemas.get sc = some ss ∧ path ∈ ss.aggFingerprint.filePaths) ↔
    server.Mentions cfg r.ns sc path

theorem loadedFrom_of_newSingleNamespace {server : Server} (hlaw : env.Lawful) (honce : server.ListsOnce)
    (hversion : server.AnswersVersion) (h : newSingleNamespace env server ns cfg parent = .ok r) :
    r.ns = ns ∧ ∃ snap, r.LoadedFrom server cfg snap := by
  obtain ⟨infos, snap, hinfos, hloaded, hpop, hns, hcfg, -⟩ := populate_spec rfl h
  refine ⟨hns, snap, hpop.snapshot, fun {sc ss} hss => ?_, fun sc path => ?_⟩
  · obtain ⟨v, hv, hfetch⟩ := hloaded.fetched sc ss hss
    obtain ⟨v', fdset, hget, hcompile⟩ := fetchSchema_eq_ok hfetch
    obtain ⟨files, -, -, hid, hss, -⟩ := compileSchema_eq_ok hcompile
    rw [listAllSchemas_eq_ok hinfos] at hv
    have hlisted := (List.mem_filter.mp hv).1
    rw [hss, hversion _ _ _ _ _ hlisted hget, hns]
    exact ⟨hid, hlisted⟩
  · have hpaths : ∀ ss, snap.schemas.get sc = some ss →
        ss.aggFingerprint.filePaths = ss.files.rangeFiles.map (·.path) := by
      intro ss hss
      obtain ⟨-, files, -, hcompiled⟩ := hpop.sound sc ss hss
      rw [hcompiled.fingerprint, hcompiled.stores.rangeFiles]
      rfl
    have hcurrent : ∀ f, (∃ ss, snap.schemas.get sc = some ss ∧ f ∈ ss.files.rangeFiles) ↔
        ∃ fdset, server.Current cfg r.ns sc fdset ∧ f ∈ fdset := by
      intro f
      rw [hloaded.mem_schema hlaw hinfos honce, hns]
      cases parent <;> rfl
    constructor
    · rintro ⟨ss, hss, hpath⟩
      rw [hpaths ss hss] at hpath
      obtain ⟨f, hf, rfl⟩ := List.mem_map.mp hpath
      obtain ⟨fdset, hfdset, hf⟩ := (hcurrent f).mp ⟨ss, hss, hf⟩
      exact ⟨fdset, hfdset, List.mem_map_of_mem hf⟩
    · rintro ⟨fdset, hfdset, hpath⟩
      obtain ⟨f, hf, rfl⟩ := List.mem_map.mp hpath
      obtain ⟨ss, hss, hf⟩ := (hcurrent f).mpr ⟨fdset, hfdset, hf⟩
      exact ⟨ss, hss, hpaths ss hss ▸ List.mem_map_of_mem hf⟩

/-- The resolvers that `GetSource` asks, in this order, and what they are loaded from. -/
theorem loadedFrom_of_new {server : Server} (hlaw : env.Lawful) (honce : server.ListsOnce)
    (hversion : server.AnswersVersion)
    (hcfg : cfg.useServerChain) (hchain : server.getNamespaceChain ns = .ok chain) (hnd : chain.Nodup)
    (h : Client.new env server ns cfg = .ok r) : (r :: r.ancestors).map (·.ns) = ns :: chain.tail.reverse ∧
      ∀ a ∈ r :: r.ancestors, ∃ snap, a.LoadedFrom server (cfg.forTier ns a.ns) snap := by
  obtain ⟨tail, ancestors, main, rfl, hanc, hmain, rfl⟩ := new_eq_ok_of_chain hcfg hchain h
  have hns := map_ns_of_loadAncestors hanc
  obtain ⟨hbound, snap, hloaded⟩ := loadedFrom_of_newSingleNamespace hlaw honce hversion hmain
  refine ⟨by rw [List.map_cons, hns]; exact congrArg (· :: _) hbound, fun a ha => ?_⟩
  rcases List.mem_cons.mp ha with rfl | ha
  · have hself : cfg.forTier ns main.ns = cfg := if_pos hbound
    exact ⟨snap, hloaded.snapshot, hloaded.listed, hself.symm ▸ hloaded.mentions⟩
  · have hmem : a.ns ∈ tail := by
      have hmem := List.mem_map_of_mem (f := (·.ns)) ha
      rwa [hns, List.mem_reverse] at hmem
    have hother : cfg.forTier ns a.ns = { cfg with schemas := [], useServerChain := false } := by
      refine if_neg fun heq => ?_
      exact (List.nodup_cons.mp hnd).1 (heq ▸ hmem)
    obtain ⟨_, _, ha⟩ := mem_loadAncestors hanc a ha
    exact hother ▸ (loadedFrom_of_newSingleNamespace hlaw honce hversion ha).2

/-! ## Asking for a source -/

section
variable {order : MapOrder} {path : String} {snap : NsSnapshot}

theorem fetchOwnSource_eq_some_iff (hsnap : r.snapshot = some snap) :
    Handle.fetchOwnSource server order path r true = .ok (some content) ↔
      ∃ ss, (order.order snap.schemas).find? (·.aggFingerprint.filePaths.contains path) = some ss ∧
        ∃ sources, server.getSource r.ns ss.schemaID ss.version = .ok sources ∧ sources.get path = some content := by
  rw [Handle.fetchOwnSource, hsnap]
  dsimp only
  cases hfind : (order.order snap.schemas).find? (·.aggFingerprint.filePaths.contains path) with
  | none => simp
  | some ss =>
    simp only [Bool.not_true, Bool.false_eq_true, if_false, Option.some.injEq, exists_eq_left']
    cases hsources : server.getSource r.ns ss.schemaID ss.version with
    | error e => simp
    | ok sources =>
      simp only [Except.ok.injEq, exists_eq_left']
      cases sources.get path <;> simp

theorem fetchOwnSource_ne_none (h : r.MentionsOwn path) :
    Handle.fetchOwnSource server order path r true ≠ .ok none := by
  obtain ⟨snap, ss, hsnap, hss, hpath⟩ := h
  have hsome : ((order.order snap.schemas).find? (·.aggFingerprint.filePaths.contains path)).isSome :=
    List.find?_isSome.mpr ⟨ss, (order.perm snap.schemas).mem_iff.mpr hss, by simpa using hpath⟩
  obtain ⟨owner, howner⟩ := Option.isSome_iff_exists.mp hsome
  rw [Handle.fetchOwnSource, hsnap]
  simp only [howner, Bool.not_true, Bool.false_eq_true, if_false]
  split
  · simp
  · split <;> simp

theorem fetchFrom_first {near far : List Resolver} {a : Resolver} (hnear : ∀ b ∈ near, ¬ b.MentionsOwn path)
    (ha : a.MentionsOwn path) :
    Handle.fetchFrom server order path ((near ++ a :: far).map fun b => (b, true)) = .ok content ↔
      Handle.fetchOwnSource server order path a true = .ok (some content) := by
  induction near with
  | nil =>
    rw [List.nil_append, List.map_cons, Handle.fetchFrom]
    split
    · next e he => simp [he]
    · next c hc => simp [hc]
    · next hnone => exact absurd hnone (fetchOwnSource_ne_none ha)
  | cons b near ih =>
    obtain ⟨hb, hnear⟩ := List.forall_mem_cons.mp hnear
    rw [List.cons_append, List.map_cons, Handle.fetchFrom, fetchOwnSource_of_not_mentions hb]
    exact ih hnear

theorem exists_first {l : List Resolver}
    (h : Handle.fetchFrom server order path (l.map fun b => (b, true)) = .ok content) :
    ∃ near a far, l = near ++ a :: far ∧ (∀ b ∈ near, ¬ b.MentionsOwn path) ∧ a.MentionsOwn path := by
  induction l with
  | nil => cases h
  | cons a l ih =>
    by_cases ha : a.MentionsOwn path
    · exact ⟨[], a, l, rfl, by simp, ha⟩
    · rw [List.map_cons, Handle.fetchFrom, fetchOwnSource_of_not_mentions ha] at h
      obtain ⟨near, b, far, rfl, hnear, hb⟩ := ih h
      exact ⟨a :: near, b, far, rfl, List.forall_mem_cons.mpr ⟨ha, hnear⟩, hb⟩

theorem exists_mapOrder {d : Dict String SchemaSnapshot} (h : ss ∈ d.values) :
    ∃ order : MapOrder, ∃ rest, order.order d = ss :: rest := by
  classical
  refine ⟨⟨fun e => if ss ∈ e.values then ss :: e.values.erase ss else e.values, fun e => ?_⟩, _, if_pos h⟩
  split
  · next hmem => exact (List.perm_cons_erase hmem).symm
  · exact .refl _

end

/-! ## A tier -/

section
variable {path : String} {snap : NsSnapshot}

theorem Resolver.LoadedFrom.mentionsOwn_iff {server : Server} (hr : r.LoadedFrom server cfg snap) :
    r.MentionsOwn path ↔ ∃ sc, server.Mentions cfg r.ns sc path := by
  constructor
  · rintro ⟨snap', ss, hsnap, hss, hpath⟩
    cases hr.snapshot.symm.trans hsnap
    obtain ⟨sc, hsc⟩ := Dict.mem_values.mp hss
    exact ⟨sc, (hr.mentions sc path).mp ⟨ss, hsc, hpath⟩⟩
  · rintro ⟨sc, hsc⟩
    obtain ⟨ss, hss, hpath⟩ := (hr.mentions sc path).mpr hsc
    exact ⟨snap, ss, hr.snapshot, Dict.mem_values.mpr ⟨sc, hss⟩, hpath⟩

theorem Resolver.LoadedFrom.owns_of_fetch (hr : r.LoadedFrom server.toServer cfg snap) {order : MapOrder}
    (h : Handle.fetchOwnSource server order path r true = .ok (some content)) :
    ∃ ss, (order.order snap.schemas).find? (·.aggFingerprint.filePaths.contains path) = some ss ∧
      snap.schemas.get ss.schemaID = some ss ∧ server.Owns r.ns ss.schemaID path content := by
  obtain ⟨ss, hfind, sources, hsources, hcontent⟩ := (fetchOwnSource_eq_some_iff hr.snapshot).mp h
  have hmem := (order.perm snap.schemas).mem_iff.mp (List.mem_of_find?_eq_some hfind)
  obtain ⟨sc, hsc⟩ := Dict.mem_values.mp hmem
  obtain ⟨rfl, hlisted⟩ := hr.listed hsc
  exact ⟨ss, hfind, hsc, ss.version, sources, hlisted, hsources, hcontent⟩

/-- If only the owner mentions the path, it is asked, in whatever order. -/
theorem Resolver.LoadedFrom.fetch_of_owns (hr : r.LoadedFrom server.toServer cfg snap) (honce : server.ListsOnce)
    (hown : server.Owns r.ns sc path content) (honly : ∀ sc', server.Mentions cfg r.ns sc' path ↔ sc' = sc)
    (order : MapOrder) : Handle.fetchOwnSource server order path r true = .ok (some content) := by
  obtain ⟨owner, howner, hpath⟩ := (hr.mentions sc path).mpr ((honly sc).mpr rfl)
  have hsome : ((order.order snap.schemas).find? (·.aggFingerprint.filePaths.contains path)).isSome :=
    List.find?_isSome.mpr ⟨owner, (order.perm snap.schemas).mem_iff.mpr (Dict.mem_values.mpr ⟨sc, howner⟩),
      by simpa using hpath⟩
  obtain ⟨ss, hfind⟩ := Option.isSome_iff_exists.mp hsome
  obtain ⟨sc', hss⟩ := Dict.mem_values.mp ((order.perm snap.schemas).mem_iff.mp (List.mem_of_find?_eq_some hfind))
  cases (honly sc').mp ((hr.mentions sc' path).mp ⟨ss, hss, by simpa using List.find?_some hfind⟩)
  obtain ⟨rfl, hlisted⟩ := hr.listed hss
  obtain ⟨v, sources, hv, hsources, hcontent⟩ := hown
  -- the owner is listed once, with the version that was loaded
  cases List.inj_on_of_nodup_map (honce r.ns) hv hlisted rfl
  exact (fetchOwnSource_eq_some_iff hr.snapshot).mpr ⟨ss, hfind, sources, hsources, hcontent⟩

theorem Resolver.LoadedFrom.only_of_fetch (hr : r.LoadedFrom server.toServer cfg snap)
    (hunique : ∀ sc' content', server.Owns r.ns sc' path content' → sc' = sc)
    (h : ∀ order, Handle.fetchOwnSource server order path r true = .ok (some content)) (sc' : String) :
    server.Mentions cfg r.ns sc' path ↔ sc' = sc := by
  constructor
  · intro hmentions
    obtain ⟨ss, hss, hpath⟩ := (hr.mentions sc' path).mpr hmentions
    obtain ⟨order, rest, horder⟩ := exists_mapOrder (Dict.mem_values.mpr ⟨sc', hss⟩)
    obtain ⟨asked, hfind, -, hown⟩ := hr.owns_of_fetch (h order)
    rw [horder, List.find?_cons_of_pos (by simpa using hpath)] at hfind
    cases hfind
    rw [(hr.listed hss).1] at hown
    exact hunique sc' content hown
  · rintro rfl
    obtain ⟨asked, hfind, hget, hown⟩ := hr.owns_of_fetch (h .written)
    cases hunique asked.schemaID content hown
    exact (hr.mentions _ path).mp ⟨asked, hget, by simpa using List.find?_some hfind⟩

end

/-- A walk over resolvers, each loaded from its namespace. -/
theorem fetchFrom_owner_iff {l : List Resolver} (tierCfg : String → Config) (honce : server.ListsOnce)
    (hloaded : ∀ t ∈ l, ∃ snap, t.LoadedFrom server.toServer (tierCfg t.ns) snap) (hown : server.Owns a sc path content)
    (hunique : ∀ t ∈ l, ∀ sc' content', server.Owns t.ns sc' path content' → t.ns = a ∧ sc' = sc) :
    (∀ order, Handle.fetchFrom server order path (l.map fun t => (t, true)) = .ok content) ↔
      ∃ near far, l.map (·.ns) = near ++ a :: far ∧ (∀ b ∈ near, ∀ sc', ¬ server.Mentions (tierCfg b) b sc' path) ∧
        ∀ sc', server.Mentions (tierCfg a) a sc' path ↔ sc' = sc := by
  constructor
  · intro h
    obtain ⟨near, t, far, rfl, hnear, ht⟩ := exists_first (h .written)
    have hfetch (order : MapOrder) := (fetchFrom_first hnear ht).mp (h order)
    have hmem : t ∈ near ++ t :: far := List.mem_append_right _ (List.mem_cons_self ..)
    obtain ⟨snap, hr⟩ := hloaded t hmem
    obtain ⟨asked, -, -, hasked⟩ := hr.owns_of_fetch (hfetch .written)
    obtain ⟨rfl, -⟩ := hunique t hmem _ _ hasked
    refine ⟨near.map (·.ns), far.map (·.ns), by simp, ?_, hr.only_of_fetch (fun sc' content' h' => ?_) hfetch⟩
    · rintro b hb sc' hmentions
      obtain ⟨u, hu, rfl⟩ := List.mem_map.mp hb
      obtain ⟨_, hu'⟩ := hloaded u (List.mem_append_left _ hu)
      exact hnear u hu (hu'.mentionsOwn_iff.mpr ⟨sc', hmentions⟩)
    · exact (hunique t hmem sc' content' h').2
  · rintro ⟨near, far, hsplit, hnear, honly⟩ order
    obtain ⟨near, rest, rfl, rfl, hrest⟩ := List.map_eq_append_iff.mp hsplit
    obtain ⟨t, far, rfl, rfl, -⟩ := List.map_eq_cons_iff.mp hrest
    obtain ⟨snap, hr⟩ := hloaded t (List.mem_append_right _ (List.mem_cons_self ..))
    have ht : t.MentionsOwn path := hr.mentionsOwn_iff.mpr ⟨sc, (honly sc).mpr rfl⟩
    refine (fetchFrom_first (fun u hu hmentions => ?_) ht).mpr (hr.fetch_of_owns honce hown honly order)
    obtain ⟨_, hu'⟩ := hloaded u (List.mem_append_left _ hu)
    obtain ⟨sc', hsc'⟩ := hu'.mentionsOwn_iff.mp hmentions
    exact hnear u.ns (List.mem_map_of_mem hu) sc' hsc'

/-- **`GetSource` returns the bytes of the owner of a visible file**, whatever the order of the maps, exactly when it
meets the owner first. -/
theorem getSource_owner_iff (hlaw : env.Lawful) (honce : server.ListsOnce) (hversion : server.AnswersVersion)
    (hcfg : cfg.useServerChain) (hchain : server.getNamespaceChain ns = .ok chain) (hnd : chain.Nodup)
    (howned : server.OwnedOnce chain) (hnew : Handle.new env (some server.toServer) ns cfg = .ok h) (ha : a ∈ chain)
    (hown : server.Owns a sc path content) :
    ((∃ f, h.resolver.findFileByPath path = .ok f) → ∀ order, h.getSource server order path = .ok content) ↔
      ((∃ f, h.resolver.findFileByPath path = .ok f) → server.OwnerFirst cfg ns chain a sc path) := by
  obtain ⟨hr, hrpc, -⟩ := new_eq_ok hnew
  obtain ⟨tail, _, _, rfl, -⟩ := new_eq_ok_of_chain hcfg hchain hr
  obtain ⟨hns, hloaded⟩ := loadedFrom_of_new hlaw honce hversion hcfg hchain hnd hr
  refine imp_congr_right fun _ => ?_
  simp only [Handle.getSource, (wired_of_new hnew).tiers_eq, hrpc]
  rw [fetchFrom_owner_iff (cfg.forTier ns) honce hloaded hown, hns]
  · rfl
  · intro t ht sc' content' hown'
    have hmem : t.ns ∈ ns :: tail.reverse := hns ▸ List.mem_map_of_mem ht
    exact howned t.ns (by simpa using hmem) a ha sc' sc path content' content hown' hown

/-- A schema with the given set in each namespace, published with one file. -/
def sampleOwners (chain : List String) (sets : String → List FileDescriptor) (own : String → String × Bytes) :
    SourceServer :=
  { Sample.server chain fun ns => [("s", sets ns)] with
    getSource := fun ns _ _ => .ok (Dict.empty.set (own ns).1 (own ns).2) }

section
variable {chain : List String} {sets : String → List FileDescriptor} {own : String → String × Bytes}

theorem listed_sampleOwners (h : ⟨sc, some v⟩ ∈ ((sampleOwners chain sets own).listSchemas ns).pages.flatten) :
    sc = "s" ∧ v = 1 := by
  simpa [sampleOwners, Sample.server] using h

theorem ownedOnce_sampleOwners (hinj : ∀ a ∈ chain, ∀ b ∈ chain, (own a).1 = (own b).1 → a = b) :
    (sampleOwners chain sets own).OwnedOnce chain := by
  have howns : ∀ {ns sc path content}, (sampleOwners chain sets own).Owns ns sc path content →
      sc = "s" ∧ path = (own ns).1 := by
    rintro ns sc path content ⟨v, sources, hlisted, hsources, hget⟩
    cases hsources
    have hkeys : (Dict.empty.set (own ns).1 (own ns).2).keys = [(own ns).1] := rfl
    have hpath := Dict.mem_keys_of_get hget
    rw [hkeys] at hpath
    exact ⟨(listed_sampleOwners hlisted).1, List.mem_singleton.mp hpath⟩
  intro a ha b hb sc sc' path content content' h h'
  obtain ⟨rfl, hpath⟩ := howns h
  obtain ⟨rfl, hpath'⟩ := howns h'
  exact ⟨hinj a ha b hb (hpath.symm.trans hpath'), rfl⟩

theorem current_sampleOwners (h : (sampleOwners chain sets own).Current cfg ns sc fdset) :
    sc = "s" ∧ fdset = sets ns := by
  obtain ⟨v, v', hlisted, -, hget⟩ := h
  obtain ⟨rfl, -⟩ := listed_sampleOwners hlisted
  cases hget
  exact ⟨rfl, rfl⟩

end

/-- The namespace `b` imports a file of its parent `c`, which is asked first. -/
theorem getSource_owner_imported :
    let server := sampleOwners ["a", "b", "c"]
      (fun ns => if ns = "a" then [Sample.file "a.proto" [2]] else if ns = "b" then
        [Sample.file "m.proto" [1], { Sample.file "b.proto" [3] with imports := ["m.proto"] }] else
        [Sample.file "m.proto" [1]])
      (fun ns => if ns = "a" then ("a.proto", [2]) else if ns = "b" then ("b.proto", [3]) else ("m.proto", [1]))
    ∃ h, Handle.new Sample.env (some server.toServer) "a" { useServerChain := true } = .ok h ∧
      server.Owns "c" "s" "m.proto" [1] ∧ (∃ f, h.resolver.findFileByPath "m.proto" = .ok f) ∧
      ∀ order, h.getSource server order "m.proto" = .ok [1] := by
  intro server
  obtain ⟨h, hnew, f, hfound⟩ :
      ∃ h, Handle.new Sample.env (some server.toServer) "a" { useServerChain := true } = .ok h ∧
      ∃ f, h.resolver.findFileByPath "m.proto" = .ok f := ⟨_, rfl, _, rfl⟩
  have hown : server.Owns "c" "s" "m.proto" [1] := ⟨1, _, by simp [server, sampleOwners, Sample.server], rfl, rfl⟩
  refine ⟨h, hnew, hown, ⟨f, hfound⟩, ?_⟩
  refine (getSource_owner_iff Sample.lawful_env ?_ ?_ rfl rfl (by decide) (ownedOnce_sampleOwners (by decide)) hnew
    (by simp) hown).mpr (fun _ => ?_) ⟨f, hfound⟩
  · intro ns
    simp [sampleOwners, Sample.server]
  · intro ns sc v v' fdset _ hget
    dsimp only [server, sampleOwners, Sample.server] at hget
    split at hget
    · cases hget
      rfl
    · cases hget
  · refine ⟨["a"], ["b"], rfl, fun b hb sc' hmentions => ?_, fun sc' => ⟨fun hmentions => ?_, ?_⟩⟩
    · cases List.mem_singleton.mp hb
      obtain ⟨fdset, hcurrent, hpath⟩ := hmentions
      rw [(current_sampleOwners hcurrent).2] at hpath
      simp [Sample.file] at hpath
    · obtain ⟨fdset, hcurrent, -⟩ := hmentions
      exact (current_sampleOwners hcurrent).1
    · rintro rfl
      exact ⟨_, ⟨1, 1, by simp [sampleOwners, Sample.server], rfl, rfl⟩, by simp [Sample.file]⟩

/-- The child imports it. -/
theorem getSource_of_importer :
    let server := sampleOwners ["a", "b"]
      (fun ns => if ns = "a" then
        [Sample.file "m.proto" [1], { Sample.file "a.proto" [2] with imports := ["m.proto"] }] else
        [Sample.file "m.proto" [1]])
      (fun ns => if ns = "a" then ("a.proto", [2]) else ("m.proto", [1]))
    ∃ h, Handle.new Sample.env (some server.toServer) "a" { useServerChain := true } = .ok h ∧
      server.OwnedOnce ["a", "b"] ∧ server.Owns "b" "s" "m.proto" [1] ∧
      (∃ f, h.resolver.findFileByPath "m.proto" = .ok f) ∧
      h.getSource server .written "m.proto" =
        .error (.client (.error
          "server returned schema a/s@1 sources without \"m.proto\": proto:\u00a0not found")) := by
  intro server
  refine ⟨_, rfl, ownedOnce_sampleOwners (by decide), ⟨1, _, ?_, rfl, rfl⟩, ⟨_, rfl⟩, rfl⟩
  simp [server, sampleOwners, Sample.server]

end ProtoRegistry.Client
