import ProtoRegistry.Verify.Compiled

/-!
# A populated resolver

What `populate` leaves: the snapshot of the schemas the server listed, and the registries of the namespace
filled with their files and types, schema by schema.
-/

namespace ProtoRegistry.Client

variable {env : External} {server : Server} {r r' : Resolver}

/-! ## The schemas -/

/-- The schemas of a snapshot are those listed with a version, as they were fetched. -/
structure NsSnapshot.Loaded (env : External) (server : Server) (r : Resolver) (infos : List SchemaInfo)
    (snap : NsSnapshot) : Prop where
  fetched : ∀ sc ss, snap.schemas.get sc = some ss →
    ∃ v, ⟨sc, some v⟩ ∈ infos ∧ fetchSchema env server r sc v = .ok ss
  listed : ∀ sc v, ⟨sc, some v⟩ ∈ infos → (snap.schemas.get sc).isSome

theorem loadSchemas_spec {infos : List SchemaInfo} {snap : NsSnapshot}
    (h : infos.foldlM (loadSchema env server r) .new = .ok snap) :
    snap.Loaded env server r infos ∧ snap.nameIndex = .empty := by
  let J (done : List SchemaInfo) (snap : NsSnapshot) : Prop :=
    snap.Loaded env server r done ∧ snap.nameIndex = .empty
  refine foldlM_inv (J := J) ⟨⟨fun _ _ h => (by cases h), fun _ _ h => (by cases h)⟩, rfl⟩ ?_ h
  intro done info snap snap' _ ⟨hloaded, hindex⟩ hstep
  obtain ⟨sc, version⟩ := info
  cases version with
  | none =>
    cases hstep
    refine ⟨⟨fun i ss hss => ?_, fun i v hi => ?_⟩, hindex⟩
    · obtain ⟨v, hv, hfetch⟩ := hloaded.fetched i ss hss
      exact ⟨v, List.mem_append_left _ hv, hfetch⟩
    · obtain hi | hi := List.mem_append.mp hi
      · exact hloaded.listed i v hi
      · cases List.mem_singleton.mp hi
  | some v =>
    obtain ⟨fresh, hfresh, hput⟩ := except_bind_eq_ok.mp hstep
    cases hput
    refine ⟨⟨fun i ss hss => ?_, fun i w hi => ?_⟩, hindex⟩
    · change (snap.schemas.set sc fresh).get i = some ss at hss
      rw [Dict.get_set] at hss
      split at hss
      · next heq =>
        cases hss
        exact ⟨v, List.mem_append_right _ (by rw [heq]; exact List.mem_singleton_self _), heq ▸ hfresh⟩
      · obtain ⟨w, hw, hfetch⟩ := hloaded.fetched i ss hss
        exact ⟨w, List.mem_append_left _ hw, hfetch⟩
    · obtain hi | hi := List.mem_append.mp hi
      · exact Dict.isSome_get_set _ _ (hloaded.listed i w hi)
      · cases List.mem_singleton.mp hi
        change ((snap.schemas.set sc fresh).get sc).isSome
        rw [Dict.get_set_self]
        rfl

theorem fetchSchema_eq_ok (h : fetchSchema env server r sc v = .ok ss) :
    ∃ v' fdset, server.getDescriptor r.ns sc v = .ok (v', fdset) ∧
      compileSchema env r.ns sc v' fdset = .ok ss := by
  rw [fetchSchema] at h
  split at h
  · cases h
  · next v' fdset hget => exact ⟨v', fdset, hget, h⟩

/-- Every schema of the snapshot is compiled, under its own ID. -/
def NsSnapshot.Sound (env : External) (snap : NsSnapshot) : Prop :=
  ∀ sc ss, snap.schemas.get sc = some ss → ss.schemaID = sc ∧
    ∃ files, env.newFiles ss.rawDescriptorSet = .ok files ∧ ss.Compiled files

theorem NsSnapshot.Loaded.sound (h : NsSnapshot.Loaded env server r infos snap) : snap.Sound env := by
  intro sc ss hss
  obtain ⟨v, _, hfetch⟩ := h.fetched sc ss hss
  obtain ⟨v', fdset, _, hcompile⟩ := fetchSchema_eq_ok hfetch
  obtain ⟨files, hfiles, hcompiled, hid, _, hraw⟩ := compileSchema_eq_ok hcompile
  exact ⟨hid, files, hraw ▸ hfiles, hcompiled⟩

/-! ## The registries of the namespace -/

namespace NsSnapshot

/-- The files of all schemas, in the order in which `populate` applies them. -/
def files (s : NsSnapshot) : List FileDescriptor := s.sorted.flatMap fun e => e.2.files.rangeFiles

theorem mem_files {s : NsSnapshot} :
    f ∈ s.files ↔ ∃ sc ss, s.schemas.get sc = some ss ∧ f ∈ ss.files.rangeFiles := by
  rw [files, List.mem_flatMap]
  constructor
  · rintro ⟨⟨sc, ss⟩, hmem, hf⟩
    exact ⟨sc, ss, mem_sorted.mp hmem, hf⟩
  · rintro ⟨sc, ss, hss, hf⟩
    exact ⟨(sc, ss), mem_sorted.mpr hss, hf⟩

theorem sorted_keys_nodup (s : NsSnapshot) : (s.sorted.map Prod.fst).Nodup := by
  have hperm : (s.sorted.map Prod.fst).Perm (s.schemas.toList.map Prod.fst) :=
    (List.perm_insertionSort _ _).map _
  rw [hperm.nodup_iff, Dict.keys_toList]
  exact s.schemas.nodup

theorem sorted_pairwise_lt (s : NsSnapshot) : s.sorted.Pairwise fun a b => a.1 < b.1 := by
  have : Std.Total fun a b : String × SchemaSnapshot => a.1 ≤ b.1 := ⟨fun a b => String.le_total a.1 b.1⟩
  have : IsTrans _ fun a b : String × SchemaSnapshot => a.1 ≤ b.1 := ⟨fun a b c => String.le_trans⟩
  have hle : s.sorted.Pairwise fun a b => a.1 ≤ b.1 := List.pairwise_insertionSort _ _
  have hne : s.sorted.Pairwise fun a b => a.1 ≠ b.1 := List.pairwise_map.mp s.sorted_keys_nodup
  exact (hle.and hne).imp fun h => Std.lt_of_le_of_ne h.1 h.2

theorem fullName_mem_range (ht : t ∈ f.types) : t.fullName ∈ rangeFileDescriptors f :=
  List.mem_append_left _ (List.mem_map_of_mem ht)

theorem typeNames_nodup {s : NsSnapshot} (hsound : s.Sound env) (hcons : Consistent s.visits) :
    ((s.files.flatMap (·.types)).map (·.fullName)).Nodup := by
  rw [files, List.flatMap_assoc, List.map_flatMap, List.nodup_flatMap]
  constructor
  · rintro ⟨sc, ss⟩ hmem
    obtain ⟨_, files, _, hcompiled⟩ := hsound sc ss (mem_sorted.mp hmem)
    rw [hcompiled.stores.rangeFiles]
    exact hcompiled.distinct.names
  · have hkeys : s.sorted.Pairwise fun a b => a.1 ≠ b.1 := List.pairwise_map.mp s.sorted_keys_nodup
    have hmem : s.sorted.Pairwise fun a b => a ∈ s.sorted ∧ b ∈ s.sorted :=
      List.pairwise_of_forall_mem_list fun a ha b hb => ⟨ha, hb⟩
    refine (hkeys.and hmem).imp ?_
    rintro ⟨i, ss⟩ ⟨j, ss'⟩ ⟨hne, hi, hj⟩ n hn hn'
    have visit : ∀ {k ss}, (k, ss) ∈ s.sorted →
        n ∈ (ss.files.rangeFiles.flatMap (·.types)).map (·.fullName) → (k, n) ∈ s.visits := by
      intro k ss hk hn
      obtain ⟨t, ht, rfl⟩ := List.mem_map.mp hn
      obtain ⟨f, hf, htf⟩ := List.mem_flatMap.mp ht
      exact mem_visits.mpr ⟨ss, mem_sorted.mp hk, f, hf, fullName_mem_range htf⟩
    exact hne (hcons i j n (visit hi hn) (visit hj hn'))

end NsSnapshot

theorem applyToAggregate_types (ss : SchemaSnapshot) (order : List FileDescriptor) (types : NamespacedTypes) :
    StateE.Triple (fun agg : Aggregate => agg.nsTypes = types) (applyToAggregate ss order)
      (fun _ agg => agg.nsTypes = (order.flatMap (·.types)).foldl updateTypeOf types)
      fun _ _ => True := by
  refine StateE.Triple.forM (J := fun (done : List FileDescriptor) _ (agg : Aggregate) =>
    agg.nsTypes = (done.flatMap (·.types)).foldl updateTypeOf types) ?_
  intro done f rest _
  refine StateE.Triple.change ?_ fun _ _ _ _ => trivial
  intro agg agg' hagg hstep
  rw [applyFile] at hstep
  split at hstep
  · cases hstep
  · cases hstep
    rw [List.flatMap_append, List.flatMap_singleton, List.foldl_append, ← hagg]
    rfl

theorem applyAll_types (snap : NsSnapshot) (types : NamespacedTypes) :
    StateE.Triple (fun agg : Aggregate => agg.nsTypes = types) (applyAll snap)
      (fun _ agg => agg.nsTypes = (snap.files.flatMap (·.types)).foldl updateTypeOf types)
      fun _ _ => True := by
  have hloop := StateE.Triple.forM (l := snap.sorted) (g := fun e => applyToAggregate e.2 e.2.files.rangeFiles)
    (E := fun _ _ => True)
    (J := fun done _ (agg : Aggregate) => agg.nsTypes =
      ((done.flatMap fun e => e.2.files.rangeFiles).flatMap (·.types)).foldl updateTypeOf types) ?_
  · exact hloop
  · intro done e rest _ agg hagg
    rw [List.flatMap_append, List.flatMap_append, List.foldl_append, ← hagg, List.flatMap_singleton]
    exact applyToAggregate_types e.2 _ agg.nsTypes agg rfl

/-! ## Populating -/

theorem populate_eq_ok (h : populate env server r = .ok r') :
    ∃ infos snap₀ snap agg, listAllSchemas server r = .ok infos ∧
      infos.foldlM (loadSchema env server r) .new = .ok snap₀ ∧ snap₀.buildNameIndex = .ok snap ∧
      (applyAll snap).exec r.toAggregate = (.ok (), agg) ∧
      r' = { r with toAggregate := agg, snapshot := some snap } := by
  rw [populate] at h
  split at h
  · cases h
  · next infos hinfos =>
    obtain ⟨snap₀, hload, h⟩ := except_bind_eq_ok.mp h
    obtain ⟨snap, hindex, h⟩ := except_bind_eq_ok.mp h
    split at h
    · cases h
    · next agg hagg =>
      cases h
      exact ⟨infos, snap₀, snap, agg, hinfos, hload, hindex, hagg, rfl⟩

/-- The registries of types of a resolver hold what the schemas of its snapshot declare. -/
structure Resolver.Populated (env : External) (r : Resolver) (snap : NsSnapshot) : Prop where
  snapshot : r.snapshot = some snap
  sound : snap.Sound env
  consistent : Consistent snap.visits
  schemaFor : ∀ n ss, snap.schemaFor n = some ss ↔ ∃ sc, snap.schemas.get sc = some ss ∧ (sc, n) ∈ snap.visits
  types : Indexes r.nsTypes.typesByName.get (·.fullName) (snap.files.flatMap (·.types))

/-- What `populate` does to a resolver with empty registries. -/
theorem populate_spec (hnew : r.nsTypes = .new) (h : populate env server r = .ok r') :
    ∃ infos snap, listAllSchemas server r = .ok infos ∧ snap.Loaded env server r infos ∧
      r'.Populated env snap ∧ r'.ns = r.ns ∧ r'.cfg = r.cfg ∧ r'.ancestors = r.ancestors := by
  obtain ⟨infos, snap₀, snap, agg, hinfos, hload, hindex, hagg, rfl⟩ := populate_eq_ok h
  obtain ⟨hloaded, hempty⟩ := loadSchemas_spec hload
  obtain ⟨hcons, hsnap⟩ := (NsSnapshot.buildNameIndex_eq_ok_iff hempty).mp hindex
  have hschemas : snap.schemas = snap₀.schemas := by rw [hsnap]
  have hvisits : snap.visits = snap₀.visits := by rw [hsnap]; rfl
  have hloaded' : snap.Loaded env server r infos :=
    ⟨fun sc ss hss => hloaded.fetched sc ss (hschemas ▸ hss),
      fun sc v hi => hschemas ▸ hloaded.listed sc v hi⟩
  have hcons' : Consistent snap.visits := hvisits ▸ hcons
  have htypes := (applyAll_types snap .new).ok hnew hagg
  refine ⟨infos, snap, hinfos, hloaded', ⟨rfl, hloaded'.sound, hcons', fun n ss => ?_, ?_⟩, rfl, rfl, rfl⟩
  · rw [NsSnapshot.schemaFor_eq_some_iff hempty hindex, hschemas, hvisits]
  · have hnil : Indexes NamespacedTypes.new.typesByName.get (fun t : TypeDescriptor => t.fullName) [] :=
      Indexes.nil
    have hnd := NsSnapshot.typeNames_nodup hloaded'.sound hcons'
    rw [← List.nil_append (snap.files.flatMap _)] at hnd
    have hfold := NamespacedTypes.names_foldl_update hnil hnd
    rwa [List.nil_append, ← htypes] at hfold

theorem Resolver.Populated.typesByName_eq (h : r.Populated env snap) (hss : snap.schemaFor n = some ss) :
    ss.types.typesByName.get n = r.nsTypes.typesByName.get n := by
  obtain ⟨sc, hget, hvisit⟩ := (h.schemaFor n ss).mp hss
  obtain ⟨_, files, _, hcompiled⟩ := h.sound sc ss hget
  apply Option.ext
  intro t
  rw [hcompiled.types.names n t, h.types n t]
  constructor
  · rintro ⟨ht, hn⟩
    obtain ⟨f, hf, htf⟩ := List.mem_flatMap.mp ht
    rw [← hcompiled.stores.rangeFiles] at hf
    exact ⟨List.mem_flatMap.mpr ⟨f, NsSnapshot.mem_files.mpr ⟨sc, ss, hget, hf⟩, htf⟩, hn⟩
  · rintro ⟨ht, hn⟩
    obtain ⟨f, hf, htf⟩ := List.mem_flatMap.mp ht
    obtain ⟨sc', ss', hget', hf'⟩ := NsSnapshot.mem_files.mp hf
    have hvisit' : (sc', n) ∈ snap.visits :=
      NsSnapshot.mem_visits.mpr ⟨ss', hget', f, hf', hn ▸ NsSnapshot.fullName_mem_range htf⟩
    rw [h.consistent sc' sc n hvisit' hvisit, hget] at hget'
    cases hget'
    rw [hcompiled.stores.rangeFiles] at hf'
    exact ⟨List.mem_flatMap.mpr ⟨f, hf', htf⟩, hn⟩

theorem TypesChain.findByName_congr {types types' : NamespacedTypes} {parent : TypesChain}
    {select : TypeDescriptor → Option α} (h : types.typesByName.get n = types'.typesByName.get n) :
    (TypesChain.node types parent).findByName want select n =
      (TypesChain.node types' parent).findByName want select n := by
  simp only [TypesChain.findByName, TypesChain.typeByName, h]

theorem Resolver.Populated.findMessageByName (h : r.Populated env snap) (n : FullName) :
    r.findMessageByName n = r.types.findMessageByName n := by
  rw [Resolver.findMessageByName, h.snapshot, Option.bind_some]
  cases hss : snap.schemaFor n with
  | none => rfl
  | some ss => exact TypesChain.findByName_congr (h.typesByName_eq hss)

/-! ## What the server has -/

/-- Each schema of a namespace is listed once. -/
def Server.ListsOnce (server : Server) : Prop :=
  ∀ ns, ((server.listSchemas ns).pages.flatten.map (·.schemaID)).Nodup

/-- The schema is tracked, and the set is the one of its current version. -/
def Server.Current (server : Server) (cfg : Config) (ns sc : String) (fdset : List FileDescriptor) : Prop :=
  ∃ v v', ⟨sc, some v⟩ ∈ (server.listSchemas ns).pages.flatten ∧ cfg.tracksSchema sc ∧
    server.getDescriptor ns sc v = .ok (v', fdset)

theorem listAllSchemas_eq_ok (h : listAllSchemas server r = .ok infos) :
    infos = (server.listSchemas r.ns).pages.flatten.filter fun info => r.cfg.tracksSchema info.schemaID := by
  rw [listAllSchemas] at h
  split at h
  · cases h
  · exact (Except.ok.inj h).symm

theorem Server.Current.unique {server : Server} {cfg : Config} {S T : List FileDescriptor}
    (honce : server.ListsOnce) (hS : server.Current cfg ns sc S) (hT : server.Current cfg ns sc T) : S = T := by
  obtain ⟨v, _, hv, _, hS⟩ := hS
  obtain ⟨w, _, hw, _, hT⟩ := hT
  cases List.inj_on_of_nodup_map (honce ns) hv hw rfl
  rw [hS] at hT
  cases hT
  rfl

section
variable {infos : List SchemaInfo} (hlaw : env.Lawful) (hinfos : listAllSchemas server r = .ok infos)
  (h : NsSnapshot.Loaded env server r infos snap)
include hlaw hinfos h

/-- A schema of the snapshot has the files of the set the server has. -/
theorem NsSnapshot.Loaded.current (hss : snap.schemas.get sc = some ss) :
    ∃ fdset, server.Current r.cfg r.ns sc fdset ∧ ss.files.rangeFiles.Perm fdset := by
  obtain ⟨v, hv, hfetch⟩ := h.fetched sc ss hss
  obtain ⟨v', fdset, hget, hcompile⟩ := fetchSchema_eq_ok hfetch
  obtain ⟨files, hfiles, hcompiled, _⟩ := compileSchema_eq_ok hcompile
  rw [listAllSchemas_eq_ok hinfos, List.mem_filter] at hv
  exact ⟨fdset, ⟨v, v', hv.1, hv.2, hget⟩, hcompiled.stores.rangeFiles ▸ hlaw.newFiles_perm hfiles⟩

theorem NsSnapshot.Loaded.mem_schema (honce : server.ListsOnce) :
    (∃ ss, snap.schemas.get sc = some ss ∧ f ∈ ss.files.rangeFiles) ↔
      ∃ fdset, server.Current r.cfg r.ns sc fdset ∧ f ∈ fdset := by
  constructor
  · rintro ⟨ss, hss, hf⟩
    obtain ⟨fdset, hcurrent, hperm⟩ := h.current hlaw hinfos hss
    exact ⟨fdset, hcurrent, hperm.mem_iff.mp hf⟩
  · rintro ⟨fdset, hcurrent, hf⟩
    obtain ⟨v, v', hv, htrack, _⟩ := id hcurrent
    have hmem : ⟨sc, some v⟩ ∈ infos := by
      rw [listAllSchemas_eq_ok hinfos]
      exact List.mem_filter.mpr ⟨hv, htrack⟩
    obtain ⟨ss, hss⟩ := Option.isSome_iff_exists.mp (h.listed sc v hmem)
    obtain ⟨fdset', hcurrent', hperm⟩ := h.current hlaw hinfos hss
    rw [hcurrent.unique honce hcurrent'] at hf
    exact ⟨ss, hss, hperm.mem_iff.mpr hf⟩

end

end ProtoRegistry.Client
