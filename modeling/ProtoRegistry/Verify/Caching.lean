import ProtoRegistry.Model.Cache
import ProtoRegistry.Verify.Origins

/-!
# Loading a resolver from the disk cache

A namespace that was written is read back with the same registries and the same name index. The chain is
written from the root down and read as if it began with the nearest ancestor, so a stale resolver has its
ancestors the other way round.
-/

namespace ProtoRegistry.Client

/-! ## Names of files -/

/-- `idPattern`. -/
def idPattern (id : String) : Bool :=
  match id.toList with
  | [] => false
  | c :: cs => c.isAlphanum && cs.all fun c => c.isAlphanum || c == '_' || c == '-' || c == '.'

theorem not_mem_of_idPattern {c : Char} (h : idPattern sc) (hc : ¬ c.isAlphanum) (hc' : c ∉ ['_', '-', '.']) :
    c ∉ sc.toList := by
  intro hmem
  rw [idPattern] at h
  split at h
  · cases h
  · next c₀ cs hcs =>
    rw [hcs] at hmem
    rw [Bool.and_eq_true, List.all_eq_true] at h
    rcases List.mem_cons.mp hmem with rfl | hmem
    · exact hc h.1
    · have hcase := h.2 c hmem
      simp only [Bool.or_eq_true, beq_iff_eq] at hcase
      simp only [List.mem_cons, List.not_mem_nil, or_false, not_or] at hc'
      tauto

theorem toList_cacheFile (sc : String) (v : Nat) :
    (cacheFile sc v).toList = sc.toList ++ '@' :: ((toString v).toList ++ ['.', 'p', 'b']) := by
  simp [cacheFile]

theorem takeWhile_append_cons {a : α} [DecidableEq α] {l r : List α} (h : a ∉ l) :
    (l ++ a :: r).takeWhile (· ≠ a) = l := by
  induction l with
  | nil => simp
  | cons b l ih =>
    rw [List.mem_cons, not_or] at h
    have hb : decide (b ≠ a) = true := decide_eq_true (Ne.symm h.1)
    rw [List.cons_append, List.takeWhile_cons, hb, if_pos rfl, ih h.2]

theorem cacheFile_inj (h : idPattern i) (h' : idPattern j) (heq : cacheFile i v = cacheFile j w) : i = j := by
  have hat := not_mem_of_idPattern (c := '@') h (by decide) (by decide)
  have hat' := not_mem_of_idPattern (c := '@') h' (by decide) (by decide)
  have hlist := congrArg (fun file => file.toList.takeWhile (· ≠ '@')) heq
  simp only [toList_cacheFile, takeWhile_append_cons hat, takeWhile_append_cons hat'] at hlist
  exact String.toList_inj.mp hlist

theorem isBase_cacheFile (h : idPattern sc) (v : Nat) : isBase (cacheFile sc v) := by
  have hslash := not_mem_of_idPattern (c := '/') h (by decide) (by decide)
  have hdigits : '/' ∉ Nat.toDigits 10 v := by
    intro hmem
    exact absurd (Nat.isDigit_of_mem_toDigits (by decide) (by decide) hmem) (by decide)
  have hnot : '/' ∉ (cacheFile sc v).toList := by
    rw [toList_cacheFile]
    simp [hslash, hdigits]
  have hne : cacheFile sc v ≠ "" := by
    intro hnil
    have hlist := congrArg String.toList hnil
    rw [toList_cacheFile] at hlist
    simp at hlist
  simp [isBase, hnot, hne]

/-! ## A namespace that was loaded -/

variable {env : External} {server : Server} {r : Resolver} {snap : NsSnapshot}

/-- How a resolver is built from the compiled schemas of its namespace. -/
structure Resolver.Built (env : External) (r : Resolver) (snap : NsSnapshot) : Prop where
  snapshot : r.snapshot = some snap
  consistent : Consistent snap.visits
  nameIndex : snap.nameIndex = (snap.visits.foldl NameIndexing.visit ⟨.empty, .empty⟩).nameIndex
  aggregate : (applyAll snap).exec ⟨.new, .new⟩ = (.ok (), r.toAggregate)
  compiled : ∀ sc ss, snap.schemas.get sc = some ss →
    compileSchema env r.ns sc ss.version ss.rawDescriptorSet = .ok ss
  tracked : ∀ sc ss, snap.schemas.get sc = some ss → r.cfg.tracksSchema sc
  named : ∀ sc ss, snap.schemas.get sc = some ss → idPattern sc

def Server.ValidIDs (server : Server) : Prop :=
  ∀ ns, ∀ info ∈ (server.listSchemas ns).pages.flatten, idPattern info.schemaID

theorem built_of_newSingleNamespace (hids : server.ValidIDs)
    (h : newSingleNamespace env server ns cfg parent = .ok r) :
    r.ns = ns ∧ r.Over cfg parent ∧ ∃ snap, r.Built env snap := by
  obtain ⟨infos, snap₀, snap, agg, hinfos, hload, hindex, hagg, rfl⟩ := populate_eq_ok h
  obtain ⟨hloaded, hempty⟩ := loadSchemas_spec hload
  obtain ⟨hcons, rfl⟩ := (NsSnapshot.buildNameIndex_eq_ok_iff hempty).mp hindex
  have hlisted : ∀ sc ss, snap₀.schemas.get sc = some ss → ∃ v, (⟨sc, some v⟩ : SchemaInfo) ∈
      (server.listSchemas ns).pages.flatten ∧ cfg.tracksSchema sc := by
    intro sc ss hss
    obtain ⟨v, hv, _⟩ := hloaded.fetched sc ss hss
    rw [listAllSchemas_eq_ok hinfos, List.mem_filter] at hv
    exact ⟨v, hv.1, by cases parent <;> exact hv.2⟩
  refine ⟨rfl, (by cases parent <;> exact ⟨rfl, rfl, rfl, rfl⟩), _, rfl, hcons, rfl, hagg,
    fun sc ss hss => ?_, fun sc ss hss => ?_, fun sc ss hss => ?_⟩
  · obtain ⟨v, _, hfetch⟩ := hloaded.fetched sc ss hss
    obtain ⟨v', fdset, _, hcompile⟩ := fetchSchema_eq_ok hfetch
    obtain ⟨_, _, _, _, hv', hraw⟩ := compileSchema_eq_ok hcompile
    rw [hv', hraw]
    exact hcompile
  · obtain ⟨v, _, htrack⟩ := hlisted sc ss hss
    cases parent <;> exact htrack
  · obtain ⟨v, hv, _⟩ := hlisted sc ss hss
    exact hids ns _ hv

theorem NsSnapshot.mem_cached {s : NsSnapshot} :
    (sc, ss) ∈ s.cached ↔ s.schemas.get sc = some ss ∧ ss.rawDescriptorSet ≠ [] := by
  rw [cached, List.mem_filter, mem_sorted]
  simp

theorem flatMap_filter {p : α → Bool} {f : α → List β} {l : List α} (h : ∀ a ∈ l, p a = false → f a = []) :
    (l.filter p).flatMap f = l.flatMap f := by
  induction l with
  | nil => rfl
  | cons a l ih =>
    have ih := ih fun b hb => h b (List.mem_cons_of_mem _ hb)
    rw [List.filter_cons, List.flatMap_cons]
    cases hp : p a with
    | true => rw [if_pos rfl, List.flatMap_cons, ih]
    | false => rw [if_neg Bool.false_ne_true, ih, h a (List.mem_cons_self ..) hp, List.nil_append]

section
variable (hlaw : env.Lawful) (h : r.Built env snap)
include hlaw h

theorem Resolver.Built.rangeFiles_eq_nil (hss : snap.schemas.get sc = some ss) (hraw : ss.rawDescriptorSet = []) :
    ss.files.rangeFiles = [] := by
  obtain ⟨files, hfiles, hcompiled, _⟩ := compileSchema_eq_ok (h.compiled sc ss hss)
  rw [hcompiled.stores.rangeFiles]
  rw [hraw] at hfiles
  exact List.perm_nil.mp (hlaw.newFiles_perm hfiles)

theorem Resolver.Built.rangeFiles_of_not_cached (e : String × SchemaSnapshot) (he : e ∈ snap.sorted)
    (hraw : (!e.2.rawDescriptorSet.isEmpty) = false) : e.2.files.rangeFiles = [] := by
  apply h.rangeFiles_eq_nil hlaw (NsSnapshot.mem_sorted.mp he)
  simpa using hraw

/-- The snapshot that is read back: only schemas without files are missing. -/
structure NsSnapshot.Reread (snap snap' : NsSnapshot) : Prop where
  sorted : snap'.sorted = snap.cached
  nameIndex : snap'.nameIndex = snap.nameIndex

theorem Resolver.Built.visits_eq {snap' : NsSnapshot} (hsorted : snap'.sorted = snap.cached) :
    snap'.visits = snap.visits := by
  rw [NsSnapshot.visits, hsorted, NsSnapshot.cached, NsSnapshot.visits]
  apply flatMap_filter
  intro e he hraw
  rw [h.rangeFiles_of_not_cached hlaw e he hraw]
  rfl

theorem Resolver.Built.applyAll_eq {snap' : NsSnapshot} (hsorted : snap'.sorted = snap.cached) (agg : Aggregate) :
    (applyAll snap').exec agg = (applyAll snap).exec agg := by
  rw [applyAll, hsorted, NsSnapshot.cached, applyAll]
  apply StateE.exec_forM_filter
  intro e he hraw agg
  rw [applyToAggregate, h.rangeFiles_of_not_cached hlaw e he hraw]
  rfl

theorem Resolver.Built.schemaFor_eq {snap' : NsSnapshot} (hread : snap.Reread snap') (n : FullName) :
    snap'.schemaFor n = snap.schemaFor n := by
  rw [NsSnapshot.schemaFor, hread.nameIndex, NsSnapshot.schemaFor]
  cases hn : snap.nameIndex.get n with
  | none => rfl
  | some sc =>
    have hvisit : (sc, n) ∈ snap.visits := by
      rw [h.nameIndex] at hn
      exact (NameIndexing.after_foldl snap.visits).sound n sc hn
    obtain ⟨ss, hss, f, hf, _⟩ := NsSnapshot.mem_visits.mp hvisit
    have hraw : ss.rawDescriptorSet ≠ [] := by
      intro hnil
      rw [h.rangeFiles_eq_nil hlaw hss hnil] at hf
      cases hf
    have hmem : (sc, ss) ∈ snap'.sorted := hread.sorted ▸ NsSnapshot.mem_cached.mpr ⟨hss, hraw⟩
    rw [Option.bind_some, Option.bind_some, hss]
    exact NsSnapshot.mem_sorted.mp hmem

end

/-! ## Written and read -/

structure Disk.Has (disk : Disk) (ns : String) (chain : List String) (snap : NsSnapshot) : Prop where
  manifest : disk.manifests.get ns = some (cacheManifest ns chain snap)
  schemas : ∀ e ∈ snap.cached, disk.schemas.get (ns, cacheFile e.1 e.2.version) = some e.2.rawDescriptorSet

theorem manifests_write (disk : Disk) (ns : String) (chain : List String) (snap : NsSnapshot) (n : String) :
    (disk.write ns chain snap).manifests.get n =
      if n = ns then some (cacheManifest ns chain snap) else disk.manifests.get n := by
  have hsame : (snap.cached.foldl (·.writeSchema ns) disk).manifests = disk.manifests := by
    induction snap.cached generalizing disk with
    | nil => rfl
    | cons e l ih => exact ih _
  change (Dict.set _ ns _).get n = _
  rw [Dict.get_set, hsame]

/-- What lies on the disk for a namespace stays. -/
structure Disk.SameAt (n : String) (disk disk' : Disk) : Prop where
  manifests : disk'.manifests.get n = disk.manifests.get n
  schemas : ∀ file, disk'.schemas.get (n, file) = disk.schemas.get (n, file)

theorem Disk.SameAt.trans {disk disk' disk'' : Disk} (h : SameAt n disk disk') (h' : SameAt n disk' disk'') :
    SameAt n disk disk'' :=
  ⟨h'.manifests.trans h.manifests, fun file => (h'.schemas file).trans (h.schemas file)⟩

theorem Disk.Has.of_sameAt {disk disk' : Disk} {chain : List String} (h : disk.Has n chain snap)
    (hsame : disk.SameAt n disk') : disk'.Has n chain snap := by
  refine ⟨?_, fun e he => ?_⟩
  · rw [hsame.manifests, h.manifest]
  · rw [hsame.schemas, h.schemas e he]

theorem sameAt_write (disk : Disk) (chain : List String) (snap : NsSnapshot) (hne : n ≠ ns) :
    disk.SameAt n (disk.write ns chain snap) := by
  refine ⟨by rw [manifests_write, if_neg hne], fun file => ?_⟩
  change (snap.cached.foldl (·.writeSchema ns) disk).schemas.get (n, file) = _
  induction snap.cached generalizing disk with
  | nil => rfl
  | cons e l ih =>
    rw [List.foldl_cons, ih]
    exact Dict.get_set_of_ne _ _ fun heq => hne (Prod.mk.inj heq).1

theorem Resolver.Built.write (h : r.Built env snap) (disk : Disk) (chain : List String) :
    (disk.write r.ns chain snap).Has r.ns chain snap := by
  refine ⟨by rw [manifests_write, if_pos rfl], ?_⟩
  have hfiles : snap.cached.Pairwise fun e e' => cacheFile e.1 e.2.version ≠ cacheFile e'.1 e'.2.version := by
    have hlt := snap.sorted_pairwise_lt.filter fun e => !e.2.rawDescriptorSet.isEmpty
    refine List.Pairwise.imp_of_mem ?_ hlt
    intro e e' he he' hlt heq
    have hid := h.named _ _ (NsSnapshot.mem_cached.mp he).1
    have hid' := h.named _ _ (NsSnapshot.mem_cached.mp he').1
    exact Std.lt_irrefl (cacheFile_inj hid hid' heq ▸ hlt)
  change ∀ e ∈ snap.cached, (snap.cached.foldl (·.writeSchema r.ns) disk).schemas.get _ = _
  generalize snap.cached = l at hfiles
  induction l using List.reverseRecOn with
  | nil =>
    intro e he
    cases he
  | append_singleton l e' ih =>
    intro e he
    rw [List.foldl_append]
    change (Dict.set _ _ _).get _ = _
    rw [Dict.get_set]
    split
    · next heq =>
      rcases List.mem_append.mp he with he | he
      · have hne := (List.pairwise_append.mp hfiles).2.2 e he e' (List.mem_singleton_self _)
        exact absurd (Prod.mk.inj heq).2 hne
      · rw [List.mem_singleton.mp he]
    · next hne =>
      rcases List.mem_append.mp he with he | he
      · exact ih (List.pairwise_append.mp hfiles).1 e he
      · exact absurd (by rw [List.mem_singleton.mp he]) hne

theorem readManifest_eq_ok {disk : Disk} {chain : List String} (h : disk.Has ns chain snap) :
    readManifest disk ns = .ok (cacheManifest ns chain snap) := by
  rw [readManifest, h.manifest]
  simp [cacheManifest]

/-- The resolver was read back as it was, without its ancestors. -/
structure Resolver.Reloaded (r r' : Resolver) : Prop where
  aggregate : r'.toAggregate = r.toAggregate
  schemaFor : ∀ n, r'.snapshot.bind (·.schemaFor n) = r.snapshot.bind (·.schemaFor n)

section
variable {disk : Disk} {chain : List String} (h : r.Built env snap) (hdisk : disk.Has r.ns chain snap)
  (start : Resolver) (hns : start.ns = r.ns) (htrack : ∀ sc, r.cfg.tracksSchema sc → start.cfg.tracksSchema sc)
include h hdisk hns htrack

theorem loadCachedSchema_eq_ok (hmem : e ∈ snap.cached) (s : NsSnapshot) :
    loadCachedSchema env disk start s ⟨e.1, e.2.version, cacheFile e.1 e.2.version⟩ = .ok (s.put e.1 e.2) := by
  have hget := (NsSnapshot.mem_cached.mp hmem).1
  have htracks := htrack _ (h.tracked _ _ hget)
  have hbase := isBase_cacheFile (h.named _ _ hget) e.2.version
  simp only [loadCachedSchema, htracks, hbase, hns, hdisk.schemas e hmem, h.compiled _ _ hget]
  rfl

theorem loadCachedSchemas_eq_ok : ∃ s, (cacheManifest r.ns chain snap).schemas.foldlM
    (loadCachedSchema env disk start) .new = .ok s ∧ s.schemas.toList = snap.cached ∧ s.nameIndex = .empty := by
  have hnd : (snap.cached.map Prod.fst).Nodup := snap.sorted_keys_nodup.sublist (List.filter_sublist.map _)
  rw [cacheManifest, List.foldlM_map]
  refine foldlM_total (J := fun done (s : NsSnapshot) => s.schemas.toList = done ∧ s.nameIndex = .empty) ⟨rfl, rfl⟩ ?_
  intro done e rest s hl ⟨hs, hempty⟩
  have hmem : e ∈ snap.cached := hl ▸ List.mem_append_right _ (List.mem_cons_self ..)
  refine ⟨_, loadCachedSchema_eq_ok h hdisk start hns htrack hmem s, ?_, hempty⟩
  have hnew : e.1 ∉ s.schemas.keys := by
    rw [← Dict.keys_toList, hs]
    rw [hl, List.map_append, List.map_cons] at hnd
    exact fun hkey => (List.nodup_append.mp hnd).2.2 _ hkey _ (List.mem_cons_self ..) rfl
  change (s.schemas.set e.1 e.2).toList = _
  rw [Dict.toList_set _ _ hnew, hs]

end

theorem NsSnapshot.sorted_eq_cached {s : NsSnapshot} (h : s.schemas.toList = snap.cached) : s.sorted = snap.cached := by
  rw [sorted, h]
  apply List.Pairwise.insertionSort_eq
  have hlt := snap.sorted_pairwise_lt.filter fun e => !e.2.rawDescriptorSet.isEmpty
  exact hlt.imp fun hlt => Std.le_of_lt hlt

theorem loadSingleNamespaceFromCache_eq (env : External) (disk : Disk) (ns : String) (cfg : Config)
    (parent : Option Resolver) : ∃ start : Resolver, start.ns = ns ∧ start.toAggregate = ⟨.new, .new⟩ ∧
      start.Over cfg parent ∧
      loadSingleNamespaceFromCache env disk ns cfg parent = (do
        let man ← readManifest disk ns
        let snap ← man.schemas.foldlM (loadCachedSchema env disk start) .new
        let snap ← snap.buildNameIndex
        match (applyAll snap).exec start.toAggregate with
        | (.error e, _) => .error e
        | (.ok (), agg) => .ok { start with toAggregate := agg, snapshot := some snap }) := by
  cases parent with
  | none => exact ⟨⟨⟨.new, .new⟩, ns, cfg, none, [], true⟩, rfl, rfl, ⟨rfl, rfl, rfl, rfl⟩, rfl⟩
  | some p =>
    exact ⟨⟨⟨.new, .new⟩, ns, { cfg with parentFiles := p.files, parentTypes := p.types }, none, [], true⟩,
      rfl, rfl, ⟨rfl, rfl, rfl, rfl⟩, rfl⟩

theorem Resolver.Built.reload (hlaw : env.Lawful) (h : r.Built env snap) {disk : Disk} {chain : List String}
    (hdisk : disk.Has r.ns chain snap) {cfg : Config} (hschemas : cfg.schemas = r.cfg.schemas)
    (parent : Option Resolver) :
    ∃ r', loadSingleNamespaceFromCache env disk r.ns cfg parent = .ok r' ∧ r.Reloaded r' ∧ r'.Over cfg parent := by
  obtain ⟨start, hns, hagg, hover, hload⟩ :=
    loadSingleNamespaceFromCache_eq env disk r.ns cfg parent
  have htrack : ∀ sc, r.cfg.tracksSchema sc → start.cfg.tracksSchema sc := by
    intro sc htracks
    rwa [Config.tracksSchema, hover.schemas, hschemas]
  obtain ⟨s, hfold, hlist, hempty⟩ := loadCachedSchemas_eq_ok h hdisk start hns htrack
  have hsorted := NsSnapshot.sorted_eq_cached hlist
  have hvisits := h.visits_eq hlaw hsorted
  have hindex := (NsSnapshot.buildNameIndex_eq_ok_iff hempty).mpr ⟨hvisits ▸ h.consistent, rfl⟩
  generalize hs' : (⟨s.schemas, _⟩ : NsSnapshot) = s' at hindex
  have hread : snap.Reread s' := by
    subst hs'
    refine ⟨hsorted, ?_⟩
    rw [h.nameIndex, hvisits]
  refine ⟨{ start with toAggregate := r.toAggregate, snapshot := some s' }, ?_, ⟨rfl, fun n => ?_⟩,
    ⟨hover.ancestors, hover.schemas, hover.parentFiles, hover.parentTypes⟩⟩
  · rw [hload]
    refine except_bind_eq_ok.mpr ⟨_, readManifest_eq_ok hdisk, except_bind_eq_ok.mpr ⟨s, hfold,
      except_bind_eq_ok.mpr ⟨s', hindex, ?_⟩⟩⟩
    rw [hagg, h.applyAll_eq hlaw hread.sorted, h.aggregate]
  · rw [h.snapshot]
    exact h.schemaFor_eq hlaw hread n

/-! ## Persisting a chain -/

/-- The namespace has a schema with a current version. Only then it is written. -/
def Resolver.hasSchemas (r : Resolver) : Bool := r.snapshot.any fun snap => !snap.schemas.keys.isEmpty

def Resolver.recordedChain (r : Resolver) : List String :=
  if r.ancestors.isEmpty then [] else r.ns :: r.ancestors.map (·.ns)

theorem recordedChain_tail (r : Resolver) : r.recordedChain.tail.reverse = r.ancestors.reverse.map (·.ns) := by
  rw [Resolver.recordedChain, List.map_reverse]
  cases r.ancestors <;> rfl

theorem persist_of_hasSchemas (hsnap : r.snapshot = some snap) (h : r.hasSchemas) (disk : Disk) :
    r.persist disk = persistAll r.ancestors (disk.write r.ns r.recordedChain snap) := by
  obtain ⟨_, ns, _, snapshot, ancestors, _⟩ := r
  cases hsnap
  have hne : snap.schemas.keys.isEmpty = false := by simpa [Resolver.hasSchemas] using h
  rw [Resolver.persist, if_neg (hne ▸ Bool.false_ne_true)]
  rfl

theorem persist_of_not_hasSchemas (h : ¬ r.hasSchemas) (disk : Disk) : r.persist disk = disk := by
  obtain ⟨_, ns, _, snapshot, ancestors, _⟩ := r
  cases snapshot with
  | none => rw [Resolver.persist]
  | some snap =>
    have hempty : snap.schemas.keys.isEmpty = true := by simpa [Resolver.hasSchemas] using h
    rw [Resolver.persist, if_pos hempty]

theorem sameAt_persist (hanc : r.ancestors = []) (h : r.hasSchemas → n ≠ r.ns) (disk : Disk) :
    disk.SameAt n (r.persist disk) := by
  by_cases hr : r.hasSchemas
  · cases hsnap : r.snapshot with
    | none => simp [Resolver.hasSchemas, hsnap] at hr
    | some snap =>
      rw [persist_of_hasSchemas hsnap hr, hanc, persistAll]
      exact sameAt_write disk _ snap (h hr)
  · rw [persist_of_not_hasSchemas hr]
    exact ⟨rfl, fun _ => rfl⟩

theorem sameAt_persistAll {l : List Resolver} (hanc : ∀ a ∈ l, a.ancestors = [])
    (h : ∀ a ∈ l, a.hasSchemas → n ≠ a.ns) (disk : Disk) : disk.SameAt n (persistAll l disk) := by
  induction l generalizing disk with
  | nil => exact ⟨rfl, fun _ => rfl⟩
  | cons a l ih =>
    rw [persistAll]
    have hhead := sameAt_persist (hanc a (List.mem_cons_self ..)) (h a (List.mem_cons_self ..)) disk
    exact hhead.trans (ih (fun b hb => hanc b (List.mem_cons_of_mem _ hb))
      (fun b hb => h b (List.mem_cons_of_mem _ hb)) _)

theorem has_persistAll {l : List Resolver} (hanc : ∀ a ∈ l, a.ancestors = []) (hnd : (l.map (·.ns)).Nodup)
    (ha : a ∈ l) (hbuilt : a.Built env snap) (hschemas : a.hasSchemas) (disk : Disk) :
    (persistAll l disk).Has a.ns a.recordedChain snap := by
  induction l generalizing disk with
  | nil => cases ha
  | cons b l ih =>
    rw [persistAll]
    rw [List.map_cons, List.nodup_cons] at hnd
    have hanc' : ∀ c ∈ l, c.ancestors = [] := fun c hc => hanc c (List.mem_cons_of_mem _ hc)
    rcases List.mem_cons.mp ha with rfl | ha
    · rw [persist_of_hasSchemas hbuilt.snapshot hschemas, hanc a (List.mem_cons_self ..), persistAll]
      refine (hbuilt.write disk _).of_sameAt (sameAt_persistAll hanc' ?_ _)
      intro c hc _ heq
      exact hnd.1 (heq ▸ List.mem_map_of_mem hc)
    · exact ih hanc' hnd.2 ha _

/-! ## The order of the ancestors -/

/-- A lookup that goes through the tiers one after the other. -/
def filesThrough (tiers : List Aggregate) (base : FilesChain) : FilesChain :=
  tiers.foldr (fun tier => .node tier.nsFiles) base

def typesThrough (tiers : List Aggregate) (base : TypesChain) : TypesChain :=
  tiers.foldr (fun tier => .node tier.nsTypes) base

/-- The last of the resolvers falls back to the others, the one before it first. -/
structure Stacked (cfg : Config) (l : List Resolver) : Prop where
  files : l.getLast?.elim cfg.parentFiles (·.files) =
    filesThrough (l.reverse.map (·.toAggregate)) cfg.parentFiles
  types : l.getLast?.elim cfg.parentTypes (·.types) =
    typesThrough (l.reverse.map (·.toAggregate)) cfg.parentTypes

theorem Stacked.concat {l : List Resolver} (h : Stacked cfg l) (ha : a.Over cfg l.getLast?) :
    Stacked cfg (l ++ [a]) := by
  constructor <;> rw [List.getLast?_concat, List.reverse_concat, Option.elim_some]
  · rw [Resolver.files, ha.parentFiles, h.files]
    rfl
  · rw [Resolver.types, ha.parentTypes, h.types]
    rfl

structure Ancestors (env : External) (cfg : Config) (l : List Resolver) : Prop where
  stacked : Stacked cfg l
  parents : ∀ a ∈ l, ∃ parent, a.Over cfg parent
  built : ∀ a ∈ l, ∃ snap, a.Built env snap

theorem ancestors_of_loadAncestors (hids : server.ValidIDs) {l : List String}
    (h : l.foldlM (loadAncestor env server cfg) [] = .ok ancestors) : Ancestors env cfg ancestors := by
  refine ⟨foldlM_inv (J := fun _ => Stacked cfg) ⟨rfl, rfl⟩ ?_ h, fun a ha => ?_, fun a ha => ?_⟩
  · intro _ ns anc anc' _ hanc hstep
    obtain ⟨a, ha, rfl⟩ := loadAncestor_eq_ok hstep
    exact hanc.concat (built_of_newSingleNamespace hids ha).2.1
  all_goals
    obtain ⟨_, _, hnew⟩ := mem_loadAncestors h a ha
    obtain ⟨_, hover, hbuilt⟩ := built_of_newSingleNamespace hids hnew
  · exact ⟨_, hover⟩
  · exact hbuilt

theorem loadCachedAncestors_eq_ok {disk : Disk} {l : List Resolver} (hlaw : env.Lawful)
    (h : ∀ a ∈ l, a.cfg.schemas = cfg.schemas ∧ ∃ snap chain, a.Built env snap ∧ disk.Has a.ns chain snap) :
    ∃ l', (l.map (·.ns)).foldlM (loadCachedAncestor env disk cfg) [] = .ok l' ∧
      l'.map (·.toAggregate) = l.map (·.toAggregate) ∧ Stacked cfg l' := by
  rw [List.foldlM_map]
  refine foldlM_total (J := fun (done l' : List Resolver) =>
    l'.map (·.toAggregate) = done.map (·.toAggregate) ∧ Stacked cfg l') ⟨rfl, rfl, rfl⟩ ?_
  intro done a rest l' hl ⟨haggs, hstacked⟩
  obtain ⟨hschemas, snap, chain, hbuilt, hdisk⟩ := h a (hl ▸ List.mem_append_right _ (List.mem_cons_self ..))
  obtain ⟨a', hload, hreload, hover⟩ := hbuilt.reload hlaw hdisk hschemas.symm l'.getLast?
  refine ⟨l' ++ [a'], ?_, ?_, hstacked.concat hover⟩
  · rw [loadCachedAncestor, hload]
    rfl
  · rw [List.map_append, List.map_append, haggs, List.map_singleton, List.map_singleton, hreload.aggregate]

theorem isSome_of_loadCachedAncestors {disk : Disk} {l : List String}
    (h : l.foldlM (loadCachedAncestor env disk cfg) [] = .ok l') : ∀ n ∈ l, (disk.manifests.get n).isSome := by
  refine foldlM_inv (J := fun done _ => ∀ n ∈ done, (disk.manifests.get n).isSome) (fun n hn => (by cases hn)) ?_ h
  intro done ns anc anc' _ hdone hstep n hn
  rcases List.mem_append.mp hn with hn | hn
  · exact hdone n hn
  · cases List.mem_singleton.mp hn
    obtain ⟨a, ha, _⟩ := except_bind_eq_ok.mp hstep
    obtain ⟨man, hman, _⟩ := except_bind_eq_ok.mp (mapError_eq_ok.mp ha)
    cases hget : disk.manifests.get ns with
    | none => simp [readManifest, hget] at hman
    | some man => rfl

def Config.forAncestors (cfg : Config) : Config := { cfg with schemas := [], useServerChain := false }

/-- A resolver made with the server's chain. Its lookups go to the nearest ancestor first. -/
structure Resolver.Live (env : External) (cfg : Config) (r : Resolver) (snap : NsSnapshot) : Prop where
  built : r.Built env snap
  schemas : r.cfg.schemas = cfg.schemas
  ancestors : Ancestors env cfg.forAncestors r.ancestors
  parentFiles : r.cfg.parentFiles = filesThrough (r.ancestors.reverse.map (·.toAggregate)) cfg.parentFiles
  parentTypes : r.cfg.parentTypes = typesThrough (r.ancestors.reverse.map (·.toAggregate)) cfg.parentTypes
  distinct : (r.ns :: r.ancestors.map (·.ns)).Nodup

theorem live_of_new {cfg : Config} {chain : List String} (hids : server.ValidIDs) (hcfg : cfg.useServerChain)
    (hchain : server.getNamespaceChain ns = .ok chain) (hnd : chain.Nodup)
    (hnew : Client.new env server ns cfg = .ok r) : r.ns = ns ∧ ∃ snap, r.Live env cfg snap := by
  obtain ⟨tail, ancestors, main, rfl, hanc, hmain, rfl⟩ := new_eq_ok_of_chain hcfg hchain hnew
  obtain ⟨rfl, hover, snap, hbuilt⟩ := built_of_newSingleNamespace hids hmain
  have hancestors := ancestors_of_loadAncestors hids hanc
  refine ⟨rfl, snap, ⟨⟨hbuilt.snapshot, hbuilt.consistent, hbuilt.nameIndex, hbuilt.aggregate, hbuilt.compiled,
    hbuilt.tracked, hbuilt.named⟩, hover.schemas, hancestors, ?_, ?_, ?_⟩⟩
  · exact hover.parentFiles.trans hancestors.stacked.files
  · exact hover.parentTypes.trans hancestors.stacked.types
  · rw [map_ns_of_loadAncestors hanc, List.nodup_cons, List.mem_reverse, List.nodup_reverse]
    exact List.nodup_cons.mp hnd

namespace Resolver.Live

variable {cfg : Config} (h : r.Live env cfg snap)
include h

theorem leaf (ha : a ∈ r.ancestors) : a.ancestors = [] := by
  obtain ⟨_, hover⟩ := h.ancestors.parents a ha
  exact hover.ancestors

theorem has_persist (hr : r.hasSchemas) : (r.persist {}).Has r.ns r.recordedChain snap := by
  rw [persist_of_hasSchemas h.built.snapshot hr]
  refine (h.built.write {} _).of_sameAt (sameAt_persistAll (fun a ha => h.leaf ha) ?_ _)
  intro a ha _ heq
  exact (List.nodup_cons.mp h.distinct).1 (heq ▸ List.mem_map_of_mem ha)

/-- A chain of namespaces with schemas is loaded again, with its ancestors the other way round. -/
theorem load (hlaw : env.Lawful) (hcfg : cfg.useServerChain) (hschemas : ∀ a ∈ r :: r.ancestors, a.hasSchemas) :
    ∃ stale, loadFromCache env (r.persist {}) r.ns cfg = .ok stale ∧ r.Reloaded stale ∧
      stale.cfg.parentFiles = filesThrough (r.ancestors.map (·.toAggregate)) cfg.parentFiles ∧
      stale.cfg.parentTypes = typesThrough (r.ancestors.map (·.toAggregate)) cfg.parentTypes := by
  have hr := hschemas r (List.mem_cons_self ..)
  have hmain := h.has_persist hr
  have hup : ∀ a ∈ r.ancestors.reverse, a.cfg.schemas = cfg.forAncestors.schemas ∧
      ∃ snap chain, a.Built env snap ∧ (r.persist {}).Has a.ns chain snap := by
    intro a ha
    rw [List.mem_reverse] at ha
    obtain ⟨_, hover⟩ := h.ancestors.parents a ha
    obtain ⟨snap', hbuilt⟩ := h.ancestors.built a ha
    refine ⟨hover.schemas, snap', a.recordedChain, hbuilt, ?_⟩
    rw [persist_of_hasSchemas h.built.snapshot hr]
    exact has_persistAll (fun b hb => h.leaf hb) (List.nodup_cons.mp h.distinct).2 ha hbuilt
      (hschemas a (List.mem_cons_of_mem _ ha)) _
  obtain ⟨l', hfold, haggs, hstacked⟩ := loadCachedAncestors_eq_ok hlaw hup
  obtain ⟨main, hload, hreload, hover⟩ := h.built.reload hlaw hmain h.schemas.symm l'.getLast?
  have hfiles : main.cfg.parentFiles = filesThrough (r.ancestors.map (·.toAggregate)) cfg.parentFiles := by
    have hrev := hstacked.files
    rw [List.map_reverse, haggs, List.map_reverse, List.reverse_reverse] at hrev
    exact hover.parentFiles.trans hrev
  have htypes : main.cfg.parentTypes = typesThrough (r.ancestors.map (·.toAggregate)) cfg.parentTypes := by
    have hrev := hstacked.types
    rw [List.map_reverse, haggs, List.map_reverse, List.reverse_reverse] at hrev
    exact hover.parentTypes.trans hrev
  by_cases hanc : r.ancestors = []
  · refine ⟨main, ?_, hreload, hfiles, htypes⟩
    rw [hanc] at hfold
    cases hfold
    refine except_bind_eq_ok.mpr ⟨_, readManifest_eq_ok hmain, ?_⟩
    rw [if_pos]
    · exact hload
    · simp [cacheManifest, recordedChain, hanc]
  · refine ⟨{ main with ancestors := l' }, ?_, ⟨hreload.aggregate, hreload.schemaFor⟩, hfiles, htypes⟩
    refine except_bind_eq_ok.mpr ⟨_, readManifest_eq_ok hmain, ?_⟩
    rw [if_neg]
    · refine except_bind_eq_ok.mpr ⟨l', ?_, except_bind_eq_ok.mpr ⟨main, hload, rfl⟩⟩
      rw [cacheManifest, recordedChain_tail]
      exact hfold
    · simp [cacheManifest, recordedChain, hanc, hcfg]

/-- A namespace without schemas is not written, and cannot be loaded. -/
theorem hasSchemas_of_load (hcfg : cfg.useServerChain)
    (hload : loadFromCache env (r.persist {}) r.ns cfg = .ok stale) : ∀ a ∈ r :: r.ancestors, a.hasSchemas := by
  obtain ⟨man, hman, hload⟩ := except_bind_eq_ok.mp hload
  have hr : r.hasSchemas := by
    by_contra hr
    rw [persist_of_not_hasSchemas hr] at hman
    cases hman
  intro a ha
  rcases List.mem_cons.mp ha with rfl | ha
  · exact hr
  by_contra hempty
  have hne : r.ancestors ≠ [] := List.ne_nil_of_mem ha
  rw [readManifest_eq_ok (h.has_persist hr)] at hman
  cases hman
  rw [if_neg (by simp [cacheManifest, recordedChain, hne, hcfg])] at hload
  obtain ⟨l', hfold, _⟩ := except_bind_eq_ok.mp hload
  have hmem : a.ns ∈ (cacheManifest r.ns r.recordedChain snap).serverChain.tail.reverse := by
    rw [cacheManifest, recordedChain_tail]
    exact List.mem_map_of_mem (List.mem_reverse.mpr ha)
  have hsome := isSome_of_loadCachedAncestors hfold _ hmem
  have hnd := List.nodup_cons.mp h.distinct
  have hsame := sameAt_persistAll (fun b hb => h.leaf hb) (n := a.ns) (l := r.ancestors) ?_
    (Disk.write {} r.ns r.recordedChain snap)
  · rw [persist_of_hasSchemas h.built.snapshot hr, hsame.manifests, manifests_write, if_neg] at hsome
    · cases hsome
    · intro heq
      exact hnd.1 (heq ▸ List.mem_map_of_mem ha)
  · intro b hb hbs heq
    rw [List.inj_on_of_nodup_map hnd.2 ha hb heq] at hempty
    exact hempty hbs

end Resolver.Live

/-! ## Answers -/

inductive Query where
  | message (name : FullName)
  | extension (name : FullName)
  | extensionNumber (message : FullName) (field : Nat)
  | file (path : String)
  | descriptor (name : FullName)

inductive Found where
  | message (m : MessageDescriptor)
  | extension (x : FieldDescriptor)
  | file (f : FileDescriptor)
  | descriptor (d : Descriptor)

def Resolver.answer (r : Resolver) : Query → Except LookupErr Found
  | .message name => (r.findMessageByName name).map .message
  | .extension name => (r.findExtensionByName name).map .extension
  | .extensionNumber message field => (r.findExtensionByNumber message field).map .extension
  | .file path => (r.findFileByPath path).map .file
  | .descriptor name => (r.findDescriptorByName name).map .descriptor

/-- The registries that are asked first: those of the schema that owns the name, if there is one. -/
def Resolver.asked (r : Resolver) : Query → Aggregate
  | .message name | .extension name | .descriptor name =>
    match r.snapshot.bind (·.schemaFor name) with
    | some ss => ⟨ss.files, ss.types⟩
    | none => r.toAggregate
  | .extensionNumber .. | .file _ => r.toAggregate

/-- What a lookup answers without going on to the parent. -/
def Aggregate.own (agg : Aggregate) : Query → Option (Except LookupErr Found)
  | .message name => (agg.nsTypes.typesByName.get name).map fun
    | .message m => .ok (.message m)
    | t => .error (.wrongType t.kind .message)
  | .extension name => (agg.nsTypes.typesByName.get name).map fun
    | .extension x => .ok (.extension x)
    | t => .error (.wrongType t.kind .extension)
  | .extensionNumber message field => (agg.nsTypes.extensionAt message field).map (.ok <| .extension ·)
  | .file path => (agg.nsFiles.fileAt path).map (.ok <| .file ·)
  | .descriptor name =>
    match agg.nsFiles.findDescriptorByNameLocal name with
    | .error .notFound => none
    | res => some (res.map .descriptor)

/-- What the registries a resolver points to answer. -/
def lookup (files : FilesChain) (types : TypesChain) : Query → Except LookupErr Found
  | .message name => (types.findMessageByName name).map .message
  | .extension name => (types.findExtensionByName name).map .extension
  | .extensionNumber message field => (types.findExtensionByNumber message field).map .extension
  | .file path => (files.findFileByPath path).map .file
  | .descriptor name => (files.findDescriptorByName name).map .descriptor

theorem lookup_node (agg : Aggregate) (files : FilesChain) (types : TypesChain) (q : Query) :
    lookup (.node agg.nsFiles files) (.node agg.nsTypes types) q = (agg.own q).getD (lookup files types q) := by
  cases q with
  | message name =>
    rw [lookup, findMessageByName_node, Aggregate.own]
    rcases agg.nsTypes.typesByName.get name with _ | (_ | _ | _) <;> rfl
  | extension name =>
    rw [lookup, Aggregate.own, TypesChain.findExtensionByName, TypesChain.findByName, TypesChain.typeByName]
    rcases agg.nsTypes.typesByName.get name with _ | (_ | _ | _) <;> rfl
  | extensionNumber message field =>
    rw [lookup, Aggregate.own, TypesChain.findExtensionByNumber]
    cases agg.nsTypes.extensionAt message field <;> rfl
  | file path =>
    rw [lookup, findFileByPath_node, Aggregate.own]
    cases agg.nsFiles.fileAt path <;> rfl
  | descriptor name =>
    rw [lookup, FilesChain.findDescriptorByName, Aggregate.own]
    rcases agg.nsFiles.findDescriptorByNameLocal name with (_ | _ | _) | _ <;> rfl

theorem lookup_through (tiers : List Aggregate) (files : FilesChain) (types : TypesChain) (q : Query) :
    lookup (filesThrough tiers files) (typesThrough tiers types) q =
      (tiers.findSome? (·.own q)).getD (lookup files types q) := by
  induction tiers with
  | nil => rfl
  | cons tier tiers ih =>
    change lookup (.node tier.nsFiles (filesThrough tiers files)) (.node tier.nsTypes (typesThrough tiers types)) q = _
    rw [lookup_node, ih, List.findSome?_cons]
    cases tier.own q <;> rfl

theorem answer_eq (r : Resolver) (q : Query) :
    r.answer q = ((r.asked q).own q).getD (lookup r.cfg.parentFiles r.cfg.parentTypes q) := by
  rw [← lookup_node]
  cases q with
  | message name =>
    rw [Resolver.answer, Resolver.findMessageByName, Resolver.asked]
    cases r.snapshot.bind (·.schemaFor name) <;> rfl
  | extension name =>
    rw [Resolver.answer, Resolver.findExtensionByName, Resolver.asked]
    cases r.snapshot.bind (·.schemaFor name) <;> rfl
  | descriptor name =>
    rw [Resolver.answer, Resolver.findDescriptorByName, Resolver.asked]
    cases r.snapshot.bind (·.schemaFor name) <;> rfl
  | extensionNumber message field => rfl
  | file path => rfl

theorem Resolver.Reloaded.asked {r r' : Resolver} (h : r.Reloaded r') (q : Query) : r'.asked q = r.asked q := by
  cases q <;> simp only [Resolver.asked, h.schemaFor, h.aggregate]

theorem findSome_reverse_eq_none {f : α → Option β} {l : List α} (h : l.findSome? f = none) :
    l.reverse.findSome? f = none := by
  rw [List.findSome?_eq_none_iff] at h ⊢
  exact fun a ha => h a (List.mem_reverse.mp ha)

/-- A resolver with the server's chain is loaded again from what it wrote, with the same answers, exactly when
every namespace of the chain has a schema and, for what the namespace has no entry of its own, the nearest
and the furthest ancestor with an entry agree. -/
theorem loadFromCache_answers_iff {cfg : Config} {chain : List String} (hlaw : env.Lawful) (hids : server.ValidIDs)
    (hcfg : cfg.useServerChain) (hchain : server.getNamespaceChain ns = .ok chain) (hnd : chain.Nodup)
    (hnew : Client.new env server ns cfg = .ok r) :
    (∃ stale, loadFromCache env (r.persist {}) ns cfg = .ok stale ∧ ∀ q, stale.answer q = r.answer q) ↔
      (∀ a ∈ r :: r.ancestors, a.hasSchemas) ∧ ∀ q, (r.asked q).own q = none →
        (r.ancestors.map (·.toAggregate)).findSome? (·.own q) =
          (r.ancestors.map (·.toAggregate)).reverse.findSome? (·.own q) := by
  obtain ⟨rfl, snap, hlive⟩ := live_of_new hids hcfg hchain hnd hnew
  -- the two resolvers differ in the order of their ancestors only
  have hanswers : ∀ {stale : Resolver}, r.Reloaded stale →
      stale.cfg.parentFiles = filesThrough (r.ancestors.map (·.toAggregate)) cfg.parentFiles →
      stale.cfg.parentTypes = typesThrough (r.ancestors.map (·.toAggregate)) cfg.parentTypes →
      ∀ q, stale.answer q = r.answer q ↔ ((r.asked q).own q = none →
        (r.ancestors.map (·.toAggregate)).findSome? (·.own q) =
          (r.ancestors.map (·.toAggregate)).reverse.findSome? (·.own q)) := by
    intro stale hreload hfiles htypes q
    rw [answer_eq, answer_eq, hreload.asked, hfiles, htypes, hlive.parentFiles, hlive.parentTypes, List.map_reverse,
      lookup_through, lookup_through]
    cases (r.asked q).own q with
    | some a => simp
    | none =>
      simp only [Option.getD_none, forall_const]
      cases hnear : (r.ancestors.map (·.toAggregate)).findSome? (·.own q) with
      | none => simp [findSome_reverse_eq_none hnear]
      | some a =>
        cases hfar : (r.ancestors.map (·.toAggregate)).reverse.findSome? (·.own q) with
        | none =>
          have := findSome_reverse_eq_none hfar
          rw [List.reverse_reverse, hnear] at this
          cases this
        | some b => simp
  constructor
  · intro ⟨stale, hload, hsame⟩
    have hschemas := hlive.hasSchemas_of_load hcfg hload
    obtain ⟨stale', hload', hreload, hfiles, htypes⟩ := hlive.load hlaw hcfg hschemas
    rw [hload] at hload'
    cases hload'
    exact ⟨hschemas, fun q => (hanswers hreload hfiles htypes q).mp (hsame q)⟩
  · intro ⟨hschemas, horder⟩
    obtain ⟨stale, hload, hreload, hfiles, htypes⟩ := hlive.load hlaw hcfg hschemas
    exact ⟨stale, hload, fun q => (hanswers hreload hfiles htypes q).mpr (horder q)⟩

theorem validIDs_layered (chain : List String) : (Sample.server chain Sample.layered).ValidIDs := by
  intro ns info hinfo
  have hid : info.schemaID = "s" := by
    by_cases ha : ns = "a"
    · simp_all [Sample.server, Sample.layered]
    · by_cases hb : ns = "b" <;> simp_all [Sample.server, Sample.layered]
  rw [hid]
  decide

theorem loadFromCache_answers_two_namespaces : ∃ r stale,
    Client.new Sample.env (Sample.server ["a", "b"] Sample.layered) "a" { useServerChain := true } = .ok r ∧
    loadFromCache Sample.env (r.persist {}) "a" { useServerChain := true } = .ok stale ∧
    ∀ q, stale.answer q = r.answer q := by
  have hrun : (Client.new Sample.env (Sample.server ["a", "b"] Sample.layered) "a"
      { useServerChain := true }).toOption.any fun r =>
        r.ancestors.length = 1 ∧ ∀ a ∈ r :: r.ancestors, a.hasSchemas := by decide +kernel
  obtain ⟨r, hr, hcond⟩ := exists_of_any hrun
  obtain ⟨hone, hschemas⟩ := of_decide_eq_true hcond
  obtain ⟨a, ha⟩ := List.length_eq_one_iff.mp hone
  have hiff := loadFromCache_answers_iff Sample.lawful_env (validIDs_layered ["a", "b"]) rfl rfl (by decide) hr
  obtain ⟨stale, hload, hsame⟩ := hiff.mpr ⟨hschemas, fun q _ => by rw [ha]; rfl⟩
  exact ⟨r, stale, hr, hload, hsame⟩

/-- A file that two ancestors have is the nearest one's at first, and the root's when it is loaded again. -/
theorem stale_file_of_root : ∃ r stale,
    Client.new Sample.env (Sample.server ["a", "b", "c"] Sample.layered) "a" { useServerChain := true } = .ok r ∧
    loadFromCache Sample.env (r.persist {}) "a" { useServerChain := true } = .ok stale ∧
    (r.findFileByPath "m.proto").toOption.map (·.messages.map (·.fullName)) = some [["M1"]] ∧
    (stale.findFileByPath "m.proto").toOption.map (·.messages.map (·.fullName)) = some [["M2"]] := by
  have hrun : (Client.new Sample.env (Sample.server ["a", "b", "c"] Sample.layered) "a"
      { useServerChain := true }).toOption.any fun r =>
        (loadFromCache Sample.env (r.persist {}) "a" { useServerChain := true }).toOption.any fun stale =>
          (r.findFileByPath "m.proto").toOption.map (·.messages.map (·.fullName)) = some [["M1"]] ∧
          (stale.findFileByPath "m.proto").toOption.map (·.messages.map (·.fullName)) = some [["M2"]] := by
    decide +kernel
  obtain ⟨r, hr, hrest⟩ := exists_of_any hrun
  obtain ⟨stale, hstale, hfiles⟩ := exists_of_any hrest
  exact ⟨r, stale, hr, hstale, of_decide_eq_true hfiles⟩

end ProtoRegistry.Client
