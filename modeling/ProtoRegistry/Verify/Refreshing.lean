import ProtoRegistry.Verify.Aggregates
import ProtoRegistry.Verify.Collisions

/-!
# Refreshing a resolver

`Refresh` changes the registries of a namespace by the difference to the sets the server has now. While
the files of all tracked schemas can be registered together, the outcome is the same as that of a new
resolver, and nothing is left half done.
-/

namespace ProtoRegistry.Client

/-! ## The sets to be tracked -/

def Server.setOf (server : Server) (ns sc : String) (v : Nat) : Option (List FileDescriptor) :=
  (server.getDescriptor ns sc v).toOption.map (·.2)

/-- The files of the current versions of all schemas that a resolver with this configuration tracks. -/
def Server.currentFiles (server : Server) (cfg : Config) (ns : String) : List FileDescriptor :=
  ((server.listSchemas ns).pages.flatten.filter fun info => cfg.tracksSchema info.schemaID).flatMap
    fun info => (info.currentVersion.bind (server.setOf ns info.schemaID)).getD []

/-- The set of a version: the one the resolver has, or what the server answers. -/
def Resolver.setOf (r : Resolver) (server : Server) (sc : String) (v : Nat) : Option (List FileDescriptor) :=
  match r.snapshot.bind (·.schemas.get sc) with
  | some ss => if ss.version = v then some ss.rawDescriptorSet else server.setOf r.ns sc v
  | none => server.setOf r.ns sc v

/-- The same files, where a version that was loaded before is not fetched again. -/
def Resolver.tracked (r : Resolver) (server : Server) : List FileDescriptor :=
  ((server.listSchemas r.ns).pages.flatten.filter fun info => r.cfg.tracksSchema info.schemaID).flatMap
    fun info => (info.currentVersion.bind (r.setOf server info.schemaID)).getD []

/-! ## The plan -/

/-- What is decided about a schema. -/
inductive Outcome where
  | kept (ss : SchemaSnapshot)
  | replaced (old fresh : SchemaSnapshot)
  | added (fresh : SchemaSnapshot)

namespace Outcome

def next : Outcome → SchemaSnapshot
  | kept ss => ss
  | replaced _ fresh => fresh
  | added fresh => fresh

def old : Outcome → Option SchemaSnapshot
  | kept ss => some ss
  | replaced old _ => some old
  | added _ => none

def kept? : Outcome → Option SchemaSnapshot
  | kept ss => some ss
  | _ => none

def replaced? : Outcome → Option (SchemaSnapshot × SchemaSnapshot)
  | replaced old fresh => some (old, fresh)
  | _ => none

def added? : Outcome → Option SchemaSnapshot
  | added fresh => some fresh
  | _ => none

theorem perm_next (os : List Outcome) : (os.map next).Perm
    ((os.filterMap added? ++ (os.filterMap replaced?).map (·.2)) ++ os.filterMap kept?) := by
  induction os with
  | nil => exact .refl _
  | cons o os ih =>
    cases o with
    | added fresh => exact ih.cons fresh
    | replaced old fresh =>
      have hmiddle := (ih.cons fresh).trans (List.perm_middle.symm.append_right _)
      exact hmiddle
    | kept ss => exact (ih.cons ss).trans List.perm_middle.symm

theorem perm_old (os : List Outcome) : (os.filterMap old).Perm
    ((os.filterMap replaced?).map (·.1) ++ os.filterMap kept?) := by
  induction os with
  | nil => exact .refl _
  | cons o os ih =>
    cases o with
    | added fresh => exact ih
    | replaced old fresh => exact ih.cons old
    | kept ss => exact (ih.cons ss).trans List.perm_middle.symm

end Outcome

def SchemaSnapshot.FromSet (env : External) (ss : SchemaSnapshot) : Prop :=
  ∃ files, env.newFiles ss.rawDescriptorSet = .ok files ∧ ss.Compiled files

theorem SchemaSnapshot.FromSet.compiled {ss : SchemaSnapshot} (h : ss.FromSet env) :
    ss.Compiled ss.files.rangeFiles := by
  obtain ⟨files, _, hcompiled⟩ := h
  rwa [hcompiled.stores.rangeFiles]

theorem SchemaSnapshot.FromSet.perm {ss : SchemaSnapshot} (hlaw : env.Lawful) (h : ss.FromSet env) :
    ss.files.rangeFiles.Perm ss.rawDescriptorSet := by
  obtain ⟨files, hfiles, hcompiled⟩ := h
  rw [hcompiled.stores.rangeFiles]
  exact hlaw.newFiles_perm hfiles

/-- The outcome for a schema that is listed. -/
structure Outcome.For (env : External) (server : Server) (r : Resolver) (info : SchemaInfo) (o : Outcome) :
    Prop where
  schemaID : o.next.schemaID = info.schemaID
  old : o.old = r.snapshot.bind (·.schemas.get info.schemaID)
  fromSet : o.next.FromSet env
  set : info.currentVersion.bind (r.setOf server info.schemaID) = some o.next.rawDescriptorSet

structure RefreshPlan.Made (plan : RefreshPlan) (os : List Outcome) : Prop where
  added : plan.added = os.filterMap (·.added?)
  replaced : plan.replaced = os.filterMap (·.replaced?)
  next : plan.next.schemas.toList = os.map fun o => (o.next.schemaID, o.next)
  nameIndex : plan.next.nameIndex = .empty

variable {env : External} {server : Server} {r r' : Resolver} {infos : List SchemaInfo}

theorem fetchSchema_spec (h : fetchSchema env server r sc v = .ok ss) :
    ss.schemaID = sc ∧ ss.FromSet env ∧ server.setOf r.ns sc v = some ss.rawDescriptorSet := by
  obtain ⟨v', fdset, hget, hcompile⟩ := fetchSchema_eq_ok h
  obtain ⟨files, hfiles, hcompiled, hid, _, hraw⟩ := compileSchema_eq_ok hcompile
  refine ⟨hid, ⟨files, hraw ▸ hfiles, hcompiled⟩, ?_⟩
  rw [Server.setOf, hget, hraw]
  rfl

theorem RefreshPlan.Made.concat {plan : RefreshPlan} (h : plan.Made os) {o : Outcome} {sc : String}
    (hid : o.next.schemaID = sc) (hnew : sc ∉ plan.next.schemas.keys) :
    (RefreshPlan.mk (plan.next.put sc o.next) (plan.added ++ o.added?.toList)
      (plan.replaced ++ o.replaced?.toList)).Made (os ++ [o]) := by
  refine ⟨?_, ?_, ?_, h.nameIndex⟩
  · rw [h.added, List.filterMap_append]
    cases o <;> rfl
  · rw [h.replaced, List.filterMap_append]
    cases o <;> rfl
  · change (plan.next.schemas.set sc o.next).toList = _
    rw [Dict.toList_set _ _ hnew, h.next, List.map_append, ← hid]
    rfl

/-- The schemas a listing has a version for. -/
def versioned (infos : List SchemaInfo) : List SchemaInfo := infos.filter (·.currentVersion.isSome)

theorem versioned_concat (infos : List SchemaInfo) (info : SchemaInfo) :
    versioned (infos ++ [info]) = versioned infos ++ if info.currentVersion.isSome then [info] else [] := by
  rw [versioned, List.filter_append, versioned, List.filter_singleton]
  cases info.currentVersion.isSome <;> rfl

theorem forall₂_exists {R : α → β → Prop} {l : List α} {l' : List β} (h : List.Forall₂ R l l') (hb : b ∈ l') :
    ∃ a ∈ l, R a b := by
  induction h with
  | nil => cases hb
  | cons hab _ ih =>
    rcases List.mem_cons.mp hb with rfl | hb
    · exact ⟨_, List.mem_cons_self .., hab⟩
    · obtain ⟨a, ha, hR⟩ := ih hb
      exact ⟨a, List.mem_cons_of_mem _ ha, hR⟩

section
variable (hsound : ∀ cur, r.snapshot = some cur → cur.Sound env)
include hsound

theorem planSchema_eq_ok {info : SchemaInfo} {plan plan' : RefreshPlan} (h : plan.Made os)
    (hnew : info.schemaID ∉ plan.next.schemas.keys) (hv : info.currentVersion.isSome)
    (hstep : planSchema env server r plan info = .ok plan') :
    ∃ o, Outcome.For env server r info o ∧ plan'.Made (os ++ [o]) := by
  obtain ⟨sc, _ | v⟩ := info
  · cases hv
  simp only [planSchema] at hstep
  have hfresh : ∀ {fresh}, fetchForRefresh env server r sc v = .ok fresh →
      fresh.schemaID = sc ∧ fresh.FromSet env ∧ server.setOf r.ns sc v = some fresh.rawDescriptorSet :=
    fun hfetch => fetchSchema_spec (mapError_eq_ok.mp hfetch)
  split at hstep
  · next existing hexisting =>
    obtain ⟨cur, hcur, hget⟩ := Option.bind_eq_some_iff.mp hexisting
    split at hstep
    · next hversion =>
      cases hstep
      obtain ⟨hid, hfrom⟩ := hsound cur hcur sc existing hget
      refine ⟨.kept existing, ⟨hid, hexisting.symm, hfrom, ?_⟩, ?_⟩
      · simp only [Option.bind_some, Resolver.setOf, hexisting, if_pos hversion]
        rfl
      · have hmade := h.concat (o := .kept existing) hid hnew
        simpa [Outcome.next, Outcome.added?, Outcome.replaced?] using hmade
    · next hversion =>
      obtain ⟨fresh, hfetch, hput⟩ := except_bind_eq_ok.mp hstep
      cases hput
      obtain ⟨hid, hfrom, hset⟩ := hfresh hfetch
      refine ⟨.replaced existing fresh, ⟨hid, hexisting.symm, hfrom, ?_⟩, ?_⟩
      · simp only [Option.bind_some, Resolver.setOf, hexisting, if_neg hversion]
        exact hset
      · have hmade := h.concat (o := .replaced existing fresh) hid hnew
        simpa [Outcome.next, Outcome.added?, Outcome.replaced?] using hmade
  · next hexisting =>
    obtain ⟨fresh, hfetch, hput⟩ := except_bind_eq_ok.mp hstep
    cases hput
    obtain ⟨hid, hfrom, hset⟩ := hfresh hfetch
    refine ⟨.added fresh, ⟨hid, hexisting.symm, hfrom, ?_⟩, ?_⟩
    · simp only [Option.bind_some, Resolver.setOf, hexisting]
      exact hset
    · have hmade := h.concat (o := .added fresh) hid hnew
      simpa [Outcome.next, Outcome.added?, Outcome.replaced?] using hmade

theorem plan_spec {plan : RefreshPlan} (honce : (infos.map (·.schemaID)).Nodup)
    (h : infos.foldlM (planSchema env server r) ⟨.new, [], []⟩ = .ok plan) :
    ∃ os, plan.Made os ∧ List.Forall₂ (Outcome.For env server r) (versioned infos) os := by
  let J (done : List SchemaInfo) (plan : RefreshPlan) : Prop :=
    ∃ os, plan.Made os ∧ List.Forall₂ (Outcome.For env server r) (versioned done) os
  refine foldlM_split (J := J) ⟨[], ⟨rfl, rfl, rfl, rfl⟩, .nil⟩ ?_ h
  intro done info rest plan plan' hl ⟨os, hmade, hos⟩ hstep
  cases hv : info.currentVersion with
  | none =>
    simp only [planSchema, hv] at hstep
    cases hstep
    refine ⟨os, hmade, ?_⟩
    rwa [versioned_concat, hv, Option.isSome_none, if_neg Bool.false_ne_true, List.append_nil]
  | some v =>
    have hnew : info.schemaID ∉ plan.next.schemas.keys := by
      rw [← Dict.keys_toList, hmade.next, List.map_map]
      intro hmem
      obtain ⟨o, ho, hid⟩ := List.mem_map.mp hmem
      obtain ⟨info', hinfo', hfor⟩ := forall₂_exists hos ho
      rw [hl, List.map_append, List.map_cons] at honce
      refine (List.nodup_append.mp honce).2.2 info.schemaID (List.mem_map.mpr ⟨info', ?_, ?_⟩) _
        (List.mem_cons_self ..) rfl
      · exact List.mem_of_mem_filter hinfo'
      · exact hfor.schemaID.symm.trans hid
    have hsome : info.currentVersion.isSome := by rw [hv]; rfl
    obtain ⟨o, hfor, hmade'⟩ := planSchema_eq_ok hsound hmade hnew hsome hstep
    refine ⟨os ++ [o], hmade', ?_⟩
    rw [versioned_concat, if_pos hsome]
    exact List.rel_append hos (.cons hfor .nil)

end

theorem flatMap_perm_of_forall₂ {f : α → List γ} {g : β → List γ} {l : List α} {l' : List β}
    {R : α → β → Prop} (h : List.Forall₂ R l l') (hR : ∀ a b, R a b → (f a).Perm (g b)) :
    (l.flatMap f).Perm (l'.flatMap g) := by
  induction h with
  | nil => exact .refl _
  | cons hab _ ih => exact (hR _ _ hab).append ih

theorem flatMap_versioned (f : SchemaInfo → List α) (hf : ∀ info, info.currentVersion = none → f info = []) :
    (versioned infos).flatMap f = infos.flatMap f := by
  induction infos with
  | nil => rfl
  | cons info infos ih =>
    rw [versioned] at ih ⊢
    cases hv : info.currentVersion with
    | none => rw [List.filter_cons_of_neg (by simp [hv]), ih, List.flatMap_cons, hf info hv, List.nil_append]
    | some v => rw [List.filter_cons_of_pos (by simp [hv]), List.flatMap_cons, ih, List.flatMap_cons]

/-- The schemas of a snapshot, without their IDs. -/
def NsSnapshot.schemaList (s : NsSnapshot) : List SchemaSnapshot := s.schemas.toList.map (·.2)

theorem NsSnapshot.files_perm (s : NsSnapshot) :
    s.files.Perm (s.schemaList.flatMap fun ss => ss.files.rangeFiles) := by
  rw [NsSnapshot.files, schemaList, List.flatMap_map]
  exact (List.perm_insertionSort _ _).flatMap_right _

theorem RefreshPlan.Made.schemaList {plan : RefreshPlan} (h : plan.Made os) :
    plan.next.schemaList = os.map Outcome.next := by
  rw [NsSnapshot.schemaList, h.next, List.map_map]
  rfl

theorem RefreshPlan.Made.files_perm {plan : RefreshPlan} (hlaw : env.Lawful) (h : plan.Made os)
    (hinfos : listAllSchemas server r = .ok infos)
    (hos : List.Forall₂ (Outcome.For env server r) (versioned infos) os) :
    plan.next.files.Perm (r.tracked server) := by
  apply plan.next.files_perm.trans
  rw [h.schemaList, List.flatMap_map, Resolver.tracked, ← listAllSchemas_eq_ok hinfos]
  rw [← flatMap_versioned _ fun info hinfo => by rw [hinfo]; rfl]
  refine (flatMap_perm_of_forall₂ hos fun info o hfor => ?_).symm
  rw [hfor.set]
  exact (hfor.fromSet.perm hlaw).symm

theorem RefreshPlan.Made.keys {plan : RefreshPlan} (h : plan.Made os)
    (hos : List.Forall₂ (Outcome.For env server r) (versioned infos) os) :
    plan.next.schemas.keys = (versioned infos).map (·.schemaID) := by
  rw [← Dict.keys_toList, h.next, List.map_map]
  clear h
  generalize versioned infos = listed at hos ⊢
  induction hos with
  | nil => rfl
  | cons hfor _ ih => rw [List.map_cons, ih, List.map_cons, ← hfor.schemaID]; rfl

theorem filterMap_old {cur : NsSnapshot} (hcur : r.snapshot = some cur)
    (hos : List.Forall₂ (Outcome.For env server r) infos os) :
    os.filterMap (·.old) = (infos.map (·.schemaID)).filterMap cur.schemas.get := by
  induction hos with
  | nil => rfl
  | cons hfor _ ih =>
    rw [List.map_cons, List.filterMap_cons, List.filterMap_cons, hfor.old, hcur, Option.bind_some, ih]

theorem removedBy_perm (hlaw : env.Lawful) (cur next : NsSnapshot) : (removedBy env.rangeKeys (some cur) next).Perm
    ((cur.schemas.toList.filter fun e => (next.schemas.get e.1).isNone).map (·.2)) := by
  refine ((hlaw.rangeKeys_perm cur.schemas.keys).filterMap _).trans (List.Perm.of_eq ?_)
  rw [Dict.toList, List.filter_filterMap, List.map_filterMap]
  refine List.filterMap_congr fun id _ => ?_
  cases cur.schemas.get id with
  | none => simp
  | some ss => cases hnext : (next.schemas.get id).isNone <;> simp [Option.filter, hnext]

/-- A schema of the current snapshot is removed, or an outcome is about it. -/
theorem RefreshPlan.Made.schemaList_perm {plan : RefreshPlan} {cur : NsSnapshot} (hlaw : env.Lawful) (h : plan.Made os)
    (hcur : r.snapshot = some cur) (hsound : cur.Sound env) (honce : (infos.map (·.schemaID)).Nodup)
    (hos : List.Forall₂ (Outcome.For env server r) (versioned infos) os) :
    cur.schemaList.Perm (removedBy env.rangeKeys r.snapshot plan.next ++ os.filterMap (·.old)) := by
  have hinj : ∀ {i j ss}, cur.schemas.get i = some ss → cur.schemas.get j = some ss → i = j :=
    fun hi hj => (hsound _ _ hi).1.symm.trans (hsound _ _ hj).1
  have hnd : cur.schemas.toList.Nodup := by
    apply List.Nodup.of_map Prod.fst
    rw [Dict.keys_toList]
    exact cur.schemas.nodup
  have hpart := (List.filter_append_perm (fun e => (plan.next.schemas.get e.1).isNone) cur.schemas.toList).symm
  have hmap := hpart.map (·.2)
  rw [List.map_append] at hmap
  rw [hcur]
  refine hmap.trans (List.Perm.append (removedBy_perm hlaw cur plan.next).symm ?_)
  rw [filterMap_old hcur hos]
  apply (List.perm_ext_iff_of_nodup ?_ ?_).mpr
  · intro ss
    simp only [List.mem_map, List.mem_filterMap, List.mem_filter]
    constructor
    · intro ⟨⟨sc, ss'⟩, ⟨hmem, hnext⟩, hss⟩
      cases hss
      refine ⟨sc, ?_, Dict.mem_toList.mp hmem⟩
      have hkey := (plan.next.schemas.mem_keys sc).mpr (by simpa [Option.isSome_iff_ne_none] using hnext)
      rw [h.keys hos] at hkey
      exact List.mem_map.mp hkey
    · intro ⟨sc, hsc, hget⟩
      refine ⟨(sc, ss), ⟨Dict.mem_toList.mpr hget, ?_⟩, rfl⟩
      have hkey : sc ∈ plan.next.schemas.keys := by
        rw [h.keys hos]
        exact List.mem_map.mpr hsc
      simpa [Option.isSome_iff_ne_none] using (plan.next.schemas.mem_keys sc).mp hkey
  · apply List.Nodup.map_on _ (hnd.filter _)
    intro ⟨i, ss⟩ hi ⟨j, ss'⟩ hj heq
    have hi := Dict.mem_toList.mp (List.mem_filter.mp hi).1
    have hj := Dict.mem_toList.mp (List.mem_filter.mp hj).1
    cases heq
    rw [hinj hi hj]
  · apply List.Nodup.filterMap _ (honce.sublist (List.filter_sublist.map _))
    intro i j ss hi hj
    exact hinj hi hj

/-! ## Applying the difference -/

section
variable {files : List FileDescriptor} {α : Type} (l : List α) (f : α → SchemaSnapshot)
  (g : ClientErr → ClientErr)

theorem removeAll_holds (hcompiled : ∀ a ∈ l, (f a).Compiled (f a).files.rangeFiles)
    (hreg : Registrable ((l.flatMap fun a => (f a).files.rangeFiles) ++ files)) :
    StateE.Triple (fun agg : Aggregate => agg.Holds ((l.flatMap fun a => (f a).files.rangeFiles) ++ files))
      (l.forM fun a => (removeFromAggregate (f a)).mapError g) (fun _ agg => agg.Holds files)
      fun _ _ => False := by
  refine StateE.Triple.forM (J := fun _ rest (agg : Aggregate) =>
    agg.Holds ((rest.flatMap fun a => (f a).files.rangeFiles) ++ files)) ?_
  intro done a rest hl
  apply StateE.Triple.mapError
  rw [List.flatMap_cons, List.append_assoc]
  apply removeFromAggregate_holds
  · apply hcompiled
    rw [hl]
    exact List.mem_append_right _ (List.mem_cons_self ..)
  · apply hreg.aggregable.sublist
    rw [hl, List.flatMap_append, List.flatMap_cons, List.append_assoc, List.append_assoc]
    exact List.sublist_append_right _ _

omit g in
theorem applyEach_holds {step : α → StateE Aggregate ClientErr PUnit}
    (hstep : ∀ a (files : List FileDescriptor), Registrable (files ++ (f a).files.rangeFiles) →
      StateE.Triple (fun agg : Aggregate => agg.Holds files) (step a)
        (fun _ agg => agg.Holds (files ++ (f a).files.rangeFiles)) fun _ _ => False)
    (hreg : Registrable (files ++ l.flatMap fun a => (f a).files.rangeFiles)) :
    StateE.Triple (fun agg : Aggregate => agg.Holds files) (l.forM step)
      (fun _ agg => agg.Holds (files ++ l.flatMap fun a => (f a).files.rangeFiles)) fun _ _ => False := by
  have hloop := StateE.Triple.forM (l := l) (g := step)
    (E := fun _ _ => False) (J := fun done _ (agg : Aggregate) =>
      agg.Holds (files ++ done.flatMap fun a => (f a).files.rangeFiles)) ?_
  · simp only [List.flatMap_nil, List.append_nil] at hloop
    exact hloop
  · intro done a rest hl
    rw [List.flatMap_append, List.flatMap_singleton, ← List.append_assoc]
    apply hstep
    apply hreg.sublist
    rw [hl, List.flatMap_append, List.flatMap_cons, ← List.append_assoc, ← List.append_assoc]
    exact List.sublist_append_left _ _

end

/-! ## The state between refreshes -/

/-- The resolver holds the files of its snapshot, which can be registered together. -/
structure Resolver.Tracking (env : External) (r : Resolver) (cur : NsSnapshot) : Prop where
  snapshot : r.snapshot = some cur
  sound : cur.Sound env
  registrable : Registrable cur.files
  holds : r.toAggregate.Holds cur.files
  live : r.fromCache = false

theorem NsSnapshot.Sound.fromSet {s : NsSnapshot} (h : s.Sound env) (hss : ss ∈ s.schemaList) : ss.FromSet env := by
  obtain ⟨⟨sc, ss'⟩, hmem, heq⟩ := List.mem_map.mp hss
  cases heq
  exact (h sc ss' (Dict.mem_toList.mp hmem)).2

theorem NsSnapshot.consistent_of_registrable {s : NsSnapshot} (hreg : Registrable s.files) :
    Consistent s.visits := by
  intro i j n hi hj
  by_contra hne
  have hnames := hreg.declared
  rw [NsSnapshot.files, List.flatMap_assoc] at hnames
  have hpair := (List.nodup_flatMap.mp hnames).2
  have : Std.Symm (Function.onFun List.Disjoint fun e : String × SchemaSnapshot =>
      e.2.files.rangeFiles.flatMap (·.declared)) := ⟨fun _ _ h n hn hn' => h hn' hn⟩
  obtain ⟨ss, hss, f, hf, hn⟩ := NsSnapshot.mem_visits.mp hi
  obtain ⟨ss', hss', g, hg, hn'⟩ := NsSnapshot.mem_visits.mp hj
  have hdisjoint := hpair.forall (NsSnapshot.mem_sorted.mpr hss) (NsSnapshot.mem_sorted.mpr hss')
    fun heq => hne (Prod.mk.inj heq).1
  exact hdisjoint (List.mem_flatMap.mpr ⟨f, hf, (rangeFileDescriptors_sublist f).subset hn⟩)
    (List.mem_flatMap.mpr ⟨g, hg, (rangeFileDescriptors_sublist g).subset hn'⟩)

theorem exists_buildNameIndex {s : NsSnapshot} (hnew : s.nameIndex = .empty) (hreg : Registrable s.files) :
    ∃ next, s.buildNameIndex = .ok next :=
  ⟨_, (NsSnapshot.buildNameIndex_eq_ok_iff hnew).mpr ⟨NsSnapshot.consistent_of_registrable hreg, rfl⟩⟩

theorem schemas_of_buildNameIndex {s next : NsSnapshot} (h : s.buildNameIndex = .ok next) :
    next.schemas = s.schemas := by
  rw [NsSnapshot.buildNameIndex] at h
  split at h
  · cases h
    rfl
  · cases h

theorem Resolver.Tracking.of_index {s next : NsSnapshot} {agg : Aggregate} (h : s.buildNameIndex = .ok next)
    (hlive : r.fromCache = false) (hsound : s.Sound env) (hreg : Registrable s.files) (hholds : agg.Holds s.files) :
    Resolver.Tracking env { r with toAggregate := agg, snapshot := some next } next ∧ next.files = s.files := by
  have hschemas := schemas_of_buildNameIndex h
  have hfiles : next.files = s.files := by rw [NsSnapshot.files, NsSnapshot.sorted, hschemas]; rfl
  refine ⟨⟨rfl, ?_, hfiles ▸ hreg, hfiles ▸ hholds, hlive⟩, hfiles⟩
  intro sc ss hss
  exact hsound sc ss (hschemas ▸ hss)

section
variable {cur : NsSnapshot} {plan : RefreshPlan} {os : List Outcome} (hlaw : env.Lawful) (ht : r.Tracking env cur)
  (hmade : plan.Made os) (honce : (infos.map (·.schemaID)).Nodup)
  (hos : List.Forall₂ (Outcome.For env server r) (versioned infos) os)
include hlaw ht hmade honce hos

/-- The files of the schemas that stay as they are. -/
def keptFiles (os : List Outcome) : List FileDescriptor :=
  (os.filterMap (·.kept?)).flatMap fun ss => ss.files.rangeFiles

theorem Resolver.Tracking.files_perm :
    cur.files.Perm (((removedBy env.rangeKeys r.snapshot plan.next).flatMap fun ss => ss.files.rangeFiles) ++
      ((plan.replaced.flatMap fun rep => rep.1.files.rangeFiles) ++ keptFiles os)) := by
  have hperm := hmade.schemaList_perm hlaw ht.snapshot ht.sound honce hos
  have hsplit := (hperm.trans ((Outcome.perm_old os).append_left _)).flatMap_right
    fun ss => ss.files.rangeFiles
  rw [List.flatMap_append, List.flatMap_append, List.flatMap_map, ← hmade.replaced] at hsplit
  exact cur.files_perm.trans hsplit

theorem Resolver.Tracking.removal_holds :
    StateE.Triple (fun agg : Aggregate => agg.Holds cur.files)
      (do
        (removedBy env.rangeKeys r.snapshot plan.next).forM fun ss =>
          (removeFromAggregate ss).mapError (·.context "refresh aggregate remove")
        plan.replaced.forM fun rep =>
          (removeFromAggregate rep.1).mapError (·.context "refresh aggregate replace (remove old)"))
      (fun _ agg => agg.Holds (keptFiles os)) fun _ _ => False := by
  have hfiles := ht.files_perm hlaw hmade honce hos
  have hreg := ht.registrable.perm hfiles
  have hperm := hmade.schemaList_perm hlaw ht.snapshot ht.sound honce hos
  have hcompiled : ∀ ss ∈ removedBy env.rangeKeys r.snapshot plan.next ++ os.filterMap (·.old),
      ss.Compiled ss.files.rangeFiles := fun ss hss => (ht.sound.fromSet (hperm.mem_iff.mpr hss)).compiled
  refine StateE.Triple.bind (Q := fun _ agg => agg.Holds ((plan.replaced.flatMap fun rep =>
    rep.1.files.rangeFiles) ++ keptFiles os)) ?_ fun _ => ?_
  · exact (removeAll_holds _ (fun ss => ss) _ (fun ss hss => hcompiled ss (List.mem_append_left _ hss)) hreg).weaken
      (fun agg h => h.perm hfiles) (fun _ _ h => h) fun _ _ h => h
  · refine removeAll_holds plan.replaced (fun rep => rep.1) _ (fun rep hrep => ?_)
      (hreg.sublist (List.sublist_append_right _ _))
    apply hcompiled
    apply List.mem_append_right
    rw [hmade.replaced] at hrep
    exact (Outcome.perm_old os).mem_iff.mpr (List.mem_append_left _ (List.mem_map_of_mem hrep))

omit hlaw ht honce hos in
theorem RefreshPlan.Made.toApply_perm : plan.next.files.Perm
    (keptFiles os ++ plan.toApply.flatMap fun ss => ss.files.rangeFiles) := by
  have happly : plan.toApply.Perm (os.filterMap (·.added?) ++ (os.filterMap (·.replaced?)).map (·.2)) := by
    rw [RefreshPlan.toApply, hmade.added, hmade.replaced]
    exact List.perm_insertionSort _ _
  have hnext := ((Outcome.perm_next os).trans (happly.symm.append_right _)).flatMap_right
    fun ss => ss.files.rangeFiles
  rw [← hmade.schemaList, List.flatMap_append] at hnext
  exact plan.next.files_perm.trans (hnext.trans List.perm_append_comm)

theorem Resolver.Tracking.applyDiff_holds (hreg : Registrable plan.next.files) :
    StateE.Triple (fun agg : Aggregate => agg.Holds cur.files)
      (applyDiff plan (removedBy env.rangeKeys r.snapshot plan.next)) (fun _ agg => agg.Holds plan.next.files)
      fun _ _ => False := by
  have hperm := hmade.toApply_perm
  have hthird : StateE.Triple (fun agg : Aggregate => agg.Holds (keptFiles os))
      (plan.toApply.forM fun ss =>
        (applyToAggregate ss ss.files.rangeFiles).mapError (·.context "refresh aggregate apply"))
      (fun _ agg => agg.Holds (keptFiles os ++ plan.toApply.flatMap fun ss => ss.files.rangeFiles))
      fun _ _ => False :=
    applyEach_holds _ (fun ss => ss) (fun ss _ hreg => (applyFiles_holds ss.schemaID hreg.aggregable).mapError)
      (hreg.perm hperm)
  have hbind := StateE.Triple.bind (ht.removal_holds hlaw hmade honce hos) fun _ => hthird
  rw [bind_assoc] at hbind
  exact hbind.weaken (fun _ h => h) (fun _ _ h => h.perm hperm.symm) fun _ _ h => h

omit hlaw ht honce in
theorem RefreshPlan.Made.sound : plan.next.Sound env := by
  intro sc ss hss
  rw [← Dict.mem_toList, hmade.next] at hss
  obtain ⟨o, ho, heq⟩ := List.mem_map.mp hss
  cases heq
  obtain ⟨info, _, hfor⟩ := forall₂_exists hos ho
  exact ⟨rfl, hfor.fromSet⟩

end

/-! ## Populating -/

theorem plan_of_loadSchemas (hnone : r.snapshot = none)
    (h : infos.foldlM (loadSchema env server r) .new = .ok snap) :
    ∃ plan, infos.foldlM (planSchema env server r) ⟨.new, [], []⟩ = .ok plan ∧ plan.next = snap := by
  suffices H : ∀ (plan : RefreshPlan) (snap₀ : NsSnapshot), plan.next = snap₀ →
      infos.foldlM (loadSchema env server r) snap₀ = .ok snap →
      ∃ plan', infos.foldlM (planSchema env server r) plan = .ok plan' ∧ plan'.next = snap from
    H ⟨.new, [], []⟩ .new rfl h
  clear h
  induction infos with
  | nil =>
    intro plan snap₀ hnext h
    cases h
    exact ⟨plan, rfl, hnext⟩
  | cons info infos ih =>
    intro plan snap₀ hnext h
    rw [List.foldlM_cons] at h ⊢
    obtain ⟨snap₁, hstep, hrest⟩ := except_bind_eq_ok.mp h
    obtain ⟨sc, _ | v⟩ := info
    · cases hstep
      exact ih plan snap₀ hnext hrest
    · obtain ⟨ss, hss, hput⟩ := except_bind_eq_ok.mp hstep
      cases hput
      have hplan : planSchema env server r plan ⟨sc, some v⟩ =
          .ok ⟨plan.next.put sc ss, plan.added ++ [ss], plan.replaced⟩ := by
        simp only [planSchema, hnone, Option.bind_none, fetchForRefresh, hss]
        rfl
      rw [hplan]
      exact ih _ _ (by rw [hnext]) hrest

theorem fetch_of_loadSchemas (h : infos.foldlM (loadSchema env server r) .new = .ok snap) :
    ∀ sc v, ⟨sc, some v⟩ ∈ infos → ∃ ss, fetchSchema env server r sc v = .ok ss := by
  refine foldlM_inv (J := fun done _ => ∀ sc v, ⟨sc, some v⟩ ∈ done →
    ∃ ss, fetchSchema env server r sc v = .ok ss) (fun _ _ h => (by cases h)) ?_ h
  intro done info snap₀ snap₁ _ hdone hstep sc v hmem
  rcases List.mem_append.mp hmem with hmem | hmem
  · exact hdone sc v hmem
  · cases List.mem_singleton.mp hmem
    obtain ⟨ss, hss, _⟩ := except_bind_eq_ok.mp hstep
    exact ⟨ss, hss⟩

theorem tracked_nodup (honce : server.ListsOnce) (hinfos : listAllSchemas server r = .ok infos) :
    (infos.map (·.schemaID)).Nodup := by
  rw [listAllSchemas_eq_ok hinfos]
  exact (honce r.ns).sublist (List.filter_sublist.map _)

/-- A new resolver can be populated when everything can be fetched and registered together. -/
theorem populate_of_registrable (hlaw : env.Lawful) (hnone : r.snapshot = none)
    (hfiles : r.nsFiles = .new) (htypes : r.nsTypes = .new) (hlive : r.fromCache = false)
    (honce : server.ListsOnce) (hinfos : listAllSchemas server r = .ok infos)
    (hfetch : ∀ sc v, ⟨sc, some v⟩ ∈ infos → ∃ ss, fetchSchema env server r sc v = .ok ss)
    (hreg : Registrable (r.tracked server)) :
    ∃ r' snap, populate env server r = .ok r' ∧ r'.Tracking env snap ∧ snap.files.Perm (r.tracked server) := by
  have hround : ∀ info ∈ infos, ∀ snap, ∃ snap', loadSchema env server r snap info = .ok snap' := by
    intro ⟨sc, version⟩ hinfo snap
    cases version with
    | none => exact ⟨snap, rfl⟩
    | some v =>
      obtain ⟨ss, hss⟩ := hfetch sc v hinfo
      refine ⟨snap.put sc ss, ?_⟩
      simp only [loadSchema, hss]
      rfl
  obtain ⟨snap, hsnap⟩ := foldlM_eq_ok hround .new
  obtain ⟨plan, hplan, rfl⟩ := plan_of_loadSchemas hnone hsnap
  obtain ⟨os, hmade, hos⟩ := plan_spec (fun cur hcur => (by rw [hnone] at hcur; cases hcur))
    (tracked_nodup honce hinfos) hplan
  have hperm := hmade.files_perm hlaw hinfos hos
  have hregnext := hreg.perm hperm.symm
  obtain ⟨next, hindex⟩ := exists_buildNameIndex hmade.nameIndex hregnext
  have hsorted : next.sorted = plan.next.sorted := by
    rw [NsSnapshot.sorted, schemas_of_buildNameIndex hindex, NsSnapshot.sorted]
  have happly : StateE.Triple (fun agg : Aggregate => agg.Holds []) (applyAll next)
      (fun _ agg => agg.Holds plan.next.files) fun _ _ => False := by
    rw [applyAll, hsorted]
    exact applyEach_holds plan.next.sorted (fun e => e.2)
      (fun e _ hreg => applyFiles_holds e.2.schemaID hreg.aggregable) hregnext
  have hagg : r.toAggregate = ⟨.new, .new⟩ := by
    rw [← hfiles, ← htypes]
  have hres := happly r.toAggregate (hagg ▸ Aggregate.Holds.new)
  cases hexec : (applyAll next).exec r.toAggregate with
  | mk res agg =>
    rw [hexec] at hres
    cases res with
    | error e => exact hres.elim
    | ok _ =>
      obtain ⟨htracking, hnext⟩ := Resolver.Tracking.of_index hindex hlive (hmade.sound hos) hregnext hres
      refine ⟨_, next, ?_, htracking, hnext ▸ hperm⟩
      simp only [populate, hinfos, hsnap, hindex, hexec, bind, Except.bind]

/-! ## Refreshing -/

/-- The refresh has listed and fetched everything, and there is something to change. -/
structure Resolver.Plans (env : External) (server : Server) (r : Resolver) (plan : RefreshPlan) : Prop where
  live : r.fromCache = false
  made : ∃ infos, listAllSchemas server r = .ok infos ∧
    infos.foldlM (planSchema env server r) ⟨.new, [], []⟩ = .ok plan
  changes : (plan.added.isEmpty && plan.replaced.isEmpty &&
    (removedBy env.rangeKeys r.snapshot plan.next).isEmpty && r.snapshot.isSome) = false

theorem Resolver.Plans.refresh_eq (h : r.Plans env server plan) : refresh env server r =
    match plan.next.buildNameIndex with
    | .error e => (.error e, r)
    | .ok next =>
      match (applyDiff plan (removedBy env.rangeKeys r.snapshot plan.next)).exec r.toAggregate with
      | (.error e, agg) => (.error e, { r with toAggregate := agg })
      | (.ok (), agg) => (.ok (), { r with toAggregate := agg, snapshot := some next }) := by
  obtain ⟨infos, hinfos, hplan⟩ := h.made
  rw [refresh, if_neg (h.live ▸ Bool.false_ne_true), hinfos]
  simp only [hplan]
  exact if_neg (ne_true_of_eq_false h.changes)

theorem Resolver.Plans.eq (h : r.Plans env server plan) (hinfos : listAllSchemas server r = .ok infos)
    (hplan : infos.foldlM (planSchema env server r) ⟨.new, [], []⟩ = .ok plan') : plan = plan' := by
  obtain ⟨infos, hinfos', hplan'⟩ := h.made
  cases hinfos.symm.trans hinfos'
  cases hplan.symm.trans hplan'
  rfl

/-- The outcome of a refresh. -/
inductive Resolver.Refreshed (env : External) (server : Server) (r : Resolver) : Except ClientErr Unit → Resolver → Prop
  | stopped : (∀ infos plan, r.fromCache = false → listAllSchemas server r = .ok infos →
      infos.foldlM (planSchema env server r) ⟨.new, [], []⟩ ≠ .ok plan) → Refreshed env server r (.error e) r
  | unchanged {infos : List SchemaInfo} : r.fromCache = false → listAllSchemas server r = .ok infos →
      infos.foldlM (planSchema env server r) ⟨.new, [], []⟩ = .ok plan → plan.added = [] → plan.replaced = [] →
      removedBy env.rangeKeys r.snapshot plan.next = [] → r.snapshot.isSome → Refreshed env server r (.ok ()) r
  | ambiguous : r.Plans env server plan → plan.next.buildNameIndex = .error e → Refreshed env server r (.error e) r
  | failed : r.Plans env server plan → plan.next.buildNameIndex = .ok next →
      (applyDiff plan (removedBy env.rangeKeys r.snapshot plan.next)).exec r.toAggregate = (.error e, agg) →
      Refreshed env server r (.error e) { r with toAggregate := agg }
  | applied : r.Plans env server plan → plan.next.buildNameIndex = .ok next →
      (applyDiff plan (removedBy env.rangeKeys r.snapshot plan.next)).exec r.toAggregate = (.ok (), agg) →
      Refreshed env server r (.ok ()) { r with toAggregate := agg, snapshot := some next }

theorem refreshed_of_eq (h : refresh env server r = (res, r')) : r.Refreshed env server res r' := by
  by_cases hplans : ∃ plan, r.Plans env server plan
  · obtain ⟨plan, hplan⟩ := hplans
    rw [hplan.refresh_eq] at h
    split at h
    · next hindex =>
      cases h
      exact .ambiguous hplan hindex
    · next hindex =>
      split at h
      · next hexec =>
        cases h
        exact .failed hplan hindex hexec
      · next hexec =>
        cases h
        exact .applied hplan hindex hexec
  · rw [refresh] at h
    split at h
    · next hcache =>
      cases h
      exact .stopped fun _ _ hlive => absurd hcache (hlive ▸ Bool.false_ne_true)
    next hlive =>
    have hlive := Bool.eq_false_of_not_eq_true hlive
    split at h
    · next hinfos =>
      cases h
      exact .stopped fun _ _ _ hinfos' => by cases hinfos.symm.trans hinfos'
    next infos hinfos =>
    split at h
    · next hplan =>
      cases h
      refine .stopped fun _ _ _ hinfos' hplan' => ?_
      cases hinfos.symm.trans hinfos'
      cases hplan.symm.trans hplan'
    next plan hplan =>
    have hsame := Bool.eq_true_of_not_eq_false fun hchanges => hplans ⟨plan, hlive, ⟨infos, hinfos, hplan⟩, hchanges⟩
    simp only [hsame, if_true] at h
    cases h
    simp only [Bool.and_eq_true, List.isEmpty_iff] at hsame
    exact .unchanged hlive hinfos hplan hsame.1.1.1 hsame.1.1.2 hsame.1.2 hsame.2

section
variable {cur : NsSnapshot} (ht : r.Tracking env cur) (honce : server.ListsOnce)
include ht honce

theorem Resolver.Tracking.plan_spec {plan : RefreshPlan} (hinfos : listAllSchemas server r = .ok infos)
    (hplan : infos.foldlM (planSchema env server r) ⟨.new, [], []⟩ = .ok plan) :
    ∃ os, plan.Made os ∧ List.Forall₂ (Outcome.For env server r) (versioned infos) os := by
  refine Client.plan_spec (fun cur' hcur' => ?_) (tracked_nodup honce hinfos) hplan
  rw [ht.snapshot] at hcur'
  cases hcur'
  exact ht.sound

/-- A successful refresh keeps track, when what it finds can be registered together. -/
theorem Resolver.Tracking.refresh (hlaw : env.Lawful) (hreg : Registrable (r.tracked server))
    (h : Client.refresh env server r = (.ok (), r')) : ∃ next, r'.Tracking env next := by
  cases refreshed_of_eq h with
  | unchanged => exact ⟨cur, ht⟩
  | applied hplans hindex hexec =>
    obtain ⟨infos, hinfos, hplan⟩ := hplans.made
    obtain ⟨os, hmade, hos⟩ := ht.plan_spec honce hinfos hplan
    have hregnext := hreg.perm (hmade.files_perm hlaw hinfos hos).symm
    have hholds := (ht.applyDiff_holds hlaw hmade (tracked_nodup honce hinfos) hos hregnext).ok ht.holds hexec
    exact ⟨_, (of_index hindex ht.live (hmade.sound hos) hregnext hholds).1⟩

end

/-- The resolver was populated and then refreshed, each time with sets whose files can be registered
together. A refresh that changes nothing leads to the same resolver, whatever the sets. -/
inductive Resolver.Reached (env : External) (ns : String) (cfg : Config) (parent : Option Resolver) :
    Resolver → Prop
  | populated {server : Server} {r : Resolver} (honce : server.ListsOnce)
    (hnew : newSingleNamespace env server ns cfg parent = .ok r)
    (hreg : Registrable (server.currentFiles cfg ns)) : Reached env ns cfg parent r
  | refreshed {server : Server} {r r' : Resolver} (hr : Reached env ns cfg parent r) (honce : server.ListsOnce)
    (href : Client.refresh env server r = (.ok (), r'))
    (hreg : Registrable (r.tracked server)) : Reached env ns cfg parent r'

theorem Resolver.Reached.tracking {ns : String} {cfg : Config} {parent : Option Resolver} (hlaw : env.Lawful)
    (h : Resolver.Reached env ns cfg parent r) : ∃ cur, r.Tracking env cur := by
  induction h with
  | populated honce hnew hreg =>
    obtain ⟨infos, snap₀, _, _, hinfos, hload, _⟩ := populate_eq_ok hnew
    simp only [newSingleNamespace] at hnew
    obtain ⟨r', snap, hr', htracking, _⟩ := populate_of_registrable hlaw rfl rfl rfl rfl honce hinfos
      (fetch_of_loadSchemas hload) (by cases parent <;> exact hreg)
    rw [hr'] at hnew
    cases hnew
    exact ⟨snap, htracking⟩
  | refreshed hr honce href hreg ih =>
    obtain ⟨cur, hcur⟩ := ih
    exact hcur.refresh honce hlaw hreg href

/-! ## A resolver built anew -/

/-- A server that has the sets of a snapshot. -/
def NsSnapshot.asServer (s : NsSnapshot) : Server where
  listSchemas _ := ⟨[s.sorted.map fun e => ⟨e.1, some e.2.version⟩], none⟩
  getDescriptor _ sc _ :=
    match s.schemas.get sc with
    | some ss => .ok (ss.version, ss.rawDescriptorSet)
    | none => .error "schema not found"
  getNamespaceChain ns := .ok [ns]

theorem Resolver.Tracking.rebuild {cur : NsSnapshot} (hlaw : env.Lawful) (ht : r.Tracking env cur) (ns : String) :
    ∃ fresh, newSingleNamespace env cur.asServer ns {} none = .ok fresh ∧ r.toAggregate.Answers fresh.toAggregate := by
  have honce : cur.asServer.ListsOnce := by
    intro ns
    simpa [NsSnapshot.asServer, Function.comp_def] using cur.sorted_keys_nodup
  let start : Resolver :=
    { ns, cfg := {}, snapshot := none, nsFiles := .new, nsTypes := .new, ancestors := [], fromCache := false }
  have hinfos : listAllSchemas cur.asServer start = .ok (cur.sorted.map fun e => ⟨e.1, some e.2.version⟩) := by
    simp [listAllSchemas, NsSnapshot.asServer, start, Config.tracksSchema]
  have hfetch : ∀ sc v, ⟨sc, some v⟩ ∈ cur.sorted.map (fun e => (⟨e.1, some e.2.version⟩ : SchemaInfo)) →
      ∃ ss, fetchSchema env cur.asServer start sc v = .ok ss := by
    intro sc v hlisted
    obtain ⟨⟨i, ss⟩, hmem, heq⟩ := List.mem_map.mp hlisted
    cases heq
    have hget := NsSnapshot.mem_sorted.mp hmem
    obtain ⟨_, files, hfiles, hcompiled⟩ := ht.sound i ss hget
    have hreg : Registrable files := by
      apply ht.registrable.sublist
      rw [← hcompiled.stores.rangeFiles]
      rw [NsSnapshot.files, List.flatMap_def]
      exact List.sublist_flatten_of_mem (List.mem_map_of_mem hmem)
    simp only [fetchSchema, NsSnapshot.asServer, hget]
    exact compileSchema_of_registrable hfiles hreg
  have htracked : (start.tracked cur.asServer).Perm cur.files := by
    have hset : ∀ e ∈ cur.sorted, ((some e.2.version).bind (start.setOf cur.asServer e.1)).getD [] =
        e.2.rawDescriptorSet := by
      intro e hmem
      obtain ⟨sc, ss⟩ := e
      have hget := NsSnapshot.mem_sorted.mp hmem
      simp only [Option.bind_some, Resolver.setOf, Server.setOf, NsSnapshot.asServer, hget]
      rfl
    rw [Resolver.tracked, ← listAllSchemas_eq_ok hinfos, List.flatMap_map, NsSnapshot.files]
    apply List.Perm.flatMap_left
    intro e hmem
    have hfrom : e.2.FromSet env := (ht.sound e.1 e.2 (NsSnapshot.mem_sorted.mp hmem)).2
    rw [hset e hmem]
    exact (hfrom.perm hlaw).symm
  obtain ⟨fresh, snap, hfresh, htracking, hperm⟩ := populate_of_registrable hlaw rfl rfl rfl rfl honce hinfos hfetch
    (ht.registrable.perm htracked.symm)
  have hholds := htracking.holds.perm (hperm.trans htracked)
  exact ⟨fresh, hfresh, ht.holds.answers hholds ht.registrable.aggregable⟩

/-! ## Runs -/

/-- After any number of refreshes, the registries of the namespace answer like those of a resolver built
anew from the same sets. -/
theorem reached_answers_rebuilt (hlaw : env.Lawful) (h : Resolver.Reached env ns cfg parent r) :
    ∃ snap fresh, r.snapshot = some snap ∧ newSingleNamespace env snap.asServer ns {} none = .ok fresh ∧
      r.toAggregate.Answers fresh.toAggregate := by
  obtain ⟨cur, ht⟩ := h.tracking hlaw
  obtain ⟨fresh, hfresh, hanswers⟩ := ht.rebuild hlaw ns
  exact ⟨cur, fresh, ht.snapshot, hfresh, hanswers⟩

theorem reached_removed : ∃ r r', newSingleNamespace Sample.env (Sample.server [] Sample.twoFiles) "n" {} none = .ok r ∧
    refresh Sample.env (Sample.server [] fun _ => [("a", [Sample.file "a.proto" [1]])]) r = (.ok (), r') ∧
    Resolver.Reached Sample.env "n" {} none r' := by
  have honce : (Sample.server [] Sample.twoFiles).ListsOnce := fun _ => (by decide : ["a", "b"].Nodup)
  have honce' : (Sample.server [] fun _ => [("a", [Sample.file "a.proto" [1]])]).ListsOnce :=
    fun _ => (by decide : ["a"].Nodup)
  refine ⟨_, _, rfl, rfl, .refreshed (.populated honce rfl (by decide)) honce' rfl ?_⟩
  decide +kernel

theorem reached_answers_rebuilt_removed : ∃ r' snap fresh,
    Resolver.Reached Sample.env "n" {} none r' ∧ r'.snapshot = some snap ∧
      newSingleNamespace Sample.env snap.asServer "n" {} none = .ok fresh ∧
      r'.toAggregate.Answers fresh.toAggregate := by
  obtain ⟨r, r', _, _, hreached⟩ := reached_removed
  obtain ⟨snap, fresh, hrest⟩ := reached_answers_rebuilt Sample.lawful_env hreached
  exact ⟨r', snap, fresh, hreached, hrest⟩

/-- Removing one of two schemas that have an enum value of the same name removes the other value too. -/
theorem value_lost : ∃ r r' snap fresh,
    newSingleNamespace Sample.env (Sample.server [] fun _ => [("a", [Sample.enumFile "a.proto" "E1"]),
      ("b", [Sample.enumFile "b.proto" "E2"])]) "n" {} none = .ok r ∧
    refresh Sample.env (Sample.server [] fun _ => [("a", [Sample.enumFile "a.proto" "E1"])]) r = (.ok (), r') ∧
    r'.snapshot = some snap ∧ newSingleNamespace Sample.env snap.asServer "n" {} none = .ok fresh ∧
    ¬ r'.toAggregate.Answers fresh.toAggregate := by
  refine ⟨_, _, _, _, rfl, rfl, rfl, rfl, fun h => ?_⟩
  have hlookup := congrArg Except.isOk (congrFun h.findDescriptorByName ["p", "X"])
  revert hlookup
  decide +kernel

-- Where a refresh only adds, the file that was added last has the value. In a resolver built anew it is the file of
-- the last schema.
example : ∃ r r' snap fresh,
    newSingleNamespace Sample.env (Sample.server [] fun _ => [("b", [Sample.enumFile "b.proto" "E2"])]) "n" {} none =
      .ok r ∧
    refresh Sample.env (Sample.server [] fun _ =>
      [("a", [{ Sample.enumFile "a.proto" "E1" with enums := [⟨["p", "E1"], [⟨["p", "X"], 1⟩]⟩] }]),
        ("b", [Sample.enumFile "b.proto" "E2"])]) r = (.ok (), r') ∧
    r'.snapshot = some snap ∧ newSingleNamespace Sample.env snap.asServer "n" {} none = .ok fresh ∧
    ¬ r'.toAggregate.Answers fresh.toAggregate := by
  refine ⟨_, _, _, _, rfl, rfl, rfl, rfl, fun h => ?_⟩
  have hnumber := congrArg (fun | .ok (.enumValue v) => v.number | _ => 0) (congrFun h.findDescriptorByName ["p", "X"])
  revert hnumber
  decide +kernel

end ProtoRegistry.Client
